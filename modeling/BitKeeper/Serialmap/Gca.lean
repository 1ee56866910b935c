import BitKeeper.Serialmap.Compress
import BitKeeper.Serialmap.Expand
import BitKeeper.Range.Algebra

/-!
`gca3` returns one greatest common ancestor with lists that add what the others have; `serialmap` of
that answer has exactly the deltas that are active in all of them.
-/

namespace BitKeeper.Serialmap

open List Activation Symdiff Dag Range

variable {s : Sfile} {d : Nat}

theorem Restored.marks_set {proper : Proper s.graph s.cludes} {set map : Nat → Byte}
    {marks : Nat → Mark} (restored : Restored s proper d set map marks) {e : Nat}
    (other : e ≠ 1 ∨ set 1 ≠ 0) (reals : set e ≠ 0 → RealSerial s.graph e) :
    map e ≠ 0 ↔ set e ≠ 0 := by
  rw [restored.map e,answered_ne_zero,← within_true]
  by_cases real : RealSerial s.graph e
  · rw [← restored.active e real]
    by_cases visited : 1 < e ∧ s.graph.tag e = false
    · rw [if_pos visited]
    have one : e = 1 := by
      by_contra more
      have nonzero := real.1
      exact visited ⟨by omega,real.2.2⟩
    have on : (marks e).active = true := by
      rw [restored.active e real,within_true,one]
      exact other.resolve_left fun differs => differs one
    rw [if_neg visited]
    refine ⟨fun _ => on, fun _ blank => ?_⟩
    rw [blank] at on
    exact absurd on (by decide)
  · have blank := restored.blank e real
    have out : ¬ within set e = true := fun inside => real (reals (within_true.mp inside))
    rw [blank]
    refine ⟨fun active => ?_, fun inside => absurd inside out⟩
    split at active
    · exact absurd active (by decide)
    · exact absurd rfl active

private theorem serialmap_compressed (s : File) (proper : Proper s.graph s.cludes)
    (real : RealSerial s.graph d) {set : Nat → Byte} (reals : ∀ e, set e ≠ 0 → RealSerial s.graph e)
    (root : set 1 ≠ 0) :
    ∃ map, serialmap s d 0 (compressmap s d set).1 (compressmap s d set).2 = .ok map ∧
      ∀ e, map e ≠ 0 ↔ set e ≠ 0 := by
  obtain ⟨map,marks,ran,restored⟩ := serialmap_restored s proper real set
  exact ⟨map,ran,fun e => restored.marks_set (.inr root) (reals e)⟩

/-- Nothing is returned if `assert(count)` or the assertion of `symdiff` fails. -/
def gca3 (s : File) (flags : Range.Sccs) (left right : Nat) :
    Option (Nat × Option Bytes × Option Bytes) :=
  if s.graph.table = 0 ∨ left = 0 ∨ right = 0 then some (0, none, none)
  else
    match (walkrevs_collect s.graph flags [left] (some [right]) ⟨false,false,false,true⟩).2 with
    | [] => none
    | [gca] => some (gca, none, none)
    | gca :: other :: rest =>
      (symdiff_expand s.toSfile (gca :: other :: rest) 0 fun _ => 0).map fun out =>
        (gca, compressmap s gca out.2)

def Rooted (g : Graph) : Prop := ∀ d, RealSerial g d → d ≠ 1 → g.parent d ≠ 0

variable {g : Graph}

theorem realSerial_parent (real : RealSerial g d) (child : g.parent d ≠ 0) :
    RealSerial g (g.parent d) := by
  have below := g.parent_lt d real.1
  have within := real.2.1
  exact ⟨child,by omega,g.parent_real d real.2.2 child⟩

theorem Rooted.oldest (rooted : Rooted g) {P : Nat → Prop}
    (step : ∀ d, RealSerial g d → P d → g.parent d ≠ 0 → P (g.parent d)) (real : RealSerial g d)
    (start : P d) :
    RealSerial g 1 ∧ P 1 := by
  induction d using Nat.strong_induction_on with
  | _ d ih =>
    by_cases one : d = 1
    · rw [← one]
      exact ⟨real,start⟩
    · have child := rooted d real one
      exact ih _ (g.parent_lt d real.1) (realSerial_parent real child) (step d real start child)

theorem Rooted.reach (rooted : Rooted g) (real : RealSerial g d) : Reach (eachParent g) d 1 := by
  refine (rooted.oldest (P := fun e => Reach (eachParent g) d e) (fun e realE reached child => ?_)
    real (.self d)).2
  refine reached.trans (.step ?_ child (.self _))
  unfold eachParent
  rw [if_neg fun either => either.elim realE.1 child]
  split
  · exact mem_singleton_self _
  · exact mem_cons_self

theorem Rooted.par (rooted : Rooted s.graph) (proper : Proper s.graph s.cludes)
    {answer : Nat → Bool} {m : Nat → Mark} (real : RealSerial s.graph d) (par : (m d).par = true) :
    (walkWith (s.net s.cludes proper) answer s.graph.table m 1).par = true := by
  refine (rooted.oldest
    (P := fun e => (walkWith (s.net s.cludes proper) answer s.graph.table m e).par = true)
    (fun e realE parE child => ?_) real (walkWith_par_mono par)).2
  refine walkWith_par_lineage realE.1 realE.2.1 realE.2.2 ?_ parE
  change s.graph.parent e ∈ s.lineage e
  unfold Sfile.lineage
  rw [if_neg realE.1,if_neg child]
  exact mem_append_left _ mem_cons_self

theorem serialmap_alone (s : File) (proper : Proper s.graph s.cludes) (real : RealSerial s.graph d) :
    ∃ map, serialmap s d 0 none none = .ok map ∧ ∀ e, map e = seedmap s.toSfile [d] e := by
  have none_ : ∀ t ∈ ([] : List Nat), RealSerial s.graph t := nofun
  obtain ⟨map,ran,mapEq⟩ := serialmap_printed s proper real none_ none_ nofun
  have low : ∀ t ∈ [d], t ≤ s.graph.table := fun t inside => (mem_singleton.mp inside).symm ▸ real.2.1
  refine ⟨map,ran,fun e => ?_⟩
  rw [mapEq e,seedmap_answered proper low]
  rfl

variable {list : List Nat}

theorem seedmap_oldest (rooted : Rooted s.graph) (proper : Proper s.graph s.cludes)
    (reals : ∀ d ∈ list, RealSerial s.graph d) (inside : d ∈ list) : seedmap s list 1 ≠ 0 := by
  have par : (walk (s.net s.cludes proper) s.graph.table (seedMarks list) 1).par = true := by
    rw [← walk_answers]
    refine rooted.par proper (reals d inside) ?_
    unfold seedMarks
    rw [if_pos inside]
    rfl
  rw [seedmap_answered proper fun t listed => (reals t listed).2.1, answered_ne_zero,
    if_neg fun both => absurd both.1 (by decide)]
  intro blank
  rw [blank] at par
  exact absurd par (by decide)

theorem seedmap_real (proper : Proper s.graph s.cludes) (reals : ∀ d ∈ list, RealSerial s.graph d)
    {e : Nat} (on : seedmap s list e ≠ 0) : RealSerial s.graph e := by
  by_contra outside
  have blank : walk (s.net s.cludes proper) s.graph.table (seedMarks list) e = Mark.blank := by
    by_cases above : s.graph.table < e
    · rw [walk_above _ (by omega)]
      exact if_neg fun inside => outside (reals e inside)
    · refine walk_seeds_blank proper reals _ ?_
      by_contra neither
      exact outside ⟨fun zero => neither (.inl zero), by omega,
        eq_false_of_ne_true fun tag => neither (.inr tag)⟩
  rw [seedmap_answered proper fun t listed => (reals t listed).2.1, answered_ne_zero,blank] at on
  split at on
  · exact absurd on (by decide)
  · exact absurd rfl on

theorem serialmap_expanded (s : File) (proper : Proper s.graph s.cludes) (rooted : Rooted s.graph)
    (reals : ∀ d ∈ list, RealSerial s.graph d) (inside : d ∈ list) :
    ∃ count set map, symdiff_expand s.toSfile list 0 (fun _ => 0) = some (count, set) ∧
      serialmap s d 0 (compressmap s d set).1 (compressmap s d set).2 = .ok map ∧ ∀ e, map e ≠ 0 ↔
        seedmap s.toSfile list e ≠ 0 := by
  obtain ⟨set,ran,_bytes,entries⟩ :=
    expand_entries (s := s.toSfile) proper reals (.inl rfl) fun _ => .inl rfl
  obtain ⟨map,marks,restoredRun,restored⟩ := serialmap_restored s proper (reals d inside) set
  have set_iff : ∀ e, e ≠ 1 → (set e ≠ 0 ↔ seedmap s.toSfile list e ≠ 0) := by
    intro e other
    have empty : seedmap s.toSfile (rightList 0) e = 0 := rfl
    rw [entries e fun one => absurd one other]
    unfold entry
    rw [if_neg (not_not.mpr empty)]
    split
    next on =>
      exact ⟨fun _ => on, fun _ => by decide⟩
    next on =>
      exact ⟨(absurd rfl ·), fun also => absurd also on⟩
  refine ⟨_,set,map,ran,restoredRun,fun e => ?_⟩
  by_cases one : e = 1
  · have par : (marks 1).par = true := by
      rw [restored.par 1]
      refine rooted.par proper (reals d inside) ?_
      unfold seedMarks
      rw [if_pos mem_cons_self]
      rfl
    have marked : map 1 ≠ 0 := by
      rw [restored.map 1,answered_ne_zero,if_neg fun both => absurd both.1 (by decide)]
      intro blank
      rw [blank] at par
      exact absurd par (by decide)
    rw [one]
    exact ⟨fun _ => seedmap_oldest rooted proper reals inside, fun _ => marked⟩
  · rw [restored.marks_set (.inl one) fun on => seedmap_real proper reals ((set_iff e one).mp on),
      set_iff e one]

theorem gca3_restores (s : File) (proper : Proper s.graph s.cludes) (rooted : Rooted s.graph)
    {flags : Range.Sccs} {left right : Nat} (table : s.graph.table ≠ 0) (nonzeroLeft : left ≠ 0)
    (nonzeroRight : right ≠ 0)
    (found : (walkrevs_collect s.graph flags [left] (some [right]) ⟨false,false,false,true⟩).2 =
      list)
    (reals : ∀ d ∈ list, RealSerial s.graph d) (some_ : list ≠ []) :
    ∃ gca inc exc map, gca3 s flags left right = some (gca, inc, exc) ∧
      serialmap s gca 0 inc exc = .ok map ∧
      ∀ e, map e ≠ 0 ↔ seedmap s.toSfile list e ≠ 0 := by
  unfold gca3
  rw [if_neg fun either => either.elim table fun either => either.elim nonzeroLeft nonzeroRight,
    found]
  cases list with
  | nil => exact absurd rfl some_
  | cons gca others =>
    have first : RealSerial s.graph gca := reals gca mem_cons_self
    cases others with
    | nil =>
      obtain ⟨map,ran,mapEq⟩ := serialmap_alone s proper first
      exact ⟨gca,none,none,map,rfl,ran,fun e => by rw [mapEq e]⟩
    | cons other rest =>
      obtain ⟨count,set,map,expanded,ran,same⟩ :=
        serialmap_expanded s proper rooted reals mem_cons_self
      refine ⟨gca,(compressmap s gca set).1,(compressmap s gca set).2,map,?_,ran,same⟩
      dsimp only
      rw [expanded]
      rfl

/-- The lists of `compressmap` lead back to the map, those of `gca3` to what is active in all
greatest common ancestors together. -/
theorem serialmap_compressmap (s : File) (proper : Proper s.graph s.cludes) :
    (∀ d set, RealSerial s.graph d → (∀ e, set e ≠ 0 → RealSerial s.graph e) → set 1 ≠ 0 →
      ∃ map, serialmap s d 0 (compressmap s d set).1 (compressmap s d set).2 = .ok map ∧
        ∀ e, map e ≠ 0 ↔ set e ≠ 0) ∧
    ∀ flags left right, Rooted s.graph → Range.Clean flags → RealSerial s.graph left →
      RealSerial s.graph right →
      ∃ list gca inc exc map,
        (∀ x, x ∈ list ↔
      Range.Tip s.graph (fun y => Range.Closure s.graph [right] y ∧ Range.Closure s.graph [left] y)
      x) ∧
        gca3 s flags left right = some (gca, inc, exc) ∧ serialmap s gca 0 inc exc = .ok map ∧
        ∀ e, map e ≠ 0 ↔ seedmap s.toSfile list e ≠ 0 := by
  refine ⟨fun d set real reals root => serialmap_compressed s proper real reals root,
    fun flags left right rooted clean realLeft realRight => ?_⟩
  have realBlue : Range.RealList s.graph [left] := fun e inside => mem_singleton.mp inside ▸ realLeft
  have realRed : ∀ list, some [right] = some list → Range.RealList s.graph list := by
    rintro _ ⟨⟩ e inside
    exact (mem_singleton.mp inside).symm ▸ realRight
  obtain ⟨_sorted,mem,_clean⟩ :=
    walkrevs_collect_answer clean realBlue realRed ⟨false,false,false,true⟩
  have common : Range.Closure s.graph [right] 1 ∧ Range.Closure s.graph [left] 1 :=
    ⟨⟨right,mem_cons_self,rooted.reach realRight⟩,⟨left,mem_cons_self,rooted.reach realLeft⟩⟩
  obtain ⟨tip,isTip,_reached⟩ := exists_tip (g := s.graph) (n := s.graph.table)
    (fun x (both : Range.Closure s.graph [right] x ∧ Range.Closure s.graph [left] x) =>
      (Range.Closure.real realBlue both.2).2.1) common
  have tips : ∀ x,
    x ∈ (walkrevs_collect s.graph flags [left] (some [right]) ⟨false,false,false,true⟩).2 ↔
      Range.Tip s.graph (fun y => Range.Closure s.graph [right] y ∧ Range.Closure s.graph [left] y)
        x := mem
  have table : s.graph.table ≠ 0 := fun empty => by
    have within := realLeft.2.1
    have nonzero := realLeft.1
    omega
  obtain ⟨gca,inc,exc,map,answer,ran,same⟩ := gca3_restores s proper rooted table realLeft.1
    realRight.1 rfl
    (fun d inside => Range.Closure.real realBlue ((tips d).mp inside).1.2)
    (ne_nil_of_mem ((tips tip).mpr isTip))
  exact ⟨_,gca,inc,exc,map,tips,answer,ran,same⟩

def branchedFile : File where
  toSfile := branched
  rev d := if d = 3 then ⟨1,1,1,1⟩ else if d = 6 then ⟨1,1,1,2⟩ else ⟨1,d,0,0⟩
  findSym := fun _ => 0
  newest := 6
  rev_trunk := fun d trunk => by
    split_ifs at trunk ⊢
    all_goals first
      | exact absurd trunk (by decide)
      | rfl
  rev_inj := by decide +kernel

theorem branched_rooted : Rooted branched.graph := by
  intro d real other
  have low : d < 7 := Nat.lt_succ_of_le real.2.1
  have nonzero := real.1
  interval_cases d <;> first | exact absurd rfl nonzero | exact absurd rfl other | decide

theorem serialmap_compressmap_branched :
    (∃ map, serialmap branchedFile 4 0
      (compressmap branchedFile 4 fun e => if e = 1 ∨ e = 3 then 1 else 0).1
        (compressmap branchedFile 4 fun e => if e = 1 ∨ e = 3 then 1 else 0).2 = .ok map ∧
      map 3 ≠ 0 ∧ map 4 = 0) ∧
      ∃ gca inc exc map, gca3 branchedFile ⟨fun _ => Range.Flags.clear, 0,0,false,false⟩ 4 3 =
        some (gca, inc, exc) ∧
        serialmap branchedFile gca 0 inc exc = .ok map := by
  obtain ⟨maps,gcas⟩ := serialmap_compressmap branchedFile branched_proper
  obtain ⟨map,ran,same⟩ :=
      maps 4 (fun e => if e = 1 ∨ e = 3 then 1 else 0) (by decide) (fun e on => by
    have member : e = 1 ∨ e = 3 := by
      by_contra other
      exact on (if_neg other)
    rcases member with rfl | rfl <;> decide) (by decide)
  obtain ⟨_list,gca,inc,exc,map',_tips,answer,ran',_same⟩ := gcas ⟨fun _ => Range.Flags.clear, 0,0,
    false,false⟩ 4 3 branched_rooted
    (fun _ => rfl) (by decide) (by decide)
  refine ⟨⟨map,ran,(same 3).mpr (by decide),?_⟩,gca,inc,exc,map',answer,ran'⟩
  by_contra on
  exact absurd ((same 4).mp on) (by decide)

end BitKeeper.Serialmap
