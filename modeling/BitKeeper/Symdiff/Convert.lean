import BitKeeper.Symdiff.Dups
import BitKeeper.Serialmap.Gca

/-!
Converting a file to the other merge bookkeeping: every list is expanded with the old lists and
compressed against the new ones, so that converting twice gives every list back.
-/

namespace BitKeeper.Symdiff

open List Function Activation Dag Serialmap

structure Convert where
  s : Sfile
  cludes : Nat → List Clude
  slist : Nat → Byte

def Sfile.flip (s : Sfile) : Sfile := { s with bkmerge := !s.bkmerge }

def convertAt (st : Convert) (d : Nat) : Option Convert :=
  if st.s.graph.tag d = true ∨ (st.s.graph.merge d = 0 ∧ st.s.cludes d = []) then some st
  else
    let cludes := Function.update st.cludes d (st.s.cludes d)
    (symdiff ⟨st.s,d,cludes,true,true⟩ (rightList (st.s.graph.parent d)) st.slist (-1)).bind
      fun out =>
      (comp st.s.flip (rightList (st.s.graph.parent d)) d out.dups out.slist out.count).map
        fun done => ⟨done.1.flip,cludes,done.2⟩

def graph_convert (s : Sfile) : Option Sfile :=
  (s.graph.serials.foldlM convertAt ⟨s,fun _ => [], fun _ => 0⟩).map fun st => st.s.flip

def setOf (net : Net) (d : Nat) : Nat → Bool := activeFrom net [d] d

variable {d : Nat}

private theorem activeFrom_setOf (net : Net) {top : Nat} (low : d ≤ top) :
    activeFrom net [d] top = setOf net d := by
  have blank : ∀ f, d < f → seedMarks [d] f = Mark.blank :=
    fun f above => if_neg fun inside => absurd (mem_singleton.mp inside) (by omega)
  funext e
  unfold setOf activeFrom
  rw [walk_blank low blank]

private theorem activeFrom_nil (net : Net) (top e : Nat) : activeFrom net [] top e = false := by
  have blank : ∀ f, 0 < f → seedMarks [] f = Mark.blank := fun f _ => if_neg not_mem_nil
  unfold activeFrom
  rw [walk_blank (Nat.zero_le top) blank]
  unfold walk seedMarks
  rw [if_neg not_mem_nil]
  rfl

variable {net : Net}

theorem activeFrom_parent {p top : Nat} (low : p ≤ top) :
    activeFrom net (rightList p) top = if p = 0 then fun _ => false else setOf net p := by
  unfold rightList
  by_cases zero : p = 0
  · rw [if_pos zero,if_pos zero]
    exact funext (activeFrom_nil net top)
  · rw [if_neg zero,if_neg zero,activeFrom_setOf net low]

variable {other : Net}

theorem setOf_alike (same : ∀ e, e ≤ d → Alike net other e) : setOf net d = setOf other d := by
  funext e
  unfold setOf activeFrom
  rw [walk_alike _ same]

theorem setOf_self (net : Net) (d : Nat) : setOf net d d = true := by
  unfold setOf activeFrom
  rw [walk_above _ le_rfl,seedMarks_active]

variable {e : Nat}

theorem setOf_above (net : Net) (above : d < e) : setOf net d e = false :=
  activeFrom_above net (fun _ inside => le_of_eq (mem_singleton.mp inside)) above

variable {k : Nat}

theorem setOf_plain (net : Net) (real : net.skip (k + 1) = false) (none : net.notes (k + 1) = [])
    (below : e ≤ k) :
    setOf net (k + 1) e = activeFrom net (net.lineage (k + 1)) k e := by
  refine congrArg Mark.active (walk_congr (fun f low => ?_) below)
  have unseeded : f ∉ [k + 1] := fun inside => absurd (mem_singleton.mp inside) (by omega)
  have handed : hand net (k + 1) (seedMarks [k + 1]) f = seedMarks (net.lineage (k + 1)) f := by
    unfold hand seedMarks
    rw [if_neg unseeded,if_pos mem_cons_self]
    exact if_congr (and_iff_right rfl) rfl rfl
  unfold step
  rw [none,real,handed]
  exact ite_self _

def Needed (g : Graph) (net : Net) (d : Nat) (c : Clude) : Prop :=
  c.serial ≠ 0 ∧ c.serial ≤ d ∧
    Wanted g (setOf net d) (walkWith (net.bare d) (setOf net d) d (seedMarks [d])) c

open Classical in
noncomputable def need (g : Graph) (net : Net) (d : Nat) (c : Clude) : Nat :=
  if Needed g net d c then 1 else 0

variable {g : Graph}

open Classical in
theorem need_eq {c : Clude} {p : Prop} [Decidable p] (same : Needed g net d c ↔ p) :
    need g net d c = if p then 1 else 0 := if_congr same rfl rfl

theorem need_congr (g : Graph) (set : setOf net d = setOf other d)
    (same : ∀ e, e ≤ d → Alike (net.bare d) (other.bare d) e) : need g net d = need g other d := by
  funext c
  unfold need Needed
  rw [set,walkWith_alike _ same]

theorem setOf_eq (net : Net) (real : net.skip (k + 1) = false) (e : Nat) :
    setOf net (k + 1) e = (sign (net.notes (k + 1)) e).getD
      (walkWith (net.bare (k + 1)) (setOf net (k + 1)) (k + 1) (seedMarks [k + 1]) e).active :=
  (bare_bare net (k + 1)).active_eq (seedMarks_unlisted _) real (seedMarks_active _) e

def formNet {g : Graph} (bk : Bool) {lists : Nat → List Clude} (proper : Proper g lists) : Net :=
  Sfile.net ⟨g,bk,lists⟩ lists proper

structure Converted (g : Graph) (net other : Net) (old new : List Clude) (d : Nat) : Prop where
  same : setOf other d = setOf net d
  count : ∀ c, old.count c + need g other d c = new.count c + need g net d c

section
variable {g : Graph} {bk : Bool} {lists : Nat → List Clude} (proper : Proper g lists)

theorem formNet_alike {lists' : Nat → List Clude} (proper' : Proper g lists')
    (same : g.tag e = false → lists e = lists' e) :
    Alike (formNet bk proper) (formNet bk proper') e :=
  ⟨rfl,fun real => ⟨rfl,rfl,fun f => congrArg (fun list => sign (notesOf list) f) (same real)⟩⟩

private theorem formNet_bare {lists' : Nat → List Clude} (proper' : Proper g lists') {r : Nat}
    (own : lists' r = []) (others : ∀ e, e ≠ r → lists e = lists' e) (e : Nat) :
    Alike ((formNet bk proper).bare r) (formNet bk proper') e := by
  refine ⟨rfl,fun _ => ⟨rfl,rfl,fun f => congrArg (sign · f) ?_⟩⟩
  by_cases here : e = r
  · rw [here,(bare_bare _ r).notes]
    exact (congrArg notesOf own).symm
  · exact (bare_notes _ here).trans (congrArg notesOf (others e here))

theorem setOf_off (real : RealSerial g d) (apart : e = 0 ∨ g.tag e = true ∨ d < e) :
    setOf (formNet bk proper) d e = false := by
  rw [← or_assoc] at apart
  rcases apart with apart | above
  case inr => exact setOf_above _ above
  have reals : ∀ f ∈ [d], RealSerial g f := fun f inside => (mem_singleton.mp inside).symm ▸ real
  exact congrArg Mark.active (walk_seeds_blank (s := ⟨g,bk,lists⟩) proper reals d apart)

theorem setOf_listed (bk : Bool) {lists : Nat → List Clude} (proper : Proper g lists)
    (real : g.tag (k + 1) = false) {c : Clude} (inside : c ∈ lists (k + 1)) :
    setOf (formNet bk proper) (k + 1) c.serial = c.plus := by
  have found : sign ((formNet bk proper).notes (k + 1)) c.serial = some c.plus :=
    (sign_notesOf_mem (proper.apart (k + 1))).mpr inside
  rw [setOf_eq (formNet bk proper) real,found]
  rfl

theorem needed_iff (bk : Bool) {lists : Nat → List Clude} (proper : Proper g lists)
    (real : g.tag (k + 1) = false) {c : Clude} :
    Needed g (formNet bk proper) (k + 1) c ↔ c ∈ lists (k + 1) ∧
    (walkWith ((formNet bk proper).bare (k + 1)) (setOf (formNet bk proper) (k + 1)) (k + 1)
    (seedMarks [k + 1]) c.serial).active ≠ c.plus := by
  constructor
  · rintro ⟨_nonzero,_low,wanted⟩
    refine ⟨?_,wanted.plus ▸ wanted.differs⟩
    have set := setOf_eq (formNet bk proper) real c.serial
    cases found : sign ((formNet bk proper).notes (k + 1)) c.serial with
    | none =>
      rw [found] at set
      exact absurd set.symm wanted.differs
    | some plus =>
      rw [found,← wanted.plus] at set
      have same : c.plus = plus := set
      rw [show c = ⟨plus,c.serial⟩ from same ▸ rfl]
      exact mem_notesOf.mp (sign_some found)
  · rintro ⟨inside,differs⟩
    have held := setOf_listed bk proper real inside
    obtain ⟨nonzero,below⟩ := proper.below _ c inside
    exact ⟨nonzero,by omega,proper.real _ c inside,held.symm ▸ differs,held.symm⟩

end

theorem rightList_older (real : RealSerial g d) (inside : e ∈ rightList (g.parent d)) :
    RealSerial g e ∧ e < d := by
  obtain ⟨rfl,nonzero⟩ := mem_rightList.mp inside
  exact ⟨realSerial_parent real nonzero,g.parent_lt d real.1⟩

def diffOf (g : Graph) (left right : Nat → Bool) (e : Nat) : Byte :=
  if g.tag e then 0 else diffByte (left e ^^ right e)

theorem diffOf_byte (g : Graph) (left right : Nat → Bool) (e : Nat) :
    diffOf g left right e = diffByte (hasDiff (diffOf g left right e)) := by
  refine eq_diffByte ?_
  unfold diffOf diffByte
  split
  · exact .inl rfl
  · split
    · exact .inr rfl
    · exact .inl rfl

theorem diffOf_off {left right : Nat → Bool} (offLeft : left e = false) (offRight : right e = false) :
    diffOf g left right e = 0 := by
  unfold diffOf
  rw [offLeft,offRight]
  exact ite_self _

variable {lists : Nat → List Clude}

private theorem expand_converts (bk : Bool) (other : Nat → List Clude) (proper : Proper g lists)
    (real : RealSerial g (k + 1)) :
    ∃ out, symdiff ⟨⟨g,bk,other⟩,k + 1,lists,true,true⟩ (rightList (g.parent (k + 1))) (fun _ => 0)
    (-1) = some out ∧
      (∀ e, out.slist e =
      diffOf g (activeFrom (formNet bk proper) (rightList (g.parent (k + 1))) (k + 1))
        (setOf (formNet bk proper) (k + 1)) e) ∧
      out.count = ones g out.slist ∧ ∀ c, out.dups.count c + need g (formNet bk proper)
    (k + 1) c = (lists (k + 1)).count c := by
  have left : ∀ d ∈ rightList (g.parent (k + 1)), RealSerial g d ∧ d < k + 1 :=
    fun d inside => rightList_older real inside
  have start : startOf (rightList (g.parent (k + 1))) (k + 1) = k + 1 :=
    startOf_right fun d inside => (left d inside).2
  have table : g.table ≠ 0 := fun empty => by
    have within := real.2.1
    omega
  have plain : Plain ⟨⟨g,bk,other⟩,k + 1,lists,true,true⟩ fun _ => 0 :=
    ⟨fun _ => by decide, fun _ _ _ => by decide⟩
  obtain ⟨out,ran,slistEq,counted⟩ := symdiff_expands ⟨⟨g,bk,other⟩,k + 1,lists,true,true⟩
    (rightList (g.parent (k + 1))) (fun _ => 0)
    (-1) rfl proper plain (fun d inside => (left d inside).1) (.inr real) table
  rw [start] at slistEq counted
  have bytes : ∀ e,
    out.slist e = diffOf g (activeFrom (formNet bk proper) (rightList (g.parent (k + 1))) (k + 1))
      (setOf (formNet bk proper) (k + 1)) e := by
    intro e
    rw [slistEq e]
    unfold flipped
    rw [show hasDiff 0 = false by decide,Bool.false_xor]
    rfl
  refine ⟨out,ran,bytes,?_,fun c => ?_⟩
  · have byte : ∀ e, out.slist e = diffByte (hasDiff (out.slist e)) := fun e => by
      rw [bytes e]
      exact diffOf_byte ..
    rw [counted,← total_ones byte]
    refine (total_congr fun e _ _ => Int.sub_zero _).trans
      (total_beyond real.2.1 fun e above => ?_).symm
    rw [bytes e,
      diffOf_off (activeFrom_above _ (fun d inside => Nat.le_of_lt (left d inside).2) above)
      (setOf_above _ above)]
    rfl
  have reported := symdiff_reports rfl proper plain ⟨rfl,rfl,proper.apart (k + 1),
    proper.real (k + 1)⟩ left real
    (bare_bare (formNet bk proper) (k + 1)) ran c
  change _ = _ + if c ∈ lists (k + 1) ∧
    (walkWith _ (setOf (formNet bk proper) (k + 1)) _ _ _).active = _ then 1 else 0 at reported
  rw [need_eq (needed_iff bk proper real.2.2)]
  by_cases inside : c ∈ lists (k + 1)
  · simp only [inside,true_and,if_true] at reported ⊢
    split at reported
    · rename_i same
      rw [if_neg fun differs => differs same]
      exact Nat.add_right_cancel reported
    · rename_i differs
      rwa [if_pos differs]
  · simp only [inside,false_and,if_false] at reported ⊢
    exact reported

private theorem sortCludes_perm (list : List Clude) : (sortCludes list).Perm list := by
  have back : ∀ plus, ((serialsOf plus list).map (Clude.mk plus)) = list.filter fun c =>
      c.plus == plus := by
    intro plus
    unfold serialsOf
    rw [map_map]
    refine (map_congr_left fun c inside => ?_).trans (map_id _)
    have same := beq_iff_eq.mp (mem_filter.mp inside).2
    rw [← same]
    rfl
  have parts : ((list.filter fun c => c.plus == true) ++ list.filter fun c => c.plus == false).Perm
      list := by
    have apart : (list.filter fun c => c.plus == false) = list.filter fun c => !(c.plus == true) :=
      filter_congr fun c _ => by cases c.plus <;> rfl
    rw [apart]
    exact filter_append_perm _ list
  rw [sortCludes_eq]
  refine (((newestFirst_perm _).map _).append ((newestFirst_perm _).map _)).trans ?_
  rwa [back true,back false]

private theorem comp_converts {s : Sfile} (proper : Proper s.graph s.cludes)
    (real : RealSerial s.graph (k + 1)) {goal : Nat → Bool} (top : goal (k + 1) = true)
    (off : ∀ e, e = 0 ∨ s.graph.tag e = true ∨ k + 1 < e → goal e = false) {slist : Nat → Byte}
    (bytes : ∀ e, slist e = diffOf s.graph
      (activeFrom (formNet s.bkmerge proper) (rightList (s.graph.parent (k + 1))) (k + 1)) goal e)
    {dups : List Clude}
    (held : ∀ c ∈ dups, (c.serial ≠ 0 ∧ c.serial < k + 1 ∧ s.graph.tag c.serial = false) ∧
      c.plus = goal c.serial) :
    ∃ list, ∃ proper' : Proper s.graph (s.setCludes (k + 1) list).cludes,
      comp s (rightList (s.graph.parent (k + 1)))
    (k + 1) dups slist (ones s.graph slist) = some (s.setCludes (k + 1) list, fun _ => 0) ∧
      setOf (formNet s.bkmerge proper') (k + 1) = goal ∧
      ∀ c, list.count c = need s.graph (formNet s.bkmerge proper') (k + 1) c + dups.count c := by
  have left : ∀ d ∈ rightList (s.graph.parent (k + 1)), RealSerial s.graph d ∧ d < k + 1 :=
    fun d inside => rightList_older real inside
  have older : ∀ d ∈ rightList (s.graph.parent (k + 1)), d < k + 1 :=
    fun d inside => (left d inside).2
  have parent := s.graph.parent_lt (k + 1) real.1
  have bare : Proper s.graph (s.setCludes (k + 1) []).cludes := proper.setCludes
    (nofun) nofun
  rw [activeFrom_parent (Nat.le_of_lt parent)] at bytes
  generalize leftIs : (if s.graph.parent (k + 1) = 0 then fun _ => false
    else setOf (formNet s.bkmerge proper) (s.graph.parent (k + 1))) = leftSet at bytes
  have leftEq : leftAct bare (rightList (s.graph.parent (k + 1))) = leftSet := by
    change activeFrom (formNet s.bkmerge bare) _ _ = _
    rw [activeFrom_parent (Nat.le_of_lt parent),← leftIs,setOf_alike fun e low =>
      formNet_alike bare proper fun _ => setCludes_other s [] (by omega)]
  have leftOff : ∀ e, e = 0 ∨ s.graph.tag e = true ∨ k + 1 < e → leftSet e = false := by
    intro e apart
    rw [← leftIs]
    split
    · rfl
    · rename_i nonzero
      exact setOf_off proper (realSerial_parent real nonzero)
        (apart.imp_right (Or.imp_right (by omega)))
  have goals : asked slist (leftAct bare (rightList (s.graph.parent (k + 1)))) = goal := by
    funext e
    unfold asked
    rw [leftEq,bytes e]
    by_cases tag : s.graph.tag e = true
    · have offLeft := leftOff e (.inr (.inl tag))
      have offGoal := off e (.inr (.inl tag))
      rw [diffOf_off offLeft offGoal,offLeft,offGoal]
      rfl
    · unfold diffOf
      rw [if_neg tag,(flags_diffByte _).1]
      cases leftSet e <;> cases goal e <;> rfl
  have absent : ∀ e, ¬ (RealSerial s.graph e ∧ e ≤ k + 1) → slist e = 0 := by
    intro e outside
    have within := real.2.1
    have apart : e = 0 ∨ s.graph.tag e = true ∨ k + 1 < e := by
      by_contra neither
      push Not at neither
      exact outside ⟨⟨neither.1,by omega,eq_false_of_ne_true neither.2.1⟩,neither.2.2⟩
    rw [bytes e,diffOf_off (leftOff e apart) (off e apart)]
  have member : hasDiff (slist (k + 1)) = true := by
    rw [bytes,diffOf,if_neg (real.2.2 ▸ Bool.false_ne_true),← leftEq,leftAct_top bare older,top]
    rfl
  obtain ⟨list,zero,ran,zeroed,corrects,sorted⟩ := comp_corrects bare left real
    (fun e => by rw [bytes e]; exact diffOf_byte ..) absent dups
  have marks : rightMarks bare (rightList (s.graph.parent (k + 1))) slist =
      walkWith (formNet s.bkmerge bare) goal (k + 1) (seedMarks [k + 1]) := by
    unfold rightMarks
    rw [goals]
    rfl
  rw [goals,marks] at corrects
  have entries : ∀ c ∈ sortCludes (list ++ dups),
      (c.serial ≠ 0 ∧ c.serial < k + 1 ∧ s.graph.tag c.serial = false) ∧ c.plus = goal c.serial :=
      by
    intro c inside
    rcases mem_append.mp (mem_sortCludes.mp inside) with new | old
    · obtain ⟨nonzero,low,wanted⟩ := (corrects.mem c).mp new
      refine ⟨⟨nonzero,Wanted.below bare older member low ?_,wanted.real⟩,wanted.plus⟩
      rwa [goals,marks]
    · exact held c old
  have proper' : Proper s.graph (s.setCludes (k + 1) (sortCludes (list ++ dups))).cludes :=
    proper.setCludes (fun c inside => (entries c inside).1)
    fun c inside c' inside' same => by rw [(entries c inside).2,(entries c' inside').2,same]
  have set : setOf (formNet s.bkmerge proper') (k + 1) = goal := by
    funext e
    by_cases apart : e = 0 ∨ s.graph.tag e = true ∨ k + 1 < e
    · rw [off e apart,setOf_off proper' real apart]
    push Not at apart
    refine (setCludes_bare proper' bare).walk_active (seedMarks_unlisted _) real.2.2
      (seedMarks_active _) top (fun f nonzero low realF => ?_)
      apart.1 apart.2.2 (eq_false_of_ne_true apart.2.1)
    rw [show ((s.setCludes (k + 1) (sortCludes (list ++ dups))).net _ proper').notes (k + 1) =
      notesOf (sortCludes (list ++ dups)) from
      congrArg notesOf (setCludes_own s (k + 1) _)]
    cases found : sign (notesOf (sortCludes (list ++ dups))) f with
    | some plus => exact (entries _ (mem_notesOf.mp (sign_some found))).2
    | none =>
      by_contra differs
      have new := (corrects.mem ⟨goal f,f⟩).mpr ⟨nonzero,by dsimp only; omega,realF,differs,rfl⟩
      exact sign_none.mp found (goal f, f)
        (mem_notesOf.mpr (mem_sortCludes.mpr (mem_append_left _ new))) rfl
  refine ⟨sortCludes (list ++ dups),proper',?_,set,fun c => ?_⟩
  · rw [ran,funext zeroed]
  · have nodup : list.Nodup := sorted.imp fun less equal =>
      by rw [equal] at less; exact Nat.lt_irrefl _ less
    have needed : Needed s.graph (formNet s.bkmerge proper') (k + 1) c ↔ c ∈ list := by
      rw [corrects.mem,Needed,set,
        walkWith_alike _ fun e _ => formNet_bare proper' bare (setCludes_own s (k + 1) [])
        (fun f other => (setCludes_other s _ other).trans (setCludes_other s [] other).symm) e]
    rw [(sortCludes_perm _).count_eq,count_append,nodup.count,need_eq needed]

theorem Converted.congr {other' : Net} {old new : List Clude}
    (converted : Converted g net other old new d) (same : ∀ e, e ≤ d → Alike other' other e) :
    Converted g net other' old new d := by
  have set := setOf_alike same
  refine ⟨set.trans converted.same,fun c => ?_⟩
  rw [need_congr g set fun e low => (same e low).bare d]
  exact converted.count c

variable {bk : Bool}

theorem setOf_unmerged (proper : Proper g lists) (real : RealSerial g (k + 1))
    (unmerged : g.merge (k + 1) = 0) (none : lists (k + 1) = []) (low : e ≤ k) :
    setOf (formNet bk proper) (k + 1) e =
      (if g.parent (k + 1) = 0 then fun _ => false else setOf (formNet bk proper)
    (g.parent (k + 1))) e := by
  have below := g.parent_lt (k + 1) real.1
  have lineage : Sfile.lineage ⟨g,bk,lists⟩ (k + 1) = rightList (g.parent (k + 1)) := by
    have alone : ¬ (bk = true ∧ g.merge (k + 1) ≠ 0) := fun both => both.2 unmerged
    unfold Sfile.lineage rightList
    rw [if_neg real.1]
    rw [if_neg alone,append_nil]
  rw [setOf_plain (formNet bk proper) real.2.2 (congrArg notesOf none) low,
    ← activeFrom_parent (Nat.le_of_lt_succ below),← lineage]
  rfl

theorem need_nil (proper : Proper g lists) (real : RealSerial g (k + 1)) (none : lists (k + 1) = [])
    (c : Clude) :
    need g (formNet bk proper) (k + 1) c = 0 := by
  refine (need_eq (p := False) (iff_of_false (fun needed => ?_) id)).trans (if_neg id)
  exact not_mem_nil (none ▸ ((needed_iff bk proper real.2.2).mp needed).1)

private theorem converted_plain {lists' : Nat → List Clude} (proper : Proper g lists)
    (proper' : Proper g lists') (real : RealSerial g (k + 1)) (unmerged : g.merge (k + 1) = 0)
    (none : lists (k + 1) = []) (none' : lists' (k + 1) = [])
    (parent : g.parent (k + 1) ≠ 0 → setOf (formNet (!bk) proper') (g.parent (k + 1)) =
      setOf (formNet bk proper) (g.parent (k + 1))) :
    Converted g (formNet bk proper) (formNet (!bk) proper') (lists (k + 1)) (lists' (k + 1))
    (k + 1) := by
  refine ⟨funext fun e => ?_, fun c => ?_⟩
  · by_cases low : e ≤ k
    · rw [setOf_unmerged proper real unmerged none low,setOf_unmerged proper' real unmerged none' low]
      split
      · rfl
      · rename_i nonzero
        rw [parent nonzero]
    · by_cases top : e = k + 1
      · rw [top,setOf_self,setOf_self]
      · rw [setOf_above _ (by omega),setOf_above _ (by omega)]
  · rw [need_nil proper' real none',need_nil proper real none,none,none']

structure Halfway {g : Graph} (bk : Bool) {old : Nat → List Clude} (proper : Proper g old) (d : Nat)
    {new : Nat → List Clude} (proper' : Proper g new) (read : Nat → List Clude) : Prop where
  later : ∀ e, d < e ∨ g.tag e = true → new e = old e
  read_eq : ∀ e, read e = if e ≤ d ∧ g.tag e = false then old e else []
  done : ∀ e, e ≠ 0 → e ≤ d → g.tag e = false →
    Converted g (formNet bk proper) (formNet (!bk) proper') (old e) (new e) e

theorem Proper.restrict {lists' : Nat → List Clude} (proper : Proper g lists)
    (either : ∀ e, lists' e = lists e ∨ lists' e = []) : Proper g lists' := by
  have inside : ∀ e, ∀ c ∈ lists' e, c ∈ lists e := by
    intro e c member
    rcases either e with same | none
    · exact same ▸ member
    · exact absurd (none ▸ member) not_mem_nil
  exact ⟨proper.merge_parent,fun e c member => proper.below e c (inside e c member),
    fun e c member => proper.real e c (inside e c member),
    fun e c member c' member' => proper.apart e c (inside e c member) c' (inside e c' member')⟩

theorem Proper.zero (proper : Proper g lists) : lists 0 = [] :=
  eq_nil_iff_forall_not_mem.mpr fun c inside => Nat.not_lt_zero _ (proper.below 0 c inside).2

section
variable {g : Graph} {bk : Bool} {old new read : Nat → List Clude} {proper : Proper g old}
  {proper' : Proper g new} {k : Nat}

theorem Halfway.skip (halfway : Halfway bk proper k proper' read) (low : k + 1 ≤ g.table)
    (skipped : g.tag (k + 1) = true ∨ (g.merge (k + 1) = 0 ∧ new (k + 1) = [])) :
    Halfway bk proper (k + 1) proper' read := by
  have same := halfway.later (k + 1) (.inl (Nat.lt_succ_self k))
  have parent := g.parent_lt (k + 1) (Nat.succ_ne_zero k)
  refine ⟨fun e later => halfway.later e (later.imp (by omega) id), fun e => ?_,
    fun e nonzero below real => ?_⟩
  · rw [halfway.read_eq e]
    by_cases here : e = k + 1
    · rw [here,if_neg fun both => absurd both.1 (by omega)]
      split
      · rename_i both
        rw [← same,(skipped.resolve_left (both.2 ▸ Bool.false_ne_true)).2]
      · rfl
    · exact if_congr (and_congr_left fun _ => ⟨fun low => by omega, fun low => by omega⟩) rfl rfl
  · by_cases here : e = k + 1
    · subst here
      obtain ⟨unmerged,none⟩ := skipped.resolve_left (real ▸ Bool.false_ne_true)
      exact converted_plain proper proper' ⟨nonzero,low,real⟩ unmerged (same ▸ none) none fun child =>
        (halfway.done _ child (by omega) (g.parent_real _ real child)).same
    · exact halfway.done e nonzero (by omega) real

theorem Halfway.turn (halfway : Halfway bk proper k proper' read) (low : k + 1 ≤ g.table)
    (taken : ¬ (g.tag (k + 1) = true ∨ (g.merge (k + 1) = 0 ∧ new (k + 1) = []))) :
    ∃ list, ∃ proper'' : Proper g (Function.update new (k + 1) list),
      convertAt ⟨⟨g,bk,new⟩,read,fun _ => 0⟩ (k + 1) =
        some ⟨⟨g,bk,Function.update new (k + 1) list⟩,Function.update read (k + 1) (new (k + 1)),
          fun _ => 0⟩ ∧
      Halfway bk proper (k + 1) proper'' (Function.update read (k + 1) (new (k + 1))) := by
  have real : RealSerial g (k + 1) :=
    ⟨Nat.succ_ne_zero k,low,eq_false_of_ne_true fun tag => taken (.inl tag)⟩
  have own := halfway.later (k + 1) (.inl (Nat.lt_succ_self k))
  have parent := g.parent_lt (k + 1) real.1
  have readEq : ∀ e, Function.update read (k + 1) (new (k + 1)) e = if e ≤ k + 1 ∧
      g.tag e = false then old e else [] := by
    intro e
    by_cases here : e = k + 1
    · rw [here,update_self,own,if_pos ⟨le_rfl,real.2.2⟩]
    · rw [update_of_ne here,halfway.read_eq e]
      exact if_congr (and_congr_left fun _ => ⟨fun low => by omega, fun low => by omega⟩) rfl rfl
  have properRead : Proper g (Function.update read (k + 1) (new (k + 1))) :=
      proper.restrict fun e => by
    rw [readEq e]
    split
    · exact .inl rfl
    · exact .inr rfl
  have alike : ∀ e, e ≤ k + 1 → Alike (formNet bk properRead) (formNet bk proper) e := fun e low =>
    formNet_alike properRead proper fun realE => (readEq e).trans (if_pos ⟨low,realE⟩)
  obtain ⟨out,ran,bytes,counted,reported⟩ := expand_converts bk new properRead real
  rw [setOf_alike alike] at bytes
  rw [need_congr g (setOf_alike alike) fun e low => (alike e low).bare (k + 1), update_self,own]
    at reported
  have left : activeFrom (formNet bk properRead) (rightList (g.parent (k + 1))) (k + 1) =
      activeFrom (formNet (!bk) proper') (rightList (g.parent (k + 1))) (k + 1) := by
    rw [activeFrom_parent (by omega),activeFrom_parent (by omega)]
    split
    · rfl
    · rename_i child
      rw [setOf_alike fun e low => alike e (by omega),
        (halfway.done _ child (by omega) (g.parent_real _ real.2.2 child)).same]
  rw [left] at bytes
  have held : ∀ c ∈ out.dups, (c.serial ≠ 0 ∧ c.serial < k + 1 ∧ g.tag c.serial = false) ∧
      c.plus = setOf (formNet bk proper) (k + 1) c.serial := by
    intro c inside
    have positive := count_pos_iff.mpr inside
    have total := reported c
    have listed : c ∈ old (k + 1) := count_pos_iff.mp (by omega)
    obtain ⟨nonzero,below⟩ := proper.below _ c listed
    exact ⟨⟨nonzero,below,proper.real _ c listed⟩,(setOf_listed bk proper real.2.2 listed).symm⟩
  obtain ⟨list,proper'',done,set,count⟩ := comp_converts (s := ⟨g,!bk,new⟩) proper' real
    (setOf_self _ _)
    (fun _ => setOf_off proper real) bytes held
  refine ⟨list,proper'',?_,fun e later => ?_, readEq,fun e nonzero below realE => ?_⟩
  · unfold convertAt
    rw [if_neg taken]
    dsimp only
    rw [ran,Option.bind_some,counted]
    change (comp ⟨g,!bk,new⟩ _ _ _ _ _).map _ = _
    rw [done]
    unfold Sfile.flip Sfile.setCludes
    dsimp only [Option.map_some]
    rw [Bool.not_not]
  · have other : e ≠ k + 1 := by
      rintro rfl
      exact later.elim (Nat.lt_irrefl _) fun tag => taken (.inl tag)
    rw [update_of_ne other]
    exact halfway.later e (later.imp (by omega) id)
  · by_cases here : e = k + 1
    · subst here
      rw [update_self]
      refine ⟨set,fun c => ?_⟩
      have first := reported c
      have second : list.count c = need g (formNet (!bk) proper'') (k + 1) c + out.dups.count c :=
        count c
      change _ + need g (formNet (!bk) proper'') (k + 1) c = _
      omega
    · rw [update_of_ne here]
      refine (halfway.done e nonzero (by omega) realE).congr fun f low =>
        formNet_alike proper'' proper' fun _ => ?_
      exact update_of_ne (by omega) ..

end

variable {old : Nat → List Clude}

theorem convertAt_halfway {new read : Nat → List Clude} {proper : Proper g old}
    {proper' : Proper g new} (halfway : Halfway bk proper k proper' read) (low : k + 1 ≤ g.table) :
    ∃ new' read', ∃ proper'' :
    Proper g new', convertAt ⟨⟨g,bk,new⟩,read,fun _ => 0⟩ (k + 1) =
    some ⟨⟨g,bk,new'⟩,read',fun _ => 0⟩ ∧
      Halfway bk proper (k + 1) proper'' read' := by
  by_cases skipped : g.tag (k + 1) = true ∨ (g.merge (k + 1) = 0 ∧ new (k + 1) = [])
  · exact ⟨new,read,proper',if_pos skipped,halfway.skip low skipped⟩
  · obtain ⟨list,proper'',ran,next⟩ := halfway.turn low skipped
    exact ⟨_,_,proper'',ran,next⟩

private theorem convert_run (bk : Bool) (proper : Proper g old) {n : Nat} (low : n ≤ g.table) :
    ∃ new read, ∃ proper' : Proper g new,
      (List.range' 1 n).foldlM convertAt ⟨⟨g,bk,old⟩,fun _ => [], fun _ => 0⟩ =
      some ⟨⟨g,bk,new⟩,read,fun _ => 0⟩ ∧
      Halfway bk proper n proper' read := by
  induction n with
  | zero =>
    refine ⟨old,fun _ => [], proper,rfl,fun _ _ => rfl, fun e => ?_, fun e nonzero below => by omega⟩
    split
    · rename_i both
      rw [Nat.le_zero.mp both.1,proper.zero]
    · rfl
  | succ n ih =>
    obtain ⟨new,read,proper',ran,halfway⟩ := ih (by omega)
    obtain ⟨new',read',proper'',turn,next⟩ := convertAt_halfway halfway low
    refine ⟨new',read',proper'',?_,next⟩
    rw [range'_1_concat,foldlM_append,ran,Nat.add_comm 1 n]
    change (convertAt _ (n + 1)).bind some = _
    rw [turn]
    rfl

theorem graph_convert_lists (s : Sfile) (proper : Proper s.graph s.cludes) :
    ∃ lists, ∃ proper' : Proper s.graph lists, graph_convert s = some ⟨s.graph,!s.bkmerge,lists⟩ ∧
      (∀ d, ¬ RealSerial s.graph d → lists d = s.cludes d) ∧ ∀ d, RealSerial s.graph d →
        Converted s.graph (formNet s.bkmerge proper) (formNet (!s.bkmerge) proper') (s.cludes d)
    (lists d) d := by
  obtain ⟨new,read,proper',ran,halfway⟩ := convert_run s.bkmerge proper (Nat.le_refl s.graph.table)
  refine ⟨new,proper',?_,fun d other => ?_, fun d real => halfway.done d real.1 real.2.1 real.2.2⟩
  · exact congrArg (Option.map fun st => st.s.flip) ran
  by_cases later : s.graph.table < d ∨ s.graph.tag d = true
  · exact halfway.later d later
  · have zero : d = 0 := by
      by_contra nonzero
      exact other ⟨nonzero,by omega,eq_false_of_ne_true fun tag => later (.inr tag)⟩
    rw [zero,proper'.zero,proper.zero]

theorem converted_back {mid new : Nat → List Clude} (proper : Proper g old) (proper' : Proper g mid)
    (proper'' : Proper g new) (others : ∀ d, ¬ RealSerial g d → new d = old d)
    (there : ∀ d, RealSerial g d → Converted g (formNet bk proper) (formNet (!bk) proper') (old d)
    (mid d) d) (back : ∀ d, RealSerial g d → Converted g (formNet (!bk) proper')
    (formNet bk proper'') (mid d) (new d) d) (d : Nat) : (new d).Perm (old d) := by
  induction d using Nat.strong_induction_on with
  | _ d ih =>
    by_cases real : RealSerial g d
    · have set := (back d real).same.trans (there d real).same
      have alike : ∀ e, e ≤ d →
          Alike ((formNet bk proper'').bare d) ((formNet bk proper).bare d) e := by
        intro e low
        by_cases here : e = d
        · exact ⟨rfl,
            fun _ => ⟨rfl,rfl,fun f => by rw [here,(bare_bare _ d).notes,(bare_bare _ d).notes]⟩⟩
        · have perm := ih e (by omega)
          have same : Alike (formNet bk proper'') (formNet bk proper) e :=
              ⟨rfl,fun _ => ⟨rfl,rfl,fun f => Option.ext fun plus =>
            (sign_notesOf_mem (proper''.apart e)).trans
              (perm.mem_iff.trans (sign_notesOf_mem (proper.apart e)).symm)⟩⟩
          exact same.bare d
      refine perm_iff_count.mpr fun c => ?_
      have first := (there d real).count c
      have second := (back d real).count c
      rw [need_congr g set alike] at second
      omega
    · rw [others d real]

def otherForm (s : File) (lists : Nat → List Clude) : File :=
  { s with bkmerge := !s.bkmerge, cludes := lists }

theorem serialmap_setOf {s : File} (proper : Proper s.graph s.cludes) (rooted : Rooted s.graph)
    (real : RealSerial s.graph d) :
    ∃ map, serialmap s d 0 none none = .ok map ∧ ∀ e, map e ≠ 0 ↔
      e = 1 ∨ setOf (formNet s.bkmerge proper) d e = true := by
  have reals : ∀ f ∈ [d], RealSerial s.graph f :=
    fun f inside => (mem_singleton.mp inside).symm ▸ real
  obtain ⟨map,ran,same⟩ := serialmap_alone s proper real
  have low : ∀ f ∈ [d], f ≤ d := fun f inside => le_of_eq (mem_singleton.mp inside)
  refine ⟨map,ran,fun e => ?_⟩
  rw [same e]
  by_cases one : e = 1
  · rw [one]
    exact iff_of_true (seedmap_oldest rooted proper reals mem_cons_self) (.inl rfl)
  · refine (seedmap_active proper reals low fun equal => absurd equal one).trans ?_
    exact ⟨.inr,fun either => either.resolve_left one⟩

/-- Converting keeps the map of every delta and is its own inverse. -/
theorem graph_convert_involution (s : File) (proper : Proper s.graph s.cludes)
    (rooted : Rooted s.graph) :
    ∃ lists, graph_convert s.toSfile = some (otherForm s lists).toSfile ∧
      (∀ d, RealSerial s.graph d → ∃ map map', serialmap s d 0 none none = .ok map ∧
      serialmap (otherForm s lists) d 0 none none = .ok map' ∧
        ∀ e, map' e ≠ 0 ↔ map e ≠ 0) ∧
      ∃ lists', graph_convert (otherForm s lists).toSfile = some ⟨s.graph,s.bkmerge,lists'⟩ ∧
        ∀ d, (lists' d).Perm (s.cludes d) := by
  obtain ⟨lists,proper',there,others,converted⟩ := graph_convert_lists s.toSfile proper
  obtain ⟨lists',proper'',back,others',converted'⟩ :=
    graph_convert_lists (otherForm s lists).toSfile proper'
  have twice : (otherForm s lists).bkmerge = !s.bkmerge := rfl
  rw [twice,Bool.not_not] at back
  refine ⟨lists,there,fun d real => ?_, lists',back,?_⟩
  · obtain ⟨map,ran,mapEq⟩ := serialmap_setOf proper rooted real
    obtain ⟨map',ran',mapEq'⟩ := serialmap_setOf (s := otherForm s lists) proper' rooted real
    refine ⟨map,map',ran,ran',fun e => ?_⟩
    rw [mapEq e]
    exact (mapEq' e).trans
      (or_congr_right (iff_of_eq (congrArg (· = true) (congrFun (converted d real).same e))))
  · refine converted_back proper proper' proper''
      (fun d other => (others' d other).trans (others d other)) converted fun d real => ?_
    have again := converted' d real
    rwa [twice,Bool.not_not] at again

/-- In the other form the merge brings 2 and 4 along, and 4 is excluded. -/
theorem graph_convert_involution_branched :
    ∃ lists, graph_convert branched = some ⟨branched.graph,true,lists⟩ ∧
      lists 6 = [⟨false,4⟩] ∧
      ∃ lists', graph_convert ⟨branched.graph,true,lists⟩ = some ⟨branched.graph,false,lists'⟩ ∧
        (lists' 4).Perm [⟨true,3⟩,⟨false,2⟩] ∧ (lists' 6).Perm [⟨true,2⟩] := by
  obtain ⟨lists,there,_maps,lists',back,perm⟩ :=
    graph_convert_involution branchedFile branched_proper branched_rooted
  have merged : (graph_convert branched).map (fun s => s.cludes 6) = some [⟨false,4⟩] := by
    decide +kernel
  rw [show graph_convert branched = _ from there] at merged
  exact ⟨lists,there,Option.some.inj merged,lists',back,perm 4,perm 6⟩

end BitKeeper.Symdiff
