import BitKeeper.Range.Meta

/-!
`range_gone` on a ChangeSet file and the check that the rest stands alone. A cset may itself be a
node of the tag graph, and then its tag ancestors tag its own ancestors.
-/

namespace BitKeeper.Range

open List Color Dag
open Bool (of_not_eq_false false_ne_true not_eq_true)

def symTarget (g : Graph) (metad : Nat) : Nat := realFrom g metad metad

structure Symbol where
  ser : Nat
  meta_ser : Nat

structure CsetGraph extends Graph where
  symgraph : Nat → Bool
  cludes : Nat → List (Bool × Nat)
  symlist : List Symbol
  merge_parent : ∀ d, merge d ≠ 0 → parent d ≠ 0
  mtag_ptag : ∀ d, mtag d ≠ 0 → ptag d ≠ 0
  tag_merge : ∀ d, tag d = true → merge d = 0
  tag_parent : ∀ d, tag d = true → tag (parent d) = false ∨ (mtag d ≠ 0 ∧ parent d = ptag d)
  tags_own : ∀ d x, tag d = false → Reach toGraph.ptags d x →
    Reach (eachParent toGraph) d (symTarget toGraph x)
  symbols : ∀ sym ∈ symlist, sym.meta_ser ≠ 0 ∧ sym.meta_ser ≤ table ∧
    sym.ser = symTarget toGraph sym.meta_ser

def SingleTip (g : Graph) : Prop := ∃ tip, tip ≠ 0 ∧ tip ≤ g.table ∧ g.tag tip = false ∧
    ∀ d, d ≠ 0 → d ≤ g.table → g.tag d = false → Reach (eachParent g) tip d

def setmap (g : Graph) (s : Sccs) (bit : Flags → Bool) (all : Bool) (t : Nat) : Bool :=
  decide (t ≠ 0 ∧ t ≤ g.table) && (all || !g.tag t) && bit (s.flags t)

def checkGoneAt (g : CsetGraph) (slist : Nat → Bool) (who sfile : String) (rev : Nat → String)
    (d : Nat) : List String :=
  if slist d then []
  else
    ((eachParent g.toGraph d).filter slist).map
        (fun e => who ++ ": revision " ++ rev e ++ " not at tip of branch in " ++ sfile ++ ".\n") ++
      (if g.symgraph d then
        ((g.toGraph.ptags d).filter slist).map
          (fun e => who ++ ": revision " ++ rev e ++ " not at tip of tag graph in " ++ sfile ++ ".\n")
      else []) ++
      ((g.cludes d).filter fun i => slist i.2).map
        (fun i => sfile ++ ": " ++ who ++ ":" ++ rev d ++ " " ++
          (if i.1 then "includes" else "excludes") ++ " " ++ rev i.2 ++ "\n")

def checkGone (g : CsetGraph) (s : Sccs) (bit : Flags → Bool) (who sfile : String)
    (rev : Nat → String) : List String :=
  g.toGraph.serials.reverse.flatMap (checkGoneAt g (setmap g.toGraph s bit true) who sfile rev)

/-- What `range_gone` marks: real deltas the list does not reach, and tags that hang on something in
the set. -/
structure Doomed (g : Graph) (dlist : List Nat) (gone : Nat → Bool) : Prop where
  within : ∀ d, gone d = true → d ≠ 0 ∧ d ≤ g.table
  real : ∀ d, d ≠ 0 → d ≤ g.table → g.tag d = false → (gone d = true ↔ ¬ Closure g dlist d)
  tags : ∀ d, d ≠ 0 → d ≤ g.table → g.tag d = true →
    (gone d = true ↔ gone (tagged g d) = true ∨ (g.ptag d ≠ 0 ∧ gone (g.ptag d) = true) ∨
      (g.mtag d ≠ 0 ∧ gone (g.mtag d) = true))

theorem flags_eq {f : Flags} {c : Color} {b h : Bool} (color : f.color = c) (set : f.set = b)
    (gone : f.gone = h) : f = ⟨c,b,h⟩ := by
  cases f
  dsimp only at color set gone
  rw [color,set,gone]

variable {g : Graph}

theorem range_gone_doomed {s : Sccs} (fresh : ∀ d, s.flags d = Flags.clear) (tip : SingleTip g)
    {dlist : List Nat} (real : RealList g dlist) :
    ∃ after count gone, range_gone g s dlist (D_SET.or D_GONE) = some (after, count) ∧
      Doomed g dlist gone ∧
      ∀ d, after.flags d = if gone d then D_SET.or D_GONE else Flags.clear := by
  have clean : Clean s := by
    intro e
    rw [fresh e]
    rfl
  obtain ⟨walked,ran,cleanWalked,marking⟩ := range_walkrevs_spec clean real
  have setIff : ∀ e, (walked.flags e).set = true ↔
      e ≤ g.table ∧ Wanted g (fun _ => True) (Closure g dlist) e := by
    intro e
    rw [marking.set e]
    rw [fresh e]
    simp [Flags.clear]
  have goneOff : ∀ e, (walked.flags e).gone = false := by
    intro e
    rw [marking.gone e]
    rw [fresh e]
    rfl
  unfold range_gone
  rw [ran,Option.map_some]
  by_cases nothing : ∀ e, e ≤ g.table → ¬ Wanted g (fun _ => True) (Closure g dlist) e
  · have stop : walked.rstop = 0 := (marking.still nothing).2
    have still : range_markMeta g walked = walked := if_pos (.inr stop)
    refine ⟨_,_,fun _ => false, rfl,⟨?_,?_,?_⟩,?_⟩
    · intro d off
      cases off
    · intro d nonzero within realD
      constructor
      · intro off
        cases off
      · intro outside
        exact absurd ⟨nonzero,realD,trivial,outside⟩ (nothing d within)
    · intro d _ _ _
      simp
    · intro d
      rw [still,stop]
      refine flags_eq (cleanWalked d) ?_ (goneOff d)
      by_contra set
      have wanted := (setIff d).mp (of_not_eq_false set)
      exact nothing d wanted.1 wanted.2
  obtain ⟨x,further⟩ := not_forall.mp nothing
  obtain ⟨withinX,notUnwanted⟩ := Classical.not_imp.mp further
  have wantedX := not_not.mp notUnwanted
  have start := marking.rstart x withinX wantedX
  have stop := marking.rstop x withinX wantedX rfl
  obtain ⟨top,topNonzero,topWithin,topReal,topReach⟩ := tip
  -- the tip itself is in the set: it reaches the delta that is
  have topSet : (walked.flags top).set = true := by
    refine (setIff top).mpr ⟨topWithin,topNonzero,topReal,trivial,?_⟩
    rintro ⟨e,inside,path⟩
    exact wantedX.2.2.2 ⟨e,inside,path.trans (topReach x wantedX.1 withinX wantedX.2.1)⟩
  have extended := markMeta_extended cleanWalked
    (fun e set => ((setIff e).mp set).2.2.1)
    (fun y nonzero within realY => ⟨top,topWithin,topSet,topReach y nonzero within realY⟩)
    start.1 (by have := wantedX.1; omega)
    (fun e set => (marking.rstart e ((setIff e).mp set).1 ((setIff e).mp set).2).2)
    (fun e set => marking.rstop e ((setIff e).mp set).1 ((setIff e).mp set).2 rfl)
  generalize range_markMeta g walked = t at *
  have startT : t.rstart ≠ 0 := extended.start.symm ▸ start.1
  refine ⟨_,_,fun d => (t.flags d).set, rfl,⟨?_,?_,?_⟩,?_⟩
  · intro d set
    have low := extended.low d set
    refine ⟨by omega,?_⟩
    by_cases tag : g.tag d = true
    · by_contra beyond
      rw [extended.outside d (by omega) tag] at set
      exact false_ne_true set
    · rw [extended.real d (not_eq_true _ ▸ tag)] at set
      exact ((setIff d).mp set).1
  · intro d nonzero within realD
    rw [extended.real d realD,setIff]
    constructor
    · intro found
      exact found.2.2.2.2
    · intro outside
      exact ⟨within,nonzero,realD,trivial,outside⟩
  · intro d nonzero within tag
    exact extended.tags d nonzero within tag
  · intro d
    have topT : (t.flags top).set = true := (extended.real top topReal).trans topSet
    have order : t.rstart ≤ t.rstop := Nat.le_trans (extended.low top topT) (extended.high top topT)
    rw [goneFrom_flags startT order d]
    by_cases set : (t.flags d).set = true
    · rw [if_pos ⟨⟨extended.low d set,extended.high d set⟩,set⟩,if_pos set]
      refine flags_eq ?_ rfl ?_
      · change (t.flags d).color.or _ = _
        rw [extended.clean d]
        rfl
      · exact Bool.or_true _
    · rw [if_neg (fun both => set both.2), if_neg set]
      exact flags_eq (extended.clean d) (not_eq_true _ ▸ set)
        ((extended.gone d).trans (goneOff d))

variable {d : Nat}

theorem symTarget_real (real : g.tag d = false) : symTarget g d = d := by
  cases d with
  | zero => rfl
  | succ d =>
    exact if_neg fun tag => false_ne_true (real.symm.trans tag.2)

theorem symTarget_tag (nonzero : d ≠ 0) (tag : g.tag d = true) : symTarget g d = tagged g d := by
  unfold symTarget tagged
  cases d with
  | zero => exact absurd rfl nonzero
  | succ d =>
    have below := g.parent_lt (d + 1) nonzero
    conv_lhs => unfold realFrom
    rw [if_pos ⟨nonzero,tag⟩]
    exact realFrom_fuel (by omega) (by omega)

private theorem mem_eachParent_merge {g : CsetGraph} (nonzero : d ≠ 0) (merge : g.merge d ≠ 0) :
    g.merge d ∈ eachParent g.toGraph d := by
  have parent := g.merge_parent d merge
  unfold eachParent
  rw [if_neg (by omega),if_neg merge]
  exact mem_cons_of_mem _ (mem_singleton.mpr rfl)

section Survivors

variable {g : CsetGraph} {dlist : List Nat} {gone : Nat → Bool}

theorem Doomed.reached (doomed : Doomed g.toGraph dlist gone) (closed : Closure g.toGraph dlist d)
    (real : g.tag d = false) : gone d = false := by
  by_contra on
  have marked := of_not_eq_false on
  have placed := doomed.within d marked
  exact (doomed.real d placed.1 placed.2 real).mp marked closed

theorem Doomed.closed (doomed : Doomed g.toGraph dlist gone) (nonzero : d ≠ 0) (within : d ≤ g.table)
    (real : g.tag d = false) (stays : gone d = false) : Closure g.toGraph dlist d := by
  by_contra outside
  rw [(doomed.real d nonzero within real).mpr outside] at stays
  exact Bool.true_eq_false.mp stays

theorem ptag_mem (nonzero : d ≠ 0) (ptag : g.ptag d ≠ 0) : g.ptag d ∈ g.toGraph.ptags d := by
  unfold Graph.ptags
  rw [if_neg nonzero,if_neg ptag]
  exact mem_cons_self

theorem mtag_mem (nonzero : d ≠ 0) (mtag : g.mtag d ≠ 0) : g.mtag d ∈ g.toGraph.ptags d := by
  unfold Graph.ptags
  rw [if_neg nonzero,if_neg (g.mtag_ptag d mtag)]
  exact mem_cons_of_mem _ (mem_singleton.mpr rfl)

variable (doomed : Doomed g.toGraph dlist gone)
include doomed

theorem Doomed.tagAncestor (nonzero : d ≠ 0)
    (real : g.tag d = false) (closed : Closure g.toGraph dlist d) (x : Nat)
    (ancestor : Reach g.toGraph.ptags d x) : gone x = false := by
  -- older tag ancestors first: a tag delta goes only with one of its own
  induction x using Nat.strong_induction_on with
  | _ x older =>
    have nonzeroX := ancestor.ne_zero nonzero
    have target := closed.step (g.tags_own d x real ancestor)
    by_cases tag : g.tag x = true
    · rw [symTarget_tag nonzeroX tag] at target
      by_contra on
      have marked := of_not_eq_false on
      have placed := doomed.within x marked
      rcases (doomed.tags x placed.1 placed.2 tag).mp marked with own | ⟨real1,first⟩ | ⟨real2,second⟩
      · have realOwn : g.tag (tagged g.toGraph x) = false := by
          rcases realFrom_real (g := g.toGraph) (Nat.le_of_lt (g.parent_lt x nonzeroX))
            with zero | isReal
          · exact absurd zero (doomed.within _ own).1
          · exact isReal
        rw [doomed.reached target realOwn] at own
        exact false_ne_true own
      · have path := ancestor.trans (.step (ptag_mem nonzeroX real1) real1 (.self _))
        rw [older _ (g.ptag_lt x nonzeroX) path] at first
        exact false_ne_true first
      · have path := ancestor.trans (.step (mtag_mem nonzeroX real2) real2 (.self _))
        rw [older _ (g.mtag_lt x nonzeroX) path] at second
        exact false_ne_true second
    · have realX : g.tag x = false := not_eq_true _ ▸ tag
      rw [symTarget_real realX] at target
      exact doomed.reached target realX

theorem Doomed.links (nonzero : d ≠ 0) (within : d ≤ g.table)
    (stays : gone d = false) {e : Nat} (link : e ∈ [g.parent d,g.merge d,g.ptag d,g.mtag d])
    (real : e ≠ 0) : gone e = false := by
  simp only [mem_cons,not_mem_nil,or_false] at link
  by_cases tag : g.tag d = true
  · have free : ¬ (gone (tagged g.toGraph d) = true ∨ (g.ptag d ≠ 0 ∧ gone (g.ptag d) = true) ∨
        (g.mtag d ≠ 0 ∧ gone (g.mtag d) = true)) := by
      intro attached
      rw [(doomed.tags d nonzero within tag).mpr attached] at stays
      exact Bool.true_eq_false.mp stays
    by_contra on
    have marked := of_not_eq_false on
    rcases link with rfl | rfl | rfl | rfl
    · rcases g.tag_parent d tag with isReal | ⟨_,same⟩
      · have own : tagged g.toGraph d = g.parent d := by
          have target := symTarget_real (g := g.toGraph) isReal
          have below := g.parent_lt d nonzero
          exact (realFrom_fuel (by omega) (by omega)).trans target
        exact free (.inl (own ▸ marked))
      · exact free (.inr (.inl ⟨same ▸ real,same ▸ marked⟩))
    · exact real (g.tag_merge d tag)
    · exact free (.inr (.inl ⟨real,marked⟩))
    · exact free (.inr (.inr ⟨real,marked⟩))
  · have realD : g.tag d = false := not_eq_true _ ▸ tag
    have closed := doomed.closed nonzero within realD stays
    rcases link with rfl | rfl | rfl | rfl
    · exact doomed.reached (closed.step (.step (mem_eachParent_parent nonzero real) real (.self _)))
        (g.parent_real d realD real)
    · exact doomed.reached (closed.step (.step (mem_eachParent_merge nonzero real) real (.self _)))
        (g.merge_real d realD real)
    · exact doomed.tagAncestor nonzero realD closed _ (.step (ptag_mem nonzero real) real (.self _))
    · exact doomed.tagAncestor nonzero realD closed _ (.step (mtag_mem nonzero real) real (.self _))

theorem Doomed.ancestors {x : Nat} (nonzero : d ≠ 0)
    (within : d ≤ g.table) (stays : gone d = false) (reached : Reach (eachParent g.toGraph) d x) :
    gone x = false := by
  have follows := reached.invariant (P := fun e => e ≠ 0 ∧ e ≤ g.table ∧ gone e = false)
    ⟨nonzero,within,stays⟩ (by
      intro e f old edge real
      have below := eachParent_descending g.toGraph e f edge real
      have link : f ∈ [g.parent e,g.merge e,g.ptag e,g.mtag e] := by
        rcases (mem_eachParent edge).2.2 with rfl | rfl
        · exact mem_cons_self
        · exact mem_cons_of_mem _ mem_cons_self
      exact ⟨real,by omega,doomed.links old.1 old.2.1 old.2.2 link real⟩)
  exact follows.2.2

end Survivors

def Marked (s : Sccs) (d : Nat) : Prop := s.flags d = D_SET.or D_GONE

private theorem checkGone_empty {g : CsetGraph} {s : Sccs} {bit : Flags → Bool} {who sfile : String}
    {rev : Nat → String} (links : ∀ d, d ≠ 0 → d ≤ g.table → bit (s.flags d) = false →
      (∀ e ∈ [g.parent d,g.merge d,g.ptag d,g.mtag d], e ≠ 0 → bit (s.flags e) = false) ∧
        ∀ i ∈ g.cludes d, bit (s.flags i.2) = false) :
    checkGone g s bit who sfile rev = [] := by
  unfold checkGone
  rw [flatMap_eq_nil_iff]
  intro d inside
  have placed := (g.toGraph.mem_serials d).mp (mem_reverse.mp inside)
  unfold checkGoneAt
  by_cases listed : setmap g.toGraph s bit true d = true
  · rw [if_pos listed]
  rw [if_neg listed]
  have off : bit (s.flags d) = false := by
    by_contra on
    exact listed (by simp [setmap,placed,of_not_eq_false on])
  obtain ⟨named,cluded⟩ := links d placed.1 placed.2 off
  have quiet : ∀ e, e ∈ [g.parent d,g.merge d,g.ptag d,g.mtag d] →
      setmap g.toGraph s bit true e = false := by
    intro e link
    by_cases zero : e = 0
    · simp [setmap,zero]
    · simp [setmap,named e link zero]
  have parents : (eachParent g.toGraph d).filter (setmap g.toGraph s bit true) = [] := by
    rw [filter_eq_nil_iff]
    intro e edge
    rw [quiet e (by rcases (mem_eachParent edge).2.2 with rfl | rfl <;> simp)]
    exact false_ne_true
  have ptags : (g.toGraph.ptags d).filter (setmap g.toGraph s bit true) = [] := by
    rw [filter_eq_nil_iff]
    intro e edge
    have link : e ∈ [g.parent d,g.merge d,g.ptag d,g.mtag d] := by
      unfold Graph.ptags at edge
      split at edge
      · cases edge
      · split at edge
        · cases edge
        · exact mem_cons_of_mem _ (mem_cons_of_mem _ edge)
    rw [quiet e link]
    exact false_ne_true
  have cludes : (g.cludes d).filter (fun i => setmap g.toGraph s bit true i.2) = [] := by
    rw [filter_eq_nil_iff]
    intro i inside
    simp [setmap,cluded i inside]
  rw [parents,ptags,cludes]
  simp

def taggedCsets : CsetGraph where
  table := 5
  parent d := if d = 2 then 1 else if d = 3 then 2 else if d = 4 then 2 else if d = 5 then 4 else 0
  ptag d := if d = 4 then 3 else if d = 5 then 4 else 0
  tag d := decide (d = 3 ∨ d = 5)
  parent_lt := by intro d real; clear * - real; grind
  ptag_lt := by intro d real; clear * - real; grind
  parent_real := by intro d real parent; clear * - real parent; grind
  merge_real := by intro d real merge; exact absurd rfl merge
  symgraph d := decide (3 ≤ d ∧ d ≤ 5)
  cludes _ := []
  symlist := [⟨2,3⟩,⟨4,5⟩]
  merge_parent := by intro d merge; exact absurd rfl merge
  mtag_ptag := by intro d mtag; exact absurd rfl mtag
  tag_merge := by intro d tag; rfl
  tag_parent := by
    intro d tag
    left
    rcases of_decide_eq_true tag with rfl | rfl <;> decide
  tags_own := by
    intro d x real reached
    cases reached with
    | self =>
      rw [symTarget_real real]
      exact .self d
    | @step _ e _ edge nonzero rest =>
      -- the only cset with a tag parent is the fourth, and its tag parent has none
      have found : d = 4 ∧ e = 3 := by
        have free : ¬ (d = 3 ∨ d = 5) := decide_eq_false_iff_not.mp real
        by_cases four : d = 4
        · subst four
          have listed : e ∈ [3,0] := edge
          simp only [mem_cons,not_mem_nil,or_false] at listed
          exact ⟨rfl,listed.resolve_right nonzero⟩
        · have five : d ≠ 5 := fun same => free (.inr same)
          exact absurd edge (by simp [Graph.ptags,four,five])
      obtain ⟨rfl,rfl⟩ := found
      have last : x = 3 := by
        cases rest with
        | self => rfl
        | step edge real _ => cases edge
      subst last
      exact .step (e := 2) (by decide) (by decide) (.self 2)
  symbols := by
    intro sym inside
    simp only [mem_cons,not_mem_nil,or_false] at inside
    rcases inside with rfl | rfl <;> decide

/-- After `range_gone` the ancestors of the list stay, nothing that stays names a marked delta, a
symbol that stays keeps its delta, and `checkGone` is silent if includes and excludes are ancestors.
-/
theorem range_gone_self_contained (g : CsetGraph) (s : Sccs) (fresh : ∀ d, s.flags d = Flags.clear)
    (tip : SingleTip g.toGraph) (dlist : List Nat) (real : RealList g.toGraph dlist) :
    ∃ after count, range_gone g.toGraph s dlist (D_SET.or D_GONE) = some (after, count) ∧
      (∀ d, after.flags d = Flags.clear ∨ Marked after d) ∧
      (∀ d, d ≠ 0 → d ≤ g.table → g.tag d = false → (¬ Marked after d ↔ Closure g.toGraph dlist d)) ∧
      (∀ d, d ≠ 0 → d ≤ g.table → ¬ Marked after d →
        ∀ e ∈ [g.parent d,g.merge d,g.ptag d,g.mtag d], e ≠ 0 → ¬ Marked after e) ∧
      (∀ sym ∈ g.symlist, Marked after sym.meta_ser ∨
        (¬ Marked after sym.meta_ser ∧ ¬ Marked after sym.ser)) ∧
      ((∀ d, d ≠ 0 → d ≤ g.table → ∀ i ∈ g.cludes d, Reach (eachParent g.toGraph) d i.2) →
        ∀ who sfile rev, checkGone g after Flags.set who sfile rev = [] ∧
          checkGone g after Flags.gone who sfile rev = []) := by
  obtain ⟨after,count,gone,ran,doomed,flags⟩ := range_gone_doomed fresh tip real
  have marked : ∀ d, Marked after d ↔ gone d = true := by
    intro d
    unfold Marked
    rw [flags d]
    split
    next on =>
      exact ⟨fun _ => on, fun _ => rfl⟩
    next on =>
      exact ⟨fun same => absurd same (by decide), fun isOn => absurd isOn on⟩
  have unmarked : ∀ d, ¬ Marked after d ↔ gone d = false := by
    intro d
    rw [marked d,not_eq_true]
  refine ⟨after,count,ran,?_,?_,?_,?_,?_⟩
  · intro d
    by_cases on : gone d = true
    · exact .inr ((marked d).mpr on)
    · left
      rw [flags d,if_neg on]
  · intro d nonzero within realD
    rw [marked d,doomed.real d nonzero within realD]
    exact not_not
  · intro d nonzero within stays e link realE
    rw [unmarked] at stays ⊢
    exact doomed.links nonzero within stays link realE
  · intro sym inside
    obtain ⟨nonzero,within,target⟩ := g.symbols sym inside
    by_cases on : Marked after sym.meta_ser
    · exact .inl on
    refine .inr ⟨on,?_⟩
    rw [unmarked] at on ⊢
    rw [target]
    by_cases tag : g.tag sym.meta_ser = true
    · rw [symTarget_tag nonzero tag]
      by_contra goes
      have attached := (doomed.tags _ nonzero within tag).mpr (.inl (of_not_eq_false goes))
      rw [attached] at on
      exact Bool.true_eq_false.mp on
    · rwa [symTarget_real (not_eq_true _ ▸ tag)]
  · intro ancestors who sfile rev
    have off : ∀ (bit : Flags → Bool), bit Flags.clear = false → bit (D_SET.or D_GONE) = true →
        ∀ d, bit (after.flags d) = false ↔ gone d = false := by
      intro bit clear set d
      rw [flags d]
      by_cases on : gone d = true
      · rw [if_pos on,set,on]
      · have isOff : gone d = false := not_eq_true _ ▸ on
        rw [if_neg on,clear,isOff]
    have quiet : ∀ (bit : Flags → Bool), bit Flags.clear = false → bit (D_SET.or D_GONE) = true →
        checkGone g after bit who sfile rev = [] := by
      intro bit clear set
      refine checkGone_empty ?_
      intro d nonzero within stays
      rw [off bit clear set] at stays
      refine ⟨?_,?_⟩
      · intro e link realE
        rw [off bit clear set]
        exact doomed.links nonzero within stays link realE
      · intro i inside
        rw [off bit clear set]
        exact doomed.ancestors nonzero within stays (ancestors d nonzero within i inside)
    exact ⟨quiet Flags.set rfl rfl,quiet Flags.gone rfl rfl⟩

theorem range_gone_self_contained_tagged :
    ∃ after count, range_gone taggedCsets.toGraph ⟨fun _ => Flags.clear, 0,0,false,false⟩ [2]
        (D_SET.or D_GONE) = some (after, count) ∧
      Marked after 4 ∧ ¬ Marked after 2 ∧
      ∀ who sfile rev, checkGone taggedCsets after Flags.set who sfile rev = [] ∧
        checkGone taggedCsets after Flags.gone who sfile rev = [] := by
  have tip : SingleTip taggedCsets.toGraph := by
    refine ⟨4,by decide,by decide,by decide,?_⟩
    intro d nonzero within real
    have within5 : d ≤ 5 := within
    have listed : d = 1 ∨ d = 2 ∨ d = 4 := by
      have free : ¬ (d = 3 ∨ d = 5) := decide_eq_false_iff_not.mp real
      omega
    rcases listed with rfl | rfl | rfl <;> decide
  have real : RealList taggedCsets.toGraph [2] := by
    unfold RealList
    decide
  obtain ⟨after,count,ran,_,closure,_,_,checked⟩ :=
    range_gone_self_contained taggedCsets ⟨fun _ => Flags.clear, 0,0,false,false⟩ (fun _ => rfl) tip
      [2] real
  refine ⟨after,count,ran,?_,?_,?_⟩
  · by_contra stays
    obtain ⟨e,inside,path⟩ := (closure 4 (by decide) (by decide) (by decide)).mp stays
    have below := path.le (eachParent_descending taggedCsets.toGraph)
    rw [mem_singleton.mp inside] at below
    omega
  · exact (closure 2 (by decide) (by decide) (by decide)).mpr ⟨2,mem_singleton.mpr rfl,.self 2⟩
  · exact checked nofun

end BitKeeper.Range
