import BitKeeper.Range.FindMerge

/-!
`range_lattice`: a pass up the table notes the longest way down to `lower`; a pass down hands `D_SET`
on, from `upper`, to the parents with a length, or only to the one with the larger length.
-/

namespace BitKeeper.Range

open Dag List Function

def lengths (g : Graph) : Nat → Nat → (Nat → Nat) → Nat → Nat
  | 0, _, len => len
  | left + 1, d, len =>
    lengths g left (d + 1)
      (if g.tag d then len
      else if g.merge d ≠ 0 ∧ len (g.parent d) < len (g.merge d) then
        update len d (len (g.merge d) + 1)
      else if len (g.parent d) ≠ 0 then update len d (len (g.parent d) + 1)
      else len)

def handed (g : Graph) (len : Nat → Nat) (longest : Bool) (d : Nat) : List Nat :=
  let parent := if len (g.parent d) ≠ 0 then [g.parent d] else []
  if g.merge d ≠ 0 ∧ len (g.merge d) ≠ 0 ∧ (longest = false ∨ len (g.parent d) < len (g.merge d)) then
    g.merge d :: if longest then [] else parent
  else parent

def setAll (marks : Nat → Bool) (list : List Nat) : Nat → Bool :=
  list.foldl (fun marks e => update marks e true) marks

def latticeLoop (next : Nat → List Nat) (lower : Nat) : Nat → (Nat → Bool) → Nat → Bool
  | 0, marks => marks
  | left + 1, marks =>
    latticeLoop next lower left
      (if marks (lower + left) then setAll marks (next (lower + left)) else marks)

def range_lattice (g : Graph) (marks : Nat → Bool) (top lower upper : Nat) (longest : Bool) :
    (Nat → Bool) × Nat :=
  let upper := if upper = 0 then top else upper
  let lower := if lower = 0 then 1 else lower
  if upper < lower then (marks, 1)
  else
    let len := lengths g (upper - lower) (lower + 1) (update (fun _ => 0) lower 1)
    if len upper = 0 then (marks, 1)
    else (latticeLoop (handed g len longest) lower (upper + 1 - lower) (update marks upper true), 0)

variable {g : Graph} {marks : Nat → Bool} {len : Nat → Nat} {lower upper d e x : Nat} {longest : Bool}

structure Measured (g : Graph) (lower upper : Nat) (len : Nat → Nat) : Prop where
  outside : ∀ e, e < lower ∨ upper < e → len e = 0
  lowest : len lower = 1
  tag : ∀ e, lower < e → g.tag e = true → len e = 0
  real : ∀ e, lower < e → e ≤ upper → g.tag e = false →
    len e = if max (len (g.parent e)) (len (g.merge e)) = 0 then 0
      else max (len (g.parent e)) (len (g.merge e)) + 1

theorem lengths_measured (left : Nat) (nonzero : lower ≠ 0) (measured : Measured g lower d len)
    (above : lower ≤ d) : Measured g lower (d + left) (lengths g left (d + 1) len) := by
  induction left generalizing d len with
  | zero => exact measured
  | succ left ih =>
    rw [lengths,← Nat.add_assoc,Nat.add_right_comm]
    refine ih ?_ (by omega)
    have none := measured.outside (d + 1) (.inr (Nat.lt_succ_self d))
    have empty : len 0 = 0 := measured.outside 0 (by omega)
    -- one entry is written, and the entries it is computed from stay as they are
    generalize written : (if g.tag (d + 1) then len else _) = after
    have kept : ∀ e, e ≠ d + 1 → after e = len e := by
      intro e other
      rw [← written]
      split_ifs <;> simp [update_of_ne other]
    have own : after (d + 1) = if g.tag (d + 1) then 0
        else if max (len (g.parent (d + 1))) (len (g.merge (d + 1))) = 0 then 0
        else max (len (g.parent (d + 1))) (len (g.merge (d + 1))) + 1 := by
      rw [← written]
      by_cases merge : g.merge (d + 1) = 0
      · rw [merge]
        split_ifs <;> simp_all
      · split_ifs <;> simp_all
        all_goals omega
    constructor
    · intro e far
      rw [kept e (by omega)]
      exact measured.outside e (by omega)
    · rw [kept lower (by omega),measured.lowest]
    · intro e high tagged
      by_cases here : e = d + 1
      · rw [here] at tagged ⊢
        rw [own,if_pos tagged]
      · rw [kept e here]
        exact measured.tag e high tagged
    · intro e high low real
      have parentBelow := g.parent_lt e (by omega)
      have mergeBelow := g.merge_lt e (by omega)
      rw [kept (g.parent e) (by omega),kept (g.merge e) (by omega)]
      by_cases here : e = d + 1
      · subst here
        rw [own,if_neg (by simp [real])]
      · rw [kept e here]
        exact measured.real e high (by omega) real

section
variable (measured : Measured g lower upper len)
include measured

theorem Measured.between (counted : len e ≠ 0) : lower ≤ e ∧ e ≤ upper := by
  by_contra apart
  exact counted (measured.outside e (by omega))

theorem Measured.path_le {list : List Nat}
    (path : Path g.parents e lower list) (nonzero : e ≠ 0) (within : e ≤ upper)
    (real : g.tag e = false) :
    list.length ≤ len e := by
  generalize finish : lower = last at path
  induction path with
  | self d => rw [← finish,measured.lowest,length_singleton]
  | @step d f last list edge parent rest ih =>
    subst finish
    have below := g.parents_descending _ _ edge parent
    have low := rest.reach.le g.parents_descending
    have filled : list.length ≠ 0 := by cases rest <;> simp
    rw [length_cons,measured.real d (by omega) within real]
    have shorter : list.length ≤ max (len (g.parent d)) (len (g.merge d)) := by
      rcases (mem_parents nonzero).mp edge with rfl | rfl
      · exact (ih parent (by omega) (g.merge_real d real parent) rfl).trans (le_max_right ..)
      · exact (ih parent (by omega) (g.parent_real d real parent) rfl).trans (le_max_left ..)
    rw [if_neg (by omega)]
    omega

theorem mem_handed (nonzero : lower ≠ 0) (edge : x ∈ handed g len longest d) (start : d ≠ 0) :
    len x ≠ 0 ∧ x ≠ 0 ∧ x < d ∧ x ∈ g.parents d := by
  have empty : len 0 = 0 := measured.outside 0 (by omega)
  have counted : len x ≠ 0 ∧ (x = g.merge d ∨ x = g.parent d) := by
    unfold handed at edge
    split_ifs at edge <;> simp_all
    all_goals grind
  refine ⟨counted.1,fun zero => counted.1 (zero ▸ empty), ?_,(mem_parents start).mpr counted.2⟩
  rcases counted.2 with rfl | rfl
  · exact g.merge_lt d start
  · exact g.parent_lt d start

end

theorem handed_all (edge : x ∈ g.parents d) (counted : len x ≠ 0) (parent : x ≠ 0) (start : d ≠ 0) :
    x ∈ handed g len false d := by
  rcases (mem_parents start).mp edge with rfl | rfl
  · simp [handed,parent,counted]
  · unfold handed
    split_ifs <;> simp_all

theorem Measured.handed_longest (measured : Measured g lower upper len) (nonzero : lower ≠ 0)
    (counted : len d ≠ 0) (above : d ≠ lower) :
    ∃ e, handed g len true d = [e] ∧ e ∈ g.parents d ∧ e ≠ 0 ∧ len e ≠ 0 ∧ len d = len e + 1 := by
  have empty : len 0 = 0 := measured.outside 0 (by omega)
  have range := measured.between counted
  have real : g.tag d = false := eq_false_of_ne_true fun tagged =>
    counted (measured.tag d (by omega) tagged)
  have next := measured.real d (by omega) range.2 real
  rw [if_neg (fun none => counted (by rw [next,if_pos none]))] at next
  by_cases merge : len (g.parent d) < len (g.merge d)
  · have some : g.merge d ≠ 0 := fun zero => by simp [zero,empty] at merge
    refine ⟨g.merge d,?_,(mem_parents (by omega)).mpr (.inl rfl),some,by omega,?_⟩
    · simp [handed,some,merge,show len (g.merge d) ≠ 0 by omega]
    · rw [next,max_eq_right (Nat.le_of_lt merge)]
  · rw [max_eq_left (by omega)] at next
    have some : len (g.parent d) ≠ 0 := fun zero => by
      rw [measured.real d (by omega) range.2 real,if_pos (by omega)] at counted
      exact counted rfl
    refine ⟨g.parent d,?_,(mem_parents (by omega)).mpr (.inr rfl),fun zero => some (zero ▸ empty),
      some,next⟩
    simp [handed,merge,some]

theorem Measured.longest_path (measured : Measured g lower upper len) (nonzero : lower ≠ 0)
    (counted : len d ≠ 0) :
    ∃ list, Path g.parents d lower list ∧ list.length = len d ∧
      ∀ x, Reach (handed g len true) d x ↔ x ∈ list := by
  induction d using Nat.strong_induction_on with
  | _ d ih =>
    by_cases bottom : d = lower
    · subst bottom
      refine ⟨[d],.self d,measured.lowest.symm,fun x => ?_⟩
      rw [mem_singleton]
      refine ⟨fun reached => ?_, fun same => same ▸ .self _⟩
      cases reached with
      | self => rfl
      | step edge real rest =>
        obtain ⟨some,-,below,-⟩ := mem_handed measured nonzero edge nonzero
        exact absurd (measured.between some).1 (by omega)
    · obtain ⟨e,only,edge,real,some,longer⟩ := measured.handed_longest nonzero counted bottom
      have below := g.parents_descending d e edge real
      obtain ⟨list,path,length,marks⟩ := ih e below some
      refine ⟨d :: list,.step edge real path,by rw [length_cons,length,longer],fun x => ?_⟩
      rw [mem_cons,← marks]
      constructor
      · intro reached
        cases reached with
        | self => exact .inl rfl
        | step first _ rest =>
          rw [only,mem_singleton] at first
          exact .inr (first ▸ rest)
      · rintro (rfl | rest)
        · exact .self _
        · exact .step (by rw [only,mem_singleton]) real rest

theorem setAll_iff (list : List Nat) : setAll marks list x = true ↔ marks x = true ∨ x ∈ list := by
  induction list generalizing marks with
  | nil => simp [setAll]
  | cons e list ih =>
    rw [setAll,foldl_cons]
    refine ih.trans ?_
    by_cases same : x = e <;> simp [same]

theorem latticeLoop_iff {next : Nat → List Nat} (down : ∀ d, lower ≤ d → ∀ e ∈ next d, e < d)
    (left : Nat) :
    latticeLoop next lower left marks x = true ↔ marks x = true ∨
      ∃ d, lower ≤ d ∧ d < lower + left ∧ latticeLoop next lower left marks d = true ∧ x ∈ next d :=
  by
  induction left generalizing marks x with
  | zero =>
    refine ⟨.inl,fun marked => marked.resolve_right ?_⟩
    rintro ⟨d,low,high,-⟩
    omega
  | succ left ih =>
    rw [latticeLoop]
    generalize handedOn : (if marks (lower + left) then setAll marks (next (lower + left)) else
      marks) = after
    have passed : ∀ x, after x = true ↔
        marks x = true ∨ (marks (lower + left) = true ∧ x ∈ next (lower + left)) := by
      intro x
      rw [← handedOn]
      split_ifs with marked <;> simp [marked,setAll_iff]
    have own : latticeLoop next lower left after (lower + left) = marks (lower + left) := by
      rw [Bool.eq_iff_iff,ih,passed]
      refine ⟨?_,fun old => .inl (.inl old)⟩
      rintro ((old | ⟨-,self⟩) | ⟨d,low,high,-,edge⟩)
      · exact old
      · exact absurd (down _ (Nat.le_add_right ..) _ self) (Nat.lt_irrefl _)
      · have below := down d low _ edge
        omega
    rw [ih,passed]
    constructor
    · rintro ((old | ⟨marked,edge⟩) | ⟨d,low,high,marked,edge⟩)
      · exact .inl old
      · exact .inr ⟨lower + left,by omega,by omega,own.trans marked,edge⟩
      · exact .inr ⟨d,low,by omega,marked,edge⟩
    · rintro (old | ⟨d,low,high,marked,edge⟩)
      · exact .inl (.inl old)
      · by_cases here : d = lower + left
        · subst here
          exact .inl (.inr ⟨own.symm.trans marked,edge⟩)
        · exact .inr ⟨d,low,by omega,marked,edge⟩

theorem Measured.reach_iff (measured : Measured g lower upper len) (nonzero : lower ≠ 0)
    (start : e ≠ 0) (within : e ≤ upper) (real : g.tag e = false) :
    len e ≠ 0 ↔ Reach g.parents e lower := by
  constructor
  · intro counted
    obtain ⟨list,path,-⟩ := measured.longest_path nonzero counted
    exact path.reach
  · intro reached
    obtain ⟨list,path⟩ := reached.path
    have longer := measured.path_le path start within real
    have filled : list.length ≠ 0 := by cases path <;> simp
    omega

theorem Measured.handed_reach (measured : Measured g lower upper len) (low : lower ≠ 0)
    (counted : len d ≠ 0) (start : d ≠ 0) (real : g.tag d = false) :
    Reach (handed g len false) d x ↔ Reach g.parents d x ∧ Reach g.parents x lower := by
  constructor
  · intro reached
    obtain ⟨above,some⟩ := reached.invariant (P := fun x => Reach g.parents d x ∧ len x ≠ 0)
      ⟨.self d,counted⟩
      (fun e f here edge nonzero => by
        obtain ⟨some,-,-,parent⟩ := mem_handed measured low edge (here.1.ne_zero start)
        exact ⟨here.1.trans (.step parent nonzero (.self f)),some⟩)
    obtain ⟨list,path,-⟩ := measured.longest_path low some
    exact ⟨above,path.reach⟩
  · rintro ⟨above,below⟩
    have within := (measured.between counted).2
    clear counted
    induction above with
    | self d => exact .self d
    | @step d f x edge nonzero rest ih =>
      have less := g.parents_descending d f edge nonzero
      have realParent : g.tag f = false := by
        rcases (mem_parents start).mp edge with rfl | rfl
        · exact g.merge_real d real nonzero
        · exact g.parent_real d real nonzero
      have some := (measured.reach_iff low nonzero (by omega) realParent).mpr (rest.trans below)
      exact .step (handed_all edge some nonzero start) nonzero
        (ih nonzero realParent below (by omega))

section Lattice

variable (top : Nat) (reals : RealList g [lower,upper])
include reals

theorem measured_lengths (order : lower ≤ upper) :
    Measured g lower upper (lengths g (upper - lower) (lower + 1) (update (fun _ => 0) lower 1)) := by
  obtain ⟨⟨nonzero,-⟩,-⟩ := reals.pair
  have first : Measured g lower lower (update (fun _ => 0) lower 1) :=
    ⟨fun e apart => update_of_ne (by omega) _ _, update_self ..,
      fun e above _ => update_of_ne (by omega) _ _,fun e above within => by omega⟩
  have all := lengths_measured (upper - lower) nonzero first le_rfl
  rwa [Nat.add_sub_cancel' order] at all

private theorem range_lattice_none (apart : ¬Reach g.parents upper lower) :
    range_lattice g marks top lower upper longest = (marks, 1) := by
  obtain ⟨⟨low,-⟩,high,-,real⟩ := reals.pair
  simp only [range_lattice,if_neg low,if_neg high]
  by_cases order : upper < lower
  · rw [if_pos order]
  · have measured := measured_lengths reals (Nat.le_of_not_lt order)
    rw [if_neg order,if_pos]
    by_contra counted
    exact apart ((measured.reach_iff low high le_rfl real).mp counted)

private theorem range_lattice_marked (joined : Reach g.parents upper lower) :
    ∃ len, Measured g lower upper len ∧ len upper ≠ 0 ∧
      ∀ longest, (range_lattice g (fun _ => false) top lower upper longest).2 = 0 ∧
        ∀ x, (range_lattice g (fun _ => false) top lower upper longest).1 x = true ↔
          Reach (handed g len longest) upper x := by
  obtain ⟨⟨low,-⟩,high,-,real⟩ := reals.pair
  have order := joined.le g.parents_descending
  have measured := measured_lengths reals order
  have counted := (measured.reach_iff low high le_rfl real).mpr joined
  refine ⟨_,measured,counted,fun longest => ?_⟩
  simp only [range_lattice,if_neg low,if_neg high,if_neg (Nat.not_lt.mpr order),if_neg counted,
    true_and]
  generalize lengths g (upper - lower) _ _ = len at measured counted ⊢
  have start : ∀ x, update (fun _ => false) upper true x = true ↔ x = upper := by
    intro x
    by_cases same : x = upper <;> simp [same]
  generalize update (fun _ => false) upper true = first at start ⊢
  have down : ∀ d, lower ≤ d → ∀ e ∈ handed g len longest d, e < d := fun d above e edge =>
    (mem_handed measured low edge (by omega)).2.2.1
  have closed (x : Nat) : latticeLoop (handed g len longest) lower (upper + 1 - lower) first x =
      true ↔ _ :=
    latticeLoop_iff down _
  intro x
  constructor
  · -- from the newest delta down: a mark was handed on by a newer one
    induction far : upper - x using Nat.strong_induction_on generalizing x with
    | _ n ih =>
      intro marked
      rcases (closed x).mp marked with own | ⟨d,lowest,within,source,edge⟩
      · rw [(start x).mp own]
        exact .self _
      · obtain ⟨-,nonzero,below,-⟩ := mem_handed measured low edge (by omega)
        exact (ih (upper - d) (by omega) d rfl source).trans (.step edge nonzero (.self x))
  · intro reached
    have final : _ ∧ len x ≠ 0 := reached.invariant
      (P := fun x => latticeLoop (handed g len longest) lower (upper + 1 - lower) first x = true ∧
        len x ≠ 0)
      ⟨(closed upper).mpr (.inl ((start upper).mpr rfl)),counted⟩ (fun d e here edge nonzero => by
        have range := measured.between here.2
        exact ⟨(closed e).mpr (.inr ⟨d,range.1,by omega,here.1,edge⟩),
          (mem_handed measured low edge (by omega)).1⟩)
    exact final.1

end Lattice

/-- Without `longest` the marks are the deltas between the two, with it one longest way. -/
theorem range_lattice_marks (g : Graph) (top lower upper : Nat) (reals : RealList g [lower,upper]) :
    (∀ longest, (range_lattice g (fun _ => false) top lower upper longest).2 ≠ 0 ↔
        ¬Reach g.parents upper lower) ∧
      (∀ x, (range_lattice g (fun _ => false) top lower upper false).1 x = true ↔
        Reach g.parents upper x ∧ Reach g.parents x lower) ∧
      (Reach g.parents upper lower → ∃ list, Path g.parents upper lower list ∧
        (∀ other, Path g.parents upper lower other → other.length ≤ list.length) ∧
        ∀ x, (range_lattice g (fun _ => false) top lower upper true).1 x = true ↔ x ∈ list) := by
  by_cases joined : Reach g.parents upper lower
  · obtain ⟨⟨low,-⟩,high,-,real⟩ := reals.pair
    obtain ⟨len,measured,counted,results⟩ := range_lattice_marked top reals joined
    refine ⟨fun longest => by simp [(results longest).1,joined],
      fun x => ((results false).2 x).trans (measured.handed_reach low counted high real), fun _ => ?_⟩
    · obtain ⟨list,path,length,marks⟩ := measured.longest_path low counted
      refine ⟨list,path,fun other way => ?_, fun x => ((results true).2 x).trans (marks x)⟩
      rw [length]
      exact measured.path_le way high le_rfl real
  · have none : ∀ longest, range_lattice g (fun _ => false) top lower upper longest =
        (fun _ => false, 1) := fun _ =>
      range_lattice_none top reals joined
    refine ⟨fun longest => by simp [none,joined], fun x => ?_, fun reached => absurd reached joined⟩
    rw [none]
    simpa using fun above below => joined (above.trans below)

theorem range_lattice_marks_crossMerge :
    Reach crossMerge.parents 5 1 ∧ Reach crossMerge.parents 5 2 ∧ Reach crossMerge.parents 2 1 := by
  obtain ⟨fails,marks,-⟩ := range_lattice_marks crossMerge 6 1 5 (by unfold RealList; decide)
  refine ⟨not_not.mp fun apart => ?_, (marks 2).mp (by decide +kernel)⟩
  exact absurd ((fails false).mpr apart) (by decide +kernel)

end BitKeeper.Range
