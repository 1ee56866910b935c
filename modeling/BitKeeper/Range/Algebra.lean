import BitKeeper.Range.Collect

/-!
The set algebra of `walkrevs_collect`. `WR_TIP` keeps the maximal members: a returned tip gives the
whole mask to its parents, so everything below it is passed over.
-/

namespace BitKeeper.Range

open Color Dag

def Tip (g : Graph) (member : Nat → Prop) (x : Nat) : Prop :=
  member x ∧ ∀ y, member y → Reach (eachParent g) y x → y = x

def Answer (g : Graph) (blue : List Nat) (red : Option (List Nat)) (flags : Mode) : Nat → Prop :=
  if flags.tip || flags.gca then Tip g (Selected g blue red flags) else Selected g blue red flags

variable {g : Graph}

theorem exists_tip {member : Nat → Prop} {n : Nat} (bounded : ∀ x, member x → x ≤ n) {x : Nat}
    (inside : member x) :
    ∃ y, Tip g member y ∧ Reach (eachParent g) y x := by
  induction gap : n - x using Nat.strong_induction_on generalizing x with
  | _ gap' ih =>
    by_cases tip : ∀ y, member y → Reach (eachParent g) y x → y = x
    · exact ⟨x,⟨inside,tip⟩,.self x⟩
    push Not at tip
    obtain ⟨y,insideY,reached,other⟩ := tip
    have low := reached.le (eachParent_descending g)
    have bound := bounded y insideY
    obtain ⟨z,tipZ,above⟩ := ih (n - y) (by omega) insideY rfl
    exact ⟨z,tipZ,above.trans reached⟩

theorem reach_below {d x : Nat} (below : x ≠ d) :
    Reach (eachParent g) d x ↔ ∃ e ∈ eachParent g d, Reach (eachParent g) e x := by
  constructor
  · intro reached
    cases reached with
    | self => exact absurd rfl below
    | step edge _real rest => exact ⟨_,edge,rest⟩
  · rintro ⟨e,edge,rest⟩
    exact .step edge (mem_eachParent edge).2.1 rest

section

variable {g : Graph} {blue : List Nat} {red : Option (List Nat)} {flags : Mode} {x : Nat}

theorem Answer.selected (answer : Answer g blue red flags x) : Selected g blue red flags x := by
  unfold Answer at answer
  split at answer
  · exact answer.1
  · exact answer

def aimAt (g : Graph) (blue : List Nat) (red : Option (List Nat)) (flags : Mode) (d : Nat) (b : Bit)
    (x : Nat) : Prop :=
  aim g blue red b x ∨ flags.plainer.tip = true ∧ b.on (maskOf flags.plainer.both) = true ∧
    ∃ y, d < y ∧ Answer g blue red flags y ∧ y ≠ x ∧ Reach (eachParent g) y x

theorem answer_iff : Answer g blue red flags x ↔ Selected g blue red flags x ∧
    (flags.plainer.tip = true → ∀ y, Selected g blue red flags y → Reach (eachParent g) y x →
      y = x) := by
  unfold Answer
  rw [plainer_tip]
  split
  next tip =>
    exact ⟨fun found => ⟨found.1,fun _ => found.2⟩, fun found => ⟨found.1,found.2 tip⟩⟩
  next tip =>
    exact ⟨fun found => ⟨found,fun absent => absurd absent tip⟩, fun found => found.1⟩

variable {d : Nat}

theorem aimAt_free
    (free : flags.plainer.tip = true → ∀ y, Selected g blue red flags y → Reach (eachParent g) y x →
      y = x) (b : Bit) : aimAt g blue red flags d b x ↔ aim g blue red b x := by
  constructor
  · rintro (own | ⟨tip,_on,y,_above,answer,other,reached⟩)
    · exact own
    · exact absurd (free tip y answer.selected reached) other
  · exact .inl

section Loop

variable (realBlue : RealList g blue) (realRed : ∀ list, red = some list → RealList g list)
include realBlue realRed

theorem Answer.hits {w : Walk} (ready : Ready g (aimAt g blue red flags d) flags.plainer d w)
    (answer : Answer g blue red flags x) : Hits g w.wr (aimAt g blue red flags d) x := by
  obtain ⟨selected,free⟩ := answer_iff.mp answer
  have real := Selected.real realBlue realRed selected
  exact (hits_selected ready.flags_eq ready.mask ready.want (aimAt_free free)).mpr
    ⟨⟨real.1,real.2.2⟩,selected⟩

theorem Hits.answer {w : Walk} (ready : Ready g (aimAt g blue red flags d) flags.plainer d w)
    (hits : Hits g w.wr (aimAt g blue red flags d) x)
    (newest : ∀ y, x < y → y ≤ d → ¬ Answer g blue red flags y) :
    Answer g blue red flags x := by
  have free : flags.plainer.tip = true → ∀ y, Selected g blue red flags y →
      Reach (eachParent g) y x → y = x := by
    intro tip y selected reached
    by_contra other
    obtain ⟨z,tipZ,above⟩ :=
      exists_tip (g := g) (fun x selected => (Selected.real realBlue realRed selected).2.1) selected
    have answer : Answer g blue red flags z := answer_iff.mpr ⟨tipZ.1,fun _ => tipZ.2⟩
    have first := above.le (eachParent_descending g)
    have second := reached.le (eachParent_descending g)
    have high : d < z := by
      by_contra low
      exact newest z (by omega) (by omega) answer
    refine hits.short (color_ext fun b => Bool.eq_iff_iff.mpr ?_)
    rw [on_shade,ready.mask]
    constructor
    · rintro (own | below)
      · cases b with
        | red => exact (congrArg Color.red (red_in_mask _)).trans rfl
        | blue => exact (congrArg Color.blue (blue_in_mask _)).trans rfl
        | green => exact absurd own id
      · exact below.2.1
    · intro on
      exact .inr ⟨tip,on,z,high,answer,by omega,above.trans reached⟩
  have selected := ((hits_selected ready.flags_eq ready.mask ready.want (aimAt_free free)).mp hits).2
  exact answer_iff.mpr ⟨selected,free⟩

end Loop

theorem aimAt_next {z : Nat} (answer : Answer g blue red flags x) (below : x ≤ d)
    (newest : ∀ y, x < y → y ≤ d → ¬ Answer g blue red flags y) (b : Bit) (low : z ≤ x - 1)
    (nonzero : x ≠ 0) :
    pruned g flags.plainer.tip (maskOf flags.plainer.both) x (aimAt g blue red flags d) b z ↔
      aimAt g blue red flags (x - 1) b z := by
  have strict : (∃ e ∈ eachParent g x, Reach (eachParent g) e z) ↔ Reach (eachParent g) x z :=
    (reach_below (by omega)).symm
  unfold pruned
  rw [strict]
  constructor
  · rintro ((own | ⟨tip,on,y,above,found,other,reached⟩) | ⟨tip,on,reached⟩)
    · exact .inl own
    · exact .inr ⟨tip,on,y,by omega,found,other,reached⟩
    · exact .inr ⟨tip,on,x,by omega,answer,by omega,reached⟩
  · rintro (own | ⟨tip,on,y,above,found,other,reached⟩)
    · exact .inl (.inl own)
    · by_cases same : y = x
      · exact .inr ⟨tip,on,same ▸ reached⟩
      · by_cases high : d < y
        · exact .inl (.inr ⟨tip,on,y,high,found,other,reached⟩)
        · exact absurd found (newest y (by omega) (by omega))

private theorem collectLoop_lists (realBlue : RealList g blue)
    (realRed : ∀ list, red = some list → RealList g list) {fuel : Nat} {w : Walk}
    (ready : Ready g (aimAt g blue red flags d) flags.plainer d w)
    (bare : ∀ e, d < e → (w.s.flags e).color = clear) (enough : d < fuel) (before : List Nat) :
    ∃ list, Lists (Answer g blue red flags) d list ∧ (collectLoop g fuel w before).2 =
      before ++ list ∧
      Clean (walkrevs_done (collectLoop g fuel w before).1) := by
  induction fuel generalizing d w before with
  | zero => omega
  | succ fuel ih =>
    obtain ⟨settled,outcome⟩ := ready.call
    unfold collectLoop
    dsimp only
    rcases outcome with ⟨zero,k,stopped⟩ | found
    · rw [if_pos zero]
      refine ⟨[],⟨List.Pairwise.nil,fun x => ?_⟩, (List.append_nil before).symm,
        stopped.clean settled ready.place bare⟩
      refine iff_of_false List.not_mem_nil fun member => ?_
      exact stopped.none x member.1 (member.2.hits realBlue realRed ready)
    generalize (walkrevs g w).2 = x at *
    generalize (walkrevs g w).1 = after at *
    have nonzero := found.hits.nonzero
    have below := found.below
    have newest : ∀ y, x < y → y ≤ d → ¬ Answer g blue red flags y := fun y above low answer =>
      found.newest y above low (answer.hits realBlue realRed ready)
    have answer := found.hits.answer realBlue realRed ready newest
    have next : Ready g (aimAt g blue red flags (x - 1)) flags.plainer (x - 1) after := by
      have after' := found.painting
      rw [ready.flags_eq,ready.mask] at after'
      refine ⟨settled.flags.trans ready.flags_eq,settled.mask.trans ready.mask,
        settled.want.trans ready.want,?_,
        after'.congr (fun b _ z low => aimAt_next answer below newest b low nonzero) ?_⟩
      · rw [found.place]
        omega
      · intro all z nonzeroZ real low
        exact (aimAt_next answer below newest .red low nonzero).mp
          (after'.every all z nonzeroZ real low)
    have bareNext : ∀ e, x - 1 < e → (after.s.flags e).color = clear := by
      intro e above
      by_cases high : d < e
      · exact (settled.above e high).trans (bare e high)
      · exact found.bare e (by omega) (by omega)
    rw [if_neg nonzero]
    obtain ⟨list,lists,same,clean⟩ := ih next bareNext (by omega) (before ++ [x])
    refine ⟨x :: list,lists.cons nonzero answer below newest,?_,clean⟩
    rw [same,List.append_assoc]
    rfl

end

theorem walkrevs_collect_answer {s : Sccs} (clean : Clean s) {blue : List Nat}
    {red : Option (List Nat)} (realBlue : RealList g blue)
    (realRed : ∀ list, red = some list → RealList g list) (flags : Mode) :
    (walkrevs_collect g s blue red flags).2.Pairwise (fun x y => y < x) ∧
      (∀ x, x ∈ (walkrevs_collect g s blue red flags).2 ↔ Answer g blue red flags x) ∧
      Clean (walkrevs_collect g s blue red flags).1 := by
  have low := startAt_le realBlue realRed
  have ready := setup_ready realBlue realRed flags fun e _ => clean e
  have unpruned : ∀ b x, x ≤ startAt g blue red →
      (aim g blue red b x ↔ aimAt g blue red flags (startAt g blue red) b x) := by
    intro b x _below
    refine ⟨.inl,fun goal => goal.resolve_right ?_⟩
    rintro ⟨_tip,_on,y,above,answer,_other,_reached⟩
    exact absurd (le_startAt (combine_or answer.selected)) (by omega)
  have painted :=
      ready.painting.congr (fun b _ x below => unpruned b x below) fun all x nonzero real below =>
    (unpruned .red x below).mp (ready.painting.every all x nonzero real below)
  obtain ⟨list,lists,same,clean⟩ := collectLoop_lists realBlue realRed
    { ready with painting := painted }
    (fun e above => by rw [setup_above above]; exact clean e)
      (Nat.lt_add_right 1 (Nat.lt_succ_of_le low)) []
  unfold walkrevs_collect
  rw [same,List.nil_append]
  refine ⟨lists.sorted,fun x => ?_, clean⟩
  rw [lists.mem]
  exact ⟨fun found => found.2, fun answer => ⟨le_startAt (combine_or answer.selected),answer⟩⟩

theorem collect_wanted {s : Sccs} (clean : Clean s) {red blue : List Nat} (realRed : RealList g red)
    (realBlue : RealList g blue) :
    Lists (Wanted g (Closure g red) (Closure g blue)) g.table
      (walkrevs_collect g s blue (some red) Mode.plain).2 ∧
      Clean (walkrevs_collect g s blue (some red) Mode.plain).1 := by
  have reds : ∀ list, some red = some list → RealList g list :=
    fun list same => Option.some.inj same ▸ realRed
  obtain ⟨sorted,mem,cleaned⟩ := walkrevs_collect_answer clean realBlue reds Mode.plain
  refine ⟨⟨sorted,
    fun x => (mem x).trans ⟨fun found => ?_, fun found => ⟨found.2.2.2.1,found.2.2.2.2⟩⟩⟩, cleaned⟩
  obtain ⟨nonzero,low,real⟩ := Closure.real realRed found.1
  exact ⟨low,nonzero,real,found⟩

private theorem collectLoop_kept (g : Graph) (fuel : Nat) (w : Walk) (before : List Nat) :
    Kept w.s (collectLoop g fuel w before).1.s := by
  induction fuel generalizing w before with
  | zero => exact Kept.refl w.s
  | succ fuel ih =>
    have called : Kept w.s (walkrevs g w).1.s := walkFrom_kept g _ w
    unfold collectLoop
    dsimp only
    split
    · exact called
    · exact called.trans (ih _ _)

theorem collect_kept (g : Graph) (s : Sccs) (blue : List Nat) (red : Option (List Nat))
    (flags : Mode) :
    Kept { s with rstop := 0 } (walkrevs_collect g s blue red flags).1 :=
  ((setup_kept g s blue red flags).trans (collectLoop_kept g _ _ _)).trans (doneFrom_kept _ _ _ _)

/-- `walkrevs_collect` returns the set its flags select, newest first, and leaves no colour. -/
theorem walkrevs_collect_selects (g : Graph) (s : Sccs) (clean : Clean s) (blue : List Nat)
    (red : Option (List Nat)) (realBlue : RealList g blue)
    (realRed : ∀ list, red = some list → RealList g list) (flags : Mode) :
    (walkrevs_collect g s blue red flags).2.Pairwise (fun x y => y < x) ∧
      (∀ x, x ∈ (walkrevs_collect g s blue red flags).2 ↔ Answer g blue red flags x) ∧
      Clean (walkrevs_collect g s blue red flags).1 :=
  walkrevs_collect_answer clean realBlue realRed flags

def crossMerge : Graph where
  table := 6
  parent d := if d = 2 ∨ d = 3 then 1 else if d = 4 ∨ d = 5 then 2 else if d = 6 then 3 else 0
  merge d := if d = 5 then 3 else if d = 6 then 2 else 0
  tag d := decide (d = 4)
  parent_lt := by intro d real; clear * - real; grind
  merge_lt := by intro d real; clear * - real; grind
  parent_real := by
    intro d real parent
    rw [decide_eq_false_iff_not] at real ⊢
    split_ifs at parent ⊢ <;> omega
  merge_real := by
    intro d real merge
    rw [decide_eq_false_iff_not] at real ⊢
    split_ifs at merge ⊢ <;> omega

theorem walkrevs_collect_selects_crossMerge :
    (walkrevs_collect crossMerge ⟨fun _ => Flags.clear, 0,0,false,false⟩ [5] (some [6])
      ⟨false,false,false,true⟩).2 = [3,2] ∧
      Tip crossMerge (fun x => Closure crossMerge [6] x ∧ Closure crossMerge [5] x) 3 ∧
      Tip crossMerge (fun x => Closure crossMerge [6] x ∧ Closure crossMerge [5] x) 2 := by
  have found : (walkrevs_collect crossMerge ⟨fun _ => Flags.clear, 0,0,false,false⟩ [5] (some [6])
      ⟨false,false,false,true⟩).2 = [3,2] := by decide +kernel
  have realBlue : RealList crossMerge [5] := by
    unfold RealList
    decide
  have realRed : ∀ list, some [6] = some list → RealList crossMerge list := by
    rintro _ ⟨⟩
    unfold RealList
    decide
  obtain ⟨_sorted,mem,_clean⟩ := walkrevs_collect_selects crossMerge
    ⟨fun _ => Flags.clear, 0,0,false,false⟩ (fun _ => rfl) [5]
    (some [6]) realBlue realRed ⟨false,false,false,true⟩
  rw [found] at mem
  exact ⟨found,(mem 3).mp (by decide),(mem 2).mp (by decide)⟩

end BitKeeper.Range
