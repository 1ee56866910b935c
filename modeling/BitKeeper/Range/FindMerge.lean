import BitKeeper.Range.Algebra

/-!
`range_findMerge`: the colours of two deltas are handed on from parent to child in one pass up the
table; a delta with both is reported unless a parent has both already.
-/

namespace BitKeeper.Range

open Color Dag List Function

def bothColors : Color := D_RED.or D_BLUE

def edgeColor (color : Nat → Color) (e : Nat) : Color :=
  if e = 0 then clear else (color e).and bothColors

structure MergeScan where
  color : Nat → Color
  d : Nat
  ret : Nat
  mlist : List Nat

/-- The loop with the number of serials that are left; `all` if a list was passed. -/
def findMergeLoop (g : Graph) (all : Bool) : Nat → MergeScan → MergeScan
  | 0, scan => scan
  | left + 1, ⟨color,d,ret,mlist⟩ =>
    if g.tag d then findMergeLoop g all left ⟨color,d + 1,ret,mlist⟩
    else
      let pcolor := edgeColor color (g.parent d)
      let mcolor := edgeColor color (g.merge d)
      let color := update color d ((color d).or (pcolor.or mcolor))
      if (color d).and bothColors = bothColors ∧ pcolor ≠ bothColors ∧ mcolor ≠ bothColors then
        let ret := if ret = 0 then d else ret
        if all then findMergeLoop g all left ⟨color,d + 1,ret,mlist ++ [d]⟩ else ⟨color,d,ret,mlist⟩
      else findMergeLoop g all left ⟨color,d + 1,ret,mlist⟩

def clearBoth : Nat → Nat → (Nat → Color) → Nat → Color
  | 0, _, color => color
  | left + 1, e, color => clearBoth left (e + 1) (update color e ((color e).minus bothColors))

def range_findMerge (g : Graph) (color : Nat → Color) (d1 d2 : Nat) (all : Bool) :
    (Nat → Color) × Nat × List Nat :=
  let start := if d1 < d2 then d1 else d2
  let color := update color d1 ((color d1).or D_BLUE)
  let color := update color d2 ((color d2).or D_RED)
  let scan := findMergeLoop g all (g.table + 1 - start) ⟨color,start,0,[]⟩
  let d := if g.table < scan.d then g.table else scan.d
  (clearBoth (d + 1 - start) start scan.color, scan.ret, scan.mlist)

def Descends (g : Graph) (a e : Nat) : Prop := g.tag e = false ∧ e ≤ g.table ∧ Reach g.parents e a

def Common (g : Graph) (d1 d2 e : Nat) : Prop := Descends g d1 e ∧ Descends g d2 e

def MergePoint (g : Graph) (d1 d2 d : Nat) : Prop :=
  Common g d1 d2 d ∧ ∀ e, Common g d1 d2 e → Reach g.parents d e → e = d

variable {g : Graph} {color : Nat → Color} {a d d1 d2 e k : Nat}

theorem RealList.pair (reals : RealList g [d1,d2]) :
    (d1 ≠ 0 ∧ d1 ≤ g.table ∧ g.tag d1 = false) ∧ d2 ≠ 0 ∧ d2 ≤ g.table ∧ g.tag d2 = false := by
  simpa [RealList] using reals

theorem mem_parents (nonzero : d ≠ 0) : e ∈ g.parents d ↔ e = g.merge d ∨ e = g.parent d := by
  simp [Graph.parents,nonzero]

theorem Descends.le (below : Descends g a e) : a ≤ e := below.2.2.le g.parents_descending

theorem descends_iff (real : g.tag k = false) (within : k ≤ g.table) (nonzero : a ≠ 0)
    (start : k ≠ 0) :
    Descends g a k ↔ k = a ∨ Descends g a (g.parent k) ∨ Descends g a (g.merge k) := by
  constructor
  · rintro ⟨-,-,reached⟩
    cases reached with
    | self => exact .inl rfl
    | step edge nonzero rest =>
      rcases (mem_parents start).mp edge with rfl | rfl
      · exact .inr (.inr ⟨g.merge_real k real nonzero,
          (Nat.le_of_lt (g.merge_lt k start)).trans within,rest⟩)
      · exact .inr (.inl ⟨g.parent_real k real nonzero,
          (Nat.le_of_lt (g.parent_lt k start)).trans within,rest⟩)
  · have up : ∀ e, e ∈ g.parents k → Descends g a e → Descends g a k := fun e edge below =>
      ⟨real,within,.step edge (fun zero => nonzero (Nat.le_zero.mp (zero ▸ below.le))) below.2.2⟩
    rintro (rfl | below | below)
    · exact ⟨real,within,.self k⟩
    · exact up _ ((mem_parents start).mpr (.inr rfl)) below
    · exact up _ ((mem_parents start).mpr (.inl rfl)) below

open Classical in
noncomputable def hue (g : Graph) (d1 d2 e : Nat) : Color :=
  ⟨decide (Descends g d2 e),decide (Descends g d1 e),false⟩

noncomputable def tint (g : Graph) (d1 d2 k e : Nat) : Color :=
  if e < k then hue g d1 d2 e else ⟨decide (e = d2),decide (e = d1),false⟩

private theorem hue_both : (hue g d1 d2 e).and bothColors = bothColors ↔ Common g d1 d2 e := by
  simp [hue,Color.and,bothColors,Color.or,D_RED,D_BLUE,Common,and_comm]

theorem hue_eq_both : hue g d1 d2 e = bothColors ↔ Common g d1 d2 e := by
  simp [hue,bothColors,Color.or,D_RED,D_BLUE,Common,and_comm]

theorem edgeColor_tint (first : d1 ≠ 0) (second : d2 ≠ 0) (below : e < k) :
    edgeColor (tint g d1 d2 k) e = hue g d1 d2 e := by
  unfold edgeColor
  by_cases zero : e = 0
  · have none : ∀ a, a ≠ 0 → ¬Descends g a e := fun a nonzero found =>
      nonzero (Nat.le_zero.mp (zero ▸ found.le))
    rw [if_pos zero]
    simp [hue,none d1 first,none d2 second,clear]
  · rw [if_neg zero]
    simp [tint,below,hue,Color.and,bothColors,Color.or,D_RED,D_BLUE]

theorem tint_succ : tint g d1 d2 (k + 1) = update (tint g d1 d2 k) k (hue g d1 d2 k) := by
  funext e
  unfold tint
  by_cases same : e = k
  · subst same
    rw [update_self,if_pos (Nat.lt_succ_self _)]
  · rw [update_of_ne same]
    exact if_congr (by omega) rfl rfl

theorem tint_tag (tagged : g.tag k = true) (first : g.tag d1 = false) (second : g.tag d2 = false) :
    tint g d1 d2 (k + 1) = tint g d1 d2 k := by
  have notFirst : k ≠ d1 := by
    rintro rfl
    simp [first] at tagged
  have notSecond : k ≠ d2 := by
    rintro rfl
    simp [second] at tagged
  rw [tint_succ,update_eq_self_iff]
  simp [tint,hue,Descends,tagged,notFirst,notSecond]

private theorem tint_real (real : g.tag k = false) (within : k ≤ g.table) (start : k ≠ 0)
    (first : d1 ≠ 0) (second : d2 ≠ 0) :
    (tint g d1 d2 k k).or ((hue g d1 d2 (g.parent k)).or (hue g d1 d2 (g.merge k))) =
      hue g d1 d2 k := by
  classical
  have joined : ∀ a, a ≠ 0 → (decide (k = a) || (decide (Descends g a (g.parent k)) ||
      decide (Descends g a (g.merge k)))) = decide (Descends g a k) := by
    intro a nonzero
    rw [Bool.eq_iff_iff]
    simp [descends_iff real within nonzero start]
  simp [tint,hue,Color.or,joined d1 first,joined d2 second]

theorem mergePoint_iff (real : g.tag k = false) (within : k ≤ g.table) (start : k ≠ 0)
    (first : d1 ≠ 0) :
    MergePoint g d1 d2 k ↔ Common g d1 d2 k ∧ ¬Common g d1 d2 (g.parent k) ∧
      ¬Common g d1 d2 (g.merge k) := by
  have above : ∀ e, e ∈ g.parents k → Common g d1 d2 e → e ≠ 0 ∧ Reach g.parents k e := by
    intro e edge common
    have nonzero : e ≠ 0 := fun zero => first (Nat.le_zero.mp (zero ▸ common.1.le))
    exact ⟨nonzero,.step edge nonzero (.self e)⟩
  constructor
  · rintro ⟨common,least⟩
    refine ⟨common,fun shared => ?_, fun shared => ?_⟩
    · have same := least _ shared (above _ ((mem_parents start).mpr (.inr rfl)) shared).2
      exact absurd same (Nat.ne_of_lt (g.parent_lt k start))
    · have same := least _ shared (above _ ((mem_parents start).mpr (.inl rfl)) shared).2
      exact absurd same (Nat.ne_of_lt (g.merge_lt k start))
  rintro ⟨common,parent,merge⟩
  refine ⟨common,fun e shared reached => ?_⟩
  -- a step towards another common descendant passes a parent that is one as well
  have passes : ∀ f, f ∈ g.parents k → f ≠ 0 → g.tag f = false → f < k → Reach g.parents f e →
      Common g d1 d2 f := fun f _ _ realParent below rest =>
    ⟨⟨realParent,by omega,rest.trans shared.1.2.2⟩,realParent,by omega,rest.trans shared.2.2.2⟩
  cases reached with
  | self => rfl
  | step edge nonzero rest =>
    rcases (mem_parents start).mp edge with rfl | rfl
    · exact absurd (passes _ edge nonzero (g.merge_real k real nonzero) (g.merge_lt k start) rest)
        merge
    · exact absurd (passes _ edge nonzero (g.parent_real k real nonzero) (g.parent_lt k start) rest)
        parent

structure Scanned (g : Graph) (d1 d2 : Nat) (all : Bool) (ret : Nat) (mlist found : List Nat)
    (after : MergeScan) : Prop where
  ret : after.ret = if ret = 0 then found.headD 0 else ret
  mlist : all = true → after.mlist = mlist ++ found
  colors : ∃ k, after.color = tint g d1 d2 k ∧ ∀ e, after.d < e ∨ g.table < e →
    tint g d1 d2 k e = clear

open Classical in
theorem findMergeLoop_scans {all : Bool} (reals : RealList g [d1,d2]) (left : Nat) (start : d ≠ 0)
    (rest : d + left = g.table + 1) (ret : Nat) (mlist : List Nat) :
    Scanned g d1 d2 all ret mlist ((range' d left).filter (MergePoint g d1 d2))
      (findMergeLoop g all left ⟨tint g d1 d2 d,d,ret,mlist⟩) := by
  obtain ⟨⟨first,firstIn,firstReal⟩,second,secondIn,secondReal⟩ := reals.pair
  have bare : ∀ k e, ¬e < k → d1 < e → d2 < e → tint g d1 d2 k e = clear := by
    intro k e high above higher
    rw [tint,if_neg high]
    simp [above.ne',higher.ne',clear]
  induction left generalizing d ret mlist with
  | zero =>
    exact ⟨by simp [findMergeLoop],by simp [findMergeLoop],d,rfl,fun e above =>
      bare d e (by simp only [findMergeLoop] at above; omega)
        (by simp only [findMergeLoop] at above; omega)
        (by simp only [findMergeLoop] at above; omega)⟩
  | succ left ih =>
    have next := ih (Nat.succ_ne_zero d) (by omega)
    rw [findMergeLoop,range'_succ]
    by_cases tagged : g.tag d = true
    · have skipped : ¬MergePoint g d1 d2 d := fun point => by simp [point.1.1.1] at tagged
      rw [if_pos tagged,filter_cons_of_neg (by simpa using skipped),
        ← tint_tag tagged firstReal secondReal]
      exact next ret mlist
    have real := eq_false_of_ne_true tagged
    have within : d ≤ g.table := by omega
    have merges : MergePoint g d1 d2 d ↔ _ := mergePoint_iff real within start first
    rw [if_neg tagged]
    simp only [edgeColor_tint first second (g.parent_lt d start),
      edgeColor_tint first second (g.merge_lt d start),tint_real real within start first second,
      ← tint_succ]
    have own : tint g d1 d2 (d + 1) d = hue g d1 d2 d := if_pos (Nat.lt_succ_self d)
    simp only [own,hue_both,hue_eq_both,ne_eq,← merges]
    split
    next point =>
      rw [filter_cons_of_pos (by simpa using point)]
      cases all with
      | true =>
        have later := next (if ret = 0 then d else ret) (mlist ++ [d])
        refine ⟨?_,fun _ => ?_, later.colors⟩
        · rw [if_pos rfl,later.ret]
          by_cases none : ret = 0 <;> simp [none,start]
        · rw [if_pos rfl,later.mlist rfl,append_assoc]
          rfl
      | false =>
        refine ⟨by simp,by simp,d + 1,rfl,fun e above => ?_⟩
        have firstLe := point.1.1.le
        have secondLe := point.1.2.le
        simp only [Bool.false_eq_true,if_false] at above
        exact bare _ e (by omega) (by omega) (by omega)
    next point =>
      rw [filter_cons_of_neg (by simpa using point)]
      exact next ret mlist

theorem clearBoth_eq (left : Nat) : clearBoth left d color e =
    if d ≤ e ∧ e < d + left then (color e).minus bothColors else color e := by
  induction left generalizing color d with
  | zero =>
    rw [if_neg (by omega)]
    rfl
  | succ left ih =>
    rw [clearBoth,ih]
    by_cases same : e = d
    · subst same
      rw [if_neg (by omega),if_pos (by omega),update_self]
    · rw [update_of_ne same]
      exact if_congr (by omega) rfl rfl

theorem tint_low (low : e < a) (first : a ≤ d1) (second : a ≤ d2) : tint g d1 d2 k e = clear := by
  have none : ∀ b, a ≤ b → ¬Descends g b e := fun b above below => by
    have le := below.le
    omega
  unfold tint hue
  split <;> simp [none d1 first,none d2 second,clear,show e ≠ d2 by omega,show e ≠ d1 by omega]

private theorem tint_minus : (tint g d1 d2 k e).minus bothColors = clear := by
  unfold tint hue
  split <;> simp [minus,bothColors,Color.or,D_RED,D_BLUE,clear]

/-- The list has the merge points in increasing order, the oldest is returned with or without it,
and no colour is left. -/
theorem range_findMerge_merges (g : Graph) (d1 d2 : Nat) (reals : RealList g [d1,d2]) :
    (range_findMerge g (fun _ => clear) d1 d2 true).2.2.Pairwise (· < ·) ∧
      (∀ x, x ∈ (range_findMerge g (fun _ => clear) d1 d2 true).2.2 ↔ MergePoint g d1 d2 x) ∧
      ∀ all, (range_findMerge g (fun _ => clear) d1 d2 all).2.1 =
          (range_findMerge g (fun _ => clear) d1 d2 true).2.2.headD 0 ∧
        (range_findMerge g (fun _ => clear) d1 d2 all).1 = fun _ => clear := by
  classical
  obtain ⟨⟨first,firstIn,-⟩,second,secondIn,-⟩ := reals.pair
  generalize origin : (if d1 < d2 then d1 else d2) = start
  have lowest : start ≤ d1 ∧ start ≤ d2 ∧ start ≠ 0 ∧ start ≤ g.table := by
    rw [← origin]
    split <;> omega
  have marked : update (update (fun _ => clear) d1 (clear.or D_BLUE)) d2
      ((update (fun _ => clear) d1 (clear.or D_BLUE) d2).or D_RED) = tint g d1 d2 start := by
    funext e
    by_cases low : e < start
    · rw [tint_low low lowest.1 lowest.2.1,update_of_ne (by omega),update_of_ne (by omega)]
    · rw [tint,if_neg low]
      by_cases isFirst : e = d1 <;> by_cases isSecond : e = d2 <;>
        simp_all [update_apply,Color.or,D_RED,D_BLUE,clear]
  have scans (all : Bool) : Scanned g d1 d2 all 0 [] _
      (findMergeLoop g all _ ⟨tint g d1 d2 start,start,0,[]⟩) :=
    findMergeLoop_scans reals (g.table + 1 - start) lowest.2.2.1 (by omega) 0 []
  have listed : (range_findMerge g (fun _ => clear) d1 d2 true).2.2 =
      (range' start (g.table + 1 - start)).filter (MergePoint g d1 d2) := by
    simp only [range_findMerge,origin,marked]
    exact (scans true).mlist rfl
  rw [listed]
  refine ⟨(pairwise_lt_range' ..).filter _,fun x => ?_, fun all => ⟨?_,?_⟩⟩
  · simp only [mem_filter,mem_range'_1,decide_eq_true_eq,and_iff_right_iff_imp]
    intro point
    have low := point.1.1.le
    have high := point.1.1.2.1
    omega
  · simp only [range_findMerge,origin,marked]
    exact (scans all).ret
  · simp only [range_findMerge,origin,marked]
    obtain ⟨k,same,high⟩ := (scans all).colors
    generalize findMergeLoop g all _ _ = scan at same high ⊢
    funext e
    rw [same,clearBoth_eq]
    by_cases inside : start ≤ e ∧
      e < start + ((if g.table < scan.d then g.table else scan.d) + 1 - start)
    · rw [if_pos inside,tint_minus]
    · rw [if_neg inside]
      by_cases low : e < start
      · exact tint_low low lowest.1 lowest.2.1
      · refine high e ?_
        split at inside <;> omega

theorem range_findMerge_merges_crossMerge :
    (range_findMerge crossMerge (fun _ => clear) 2 3 true).2.2 = [5,6] ∧
      MergePoint crossMerge 2 3 5 ∧ MergePoint crossMerge 2 3 6 := by
  have found : (range_findMerge crossMerge (fun _ => clear) 2 3 true).2.2 = [5,6] := by decide +kernel
  obtain ⟨-,mem,-⟩ := range_findMerge_merges crossMerge 2 3 (by unfold RealList; decide)
  rw [found] at mem
  exact ⟨found,(mem 5).mp (by decide),(mem 6).mp (by decide)⟩

end BitKeeper.Range
