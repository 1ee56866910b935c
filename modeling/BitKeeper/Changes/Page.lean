import Mathlib

/-!
Pages of `bk changes`. The csets stand in an array, in the order in which they are printed; its slots
count from one, and there are fewer than 2^27 of them. The page is cut out with sums of type `int`.
-/

namespace BitKeeper.Changes

open List

inductive Mode where
  | startAfter
  | endBefore
  | around

structure Csets (α : Type) where
  list : List α
  distinct : list.Nodup
  bound : list.length < 2 ^ 27

structure Limit where
  num : Nat
  pos : 1 ≤ num
  bound : num < 2 ^ 31

variable {α : Type}

def int (x : Int) : Int := (x + 2 ^ 31) % 2 ^ 32 - 2 ^ 31

/-- The first slot of the page for the cset in slot `i`. -/
def first (mode : Mode) (i num : Int) : Int :=
  match mode with
  | .startAfter => i + 1
  | .endBefore => int (i + 1 - int (num + 1))
  | .around => i + 1 - num / 2

/-- The slots from `s` on, clipped; none is a copy of negative length. -/
def cut (csets : List α) (num : Nat) (s : Int) : Option (List α) :=
  let n : Int := csets.length
  let e := int (s + num)
  let s := if s < 1 then 1 else s
  let e := if n < e then n + 1 else e
  -- the loop that prints stops at `num` once more
  if e < s then none else some (((csets.drop (s - 1).toNat).take (e - s).toNat).take num)

def page [DecidableEq α] (csets : List α) (num : Nat) (mode : Mode) (d : α) : Option (List α) :=
  -- the search leaves out the last slot
  let i := csets.dropLast.idxOf d + 1
  if i < csets.length then cut csets num (first mode i num) else some []

/-- The page that the mode promises for the cset at place `k`, counted from zero. -/
def Promised (csets : List α) (num k : Nat) (shown : List α) : Mode → Prop
  | .startAfter => shown = (csets.drop (k + 1)).take num
  | .endBefore => shown = (csets.take k).drop (k - num)
  | .around =>
    shown.length ≤ num ∧ ∃ start ≤ k, k < start + shown.length ∧
      shown = (csets.drop start).take shown.length

def Shows [DecidableEq α] (csets : List α) (num k : Nat) (mode : Mode) (d : α) : Prop :=
  ∃ shown, page csets num mode d = some shown ∧ Promised csets num k shown mode

def Kept (n num k : Nat) : Mode → Prop
  | .startAfter => k + 1 = n ∨ k + 2 + num < 2 ^ 31
  | .endBefore => k + 1 < n ∨ k = 0
  | .around => k + 1 < n ∧ 2 ≤ num

/-- `shown` and the pages that follow it with `--start-after`. -/
def onward [DecidableEq α] (csets : List α) (num : Nat) : Nat → List α → List α
  | 0, shown => shown
  | fuel + 1, shown =>
    match shown.getLast? with
    | none => []
    | some d => shown ++ onward csets num fuel ((page csets num .startAfter d).getD [])

/-- The pages before `d` with `--end-before`. -/
def backward [DecidableEq α] (csets : List α) (num : Nat) : Nat → α → List α
  | 0, _ => []
  | fuel + 1, d =>
    match page csets num .endBefore d with
    | some (head :: shown) => backward csets num fuel head ++ head :: shown
    | _ => []

theorem cut_eq (csets : List α) (num : Nat) {s : Int} {a b : Nat} (fits : int (s + num) = s + num)
    (start : (a : Int) = max (s - 1) 0) (stop : (b : Int) = min (s + num - 1) csets.length)
    (order : a ≤ b) :
    cut csets num s = some ((csets.drop a).take (b - a)) := by
  unfold cut
  have lower : (if s < 1 then 1 else s) = a + 1 := by omega
  have upper : (if csets.length < s + num then (csets.length : Int) + 1 else s + num) = b + 1 :=
    by omega
  simp only [fits,lower,upper]
  rw [if_neg (by omega),take_take]
  congr 3 <;> omega

section Page

variable [DecidableEq α] {list : List α} {num k : Nat} (distinct : list.Nodup)

include distinct

theorem page_early (mode : Mode) (early : k + 1 < list.length) {s : Int}
    (start : first mode (k + 1) num = s) :
    page list num mode list[k] = cut list num s := by
  have inside : k < list.dropLast.length := by rw [length_dropLast]; omega
  have found : list.dropLast.idxOf list[k] = k := by
    rw [← getElem_dropLast inside]
    exact (distinct.sublist list.dropLast_sublist).idxOf_getElem k inside
  unfold page
  rw [found,if_pos early,← start]
  rfl

theorem page_last (mode : Mode) (last : k + 1 = list.length) :
    page list num mode list[k] = some [] := by
  have absent : list[k] ∉ list.dropLast := by
    intro member
    obtain ⟨j,inside,same⟩ := mem_iff_getElem.mp member
    rw [getElem_dropLast] at same
    have := distinct.getElem_inj_iff.mp same
    rw [length_dropLast] at inside
    omega
  unfold page
  rw [idxOf_eq_length absent,length_dropLast,if_neg (by omega)]

theorem backward_last (fuel : Nat) (last : k + 1 = list.length) :
    backward list num fuel list[k] = [] := by
  cases fuel with
  | zero => rfl
  | succ fuel => rw [backward,page_last distinct _ last]

theorem page_startAfter (early : k + 1 < list.length) (fits : k + 2 + num < 2 ^ 31) :
    page list num .startAfter list[k] = some ((list.drop (k + 1)).take num) := by
  rw [page_early distinct _ early (s := k + 1 + 1) rfl,
    cut_eq _ _ (a := k + 1) (b := min (k + 1 + num) list.length)
    (by unfold int; omega) (by omega) (by omega) (by omega)]
  refine congrArg some (take_eq_take_iff.mpr ?_)
  rw [length_drop]
  omega

variable (length : list.length < 2 ^ 27)

include length

private theorem onward_eq (pos : 1 ≤ num) (fuel a : Nat) (enough : list.length < a + fuel) :
    onward list num fuel ((list.drop a).take num) = list.drop a := by
  induction fuel generalizing a with
  | zero =>
    rw [drop_of_length_le (by omega),take_nil]
    rfl
  | succ fuel ih =>
    rw [onward]
    split
    · next empty =>
      rw [getLast?_eq_none_iff,take_eq_nil_iff] at empty
      exact (empty.resolve_left (by omega)).symm
    · next d last =>
      have width : ((list.drop a).take num).length = min num (list.length - a) := by
        rw [length_take,length_drop]
      rw [getLast?_eq_getElem?,width,getElem?_take,if_pos (by omega),getElem?_drop] at last
      obtain ⟨inside,rfl⟩ := List.getElem?_eq_some_iff.mp last
      by_cases final : list.length ≤ a + num
      · rw [page_last distinct _ (by omega),take_of_length_le (by rw [length_drop]; omega)]
        cases fuel <;> exact append_nil _
      · have next : a + (min num (list.length - a) - 1) + 1 = a + num := by omega
        rw [page_startAfter distinct (by omega) (by omega),Option.getD_some,next,
          ih (a + num) (by omega),← drop_drop,take_append_drop]

variable (size : num < 2 ^ 31)

include size

theorem startAfter_iff (early : k + 1 < list.length) :
    Shows list num k .startAfter list[k] ↔ k + 2 + num < 2 ^ 31 := by
  unfold Shows
  by_cases fits : k + 2 + num < 2 ^ 31
  · rw [page_startAfter distinct early fits]
    exact iff_of_true ⟨_,rfl,rfl⟩ fits
  · have negative : cut list num (k + 1 + 1) = none := by
      unfold cut int
      exact if_pos (by omega)
    rw [page_early distinct _ early (s := k + 1 + 1) rfl,negative]
    exact iff_of_false nofun fits

theorem page_endBefore (early : k + 1 < list.length) :
    page list num .endBefore list[k] = some ((list.take k).drop (k - num)) := by
  have start : first .endBefore (k + 1) num = k + 1 - num := by
    simp only [first,int]
    omega
  rw [page_early distinct _ early start,
    cut_eq _ _ (a := k - num) (b := k) (by unfold int; omega) (by omega)
    (by omega) (by omega),drop_take]

theorem page_around {a b : Nat} (early : k + 1 < list.length) (start : a = k + 1 - num / 2)
    (stop : b = min (k + 1 + num - num / 2) list.length) :
    page list num .around list[k] = some ((list.drop a).take (b - a)) := by
  rw [page_early distinct _ early (s := k + 1 + 1 - num / 2) rfl,cut_eq]
  · unfold int
    omega
  all_goals omega

private theorem around_iff (pos : 1 ≤ num) (early : k + 1 < list.length) :
    Shows list num k .around list[k] ↔ 2 ≤ num := by
  unfold Shows
  by_cases several : 2 ≤ num
  · rw [page_around distinct length size early rfl rfl]
    refine iff_of_true ⟨_,rfl,?_,k + 1 - num / 2,by omega,?_,take_eq_take_iff.mpr (by simp)⟩ several
    all_goals
      rw [length_take,length_drop]
      omega
  · rw [page_around distinct length size early (a := k + 1) (b := k + 2) (by omega) (by omega),
      drop_eq_getElem_cons early,show k + 2 - (k + 1) = 1 by omega]
    refine iff_of_false ?_ several
    rintro ⟨_,shows,_,start,low,high,same⟩
    cases shows
    -- the only cset of the page is the one behind `k`
    obtain rfl : start = k := Nat.le_antisymm low (Nat.lt_succ_iff.mp high)
    rw [drop_eq_getElem_cons (by omega : start < list.length)] at same
    have := distinct.getElem_inj_iff.mp (cons.inj same).1
    omega

theorem backward_eq (pos : 1 ≤ num) (fuel k : Nat) (early : k + 1 < list.length) (enough : k ≤ fuel) :
    backward list num fuel list[k] = list.take k := by
  induction fuel generalizing k with
  | zero =>
    obtain rfl : k = 0 := by omega
    rfl
  | succ fuel ih =>
    rw [backward,page_endBefore distinct length size early]
    by_cases start : k = 0
    · rw [start,take_zero,drop_nil]
    · have shown : (list.take k).drop (k - num) = list[k - num] :: (list.take k).drop
          (k - num + 1) := by
        rw [drop_eq_getElem_cons (by rw [length_take]; omega),getElem_take]
      have earlier := ih (k - num) (by omega) (by omega)
      rw [shown]
      change backward list num fuel list[k - num] ++ _ = _
      rw [earlier,← shown]
      have rejoined := take_append_drop (k - num) (list.take k)
      rwa [take_take,Nat.min_eq_left (by omega)] at rejoined

private theorem shows_iff (pos : 1 ≤ num) (mode : Mode) (inside : k < list.length) :
    Shows list num k mode list[k] ↔ Kept list.length num k mode := by
  by_cases last : k + 1 = list.length
  · unfold Shows
    rw [page_last distinct mode last]
    cases mode <;> simp [Promised,Kept] <;> omega
  have early : k + 1 < list.length := by omega
  cases mode with
  | startAfter => exact (startAfter_iff distinct length size early).trans (by simp only [Kept]; omega)
  | endBefore => exact iff_of_true ⟨_,page_endBefore distinct length size early,rfl⟩ (.inl early)
  | around => exact (around_iff distinct length size pos early).trans (and_iff_right early).symm

private theorem backward_iff (pos : 1 ≤ num) (inside : k < list.length) :
    backward list num list.length list[k] = list.take k ↔ k + 1 < list.length ∨ k = 0 := by
  by_cases early : k + 1 < list.length
  · exact iff_of_true (backward_eq distinct length size pos _ k early inside.le) (.inl early)
  · rw [backward_last distinct _ (by omega),eq_comm,take_eq_nil_iff]
    have full : list ≠ [] := ne_nil_of_length_pos (by omega)
    simp only [full,or_false,early,false_or]

end Page

/-- A mode shows what it promises, but for the last cset, for one cset around another and for a
limit near the largest `int`. -/
theorem page_promised_iff [DecidableEq α] (csets : Csets α) (limit : Limit) :
    (∀ mode (k : Fin csets.list.length),
      Shows csets.list limit.num k mode csets.list[k] ↔ Kept csets.list.length limit.num k mode) ∧
    onward csets.list limit.num (csets.list.length + 1) (csets.list.take limit.num) = csets.list ∧
    ∀ k : Fin csets.list.length, backward csets.list limit.num csets.list.length csets.list[k] =
      csets.list.take k ↔
      (k : Nat) + 1 < csets.list.length ∨ (k : Nat) = 0 :=
  ⟨fun mode k => shows_iff csets.distinct csets.bound limit.bound limit.pos mode k.isLt,
    onward_eq csets.distinct csets.bound limit.pos _ 0 (by omega),
    fun k => backward_iff csets.distinct csets.bound limit.bound limit.pos k.isLt⟩

example : page (Csets.mk [1,2,3] (by decide) (by decide)).list
    (Limit.mk 2 (by decide) (by decide)).num .startAfter 1 = some [2,3] := by decide

theorem page_last_before : ¬Shows [1,2] 1 1 .endBefore 2 := by
  rintro ⟨_,shows,rfl⟩
  exact absurd shows (by decide)

end BitKeeper.Changes
