import Mathlib

/-!
Byte strings and the C comparisons of them. A C string ends at its zero byte, so a string without one
is compared as a whole.
-/

namespace BitKeeper

open List

abbrev Bytes := List UInt8

namespace Bytes

def strncmp : Nat → Bytes → Bytes → Int
  | 0, _, _ => 0
  | n + 1, a, b =>
    let x := a.headD 0
    let y := b.headD 0
    if x ≠ y then (x.toNat : Int) - y.toNat
    else if x = 0 then 0
    else strncmp n a.tail b.tail

def strcmp (a b : Bytes) : Int := strncmp (a.length + 1) a b

theorem le_append (p t : Bytes) : p ≤ p ++ t := by
  induction p with
  | nil => exact nil_le t
  | cons x p ih => exact cons_le_cons_iff.mpr (.inr ⟨rfl,ih⟩)

theorem lt_append_cons {c d : UInt8} (less : c < d) (p u v : Bytes) : p ++ c :: u < p ++ d :: v := by
  induction p with
  | nil => exact cons_lt_cons_iff.mpr (.inl less)
  | cons x p ih => exact cons_lt_cons_iff.mpr (.inr ⟨rfl,ih⟩)

theorem lt_append (p : Bytes) (c : UInt8) (u : Bytes) : p < p ++ c :: u := by
  induction p with
  | nil => exact nil_lt_cons c u
  | cons x p ih => exact cons_lt_cons_iff.mpr (.inr ⟨rfl,ih⟩)

theorem between_continues {p r t : Bytes} (low : p ≤ r) (high : r ≤ p ++ t) :
    ∃ u, r = p ++ u ∧ u ≤ t := by
  induction p generalizing r with
  | nil => exact ⟨r,rfl,high⟩
  | cons x p ih =>
    cases r with
    | nil => exact absurd low (List.not_le.mpr (List.nil_lt_cons x p))
    | cons y r =>
      rcases List.cons_le_cons_iff.mp low with less | ⟨same,lowRest⟩
      · rcases List.cons_le_cons_iff.mp high with more | ⟨equal,_⟩
        · exact absurd (UInt8.lt_trans less more) (UInt8.lt_irrefl x)
        · exact absurd less (equal ▸ UInt8.lt_irrefl y)
      · subst same
        rcases cons_le_cons_iff.mp high with more | ⟨_,highRest⟩
        · exact absurd more (UInt8.lt_irrefl x)
        · obtain ⟨u,rfl,below⟩ := ih lowRest highRest
          exact ⟨u,rfl,below⟩

variable {n : Nat} {a b : Bytes}

theorem strncmp_order (clean : ∀ x ∈ a, x ≠ 0) (short : n = min a.length b.length) :
    (strncmp n a b < 0 → a < b) ∧ (strncmp n a b = 0 → a.take n = b.take n) := by
  induction n generalizing a b with
  | zero => exact ⟨fun less => absurd less (Int.lt_irrefl 0), fun _ => rfl⟩
  | succ n ih =>
    cases a with
    | nil => simp at short
    | cons x a =>
      cases b with
      | nil => simp at short
      | cons y b =>
        have nonzero := clean x mem_cons_self
        have rest := ih (a := a) (b := b) (fun z inside => clean z (mem_cons_of_mem x inside))
          (by simp only [length_cons] at short; omega)
        unfold strncmp
        dsimp only [headD_cons,tail_cons]
        by_cases same : x = y
        · subst same
          rw [if_neg (fun other => other rfl), if_neg nonzero]
          constructor
          · intro less
            exact cons_lt_cons_iff.mpr (.inr ⟨rfl,rest.1 less⟩)
          · intro equal
            rw [take_succ_cons,take_succ_cons,rest.2 equal]
        · rw [if_pos same]
          have apart : x.toNat ≠ y.toNat := fun equal => same (UInt8.toNat_inj.mp equal)
          constructor
          · intro less
            have lower : x < y := UInt8.lt_iff_toNat_lt.mpr (by omega)
            exact cons_lt_cons_iff.mpr (.inl lower)
          · intro equal
            omega

theorem strncmp_of_le (low : a ≤ b) : strncmp n a b ≤ 0 := by
  induction n generalizing a b with
  | zero => exact Int.le_refl 0
  | succ n ih =>
    unfold strncmp
    cases a with
    | nil =>
      dsimp only [headD_nil]
      by_cases zero : 0 = b.headD 0
      · rw [if_neg (fun other => other zero), if_pos rfl]
      · rw [if_pos zero]
        change ((0 : Nat) : Int) - (b.headD 0).toNat ≤ 0
        omega
    | cons x a =>
      cases b with
      | nil => exact absurd low (List.not_le.mpr (List.nil_lt_cons x a))
      | cons y b =>
        dsimp only [List.headD_cons,List.tail_cons]
        rcases List.cons_le_cons_iff.mp low with lower | ⟨same,rest⟩
        · have order := UInt8.lt_iff_toNat_lt.mp lower
          rw [if_pos (UInt8.ne_of_lt lower)]
          omega
        · rw [if_neg (fun other => other same)]
          split
          · exact Int.le_refl 0
          · exact ih rest

theorem strncmp_self (n : Nat) (a : Bytes) : strncmp n a a = 0 := by
  induction n generalizing a with
  | zero => rfl
  | succ n ih =>
    unfold strncmp
    rw [if_neg (fun other => other rfl), ih,ite_self]

def cut : Nat → Bytes → Bytes
  | 0, _ => []
  | n + 1, a => if a.headD 0 = 0 then [] else a.headD 0 :: cut n a.tail

theorem strncmp_cut (n : Nat) (a b : Bytes) :
    (strncmp n a b < 0 ↔ cut n a < cut n b) ∧ (0 < strncmp n a b ↔ cut n b < cut n a) := by
  induction n generalizing a b with
  | zero =>
    refine ⟨⟨fun less => absurd less (Int.lt_irrefl 0),
      fun less => absurd less (not_lt_nil _)⟩, ?_⟩
    exact ⟨fun less => absurd less (Int.lt_irrefl 0), fun less => absurd less (not_lt_nil _)⟩
  | succ n ih =>
    unfold strncmp cut
    generalize a.headD 0 = x
    generalize b.headD 0 = y
    have zeroNat : (0 : UInt8).toNat = 0 := rfl
    have positive : ∀ z : UInt8, z ≠ 0 → 0 < z.toNat := fun z nonzero =>
      Nat.pos_of_ne_zero fun zero => nonzero (UInt8.toNat_inj.mp zero)
    by_cases same : x = y
    · subst same
      rw [if_neg (fun other => other rfl)]
      by_cases zero : x = 0
      · rw [if_pos zero,if_pos zero,if_pos zero]
        simp
      · rw [if_neg zero,if_neg zero,if_neg zero,cons_lt_cons_iff,cons_lt_cons_iff,
          (ih a.tail b.tail).1,(ih a.tail b.tail).2]
        simp [UInt8.lt_irrefl]
    rw [if_pos same]
    by_cases zeroX : x = 0
    · have nonzeroY : y ≠ 0 := fun zero => same (zeroX.trans zero.symm)
      have high := positive y nonzeroY
      rw [if_pos zeroX,if_neg nonzeroY,zeroX,zeroNat]
      simp only [nil_lt_cons,not_lt_nil,iff_true,iff_false]
      omega
    by_cases zeroY : y = 0
    · have high := positive x zeroX
      rw [if_neg zeroX,if_pos zeroY,zeroY,zeroNat]
      simp only [nil_lt_cons,not_lt_nil,iff_true,iff_false]
      omega
    · rw [if_neg zeroX,if_neg zeroY,cons_lt_cons_iff,cons_lt_cons_iff,
        UInt8.lt_iff_toNat_lt,UInt8.lt_iff_toNat_lt]
      simp only [same,Ne.symm same,false_and,or_false]
      omega

theorem strncmp_trans {c : Bytes} (first : 0 ≤ strncmp n a b) (second : 0 < strncmp n b c) :
    0 < strncmp n a c := by
  rw [(strncmp_cut n a c).2]
  have low : cut n b ≤ cut n a := by
    rw [← List.not_lt,← (strncmp_cut n a b).1]
    omega
  have high := (strncmp_cut n b c).2.mp second
  rcases List.le_iff_lt_or_eq.mp low with less | equal
  · exact List.lt_trans high less
  · exact equal ▸ high

private theorem strcmp_le (clean : ∀ x ∈ a, x ≠ 0) (order : strcmp a b ≤ 0) : a ≤ b := by
  unfold strcmp at order
  induction a generalizing b with
  | nil => exact nil_le b
  | cons x a ih =>
    have nonzero := clean x mem_cons_self
    unfold strncmp at order
    cases b with
    | nil =>
      dsimp only [headD_cons,headD_nil] at order
      rw [if_pos nonzero] at order
      have positive : x.toNat ≠ 0 := fun zero => nonzero (UInt8.toNat_inj.mp zero)
      have high : (x.toNat : Int) - (0 : UInt8).toNat = x.toNat := Int.sub_zero _
      omega
    | cons y b =>
      dsimp only [headD_cons,tail_cons] at order
      by_cases same : x = y
      · rw [if_neg (fun other => other same), if_neg nonzero] at order
        have rest := ih (fun z inside => clean z (mem_cons_of_mem x inside)) order
        exact cons_le_cons_iff.mpr (.inr ⟨same,rest⟩)
      · rw [if_pos same] at order
        have apart : x.toNat ≠ y.toNat := fun equal => same (UInt8.toNat_inj.mp equal)
        exact cons_le_cons_iff.mpr (.inl (UInt8.lt_iff_toNat_lt.mpr (by omega)))

structure Sorter where
  sort : List Bytes → List Bytes
  perm : ∀ list, (sort list).Perm list
  sorted : ∀ list, (∀ a ∈ list, ∀ x ∈ a, x ≠ 0) → (sort list).Pairwise fun a b => strcmp a b ≤ 0

theorem Sorter.mem (q : Sorter) {list : List Bytes} : a ∈ q.sort list ↔ a ∈ list :=
  (q.perm list).mem_iff

theorem Sorter.strict (q : Sorter) {list : List Bytes} (clean : ∀ a ∈ list, ∀ x ∈ a, x ≠ 0)
    (nodup : list.Nodup) : (q.sort list).Pairwise (· < ·) := by
  have nodupSorted : (q.sort list).Nodup := (q.perm list).nodup_iff.mpr nodup
  have both := (q.sorted list clean).and nodupSorted
  refine both.imp_of_mem ?_
  intro a b inside _ order
  have low := strcmp_le (clean a (q.mem.mp inside)) order.1
  exact (List.le_iff_lt_or_eq.mp low).resolve_right order.2

theorem eq_of_strict {first second : List Bytes} (sortedFirst : first.Pairwise (· < ·))
    (sortedSecond : second.Pairwise (· < ·)) (same : ∀ a, a ∈ first ↔ a ∈ second) :
    first = second := by
  have apart : ∀ {a b : Bytes}, a < b → a ≠ b := fun less equal => List.lt_irrefl _ (equal ▸ less)
  have nodupFirst : first.Nodup := sortedFirst.imp apart
  have nodupSecond : second.Nodup := sortedSecond.imp apart
  have perm := (List.perm_ext_iff_of_nodup nodupFirst nodupSecond).mpr same
  exact perm.eq_of_pairwise
    (fun a b _ _ low high => absurd (List.lt_trans low high) (List.lt_irrefl a))
    sortedFirst sortedSecond

instance : Std.Total fun a b : Bytes => a ≤ b where
  total := List.le_total

instance : IsTrans Bytes fun a b => a ≤ b where
  trans _ _ _ := List.le_trans

def insertion : Sorter where
  sort list := list.insertionSort (· ≤ ·)
  perm list := perm_insertionSort _ list
  sorted list _ := (pairwise_insertionSort (fun a b : Bytes => a ≤ b) list).imp strncmp_of_le

end Bytes

end BitKeeper
