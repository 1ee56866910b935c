import Mathlib.Logic.Function.Basic
import Mathlib.Tactic

/-!
The pass that is meant to make dates increase in serial order. The dates and the fudges are 32 bit
words; their difference is read as a `time_t`.
-/

namespace BitKeeper.Graph.Dates

@[ext] structure Dated where
  date : BitVec 32
  dateFudge : BitVec 32
deriving DecidableEq

def NOFUDGE (d : Dated) : Int := d.date.toNat - d.dateFudge.toNat

def raise (prev d : Dated) : Dated :=
  if prev.date ≤ d.date then
    -- `f` is an int and both fields are u32: the sums are taken modulo 2^32
    let f := d.date - prev.date + 1
    ⟨prev.date + f,prev.dateFudge + f⟩
  else prev

variable {slist : Nat → Dated} {table : Nat}

def fixLoop (slist : Nat → Dated) (prev d : Nat) : Nat → Nat → Dated
  | 0 => slist
  | left + 1 =>
    fixLoop (if prev ≠ 0 then Function.update slist prev (raise (slist prev) (slist d)) else slist)
      d (d + 1) left

def sccs_fixDates (slist : Nat → Dated) (table : Nat) : Nat → Dated := fixLoop slist 0 1 table

/-- A slot is raised over the slot above it before that one is raised itself. -/
theorem fixLoop_eq (prev left : Nat) (started : prev ≠ 0) (k : Nat) :
    fixLoop slist prev (prev + 1) left k =
      if prev ≤ k ∧ k < prev + left then raise (slist k) (slist (k + 1)) else slist k := by
  induction left generalizing slist prev with
  | zero =>
    rw [if_neg (by omega)]
    rfl
  | succ left ih =>
    rw [fixLoop,if_pos started,ih (prev + 1) (by omega)]
    by_cases here : k = prev
    · subst here
      rw [if_neg (by omega),if_pos (by omega),Function.update_self]
    · rw [Function.update_of_ne here]
      split
      · rw [if_pos (by omega),Function.update_of_ne (by omega)]
      · rw [if_neg (by omega)]

theorem sccs_fixDates_eq (k : Nat) :
    sccs_fixDates slist table k =
      if 1 ≤ k ∧ k < table then raise (slist k) (slist (k + 1)) else slist k := by
  cases table with
  | zero =>
    rw [if_neg (by omega)]
    rfl
  | succ table =>
    change fixLoop slist 1 (1 + 1) table k = _
    rw [fixLoop_eq 1 table (by omega)]
    exact if_congr (by omega) rfl rfl

def Increasing (slist : Nat → Dated) (table : Nat) : Prop :=
  ∀ k, 1 ≤ k → k < table → (slist k).date < (slist (k + 1)).date

def FixesDates (slist : Nat → Dated) (table : Nat) :
    Prop := Increasing (sccs_fixDates slist table) table ∧
    (∀ k, 1 ≤ k → k ≤ table → NOFUDGE (sccs_fixDates slist table k) = NOFUDGE (slist k)) ∧
    (Increasing slist table → ∀ k, 1 ≤ k → k ≤ table → sccs_fixDates slist table k = slist k)

def last : BitVec 32 := 0xffffffff

/-- A raised date lies below the date it was raised over only by wrapping around. -/
theorem raise_below {prev d : Dated} :
    (raise prev d).date < d.date ↔ d.date = last ∧ (raise prev d).date = 0 := by
  unfold raise last
  split
  · bv_omega
  · bv_omega

private theorem raise_wraps {prev d : Dated} (top : d.date = last) : (raise prev d).date = 0 := by
  unfold raise
  unfold last at top
  split
  · bv_omega
  · bv_omega

private theorem raise_last {prev d : Dated} (top : d.date = last) :
    (NOFUDGE (raise prev d) = NOFUDGE prev ∧ (prev.date < d.date → raise prev d = prev)) ↔
      prev.date = 0 ∨ (prev.date = last ∧ prev.dateFudge = last) := by
  rw [Dated.ext_iff]
  unfold raise NOFUDGE
  unfold last at *
  split
  · bv_omega
  · bv_omega

/-- The last two dates end up decreasing, unless the bump wraps around to zero. -/
theorem sccs_fixDates_increasing_iff (slist : Nat → Dated) (table : Nat) :
    FixesDates slist table ↔ table ≤ 1 ∨ (table = 2 ∧ (slist 2).date = last ∧
      ((slist 1).date = 0 ∨ ((slist 1).date = last ∧ (slist 1).dateFudge = last))) := by
  have at_one : sccs_fixDates slist 2 1 = raise (slist 1) (slist 2) := by
    rw [sccs_fixDates_eq,if_pos (by omega)]
  have at_two : sccs_fixDates slist 2 2 = slist 2 := by rw [sccs_fixDates_eq,if_neg (by omega)]
  constructor
  · rintro ⟨increasing,kept,unchanged⟩
    by_cases single : table ≤ 1
    · exact .inl single
    obtain ⟨below,rfl⟩ : ∃ below, table = below + 2 := ⟨table - 2,by omega⟩
    have final := increasing (below + 1) (by omega) (by omega)
    rw [sccs_fixDates_eq,if_pos (by omega),sccs_fixDates_eq,if_neg (by omega)] at final
    obtain ⟨top,zero⟩ := raise_below.mp final
    have two : below = 0 := by
      by_contra more
      have lower := increasing below (by omega) (by omega)
      rw [sccs_fixDates_eq (below + 1),if_pos (by omega),zero] at lower
      exact absurd lower BitVec.not_lt_zero
    subst two
    have kept_one := kept 1 (by omega) (by omega)
    rw [at_one] at kept_one
    refine .inr ⟨rfl,top,(raise_last top).mp ⟨kept_one,fun less => ?_⟩⟩
    rw [← at_one]
    refine unchanged (fun k low high => ?_) 1 (by omega) (by omega)
    obtain rfl : k = 1 := by omega
    exact less
  · rintro (single | ⟨rfl,top,wraps⟩)
    · have same : ∀ k, sccs_fixDates slist table k = slist k := fun k => by
        rw [sccs_fixDates_eq,if_neg (by omega)]
      exact ⟨fun k low high => by omega, fun k _ _ => by rw [same], fun _ k _ _ => same k⟩
    obtain ⟨kept,unchanged⟩ := (raise_last top).mpr wraps
    refine ⟨fun k low high => ?_,fun k low high => ?_,fun ordered k low high => ?_⟩
    · obtain rfl : k = 1 := by omega
      rw [at_one,at_two]
      exact raise_below.mpr ⟨top,raise_wraps top⟩
    · obtain rfl | rfl : k = 1 ∨ k = 2 := by omega
      · rw [at_one,kept]
      · rw [at_two]
    · obtain rfl | rfl : k = 1 ∨ k = 2 := by omega
      · rw [at_one,unchanged (ordered 1 (by omega) (by omega))]
      · rw [at_two]

/-- Two deltas in order already: the older one is moved behind the newer one. -/
theorem sccs_fixDates_reverses : ¬FixesDates (fun k => ⟨BitVec.ofNat 32 (10 * k),0⟩) 2 := by
  rintro ⟨increasing,-,-⟩
  exact absurd (increasing 1 (by decide) (by decide)) (by decide)

end BitKeeper.Graph.Dates
