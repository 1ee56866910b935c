import BitKeeper.Lib.Dag

/-!
A walk from the newest node down that moves the mark of a visited node to the ends of its edges. A
node is reached from the starting marks exactly if it is marked when the walk comes to it.
-/

namespace BitKeeper.Dag

variable {next : Nat → List Nat}

def Ahead (next : Nat → List Nat) (bound : Nat) (marks : Nat → Prop) (x : Nat) : Prop :=
  ∃ e, e ≤ bound ∧ marks e ∧ Reach next e x

variable {d : Nat} {marks : Nat → Prop}

theorem ahead_top (descending : Descending next) : Ahead next d marks d ↔ marks d := by
  constructor
  · rintro ⟨e,within,marked,reached⟩
    have above := reached.le descending
    have same : e = d := by omega
    exact same ▸ marked
  · intro marked
    exact ⟨d,Nat.le_refl d,marked,.self d⟩

variable {x : Nat}

theorem ahead_descend (descending : Descending next) {after : Nat → Prop}
    (handed : ∀ e, e ≤ d → marks e ∨ (marks (d + 1) ∧ e ∈ next (d + 1) ∧ e ≠ 0) → after e)
    (below : x ≤ d) (ahead : Ahead next (d + 1) marks x) : Ahead next d after x := by
  obtain ⟨e,within,marked,reached⟩ := ahead
  by_cases top : e = d + 1
  · subst top
    cases reached with
    | self => omega
    | step edge real rest =>
      have lower := descending _ _ edge real
      exact ⟨_,by omega,handed _ (by omega) (Or.inr ⟨marked,edge,real⟩),rest⟩
  · exact ⟨e,by omega,handed e (by omega) (Or.inl marked),reached⟩

theorem ahead_step (descending : Descending next) {after : Nat → Prop}
    (handed : ∀ e, e ≤ d → (after e ↔ marks e ∨ (marks (d + 1) ∧ e ∈ next (d + 1) ∧ e ≠ 0)))
    (below : x ≤ d) : Ahead next d after x ↔ Ahead next (d + 1) marks x := by
  constructor
  · rintro ⟨e,within,marked,reached⟩
    rcases (handed e within).mp marked with old | ⟨top,edge,real⟩
    · exact ⟨e,by omega,old,reached⟩
    · exact ⟨d + 1,le_rfl,top,.step edge real reached⟩
  · exact ahead_descend descending (fun e within => (handed e within).mpr) below

theorem ahead_congr {other : Nat → Prop} (same : ∀ e, e ≤ d → (marks e ↔ other e)) :
    Ahead next d marks x ↔ Ahead next d other x := by
  constructor
  · rintro ⟨e,within,marked,reached⟩
    exact ⟨e,within,(same e within).mp marked,reached⟩
  · rintro ⟨e,within,marked,reached⟩
    exact ⟨e,within,(same e within).mpr marked,reached⟩

def total (weight : Nat → Int) : Nat → Int
  | 0 => 0
  | n + 1 => total weight n + weight (n + 1)

variable {weight : Nat → Int} {n : Nat}

theorem total_congr {other : Nat → Int} (same : ∀ e, e ≠ 0 → e ≤ n → weight e = other e) :
    total weight n = total other n := by
  induction n with
  | zero => rfl
  | succ n ih =>
    unfold total
    rw [ih (fun e real within => same e real (by omega)), same (n + 1) (by omega) le_rfl]

theorem total_nothing (n : Nat) : total (fun _ => 0) n = 0 := by
  induction n with
  | zero => rfl
  | succ n ih =>
    unfold total
    rw [ih]
    rfl

theorem total_sub (weight other : Nat → Int) (n : Nat) :
    total (fun e => weight e - other e) n = total weight n - total other n := by
  induction n with
  | zero => rfl
  | succ n ih =>
    unfold total
    rw [ih]
    omega

theorem total_beyond {top : Nat} (low : n ≤ top) (light : ∀ e, n < e → weight e = 0) :
    total weight top = total weight n := by
  induction top with
  | zero => rw [Nat.le_zero.mp low]
  | succ top ih =>
    by_cases here : n = top + 1
    · rw [here]
    · conv_lhs => unfold total
      rw [ih (by omega),light (top + 1) (by omega),Int.add_zero]

theorem total_countP (p : Nat → Bool) (n : Nat) :
    total (fun e => if p e = true then 1 else 0) n = ((List.range' 1 n).countP p : Nat) := by
  induction n with
  | zero => rfl
  | succ n ih =>
    unfold total
    rw [ih,List.range'_1_concat,List.countP_append,List.countP_singleton,Nat.add_comm 1 n]
    split <;> omega

theorem total_change {other : Nat → Int} (real : d ≠ 0) (within : d ≤ n)
    (same : ∀ e, e ≠ d → weight e = other e) :
    total other n = total weight n - weight d + other d := by
  induction n with
  | zero => omega
  | succ n ih =>
    unfold total
    by_cases top : d = n + 1
    · subst top
      rw [total_congr (fun e _real below => (same e (by omega)).symm)]
      omega
    · rw [ih (by omega),same (n + 1) (by omega)]
      omega

theorem total_nonneg (nonneg : ∀ e, 0 ≤ weight e) (n : Nat) : 0 ≤ total weight n := by
  induction n with
  | zero => exact Int.le_refl 0
  | succ n ih =>
    have top := nonneg (n + 1)
    unfold total
    omega

theorem total_zero (nonneg : ∀ e, 0 ≤ weight e) (spent : total weight n ≤ 0) {e : Nat}
    (real : e ≠ 0) (within : e ≤ n) : weight e = 0 := by
  induction n with
  | zero => omega
  | succ n ih =>
    unfold total at spent
    have rest := total_nonneg nonneg n
    have top := nonneg (n + 1)
    by_cases same : e = n + 1
    · subst same
      omega
    · exact ih (by omega) (by omega)

end BitKeeper.Dag
