import Mathlib.Logic.Function.Basic

/-!
Runs of a system that is given by a partial function of states and actions. A system is followed by
another one if its allowed actions are moves of the other one: actions of it, or nothing.
-/

namespace BitKeeper.Runs

variable {σ α : Type}

inductive Reaches (act : σ → α → Option σ) (allowed : σ → α → Prop) (init : σ) : σ → Prop where
  | start : Reaches act allowed init init
  | step {s s' : σ} {a : α} : Reaches act allowed init s → allowed s a → act s a = some s' →
      Reaches act allowed init s'

def Moves (act : σ → α → Option σ) (allowed : σ → α → Prop) (s s' : σ) : Prop :=
  s' = s ∨ ∃ a, allowed s a ∧ act s a = some s'

def after (act : σ → α → Option σ) (s : σ) (actions : List α) : Option σ := actions.foldlM act s

section
variable {act act' : σ → α → Option σ} {allowed : σ → α → Prop} {init : σ} {s s' : σ} {P : σ → Prop}

theorem Reaches.invariant (reaches : Reaches act allowed init s) (start : P init)
    (keeps : ∀ s a s', P s → allowed s a → act s a = some s' → P s') : P s := by
  induction reaches with
  | start => exact start
  | step _ may did ih => exact keeps _ _ _ ih may did

theorem Reaches.moves (reaches : Reaches act allowed init s) (moves : Moves act allowed s s') :
    Reaches act allowed init s' := by
  rcases moves with rfl | ⟨a,may,did⟩
  · exact reaches
  · exact .step reaches may did

/-- The actions of the run may be checked first, and the check may use what all of them keep. -/
theorem Reaches.after (reaches : Reaches act allowed init s) (actions : List α)
    (ran : after act' s actions = some s') (holds : P s)
    (sound : ∀ s a s', P s → act' s a = some s' → act s a = some s' ∧ allowed s a ∧ P s') :
    Reaches act allowed init s' := by
  induction actions generalizing s with
  | nil =>
    cases ran
    exact reaches
  | cons a actions ih =>
    obtain ⟨s₁,checked,later⟩ := Option.bind_eq_some_iff.mp ran
    obtain ⟨did,may,kept⟩ := sound s a s₁ holds checked
    exact ih (.step reaches may did) later kept

end

end BitKeeper.Runs
