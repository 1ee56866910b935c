import Mathlib

/-!
Reachability in a graph on positive serial numbers whose edges point to smaller serials. Zero is the
missing node.
-/

namespace BitKeeper.Dag

/-- `x` is `d` or is reached from `d` by edges of `next`; a zero successor is no edge. -/
inductive Reach (next : Nat → List Nat) : Nat → Nat → Prop
  | self (d : Nat) : Reach next d d
  | step {d e x : Nat} (edge : e ∈ next d) (real : e ≠ 0) (rest : Reach next e x) : Reach next d x

def Descending (next : Nat → List Nat) : Prop := ∀ d e, e ∈ next d → e ≠ 0 → e < d

def ClosedTo (next : Nat → List Nat) (bound : Nat) (marked : Nat → Bool) : Prop :=
  ∀ d, d ≤ bound → marked d = true → ∀ e, e ∈ next d → e ≠ 0 → marked e = true

variable {next : Nat → List Nat} {d x : Nat}

theorem Reach.trans {e : Nat} (first : Reach next d e) (second : Reach next e x) : Reach next d x :=
  by
  induction first with
  | self d => exact second
  | step edge real _rest ih => exact .step edge real (ih second)

theorem Reach.le (descending : Descending next) (reached : Reach next d x) : x ≤ d := by
  induction reached with
  | self d => exact Nat.le_refl d
  | step edge real _rest ih => exact le_trans ih (le_of_lt (descending _ _ edge real))

theorem Reach.ne_zero (reached : Reach next d x) (start : d ≠ 0) : x ≠ 0 := by
  induction reached with
  | self d => exact start
  | step _edge real _rest ih => exact ih real

/-- A property that holds at the start and follows every edge holds wherever
the walk gets. -/
theorem Reach.invariant {P : Nat → Prop} (reached : Reach next d x) (start : P d)
    (follows : ∀ e f, P e → f ∈ next e → f ≠ 0 → P f) : P x := by
  induction reached with
  | self d => exact start
  | step edge real _rest ih => exact ih (follows _ _ start edge real)

/-- `x` is found from `d` within `n` edges. -/
def reaches (next : Nat → List Nat) (x : Nat) : Nat → Nat → Bool
  | 0, d => d = x
  | n + 1, d => d = x ∨ ∃ e ∈ next d, e ≠ 0 ∧ reaches next x n e

theorem reaches_iff (descending : Descending next) {n : Nat} (low : d ≤ n) :
    reaches next x n d = true ↔ Reach next d x := by
  constructor
  · intro found
    induction n generalizing d with
    | zero => exact of_decide_eq_true found ▸ .self d
    | succ n ih =>
      rcases of_decide_eq_true found with rfl | ⟨e,edge,real,rest⟩
      · exact .self d
      · have below := descending d e edge real
        exact .step edge real (ih (by omega) rest)
  · intro reached
    induction reached generalizing n with
    | self d => cases n <;> simp [reaches]
    | step edge real _ ih =>
      have below := descending _ _ edge real
      cases n with
      | zero => omega
      | succ n => exact decide_eq_true (.inr ⟨_,edge,real,ih (by omega)⟩)

inductive Path (next : Nat → List Nat) : Nat → Nat → List Nat → Prop
  | self (d : Nat) : Path next d d [d]
  | step {d e x : Nat} {list : List Nat} (edge : e ∈ next d) (real : e ≠ 0)
      (rest : Path next e x list) :
      Path next d x (d :: list)

theorem Path.reach {list : List Nat} (path : Path next d x list) : Reach next d x := by
  induction path with
  | self d => exact .self d
  | step edge real _rest ih => exact .step edge real ih

theorem Reach.path (reached : Reach next d x) : ∃ list, Path next d x list := by
  induction reached with
  | self d => exact ⟨[d],.self d⟩
  | step edge real _rest ih =>
    obtain ⟨list,path⟩ := ih
    exact ⟨_ :: list,.step edge real path⟩

variable {marked : Nat → Bool}

theorem ClosedTo.mono {small large : Nat} (closed : ClosedTo next large marked)
    (le : small ≤ large) : ClosedTo next small marked :=
  fun d bound => closed d (le_trans bound le)

theorem ClosedTo.reach {bound : Nat} (descending : Descending next)
    (closed : ClosedTo next bound marked) (within : d ≤ bound) (start : marked d = true)
    (reached : Reach next d x) : marked x = true := by
  induction reached with
  | self d => exact start
  | step edge real _rest ih =>
    have below := descending _ _ edge real
    exact ih (by omega) (closed _ within start _ edge real)

theorem ClosedTo.union_reach {bound : Nat} {after : Nat → Bool} (closed : ClosedTo next bound marked)
    (spec : ∀ x, after x = true ↔ marked x = true ∨ Reach next d x) : ClosedTo next bound after := by
  intro x within start e edge real
  rw [spec] at start ⊢
  rcases start with old | reached
  · exact Or.inl (closed x within old e edge real)
  · exact Or.inr (reached.trans (.step edge real (.self e)))

theorem reach_transport {K : Type} {nextA nextB : Nat → List Nat} {nameA nameB : Nat → K}
    {P Q : Nat → Prop} (insideA : ∀ a e, P a → e ∈ nextA a → e ≠ 0 → P e)
    (edges : ∀ a b, P a → Q b → nameA a = nameB b → ∀ e ∈ nextA a, e ≠ 0 → ∃ f ∈ nextB b,
      f ≠ 0 ∧ Q f ∧ nameA e = nameB f)
    {a b : Nat} (inA : P a) (inB : Q b) (same : nameA a = nameB b) (reached : Reach nextA a x) :
    ∃ y, Reach nextB b y ∧ Q y ∧ nameA x = nameB y := by
  induction reached generalizing b with
  | self a => exact ⟨b,.self b,inB,same⟩
  | step edge real _rest ih =>
    obtain ⟨f,edgeB,realB,insideB,sameEdge⟩ := edges _ b inA inB same _ edge real
    obtain ⟨y,reachedB,insideY,sameY⟩ := ih (insideA _ _ inA edge real) insideB sameEdge
    exact ⟨y,.step edgeB realB reachedB,insideY,sameY⟩

end BitKeeper.Dag
