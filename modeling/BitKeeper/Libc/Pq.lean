import Mathlib

/-!
The priority queue: a heap in an array whose slots count from one. An item is a pointer that is not
NULL, since `addLine` adds nothing for NULL.
-/

namespace BitKeeper.Libc.Pq

open Function Finset Multiset

/-- A comparison function that is a total preorder; its result is read for its sign. -/
structure Cmp (α : Type) where
  cmp : α → α → Int
  flip : ∀ a b, cmp a b < 0 ↔ 0 < cmp b a
  trans : ∀ a b c, cmp a b ≤ 0 → cmp b c ≤ 0 → cmp a c ≤ 0

structure PQ (α : Type) where
  d : Nat → α
  size : Nat

variable {α : Type} (c : Cmp α)

def swap (d : Nat → α) (i j : Nat) : Nat → α := d ∘ Equiv.swap i j

def swim (d : Nat → α) (k : Nat) : Nat → α :=
  if 1 < k ∧ c.cmp (d (k / 2)) (d k) < 0 then swim (swap d (k / 2) k) (k / 2) else d
termination_by k

/-- The child of slot `k` that `sink` compares with. -/
def child (d : Nat → α) (k n : Nat) : Nat :=
  if 2 * k < n ∧ c.cmp (d (2 * k)) (d (2 * k + 1)) < 0 then 2 * k + 1 else 2 * k

theorem child_bounds (d : Nat → α) {k n : Nat} (inside : 2 * k ≤ n) :
    child c d k n / 2 = k ∧ child c d k n ≤ n := by
  unfold child
  split_ifs <;> omega

def sink (d : Nat → α) (k n : Nat) : Nat → α :=
  -- `sink` starts at slot one
  if _inside : 0 < k ∧ 2 * k ≤ n then
    if 0 ≤ c.cmp (d k) (d (child c d k n)) then d else sink (swap d k (child c d k n))
      (child c d k n) n
  else d
termination_by n - k
decreasing_by
  have := child_bounds c d _inside.2
  omega

def new [Inhabited α] : PQ α := ⟨fun _ => default,0⟩

def insert (pq : PQ α) (item : α) : PQ α :=
  ⟨swim c (update pq.d (pq.size + 1) item) (pq.size + 1),pq.size + 1⟩

/-- None is the failed assertion on an empty queue. -/
def pop (pq : PQ α) : Option (α × PQ α) :=
  if pq.size = 0 then none
  else some (pq.d 1,⟨sink c (update pq.d 1 (pq.d pq.size)) 1 (pq.size - 1),pq.size - 1⟩)

inductive Op (α : Type) where
  | insert (item : α)
  | pop

/-- The operations, the last one first: the queue behind them and the items popped. -/
def run [Inhabited α] : List (Op α) → Option (PQ α × Multiset α)
  | [] => some (new,0)
  | op :: before => do
    let (pq,popped) ← run before
    match op with
    | .insert item => some (insert c pq item,popped)
    | .pop => (pop c pq).map fun result => (result.2,result.1 ::ₘ popped)

def inserted : List (Op α) → Multiset α
  | [] => 0
  | .insert item :: before => item ::ₘ inserted before
  | .pop :: before => inserted before

def items (d : Nat → α) (n : Nat) : Multiset α := (Finset.Icc 1 n).val.map d

def Ordered (d : Nat → α) (n : Nat) : Prop := ∀ i, 1 < i → i ≤ n → c.cmp (d i) (d (i / 2)) ≤ 0

section Swap

variable (d : Nat → α) {i j k n : Nat}

theorem swap_left (i j : Nat) : swap d i j i = d j := congrArg d (Equiv.swap_apply_left i j)

theorem swap_right (i j : Nat) : swap d i j j = d i := congrArg d (Equiv.swap_apply_right i j)

theorem swap_of_ne (left : k ≠ i) (right : k ≠ j) : swap d i j k = d k :=
  congrArg d (Equiv.swap_apply_of_ne_of_ne left right)

theorem items_swap (first : 1 ≤ i ∧ i ≤ n) (second : 1 ≤ j ∧ j ≤ n) :
    items (swap d i j) n = items d n := by
  have moved : {k | Equiv.swap i j k ≠ k} ⊆ (Finset.Icc 1 n : Set Nat) := by
    intro k changed
    rw [coe_Icc]
    by_contra outside
    refine changed (Equiv.swap_apply_of_ne_of_ne ?_ ?_) <;> rintro rfl
    · exact outside first
    · exact outside second
  have same := congrArg (fun s => s.val.map d) (map_perm moved)
  rw [map_val,Multiset.map_map] at same
  exact same

private theorem items_succ (n : Nat) : items d (n + 1) = d (n + 1) ::ₘ items d n := by
  unfold items
  rw [← insert_Icc_right_eq_Icc_add_one (by omega : 1 ≤ n + 1),insert_val_of_notMem (by simp),
    Multiset.map_cons]

theorem items_congr {d e : Nat → α} (same : ∀ i, 1 ≤ i → i ≤ n → d i = e i) : items d n = items e n :=
  Multiset.map_congr rfl fun i member => same i (mem_Icc.mp member).1 (mem_Icc.mp member).2

end Swap

variable {c} {d : Nat → α} {k n : Nat}

theorem Cmp.refl (a : α) : c.cmp a a ≤ 0 := by
  have := c.flip a a
  omega

theorem Cmp.of_nonneg {a b : α} (least : 0 ≤ c.cmp a b) : c.cmp b a ≤ 0 := by
  have := c.flip a b
  omega

/-- The children of slot `k` are below its parent. -/
def Grand (c : Cmp α) (d : Nat → α) (k n : Nat) : Prop :=
  1 < k → ∀ i, i / 2 = k → i ≤ n → c.cmp (d i) (d (k / 2)) ≤ 0

/-- Only the pair of slot `k` and its parent may be out of order. -/
structure Swimming (c : Cmp α) (d : Nat → α) (k n : Nat) : Prop where
  except : ∀ i, 1 < i → i ≤ n → i ≠ k → c.cmp (d i) (d (i / 2)) ≤ 0
  grand : Grand c d k n

/-- Only the pairs of slot `k` and its children may be out of order. -/
structure Sinking (c : Cmp α) (d : Nat → α) (k n : Nat) : Prop where
  except : ∀ i, 1 < i → i ≤ n → i / 2 ≠ k → c.cmp (d i) (d (i / 2)) ≤ 0
  grand : Grand c d k n

theorem Swimming.step (order : Swimming c d k n) (inside : 1 < k ∧ k ≤ n)
    (less : c.cmp (d (k / 2)) (d k) ≤ 0) :
    Swimming c (swap d (k / 2) k) (k / 2) n := by
  have sibling (i : Nat) (deep : 1 < i) (bound : i ≤ n) (other : i ≠ k) (same : i / 2 = k / 2) :=
    same ▸ order.except i deep bound other
  constructor
  · intro i deep bound other
    by_cases here : i = k
    · rw [here,swap_right,swap_left]
      exact less
    rw [swap_of_ne d other here]
    by_cases below : i / 2 = k
    · rw [below,swap_right]
      exact order.grand inside.1 i below bound
    by_cases beside : i / 2 = k / 2
    · rw [beside,swap_left]
      exact c.trans _ _ _ (sibling i deep bound here beside) less
    · rw [swap_of_ne d beside below]
      exact order.except i deep bound here
  · intro deep i beside bound
    have above := order.except (k / 2) deep (by omega) (by omega)
    rw [swap_of_ne d (by omega : k / 2 / 2 ≠ k / 2) (by omega : k / 2 / 2 ≠ k)]
    by_cases here : i = k
    · rw [here,swap_right]
      exact above
    · rw [swap_of_ne d (by omega) here]
      exact c.trans _ _ _ (sibling i (by omega) bound here beside) above

private theorem swim_correct (order : Swimming c d k n) (bound : k ≤ n) :
    Ordered c (swim c d k) n ∧ items (swim c d k) n = items d n := by
  fun_induction swim c d k with
  | case1 d k moves ih =>
    have half : 1 ≤ k / 2 ∧ k / 2 ≤ n := by omega
    rw [← items_swap d half ⟨moves.1.le,bound⟩]
    exact ih (order.step ⟨moves.1,bound⟩ moves.2.le) half.2
  | case2 d k stays =>
    refine ⟨?_,rfl⟩
    intro i deep inside
    by_cases here : i = k
    · subst here
      exact Cmp.of_nonneg (not_lt.mp fun less => stays ⟨deep,less⟩)
    · exact order.except i deep inside here

theorem child_greatest (d : Nat → α) {i : Nat} (below : i / 2 = k) (bound : i ≤ n) :
    c.cmp (d i) (d (child c d k n)) ≤ 0 := by
  have sides : i = 2 * k ∨ i = 2 * k + 1 := by omega
  unfold child
  split
  · next right =>
    rcases sides with rfl | rfl
    · exact right.2.le
    · exact Cmp.refl _
  · next left =>
    rcases sides with rfl | rfl
    · exact Cmp.refl _
    · exact Cmp.of_nonneg (not_lt.mp fun less => left ⟨by omega,less⟩)

theorem Sinking.step (order : Sinking c d k n) {j : Nat} (inside : 0 < k ∧ j ≤ n) (below : j / 2 = k)
    (greatest : ∀ i, i / 2 = k → i ≤ n → c.cmp (d i) (d j) ≤ 0) (less : c.cmp (d k) (d j) ≤ 0) :
    Sinking c (swap d k j) j n := by
  constructor
  · intro i deep bound other
    by_cases under : i / 2 = k
    · rw [under,swap_left]
      by_cases here : i = j
      · rw [here,swap_right]
        exact less
      · rw [swap_of_ne d (by omega) here]
        exact greatest i under bound
    rw [swap_of_ne d under other]
    by_cases here : i = k
    · rw [here,swap_left]
      exact order.grand (by omega) j below inside.2
    · rw [swap_of_ne d here (by omega)]
      exact order.except i deep bound under
  · intro deep i under bound
    rw [below,swap_left,swap_of_ne d (by omega) (by omega)]
    have := order.except i (by omega) bound (by omega)
    rwa [under] at this

private theorem sink_correct (order : Sinking c d k n) (start : 0 < k) :
    Ordered c (sink c d k n) n ∧ items (sink c d k n) n = items d n := by
  fun_induction sink c d k n with
  | case1 d k inside least =>
    refine ⟨?_,rfl⟩
    intro i deep bound
    by_cases under : i / 2 = k
    · rw [under]
      exact c.trans _ _ _ (child_greatest d under bound) (Cmp.of_nonneg least)
    · exact order.except i deep bound under
  | case2 d k inside moves ih =>
    have bounds := child_bounds c d inside.2
    have down : 0 < child c d k n := by omega
    rw [← items_swap d ⟨start,by omega⟩ ⟨down,bounds.2⟩]
    exact ih (order.step ⟨start,bounds.2⟩ bounds.1 (fun i => child_greatest d) (not_le.mp moves).le)
      down
  | case3 d k leaf =>
    refine ⟨?_,rfl⟩
    intro i deep bound
    exact order.except i deep bound (by omega)

theorem insert_correct {pq : PQ α} (order : Ordered c pq.d pq.size) (item : α) :
    Ordered c (insert c pq item).d (pq.size + 1) ∧
      items (insert c pq item).d (pq.size + 1) = item ::ₘ items pq.d pq.size := by
  have old (i : Nat) (bound : i ≤ pq.size) : update pq.d (pq.size + 1) item i = pq.d i :=
    update_of_ne (by omega) _ _
  have start : Swimming c (update pq.d (pq.size + 1) item) (pq.size + 1) (pq.size + 1) := by
    constructor
    · intro i deep bound other
      rw [old i (by omega),old (i / 2) (by omega)]
      exact order i deep (by omega)
    · intro deep i below bound
      omega
  have swum := swim_correct start le_rfl
  refine ⟨swum.1,swum.2.trans ?_⟩
  rw [items_succ,update_self,items_congr fun i _ => old i]

theorem Ordered.top (order : Ordered c d n) (i : Nat) (first : 1 ≤ i) (bound : i ≤ n) :
    c.cmp (d i) (d 1) ≤ 0 := by
  induction i using Nat.strong_induction_on with
  | _ i ih =>
    by_cases root : i = 1
    · rw [root]
      exact Cmp.refl _
    · exact c.trans _ _ _ (order i (by omega) bound) (ih (i / 2) (by omega) (by omega) (by omega))

structure Popped (c : Cmp α) (pq after : PQ α) (out : α) : Prop where
  ordered : Ordered c after.d after.size
  taken : items pq.d pq.size = out ::ₘ items after.d after.size
  greatest : ∀ item ∈ items pq.d pq.size, c.cmp item out ≤ 0

theorem pop_correct {pq after : PQ α} {out : α} (order : Ordered c pq.d pq.size)
    (result : pop c pq = some (out,after)) : Popped c pq after out := by
  unfold pop at result
  split_ifs at result with full
  obtain ⟨d,size⟩ := pq
  obtain ⟨n,rfl⟩ := Nat.exists_eq_succ_of_ne_zero full
  cases result
  change Ordered c d (n + 1) at order
  -- the last item in the first slot: the array with the two swapped, without its last slot
  have moved (i : Nat) (first : 1 ≤ i) (bound : i ≤ n) :
      update d 1 (d (n + 1)) i = swap d 1 (n + 1) i := by
    by_cases root : i = 1
    · rw [root,update_self,swap_left]
    · rw [update_of_ne root,swap_of_ne d root (by omega)]
  have start : Sinking c (update d 1 (d (n + 1))) 1 n := by
    refine ⟨?_,fun deep => absurd deep (by omega)⟩
    intro i deep bound below
    rw [update_of_ne (by omega),update_of_ne below]
    exact order i deep (by omega)
  have sunk := sink_correct start one_pos
  refine ⟨sunk.1,?_,?_⟩
  · change items d (n + 1) = d 1 ::ₘ items (sink c (update d 1 (d (n + 1))) 1 n) n
    rw [sunk.2,items_congr moved,← items_swap d ⟨le_rfl,by omega⟩ ⟨by omega,le_rfl⟩,items_succ,
      swap_right]
  · intro item member
    obtain ⟨i,bounds,rfl⟩ := mem_map.mp member
    exact order.top i (mem_Icc.mp bounds).1 (mem_Icc.mp bounds).2

/-- In every run the heap order holds, the items are those inserted and not popped, and a pop
returns a greatest one. -/
theorem run_correct [Inhabited α] (c : Cmp α) (ops : List (Op α)) (pq : PQ α) (popped : Multiset α)
    (reached : run c ops = some (pq,popped)) :
    Ordered c pq.d pq.size ∧ items pq.d pq.size + popped = inserted ops ∧
      (pq.size ≠ 0 → ∃ out after, pop c pq = some (out,after)) ∧
      ∀ out after, pop c pq = some (out,after) → Popped c pq after out := by
  suffices invariant : Ordered c pq.d pq.size ∧ items pq.d pq.size + popped = inserted ops from
    ⟨invariant.1,invariant.2,fun full => ⟨_,_,if_neg full⟩,fun _ _ => pop_correct invariant.1⟩
  induction ops generalizing pq popped with
  | nil =>
    cases reached
    exact ⟨fun i deep bound => absurd deep (by have : i ≤ 0 := bound; omega),rfl⟩
  | cons op before ih =>
    obtain ⟨⟨old,out⟩,first,last⟩ := Option.bind_eq_some_iff.mp reached
    obtain ⟨order,balance⟩ := ih old out first
    cases op with
    | insert item =>
      cases last
      have inserted := insert_correct order item
      refine ⟨inserted.1,?_⟩
      rw [show (insert c old item).size = old.size + 1 from rfl,inserted.2,cons_add,balance]
      rfl
    | pop =>
      obtain ⟨⟨item,after⟩,result,same⟩ := Option.map_eq_some_iff.mp last
      cases same
      have step := pop_correct order result
      refine ⟨step.ordered,?_⟩
      rw [add_cons,← cons_add,← step.taken,balance]
      rfl

def naturals : Cmp Nat where
  cmp a b := a - b
  flip a b := by omega
  trans a b c := by omega

/-- Pairs by their first component. -/
def byFirst : Cmp (Nat × Nat) where
  cmp a b := a.1 - b.1
  flip a b := by omega
  trans a b c := by omega

def ties : List (Op (Nat × Nat)) :=
  [.pop,.insert (3,1),.pop,.insert (2,0),.insert (5,1),.insert (5,0),.insert (3,0)]

/-- Both items with 5 are popped, with an insertion between them, and one of the two with 3 is next.
-/
theorem run_correct_ties :
    ∃ pq, run byFirst ties = some (pq,{(5,0),(5,1)}) ∧ Ordered byFirst pq.d pq.size ∧
      items pq.d pq.size = {(3,0),(3,1),(2,0)} ∧
      ∃ out after, pop byFirst pq = some (out,after) ∧ out.1 = 3 ∧ Popped byFirst pq after out := by
  have ends : (run byFirst ties).map (fun (pq,popped) => (pq.size,(pq.d 1).1,popped)) =
      some (3,3,{(5,0),(5,1)}) := by decide +kernel
  obtain ⟨⟨pq,popped⟩,ran,same⟩ := Option.map_eq_some_iff.mp ends
  simp only [Prod.mk.injEq] at same
  obtain ⟨size,first,rfl⟩ := same
  obtain ⟨order,balance,pops,greatest⟩ := run_correct byFirst ties pq _ ran
  obtain ⟨out,after,popped⟩ := pops (by rw [size]; decide)
  have top : pq.d 1 = out :=
    (Prod.mk.inj (Option.some.inj (Option.ite_none_left_eq_some.mp popped).2)).1
  have all : inserted ties = {(3,0),(3,1),(2,0)} + {(5,0),(5,1)} := by decide
  exact ⟨pq,ran,order,add_right_cancel (balance.trans all),out,after,popped,top ▸ first,
    greatest out after popped⟩

end BitKeeper.Libc.Pq
