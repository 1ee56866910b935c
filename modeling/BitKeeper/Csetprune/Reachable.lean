import BitKeeper.Libc.Pq
import BitKeeper.Range.Walk

/-!
`isReachable`: a walk through the ancestors with a queue of serials. The newest is taken first, so
that all copies of a delta leave the queue one after the other, before its parents do.
-/

namespace BitKeeper.Csetprune

open List Libc.Pq Range Dag

def pq32_insert (pq : PQ Nat) (item : Nat) : PQ Nat := insert naturals pq item

def pq32_delMax (pq : PQ Nat) : Option (Nat × PQ Nat) := pop naturals pq

/-- `EACH_PARENT`; none is the jump to `done`. -/
def queueParents (stop : Nat) : List Nat → PQ Nat → Option (PQ Nat)
  | [], pq => some pq
  | p :: rest, pq =>
    if stop < p then queueParents stop rest (pq32_insert pq p)
    else if p = stop then none
    else queueParents stop rest pq

def reachLoop (g : Graph) (stop : Nat) : Nat → PQ Nat → Nat → Option Bool
  | 0, _, _ => none
  | fuel + 1, pq, prev =>
    match pq32_delMax pq with
    | none => some false
    | some (d,pq) =>
      if prev = d then reachLoop g stop fuel pq prev
      else
        match queueParents stop (eachParent g d) pq with
        | none => some true
        | some pq => reachLoop g stop fuel pq d

/-- None is a failed assertion; the fuel suffices for every graph. -/
def isReachable (g : Graph) (start stop : Nat) : Option Bool :=
  if start = 0 ∨ stop = 0 then none
  else if start = stop then some true
  else
    let high := if start < stop then stop else start
    let low := if start < stop then start else stop
    reachLoop g low (3 ^ high + 1) (pq32_insert new high) 0

def queued (pq : PQ Nat) : Multiset Nat := items pq.d pq.size

def Heap (pq : PQ Nat) : Prop := Ordered naturals pq.d pq.size

variable {g : Graph} {pq : PQ Nat} {start stop prev : Nat}

theorem queueParents_spec (stop : Nat) (parents : List Nat) (heap : Heap pq) :
    match queueParents stop parents pq with
    | none => stop ∈ parents
    | some after =>
      Heap after ∧ stop ∉ parents ∧ queued after = queued pq + parents.filter (stop < ·) := by
  fun_induction queueParents stop parents pq with
  | case1 pq => simp [heap]
  | case2 p rest pq newer ih =>
    obtain ⟨order,held⟩ := insert_correct heap p
    have step := ih order
    split at step
    · exact mem_cons_of_mem p step
    · refine ⟨step.1,by simp [step.2.1,newer.ne],?_⟩
      rw [step.2.2,filter_cons_of_pos (by simpa using newer),← Multiset.cons_coe,Multiset.add_cons,
        ← Multiset.cons_add]
      exact congrArg (· + _) held
  | case3 rest pq _ => exact mem_cons_self
  | case4 p rest pq older other ih =>
    have step := ih heap
    rw [filter_cons_of_neg (by simpa using older)]
    grind

/-- Between two turns: the queue leads to `stop` if `start` does, and with a copy of `prev` the queue
has the parents of `prev`. -/
structure Walking (g : Graph) (start stop : Nat) (pq : PQ Nat) (prev : Nat) : Prop where
  heap : Heap pq
  reached : ∀ x ∈ queued pq, stop < x ∧ Reach (eachParent g) start x
  last : ∀ p ∈ eachParent g prev, p ≠ stop ∧ (stop < p → prev ∈ queued pq → p ∈ queued pq)
  cover : Reach (eachParent g) start stop → ∃ x ∈ queued pq, Reach (eachParent g) x stop

/-- A delta weighs more than its parents together. -/
def weight (q : Multiset Nat) : Nat := (q.map (3 ^ ·)).sum

theorem parent_lt {p d : Nat} (edge : p ∈ eachParent g d) : p < d :=
  eachParent_descending g d p edge (mem_eachParent edge).2.1

private theorem weight_parents (g : Graph) (d stop : Nat) :
    weight ((eachParent g d).filter (stop < ·)) < 3 ^ d := by
  have each (p : Nat) (edge : p ∈ eachParent g d) : 3 * 3 ^ p ≤ 3 ^ d := by
    rw [← pow_succ']
    exact Nat.pow_le_pow_right (by decide) (parent_lt edge)
  have pos := Nat.pow_pos (n := d) (by decide : 0 < 3)
  unfold eachParent at each ⊢
  split_ifs at each ⊢
  · simp [weight]
  · have := each _ mem_cons_self
    by_cases newer : stop < g.parent d <;> simp [weight,newer]
    omega
  · have := each _ mem_cons_self
    have := each _ (mem_cons_of_mem _ mem_cons_self)
    by_cases newer : stop < g.parent d <;> by_cases newer' : stop < g.merge d <;>
      simp [weight,newer,newer'] <;> omega

/-- A turn takes `d` out and leaves what stays, with the newer parents of `d`. -/
theorem Walking.next {d : Nat} {after more : PQ Nat} (walking : Walking g start stop pq prev)
    (taken : queued pq = d ::ₘ queued after) (heap : Heap more) (none : stop ∉ eachParent g d)
    (held : ∀ x, x ∈ queued more ↔ x ∈ queued after ∨ x ∈ eachParent g d ∧ stop < x) :
    Walking g start stop more d := by
  have mine := walking.reached d (taken ▸ Multiset.mem_cons_self d _)
  refine ⟨heap,?_,?_,?_⟩
  · intro x inside
    rcases (held x).mp inside with inside | ⟨edge,newer⟩
    · exact walking.reached x (taken ▸ Multiset.mem_cons_of_mem inside)
    · exact ⟨newer,mine.2.trans (.step edge (mem_eachParent edge).2.1 (.self x))⟩
  · exact fun p edge =>
      ⟨fun same => none (same ▸ edge),fun newer _ => (held p).mpr (.inr ⟨edge,newer⟩)⟩
  · intro reach
    obtain ⟨x,inside,leads⟩ := walking.cover reach
    rcases Multiset.mem_cons.mp (taken ▸ inside) with rfl | inside
    · cases leads with
      | self => exact absurd mine.1 (lt_irrefl _)
      | step edge _ rest =>
        have newer := lt_of_le_of_ne (rest.le (eachParent_descending g)) fun same =>
          none (same ▸ edge)
        exact ⟨_,(held _).mpr (.inr ⟨edge,newer⟩),rest⟩
    · exact ⟨x,(held x).mpr (.inl inside),leads⟩

theorem reachLoop_spec (real : stop ≠ 0) (fuel : Nat) (walking : Walking g start stop pq prev)
    (enough : weight (queued pq) < fuel) :
    ∃ found, reachLoop g stop fuel pq prev = some found ∧
      (found = true ↔ Reach (eachParent g) start stop) := by
  induction fuel generalizing pq prev with
  | zero => omega
  | succ fuel ih =>
    unfold reachLoop
    split
    · next empty =>
      refine ⟨false,rfl,iff_of_false Bool.false_ne_true fun reach => ?_⟩
      obtain ⟨x,inside,_⟩ := walking.cover reach
      unfold pq32_delMax pop at empty
      split_ifs at empty with none
      simp [queued,items,none] at inside
    · next d after popped =>
      have step := pop_correct walking.heap popped
      have taken : queued pq = d ::ₘ queued after := step.taken
      have first : d ∈ queued pq := taken ▸ Multiset.mem_cons_self d _
      have lighter : weight (queued pq) = 3 ^ d + weight (queued after) := by simp [taken,weight]
      split
      · next again =>
        -- the parents were queued with the first copy and are still there
        subst again
        refine ih (walking.next taken step.ordered (fun edge => (walking.last stop edge).1 rfl)
          fun x => ⟨.inl,?_⟩) ?_
        · rintro (inside | ⟨edge,newer⟩)
          · exact inside
          · have copy := (walking.last x edge).2 newer first
            exact (Multiset.mem_cons.mp (taken ▸ copy)).resolve_left (parent_lt edge).ne
        · have pos := Nat.pow_pos (n := prev) (by decide : 0 < 3)
          omega
      · have spec := queueParents_spec stop (eachParent g d) step.ordered
        split at spec
        · exact ⟨true,rfl,
            iff_of_true rfl ((walking.reached d first).2.trans (.step spec real (.self stop)))⟩
        · next more _ =>
          obtain ⟨heap,none,held⟩ := spec
          refine ih (walking.next taken heap none fun x => by simp [held]) ?_
          have light := weight_parents g d stop
          have sum : weight (queued more) = weight (queued after) + weight
              ((eachParent g d).filter (stop < ·)) := by
            simp [held,weight]
          omega

theorem reachLoop_start (g : Graph) {high low : Nat} (order : low < high) (real : low ≠ 0) :
    ∃ found, reachLoop g low (3 ^ high + 1) (pq32_insert new high) 0 = some found ∧
      (found = true ↔ Reach (eachParent g) high low) := by
  have empty : Heap new := fun i deep bound => absurd (deep.trans_le bound) (Nat.not_lt_zero 1)
  obtain ⟨heap,held⟩ := insert_correct empty high
  have only : queued (pq32_insert new high) = {high} := held
  refine reachLoop_spec real _ ⟨heap,?_,fun p edge => absurd rfl (mem_eachParent edge).1,?_⟩ ?_
  · intro x inside
    rw [only,Multiset.mem_singleton] at inside
    subst inside
    exact ⟨order,.self x⟩
  · intro reach
    exact ⟨high,only ▸ Multiset.mem_singleton_self high,reach⟩
  · simp [only,weight]

/-- For every graph and every two deltas the walk ends and tells whether one is an ancestor of the
other. -/
theorem isReachable_iff (g : Graph) (a b : Nat) :
    ∃ found, isReachable g (a + 1) (b + 1) = some found ∧
      (found = true ↔ Reach (eachParent g) (a + 1) (b + 1) ∨
      Reach (eachParent g) (b + 1) (a + 1)) := by
  have older {x y : Nat} (less : x < y) : ¬Reach (eachParent g) x y := fun reach =>
    absurd (reach.le (eachParent_descending g)) (by omega)
  unfold isReachable
  rw [if_neg (by omega)]
  rcases lt_trichotomy (a + 1) (b + 1) with less | same | more
  · rw [if_neg less.ne]
    simpa only [if_pos less,older less,false_or] using reachLoop_start g less (by omega)
  · rw [if_pos same,same]
    exact ⟨true,rfl,iff_of_true rfl (.inl (.self _))⟩
  · rw [if_neg more.ne']
    simpa only [if_neg more.not_gt,older more,or_false] using reachLoop_start g more (by omega)

end BitKeeper.Csetprune
