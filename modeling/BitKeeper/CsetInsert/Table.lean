import BitKeeper.CsetInsert.Model

/-!
The delta table seen through keys.  A serial is only a name for a position;
what an insertion must preserve is the key a reference stands for.
-/

namespace BitKeeper.CsetInsert

open List

variable {K Q : Type}

def keyAt (deltas : List (Delta K Q)) : Nat → Option K
  | 0 => none
  | n + 1 => deltas[n]?.map (·.key)

structure KeyDelta (K Q : Type) where
  key : K
  date : Nat
  sortkey : Q
  tag : Bool
  parent : Option K
  merge : Option K
  ptag : Option K
  mtag : Option K
  cludes : List (Option K × Bool)
  deriving DecidableEq

def viewWith (parents others : Nat → Option K) (d : Delta K Q) : KeyDelta K Q :=
  { key := d.key, date := d.date, sortkey := d.sortkey, tag := d.tag
    parent := parents d.parent, merge := parents d.merge
    ptag := others d.ptag, mtag := others d.mtag
    cludes := d.cludes.map (fun c => (others c.1, c.2)) }

def views (deltas : List (Delta K Q)) : List (KeyDelta K Q) :=
  deltas.map (viewWith (keyAt deltas) (keyAt deltas))

def Incoming.view (p : Incoming K Q) : KeyDelta K Q :=
  { key := p.key, date := p.date, sortkey := p.sortkey, tag := p.tag
    parent := p.parent, merge := p.merge, ptag := p.ptag, mtag := p.mtag
    cludes := p.incs.map (fun k => (some k, true)) ++ p.excs.map (fun k => (some k, false)) }

section Order
variable [LinearOrder Q]

def Delta.rank (d : Delta K Q) : Nat ×ₗ Q := toLex (d.date, d.sortkey)

def KeyDelta.rank (d : KeyDelta K Q) : Nat ×ₗ Q := toLex (d.date, d.sortkey)

def Incoming.rank (p : Incoming K Q) : Nat ×ₗ Q := toLex (p.date, p.sortkey)

theorem earlier_of_lt (a b : Delta K Q) (before : a.rank < b.rank) : earlier a b = .ok true := by
  unfold Delta.rank at before
  rw [Prod.Lex.toLex_lt_toLex] at before
  unfold earlier
  rcases before with dated | ⟨same,sorted⟩
  · rw [if_pos dated]
  · rw [if_neg (by omega),if_neg (by omega),if_pos sorted]

theorem earlier_of_gt (a b : Delta K Q) (after : b.rank < a.rank) : earlier a b = .ok false := by
  unfold Delta.rank at after
  rw [Prod.Lex.toLex_lt_toLex] at after
  unfold earlier
  rcases after with dated | ⟨same,sorted⟩
  · rw [if_neg (by omega),if_pos dated]
  · rw [if_neg (by omega),if_neg (by omega),if_neg (lt_asymm sorted),if_pos sorted]

theorem insertionPoint_spec (d : Delta K Q) (deltas : List (Delta K Q))
    (sorted : deltas.Pairwise (fun a b => a.rank < b.rank))
    (fresh : ∀ e ∈ deltas, e.rank ≠ d.rank) :
    ∃ older newer, deltas = older ++ newer ∧ insertionPoint d deltas.reverse =
      .ok (older.length + 1) ∧
      (∀ e ∈ older, e.rank < d.rank) ∧ ∀ e ∈ newer, d.rank < e.rank := by
  induction deltas using List.reverseRecOn with
  | nil => exact ⟨[],[],rfl,rfl,by simp,by simp⟩
  | append_singleton init last ih =>
    rw [pairwise_append] at sorted
    obtain ⟨initSorted,-,below⟩ := sorted
    rw [reverse_append,reverse_singleton,singleton_append]
    by_cases before : last.rank < d.rank
    · refine ⟨init ++ [last],[],by simp,?_,?_,by simp⟩
      · simp [insertionPoint,earlier_of_lt last d before,bind,Except.bind,pure,Except.pure]
      · intro e member
        rcases mem_append.mp member with old | same
        · exact lt_trans (below e old last (by simp)) before
        · rw [mem_singleton] at same
          exact same ▸ before
    · have after : d.rank < last.rank :=
        lt_of_le_of_ne (not_lt.mp before) (fun same => fresh last (by simp) same.symm)
      obtain ⟨older,newer,split,found,low,high⟩ :=
        ih initSorted (fun e member => fresh e (by simp [member]))
      refine ⟨older,newer ++ [last],by rw [split,append_assoc],?_,low,?_⟩
      · simp [insertionPoint,earlier_of_gt last d after,bind,Except.bind,found]
      · intro e member
        rcases mem_append.mp member with new | same
        · exact high e new
        · rw [mem_singleton] at same
          exact same ▸ after

end Order

theorem keyAt_congr (left right : List (Delta K Q))
    (same : left.map (·.key) = right.map (·.key)) : keyAt left = keyAt right := by
  funext n
  cases n with
  | zero => rfl
  | succ n =>
    have point := congrArg (fun keys => keys[n]?) same
    simpa [keyAt] using point

variable (deltas : List (Delta K Q))

theorem keyAt_bound (n : Nat) (k : K) (found : keyAt deltas n = some k) :
    n ≠ 0 ∧ n ≤ deltas.length := by
  cases n with
  | zero => cases found
  | succ n =>
    refine ⟨by omega,?_⟩
    by_contra beyond
    rw [keyAt,getElem?_eq_none (by omega)] at found
    cases found

theorem keyAt_isSome (n : Nat) (nonzero : n ≠ 0)
    (inside : n ≤ deltas.length) : ∃ k, keyAt deltas n = some k := by
  cases n with
  | zero => exact absurd rfl nonzero
  | succ n =>
    refine ⟨(deltas.get ⟨n,by omega⟩).key,?_⟩
    simp [keyAt,getElem?_eq_getElem (show n < deltas.length by omega)]

theorem keyAt_ne_of_absent (k : K) (absent : ∀ e ∈ deltas, e.key ≠ k)
    (n : Nat) : keyAt deltas n ≠ some k := by
  cases n with
  | zero => exact fun impossible => by cases impossible
  | succ n =>
    intro found
    rw [keyAt,Option.map_eq_some_iff] at found
    obtain ⟨e,at_,same⟩ := found
    exact absent e (mem_of_getElem? at_) same

theorem keyAt_inj (distinct : (deltas.map (·.key)).Nodup) (m n : Nat)
    (k : K) (foundM : keyAt deltas m = some k) (foundN : keyAt deltas n = some k) : m = n := by
  cases m with
  | zero => cases foundM
  | succ m =>
    cases n with
    | zero => cases foundN
    | succ n =>
      have boundM := (keyAt_bound deltas _ k foundM).2
      have pointM : (deltas.map (·.key))[m]? = some k := by simpa [keyAt] using foundM
      have pointN : (deltas.map (·.key))[n]? = some k := by simpa [keyAt] using foundN
      rw [← pointN] at pointM
      have same := (getElem?_inj (by simpa using boundM) distinct).mp pointM
      omega

theorem keyAt_inside_inj (distinct : (deltas.map (·.key)).Nodup)
    (m n : Nat) (insideM : m ≤ deltas.length) (insideN : n ≤ deltas.length)
    (same : keyAt deltas m = keyAt deltas n) : m = n := by
  by_cases zeroM : m = 0
  · by_contra different
    obtain ⟨k,found⟩ := keyAt_isSome deltas n (by omega) insideN
    rw [zeroM,found] at same
    cases same
  · obtain ⟨k,found⟩ := keyAt_isSome deltas m zeroM insideM
    exact keyAt_inj deltas distinct m n k found (same ▸ found)

end BitKeeper.CsetInsert
