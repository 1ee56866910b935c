import BitKeeper.Lib.Dag

/-!
The delta table of one file. Serials run from `TREE = 1` to `table`, zero is "no delta". Parents
precede the delta that names them, and a real delta has real parents.
-/

namespace BitKeeper

structure Graph where
  table : Nat
  parent : Nat → Nat
  merge : Nat → Nat := fun _ => 0
  ptag : Nat → Nat := fun _ => 0
  mtag : Nat → Nat := fun _ => 0
  tag : Nat → Bool := fun _ => false
  parent_lt : ∀ d, d ≠ 0 → parent d < d
  merge_lt : ∀ d, d ≠ 0 → merge d < d := by exact @Nat.pos_of_ne_zero
  ptag_lt : ∀ d, d ≠ 0 → ptag d < d := by exact @Nat.pos_of_ne_zero
  mtag_lt : ∀ d, d ≠ 0 → mtag d < d := by exact @Nat.pos_of_ne_zero
  parent_real : ∀ d, tag d = false → parent d ≠ 0 → tag (parent d) = false := by intros; rfl
  merge_real : ∀ d, tag d = false → merge d ≠ 0 → tag (merge d) = false := by intros; rfl

namespace Graph

def serials (s : Graph) : List Nat := List.range' 1 s.table

theorem mem_serials (s : Graph) (d : Nat) : d ∈ s.serials ↔ d ≠ 0 ∧ d ≤ s.table := by
  unfold serials
  rw [List.mem_range'_1]
  omega

/-- The edges `sccs_color` follows: the merge parent even without a parent. -/
def parents (s : Graph) (d : Nat) : List Nat := if d = 0 then [] else [s.merge d,s.parent d]

def ptags (s : Graph) (d : Nat) : List Nat :=
  if d = 0 then [] else if s.ptag d = 0 then [] else [s.ptag d,s.mtag d]

theorem parents_descending (s : Graph) : Dag.Descending s.parents := by
  intro d e edge real
  by_cases zero : d = 0
  · simp [parents,zero] at edge
  · simp only [parents,if_neg zero,List.mem_cons,List.not_mem_nil,or_false] at edge
    rcases edge with rfl | rfl
    · exact s.merge_lt d zero
    · exact s.parent_lt d zero

theorem ptags_descending (s : Graph) : Dag.Descending s.ptags := by
  intro d e edge real
  by_cases zero : d = 0
  · simp [ptags,zero] at edge
  by_cases leaf : s.ptag d = 0
  · simp [ptags,leaf] at edge
  · simp only [ptags,if_neg zero,if_neg leaf,List.mem_cons,List.not_mem_nil, or_false] at edge
    rcases edge with rfl | rfl
    · exact s.ptag_lt d zero
    · exact s.mtag_lt d zero

end Graph
end BitKeeper
