import Mathlib

/-!
Tables as lists of keys and values.  A new key is put behind the others, an old
one keeps its place, so a loop over the table sees every key once.
-/

namespace BitKeeper.Assoc

open List Prod

variable {κ ν : Type} [DecidableEq κ]

def put (table : List (κ × ν)) (key : κ) (value : ν) : List (κ × ν) := match table with
  | [] => [(key, value)]
  | (name, data) :: rest => if name = key then (name, value) :: rest else (name, data) :: put rest
      key value

theorem mem_keys_put (table : List (κ × ν)) (key : κ) (value : ν) (k : κ) :
    k ∈ (put table key value).map fst ↔ k = key ∨ k ∈ table.map fst := by
  induction table with
  | nil => simp [put]
  | cons node table ih =>
    unfold put
    by_cases same : node.1 = key
    · simp only [same,if_true,map_cons,mem_cons]
      tauto
    · simp only [if_neg same,map_cons,mem_cons,ih]
      tauto

variable {table : List (κ × ν)}

theorem map_fst_put {key : κ} (inside : key ∈ table.map fst) (value : ν) :
    (put table key value).map fst = table.map fst := by
  induction table with
  | nil => cases inside
  | cons node table ih =>
    unfold put
    split
    · rfl
    next same =>
      rw [map_cons,map_cons,ih ((mem_cons.mp inside).resolve_left (Ne.symm same))]

theorem nodup_put (distinct : (table.map fst).Nodup) (key : κ) (value : ν) :
    ((put table key value).map fst).Nodup := by
  induction table with
  | nil => exact nodup_singleton key
  | cons node table ih =>
    rw [map_cons,nodup_cons] at distinct
    unfold put
    by_cases same : node.1 = key
    · rwa [if_pos same,map_cons,nodup_cons]
    · rw [if_neg same,map_cons,nodup_cons,mem_keys_put]
      exact ⟨fun inside => inside.elim same distinct.1, ih distinct.2⟩

variable [BEq κ] [LawfulBEq κ]

theorem lookup_step (name : κ) (data : ν) (table : List (κ × ν)) (k : κ) :
    ((name, data) :: table).lookup k = if k = name then some data else table.lookup k := by
  rw [lookup_cons]
  by_cases same : k = name
  · rw [if_pos same,beq_iff_eq.mpr same]
  · rw [if_neg same,beq_eq_false_iff_ne.mpr same]

variable {k : κ}

theorem lookup_none (absent : k ∉ table.map fst) : table.lookup k = none := by
  induction table with
  | nil => rfl
  | cons node table ih =>
    obtain ⟨name,data⟩ := node
    rw [map_cons,mem_cons] at absent
    rw [lookup_step,if_neg fun same => absent (Or.inl same)]
    exact ih fun inside => absent (Or.inr inside)

theorem lookup_mem (distinct : (table.map fst).Nodup) {node : κ × ν} (inside : node ∈ table) :
    table.lookup node.1 = some node.2 := by
  induction table with
  | nil => cases inside
  | cons first table ih =>
    rw [map_cons,nodup_cons] at distinct
    rw [lookup_step]
    rcases mem_cons.mp inside with rfl | later
    · rw [if_pos rfl]
    · have other : node.1 ≠ first.1 := fun same => distinct.1 (same ▸ mem_map_of_mem later)
      rw [if_neg other]
      exact ih distinct.2 later

theorem lookup_some_mem {v : ν} (found : table.lookup k = some v) : (k, v) ∈ table := by
  induction table with
  | nil => cases found
  | cons node table ih =>
    obtain ⟨name,data⟩ := node
    rw [lookup_step] at found
    split at found
    next here =>
      rw [here,Option.some.inj found]
      exact mem_cons_self
    · exact mem_cons_of_mem _ (ih found)

theorem lookup_filter (table : List (κ × ν)) (key k : κ) :
    (table.filter fun node => node.1 ≠ key).lookup k = if k = key then none else table.lookup k := by
  induction table with
  | nil => simp
  | cons node table ih =>
    obtain ⟨name,data⟩ := node
    rw [filter_cons,lookup_step]
    by_cases kept : name = key
    · subst kept
      rw [if_neg (by simp),ih]
      by_cases same : k = name
      · rw [if_pos same,if_pos same]
      · rw [if_neg same,if_neg same,if_neg same]
    · rw [if_pos (by simpa using kept),lookup_step,ih]
      by_cases same : k = name
      · subst same
        rw [if_pos rfl,if_neg kept,if_pos rfl]
      · rw [if_neg same,if_neg same]

theorem lookup_put (table : List (κ × ν)) (key : κ) (value : ν) (k : κ) :
    (put table key value).lookup k = if k = key then some value else table.lookup k := by
  induction table with
  | nil => exact lookup_step key value [] k
  | cons node table ih =>
    obtain ⟨name,data⟩ := node
    unfold put
    split
    next same =>
      rw [lookup_step,lookup_step,same]
      by_cases here : k = key
      · rw [if_pos here,if_pos here]
      · rw [if_neg here,if_neg here,if_neg here]
    next same =>
      rw [lookup_step,lookup_step,ih]
      by_cases here : k = name
      · rw [if_pos here,if_pos here,if_neg fun equal => same (here.symm.trans equal)]
      · rw [if_neg here,if_neg here]

theorem mem_keys_iff : k ∈ table.map fst ↔ ∃ v, table.lookup k = some v := by
  constructor
  · intro inside
    induction table with
    | nil => cases inside
    | cons node table ih =>
      obtain ⟨name,data⟩ := node
      rw [lookup_step]
      by_cases here : k = name
      · exact ⟨data,if_pos here⟩
      · rw [if_neg here]
        exact ih ((mem_cons.mp inside).resolve_left here)
  · intro found
    by_contra absent
    obtain ⟨v,known⟩ := found
    rw [lookup_none absent] at known
    cases known

end BitKeeper.Assoc
