import BitKeeper.HashMerge.SetMerge

/-!
The three-way merge of hashes in `merge.c`. A lookup that fails leaves a length of zero behind, so
that a missing ancestor is equal to no value.
-/

namespace BitKeeper.HashMerge

open List Assoc Bytes Prod

/-- A memory hash: its nodes in the order of `EACH_HASH`; a string is kept with its zero byte. -/
structure Hash where
  nodes : List (Bytes × Bytes)
  distinct : (nodes.map fst).Nodup
deriving DecidableEq

namespace Hash

def fetchStr (h : Hash) (key : Bytes) : Option Bytes := h.nodes.lookup key

def deleteStr (h : Hash) (key : Bytes) : Hash where
  nodes := h.nodes.filter fun node => node.1 ≠ key
  distinct := h.distinct.sublist (filter_sublist.map fst)

def store (h : Hash) (key data : Bytes) : Hash where
  nodes := (key, data) :: (h.deleteStr key).nodes
  distinct := by
    rw [map_cons,nodup_cons]
    refine ⟨?_,(h.deleteStr key).distinct⟩
    intro inside
    obtain ⟨node,kept,same⟩ := mem_map.mp inside
    exact of_decide_eq_true (mem_filter.mp kept).2 same

def storeStr (h : Hash) (key text : Bytes) : Hash := h.store key (text ++ [0])

def empty : Hash := ⟨[],nodup_nil⟩

end Hash

def vlen : Option Bytes → Nat
  | none => 0
  | some data => data.length

def hdcmp (h1 h2 : Option Bytes) : Bool :=
  decide (vlen h1 = vlen h2) && decide ((h1.getD []).take (vlen h1) = (h2.getD []).take (vlen h1))

def cstring (data : Bytes) : Bytes := data.takeWhile fun c => c ≠ 0

def merge_strings (q : Sorter) (l : Bytes) (g : Option Bytes) (r : Bytes) : Bytes :=
  do_setmerge q (cstring l) ((g.map cstring).getD []) (cstring r)

def bothSides (q : Sorter) (hout : Hash) (key l : Bytes) (g : Option Bytes) (r : Bytes) : Hash :=
  if hdcmp (some l) (some r) then hout.store key l
  else if hdcmp (some l) g then hout.store key r
  else if hdcmp (some r) g then hout.store key l
  else hout.storeStr key (merge_strings q l g r)

def oneSide (hout : Hash) (key data : Bytes) (g : Option Bytes) : Hash :=
  if hdcmp (some data) g then hout else hout.store key data

def leftLoop (q : Sorter) (g : Hash) : List (Bytes × Bytes) → Hash → Hash → Option (Hash × Hash)
  | [], h2, hout => some (h2, hout)
  | (key, data) :: rest, h2, hout =>
    if 0 < data.length then
      match h2.fetchStr key with
      | some r => leftLoop q g rest (h2.deleteStr key) (bothSides q hout key data (g.fetchStr key) r)
      | none => leftLoop q g rest h2 (oneSide hout key data (g.fetchStr key))
    else none

def rightLoop (g : Hash) (nodes : List (Bytes × Bytes)) (hout : Hash) : Hash :=
  nodes.foldl (fun hout node => oneSide hout node.1 node.2 (g.fetchStr node.1)) hout

def do_hashmerge (q : Sorter) (l g r : Hash) : Option Hash :=
  match leftLoop q g l.nodes r Hash.empty with
  | none => none
  | some (h2, hout) => some (rightLoop g h2.nodes hout)

namespace Hash

theorem fetchStr_deleteStr (h : Hash) (key k : Bytes) :
    (h.deleteStr key).fetchStr k = if k = key then none else h.fetchStr k :=
  lookup_filter h.nodes key k

theorem fetchStr_store (h : Hash) (key data k : Bytes) :
    (h.store key data).fetchStr k = if k = key then some data else h.fetchStr k := by
  have tail := h.fetchStr_deleteStr key k
  unfold fetchStr at tail ⊢
  unfold store
  rw [lookup_step,tail]
  by_cases same : k = key
  · rw [if_pos same,if_pos same]
  · rw [if_neg same,if_neg same,if_neg same]

def Filled (h : Hash) : Prop := ∀ key data, h.fetchStr key = some data → 0 < data.length

end Hash

theorem hdcmp_iff {data : Bytes} (filled : 0 < data.length) (other : Option Bytes) :
    hdcmp (some data) other = true ↔ other = some data := by
  cases other with
  | none =>
    have apart : vlen (some data) ≠ vlen none := Nat.pos_iff_ne_zero.mp filled
    simp [hdcmp,apart]
  | some word =>
    change (decide (data.length = word.length) &&
      decide (data.take data.length = word.take data.length)) = true ↔ _
    rw [Bool.and_eq_true,decide_eq_true_iff,decide_eq_true_iff,take_length,Option.some.injEq]
    constructor
    · intro both
      rw [both.1,take_length] at both
      exact both.2.symm
    · intro same
      subst same
      exact ⟨rfl,take_length.symm⟩

def mergeKey (q : Sorter) : Option Bytes → Option Bytes → Option Bytes → Option Bytes
  | some l, g, some r =>
    if l = r then some l
    else if g = some l then some r
    else if g = some r then some l
    else some (merge_strings q l g r ++ [0])
  | some l, g, none => if g = some l then none else some l
  | none, g, some r => if g = some r then none else some r
  | none, _, none => none

theorem mergeKey_both (q : Sorter) (l r : Bytes) (g : Option Bytes) : mergeKey q (some l) g (some r) =
    if l = r then some l else if g = some l then some r else if g = some r then some l
    else some (merge_strings q l g r ++ [0]) := rfl

private theorem bothSides_fetchStr (q : Sorter) (hout : Hash) {l r : Bytes} (filledL : 0 < l.length)
    (filledR : 0 < r.length) (key : Bytes) (g : Option Bytes) (k : Bytes) :
    (bothSides q hout key l g r).fetchStr k =
      if k = key then mergeKey q (some l) g (some r) else hout.fetchStr k := by
  unfold bothSides
  rw [mergeKey_both]
  have sides : hdcmp (some l) (some r) = true ↔ l = r :=
    by rw [hdcmp_iff filledL,Option.some.injEq,eq_comm]
  by_cases equal : l = r
  · rw [if_pos (sides.mpr equal),if_pos equal,Hash.fetchStr_store]
  rw [if_neg (fun same => equal (sides.mp same)), if_neg equal]
  by_cases left : g = some l
  · rw [if_pos ((hdcmp_iff filledL g).mpr left),if_pos left,Hash.fetchStr_store]
  rw [if_neg (fun same => left ((hdcmp_iff filledL g).mp same)), if_neg left]
  by_cases right : g = some r
  · rw [if_pos ((hdcmp_iff filledR g).mpr right),if_pos right,Hash.fetchStr_store]
  · rw [if_neg (fun same => right ((hdcmp_iff filledR g).mp same)), if_neg right]
    unfold Hash.storeStr
    rw [Hash.fetchStr_store]

variable {hout : Hash}

theorem oneSide_fetchStr {key data : Bytes} (filled : 0 < data.length)
    (fresh : hout.fetchStr key = none) (g : Option Bytes) (k : Bytes) :
    (oneSide hout key data g).fetchStr k =
      if k = key then (if g = some data then none else some data) else hout.fetchStr k := by
  unfold oneSide
  by_cases same : g = some data
  · rw [if_pos ((hdcmp_iff filled g).mpr same),if_pos same]
    by_cases here : k = key
    · rw [if_pos here,here,fresh]
    · rw [if_neg here]
  · rw [if_neg (fun equal => same ((hdcmp_iff filled g).mp equal)), if_neg same,Hash.fetchStr_store]

private theorem leftLoop_spec (q : Sorter) (g : Hash) {nodes : List (Bytes × Bytes)}
    (distinct : (nodes.map fst).Nodup) (filled : ∀ node ∈ nodes, 0 < node.2.length) {h2 : Hash}
    (filledR : h2.Filled) (fresh : ∀ k ∈ nodes.map fst, hout.fetchStr k = none) :
    ∃ h2' hout', leftLoop q g nodes h2 hout = some (h2', hout') ∧
      (∀ k, h2'.fetchStr k = if k ∈ nodes.map fst then none else h2.fetchStr k) ∧
      (∀ k, hout'.fetchStr k = if k ∈ nodes.map fst
        then mergeKey q (nodes.lookup k) (g.fetchStr k) (h2.fetchStr k) else hout.fetchStr k) := by
  induction nodes generalizing h2 hout with
  | nil => exact ⟨h2,hout,rfl,fun k => rfl, fun k => rfl⟩
  | cons node nodes ih =>
    obtain ⟨key,data⟩ := node
    rw [map_cons,nodup_cons] at distinct
    have here : 0 < data.length := filled (key, data) mem_cons_self
    have unfilled : hout.fetchStr key = none := fresh key mem_cons_self
    -- what one turn leaves for the rest
    have turn : ∃ h2s houts, leftLoop q g ((key, data) :: nodes) h2 hout = leftLoop q g nodes
      h2s houts ∧
        (∀ k, h2s.fetchStr k = if k = key then none else h2.fetchStr k) ∧
        (∀ k, houts.fetchStr k = if k = key
          then mergeKey q (some data) (g.fetchStr key) (h2.fetchStr key) else hout.fetchStr k) := by
      cases found : h2.fetchStr key with
      | none =>
        refine ⟨h2,oneSide hout key data (g.fetchStr key),?_,?_,?_⟩
        · conv_lhs => unfold leftLoop
          rw [if_pos here,found]
        · intro k
          by_cases same : k = key
          · rw [if_pos same,same,found]
          · rw [if_neg same]
        · exact oneSide_fetchStr here unfilled _
      | some r =>
        refine ⟨h2.deleteStr key,bothSides q hout key data (g.fetchStr key) r,?_,?_,?_⟩
        · conv_lhs => unfold leftLoop
          rw [if_pos here,found]
        · exact h2.fetchStr_deleteStr key
        · exact bothSides_fetchStr q hout here (filledR key r found) key _
    obtain ⟨h2s,houts,equation,right,out⟩ := turn
    have filledS : h2s.Filled := by
      intro k word found
      rw [right] at found
      split at found
      · cases found
      · exact filledR k word found
    have freshS : ∀ k ∈ nodes.map fst, houts.fetchStr k = none := by
      intro k inside
      have other : k ≠ key := fun same => distinct.1 (same ▸ inside)
      rw [out,if_neg other]
      exact fresh k (mem_cons_of_mem key inside)
    obtain ⟨h2',hout',rest,rightRest,outRest⟩ := ih distinct.2
      (fun node inside => filled node (mem_cons_of_mem _ inside)) filledS freshS
    refine ⟨h2',hout',equation.trans rest,?_,?_⟩
    · intro k
      rw [rightRest,right]
      by_cases same : k = key
      · simp only [map_cons,mem_cons,same,true_or,if_true,ite_self]
      · simp only [map_cons,mem_cons,same,false_or,if_false]
    · intro k
      rw [outRest,right,out,lookup_step]
      by_cases same : k = key
      · subst same
        simp only [map_cons,mem_cons,true_or,if_true,distinct.1,if_false]
      · simp only [map_cons,mem_cons,same,false_or,if_false]

theorem rightLoop_fetchStr (g : Hash) {nodes : List (Bytes × Bytes)}
    (distinct : (nodes.map fst).Nodup) (filled : ∀ node ∈ nodes, 0 < node.2.length)
    (fresh : ∀ k ∈ nodes.map fst, hout.fetchStr k = none) (q : Sorter) (k : Bytes) :
    (rightLoop g nodes hout).fetchStr k = if k ∈ nodes.map fst
      then mergeKey q none (g.fetchStr k) (nodes.lookup k) else hout.fetchStr k := by
  induction nodes generalizing hout with
  | nil => rfl
  | cons node nodes ih =>
    obtain ⟨key,data⟩ := node
    rw [map_cons,nodup_cons] at distinct
    have here : 0 < data.length := filled (key, data) mem_cons_self
    have out := oneSide_fetchStr here (fresh key mem_cons_self) (g.fetchStr key)
    have freshS : ∀ k ∈ nodes.map fst, (oneSide hout key data (g.fetchStr key)).fetchStr k = none :=
        by
      intro k inside
      have other : k ≠ key := fun same => distinct.1 (same ▸ inside)
      rw [out,if_neg other]
      exact fresh k (mem_cons_of_mem key inside)
    change (rightLoop g nodes (oneSide hout key data (g.fetchStr key))).fetchStr k = _
    rw [ih distinct.2 (fun node inside => filled node (mem_cons_of_mem _ inside)) freshS, out,
      lookup_step]
    by_cases same : k = key
    · subst same
      simp only [map_cons,mem_cons,true_or,if_true,distinct.1,if_false]
      rfl
    · simp only [map_cons,mem_cons,same,false_or,if_false]

theorem Hash.Filled.nodes {h : Hash} (filled : h.Filled) : ∀ node ∈ h.nodes, 0 < node.2.length :=
  fun node inside => filled node.1 node.2 (lookup_mem h.distinct inside)

theorem do_hashmerge_fetchStr (q : Sorter) (l g r : Hash) (filledL : l.Filled) (filledR : r.Filled) :
    ∃ m, do_hashmerge q l g r = some m ∧
      ∀ k, m.fetchStr k = mergeKey q (l.fetchStr k) (g.fetchStr k) (r.fetchStr k) := by
  have start : ∀ k ∈ l.nodes.map fst, Hash.empty.fetchStr k = none := fun _ _ => rfl
  obtain ⟨h2,hout,run,right,out⟩ := leftLoop_spec q g l.distinct filledL.nodes filledR start
  have filled2 : h2.Filled := by
    intro k data found
    rw [right] at found
    split at found
    · cases found
    · exact filledR k data found
  have only : ∀ k ∈ h2.nodes.map fst, k ∉ l.nodes.map fst := by
    intro k inside left
    obtain ⟨node,listed,rfl⟩ := mem_map.mp inside
    have found : h2.fetchStr node.1 = some node.2 := lookup_mem h2.distinct listed
    rw [right,if_pos left] at found
    cases found
  have fresh : ∀ k ∈ h2.nodes.map fst, hout.fetchStr k = none := by
    intro k inside
    rw [out,if_neg (only k inside)]
    rfl
  refine ⟨rightLoop g h2.nodes hout,?_,?_⟩
  · unfold do_hashmerge
    rw [run]
  intro k
  rw [rightLoop_fetchStr g h2.distinct filled2.nodes fresh q,out]
  by_cases left : k ∈ l.nodes.map fst
  · rw [if_neg (fun inside => only k inside left), if_pos left]
    rfl
  rw [if_neg left]
  have missing : l.fetchStr k = none := lookup_none left
  have same : h2.fetchStr k = r.fetchStr k := by rw [right,if_neg left]
  by_cases inside : k ∈ h2.nodes.map fst
  · rw [if_pos inside,missing,← same]
    rfl
  · have gone : r.fetchStr k = none := same ▸ lookup_none inside
    rw [if_neg inside,missing,gone]
    rfl

end BitKeeper.HashMerge
