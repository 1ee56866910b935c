import BitKeeper.CsetWeave.Fast
import BitKeeper.CsetWeave.Compress
import BitKeeper.CsetWeave.Repack

/-!
The writers of the ChangeSet weave as one state machine: every writer leaves truthful markers, and
no assertion of `weave_updateMarker` fails on the way.
-/

namespace BitKeeper.CsetWeave

open Function

structure NewTip (s : Sccs) (d : Nat) (keys : List (Key × Key)) : Prop where
  inTable : d ≠ 0 ∧ d ≤ s.table
  newest : ∀ e block, s.weave e = some block → e < d
  single : (keys.map (·.1)).Nodup
  unseen : ∀ key ∈ keys, (lastKey key.2).1 = true → ∀ e block dk, s.weave e = some block →
    (sccs_hasRootkey s.heap key.1, dk) ∉ block

variable {s : Sccs} {book : Book}

private theorem weave_set_holds (holds : Holds s book) {d : Nat} {keys : List (Key × Key)}
    (tip : NewTip s d keys) :
    ∃ book', Holds (weave_set s d keys) book' := by
  have newest : ∀ e items, book e = some items → e < d := by
    intro e items here
    exact tip.newest e (flat items) (by rw [holds.blocks,here]; rfl)
  have free : book d = none := by
    cases here : book d with
    | none => rfl
    | some items => exact absurd (newest d items here) (lt_irrefl d)
  obtain ⟨items,written,bound⟩ := holds.toBound.weave_set d tip.inTable keys tip.single free
  refine ⟨_,bound,?_⟩
  rintro e page item found member marked older less ⟨olderItems,there,listed⟩
  by_cases top : e = d
  · subst top
    rw [update_self] at found
    cases found
    rw [update_of_ne (Nat.ne_of_lt less)] at there
    obtain ⟨other,inOlder,same⟩ := List.mem_map.mp listed
    obtain ⟨key,inKeys,offset,mark⟩ := written.item item member
    have filed := holds.filed.rootkey older olderItems other there inOlder
    have old := (holds.heap.inside other.rk filed)
    by_cases known : sccs_hasRootkey s.heap key.1 = 0
    · -- the rootkey came to the heap with this cset
      have string := ((written.valid.found key.1 _ (written.found key inKeys)).mp rfl).2
      rw [← offset,← same,written.le.str _ (by omega)] at string
      exact holds.heap.absent key.1 other.rk known filed string
    · have kept := written.le.hasRootkey holds.heap written.valid key.1 known
      apply tip.unseen key inKeys (mark ▸ marked) older (flat olderItems) other.dk
        (by rw [holds.blocks,there]; rfl)
      apply (mem_flat _ _ _).mpr
      exact ⟨other,inOlder,same.trans (offset.trans kept),.inl rfl⟩
  · rw [update_of_ne top] at found
    have below := newest e page found
    rw [update_of_ne (by omega)] at there
    exact holds.truthful e page item found member marked older less ⟨olderItems,there,listed⟩

inductive Op where
  | weave_set (d : Nat) (keys : List (Key × Key))
  | fastCsetWeave (weave : Patch)
  | scompressGraph (flags : Nat → Flag)
  | weave_replace (cweave : List Entry)
  | bin_heapRepack (changesetKey BAMkey : Key → Bool) (fields : Heap)

def Op.Allowed (s : Sccs) : Op → Prop
  | .weave_set d keys => NewTip s d keys
  | .fastCsetWeave weave => Remote s weave
  | .scompressGraph _ => True
  | .weave_replace cweave => Listed s cweave
  | .bin_heapRepack _ _ fields => fields.Valid

def Op.run (s : Sccs) : Op → Option Sccs
  | .weave_set d keys => some (CsetWeave.weave_set s d keys)
  | .fastCsetWeave weave => CsetWeave.fastCsetWeave s weave
  | .scompressGraph flags => CsetWeave.scompressGraph s flags
  | .weave_replace cweave => some (CsetWeave.weave_replace s cweave)
  | .bin_heapRepack changesetKey BAMkey fields =>
    some (CsetWeave.bin_heapRepack changesetKey BAMkey s fields)

def Op.rewrites : Op → Bool
  | .weave_replace _ => true
  | .bin_heapRepack _ _ _ => true
  | _ => false

theorem Op.run_holds (holds : Holds s book) (op : Op) (allowed : op.Allowed s) :
    ∃ after book', op.run s = some after ∧ Holds after book' ∧
      (op.rewrites = true → AllMarked after.weave) := by
  cases op with
  | weave_set d keys =>
    obtain ⟨book',kept⟩ := weave_set_holds holds allowed
    exact ⟨_,book',rfl,kept,by simp [Op.rewrites]⟩
  | fastCsetWeave weave =>
    obtain ⟨after,book',done,kept⟩ := fastCsetWeave_holds holds weave allowed
    exact ⟨after,book',done,kept,by simp [Op.rewrites]⟩
  | scompressGraph flags =>
    obtain ⟨after,book',done,kept⟩ := scompressGraph_holds holds flags
    exact ⟨after,book',done,kept,by simp [Op.rewrites]⟩
  | weave_replace cweave =>
    obtain ⟨kept,marked⟩ := weave_replace_holds holds.heap cweave allowed
    exact ⟨_,_,rfl,kept,fun _ => marked⟩
  | bin_heapRepack changesetKey BAMkey fields =>
    obtain ⟨book',kept,marked⟩ := bin_heapRepack_holds changesetKey BAMkey holds.toBound allowed
    exact ⟨_,book',rfl,kept,fun _ => marked⟩

def emptyWeave (table : Nat) : Sccs :=
  { heap := { strs := [], uniq := [] }, table := table, weave := fun _ => none }

theorem emptyWeave_good (table : Nat) : Good (emptyWeave table).weave ∧ Kept (emptyWeave table) := by
  constructor
  · constructor
    · intro d block i rk here
      cases here
    · intro d block i d' block' i' rk here
      cases here
  · refine ⟨⟨by simp [emptyWeave],by simp [emptyWeave]⟩,?_,?_,?_,?_,?_⟩ <;>
      intro d block <;> intros <;> contradiction

theorem lastkey_markers (s : Sccs) (good : Good s.weave) (kept : Kept s) (op : Op)
    (allowed : op.Allowed s) :
    ∃ after, op.run s = some after ∧ Good after.weave ∧ Kept after ∧
      (op.rewrites = true → AllMarked after.weave) := by
  obtain ⟨after,book,done,holds,marked⟩ := Op.run_holds (holds_of_good good kept) op allowed
  exact ⟨after,done,holds.good,holds.kept,marked⟩

/-- A file is created in the second cset; then a first cset with it comes from remote. -/
theorem lastkey_markers_older :
    ∃ first after, (Op.weave_set 2 [(['r'], ['|', 'd'])]).run (emptyWeave 2) = some first ∧
      (Op.fastCsetWeave [(1, [(['r'], ['k'])])]).run first = some after ∧
      Good after.weave ∧ Kept after := by
  obtain ⟨good,kept⟩ := emptyWeave_good 2
  have tip : NewTip (emptyWeave 2) 2 [(['r'], ['|', 'd'])] :=
    ⟨by decide,by simp [emptyWeave],by decide,by simp [emptyWeave]⟩
  obtain ⟨first,done,goodFirst,keptFirst,_⟩ :=
    lastkey_markers (emptyWeave 2) good kept (.weave_set 2 _) tip
  cases done
  have remote : Remote (weave_set (emptyWeave 2) 2 [(['r'], ['|', 'd'])]) [(1, [(['r'], ['k'])])] :=
      by
    refine ⟨by decide,by decide,?_,by decide,?_⟩
    · intro cset member
      rw [List.mem_singleton.mp member]
      rfl
    · intro cset member
      rw [List.mem_singleton.mp member]
      unfold PlainKeys
      decide
  obtain ⟨after,second,goodAfter,keptAfter,_⟩ :=
    lastkey_markers _ goodFirst keptFirst (.fastCsetWeave _) remote
  exact ⟨_,after,rfl,second,goodAfter,keptAfter⟩

end BitKeeper.CsetWeave
