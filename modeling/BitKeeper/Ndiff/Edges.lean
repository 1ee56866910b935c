import BitKeeper.Ndiff.Unified

/-!
The order of the blocks, and that each one has the wanted context at both of its edges.
-/

namespace BitKeeper.Ndiff

open List Bytes Libdiff

variable {c x y : Nat} {s : Seg}

theorem blocksOf_start (firstL : 1 ≤ x) (firstR : 1 ≤ y) (tail : List Bytes) (more rest : List Seg) :
    ∀ b ∈ blocksOf c tail x y s more rest, x + s.skip c ≤ b.lstart ∧ y + s.skip c ≤ b.rstart := by
  fun_induction blocksOf c tail x y s more rest with
  | case1 =>
    refine forall_mem_singleton.mpr ?_
    rw [blockOf_lstart _ tail firstL,blockOf_rstart _ tail firstR]
    exact ⟨le_rfl,le_rfl⟩
  | case2 x y s more next rest wide ih =>
    refine forall_mem_cons.mpr ⟨?_,fun b later => ?_⟩
    · rw [blockOf_lstart more _ firstL,blockOf_rstart more _ firstR]
      exact ⟨le_rfl,le_rfl⟩
    have above := ih (by omega) (by omega) b later
    have skipped := skip_clip s c
    have oldLow : s.common.length ≤ (old (s :: more)).length := by
      rw [old_cons,length_append]
      omega
    have newLow : s.common.length ≤ (new (s :: more)).length := by
      rw [new_cons,length_append]
      omega
    omega
  | case3 _ _ _ _ _ _ _ ih => exact ih firstL firstR

theorem blocksOf_ordered (firstL : 1 ≤ x) (firstR : 1 ≤ y) (tail : List Bytes)
    (more rest : List Seg) :
    (blocksOf c tail x y s more rest).Pairwise fun a b => a.lend ≤ b.lstart ∧ a.rend ≤ b.rstart := by
  fun_induction blocksOf c tail x y s more rest with
  | case1 => exact pairwise_singleton _ _
  | case2 x y s more next rest wide ih =>
    refine .cons ?_ (ih (by omega) (by omega))
    intro b later
    have above := blocksOf_start (by omega) (by omega) tail [] rest b later
    have taken : (next.common.take c).length = min c next.common.length := length_take ..
    rw [blockOf_lend c y s more _ firstL,blockOf_rend c x s more _ firstR]
    unfold Seg.skip at above
    omega
  | case3 _ _ _ _ _ _ _ ih => exact ih firstL firstR

private theorem entries_last (s : Seg) (more : List Seg)
    (changed : ∀ seg ∈ s :: more, 0 < seg.dels.length + seg.adds.length) :
    ∃ init last, (s :: more).flatMap entries = init ++ [last] ∧ last.1 ≠ .context := by
  induction more generalizing s with
  | nil =>
    obtain ⟨first,last,mid,change,lastAt,_,tag⟩ := change_edges (changed s mem_cons_self)
    obtain ⟨init,whole⟩ := getLast?_eq_some_iff.mp lastAt
    refine ⟨inContext s.common ++ init,last,?_,tag⟩
    rw [flatMap_singleton]
    unfold entries
    rw [change,whole,append_assoc]
  | cons next more ih =>
    obtain ⟨init,last,whole,tag⟩ := ih next (forall_mem_cons.mp changed).2
    refine ⟨entries s ++ init,last,?_,tag⟩
    rw [flatMap_cons,whole,append_assoc]

theorem blockOf_trail (s : Seg) (more : List Seg) (post : List Bytes)
    (changed : ∀ seg ∈ s :: more, 0 < seg.dels.length + seg.adds.length) :
    (blockOf c x y s more post).trail = (post.take c).length := by
  have clipped : ∀ seg ∈ s.clip c :: more, 0 < seg.dels.length + seg.adds.length :=
    forall_mem_cons.mpr (forall_mem_cons.mp changed)
  obtain ⟨init,last,whole,tag⟩ := entries_last (s.clip c) more clipped
  have back : (blockOf c x y s more post).body.reverse = inContext (post.take c).reverse ++
      (last :: init.reverse) := by
    change (bodyOf c (s.clip c :: more) post).reverse = _
    unfold bodyOf inContext
    rw [whole,reverse_append,reverse_append,map_reverse]
    rfl
  unfold Block.trail
  rw [back,takeWhile_inContext]
  · exact (length_map ..).trans (length_reverse ..)
  · intro entry at_
    rwa [← Option.some.inj at_]

theorem nextChange_blocksOf (total : Nat) (firstL : 1 ≤ x) (tail : List Bytes)
    (changed : 0 < s.dels.length + s.adds.length) (more rest : List Seg) :
    nextChange total (blocksOf c tail x y s more rest) = x + s.common.length := by
  fun_induction blocksOf c tail x y s more rest with
  | case1 | case2 => exact blockOf_firstChange _ _ firstL changed
  | case3 _ _ _ _ _ _ _ ih => exact ih firstL changed

private theorem blockOf_changed (changed : 0 < s.dels.length + s.adds.length) (more : List Seg)
    (post : List Bytes) : ∃ line ∈ (blockOf c x y s more post).body, line.1 ≠ .context := by
  obtain ⟨first,_,mid,change,_,tag,_⟩ := change_edges changed
  refine ⟨first,?_,tag⟩
  refine mem_append_left _ (mem_append_left _ (mem_append_right _ ?_))
  change first ∈ s.dels.map _ ++ s.adds.map _
  rw [change]
  exact mem_cons_self

theorem edges_block {total : Nat} (firstL : 1 ≤ x) {more : List Seg} {post : List Bytes}
    (changed : ∀ seg ∈ s :: more, 0 < seg.dels.length + seg.adds.length) {blocks : List Block}
    (next : nextChange total blocks = x + (old (s :: more)).length + post.length)
    (later : Edges c total (x + (old (s :: more)).length) blocks) :
    Edges c total x (blockOf c x y s more post :: blocks) := by
  have taken : (post.take c).length = min c post.length := length_take ..
  have skipped := skip_clip s c
  have context : (s.clip c).common.length = min c s.common.length := by
    unfold Seg.skip at skipped
    omega
  have last : (blockOf c x y s more post).lastChange = x + (old (s :: more)).length := by
    unfold Block.lastChange
    rw [blockOf_lend c y s more post firstL,blockOf_trail s more post changed]
    omega
  have first := changed s mem_cons_self
  refine ⟨blockOf_changed first more post,?_,?_,last ▸ later⟩
  · rw [blockOf_lead more post first,blockOf_firstChange more post firstL first,context,
      Nat.add_sub_cancel_left]
  · rw [blockOf_trail s more post changed,last,next,taken,Nat.add_sub_cancel_left]

theorem edges_blocksOf {total : Nat} (firstL : 1 ≤ x) {tail : List Bytes} {more rest : List Seg}
    (changed : ∀ seg ∈ s :: more, 0 < seg.dels.length + seg.adds.length)
    (changes : ∀ seg ∈ rest, 0 < seg.dels.length + seg.adds.length)
    (size : total + 1 = x + (old (s :: more)).length + (old rest).length + tail.length) :
    Edges c total x (blocksOf c tail x y s more rest) := by
  induction rest generalizing x y s more with
  | nil => exact edges_block firstL changed size trivial
  | cons seg rest ih =>
    obtain ⟨first,later⟩ := forall_mem_cons.mp changes
    rw [old_cons seg,length_append,length_append] at size
    unfold blocksOf
    split
    · exact edges_block firstL changed (nextChange_blocksOf total (by omega) tail first [] rest)
        (ih (by omega) (forall_mem_singleton.mpr first) later
          (by rw [old_single,length_append]; omega))
    · refine ih firstL ?_ later ?_
      · intro other inside
        rw [← cons_append] at inside
        rcases mem_append.mp inside with before | last
        · exact changed other before
        · rwa [mem_singleton.mp last]
      · rw [← cons_append,old_concat,length_append,length_append]
        omega

end BitKeeper.Ndiff
