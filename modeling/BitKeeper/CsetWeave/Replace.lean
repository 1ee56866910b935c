import BitKeeper.CsetWeave.Set

/-!
`weave_replace`: the weave is written from a list of entries, and the oldest
serial of every rootkey is known before the first block is written.
-/

namespace BitKeeper.CsetWeave

open List Function

theorem foldl_insert {α : Type} (key val : α → Nat) (l : List α) (h : Hash) (k : Nat) :
    l.foldl (fun h a => hash_insertU32U32 h (key a) (val a)) h k =
      (h k).or ((l.find? (fun a => key a = k)).map val) := by
  induction l generalizing h with
  | nil => simp
  | cons a rest ih =>
    rw [foldl_cons,ih]
    unfold hash_insertU32U32
    by_cases here : key a = k
    · subst here
      rw [find?_cons_of_pos (by simp)]
      cases present : h (key a) with
      | none => simp
      | some v => simp [present]
    · rw [find?_cons_of_neg (by simp [here])]
      split
      · rfl
      · rw [update_of_ne (fun equal => here equal.symm)]

/-- What `cset_mkList` hands over: newest cset first, a rootkey once in a cset, every deltakey on
its own. -/
structure Listed (s : Sccs) (cweave : List Entry) : Prop where
  sorted : cweave.Pairwise (fun a b => b.ser ≤ a.ser)
  inTable : ∀ item ∈ cweave, item.ser ≠ 0 ∧ item.ser ≤ s.table
  single : cweave.Pairwise (fun a b => a.ser = b.ser → a.rkoff ≠ b.rkoff)
  rootkey : ∀ item ∈ cweave, item.rkoff ∈ s.heap.uniq
  deltakey : ∀ item ∈ cweave, item.dkoff ≠ 0 ∧ item.dkoff ≤ s.heap.strs.length
  own : cweave.Pairwise (fun a b => a.dkoff ≠ b.dkoff)

theorem oldestSer_spec (cweave : List Entry) (sorted : cweave.Pairwise (fun a b => b.ser ≤ a.ser))
    (item : Entry) (member : item ∈ cweave) :
    ∃ first ∈ cweave, first.rkoff = item.rkoff ∧
      hash_fetchU32U32 (oldestSer cweave) item.rkoff = first.ser ∧ first.ser ≤ item.ser := by
  unfold hash_fetchU32U32 oldestSer
  rw [foldl_insert (fun entry : Entry => entry.rkoff) (fun entry : Entry => entry.ser)]
  cases looked : cweave.reverse.find? (fun entry => decide (entry.rkoff = item.rkoff)) with
  | none =>
    rw [find?_eq_none] at looked
    exact absurd (decide_eq_true rfl) (looked item (mem_reverse.mpr member))
  | some first =>
    have key : first.rkoff = item.rkoff := by simpa using find?_some looked
    refine ⟨first,mem_reverse.mp (mem_of_find?_eq_some looked),key,by simp,?_⟩
    rw [find?_eq_some_iff_append] at looked
    obtain ⟨_,earlier,later,split,plain⟩ := looked
    have reversed : cweave.reverse.Pairwise (fun a b => a.ser ≤ b.ser) := pairwise_reverse.mpr sorted
    rw [split,pairwise_append,pairwise_cons] at reversed
    have place := mem_reverse.mpr member
    rw [split] at place
    rcases mem_append.mp place with front | back
    · have not := plain item front
      simp at not
    · rcases mem_cons.mp back with same | after
      · rw [same]
      · exact reversed.2.1.1 item after

def Entry.item (first : Hash) (entry : Entry) : Item :=
  { rk := entry.rkoff, dk := entry.dkoff
    mark := decide (hash_fetchU32U32 first entry.rkoff = entry.ser) }

def entriesAt (cweave : List Entry) (d : Nat) : List Entry := cweave.filter (fun item => item.ser = d)

def pageOf (first : Hash) (cweave : List Entry) : Book :=
  fun d => if entriesAt cweave d = [] then none else
    some ((entriesAt cweave d).map (Entry.item first))

theorem replaceLoop_spec (first : Hash) (rest : List Entry) (d : Nat) (weave : Nat → Option Block)
    (sorted : rest.Pairwise (fun a b => b.ser ≤ a.ser)) (real : ∀ item ∈ rest, item.ser ≠ 0)
    (below : ∀ item ∈ rest, d = 0 ∨ item.ser ≤ d) (e : Nat) :
    replaceLoop first d weave rest e = if entriesAt rest e = [] then weave e
      else some ((if e = d then (weave e).getD [] else []) ++
        flat ((entriesAt rest e).map (Entry.item first))) := by
  induction rest generalizing d weave with
  | nil => rfl
  | cons entry rest ih =>
    rw [pairwise_cons] at sorted
    have under := below entry (by simp)
    rw [replaceLoop,ih _ _ sorted.2 (fun item member => real item (by simp [member]))
      (fun item member => .inr (sorted.1 item member))]
    have block : (entry.rkoff, entry.dkoff) ::
        (if hash_fetchU32U32 first entry.rkoff = entry.ser then [(entry.rkoff, 0)] else []) =
        (entry.item first).pairs := by
      unfold Item.pairs Entry.item
      simp
    rw [block]
    by_cases here : e = entry.ser
    · subst here
      have listed : entriesAt (entry :: rest) entry.ser = entry :: entriesAt rest entry.ser := by
        unfold entriesAt
        rw [filter_cons_of_pos (by simp)]
      rw [listed,if_neg (cons_ne_nil entry _),update_self,map_cons,flat_cons,if_pos rfl,
        Option.getD_some]
      have started : (if d ≠ entry.ser then [] else (weave entry.ser).getD []) =
          if entry.ser = d then (weave entry.ser).getD [] else [] := by
        by_cases same : d = entry.ser
        · rw [if_neg (not_not.mpr same),if_pos same.symm]
        · rw [if_pos same,if_neg (fun equal => same equal.symm)]
      rw [started]
      split
      · rename_i empty
        rw [empty]
        simp [flat]
      · rw [append_assoc]
    · have listed : entriesAt (entry :: rest) e = entriesAt rest e := by
        unfold entriesAt
        rw [filter_cons_of_neg (by simp [Ne.symm here])]
      rw [listed,update_of_ne here,if_neg here]
      by_cases empty : entriesAt rest e = []
      · rw [if_pos empty,if_pos empty]
      rw [if_neg empty,if_neg empty]
      have different : e ≠ d := by
        obtain ⟨item,member⟩ := exists_mem_of_ne_nil _ empty
        unfold entriesAt at member
        rw [mem_filter] at member
        have serial : item.ser = e := of_decide_eq_true member.2
        have before := sorted.1 item member.1
        have nonzero := real item (by simp [member.1])
        omega
      rw [if_neg different]

variable {cweave : List Entry}

theorem pageOf_some {first : Hash} {d : Nat} {items : List Item}
    (here : pageOf first cweave d = some items) :
    items = (entriesAt cweave d).map (Entry.item first) := by
  unfold pageOf at here
  split at here
  · cases here
  · exact (Option.some.inj here).symm

theorem pageOf_entry {first : Hash} {d : Nat} {items : List Item} {item : Item}
    (here : pageOf first cweave d = some items) (member : item ∈ items) :
    ∃ entry ∈ cweave, entry.ser = d ∧ item = entry.item first := by
  rw [pageOf_some here] at member
  obtain ⟨entry,listed,same⟩ := mem_map.mp member
  unfold entriesAt at listed
  rw [mem_filter] at listed
  exact ⟨entry,listed.1,of_decide_eq_true listed.2,same.symm⟩

private theorem pageOf_mem (first : Hash) {entry : Entry} (member : entry ∈ cweave) :
    ∃ items, pageOf first cweave entry.ser = some items ∧ entry.item first ∈ items := by
  have listed : entry ∈ entriesAt cweave entry.ser := by
    unfold entriesAt
    rw [mem_filter]
    exact ⟨member,decide_eq_true rfl⟩
  refine ⟨(entriesAt cweave entry.ser).map (Entry.item first),?_,mem_map.mpr ⟨entry,listed,rfl⟩⟩
  unfold pageOf
  rw [if_neg (ne_nil_of_mem listed)]

private theorem eq_of_pairwise_ne {α β : Type} {l : List α} {f : α → β}
    (distinct : l.Pairwise (fun a b => f a ≠ f b)) {a b : α} (inA : a ∈ l) (inB : b ∈ l)
    (same : f a = f b) : a = b :=
  inj_on_of_nodup_map (List.Pairwise.map f (fun _ _ different => different) distinct) inA inB same

theorem weave_replace_holds {s : Sccs} (valid : s.heap.Valid) (cweave : List Entry)
    (listed : Listed s cweave) :
    Holds (weave_replace s cweave) (pageOf (oldestSer cweave) cweave) ∧
      AllMarked (weave_replace s cweave).weave := by
  have blocks : ∀ d, (weave_replace s cweave).weave d = (pageOf (oldestSer cweave) cweave d).map
      flat := by
    intro d
    change replaceLoop (oldestSer cweave) 0 (fun _ => none) cweave d = _
    rw [replaceLoop_spec _ cweave 0 _ listed.sorted
      (fun item member => (listed.inTable item member).1)
      (fun _ _ => .inl rfl)]
    unfold pageOf
    split
    · rfl
    · simp
  have shaped : (pageOf (oldestSer cweave) cweave).Shaped := by
    intro d items here
    constructor
    · rw [pageOf_some here,map_map]
      apply pairwise_map.mpr
      apply List.Pairwise.imp_of_mem _ (listed.single.filter _)
      intro a b inA inB different
      rw [mem_filter] at inA inB
      exact different ((of_decide_eq_true inA.2).trans (of_decide_eq_true inB.2).symm)
    · intro item member
      obtain ⟨entry,inList,_,rfl⟩ := pageOf_entry here member
      exact (listed.deltakey entry inList).1
  have oldest : ∀ d items item, pageOf (oldestSer cweave) cweave d = some items → item ∈ items →
      ∃ first ∈ cweave, first.rkoff = item.rk ∧ (first.item (oldestSer cweave)).mark = true ∧
        (item.mark = true → first.ser = d) ∧
        ∀ e, (pageOf (oldestSer cweave) cweave).Has e item.rk → first.ser ≤ e := by
    intro d items item here member
    obtain ⟨entry,inList,serial,rfl⟩ := pageOf_entry here member
    obtain ⟨first,inFirst,key,fetched,_⟩ := oldestSer_spec cweave listed.sorted entry inList
    refine ⟨first,inFirst,key,?_,?_,?_⟩
    · unfold Entry.item
      rw [key,fetched]
      simp
    · intro marked
      have equal : hash_fetchU32U32 (oldestSer cweave) entry.rkoff = entry.ser :=
        of_decide_eq_true marked
      exact fetched.symm.trans (equal.trans serial)
    · rintro e ⟨others,page,inPage⟩
      obtain ⟨other,inOthers,same⟩ := mem_map.mp inPage
      obtain ⟨entry',inList',serial',rfl⟩ := pageOf_entry page inOthers
      obtain ⟨_,_,_,fetched',le⟩ := oldestSer_spec cweave listed.sorted entry' inList'
      have sameKey : entry'.rkoff = entry.rkoff := same
      rw [sameKey,fetched] at fetched'
      omega
  refine ⟨⟨⟨blocks,valid,shaped,⟨?_,?_,?_,?_⟩⟩,?_⟩,?_⟩
  · intro d items here
    unfold pageOf at here
    split at here
    · cases here
    rename_i nonempty
    obtain ⟨entry,member⟩ := exists_mem_of_ne_nil _ nonempty
    unfold entriesAt at member
    rw [mem_filter] at member
    rw [← of_decide_eq_true member.2]
    exact listed.inTable entry member.1
  · intro d items item here member
    obtain ⟨entry,inList,_,rfl⟩ := pageOf_entry here member
    exact listed.rootkey entry inList
  · intro d items item here member
    obtain ⟨entry,inList,_,rfl⟩ := pageOf_entry here member
    exact (listed.deltakey entry inList).2
  · intro d items item d' items' item' here member here' member' same
    obtain ⟨entry,inList,serial,rfl⟩ := pageOf_entry here member
    obtain ⟨entry',inList',serial',rfl⟩ := pageOf_entry here' member'
    have equal := eq_of_pairwise_ne listed.own inList inList' same
    subst equal
    exact ⟨serial.symm.trans serial',rfl⟩
  · intro d items item here member marked e less has
    obtain ⟨first,_,_,_,serial,least⟩ := oldest d items item here member
    have bound := least e has
    rw [serial marked] at bound
    omega
  · intro d block rk dk here member
    rw [blocks,Option.map_eq_some_iff] at here
    obtain ⟨items,page,rfl⟩ := here
    obtain ⟨item,inItems,same,_⟩ := (mem_flat items rk dk).mp member
    obtain ⟨first,inFirst,key,marked,_,_⟩ := oldest d items item page inItems
    obtain ⟨others,pageFirst,inPage⟩ := pageOf_mem (oldestSer cweave) inFirst
    refine ⟨first.ser,flat others,by rw [blocks,pageFirst]; rfl,?_⟩
    exact (mem_flat _ _ _).mpr ⟨_,inPage,key.trans same,.inr ⟨marked,rfl⟩⟩

end BitKeeper.CsetWeave
