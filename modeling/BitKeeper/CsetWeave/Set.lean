import BitKeeper.CsetWeave.Marks

/-!
The heap only grows, so an offset keeps its string, and a rootkey its offset.
With that a new cset is one more page of the book.
-/

namespace BitKeeper.CsetWeave

open List Function

variable {h : Heap}

theorem Heap.Valid.found (valid : h.Valid) (key : Key) (off : Nat) (nonzero : off ≠ 0) :
    sccs_hasRootkey h key = off ↔ off ∈ h.uniq ∧ h.strs[off - 1]? = some key := by
  unfold sccs_hasRootkey
  constructor
  · intro same
    cases looked : h.uniq.find? (fun off => decide (h.strs[off - 1]? = some key)) with
    | none =>
      rw [looked] at same
      exact absurd same.symm nonzero
    | some at_ =>
      rw [looked,Option.getD_some] at same
      subst same
      exact ⟨mem_of_find?_eq_some looked,by simpa using find?_some looked⟩
  · intro both
    cases looked : h.uniq.find? (fun off => decide (h.strs[off - 1]? = some key)) with
    | none =>
      rw [find?_eq_none] at looked
      exact absurd (decide_eq_true both.2) (looked off both.1)
    | some at_ =>
      have string : h.strs[at_ - 1]? = some key := by simpa using find?_some looked
      exact valid.distinct at_ (mem_of_find?_eq_some looked) off both.1
        (string.trans both.2.symm)

theorem Heap.Valid.absent (valid : h.Valid) (key : Key) (off : Nat) (zero : sccs_hasRootkey h key = 0)
    (member : off ∈ h.uniq) : h.strs[off - 1]? ≠ some key := by
  intro string
  have nonzero := (valid.inside off member).1
  have found := (valid.found key off nonzero).mpr ⟨member,string⟩
  exact nonzero (found.symm.trans zero)

theorem Heap.Valid.key_inj (valid : h.Valid) (a b : Key) (nonzero : sccs_hasRootkey h a ≠ 0)
    (same : sccs_hasRootkey h a = sccs_hasRootkey h b) : a = b := by
  have first := ((valid.found a _ nonzero).mp rfl).2
  have second := ((valid.found b _ nonzero).mp same.symm).2
  rw [first] at second
  exact Option.some.inj second

structure Heap.Le (h h' : Heap) : Prop where
  strs : h.strs <+: h'.strs
  uniq : h.uniq ⊆ h'.uniq

theorem Heap.Le.refl (h : Heap) : h.Le h := ⟨prefix_rfl,fun _ member => member⟩

theorem Heap.Le.trans {a b c : Heap} (first : a.Le b) (second : b.Le c) : a.Le c :=
  ⟨first.strs.trans second.strs,fun _ member => second.uniq (first.uniq member)⟩

variable {h' : Heap}

theorem Heap.Le.length (le : h.Le h') : h.strs.length ≤ h'.strs.length := le.strs.length_le

theorem Heap.Le.str (le : h.Le h') (i : Nat) (inside : i < h.strs.length) :
    h'.strs[i]? = h.strs[i]? := by
  obtain ⟨more,same⟩ := le.strs
  rw [← same,getElem?_append_left inside]

theorem Heap.Le.hasRootkey (le : h.Le h') (valid : h.Valid) (valid' : h'.Valid) (key : Key)
    (nonzero : sccs_hasRootkey h key ≠ 0) : sccs_hasRootkey h' key = sccs_hasRootkey h key := by
  have both := (valid.found key _ nonzero).mp rfl
  have inside := valid.inside _ both.1
  apply (valid'.found key _ nonzero).mpr
  exact ⟨le.uniq both.1,(le.str _ (by omega)).trans both.2⟩

theorem Heap.le_append (h : Heap) (more : List Key) : h.Le { h with strs := h.strs ++ more } :=
  ⟨prefix_append _ _,fun _ member => member⟩

theorem Heap.Valid.append (valid : h.Valid) (more : List Key) :
    Heap.Valid { h with strs := h.strs ++ more } := by
  have le := h.le_append more
  constructor
  · intro off member
    have inside := valid.inside off member
    have grown := le.length
    omega
  · intro a inA b inB same
    have insideA := valid.inside a inA
    have insideB := valid.inside b inB
    rw [le.str _ (by omega),le.str _ (by omega)] at same
    exact valid.distinct a inA b inB same

theorem addStr_le (h : Heap) (str : Key) : h.Le (sccs_addStr h str) := h.le_append [str]

theorem addStr_valid (valid : h.Valid) (str : Key) : (sccs_addStr h str).Valid := valid.append [str]

theorem addUniq_le (h : Heap) (key : Key) : h.Le (sccs_addUniqRootkey h key) := by
  unfold sccs_addUniqRootkey
  split
  · exact Heap.Le.refl h
  · exact ⟨prefix_append _ _,fun _ member => mem_cons_of_mem _ member⟩

theorem addUniq_valid (valid : h.Valid) (key : Key) : (sccs_addUniqRootkey h key).Valid := by
  unfold sccs_addUniqRootkey
  split
  · exact valid
  rename_i missing
  rw [not_not] at missing
  have old : ∀ off ∈ h.uniq, (h.strs ++ [key])[off - 1]? = h.strs[off - 1]? := by
    intro off member
    have inside := valid.inside off member
    rw [getElem?_append_left (by omega)]
  have new : (h.strs ++ [key])[h.len - 1]? = some key := by
    unfold Heap.len
    simp
  constructor
  · intro off member
    rcases mem_cons.mp member with fresh | before
    · rw [fresh]
      simp [Heap.len]
    · have inside := valid.inside off before
      rw [length_append]
      omega
  · intro a inA b inB same
    rcases mem_cons.mp inA with freshA | beforeA
    · rcases mem_cons.mp inB with freshB | beforeB
      · rw [freshA,freshB]
      · rw [freshA,new,old b beforeB] at same
        exact absurd same.symm (valid.absent key b missing beforeB)
    · rcases mem_cons.mp inB with freshB | beforeB
      · rw [freshB,new,old a beforeA] at same
        exact absurd same (valid.absent key a missing beforeA)
      · rw [old a beforeA,old b beforeB] at same
        exact valid.distinct a beforeA b beforeB same

theorem addUniq_found (valid : h.Valid) (key : Key) :
    sccs_hasRootkey (sccs_addUniqRootkey h key) key ≠ 0 := by
  by_cases known : sccs_hasRootkey h key = 0
  · have added := addUniq_valid valid key
    have len : h.len ≠ 0 := by
      unfold Heap.len
      omega
    unfold sccs_addUniqRootkey at added ⊢
    rw [if_neg (not_not.mpr known)] at added ⊢
    have found := (added.found key h.len len).mpr
      ⟨mem_cons_self,by simp [Heap.len]⟩
    rwa [found]
  · unfold sccs_addUniqRootkey
    rwa [if_pos known]

structure Written (h h' : Heap) (keys : List (Key × Key)) (items : List Item) : Prop where
  valid : h'.Valid
  le : h.Le h'
  fields : items.map (fun item => (item.rk, item.mark)) =
    keys.map (fun key => (sccs_hasRootkey h' key.1, (lastKey key.2).1))
  found : ∀ key ∈ keys, sccs_hasRootkey h' key.1 ≠ 0
  fresh : ∀ item ∈ items, h.strs.length < item.dk ∧ item.dk ≤ h'.strs.length
  increasing : items.Pairwise (fun a b => a.dk < b.dk)

private theorem weaveKeys_spec (keys : List (Key × Key)) (h : Heap) (valid : h.Valid) :
    ∃ items, (weaveKeys h keys).2 = flat items ∧ Written h (weaveKeys h keys).1 keys items := by
  induction keys generalizing h with
  | nil => exact ⟨[],rfl,valid,.refl h,rfl,by simp,by simp,.nil⟩
  | cons key rest ih =>
    obtain ⟨rkey,dkey⟩ := key
    have validRoot := addUniq_valid valid rkey
    have foundRoot := addUniq_found valid rkey
    have leRoot := addUniq_le h rkey
    rw [weaveKeys]
    dsimp only
    generalize sccs_addUniqRootkey h rkey = root at validRoot foundRoot leRoot ⊢
    obtain ⟨items,block,written⟩ := ih _ (addStr_valid validRoot (lastKey dkey).2)
    have leRest := (addStr_le root (lastKey dkey).2).trans written.le
    have kept := leRest.hasRootkey validRoot written.valid rkey foundRoot
    have grownRoot := leRoot.length
    have grownRest := written.le.length
    have own : (sccs_addStr root (lastKey dkey).2).strs.length = root.strs.length + 1 :=
      by simp [sccs_addStr]
    generalize weaveKeys (sccs_addStr root (lastKey dkey).2) rest =
      made at block written leRest kept grownRest ⊢
    refine ⟨⟨sccs_hasRootkey root rkey,root.len,(lastKey dkey).1⟩ :: items,?_,?_⟩
    · rw [flat_cons,← block]
      rfl
    refine ⟨written.valid,leRoot.trans leRest,?_,forall_mem_cons.mpr ⟨?_,written.found⟩,?_,?_⟩
    · rw [map_cons,map_cons,kept,written.fields]
    · rwa [kept]
    · refine forall_mem_cons.mpr ⟨?_,fun item later => ?_⟩
      · dsimp only [Heap.len]
        omega
      · have bounds := written.fresh item later
        omega
    · rw [pairwise_cons]
      refine ⟨?_,written.increasing⟩
      intro item member
      have bounds := written.fresh item member
      dsimp only [Heap.len]
      omega

variable {keys : List (Key × Key)} {items : List Item}

section
variable (written : Written h h' keys items)
include written

theorem Written.rks : items.map (·.rk) = keys.map (fun key => sccs_hasRootkey h' key.1) := by
  have firsts := congrArg (List.map Prod.fst) written.fields
  rwa [map_map,map_map] at firsts

theorem Written.item (item : Item) (member : item ∈ items) :
    ∃ key ∈ keys, item.rk = sccs_hasRootkey h' key.1 ∧ item.mark = (lastKey key.2).1 := by
  have image : (item.rk, item.mark) ∈ items.map (fun item => (item.rk, item.mark)) :=
    mem_map.mpr ⟨item,member,rfl⟩
  rw [written.fields] at image
  obtain ⟨key,listed,same⟩ := mem_map.mp image
  exact ⟨key,listed,(congrArg Prod.fst same).symm,(congrArg Prod.snd same).symm⟩

theorem Written.shaped (distinct : (keys.map (·.1)).Nodup) : Shaped items := by
  constructor
  · rw [written.rks]
    have through : keys.map (fun key => sccs_hasRootkey h' key.1) =
        (keys.map (·.1)).map (sccs_hasRootkey h') := by rw [map_map]; rfl
    rw [through]
    apply distinct.map_on
    intro a inA b _inB same
    obtain ⟨key,listed,rfl⟩ := mem_map.mp inA
    exact written.valid.key_inj _ b (written.found key listed) same
  · intro item member
    have bounds := written.fresh item member
    omega

end

theorem Filed.mono {table : Nat} {book : Book} (filed : Filed h table book) (le : h.Le h') :
    Filed h' table book := by
  refine ⟨filed.inTable,?_,?_,filed.own⟩
  · intro d items item here member
    exact le.uniq (filed.rootkey d items item here member)
  · intro d items item here member
    have inside := filed.deltakey d items item here member
    have grown := le.length
    omega

theorem Bound.weave_set {s : Sccs} {book : Book} (bound : Bound s book) (d : Nat)
    (inTable : d ≠ 0 ∧ d ≤ s.table) (keys : List (Key × Key)) (distinct : (keys.map (·.1)).Nodup)
    (free : book d = none) :
    ∃ items, Written s.heap (weave_set s d keys).heap keys items ∧
      Bound (weave_set s d keys) (update book d (some items)) := by
  obtain ⟨items,block,written⟩ := weaveKeys_spec keys s.heap bound.heap
  have filed := bound.filed.mono written.le
  have shaped := written.shaped distinct
  have page : ∀ e others, update book d (some items) e = some others →
      e = d ∧ others = items ∨ e ≠ d ∧ book e = some others := by
    intro e others found
    by_cases same : e = d
    · subst same
      rw [update_self] at found
      exact .inl ⟨rfl,(Option.some.inj found).symm⟩
    · rw [update_of_ne same] at found
      exact .inr ⟨same,found⟩
  refine ⟨items,written,?_,written.valid,?_,⟨?_,?_,?_,?_⟩⟩
  · intro e
    change update s.weave d (some (weaveKeys s.heap keys).2) e = _
    by_cases same : e = d
    · subst same
      rw [update_self,update_self,block]
      rfl
    · rw [update_of_ne same,update_of_ne same]
      exact bound.blocks e
  · intro e others found
    rcases page e others found with ⟨_,rfl⟩ | ⟨_,old⟩
    · exact shaped
    · exact bound.shaped e others old
  · intro e others found
    rcases page e others found with ⟨rfl,_⟩ | ⟨_,old⟩
    · exact inTable
    · exact filed.inTable e others old
  · intro e others item found member
    rcases page e others found with ⟨_,rfl⟩ | ⟨_,old⟩
    · obtain ⟨key,listed,same,_⟩ := written.item item member
      rw [same]
      exact ((written.valid.found key.1 _ (written.found key listed)).mp rfl).1
    · exact filed.rootkey e others item old member
  · intro e others item found member
    rcases page e others found with ⟨_,rfl⟩ | ⟨_,old⟩
    · exact (written.fresh item member).2
    · exact filed.deltakey e others item old member
  · intro e others item e' others' item' found member found' member' same
    -- old deltakeys lie below the new ones
    rcases page e others found with ⟨rfl,rfl⟩ | ⟨_,old⟩
    · rcases page e' others' found' with ⟨rfl,rfl⟩ | ⟨_,old'⟩
      · refine ⟨rfl,?_⟩
        have injective := inj_on_of_nodup_map (f := Item.dk)
          (List.Pairwise.map _ (fun _ _ less => Nat.ne_of_lt less) written.increasing)
        rw [injective member member' same]
      · have fresh := written.fresh item member
        have before := bound.filed.deltakey e' others' item' old' member'
        omega
    · rcases page e' others' found' with ⟨rfl,rfl⟩ | ⟨_,old'⟩
      · have fresh := written.fresh item' member'
        have before := bound.filed.deltakey e others item old member
        omega
      · exact filed.own e others item e' others' item' old member old' member' same

end BitKeeper.CsetWeave
