import BitKeeper.CsetWeave.Clear

/-!
`fastCsetWeave`: the first pass notes where the patch has a rootkey first, the
walk decides which of these have nothing older, the last pass writes the pages
of the new csets and marks them.
-/

namespace BitKeeper.CsetWeave

open List Function

theorem addUniq_other {h : Heap} (valid : h.Valid) (key other : Key) (different : other ≠ key) :
    sccs_hasRootkey (sccs_addUniqRootkey h key) other = sccs_hasRootkey h other := by
  by_cases known : sccs_hasRootkey h key = 0
  · have added := addUniq_valid valid key
    have le := addUniq_le h key
    by_cases zero : sccs_hasRootkey h other = 0
    · rw [zero]
      by_contra present
      have both := (added.found other _ present).mp rfl
      generalize sccs_hasRootkey (sccs_addUniqRootkey h key) other = off at both
      unfold sccs_addUniqRootkey at both
      rw [if_neg (not_not.mpr known)] at both
      rcases mem_cons.mp both.1 with fresh | before
      · have string : (h.strs ++ [key])[off - 1]? = some key := by
          rw [fresh]
          simp [Heap.len]
        exact different (Option.some.inj (both.2.symm.trans string))
      · have inside := valid.inside off before
        have string : (h.strs ++ [key])[off - 1]? = h.strs[off - 1]? := by
          rw [getElem?_append_left (by omega)]
        exact valid.absent other off zero before (string.symm.trans both.2)
    · exact le.hasRootkey valid added other zero
  · unfold sccs_addUniqRootkey
    rw [if_pos known]

/-- The scan behind the rootkeys `seen`: one of the old heap is noted with its first serial, a new
one with zero. -/
structure Noted (old : Heap) (scan : Scan) (seen : List (Nat × Key)) : Prop where
  valid : scan.heap.Valid
  le : old.Le scan.heap
  known : ∀ r, sccs_hasRootkey scan.heap r ≠ 0 ↔ sccs_hasRootkey old r ≠ 0 ∨ r ∈ seen.map (·.2)
  hash : ∀ r, sccs_hasRootkey scan.heap r ≠ 0 → scan.hash (sccs_hasRootkey scan.heap r) =
    (seen.find? (fun p => p.2 = r)).map (fun p => if sccs_hasRootkey old r = 0 then 0 else p.1)
  domain : ∀ rk, (scan.hash rk).isSome → ∃ p ∈ seen, sccs_hasRootkey scan.heap p.2 = rk
  count : ∃ pending : Finset Nat, (∀ rk, rk ∈ pending ↔ hash_fetchU32U32 scan.hash rk ≠ 0) ∧
    scan.cnt = pending.card

private theorem noted_start {h : Heap} (valid : h.Valid) :
    Noted h { heap := h, hash := fun _ => none, cnt := 0 } [] := by
  refine ⟨valid,.refl h,by simp,by simp,by simp,∅,?_,rfl⟩
  intro rk
  simp [hash_fetchU32U32]

section Note
variable {old : Heap} {scan : Scan} {seen : List (Nat × Key)}

theorem find?_snoc (d : Nat) (key r : Key) (different : r ≠ key) :
    (seen ++ [(d, key)]).find? (fun p => p.2 = r) = seen.find? (fun p => p.2 = r) := by
  rw [find?_append,find?_singleton,if_neg,Option.or_none]
  simp only [decide_eq_true_eq]
  exact fun same => different same.symm

theorem find?_seen_none (r : Key) (none : seen.find? (fun p => p.2 = r) = none) :
    r ∉ seen.map (·.2) := by
  intro member
  obtain ⟨p,listed,same⟩ := mem_map.mp member
  exact (find?_eq_none.mp none p listed) (decide_eq_true same)

theorem Noted.put (noted : Noted old scan seen) {heap : Heap} (valid : heap.Valid)
    (le : scan.heap.Le heap) {rkey : Key} (own : sccs_hasRootkey heap rkey ≠ 0)
    (others : ∀ r, r ≠ rkey → sccs_hasRootkey heap r = sccs_hasRootkey scan.heap r)
    (unseen : rkey ∉ seen.map (·.2)) (d value : Nat)
    (is : value = if sccs_hasRootkey old rkey = 0 then 0 else d) :
    Noted old ⟨heap,hash_insertU32U32 scan.hash (sccs_hasRootkey heap rkey) value,
      if value = 0 then scan.cnt else scan.cnt + 1⟩ (seen ++ [(d, rkey)]) := by
  have absent : seen.find? (fun p => decide (p.2 = rkey)) = none := by
    rw [find?_eq_none]
    intro p listed same
    exact unseen (mem_map.mpr ⟨p,listed,of_decide_eq_true same⟩)
  have seenOff : ∀ p ∈ seen, sccs_hasRootkey heap p.2 = sccs_hasRootkey scan.heap p.2 := by
    intro p listed
    apply others
    intro same
    exact unseen (mem_map.mpr ⟨p,listed,same⟩)
  have none : scan.hash (sccs_hasRootkey heap rkey) = none := by
    by_contra present
    obtain ⟨p,listed,same⟩ := noted.domain _ (Option.isSome_iff_ne_none.mpr present)
    rw [← seenOff p listed] at same
    have equal := valid.key_inj rkey p.2 own same.symm
    exact unseen (mem_map.mpr ⟨p,listed,equal.symm⟩)
  unfold hash_insertU32U32
  rw [if_neg (by rw [none]; simp)]
  refine ⟨valid,noted.le.trans le,?_,?_,?_,?_⟩
  · intro r
    rw [map_append,mem_append]
    by_cases same : r = rkey
    · subst same
      simp [own]
    · rw [others r same,noted.known r]
      simp [same]
  · intro r found
    dsimp only
    by_cases same : r = rkey
    · subst same
      rw [update_self,find?_append,absent,Option.none_or,is]
      simp
    have different : sccs_hasRootkey heap r ≠ sccs_hasRootkey heap rkey :=
      fun equal => same (valid.key_inj r rkey found equal)
    rw [update_of_ne different,find?_snoc d rkey r same]
    rw [others r same] at found ⊢
    exact noted.hash r found
  · intro rk some
    dsimp only at some
    by_cases here : rk = sccs_hasRootkey heap rkey
    · exact ⟨(d, rkey),by simp,here.symm⟩
    · rw [update_of_ne here] at some
      obtain ⟨p,listed,same⟩ := noted.domain rk some
      exact ⟨p,mem_append_left _ listed,(seenOff p listed).trans same⟩
  · obtain ⟨pending,members,card⟩ := noted.count
    have out : sccs_hasRootkey heap rkey ∉ pending := by
      rw [members,hash_fetchU32U32,none]
      simp
    refine ⟨if value = 0 then pending else insert (sccs_hasRootkey heap rkey) pending,?_,?_⟩
    · intro rk
      unfold hash_fetchU32U32 at members ⊢
      dsimp only
      by_cases here : rk = sccs_hasRootkey heap rkey
      · rw [here,update_self]
        split <;> simp_all
      · rw [update_of_ne here,← members]
        split <;> simp [here]
    · rw [card]
      split
      · rfl
      · exact (Finset.card_insert_of_notMem out).symm

theorem Noted.again (noted : Noted old scan seen) (d : Nat) (nonzero : d ≠ 0) (rkey : Key)
    (found : sccs_hasRootkey scan.heap rkey ≠ 0) :
    Noted old
      { scan with
        hash := hash_insertU32U32 scan.hash (sccs_hasRootkey scan.heap rkey) d
        cnt := if (scan.hash (sccs_hasRootkey scan.heap rkey)).isSome then scan.cnt
          else scan.cnt + 1 }
      (seen ++ [(d, rkey)]) := by
  have atKey := noted.hash rkey found
  by_cases present : (scan.hash (sccs_hasRootkey scan.heap rkey)).isSome
  · have first := present
    rw [atKey,Option.isSome_map] at first
    unfold hash_insertU32U32
    rw [if_pos present,if_pos present]
    refine ⟨noted.valid,noted.le,?_,?_,?_,noted.count⟩
    · intro r
      rw [noted.known r,map_append,mem_append]
      refine or_congr_right (or_iff_left_of_imp fun own => ?_).symm
      rw [show r = rkey by simpa using own]
      obtain ⟨p,listed,same⟩ := find?_isSome.mp first
      exact mem_map.mpr ⟨p,listed,of_decide_eq_true same⟩
    · intro r foundR
      rw [noted.hash r foundR]
      by_cases same : r = rkey
      · subst same
        rw [find?_append,Option.or_of_isSome first]
      · rw [find?_snoc d rkey r same]
    · intro rk some
      obtain ⟨p,listed,same⟩ := noted.domain rk some
      exact ⟨p,mem_append_left _ listed,same⟩
  · have unseen : rkey ∉ seen.map (·.2) := by
      rw [atKey,Option.isSome_map] at present
      exact find?_seen_none rkey (Option.not_isSome_iff_eq_none.mp present)
    have older := ((noted.known rkey).mp found).resolve_right unseen
    rw [if_neg present]
    have inserted :=
      noted.put noted.valid (.refl _) found (fun _ _ => rfl) unseen d d (if_neg older).symm
    rwa [if_neg nonzero] at inserted

theorem Noted.new (noted : Noted old scan seen) (d : Nat) (rkey : Key)
    (missing : sccs_hasRootkey scan.heap rkey = 0) :
    Noted old
      { scan with
        heap := sccs_addUniqRootkey scan.heap rkey
        hash := hash_insertU32U32 scan.hash
          (sccs_hasRootkey (sccs_addUniqRootkey scan.heap rkey) rkey) 0 }
      (seen ++ [(d, rkey)]) := by
  have older : sccs_hasRootkey old rkey = 0 := by
    by_contra present
    exact (noted.known rkey).mpr (.inl present) missing
  have unseen : rkey ∉ seen.map (·.2) := fun listed => (noted.known rkey).mpr (.inr listed) missing
  exact noted.put (addUniq_valid noted.valid rkey) (addUniq_le scan.heap rkey)
    (addUniq_found noted.valid rkey)
    (fun other => addUniq_other noted.valid rkey other) unseen d 0 (if_pos older).symm

def flagKeys (old : Heap) (seen : List Key) (keys : List (Key × Key)) : List (Key × Key) :=
  keys.map (fun key =>
    (key.1, if sccs_hasRootkey old key.1 = 0 ∧ key.1 ∉ seen then '|' :: key.2 else key.2))

def flagPatch (old : Heap) : List Key → Patch → Patch
  | _, [] => []
  | seen, (d, keys) :: newer =>
      (d, flagKeys old seen keys) :: flagPatch old (seen ++ keys.map (·.1)) newer

def patchKeys (patch : Patch) : List (Nat × Key) :=
  patch.flatMap (fun cset => cset.2.map (fun key => (cset.1, key.1)))

private theorem flagKeys_snoc (old : Heap) (seen : List Key) (rkey : Key) (keys : List (Key × Key))
    (absent : rkey ∉ keys.map (·.1)) :
    flagKeys old (seen ++ [rkey]) keys = flagKeys old seen keys := by
  apply map_congr_left
  intro key listed
  have different : key.1 ≠ rkey := fun same => absent (mem_map.mpr ⟨key,listed,same⟩)
  simp [different]

private theorem noteKeys_spec (d : Nat) (nonzero : d ≠ 0) (keys : List (Key × Key))
    (distinct : (keys.map (·.1)).Nodup) (noted : Noted old scan seen) :
    Noted old (noteKeys d scan keys).1 (seen ++ keys.map (fun key => (d, key.1))) ∧
      (noteKeys d scan keys).2 = flagKeys old (seen.map (·.2)) keys := by
  induction keys generalizing scan seen with
  | nil => exact ⟨by simpa [noteKeys] using noted,rfl⟩
  | cons key rest ih =>
    obtain ⟨rkey,dkey⟩ := key
    rw [map_cons,nodup_cons] at distinct
    have later : flagKeys old ((seen ++ [(d, rkey)]).map (·.2)) rest =
        flagKeys old (seen.map (·.2)) rest := by
      rw [map_append]
      exact flagKeys_snoc old (seen.map (·.2)) rkey rest distinct.1
    rw [map_cons,append_cons]
    by_cases found : sccs_hasRootkey scan.heap rkey = 0
    · obtain ⟨notedRest,flagged⟩ := ih distinct.2 (noted.new d rkey found)
      rw [noteKeys,if_neg (not_not.mpr found)]
      refine ⟨notedRest,?_⟩
      have unseen : sccs_hasRootkey old rkey = 0 ∧ rkey ∉ seen.map (·.2) := by
        have neither := mt (noted.known rkey).mpr (not_not.mpr found)
        exact ⟨not_not.mp (fun present => neither (.inl present)),
          fun listed => neither (.inr listed)⟩
      rw [later] at flagged
      unfold flagKeys at flagged ⊢
      rw [map_cons,if_pos unseen,← flagged]
    · obtain ⟨notedRest,flagged⟩ := ih distinct.2 (noted.again d nonzero rkey found)
      rw [noteKeys,if_pos found]
      refine ⟨notedRest,?_⟩
      have either : ¬ (sccs_hasRootkey old rkey = 0 ∧ rkey ∉ seen.map (·.2)) := by
        rintro ⟨absent,unseen⟩
        exact ((noted.known rkey).mp found).elim (fun present => present absent) unseen
      rw [later] at flagged
      unfold flagKeys at flagged ⊢
      rw [map_cons,if_neg either,← flagged]

theorem notePatch_spec (patch : Patch) (nonzero : ∀ cset ∈ patch, cset.1 ≠ 0)
    (distinct : ∀ cset ∈ patch, (cset.2.map (·.1)).Nodup) (noted : Noted old scan seen) :
    Noted old (notePatch scan patch).1 (seen ++ patchKeys patch) ∧
      (notePatch scan patch).2 = flagPatch old (seen.map (·.2)) patch := by
  induction patch generalizing scan seen with
  | nil => exact ⟨by simpa [notePatch,patchKeys] using noted,rfl⟩
  | cons cset newer ih =>
    obtain ⟨d,keys⟩ := cset
    obtain ⟨notedFirst,flagged⟩ :=
      noteKeys_spec d (nonzero (d, keys) (by simp)) keys (distinct (d, keys) (by simp)) noted
    obtain ⟨notedLater,flaggedLater⟩ := ih (fun other member => nonzero other (by simp [member]))
        (fun other member => distinct other (by simp [member])) notedFirst
    constructor
    · unfold patchKeys
      rwa [flatMap_cons,← append_assoc]
    · rw [notePatch,flagPatch]
      rw [flagged,flaggedLater,map_append,map_map]
      rfl

end Note

/-- The pages written for a patch: a mark stands where `due` holds at the first cset of the patch
with the rootkey. -/
structure Paged (off : Key → Nat) (due : Key → Prop) (seen : List Key) (patch : Patch)
    (before after : Book) : Prop where
  kept : ∀ e, e ∉ patch.map (·.1) → after e = before e
  written : ∀ d keys, (d, keys) ∈ patch → ∃ items, after d = some items ∧
    ∀ item ∈ items, ∃ key ∈ keys, item.rk = off key.1 ∧ (item.mark = true → due key.1 ∧ key.1 ∉ seen ∧
        ∀ cset ∈ patch, cset.1 < d → key.1 ∉ cset.2.map (·.1))

def PlainKeys (keys : List (Key × Key)) : Prop := ∀ key ∈ keys, (lastKey key.2).1 = false

theorem markKeys_spec (heap : Heap) (valid : heap.Valid) (keys : List (Key × Key))
    (found : ∀ key ∈ keys, sccs_hasRootkey heap key.1 ≠ 0) (distinct : (keys.map (·.1)).Nodup)
    (h : Hash) :
    (markKeys heap h keys).2 = keys.map (fun key =>
        (key.1, if hash_fetchU32U32 h (sccs_hasRootkey heap key.1) ≠ 0 then '|' :: key.2 else
      key.2)) ∧
      ∀ r, sccs_hasRootkey heap r ≠ 0 →
        hash_fetchU32U32 (markKeys heap h keys).1 (sccs_hasRootkey heap r) =
          if r ∈ keys.map (·.1) then 0 else hash_fetchU32U32 h (sccs_hasRootkey heap r) := by
  induction keys generalizing h with
  | nil => exact ⟨rfl,by simp [markKeys]⟩
  | cons key rest ih =>
    obtain ⟨rkey,dkey⟩ := key
    rw [map_cons,nodup_cons] at distinct
    have own := found (rkey, dkey) (by simp)
    have later := ih (fun key listed => found key (by simp [listed])) distinct.2
    have member : ∀ r, r ≠ rkey → (r ∈ ((rkey, dkey) :: rest).map (·.1) ↔ r ∈ rest.map (·.1)) := by
      intro r different
      rw [map_cons,mem_cons]
      exact or_iff_right different
    have injective : ∀ r, sccs_hasRootkey heap r ≠ 0 → r ≠ rkey →
        sccs_hasRootkey heap r ≠ sccs_hasRootkey heap rkey :=
      fun r present different equal => different (valid.key_inj r rkey present equal)
    by_cases present : hash_fetchU32U32 h (sccs_hasRootkey heap rkey) = 0
    · rw [markKeys,if_neg (by simp [present])]
      obtain ⟨marked,fetched⟩ := later h
      constructor
      · rw [map_cons,if_neg (by simp [present]),← marked]
      intro r foundR
      rw [fetched r foundR]
      by_cases same : r = rkey
      · subst same
        simp [present]
      · rw [if_congr (member r same) rfl rfl]
    · rw [markKeys,if_pos ⟨own,present⟩]
      obtain ⟨marked,fetched⟩ := later (update h (sccs_hasRootkey heap rkey) (some 0))
      constructor
      · rw [map_cons,if_pos present]
        dsimp only
        rw [marked]
        congr 1
        apply map_congr_left
        intro key listed
        have different : key.1 ≠ rkey := fun same => distinct.1 (mem_map.mpr ⟨key,listed,same⟩)
        rw [hash_fetch_update_zero,if_neg (injective key.1 (found key (by simp [listed])) different)]
      · intro r foundR
        rw [fetched r foundR,hash_fetch_update_zero]
        by_cases same : r = rkey
        · subst same
          simp
        · rw [if_neg (injective r foundR same),if_congr (member r same) rfl rfl]

theorem lastKey_flag (p : Prop) [Decidable p] (dkey : Key) :
    (lastKey (if p then '|' :: dkey else dkey)).1 = true ↔ p ∨ (lastKey dkey).1 = true := by
  split
  next asked =>
    exact iff_of_true rfl (.inl asked)
  next asked =>
    rw [or_iff_right asked]

structure Awaited (base : Heap) (table : Nat) (book : Book) (cset : Nat × List (Key × Key)) :
    Prop where
  inTable : cset.1 ≠ 0 ∧ cset.1 ≤ table
  free : book cset.1 = none
  single : (cset.2.map (·.1)).Nodup
  plain : PlainKeys cset.2
  found : ∀ key ∈ cset.2, sccs_hasRootkey base key.1 ≠ 0

theorem setPatch_spec (old base : Heap) (validBase : base.Valid) (due : Key → Prop)
    (new : ∀ r, sccs_hasRootkey old r = 0 → due r) (patch : Patch) (seen : List Key) (s : Sccs)
    (h : Hash) (book : Book) (bound : Bound s book) (le : base.Le s.heap)
    (serials : (patch.map (·.1)).Pairwise (· < ·))
    (awaited : ∀ cset ∈ patch, Awaited base s.table book cset)
    (owed : ∀ r, sccs_hasRootkey base r ≠ 0 → hash_fetchU32U32 h (sccs_hasRootkey base r) ≠ 0 →
      due r ∧ r ∉ seen) :
    ∃ after book', setPatch s h (flagPatch old seen patch) = some after ∧ Bound after book' ∧
      after.table = s.table ∧ Paged (sccs_hasRootkey base) due seen patch book book' := by
  induction patch generalizing seen s h book with
  | nil => exact ⟨s,book,rfl,bound,rfl,fun _ _ => rfl, by simp⟩
  | cons cset newer ih =>
    obtain ⟨d,keys⟩ := cset
    obtain ⟨⟨inTable,free,single,plain,found⟩,awaitedLater⟩ := forall_mem_cons.mp awaited
    have offset : ∀ r, sccs_hasRootkey base r ≠ 0 →
        sccs_hasRootkey s.heap r = sccs_hasRootkey base r :=
      fun r present => le.hasRootkey validBase bound.heap r present
    have flaggedKeys : (flagKeys old seen keys).map (·.1) = keys.map (·.1) := by
      unfold flagKeys
      rw [map_map]
      rfl
    obtain ⟨marked,fetched⟩ := markKeys_spec s.heap bound.heap (flagKeys old seen keys)
      (by
        intro key listed
        obtain ⟨before,member,rfl⟩ := mem_map.mp listed
        rw [offset before.1 (found before member)]
        exact found before member) (by rwa [flaggedKeys]) h
    have markedKeys : (markKeys s.heap h (flagKeys old seen keys)).2.map (·.1) = keys.map (·.1) := by
      rw [marked,map_map,← flaggedKeys]
      rfl
    obtain ⟨items,written,boundSet⟩ := bound.weave_set d inTable
      (markKeys s.heap h (flagKeys old seen keys)).2
      (by rwa [markedKeys]) free
    have serialsLater := pairwise_cons.mp serials
    have laterSerial : ∀ cset ∈ newer, d < cset.1 :=
      fun cset member => serialsLater.1 cset.1 (mem_map.mpr ⟨cset,member,rfl⟩)
    obtain ⟨after,book',finished,boundAfter,table,paged⟩ :=
      ih (seen ++ keys.map (·.1)) _ (markKeys s.heap h (flagKeys old seen keys)).1 _ boundSet
        (le.trans written.le) serialsLater.2
        (by
          intro cset member
          have other := update_of_ne (Nat.ne_of_gt (laterSerial cset member)) (some items) book
          exact { awaitedLater cset member with free := other.trans (awaitedLater cset member).free })
        (by
          intro r present nonzero
          rw [← offset r present,fetched r (by rw [offset r present]; exact present)] at nonzero
          rw [flaggedKeys] at nonzero
          split at nonzero
          · exact absurd rfl nonzero
          next here =>
            rw [offset r present] at nonzero
            obtain ⟨isDue,unseen⟩ := owed r present nonzero
            exact ⟨isDue,by simp [unseen,here]⟩)
    refine ⟨after,book',?_,boundAfter,table,?_,?_⟩
    · rw [flagPatch,setPatch,if_neg]
      · exact finished
      · rw [bound.blocks,free]
        simp
    · intro e outside
      rw [map_cons,mem_cons,not_or] at outside
      rw [paged.kept e outside.2,update_of_ne outside.1]
    intro d' keys' member
    rcases mem_cons.mp member with same | later
    · cases same
      have outside : d ∉ newer.map (·.1) := by
        intro listed
        obtain ⟨cset,inNewer,equal⟩ := mem_map.mp listed
        have less := laterSerial cset inNewer
        omega
      refine ⟨items,by rw [paged.kept d outside,update_self],?_⟩
      intro item listed
      obtain ⟨handed,inHanded,rk,mark⟩ := written.item item listed
      rw [marked,mem_map] at inHanded
      obtain ⟨flagged,inFlagged,rfl⟩ := inHanded
      obtain ⟨key,inKeys,rfl⟩ := mem_map.mp inFlagged
      refine ⟨key,inKeys,?_,?_⟩
      · rw [rk]
        exact (le.trans written.le).hasRootkey validBase written.valid key.1 (found key inKeys)
      intro isMarked
      rw [mark,lastKey_flag,lastKey_flag,plain key inKeys] at isMarked
      have result : due key.1 ∧ key.1 ∉ seen := by
        rcases isMarked with present | ⟨absent,unseen⟩ | wrong
        · rw [offset key.1 (found key inKeys)] at present
          exact owed key.1 (found key inKeys) present
        · exact ⟨new key.1 absent,unseen⟩
        · cases wrong
      refine ⟨result.1,result.2,?_⟩
      intro cset inPatch less
      rcases mem_cons.mp inPatch with head | inNewer
      · subst head
        exact absurd less (Nat.lt_irrefl _)
      · have more := laterSerial cset inNewer
        omega
    · obtain ⟨items',page,entries⟩ := paged.written d' keys' later
      refine ⟨items',page,?_⟩
      intro item listed
      obtain ⟨key,inKeys,rk,mark⟩ := entries item listed
      refine ⟨key,inKeys,rk,?_⟩
      intro isMarked
      obtain ⟨isDue,unseen,earlier⟩ := mark isMarked
      rw [mem_append,not_or] at unseen
      refine ⟨isDue,unseen.1,?_⟩
      intro cset inPatch less
      rcases mem_cons.mp inPatch with head | inNewer
      · subst head
        exact unseen.2
      · exact earlier cset inNewer less

structure Remote (s : Sccs) (weave : Patch) : Prop where
  serials : (weave.map (·.1)).Pairwise (· > ·)
  inTable : ∀ cset ∈ weave, cset.1 ≠ 0 ∧ cset.1 ≤ s.table
  free : ∀ cset ∈ weave, s.weave cset.1 = none
  single : ∀ cset ∈ weave, (cset.2.map (·.1)).Nodup
  plain : ∀ cset ∈ weave, PlainKeys cset.2

theorem mem_patchKeys (patch : Patch) (d : Nat) (r : Key) :
    (d, r) ∈ patchKeys patch ↔ ∃ keys, (d, keys) ∈ patch ∧ r ∈ keys.map (·.1) := by
  unfold patchKeys
  rw [mem_flatMap]
  constructor
  · rintro ⟨⟨e,keys⟩,member,pair⟩
    obtain ⟨key,listed,same⟩ := mem_map.mp pair
    cases same
    exact ⟨keys,member,mem_map.mpr ⟨key,listed,rfl⟩⟩
  · rintro ⟨keys,member,listed⟩
    obtain ⟨key,inKeys,rfl⟩ := mem_map.mp listed
    exact ⟨(d, keys),member,mem_map.mpr ⟨key,inKeys,rfl⟩⟩

variable {old : Heap} {scan : Scan} {patch : Patch}

theorem Noted.first (noted : Noted old scan (patchKeys patch))
    (serials : (patch.map (·.1)).Pairwise (· < ·)) (d : Nat) (keys : List (Key × Key))
    (member : (d, keys) ∈ patch) (r : Key) (listed : r ∈ keys.map (·.1))
    (before : sccs_hasRootkey old r ≠ 0) :
    ∃ e, e ≤ d ∧ (∃ keys', (e, keys') ∈ patch ∧ r ∈ keys'.map (·.1)) ∧
      hash_fetchU32U32 scan.hash (sccs_hasRootkey scan.heap r) = e := by
  have pair : (d, r) ∈ patchKeys patch := (mem_patchKeys patch d r).mpr ⟨keys,member,listed⟩
  have found := (noted.known r).mpr (.inl before)
  have ordered : (patchKeys patch).Pairwise (fun p q => p.1 ≤ q.1) := by
    unfold patchKeys
    rw [pairwise_flatMap]
    constructor
    · intro cset _inPatch
      rw [pairwise_map]
      exact pairwise_of_forall (fun _ _ => le_rfl)
    · apply List.Pairwise.imp _ (pairwise_map.mp serials)
      intro a b less p inA q inB
      obtain ⟨_,_,rfl⟩ := mem_map.mp inA
      obtain ⟨_,_,rfl⟩ := mem_map.mp inB
      exact Nat.le_of_lt less
  cases looked : (patchKeys patch).find? (fun p => decide (p.2 = r)) with
  | none => exact absurd (mem_map.mpr ⟨(d, r),pair,rfl⟩) (find?_seen_none r looked)
  | some p =>
    have key : p.2 = r := by simpa using find?_some looked
    have inside := mem_of_find?_eq_some looked
    refine ⟨p.1,?_,?_,?_⟩
    · rw [find?_eq_some_iff_append] at looked
      obtain ⟨_,earlier,later,split,plain⟩ := looked
      rw [split] at pair ordered
      rw [pairwise_append,pairwise_cons] at ordered
      rcases mem_append.mp pair with front | back
      · have not := plain _ front
        simp at not
      · rcases mem_cons.mp back with same | after
        · rw [← same]
        · exact ordered.2.1.1 _ after
    · rw [← key]
      exact (mem_patchKeys patch p.1 p.2).mp inside
    · unfold hash_fetchU32U32
      rw [noted.hash r found,looked]
      simp [before]

theorem Noted.serial (noted : Noted old scan (patchKeys patch)) (rk : Nat)
    (nonzero : hash_fetchU32U32 scan.hash rk ≠ 0) :
    ∃ cset ∈ patch, cset.1 = hash_fetchU32U32 scan.hash rk := by
  have some : (scan.hash rk).isSome := by
    by_contra none
    apply nonzero
    unfold hash_fetchU32U32
    rw [Option.not_isSome_iff_eq_none.mp none]
    rfl
  obtain ⟨p,listed,same⟩ := noted.domain rk some
  have found := (noted.known p.2).mpr (.inr (mem_map.mpr ⟨p,listed,rfl⟩))
  have value := noted.hash p.2 found
  rw [same] at value
  unfold hash_fetchU32U32 at nonzero ⊢
  rw [value] at nonzero ⊢
  cases looked : (patchKeys patch).find? (fun q => decide (q.2 = p.2)) with
  | none =>
    rw [looked] at nonzero
    exact absurd rfl nonzero
  | some q =>
    rw [looked,Option.map_some,Option.getD_some] at nonzero
    rw [Option.map_some,Option.getD_some]
    obtain ⟨keys,member,_⟩ := (mem_patchKeys patch q.1 q.2).mp (mem_of_find?_eq_some looked)
    refine ⟨(q.1, keys),member,?_⟩
    split
    · rename_i new
      rw [if_pos new] at nonzero
      exact absurd rfl nonzero
    · rfl

variable {book : Book}

theorem Filed.key {heap : Heap} {table : Nat} (filed : Filed heap table book) (valid : heap.Valid)
    {d rk : Nat} (has : book.Has d rk) : ∃ r, sccs_hasRootkey heap r = rk ∧ rk ≠ 0 := by
  obtain ⟨items,here,member⟩ := has
  obtain ⟨item,listed,rfl⟩ := mem_map.mp member
  have inUniq := filed.rootkey d items item here listed
  have inside := valid.inside _ inUniq
  refine ⟨heap.strs.get ⟨item.rk - 1,by omega⟩,?_,inside.1⟩
  exact (valid.found _ _ inside.1).mpr ⟨inUniq,getElem?_eq_getElem (by omega)⟩

variable {s : Sccs}

theorem Bound.grow (bound : Bound s book) (heap : Heap) (valid : heap.Valid) (le : s.heap.Le heap) :
    Bound { s with heap := heap } book :=
  ⟨bound.blocks,valid,bound.shaped,bound.filed.mono le⟩

theorem Bound.pairs (bound : Bound s book) : Pairs book (rdweave s) :=
  ⟨mem_rdweave bound,nodup_rdweave bound⟩

theorem walk_spec (bound : Bound s book) (truthful : book.Truthful) (hash : Hash) (cnt : Nat)
    (pending : Finset Nat) (members : ∀ rk, rk ∈ pending ↔ hash_fetchU32U32 hash rk ≠ 0)
    (card : cnt = pending.card)
    (free : ∀ rk, hash_fetchU32U32 hash rk ≠ 0 → book (hash_fetchU32U32 hash rk) = none) :
    ∃ after h' cleared, (if cnt = 0 then some (s, hash) else clearMarkers (rdweave s) s hash cnt) =
        some (after, h') ∧ after.heap = s.heap ∧ after.table = s.table ∧
      Cleared book hash after h' cleared := by
  have unchanged : book.clear ∅ = book := by
    funext d
    unfold Book.clear
    have same : Item.clear ∅ = id := by
      funext item
      simp [Item.clear]
    rw [same]
    simp
  have start : Clearing book hash s hash [] pending ∅ := by
    refine ⟨?_,?_,?_,fun _ zero => zero⟩
    · rw [unchanged]
      exact bound.blocks
    · intro rk _waiting
      exact ⟨rfl,by simp,by simp⟩
    · intro rk known done
      exact absurd ((members rk).mpr known) done
  by_cases empty : pending = ∅
  · have zero : cnt = 0 := by rw [card,empty]; rfl
    rw [if_pos zero]
    exact ⟨s,hash,∅,rfl,rfl,rfl, start.done bound.pairs bound.shaped truthful (by simp) (.inl empty)⟩
  have nonzero : cnt ≠ 0 := by
    rw [card]
    exact fun zero => empty (Finset.card_eq_zero.mp zero)
  rw [if_neg nonzero,card]
  exact clearMarkers_spec bound.pairs bound.shaped truthful free _ [] s hash pending ∅ rfl start
    (fun rk member => (members rk).mp member) empty

/-- Old and new pages are truthful together: an old mark is left only where something older than the
patch is known, a new one is set only at its first serial and with nothing older. -/
theorem Paged.truthful {table : Nat} {book' : Book} {h' : Hash} {cleared : Finset Nat}
    (valid : old.Valid) (filed : Filed old table book) (truthful : book.Truthful)
    (noted : Noted old scan (patchKeys patch)) (serials : (patch.map (·.1)).Pairwise (· < ·))
    (nonzero : ∀ cset ∈ patch, cset.1 ≠ 0) (result : Cleared book scan.hash s h' cleared)
    (paged : Paged (sccs_hasRootkey scan.heap)
    (fun r => sccs_hasRootkey old r = 0 ∨ hash_fetchU32U32 h' (sccs_hasRootkey scan.heap r) ≠ 0)
    [] patch (book.clear cleared) book') : book'.Truthful := by
  have sameKey : ∀ d rk key, book.Has d rk → rk = sccs_hasRootkey scan.heap key →
      sccs_hasRootkey old key ≠ 0 := by
    intro d rk key has same
    obtain ⟨r,found,present⟩ := filed.key valid has
    rw [← found] at present
    have kept := noted.le.hasRootkey valid noted.valid r present
    rw [found,same] at kept
    have equal : r = key := by
      apply noted.valid.key_inj r key _ kept
      rwa [kept,← same,← found]
    rwa [← equal]
  have patched : ∀ e keys rk, (e, keys) ∈ patch → book'.Has e rk →
      ∃ key ∈ keys, rk = sccs_hasRootkey scan.heap key.1 := by
    rintro e keys rk member ⟨items,page,listed⟩
    obtain ⟨items',page',entries⟩ := paged.written e keys member
    rw [page] at page'
    cases page'
    obtain ⟨item,inItems,rfl⟩ := mem_map.mp listed
    obtain ⟨key,inKeys,same,_⟩ := entries item inItems
    exact ⟨key,inKeys,same⟩
  have local_ : ∀ e rk, e ∉ patch.map (·.1) → book'.Has e rk → book.Has e rk := by
    rintro e rk outside ⟨items,page,listed⟩
    rw [paged.kept e outside] at page
    exact (book.clear_has cleared e rk).mp ⟨items,page,listed⟩
  have inPatch : ∀ e, e ∈ patch.map (·.1) → ∃ keys, (e, keys) ∈ patch := by
    intro e member
    obtain ⟨cset,listed,same⟩ := mem_map.mp member
    exact ⟨cset.2,same ▸ listed⟩
  intro d items item page listed marked e less has
  by_cases new : d ∈ patch.map (·.1)
  · obtain ⟨keys,member⟩ := inPatch d new
    obtain ⟨items',page',entries⟩ := paged.written d keys member
    rw [page] at page'
    cases page'
    obtain ⟨key,inKeys,same,mark⟩ := entries item listed
    obtain ⟨isDue,_unseen,first⟩ := mark marked
    by_cases newer : e ∈ patch.map (·.1)
    · obtain ⟨keys',member'⟩ := inPatch e newer
      obtain ⟨key',inKeys',same'⟩ := patched e keys' item.rk member' has
      have pair := (mem_patchKeys patch d key.1).mpr ⟨keys,member,mem_map.mpr ⟨key,inKeys,rfl⟩⟩
      have found := (noted.known key.1).mpr (.inr (mem_map.mpr ⟨_,pair,rfl⟩))
      have equal := noted.valid.key_inj key.1 key'.1 found (same.symm.trans same')
      exact first (e, keys') member' less (mem_map.mpr ⟨key',inKeys',equal.symm⟩)
    have before := sameKey e item.rk key.1 (local_ e item.rk newer has) same
    obtain ⟨f,atMost,⟨keys',member',listed'⟩,fetched⟩ := noted.first serials d keys member key.1
      (mem_map.mpr ⟨key,inKeys,rfl⟩) before
    have own : f = d := by
      rcases Nat.lt_or_eq_of_le atMost with earlier | equal
      · exact absurd listed' (first (f, keys') member' earlier)
      · exact equal
    have known : hash_fetchU32U32 scan.hash (sccs_hasRootkey scan.heap key.1) ≠ 0 := by
      rw [fetched]
      exact nonzero (f, keys') member'
    rcases result.decided _ known with ⟨_,nothing,_⟩ | ⟨zero,_⟩
    · apply nothing e (by omega)
      rw [← same]
      exact local_ e item.rk newer has
    · exact isDue.elim before (fun present => present zero)
  · rw [paged.kept d new] at page
    have pageClear := page
    obtain ⟨before,found,rfl⟩ := Book.clear_some page
    obtain ⟨oldItem,inBefore,rfl⟩ := mem_map.mp listed
    obtain ⟨_,_,markedOld⟩ := oldItem.clear_mark cleared marked
    rw [oldItem.clear_rk] at has
    have here : book.Has d oldItem.rk := ⟨before,found,mem_map.mpr ⟨oldItem,inBefore,rfl⟩⟩
    by_cases newer : e ∈ patch.map (·.1)
    · obtain ⟨keys,member⟩ := inPatch e newer
      obtain ⟨key,inKeys,same⟩ := patched e keys _ member has
      have present := sameKey d _ key.1 here same
      obtain ⟨f,atMost,⟨keys',member',_⟩,fetched⟩ := noted.first serials e keys member key.1
        (mem_map.mpr ⟨key,inKeys,rfl⟩) present
      have known : hash_fetchU32U32 scan.hash (sccs_hasRootkey scan.heap key.1) ≠ 0 := by
        rw [fetched]
        exact nonzero (f, keys') member'
      rcases result.decided _ known with ⟨_,_,unmarked⟩ | ⟨_,older,earlier,hasOlder⟩
      · have impossible := unmarked d _ _ pageClear listed (by rw [oldItem.clear_rk,same])
        rw [marked] at impossible
        cases impossible
      · rw [← same] at hasOlder
        exact truthful d before oldItem found inBefore markedOld older (by omega) hasOlder
    · exact truthful d before oldItem found inBefore markedOld e less (local_ e _ newer has)

theorem fastCsetWeave_holds (holds : Holds s book) (weave : Patch) (remote : Remote s weave) :
    ∃ after book', fastCsetWeave s weave = some after ∧ Holds after book' := by
  have serials : (weave.reverse.map (·.1)).Pairwise (· < ·) := by
    rw [map_reverse,pairwise_reverse]
    exact remote.serials
  have back : ∀ cset ∈ weave.reverse, cset ∈ weave := fun cset member => mem_reverse.mp member
  have freeBook : ∀ cset ∈ weave.reverse, book cset.1 = none := by
    intro cset member
    have none := remote.free cset (back cset member)
    rw [holds.blocks] at none
    exact Option.map_eq_none_iff.mp none
  obtain ⟨noted,flagged⟩ := notePatch_spec weave.reverse
    (fun cset member => (remote.inTable cset (back cset member)).1)
    (fun cset member => remote.single cset (back cset member)) (noted_start holds.heap)
  obtain ⟨scan,flaggedPatch,out⟩ : ∃ scan flaggedPatch,
      notePatch { heap := s.heap, hash := fun _ => none, cnt := 0 } weave.reverse =
        (scan, flaggedPatch) := ⟨_,_,rfl⟩
  rw [out,nil_append] at noted
  rw [out] at flagged
  have boundNoted := holds.grow _ noted.valid noted.le
  obtain ⟨pending,members,card⟩ := noted.count
  obtain ⟨middle,h',cleared,walked,heap,table,result⟩ :=
    walk_spec boundNoted holds.truthful _ _ pending members card (by
      intro rk nonzero
      obtain ⟨cset,member,same⟩ := noted.serial rk nonzero
      rw [← same]
      exact freeBook cset member)
  have boundMiddle : Bound middle (book.clear cleared) := by
    refine ⟨result.blocks,?_,holds.shaped.clear cleared,?_⟩
    · rw [heap]
      exact noted.valid
    · rw [heap,table]
      exact boundNoted.filed.clear cleared
  obtain ⟨after,book',finished,boundAfter,_,paged⟩ := setPatch_spec s.heap scan.heap noted.valid
      (fun r => sccs_hasRootkey s.heap r = 0 ∨ hash_fetchU32U32 h' (sccs_hasRootkey scan.heap r) ≠ 0)
      (fun r absent => .inl absent) weave.reverse [] middle h' (book.clear cleared) boundMiddle
      (by rw [heap]; exact .refl _)
      serials
      (by
        intro cset member
        have listed := back cset member
        refine ⟨by rw [table]; exact remote.inTable cset listed,?_,remote.single cset listed,
          remote.plain cset listed,?_⟩
        · unfold Book.clear
          rw [freeBook cset member]
          rfl
        · intro key inKeys
          have pair :=
            (mem_patchKeys weave.reverse cset.1 key.1).mpr
            ⟨cset.2,member,mem_map.mpr ⟨key,inKeys,rfl⟩⟩
          exact (noted.known key.1).mpr (.inr (mem_map.mpr ⟨_,pair,rfl⟩)))
      (by
        intro r _found nonzero
        exact ⟨.inr nonzero,by simp⟩)
  refine ⟨after,book',?_,boundAfter,paged.truthful holds.heap holds.filed holds.truthful noted serials
    (fun cset member => (remote.inTable cset (back cset member)).1) result⟩
  unfold fastCsetWeave
  rw [out]
  dsimp only at walked flagged ⊢
  rwa [walked,Option.bind_some,flagged]

end BitKeeper.CsetWeave
