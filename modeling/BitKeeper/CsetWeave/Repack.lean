import BitKeeper.CsetWeave.Replace

/-!
`bin_heapRepack`: the weave is written to a new heap in two passes, which are followed together,
block by block, for numbers and offsets that are known in advance.
-/

namespace BitKeeper.CsetWeave

open Function
open List hiding getElem?_eq_some_iff

private theorem newrk_zero (rkeys : List Nat) (rk : Nat) : newrk rkeys rk = 0 ↔ rk ∉ rkeys := by
  unfold newrk
  cases looked : rkeys.idxOf? rk with
  | none =>
    rw [idxOf?_eq_none_iff] at looked
    simp [looked]
  | some i =>
    have present : (rkeys.idxOf? rk).isSome := by simp [looked]
    rw [isSome_idxOf?] at present
    simp [present]

private theorem newrk_get (rkeys : List Nat) (rk : Nat) (known : newrk rkeys rk ≠ 0) :
    rkeys[newrk rkeys rk - 1]? = some rk ∧ newrk rkeys rk ≤ rkeys.length := by
  unfold newrk at known ⊢
  cases looked : rkeys.idxOf? rk with
  | none =>
    rw [looked] at known
    exact absurd rfl known
  | some i =>
    rw [idxOf?_eq_some_iff] at looked
    obtain ⟨inside,same,_⟩ := looked
    constructor
    · rw [Nat.add_sub_cancel,getElem?_eq_getElem inside]
      simpa using same
    · exact inside

structure Repack.Grown (r r' : Repack) : Prop where
  rkeys : r.rkeys <+: r'.rkeys
  heap : r.heap.Le r'.heap
  tipkeys : r.tipkeys.length ≤ r'.tipkeys.length

theorem Repack.Grown.refl (r : Repack) : r.Grown r := ⟨prefix_rfl,Heap.Le.refl _,le_rfl⟩

variable {a b c : Repack}

theorem Repack.Grown.trans (first : a.Grown b) (second : b.Grown c) : a.Grown c :=
  ⟨first.rkeys.trans second.rkeys,first.heap.trans second.heap,
    Nat.le_trans first.tipkeys second.tipkeys⟩

structure Repack.Sound (r : Repack) : Prop where
  distinct : r.rkeys.Nodup
  heap : r.heap.Valid

def Repack.Fresh (start : Nat) (r r' : Repack) (dk : Nat) : Prop :=
  (r.heap.strs.length < dk ∧ dk ≤ r'.heap.strs.length) ∨
    (start + r.tipkeys.length ≤ dk ∧ dk < start + r'.tipkeys.length)

theorem Repack.Fresh.mono {start : Nat} {d : Repack} {dk : Nat} (fresh : Repack.Fresh start b c dk)
    (before : a.Grown b) (after : c.Grown d) : Repack.Fresh start a d dk := by
  have heapBefore := before.heap.length
  have heapAfter := after.heap.length
  have tipsBefore := before.tipkeys
  have tipsAfter := after.tipkeys
  unfold Repack.Fresh at fresh ⊢
  omega

theorem Repack.Fresh.ne {start : Nat} {d : Repack} {dk dk' : Nat} (early : Repack.Fresh start a b dk)
    (late : Repack.Fresh start c d dk') (between : b.Grown c) (after : c.Grown d)
    (behind : d.heap.strs.length < start) : dk ≠ dk' := by
  have heap := between.heap.length
  have heapAfter := after.heap.length
  have tips := between.tipkeys
  unfold Repack.Fresh at early late
  omega

/-- The first pass on one pair: the rootkey has number `n`, the pair is written as `(n, len)`. -/
structure Packed (r r₁ : Repack) (rk n len : Nat) : Prop where
  grown : r.Grown r₁
  sound : r₁.Sound
  number : n ≠ 0
  named : r₁.rkeys[n - 1]? = some rk
  counted : ∀ m, m = n ∨ m ≤ r.rkeys.length ↔ m ≤ r₁.rkeys.length
  length : len ≠ 0
  fresh : ∀ start, Repack.Fresh start r r₁ (if n ≤ r.rkeys.length then len - 1 else len - 1 + start)

def repackMarker (oldest : Hash) (rk dk n : Nat) : Block :=
  if oldest rk = some dk then [(n, 0)] else []

theorem repackBlock_cons (old : Heap) (oldest : Hash) {r : Repack} (sound : r.Sound) (rk dk : Nat)
    (real : dk ≠ 0) :
    ∃ r₁ n len, Packed r r₁ rk n len ∧ ∀ rest, repackBlock old oldest r ((rk, dk) :: rest) =
      ((repackBlock old oldest r₁ rest).1,
        (n, len) :: repackMarker oldest rk dk n ++ (repackBlock old oldest r₁ rest).2) := by
  by_cases new : newrk r.rkeys rk = 0
  · refine ⟨{ r with rkeys := r.rkeys ++ [rk], tipkeys := r.tipkeys ++ [heapStr old dk] },
      (r.rkeys ++ [rk]).length,r.tipkeys.length + 1,?_,?_⟩
    · have missing := (newrk_zero r.rkeys rk).mp new
      refine ⟨⟨prefix_append _ _,Heap.Le.refl _,by simp⟩,⟨?_,sound.heap⟩,by simp,by simp,?_,
        by omega,?_⟩
      · rw [nodup_append]
        refine ⟨sound.distinct,nodup_singleton rk,?_⟩
        intro a inKeys b single same
        rw [mem_singleton.mp single] at same
        exact missing (same ▸ inKeys)
      · intro m
        simp only [length_append,length_singleton]
        omega
      · intro start
        have above : ¬ (r.rkeys ++ [rk]).length ≤ r.rkeys.length := by simp
        rw [if_neg above]
        unfold Repack.Fresh
        simp only [length_append,length_singleton]
        omega
    · intro rest
      rw [repackBlock,if_neg real,if_pos new]
      rfl
  · refine ⟨{ r with heap := sccs_addStr r.heap (heapStr old dk) },newrk r.rkeys rk,
      r.heap.len + 1,?_,?_⟩
    · obtain ⟨named,inside⟩ := newrk_get r.rkeys rk new
      refine ⟨⟨prefix_rfl,addStr_le _ _,le_rfl⟩,⟨sound.distinct,addStr_valid sound.heap _⟩,
        new,named,?_,by omega,?_⟩
      · intro m
        dsimp only
        omega
      · intro start
        rw [if_pos inside]
        unfold Repack.Fresh sccs_addStr Heap.len
        simp only [length_append,length_singleton]
        omega
    · intro rest
      rw [repackBlock,if_neg real,if_neg new]
      rfl

section Oldest
variable (changesetKey BAMkey : Key → Bool)

private theorem oldestPair_hash (old : Heap) (known : Oldest) (rk dk : Nat) (real : dk ≠ 0) :
    (oldestPair changesetKey BAMkey old known (rk, dk)).hash = hash_insertU32U32 known.hash rk dk :=
  by
  unfold oldestPair hash_insertU32U32
  by_cases present : (known.hash rk).isSome
  · rw [if_pos (.inr present),if_pos present]
  · rw [if_neg (by simp [real,present]),if_neg present]

theorem oldestPair_flat (old : Heap) (items : List Item) (real : ∀ item ∈ items, item.dk ≠ 0)
    (known : Oldest) :
    ((flat items).foldl (oldestPair changesetKey BAMkey old) known).hash =
      items.foldl (fun h item => hash_insertU32U32 h item.rk item.dk) known.hash := by
  induction items generalizing known with
  | nil => rfl
  | cons item rest ih =>
    have later := ih (fun other member => real other (by simp [member]))
    rw [flat_cons,foldl_append,later,foldl_cons]
    unfold Item.pairs
    rw [foldl_cons]
    have skipped : ∀ known' : Oldest, (if item.mark then [(item.rk, 0)] else []).foldl
        (oldestPair changesetKey BAMkey old) known' = known' := by
      intro known'
      cases item.mark with
      | false => rfl
      | true => simp [oldestPair]
    rw [skipped,oldestPair_hash _ _ _ _ _ _ (real item (by simp))]

private theorem oldestKeys_spec {s : Sccs} {book : Book} (bound : Bound s book) (n rk : Nat) :
    ((oldestKeys changesetKey BAMkey s ((List.range n).map (· + 1))).hash rk = none ∧
        ∀ d, d ≤ n → ¬ book.Has d rk) ∨
      ∃ e items item, book e = some items ∧ item ∈ items ∧ item.rk = rk ∧
        (oldestKeys changesetKey BAMkey s ((List.range n).map (· + 1))).hash rk = some item.dk ∧
        ∀ d, d < e → ¬ book.Has d rk := by
  induction n with
  | zero =>
    refine .inl ⟨rfl,?_⟩
    rintro d low ⟨items,here,_⟩
    exact (bound.filed.inTable d items here).1 (Nat.le_zero.mp low)
  | succ n ih =>
    have step : oldestKeys changesetKey BAMkey s ((List.range (n + 1)).map (· + 1)) =
        ((s.weave (n + 1)).getD []).foldl (oldestPair changesetKey BAMkey s.heap)
          (oldestKeys changesetKey BAMkey s ((List.range n).map (· + 1))) := by
      unfold oldestKeys
      rw [range_succ,map_append,foldl_append]
      rfl
    rw [step,bound.blocks]
    cases page : book (n + 1) with
    | none =>
      rcases ih with ⟨missing,absent⟩ | found
      · refine .inl ⟨missing,?_⟩
        intro d low has
        rcases Nat.lt_or_eq_of_le low with less | top
        · exact absent d (by omega) has
        · obtain ⟨items,here,_⟩ := has
          rw [top,page] at here
          cases here
      · exact .inr found
    | some items =>
      have real := (bound.shaped (n + 1) items page).real
      rw [Option.map_some,Option.getD_some,oldestPair_flat _ _ _ items real,
        foldl_insert (fun item : Item => item.rk) (fun item : Item => item.dk)]
      rcases ih with ⟨missing,absent⟩ | ⟨e,older,item,here,member,same,known,first⟩
      · rw [missing,Option.none_or]
        cases looked : items.find? (fun item => decide (item.rk = rk)) with
        | none =>
          refine .inl ⟨rfl,?_⟩
          intro d low has
          rcases Nat.lt_or_eq_of_le low with less | top
          · exact absent d (by omega) has
          obtain ⟨items',here,listed⟩ := has
          rw [top,page] at here
          cases here
          obtain ⟨item,member,same⟩ := mem_map.mp listed
          rw [find?_eq_none] at looked
          exact looked item member (decide_eq_true same)
        | some item =>
          refine .inr ⟨n + 1,items,item,page,mem_of_find?_eq_some looked,
            by simpa using find?_some looked,rfl,?_⟩
          intro d less
          exact absent d (by omega)
      · rw [known,Option.some_or]
        exact .inr ⟨e,older,item,here,member,same,rfl,first⟩

end Oldest

section Place
variable (old : Heap) (oldest : Hash) (place : Nat → Nat) (R : List Nat) (start : Nat)

structure Moved (item new : Item) : Prop where
  rk : new.rk = place item.rk
  mark : new.mark = decide (oldest item.rk = some item.dk)

def Numbered (r : Repack) (seen : List Nat) : Prop := ∀ n, n ≠ 0 → (n ∈ seen ↔ n ≤ r.rkeys.length)

structure Placed (r r' : Repack) (seen : List Nat) (block : Block) (items news : List Item)
    (seen' : List Nat) : Prop where
  written : placeBlock (R.map place) start seen block = (seen', flat news)
  numbered : Numbered r' seen'
  moved : List.Forall₂ (Moved oldest place) items news
  fresh : ∀ new ∈ news, Repack.Fresh start r r' new.dk
  own : (news.map (·.dk)).Nodup

theorem repackBlock_markers (r : Repack) (item : Item) (rest : Block) :
    repackBlock old oldest r ((if item.mark then [(item.rk, 0)] else []) ++ rest) =
      repackBlock old oldest r rest := by
  cases item.mark with
  | false => rfl
  | true =>
    change repackBlock old oldest r ((item.rk, 0) :: rest) = _
    rw [repackBlock,if_pos rfl]

theorem placeBlock_markers (seen : List Nat) (rk dk n : Nat) (rest : Block) :
    placeBlock (R.map place) start seen (repackMarker oldest rk dk n ++ rest) =
      ((placeBlock (R.map place) start seen rest).1,
        (if decide (oldest rk = some dk) then [(((R.map place)[n - 1]?).getD 0, 0)] else []) ++
          (placeBlock (R.map place) start seen rest).2) := by
  unfold repackMarker
  split
  next first =>
    rw [if_pos (decide_eq_true first)]
    change placeBlock (R.map place) start seen ((n, 0) :: rest) = _
    rw [placeBlock]
    rfl
  next first =>
    rw [if_neg (by simp [first])]
    rfl

variable {old oldest place R start} in
theorem Placed.cons {r r₁ r' : Repack} {item : Item} {n len : Nat} {seen seen' : List Nat}
    {block : Block} {items news : List Item} (packed : Packed r r₁ item.rk n len)
    (numbered : Numbered r seen) (grown : r₁.Grown r') (prefixed : r'.rkeys <+: R)
    (behind : r'.heap.strs.length < start)
    (later : Placed oldest place R start r₁ r' (n :: seen) block items news seen') :
    ∃ new, Placed oldest place R start r r' seen
      ((n, len) :: repackMarker oldest item.rk item.dk n ++ block) (item :: items)
    (new :: news) seen' := by
  have known : n ∈ seen ↔ n ≤ r.rkeys.length := numbered n packed.number
  have offset : ((R.map place)[n - 1]?).getD 0 = place item.rk := by
    obtain ⟨more,same⟩ := grown.rkeys.trans prefixed
    have inside : n - 1 < r₁.rkeys.length := (List.getElem?_eq_some_iff.mp packed.named).1
    rw [← same,getElem?_map,getElem?_append_left inside,packed.named]
    rfl
  have own := packed.fresh start
  refine ⟨{ rk := place item.rk, dk := if n ≤ r.rkeys.length then len - 1 else len - 1 + start
            mark := decide (oldest item.rk = some item.dk) },?_,later.numbered,
    List.Forall₂.cons ⟨rfl,rfl⟩ later.moved,?_,?_⟩
  · rw [cons_append,placeBlock,if_neg packed.length]
    rw [placeBlock_markers,later.written,offset,flat_cons]
    simp only [known]
    rfl
  · intro new member
    rcases mem_cons.mp member with rfl | after
    · exact own.mono (Repack.Grown.refl r) grown
    · exact (later.fresh new after).mono packed.grown (Repack.Grown.refl r')
  · rw [map_cons,nodup_cons]
    refine ⟨?_,later.own⟩
    intro member
    obtain ⟨new,after,same⟩ := mem_map.mp member
    exact own.ne (later.fresh new after) (Repack.Grown.refl r₁) grown behind same.symm

theorem repackBlock_spec (items : List Item) (real : ∀ item ∈ items, item.dk ≠ 0) (r : Repack)
    (sound : r.Sound) :
    r.Grown (repackBlock old oldest r (flat items)).1 ∧
      (repackBlock old oldest r (flat items)).1.Sound ∧
      (∀ item ∈ items, item.rk ∈ (repackBlock old oldest r (flat items)).1.rkeys) ∧
      ∀ seen, Numbered r seen → (repackBlock old oldest r (flat items)).1.rkeys <+: R →
        (repackBlock old oldest r (flat items)).1.heap.strs.length < start →
        ∃ news seen', Placed oldest place R start r (repackBlock old oldest r (flat items)).1 seen
          (repackBlock old oldest r (flat items)).2 items news seen' := by
  induction items generalizing r with
  | nil =>
    refine ⟨Repack.Grown.refl r,sound,by simp,?_⟩
    intro seen numbered _ _
    exact ⟨[],seen,rfl,numbered,List.Forall₂.nil,by simp,nodup_nil⟩
  | cons item items ih =>
    obtain ⟨r₁,n,len,packed,step⟩ :=
      repackBlock_cons old oldest sound item.rk item.dk (real item (by simp))
    obtain ⟨grown,soundLater,keys,places⟩ :=
      ih (fun other member => real other (by simp [member])) r₁ packed.sound
    have here : repackBlock old oldest r (flat (item :: items)) =
        ((repackBlock old oldest r₁ (flat items)).1,
          (n, len) :: repackMarker oldest item.rk item.dk n ++
          (repackBlock old oldest r₁ (flat items)).2) := by
      rw [flat_cons]
      unfold Item.pairs
      rw [cons_append,step,repackBlock_markers]
    rw [here]
    refine ⟨packed.grown.trans grown,soundLater,?_,?_⟩
    · exact forall_mem_cons.mpr ⟨grown.rkeys.subset (mem_of_getElem? packed.named),keys⟩
    intro seen numbered prefixed behind
    have next : Numbered r₁ (n :: seen) := by
      intro m nonzero
      rw [mem_cons,numbered m nonzero]
      exact packed.counted m
    obtain ⟨news,seen',later⟩ := places (n :: seen) next prefixed behind
    obtain ⟨new,placed⟩ := later.cons packed numbered grown prefixed behind
    exact ⟨new :: news,seen',placed⟩

structure Copied (r r' : Repack) (ds : List Nat) (book news : Book) : Prop where
  page : ∀ d ∈ ds, ∀ items, book d = some items → ∃ copy, news d = some copy ∧
    List.Forall₂ (Moved oldest place) items copy
  source : ∀ d copy, news d = some copy → d ∈ ds ∧ ∃ items, book d = some items ∧
    List.Forall₂ (Moved oldest place) items copy
  fresh : ∀ d copy new, news d = some copy → new ∈ copy → Repack.Fresh start r r' new.dk
  own : ∀ d copy new d' copy' new', news d = some copy → new ∈ copy → news d' = some copy' →
    new' ∈ copy' → new.dk = new'.dk → d = d' ∧ new = new'

variable {old oldest place R start} in
theorem Copied.cons {r r₁ r' : Repack} {d : Nat} {ds seen seen' : List Nat} {block : Block}
    {items copy : List Item} {book news : Book} (here : book d = some items) (apart : d ∉ ds)
    (placed : Placed oldest place R start r r₁ seen block items copy seen')
    (first : r.Grown r₁) (grown : r₁.Grown r') (behind : r'.heap.strs.length < start)
    (later : Copied oldest place start r₁ r' ds book news) :
    Copied oldest place start r r' (d :: ds) book (update news d (some copy)) := by
  have split : ∀ e page, update news d (some copy) e = some page →
      (e = d ∧ page = copy) ∨ (e ≠ d ∧ news e = some page) := by
    intro e page found
    by_cases same : e = d
    · rw [same,update_self] at found
      exact .inl ⟨same,(Option.some.inj found).symm⟩
    · rw [update_of_ne same] at found
      exact .inr ⟨same,found⟩
  constructor
  · intro e member page found
    rcases mem_cons.mp member with rfl | older
    · rw [here] at found
      cases found
      exact ⟨copy,update_self ..,placed.moved⟩
    · have different : e ≠ d := fun same => apart (same ▸ older)
      rw [update_of_ne different]
      exact later.page e older page found
  · intro e page found
    rcases split e page found with ⟨rfl,rfl⟩ | ⟨_,below⟩
    · exact ⟨by simp,items,here,placed.moved⟩
    · obtain ⟨member,source⟩ := later.source e page below
      exact ⟨mem_cons_of_mem d member,source⟩
  · intro e page new found member
    rcases split e page found with ⟨rfl,rfl⟩ | ⟨_,below⟩
    · exact (placed.fresh new member).mono (Repack.Grown.refl r) grown
    · exact (later.fresh e page new below member).mono first (Repack.Grown.refl r')
  · intro e page new e' page' new' found member found' member' same
    rcases split e page found with ⟨rfl,rfl⟩ | ⟨_,below⟩
    · rcases split e' page' found' with ⟨rfl,rfl⟩ | ⟨_,below'⟩
      · exact ⟨rfl,inj_on_of_nodup_map placed.own member member' same⟩
      · exact absurd same ((placed.fresh new member).ne (later.fresh e' page' new' below' member')
          (Repack.Grown.refl r₁) grown behind)
    · rcases split e' page' found' with ⟨rfl,rfl⟩ | ⟨_,below'⟩
      · exact absurd same.symm ((placed.fresh new' member').ne (later.fresh e page new below member)
          (Repack.Grown.refl r₁) grown behind)
      · exact later.own e page new e' page' new' below member below' member' same

theorem repackLoop_spec {s : Sccs} {book : Book} (bound : Bound s book) (ds : List Nat)
    (distinct : ds.Nodup) (r : Repack) (sound : r.Sound) :
    r.Grown (repackLoop s oldest r ds).1 ∧ (repackLoop s oldest r ds).1.Sound ∧
      (∀ d ∈ ds, ∀ items, book d = some items → ∀ item ∈ items,
        item.rk ∈ (repackLoop s oldest r ds).1.rkeys) ∧
      ∀ seen, Numbered r seen → (repackLoop s oldest r ds).1.rkeys <+: R →
        (repackLoop s oldest r ds).1.heap.strs.length < start →
        ∃ news : Book, Copied oldest place start r (repackLoop s oldest r ds).1 ds book news ∧
          ∀ d, ((placeBlocks (R.map place) start seen (repackLoop s oldest r ds).2).find?
            (fun entry => entry.1 = d)).map (·.2) = (news d).map flat := by
  induction ds generalizing r with
  | nil =>
    refine ⟨Repack.Grown.refl r,sound,by simp,?_⟩
    intro seen _ _ _
    exact ⟨fun _ => none, ⟨by simp,by simp,by simp,by simp⟩,fun _ => rfl⟩
  | cons d ds ih =>
    rw [nodup_cons] at distinct
    rw [repackLoop,bound.blocks]
    cases here : book d with
    | none =>
      obtain ⟨grown,soundLater,keys,places⟩ := ih distinct.2 r sound
      refine ⟨grown,soundLater,?_,?_⟩
      · intro e member items found
        rcases mem_cons.mp member with rfl | older
        · rw [here] at found
          cases found
        · exact keys e older items found
      intro seen numbered prefixed behind
      obtain ⟨news,copied,blocks⟩ := places seen numbered prefixed behind
      refine ⟨news,⟨?_,?_,copied.fresh,copied.own⟩,blocks⟩
      · intro e member items found
        rcases mem_cons.mp member with rfl | older
        · rw [here] at found
          cases found
        · exact copied.page e older items found
      · intro e page found
        obtain ⟨member,source⟩ := copied.source e page found
        exact ⟨mem_cons_of_mem d member,source⟩
    | some items =>
      have real := (bound.shaped d items here).real
      obtain ⟨first,soundHere,keysHere,placesHere⟩ :=
        repackBlock_spec s.heap oldest place R start items real r sound
      obtain ⟨grown,soundLater,keys,places⟩ := ih distinct.2 _ soundHere
      refine ⟨first.trans grown,soundLater,?_,?_⟩
      · intro e member page found item inPage
        rcases mem_cons.mp member with rfl | older
        · rw [here] at found
          cases found
          exact grown.rkeys.subset (keysHere item inPage)
        · exact keys e older page found item inPage
      intro seen numbered prefixed behind
      have below := grown.heap.length
      obtain ⟨copy,seen',placed⟩ := placesHere seen numbered (grown.rkeys.trans prefixed)
        (Nat.lt_of_le_of_lt below behind)
      obtain ⟨news,copied,blocks⟩ := places seen' placed.numbered prefixed behind
      refine ⟨update news d (some copy),
        copied.cons here distinct.1 placed first grown behind,?_⟩
      intro e
      simp only [Option.map_some,placeBlocks,placed.written]
      by_cases same : d = e
      · rw [find?_cons_of_pos (by simp [same]),← same,update_self]
        rfl
      · rw [find?_cons_of_neg (by simp [same]),blocks e, update_of_ne (fun equal => same equal.symm)]

end Place

theorem addRootkeys_spec (old : Heap) (rkeys : List Nat) {h : Heap} (valid : h.Valid) :
    (addRootkeys old h rkeys).Valid ∧ h.Le (addRootkeys old h rkeys) ∧
      ∀ rk ∈ rkeys, sccs_hasRootkey (addRootkeys old h rkeys) (heapStr old rk) ≠ 0 := by
  induction rkeys generalizing h with
  | nil => exact ⟨valid,Heap.Le.refl h,by simp⟩
  | cons rk rest ih =>
    have validHere := addUniq_valid valid (heapStr old rk)
    obtain ⟨validLater,le,found⟩ := ih validHere
    refine ⟨validLater,(addUniq_le h _).trans le,?_⟩
    intro other member
    rcases mem_cons.mp member with rfl | after
    · have here := addUniq_found valid (heapStr old other)
      change sccs_hasRootkey (addRootkeys old (sccs_addUniqRootkey h (heapStr old other)) rest) _ ≠ 0
      rwa [le.hasRootkey validHere validLater _ here]
    · exact found other after

theorem Heap.Valid.heapStr_inj {h : Heap} (valid : h.Valid) {a b : Nat} (inA : a ∈ h.uniq)
    (inB : b ∈ h.uniq) (same : heapStr h a = heapStr h b) : a = b := by
  have insideA := valid.inside a inA
  have insideB := valid.inside b inB
  have lowA : a - 1 < h.strs.length := by omega
  have lowB : b - 1 < h.strs.length := by omega
  apply valid.distinct a inA b inB
  unfold heapStr at same
  rw [getElem?_eq_getElem lowA,getElem?_eq_getElem lowB] at same ⊢
  rw [Option.getD_some,Option.getD_some] at same
  rw [same]

variable {oldest : Hash} {place : Nat → Nat} {items news : List Item}

theorem moved_rks (moved : List.Forall₂ (Moved oldest place) items news) :
    news.map (·.rk) = (items.map (·.rk)).map place := by
  induction moved with
  | nil => rfl
  | cons head _ ih => rw [map_cons,map_cons,map_cons,ih,head.rk]

theorem forall₂_source {α β : Type} {R : α → β → Prop} {as : List α} {bs : List β}
    (all : List.Forall₂ R as bs) {b : β} (member : b ∈ bs) : ∃ a ∈ as, R a b := by
  induction all with
  | nil => cases member
  | cons head _ ih =>
    rcases mem_cons.mp member with rfl | after
    · exact ⟨_,mem_cons_self,head⟩
    · obtain ⟨a,listed,own⟩ := ih after
      exact ⟨a,mem_cons_of_mem _ listed,own⟩

theorem mem_newestFirst (table d : Nat) :
    d ∈ (List.range table).reverse.map (· + 1) ↔ d ≠ 0 ∧ d ≤ table := by
  rw [mem_map]
  constructor
  · rintro ⟨i,member,rfl⟩
    rw [mem_reverse,mem_range] at member
    omega
  · intro inside
    refine ⟨d - 1,?_,by omega⟩
    rw [mem_reverse,mem_range]
    omega

theorem nodup_newestFirst (table : Nat) : ((List.range table).reverse.map (· + 1)).Nodup := by
  apply List.Nodup.map (fun _ _ same => Nat.succ.inj same)
  rw [nodup_reverse]
  exact nodup_range

theorem bin_heapRepack_holds (changesetKey BAMkey : Key → Bool) {s : Sccs} {book : Book}
    (bound : Bound s book) {fields : Heap} (valid : fields.Valid) :
    ∃ news, Holds (bin_heapRepack changesetKey BAMkey s fields) news ∧
      AllMarked (bin_heapRepack changesetKey BAMkey s fields).weave := by
  let oldest := oldestKeys changesetKey BAMkey s ((List.range s.table).map (· + 1))
  let ds := (List.range s.table).reverse.map (· + 1)
  let r : Repack := { rkeys := [], tipkeys := [], heap := fields }
  let packed := repackLoop s oldest.hash r ds
  let withTips : Heap := { packed.1.heap with strs := packed.1.heap.strs ++ packed.1.tipkeys }
  let heap := addRootkeys s.heap withTips (oldest.comprk ++ oldest.bamrk ++ packed.1.rkeys)
  let place := fun rk => sccs_hasRootkey heap (heapStr s.heap rk)
  have sound : r.Sound := ⟨nodup_nil,valid⟩
  obtain ⟨_,soundLater,keys,places⟩ := repackLoop_spec oldest.hash place packed.1.rkeys
    packed.1.heap.len
    bound ds (nodup_newestFirst s.table) r sound
  obtain ⟨news,copied,blocks⟩ := places [] (fun n nonzero => by simp [r]; omega) prefix_rfl
    (by unfold Heap.len; exact Nat.lt_succ_self _)
  have validTips : withTips.Valid := soundLater.heap.append _
  obtain ⟨validHeap,le,found⟩ :=
    addRootkeys_spec s.heap (oldest.comprk ++ oldest.bamrk ++ packed.1.rkeys) validTips
  have inside : ∀ d items, book d = some items → d ∈ ds := by
    intro d items here
    exact (mem_newestFirst s.table d).mpr (bound.filed.inTable d items here)
  have placed : ∀ d items item, book d = some items → item ∈ items → place item.rk ≠ 0 := by
    intro d items item here member
    apply found
    rw [mem_append]
    exact .inr (keys d (inside d items here) items here item member)
  have injective : ∀ d items item d' items' item', book d = some items → item ∈ items →
      book d' = some items' → item' ∈ items' → place item.rk = place item'.rk →
        item.rk = item'.rk := by
    intro d items item d' items' item' here member here' member' same
    exact bound.heap.heapStr_inj (bound.filed.rootkey d items item here member)
      (bound.filed.rootkey d' items' item' here' member')
      (validHeap.key_inj _ _ (placed d items item here member) same)
  -- what the hash says of the rootkey of an entry
  have first : ∀ d items item, book d = some items → item ∈ items →
      ∃ e older oldestItem, book e = some older ∧ oldestItem ∈ older ∧ oldestItem.rk = item.rk ∧
        oldest.hash item.rk = some oldestItem.dk ∧ ∀ d', d' < e → ¬ book.Has d' item.rk := by
    intro d items item here member
    rcases oldestKeys_spec changesetKey BAMkey bound s.table item.rk with ⟨_,absent⟩ | known
    · exact absurd ⟨items,here,mem_map.mpr ⟨item,member,rfl⟩⟩
        (absent d (bound.filed.inTable d items here).2)
    · exact known
  have holds : Holds (bin_heapRepack changesetKey BAMkey s fields) news := by
    refine ⟨⟨blocks,validHeap,?_,⟨?_,?_,?_,?_⟩⟩,?_⟩
    · intro d copy there
      obtain ⟨_,items,here,moved⟩ := copied.source d copy there
      constructor
      · rw [moved_rks moved]
        apply List.Nodup.map_on _ (bound.shaped d items here).single
        intro a inA b inB same
        obtain ⟨itemA,memberA,rfl⟩ := mem_map.mp inA
        obtain ⟨itemB,memberB,rfl⟩ := mem_map.mp inB
        exact injective d items itemA d items itemB here memberA here memberB same
      · intro new member
        have fresh := copied.fresh d copy new there member
        unfold Repack.Fresh Heap.len at fresh
        omega
    · intro d copy there
      obtain ⟨member,_⟩ := copied.source d copy there
      exact (mem_newestFirst s.table d).mp member
    · intro d copy new there member
      obtain ⟨_,items,here,moved⟩ := copied.source d copy there
      obtain ⟨item,inItems,own⟩ := forall₂_source moved member
      rw [own.rk]
      exact ((validHeap.found _ _ (placed d items item here inItems)).mp rfl).1
    · intro d copy new there member
      have fresh : Repack.Fresh packed.1.heap.len r packed.1 new.dk :=
        copied.fresh d copy new there member
      have grown : withTips.strs.length ≤ heap.strs.length := le.length
      have tips : withTips.strs.length = packed.1.heap.strs.length + packed.1.tipkeys.length :=
        length_append
      change new.dk ≤ heap.strs.length
      unfold Repack.Fresh Heap.len at fresh
      omega
    · intro d copy new d' copy' new' there member there' member' same
      obtain ⟨equal,identical⟩ := copied.own d copy new d' copy' new' there member there' member' same
      exact ⟨equal,by rw [identical]⟩
    · intro d copy new there member marked e less has
      obtain ⟨_,items,here,moved⟩ := copied.source d copy there
      obtain ⟨item,inItems,own⟩ := forall₂_source moved member
      obtain ⟨e',older,oldestItem,page,inPage,same,known,least⟩ := first d items item here inItems
      rw [own.mark] at marked
      have equal : oldestItem.dk = item.dk := by
        have both := known.symm.trans (of_decide_eq_true marked)
        exact Option.some.inj both
      have serial :=
        (bound.filed.own e' older oldestItem d items item page inPage here inItems equal).1
      obtain ⟨olderCopy,pageCopy,listed⟩ := has
      obtain ⟨_,olderItems,hereOlder,movedOlder⟩ := copied.source e olderCopy pageCopy
      rw [moved_rks movedOlder,map_map] at listed
      obtain ⟨other,inOther,sameKey⟩ := mem_map.mp listed
      have rootkey := injective e olderItems other d items item hereOlder inOther here inItems
        (sameKey.trans own.rk)
      apply least e (by omega)
      exact ⟨olderItems,hereOlder,mem_map.mpr ⟨other,inOther,rootkey⟩⟩
  refine ⟨news,holds,?_⟩
  intro d block rk dk here member
  obtain ⟨copy,there,rfl⟩ := holds.get here
  obtain ⟨new,inCopy,same,_⟩ := (mem_flat copy rk dk).mp member
  obtain ⟨_,items,page,moved⟩ := copied.source d copy there
  obtain ⟨item,inItems,own⟩ := forall₂_source moved inCopy
  obtain ⟨e,older,oldestItem,pageOlder,inOlder,sameKey,known,_⟩ := first d items item page inItems
  obtain ⟨olderCopy,pageCopy,movedOlder⟩ := copied.page e (inside e older pageOlder) older pageOlder
  obtain ⟨marker,inMarker,ownMarker⟩ := forall₂_source movedOlder.flip inOlder
  refine ⟨e,flat olderCopy,by rw [holds.blocks,pageCopy]; rfl,?_⟩
  apply (mem_flat _ _ _).mpr
  refine ⟨marker,inMarker,?_,.inr ⟨?_,rfl⟩⟩
  · rw [ownMarker.rk,sameKey,← own.rk,same]
  · rw [ownMarker.mark,sameKey,known]
    simp

end BitKeeper.CsetWeave
