import BitKeeper.CsetWeave.Set

/-!
The walk over the old csets in `fastCsetWeave`. If no older cset has a rootkey of the hash, the
marker of a newer cset is removed; the counter stops the walk once all are decided.
-/

namespace BitKeeper.CsetWeave

open List Function

variable {book : Book}

theorem mem_rdweave {s : Sccs} (bound : Bound s book) (d rk dk : Nat) :
    (d, rk, dk) ∈ rdweave s ↔ ∃ items, book d = some items ∧ (rk, dk) ∈ flat items := by
  unfold rdweave
  rw [mem_flatMap]
  constructor
  · rintro ⟨i,_inside,pair⟩
    obtain ⟨⟨r,k⟩,member,same⟩ := mem_map.mp pair
    cases same
    rw [bound.blocks] at member
    cases here : book (i + 1) with
    | none =>
      rw [here] at member
      cases member
    | some items =>
      rw [here] at member
      exact ⟨items,rfl,member⟩
  · rintro ⟨items,here,member⟩
    have inTable := bound.filed.inTable d items here
    obtain ⟨i,rfl⟩ := Nat.exists_eq_succ_of_ne_zero inTable.1
    refine ⟨i,mem_reverse.mpr (mem_range.mpr (by omega)),?_⟩
    rw [Nat.succ_eq_add_one] at here
    rw [bound.blocks,here]
    exact mem_map.mpr ⟨(rk, dk),member,rfl⟩

theorem nodup_rdweave {s : Sccs} (bound : Bound s book) : (rdweave s).Nodup := by
  unfold rdweave
  rw [nodup_flatMap]
  constructor
  · intro i _inside
    rw [bound.blocks]
    apply List.Nodup.map
    · intro p q same
      exact congrArg Prod.snd same
    · cases here : book (i + 1) with
      | none => exact nodup_nil
      | some items => exact nodup_flat (bound.shaped _ items here)
  · have distinct : (List.range s.table).reverse.Nodup := nodup_reverse.mpr nodup_range
    apply List.Pairwise.imp _ distinct
    intro i j different p inI inJ
    obtain ⟨a,_,rfl⟩ := mem_map.mp inI
    obtain ⟨b,_,same⟩ := mem_map.mp inJ
    have serial : j + 1 = i + 1 := congrArg Prod.fst same
    exact different (by omega)

def Item.clear (cleared : Finset Nat) (item : Item) : Item :=
  if item.rk ∈ cleared then { item with mark := false } else item

def Book.clear (book : Book) (cleared : Finset Nat) : Book :=
  fun d => (book d).map (fun items => items.map (Item.clear cleared))

variable (cleared : Finset Nat)

theorem Item.clear_rk (item : Item) : (item.clear cleared).rk = item.rk := by
  unfold Item.clear
  split <;> rfl

theorem Item.clear_dk (item : Item) : (item.clear cleared).dk = item.dk := by
  unfold Item.clear
  split <;> rfl

theorem Item.clear_mark (item : Item) (marked : (item.clear cleared).mark = true) :
    item.rk ∉ cleared ∧ item.clear cleared = item ∧ item.mark = true := by
  unfold Item.clear at marked ⊢
  split
  · rename_i inside
    rw [if_pos inside] at marked
    cases marked
  · rename_i outside
    rw [if_neg outside] at marked
    exact ⟨outside,rfl,marked⟩

theorem Book.clear_some {cleared : Finset Nat} {d : Nat} {items : List Item}
    (here : book.clear cleared d = some items) :
    ∃ before, book d = some before ∧ items = before.map (Item.clear cleared) := by
  obtain ⟨before,found,same⟩ := Option.map_eq_some_iff.mp here
  exact ⟨before,found,same.symm⟩

private theorem map_clear_rk (items : List Item) :
    (items.map (Item.clear cleared)).map (·.rk) = items.map (·.rk) := by
  rw [map_map]
  apply map_congr_left
  intro item _member
  exact item.clear_rk cleared

theorem Book.clear_has (book : Book) (cleared : Finset Nat) (d rk : Nat) :
    (book.clear cleared).Has d rk ↔ book.Has d rk := by
  constructor
  · rintro ⟨items,here,member⟩
    obtain ⟨before,found,rfl⟩ := Book.clear_some here
    rw [map_clear_rk] at member
    exact ⟨before,found,member⟩
  · rintro ⟨before,found,member⟩
    refine ⟨before.map (Item.clear cleared),?_,?_⟩
    · unfold Book.clear
      rw [found]
      rfl
    · rwa [map_clear_rk]

theorem Book.Shaped.clear (shaped : book.Shaped) (cleared : Finset Nat) :
    (book.clear cleared).Shaped := by
  intro d items here
  obtain ⟨before,found,rfl⟩ := Book.clear_some here
  constructor
  · rw [map_clear_rk]
    exact (shaped d before found).single
  · intro item member
    obtain ⟨old,listed,rfl⟩ := mem_map.mp member
    rw [old.clear_dk]
    exact (shaped d before found).real old listed

theorem Filed.clear {heap : Heap} {table : Nat} (filed : Filed heap table book)
    (cleared : Finset Nat) : Filed heap table (book.clear cleared) := by
  refine ⟨?_,?_,?_,?_⟩
  · intro d items here
    obtain ⟨before,found,rfl⟩ := Book.clear_some here
    exact filed.inTable d before found
  · intro d items item here member
    obtain ⟨before,found,rfl⟩ := Book.clear_some here
    obtain ⟨old,listed,rfl⟩ := mem_map.mp member
    rw [old.clear_rk]
    exact filed.rootkey d before old found listed
  · intro d items item here member
    obtain ⟨before,found,rfl⟩ := Book.clear_some here
    obtain ⟨old,listed,rfl⟩ := mem_map.mp member
    rw [old.clear_dk]
    exact filed.deltakey d before old found listed
  · intro d items item d' items' item' here member here' member' same
    obtain ⟨before,found,rfl⟩ := Book.clear_some here
    obtain ⟨before',found',rfl⟩ := Book.clear_some here'
    obtain ⟨old,listed,rfl⟩ := mem_map.mp member
    obtain ⟨old',listed',rfl⟩ := mem_map.mp member'
    rw [old.clear_dk,old'.clear_dk] at same
    rw [old.clear_rk,old'.clear_rk]
    exact filed.own d before old d' before' old' found listed found' listed' same

/-- Only one cset can carry the mark of a rootkey, so unmarking it there is enough. -/
theorem Book.Truthful.remark_clear (truthful : book.Truthful) (shaped : book.Shaped)
    (cleared : Finset Nat) (d rk : Nat) (items : List Item) (item : Item)
    (here : book d = some items) (member : item ∈ items) (own : item.rk = rk)
    (marked : item.mark = true) :
    (book.clear cleared).remark d rk false = book.clear (insert rk cleared) := by
  have step : ∀ other : Item, (other.clear cleared).remark rk false = other.clear
      (insert rk cleared) := by
    intro other
    unfold Item.remark
    rw [other.clear_rk]
    unfold Item.clear
    simp only [Finset.mem_insert]
    by_cases same : other.rk = rk <;> by_cases before : other.rk ∈ cleared <;> simp [same,before]
    · rw [same] at before
      simp [before]
    · rw [same] at before
      simp [before]
  funext e
  unfold Book.remark
  by_cases same : e = d
  · subst same
    rw [update_self]
    unfold Book.clear
    rw [here]
    simp only [Option.map_some,map_map]
    congr 1
    apply map_congr_left
    intro other _listed
    exact step other
  rw [update_of_ne same]
  unfold Book.clear
  cases there : book e with
  | none => rfl
  | some others =>
    simp only [Option.map_some]
    congr 1
    apply map_congr_left
    intro other listed
    rw [← step other]
    unfold Item.remark
    rw [other.clear_rk]
    split
    · rename_i equal
      have unmarked : other.mark = false := by
        by_contra positive
        have unique := truthful.mark_unique shaped there listed (by simpa using positive) here
          member marked (equal.trans own.symm)
        exact same unique.1
      unfold Item.clear
      split
      · rfl
      · cases other
        simp only at unmarked
        rw [unmarked]
    · rfl

/-- For a rootkey of the hash nothing older was found and no marker is left, or something older was
found. -/
structure Cleared (book : Book) (hash : Hash) (s : Sccs) (h : Hash) (cleared : Finset Nat) :
    Prop where
  blocks : ∀ d, s.weave d = (book.clear cleared d).map flat
  decided : ∀ rk, hash_fetchU32U32 hash rk ≠ 0 → hash_fetchU32U32 h rk = hash_fetchU32U32 hash rk ∧
        (∀ e, e < hash_fetchU32U32 hash rk → ¬ book.Has e rk) ∧
        (∀ d items item, book.clear cleared d = some items → item ∈ items → item.rk = rk →
          item.mark = false) ∨
      hash_fetchU32U32 h rk = 0 ∧ ∃ e, e < hash_fetchU32U32 hash rk ∧ book.Has e rk
  absent : ∀ rk, hash_fetchU32U32 hash rk = 0 → hash_fetchU32U32 h rk = 0

structure Clearing (book : Book) (hash : Hash) (s : Sccs) (h : Hash)
    (seen : List (Nat × Nat × Nat)) (pending cleared : Finset Nat) : Prop where
  blocks : ∀ d, s.weave d = (book.clear cleared d).map flat
  undecided : ∀ rk ∈ pending, hash_fetchU32U32 h rk = hash_fetchU32U32 hash rk ∧ rk ∉ cleared ∧
    ∀ d dk, (d, rk, dk) ∈ seen → hash_fetchU32U32 hash rk < d ∧ dk ≠ 0
  settled : ∀ rk, hash_fetchU32U32 hash rk ≠ 0 → rk ∉ pending →
    rk ∈ cleared ∧ hash_fetchU32U32 h rk = hash_fetchU32U32 hash rk ∧
        (∃ d, hash_fetchU32U32 hash rk < d ∧ (d, rk, 0) ∈ seen) ∨
      hash_fetchU32U32 h rk = 0 ∧ ∃ e, e < hash_fetchU32U32 hash rk ∧ book.Has e rk
  absent : ∀ rk, hash_fetchU32U32 hash rk = 0 → hash_fetchU32U32 h rk = 0

section Walk
variable {book : Book} {hash : Hash}

structure Pairs (book : Book) (pairs : List (Nat × Nat × Nat)) : Prop where
  mem : ∀ d rk dk, (d, rk, dk) ∈ pairs ↔ ∃ items, book d = some items ∧ (rk, dk) ∈ flat items
  nodup : pairs.Nodup

variable {pairs : List (Nat × Nat × Nat)}

theorem Pairs.has (read : Pairs book pairs) {d rk dk : Nat} (member : (d, rk, dk) ∈ pairs) :
    book.Has d rk := by
  obtain ⟨items,here,pair⟩ := (read.mem d rk dk).mp member
  obtain ⟨item,listed,same,_⟩ := (mem_flat items rk dk).mp pair
  exact ⟨items,here,mem_map.mpr ⟨item,listed,same⟩⟩

theorem Pairs.marked (read : Pairs book pairs) (shaped : book.Shaped) {d rk : Nat}
    (member : (d, rk, 0) ∈ pairs) :
    ∃ items item, book d = some items ∧ item ∈ items ∧ item.rk = rk ∧ item.mark = true := by
  obtain ⟨items,here,pair⟩ := (read.mem d rk 0).mp member
  obtain ⟨item,listed,same,marked⟩ := ((shaped d items here).mem_marker rk).mp pair
  exact ⟨items,item,here,listed,same,marked⟩

theorem Clearing.done {s : Sccs} {h : Hash} {seen : List (Nat × Nat × Nat)}
    {pending cleared : Finset Nat} (clearing : Clearing book hash s h seen pending cleared)
    (read : Pairs book pairs) (shaped : book.Shaped) (truthful : book.Truthful)
    (seenRead : ∀ p ∈ seen, p ∈ pairs) (complete : pending = ∅ ∨ ∀ p ∈ pairs, p ∈ seen) :
    Cleared book hash s h cleared := by
  refine ⟨clearing.blocks,?_,clearing.absent⟩
  intro rk known
  by_cases waiting : rk ∈ pending
  · obtain ⟨same,_kept,passed⟩ := clearing.undecided rk waiting
    have all := complete.resolve_left (fun empty => by rw [empty] at waiting; simp at waiting)
    refine .inl ⟨same,?_,?_⟩
    · rintro e less ⟨items,here,member⟩
      obtain ⟨item,listed,equal⟩ := mem_map.mp member
      have pair := (read.mem e rk item.dk).mpr
        ⟨items,here,(mem_flat _ _ _).mpr ⟨item,listed,equal,.inl rfl⟩⟩
      have later := (passed e item.dk (all _ pair)).1
      omega
    · intro d items item here listed equal
      by_contra positive
      obtain ⟨before,found,rfl⟩ := Book.clear_some here
      obtain ⟨old,listedOld,rfl⟩ := mem_map.mp listed
      obtain ⟨_,_,marked⟩ := old.clear_mark cleared (by simpa using positive)
      rw [old.clear_rk] at equal
      have pair := (read.mem d rk 0).mpr
        ⟨before,found,(mem_flat _ _ _).mpr ⟨old,listedOld,equal,.inr ⟨marked,rfl⟩⟩⟩
      exact (passed d 0 (all _ pair)).2 rfl
  · rcases clearing.settled rk known waiting with ⟨inside,same,d,later,marker⟩ | older
    · refine .inl ⟨same,?_,?_⟩
      · intro e less has
        obtain ⟨items,item,here,listed,equal,marked⟩ := read.marked shaped (seenRead _ marker)
        exact truthful d items item here listed marked e (by omega) (equal.symm ▸ has)
      intro d' items item here listed equal
      by_contra positive
      obtain ⟨before,found,rfl⟩ := Book.clear_some here
      obtain ⟨old,listedOld,rfl⟩ := mem_map.mp listed
      rw [old.clear_rk] at equal
      obtain ⟨outside,_,_⟩ := old.clear_mark cleared (by simpa using positive)
      exact outside (equal ▸ inside)
    · exact .inr older

theorem hash_fetch_update_zero (h : Hash) (rk other : Nat) :
    hash_fetchU32U32 (update h rk (some 0)) other =
      if other = rk then 0 else hash_fetchU32U32 h other := by
  unfold hash_fetchU32U32
  by_cases same : other = rk
  · rw [same,update_self,if_pos rfl]
    rfl
  · rw [update_of_ne same,if_neg same]

section Step
variable {s : Sccs} {h : Hash} {seen rest : List (Nat × Nat × Nat)} {pending cleared : Finset Nat}
  {d rk dk : Nat}

variable (clearing : Clearing book hash s h seen pending cleared)
include clearing

theorem Clearing.skip (nothing : hash_fetchU32U32 h rk = 0 ∨ hash_fetchU32U32 h rk < d ∧ dk ≠ 0)
    (known : ∀ rk ∈ pending, hash_fetchU32U32 hash rk ≠ 0) :
    Clearing book hash s h (seen ++ [(d, rk, dk)]) pending cleared := by
  refine ⟨clearing.blocks,?_,?_,clearing.absent⟩
  · intro other waiting
    obtain ⟨same,kept,passed⟩ := clearing.undecided other waiting
    refine ⟨same,kept,?_⟩
    intro e k member
    rcases mem_append.mp member with before | last
    · exact passed e k before
    · cases mem_singleton.mp last
      rcases nothing with zero | passing
      · exact absurd (same.symm.trans zero) (known _ waiting)
      · rwa [← same]
  · intro other present done
    rcases clearing.settled other present done with ⟨inside,same,e,later,marker⟩ | older
    · exact .inl ⟨inside,same,e,later,mem_append_left _ marker⟩
    · exact .inr older

theorem Clearing.undecided_of_pair
    (read : Pairs book pairs) (shaped : book.Shaped) (truthful : book.Truthful)
    (split : pairs = seen ++ (d, rk, dk) :: rest) (present : hash_fetchU32U32 h rk ≠ 0)
    (deciding : hash_fetchU32U32 h rk < d ∧ dk = 0 ∨ d < hash_fetchU32U32 h rk) :
    rk ∈ pending := by
  by_contra done
  have known : hash_fetchU32U32 hash rk ≠ 0 := fun zero => present (clearing.absent rk zero)
  have here : (d, rk, dk) ∈ pairs := by
    rw [split]
    simp
  rcases clearing.settled rk known done with ⟨_inside,same,e,later,marker⟩ | ⟨zero,_⟩
  · have markerRead : (e, rk, 0) ∈ pairs := by
      rw [split]
      exact mem_append_left _ marker
    obtain ⟨items,item,found,listed,equal,marked⟩ := read.marked shaped markerRead
    rcases deciding with ⟨_,zero⟩ | older
    · subst zero
      obtain ⟨items',item',found',listed',equal',marked'⟩ := read.marked shaped here
      have unique := truthful.mark_unique shaped found listed marked found' listed' marked'
        (equal.trans equal'.symm)
      rw [unique.1] at marker
      have nodup := read.nodup
      rw [split] at nodup
      exact (nodup_append.mp nodup).2.2 _ marker _ (by simp) rfl
    · apply truthful e items item found listed marked d (by omega)
      rw [equal]
      exact read.has here
  · exact present zero

theorem Clearing.unmark (read : Pairs book pairs) (shaped : book.Shaped) (truthful : book.Truthful)
    (member : (d, rk, 0) ∈ pairs) (waiting : rk ∈ pending) (later : hash_fetchU32U32 hash rk < d) :
    ∃ after, weave_updateMarker s d rk false = some after ∧ after.heap = s.heap ∧
      after.table = s.table ∧
      Clearing book hash after h (seen ++ [(d, rk, 0)]) (pending.erase rk) (insert rk cleared) := by
  obtain ⟨items,item,here,listed,equal,marked⟩ := read.marked shaped member
  obtain ⟨sameFetch,kept,_passed⟩ := clearing.undecided rk waiting
  have page : book.clear cleared d = some (items.map (Item.clear cleared)) := by
    unfold Book.clear
    rw [here]
    rfl
  have opposite : ∀ other ∈ items.map (Item.clear cleared), other.rk = rk → other.mark = !false := by
    intro other inside same
    obtain ⟨old,listedOld,rfl⟩ := mem_map.mp inside
    rw [old.clear_rk] at same
    have own := (shaped d items here).eq_of_rk listedOld listed (same.trans equal.symm)
    unfold Item.clear
    rwa [if_neg (same ▸ kept),own]
  obtain ⟨after,updated,heap,table,blocks⟩ := weave_updateMarker_spec clearing.blocks
    (shaped.clear cleared) d rk false _ page
    (by rw [map_clear_rk]; exact mem_map.mpr ⟨item,listed,equal⟩) opposite
  refine ⟨after,updated,heap,table,?_,?_,?_,clearing.absent⟩
  · rwa [truthful.remark_clear shaped cleared d rk items item here listed equal marked] at blocks
  · intro other still
    obtain ⟨different,before⟩ := Finset.mem_erase.mp still
    obtain ⟨same,notCleared,passed⟩ := clearing.undecided other before
    refine ⟨same,by simp [different,notCleared],?_⟩
    intro e k inside
    rcases mem_append.mp inside with old | last
    · exact passed e k old
    · cases mem_singleton.mp last
      exact absurd rfl different
  · intro other known done
    by_cases own : other = rk
    · subst own
      exact .inl ⟨by simp,sameFetch,d,later,by simp⟩
    · have notBefore : other ∉ pending := fun before => done (Finset.mem_erase.mpr ⟨own,before⟩)
      rcases clearing.settled other known notBefore with ⟨inside,same,e,newer,marker⟩ | older
      · exact .inl ⟨by simp [inside],same,e,newer,mem_append_left _ marker⟩
      · exact .inr older

theorem Clearing.older (has : book.Has d rk) (less : d < hash_fetchU32U32 hash rk) :
    Clearing book hash s (update h rk (some 0)) (seen ++ [(d, rk, dk)]) (pending.erase rk)
      cleared := by
  refine ⟨clearing.blocks,?_,?_,?_⟩
  · intro other still
    obtain ⟨different,before⟩ := Finset.mem_erase.mp still
    obtain ⟨same,kept,passed⟩ := clearing.undecided other before
    rw [hash_fetch_update_zero,if_neg different]
    refine ⟨same,kept,?_⟩
    intro e k inside
    rcases mem_append.mp inside with old | last
    · exact passed e k old
    · cases mem_singleton.mp last
      exact absurd rfl different
  · intro other known done
    rw [hash_fetch_update_zero]
    split
    next own =>
      subst own
      exact .inr ⟨rfl,d,less,has⟩
    next own =>
      have notBefore : other ∉ pending := fun before => done (Finset.mem_erase.mpr ⟨own,before⟩)
      rcases clearing.settled other known notBefore with ⟨inside,same,e,newer,marker⟩ | older
      · exact .inl ⟨inside,same,e,newer,mem_append_left _ marker⟩
      · exact .inr older
  · intro other zero
    rw [hash_fetch_update_zero]
    split
    · rfl
    · exact clearing.absent other zero

end Step

theorem clearMarkers_spec (read : Pairs book pairs) (shaped : book.Shaped) (truthful : book.Truthful)
    (free : ∀ rk, hash_fetchU32U32 hash rk ≠ 0 → book (hash_fetchU32U32 hash rk) = none)
    (rest seen : List (Nat × Nat × Nat)) (s : Sccs) (h : Hash) (pending cleared : Finset Nat)
    (split : pairs = seen ++ rest) (clearing : Clearing book hash s h seen pending cleared)
    (known : ∀ rk ∈ pending, hash_fetchU32U32 hash rk ≠ 0) (nonempty : pending ≠ ∅) :
    ∃ after h' cleared', clearMarkers rest s h pending.card = some (after, h') ∧
      after.heap = s.heap ∧ after.table = s.table ∧ Cleared book hash after h' cleared' := by
  induction rest generalizing seen s h pending cleared with
  | nil =>
    refine ⟨s,h,cleared,rfl,rfl,rfl,clearing.done read shaped truthful ?_ (.inr ?_)⟩
    · intro p member
      rw [split]
      exact mem_append_left _ member
    · intro p member
      rwa [split,append_nil] at member
  | cons pair rest ih =>
    obtain ⟨d,rk,dk⟩ := pair
    have next : pairs = (seen ++ [(d, rk, dk)]) ++ rest := by rw [split,append_assoc,singleton_append]
    have here : (d, rk, dk) ∈ pairs := by
      rw [split]
      simp
    have seenRead : ∀ p ∈ seen ++ [(d, rk, dk)], p ∈ pairs := by
      intro p member
      rw [next]
      exact mem_append_left _ member
    -- one rootkey fewer is pending; the walk stops at none
    have proceed : ∀ (s' : Sccs) (h' : Hash) (cleared' : Finset Nat), rk ∈ pending →
        Clearing book hash s' h' (seen ++ [(d, rk, dk)]) (pending.erase rk) cleared' →
        ∃ after h'' cleared'', (if pending.card - 1 = 0 then some (s', h')
            else clearMarkers rest s' h' (pending.card - 1)) = some (after, h'') ∧
          after.heap = s'.heap ∧ after.table = s'.table ∧ Cleared book hash after h'' cleared'' := by
      intro s' h' cleared' waiting following
      have count : pending.card - 1 = (pending.erase rk).card :=
        (Finset.card_erase_of_mem waiting).symm
      rw [count]
      by_cases empty : pending.erase rk = ∅
      · rw [if_pos (by rw [empty]; rfl)]
        exact ⟨s',h',cleared',rfl,rfl,rfl, following.done read shaped truthful seenRead (.inl empty)⟩
      · rw [if_neg (by rwa [Finset.card_eq_zero])]
        exact ih _ s' h' _ cleared' next following
          (fun other member => known other (Finset.mem_of_mem_erase member)) empty
    rw [clearMarkers]
    split
    next zero =>
      exact ih _ s h pending cleared next (clearing.skip (.inl zero) known) known nonempty
    rename_i zero
    split
    next newer =>
      by_cases real : dk = 0
      · subst real
        rw [if_neg (by simp)]
        have waiting := clearing.undecided_of_pair read shaped truthful split zero (.inl ⟨newer,rfl⟩)
        have fetched := (clearing.undecided rk waiting).1
        obtain ⟨middle,updated,heap,table,following⟩ :=
          clearing.unmark read shaped truthful here waiting (fetched ▸ newer)
        obtain ⟨after,h',cleared',finished,heap',table',result⟩ :=
          proceed middle h _ waiting following
        refine ⟨after,h',cleared',?_,heap'.trans heap,table'.trans table,result⟩
        rwa [updated]
      · rw [if_pos real]
        exact ih _ s h pending cleared next (clearing.skip (.inr ⟨newer,real⟩) known) known nonempty
    · have present : hash_fetchU32U32 hash rk ≠ 0 := fun none => zero (clearing.absent rk none)
      have fetched : hash_fetchU32U32 h rk = hash_fetchU32U32 hash rk := by
        by_cases waiting : rk ∈ pending
        · exact (clearing.undecided rk waiting).1
        · rcases clearing.settled rk present waiting with ⟨_,same,_⟩ | ⟨none,_⟩
          · exact same
          · exact absurd none zero
      have less : d < hash_fetchU32U32 h rk := by
        apply Nat.lt_of_le_of_ne (by omega)
        intro equal
        obtain ⟨items,found,_⟩ := read.has here
        rw [equal,fetched,free rk present] at found
        cases found
      have waiting := clearing.undecided_of_pair read shaped truthful split zero (.inr less)
      exact proceed s _ cleared waiting (clearing.older (read.has here) (fetched ▸ less))

end Walk

end BitKeeper.CsetWeave
