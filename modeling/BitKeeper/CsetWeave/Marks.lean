import BitKeeper.CsetWeave.Model

/-!
When the markers of a ChangeSet weave are truthful. A block is a list of entries that carry their
own mark, so a marker without its pair cannot be written down.
-/

namespace BitKeeper.CsetWeave

open Function Option
open List hiding getElem?_eq_some_iff

/-- A marker stands right behind the pair of its rootkey in the oldest cset with it; a rootkey has
at most one. -/
structure Good (weave : Nat → Option Block) : Prop where
  placed : ∀ d block (i rk : Nat), weave d = some block → block[i]? = some (rk, 0) →
    ∃ dk, dk ≠ 0 ∧ i ≠ 0 ∧ block[i - 1]? = some (rk, dk) ∧
      ∀ e older, e < d → weave e = some older → ∀ k, k ≠ 0 → (rk, k) ∉ older
  once : ∀ d block (i : Nat) d' block' (i' rk : Nat), weave d = some block →
    block[i]? = some (rk, 0) →
    weave d' = some block' → block'[i']? = some (rk, 0) → d = d' ∧ i = i'

structure Heap.Valid (h : Heap) : Prop where
  inside : ∀ off ∈ h.uniq, off ≠ 0 ∧ off ≤ h.strs.length
  distinct : ∀ a ∈ h.uniq, ∀ b ∈ h.uniq, h.strs[a - 1]? = h.strs[b - 1]? → a = b

/-- What else the file keeps: one pair for a rootkey in a cset, rootkeys the heap can find, every
pair its own deltakey. -/
structure Kept (s : Sccs) : Prop where
  heap : s.heap.Valid
  inTable : ∀ d block, s.weave d = some block → d ≠ 0 ∧ d ≤ s.table
  single : ∀ d block, s.weave d = some block → ((block.filter (·.2 ≠ 0)).map (·.1)).Nodup
  rootkey : ∀ d block rk dk, s.weave d = some block → (rk, dk) ∈ block → rk ∈ s.heap.uniq
  deltakey : ∀ d block rk dk, s.weave d = some block → (rk, dk) ∈ block → dk ≤ s.heap.strs.length
  own : ∀ d block rk d' block' rk' dk, s.weave d = some block → (rk, dk) ∈ block →
    s.weave d' = some block' → (rk', dk) ∈ block' → dk ≠ 0 → d = d' ∧ rk = rk'

def AllMarked (weave : Nat → Option Block) : Prop :=
  ∀ d block rk dk, weave d = some block → (rk, dk) ∈ block →
    ∃ e first, weave e = some first ∧ (rk, 0) ∈ first

structure Item where
  rk : Nat
  dk : Nat
  mark : Bool
  deriving DecidableEq

def Item.pairs (item : Item) : Block := (item.rk, item.dk) :: if item.mark then [(item.rk, 0)] else []

def flat (items : List Item) : Block := items.flatMap Item.pairs

structure Shaped (items : List Item) : Prop where
  single : (items.map (·.rk)).Nodup
  real : ∀ item ∈ items, item.dk ≠ 0

theorem flat_cons (item : Item) (rest : List Item) :
    flat (item :: rest) = item.pairs ++ flat rest := by
  unfold flat
  rw [flatMap_cons]

theorem mem_flat (items : List Item) (rk dk : Nat) :
    (rk, dk) ∈ flat items ↔ ∃ item ∈ items, item.rk = rk ∧
      (item.dk = dk ∨ item.mark = true ∧ dk = 0) := by
  unfold flat
  rw [mem_flatMap]
  constructor
  · rintro ⟨item,member,pair⟩
    refine ⟨item,member,?_⟩
    rcases mem_cons.mp pair with same | marker
    · cases same
      exact ⟨rfl,.inl rfl⟩
    cases marked : item.mark with
    | false =>
      rw [marked] at marker
      cases marker
    | true =>
      rw [marked] at marker
      cases mem_singleton.mp marker
      exact ⟨rfl,.inr ⟨rfl,rfl⟩⟩
  · rintro ⟨item,member,rfl,same | ⟨marked,rfl⟩⟩
    · exact ⟨item,member,by simp [Item.pairs,same]⟩
    · exact ⟨item,member,by simp [Item.pairs,marked]⟩

theorem Shaped.tail {item : Item} {rest : List Item} (shaped : Shaped (item :: rest)) :
    Shaped rest :=
  ⟨(nodup_cons.mp shaped.single).2,fun other member => shaped.real other (by simp [member])⟩

variable {items : List Item}

theorem Shaped.mem_marker (shaped : Shaped items) (rk : Nat) :
    (rk, 0) ∈ flat items ↔ ∃ item ∈ items, item.rk = rk ∧ item.mark = true := by
  rw [mem_flat]
  constructor
  · rintro ⟨item,member,same,zero | ⟨marked,_⟩⟩
    · exact absurd zero (shaped.real item member)
    · exact ⟨item,member,same,marked⟩
  · rintro ⟨item,member,same,marked⟩
    exact ⟨item,member,same,.inr ⟨marked,rfl⟩⟩

theorem mem_pair (items : List Item) (rk dk : Nat) (real : dk ≠ 0) :
    (rk, dk) ∈ flat items ↔ ∃ item ∈ items, item.rk = rk ∧ item.dk = dk := by
  rw [mem_flat]
  constructor
  · rintro ⟨item,member,same,equal | ⟨_,zero⟩⟩
    · exact ⟨item,member,same,equal⟩
    · exact absurd zero real
  · rintro ⟨item,member,same,equal⟩
    exact ⟨item,member,same,.inl equal⟩

def Item.remark (rk : Nat) (mark : Bool) (item : Item) : Item :=
  if item.rk = rk then { item with mark := mark } else item

private theorem head_flat (items : List Item) :
    (flat items).head?.map (·.1) = items.head?.map (·.rk) := by
  cases items with
  | nil => rfl
  | cons item rest => rfl

theorem updateBlock_flat (rk : Nat) (add : Bool) (items : List Item) (shaped : Shaped items)
    (opposite : ∀ item ∈ items, item.rk = rk → item.mark = !add) :
    updateBlock rk add false (flat items) =
      some (flat (items.map (Item.remark rk add)), decide (rk ∈ items.map (·.rk))) := by
  induction items with
  | nil => rfl
  | cons item rest ih =>
    have later := ih shaped.tail (fun other member => opposite other (by simp [member]))
    rw [flat_cons,map_cons,flat_cons]
    by_cases same : item.rk = rk
    · have marked := opposite item (by simp) same
      have real := shaped.real item (by simp)
      have absent : rk ∉ rest.map (·.rk) := by
        rw [← same]
        exact (nodup_cons.mp shaped.single).1
      have next : (flat rest).head?.map (·.1) ≠ some rk := by
        rw [head_flat]
        intro found
        obtain ⟨other,first,equal⟩ := map_eq_some_iff.mp found
        exact absent (mem_map.mpr ⟨other,mem_of_mem_head? first,equal⟩)
      cases add with
      | true =>
        simp only [Item.pairs,Item.remark,same,marked,if_true,Bool.not_true,
          Bool.false_eq_true,if_false,cons_append,nil_append]
        rw [updateBlock,if_neg (by simp),if_neg real,if_pos rfl,if_neg next,later]
        simp [absent,same]
      | false =>
        simp only [Item.pairs,Item.remark,same,marked,if_true,Bool.not_false,
          Bool.false_eq_true,if_false,cons_append,nil_append]
        rw [updateBlock,if_neg (by simp),if_neg real,if_neg (by simp)]
        simp [updateBlock,later,absent,same]
    · have unchanged : item.remark rk add = item := if_neg same
      rw [unchanged]
      have skip : ∀ tail : Block, updateBlock rk add false (item.pairs ++ tail) =
          (updateBlock rk add false tail).map (fun w => (item.pairs ++ w.1, w.2)) := by
        intro tail
        unfold Item.pairs
        cases item.mark with
        | false =>
          simp only [Bool.false_eq_true,if_false,cons_append,nil_append]
          rw [updateBlock,if_pos same]
        | true =>
          simp only [if_true,cons_append,nil_append]
          rw [updateBlock,if_pos same,updateBlock,if_pos same,Option.map_map]
          rfl
      have different : rk ≠ item.rk := fun equal => same equal.symm
      rw [skip,later]
      simp [different]

abbrev Book := Nat → Option (List Item)

def Book.Has (book : Book) (d rk : Nat) : Prop := ∃ items, book d = some items ∧ rk ∈ items.map (·.rk)

def Book.Shaped (book : Book) : Prop := ∀ d items, book d = some items → CsetWeave.Shaped items

def Book.Truthful (book : Book) : Prop :=
  ∀ d items item, book d = some items → item ∈ items → item.mark = true → ∀ e, e < d →
    ¬ book.Has e item.rk

structure Filed (heap : Heap) (table : Nat) (book : Book) : Prop where
  inTable : ∀ d items, book d = some items → d ≠ 0 ∧ d ≤ table
  rootkey : ∀ d items item, book d = some items → item ∈ items → item.rk ∈ heap.uniq
  deltakey : ∀ d items item, book d = some items → item ∈ items → item.dk ≤ heap.strs.length
  own : ∀ d items item d' items' item', book d = some items → item ∈ items →
    book d' = some items' → item' ∈ items' → item.dk = item'.dk → d = d' ∧ item.rk = item'.rk

structure Bound (s : Sccs) (book : Book) : Prop where
  blocks : ∀ d, s.weave d = (book d).map flat
  heap : s.heap.Valid
  shaped : book.Shaped
  filed : Filed s.heap s.table book

structure Holds (s : Sccs) (book : Book) : Prop extends Bound s book where
  truthful : book.Truthful

theorem Shaped.eq_of_rk (shaped : Shaped items) {left right : Item} (inLeft : left ∈ items)
    (inRight : right ∈ items) (same : left.rk = right.rk) : left = right :=
  inj_on_of_nodup_map shaped.single inLeft inRight same

variable {book : Book}

theorem Book.Truthful.mark_unique (truthful : book.Truthful) (shaped : book.Shaped) {d d' : Nat}
    {items' : List Item} {item item' : Item} (here : book d = some items) (member : item ∈ items)
    (marked : item.mark = true) (there : book d' = some items') (member' : item' ∈ items')
    (marked' : item'.mark = true) (same : item.rk = item'.rk) : d = d' ∧ item = item' := by
  have has : book.Has d item.rk := ⟨items,here,mem_map.mpr ⟨item,member,rfl⟩⟩
  have has' : book.Has d' item.rk := ⟨items',there,mem_map.mpr ⟨item',member',same.symm⟩⟩
  rcases lt_trichotomy d d' with less | equal | greater
  · rw [same] at has
    exact absurd has (truthful d' items' item' there member' marked' d less)
  · subst equal
    rw [here] at there
    cases there
    exact ⟨rfl,(shaped d items here).eq_of_rk member member' same⟩
  · exact absurd has' (truthful d items item here member marked d' greater)

def parse : Block → List Item
  | [] => []
  | (rk, dk) :: (_, 0) :: rest => { rk := rk, dk := dk, mark := true } :: parse rest
  | (rk, dk) :: rest => { rk := rk, dk := dk, mark := false } :: parse rest

def MarkersBehind (block : Block) : Prop :=
  ∀ (i rk : Nat), block[i]? = some (rk, 0) → ∃ dk, dk ≠ 0 ∧ i ≠ 0 ∧ block[i - 1]? = some (rk, dk)

theorem MarkersBehind.head_real {rk dk : Nat} {rest : Block}
    (behind : MarkersBehind ((rk, dk) :: rest)) :
    dk ≠ 0 := by
  intro zero
  obtain ⟨_,_,later,_⟩ := behind 0 rk (by rw [zero]; rfl)
  exact later rfl

private theorem parse_spec (block : Block) (behind : MarkersBehind block) :
    flat (parse block) = block ∧ ∀ item ∈ parse block, item.dk ≠ 0 := by
  fun_induction parse block with
  | case1 => exact ⟨rfl,by simp⟩
  | case2 rk dk next rest ih =>
    obtain ⟨k,_,_,before⟩ := behind 1 next rfl
    have same : rk = next := (Prod.mk.inj (some.inj before)).1
    have later : MarkersBehind rest := by
      intro i rk' found
      obtain ⟨k',real,_,before'⟩ := behind (i + 2) rk' (by simpa using found)
      cases i with
      | zero =>
        have zero := (Prod.mk.inj (some.inj before')).2
        exact absurd zero.symm real
      | succ i => exact ⟨k',real,by omega,by simpa using before'⟩
    obtain ⟨flattened,real⟩ := ih later
    constructor
    · rw [flat_cons,flattened,same]
      rfl
    · exact forall_mem_cons.mpr ⟨behind.head_real,real⟩
  | case3 rk dk rest noMarker ih =>
    have later : MarkersBehind rest := by
      intro i rk' found
      obtain ⟨k',real,_,before'⟩ := behind (i + 1) rk' (by simpa using found)
      cases i with
      | zero =>
        cases rest with
        | nil => cases found
        | cons first rest =>
          have head : first = (rk', 0) := some.inj found
          exact absurd rfl (head ▸ noMarker rk' rest)
      | succ i => exact ⟨k',real,by omega,by simpa using before'⟩
    obtain ⟨flattened,real⟩ := ih later
    constructor
    · rw [flat_cons,flattened]
      rfl
    · exact forall_mem_cons.mpr ⟨behind.head_real,real⟩

theorem filter_flat (items : List Item) (real : ∀ item ∈ items, item.dk ≠ 0) :
    ((flat items).filter (·.2 ≠ 0)).map (·.1) = items.map (·.rk) := by
  induction items with
  | nil => rfl
  | cons item rest ih =>
    have own := real item (by simp)
    rw [flat_cons,filter_append,map_append,ih (fun other member => real other (by simp [member])),
      map_cons]
    unfold Item.pairs
    cases item.mark <;> simp [own]

theorem nodup_flat (shaped : Shaped items) : (flat items).Nodup := by
  unfold flat
  rw [nodup_flatMap]
  constructor
  · intro item member
    have real := shaped.real item member
    unfold Item.pairs
    cases item.mark <;> simp [real]
  have distinct := shaped.single
  unfold List.Nodup at distinct
  rw [pairwise_map] at distinct
  apply distinct.imp
  intro a b different p inA inB
  have first : ∀ item : Item, p ∈ item.pairs → p.1 = item.rk := by
    intro item member
    unfold Item.pairs at member
    cases item.mark <;> simp at member <;> grind only
  exact different ((first a inA).symm.trans (first b inB))

theorem markersBehind_flat (shaped : Shaped items) : MarkersBehind (flat items) := by
  induction items with
  | nil =>
    intro i rk found
    cases found
  | cons item rest ih =>
    intro i rk found
    have real := shaped.real item (by simp)
    rw [flat_cons] at found ⊢
    rcases Nat.lt_or_ge i item.pairs.length with inside | later
    · rw [getElem?_append_left inside] at found
      unfold Item.pairs at found inside ⊢
      cases marked : item.mark with
      | false =>
        rw [marked] at found inside
        cases i with
        | zero => exact absurd (Prod.mk.inj (some.inj found)).2 real
        | succ i => simp at inside
      | true =>
        rw [marked] at found inside
        cases i with
        | zero => exact absurd (Prod.mk.inj (some.inj found)).2 real
        | succ i =>
          have first : i = 0 := by simpa using inside
          subst first
          have same : item.rk = rk := (Prod.mk.inj (some.inj found)).1
          exact ⟨item.dk,real,by omega,by simp [same]⟩
    · rw [getElem?_append_right later] at found
      obtain ⟨dk,nonzero,inner,before⟩ := ih shaped.tail _ rk found
      refine ⟨dk,nonzero,by omega,?_⟩
      rw [getElem?_append_right (by omega),
        show i - 1 - item.pairs.length = i - item.pairs.length - 1 by omega,before]

variable {s : Sccs}

theorem Holds.get (holds : Holds s book) {d : Nat} {block : Block} (here : s.weave d = some block) :
    ∃ items, book d = some items ∧ block = flat items := by
  rw [holds.blocks,map_eq_some_iff] at here
  obtain ⟨items,found,same⟩ := here
  exact ⟨items,found,same.symm⟩

theorem Holds.good (holds : Holds s book) : Good s.weave := by
  constructor
  · intro d block i rk here marker
    obtain ⟨items,found,rfl⟩ := holds.get here
    have shaped := holds.shaped d items found
    obtain ⟨dk,real,later,before⟩ := markersBehind_flat shaped i rk marker
    refine ⟨dk,real,later,before,?_⟩
    intro e older less there k nonzero member
    obtain ⟨others,foundOlder,rfl⟩ := holds.get there
    obtain ⟨item,listed,same,marked⟩ := (shaped.mem_marker rk).mp (mem_of_getElem? marker)
    obtain ⟨other,listedOlder,sameOlder,_⟩ := (mem_pair others rk k nonzero).mp member
    apply holds.truthful d items item found listed marked e less
    exact ⟨others,foundOlder,mem_map.mpr ⟨other,listedOlder,sameOlder.trans same.symm⟩⟩
  · intro d block i d' block' i' rk here marker there marker'
    obtain ⟨items,found,rfl⟩ := holds.get here
    obtain ⟨items',found',rfl⟩ := holds.get there
    have shaped := holds.shaped d items found
    have shaped' := holds.shaped d' items' found'
    obtain ⟨item,listed,same,marked⟩ := (shaped.mem_marker rk).mp (mem_of_getElem? marker)
    obtain ⟨item',listed',same',marked'⟩ := (shaped'.mem_marker rk).mp (mem_of_getElem? marker')
    obtain ⟨equal,_⟩ := holds.truthful.mark_unique holds.shaped found listed marked found'
      listed' marked'
      (same.trans same'.symm)
    subst equal
    rw [found] at found'
    cases found'
    refine ⟨rfl,?_⟩
    rw [← marker'] at marker
    exact (getElem?_inj (List.getElem?_eq_some_iff.mp (marker.trans marker')).1
      (nodup_flat shaped)).mp marker

theorem Holds.kept (holds : Holds s book) : Kept s := by
  have shaped := holds.shaped
  refine ⟨holds.heap,?_,?_,?_,?_,?_⟩
  · intro d block here
    obtain ⟨items,found,rfl⟩ := holds.get here
    exact holds.filed.inTable d items found
  · intro d block here
    obtain ⟨items,found,rfl⟩ := holds.get here
    rw [filter_flat items (shaped d items found).real]
    exact (shaped d items found).single
  · intro d block rk dk here member
    obtain ⟨items,found,rfl⟩ := holds.get here
    obtain ⟨item,listed,same,_⟩ := (mem_flat items rk dk).mp member
    exact same ▸ holds.filed.rootkey d items item found listed
  · intro d block rk dk here member
    obtain ⟨items,found,rfl⟩ := holds.get here
    obtain ⟨item,listed,_,equal | ⟨_,zero⟩⟩ := (mem_flat items rk dk).mp member
    · exact equal ▸ holds.filed.deltakey d items item found listed
    · rw [zero]
      exact Nat.zero_le _
  · intro d block rk d' block' rk' dk here member there member' real
    obtain ⟨items,found,rfl⟩ := holds.get here
    obtain ⟨items',found',rfl⟩ := holds.get there
    obtain ⟨item,listed,same,equal⟩ := (mem_pair items rk dk real).mp member
    obtain ⟨item',listed',same',equal'⟩ := (mem_pair items' rk' dk real).mp member'
    rw [← same,← same']
    exact holds.filed.own d items item d' items' item' found listed found' listed'
      (equal.trans equal'.symm)

theorem holds_of_good (good : Good s.weave) (kept : Kept s) :
    Holds s (fun d => (s.weave d).map parse) := by
  have get : ∀ d items, (s.weave d).map parse = some items →
      s.weave d = some (flat items) ∧ Shaped items := by
    intro d items found
    obtain ⟨block,here,rfl⟩ := map_eq_some_iff.mp found
    have behind : MarkersBehind block := by
      intro i rk marker
      obtain ⟨dk,real,later,before,_⟩ := good.placed d block i rk here marker
      exact ⟨dk,real,later,before⟩
    obtain ⟨same,real⟩ := parse_spec block behind
    have single := kept.single d block here
    rw [← same,filter_flat _ real] at single
    exact ⟨same.symm ▸ here,single,real⟩
  refine ⟨⟨?_,kept.heap,fun d items found => (get d items found).2, ⟨?_,?_,?_,?_⟩⟩, ?_⟩
  · intro d
    cases found : (s.weave d).map parse with
    | none => exact map_eq_none_iff.mp found
    | some items => exact (get d items found).1
  · intro d items found
    exact kept.inTable d _ (get d items found).1
  · intro d items item found member
    exact kept.rootkey d _ item.rk item.dk (get d items found).1
      ((mem_flat _ _ _).mpr ⟨item,member,rfl,.inl rfl⟩)
  · intro d items item found member
    exact kept.deltakey d _ item.rk item.dk (get d items found).1
      ((mem_flat _ _ _).mpr ⟨item,member,rfl,.inl rfl⟩)
  · intro d items item d' items' item' found member found' member' same
    exact kept.own d _ item.rk d' _ item'.rk item.dk (get d items found).1
      ((mem_flat _ _ _).mpr ⟨item,member,rfl,.inl rfl⟩) (get d' items' found').1
      ((mem_flat _ _ _).mpr ⟨item',member',rfl,.inl same.symm⟩)
      ((get d items found).2.real item member)
  · intro d items item found member marked e less has
    obtain ⟨here,shaped⟩ := get d items found
    obtain ⟨others,foundOlder,listed⟩ := has
    obtain ⟨there,shapedOlder⟩ := get e others foundOlder
    obtain ⟨other,memberOlder,same⟩ := mem_map.mp listed
    obtain ⟨i,marker⟩ := mem_iff_getElem?.mp
      ((shaped.mem_marker item.rk).mpr ⟨item,member,rfl,marked⟩)
    obtain ⟨_,_,_,_,absent⟩ := good.placed d _ i item.rk here marker
    exact absent e _ less there other.dk (shapedOlder.real other memberOlder)
      ((mem_flat _ _ _).mpr ⟨other,memberOlder,same,.inl rfl⟩)

def Book.remark (book : Book) (d rk : Nat) (mark : Bool) : Book :=
  update book d ((book d).map (fun items => items.map (Item.remark rk mark)))

theorem weave_updateMarker_spec (blocks : ∀ d, s.weave d = (book d).map flat) (shaped : book.Shaped)
    (d rk : Nat) (add : Bool) (items : List Item) (here : book d = some items)
    (met : rk ∈ items.map (·.rk)) (opposite : ∀ item ∈ items, item.rk = rk → item.mark = !add) :
    ∃ after, weave_updateMarker s d rk add = some after ∧ after.heap = s.heap ∧
      after.table = s.table ∧ ∀ e, after.weave e = (book.remark d rk add e).map flat := by
  refine ⟨{ s with weave := update s.weave d (some (flat (items.map (Item.remark rk add)))) },
    ?_,rfl,rfl,?_⟩
  · unfold weave_updateMarker
    rw [blocks d,here,map_some,getD_some,
      updateBlock_flat rk add items (shaped d items here) opposite,decide_eq_true met]
  intro e
  unfold Book.remark
  change update s.weave d _ e = _
  by_cases same : e = d
  · subst same
    rw [update_self,update_self,here]
    rfl
  · rw [update_of_ne same,update_of_ne same]
    exact blocks e

end BitKeeper.CsetWeave
