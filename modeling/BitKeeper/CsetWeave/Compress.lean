import BitKeeper.CsetWeave.Set

/-!
`scompressGraph`: csets marked gone are dropped and the table closes up.  A
marker that goes with its cset is owed to the next cset with that rootkey.
-/

namespace BitKeeper.CsetWeave

open Function Nat
open List hiding getElem?_eq_some_iff

def Item.row (item : Item) : Nat × Nat := (item.rk, item.dk)

def SameRows (left right : Book) : Prop :=
  ∀ d, (left d).map (List.map Item.row) = (right d).map (List.map Item.row)

theorem SameRows.refl (book : Book) : SameRows book book := fun _ => rfl

variable {left right : Book} {d : Nat} {items : List Item}

theorem SameRows.get (same : SameRows left right) (here : left d = some items) :
    ∃ others, right d = some others ∧ items.map Item.row = others.map Item.row := by
  have point := same d
  rw [here,Option.map_some] at point
  obtain ⟨others,found,equal⟩ := Option.map_eq_some_iff.mp point.symm
  exact ⟨others,found,equal.symm⟩

theorem SameRows.item (same : SameRows left right) {item : Item} (here : left d = some items)
    (member : item ∈ items) :
    ∃ others other, right d = some others ∧ other ∈ others ∧ other.rk = item.rk ∧
      other.dk = item.dk := by
  obtain ⟨others,found,equal⟩ := same.get here
  have row : item.row ∈ others.map Item.row := by
    rw [← equal]
    exact mem_map.mpr ⟨item,member,rfl⟩
  obtain ⟨other,listed,rows⟩ := mem_map.mp row
  exact ⟨others,other,found,listed,congrArg Prod.fst rows,congrArg Prod.snd rows⟩

theorem rks_of_rows {left right : List Item} (same : left.map Item.row = right.map Item.row) :
    left.map (·.rk) = right.map (·.rk) := by
  have firsts := congrArg (List.map Prod.fst) same
  rwa [map_map,map_map] at firsts

theorem SameRows.shaped (same : SameRows left right) (shaped : right.Shaped) : left.Shaped := by
  intro d items here
  obtain ⟨others,found,equal⟩ := same.get here
  constructor
  · rw [rks_of_rows equal]
    exact (shaped d others found).single
  · intro item member
    obtain ⟨others',other,found',listed,_,dk⟩ := same.item here member
    rw [← dk]
    exact (shaped d others' found').real other listed

theorem SameRows.has (same : SameRows left right) {rk : Nat} (has : left.Has d rk) :
    right.Has d rk := by
  obtain ⟨items,here,member⟩ := has
  obtain ⟨others,found,equal⟩ := same.get here
  rw [rks_of_rows equal] at member
  exact ⟨others,found,member⟩

theorem remark_row (rk : Nat) (mark : Bool) (item : Item) : (item.remark rk mark).row = item.row := by
  unfold Item.remark
  split <;> rfl

theorem SameRows.remark (same : SameRows left right) (d rk : Nat) (mark : Bool) :
    SameRows (left.remark d rk mark) right := by
  intro e
  rw [← same e]
  unfold Book.remark
  by_cases own : e = d
  · subst own
    rw [update_self,Option.map_map]
    cases left e with
    | none => rfl
    | some items =>
      simp only [Option.map_some,comp_apply,map_map,Option.some.injEq]
      apply map_congr_left
      intro item _member
      exact remark_row rk mark item
  · rw [update_of_ne own]

def Owed (flags : Nat → Flag) (book : Book) (e rk : Nat) : Prop :=
  (∃ g items item, g < e ∧ book g = some items ∧ item ∈ items ∧ item.rk = rk ∧ item.mark = true) ∧
    ∀ d, d < e → flags d = .live → ¬ book.Has d rk

section Pairs
variable {flags : Nat → Flag} {book : Book} {e : Nat}

theorem compressPairs_gone (shaped : book.Shaped) (truthful : book.Truthful) (items : List Item)
    (here : book e = some items) (gone : flags e = .gone) (rest : Block)
    (part : ∀ p ∈ rest, p ∈ flat items) (s : Sccs) (h : Hash)
    (owed : ∀ rk, hash_fetchU32U32 h rk ≠ 0 → Owed flags book (e + 1) rk) :
    ∃ h', compressPairs e true rest s h = some (s, h') ∧
      ∀ rk, hash_fetchU32U32 h' rk ≠ 0 → Owed flags book (e + 1) rk := by
  induction rest generalizing h with
  | nil => exact ⟨h,rfl,owed⟩
  | cons pair rest ih =>
    obtain ⟨rkoff,dkoff⟩ := pair
    have later := ih (fun p member => part p (by simp [member]))
    rw [compressPairs,if_pos rfl]
    by_cases real : dkoff = 0
    · subst real
      rw [if_neg (by simp)]
      apply later
      intro rk nonzero
      unfold hash_insertU32U32 at nonzero
      split at nonzero
      · exact owed rk nonzero
      by_cases own : rk = rkoff
      · subst own
        obtain ⟨item,listed,same,marked⟩ :=
          ((shaped e items here).mem_marker rk).mp (part (rk, 0) (by simp))
        refine ⟨⟨e,items,item,by omega,here,listed,same,marked⟩,?_⟩
        intro d less live
        have different : d ≠ e := by
          intro equal
          rw [equal,gone] at live
          cases live
        rw [← same]
        exact truthful e items item here listed marked d (by omega)
      · unfold hash_fetchU32U32 at nonzero
        rw [update_of_ne own] at nonzero
        exact owed rk nonzero
    · rw [if_pos real]
      exact later h owed

structure Settling (flags : Nat → Flag) (book : Book) (e : Nat) (cur : Book) (s : Sccs) (h : Hash) :
    Prop where
  blocks : ∀ d, s.weave d = (cur d).map flat
  rows : SameRows cur book
  owed : ∀ rk, hash_fetchU32U32 h rk ≠ 0 → Owed flags book e rk ∧
    ∀ items item, cur e = some items → item ∈ items → item.rk = rk → item.mark = false
  marks : ∀ items item, cur e = some items → item ∈ items → item.mark = true →
    ∀ d, d < e → flags d = .live → ¬ book.Has d item.rk

theorem compressPairs_live (shaped : book.Shaped) (items : List Item) (here : book e = some items)
    (rest : Block) (part : ∀ p ∈ rest, p ∈ flat items) (cur : Book) (s : Sccs) (h : Hash)
    (settling : Settling flags book e cur s h) :
    ∃ after h' cur', compressPairs e false rest s h = some (after, h') ∧ after.heap = s.heap ∧
      after.table = s.table ∧ Settling flags book e cur' after h' ∧
      (∀ d, d ≠ e → cur' d = cur d) ∧ (∀ p ∈ rest, hash_fetchU32U32 h' p.1 = 0) ∧
      ∀ rk, hash_fetchU32U32 h rk = 0 → hash_fetchU32U32 h' rk = 0 := by
  induction rest generalizing cur s h with
  | nil => exact ⟨s,h,cur,rfl,rfl,rfl,settling,fun _ _ => rfl, by simp,fun _ zero => zero⟩
  | cons pair rest ih =>
    obtain ⟨rkoff,dkoff⟩ := pair
    have laterPart : ∀ p ∈ rest, p ∈ flat items := fun p member => part p (by simp [member])
    rw [compressPairs,if_neg (by simp)]
    by_cases zero : hash_fetchU32U32 h rkoff = 0
    · rw [if_neg (not_not.mpr zero)]
      obtain ⟨after,h',cur',finished,heap,table,done,kept,cleared,stays⟩ :=
        ih laterPart cur s h settling
      refine ⟨after,h',cur',finished,heap,table,done,kept,?_,stays⟩
      intro p member
      rcases mem_cons.mp member with same | later
      · rw [same]
        exact stays rkoff zero
      · exact cleared p later
    rw [if_pos zero]
    obtain ⟨owed,unmarked⟩ := settling.owed rkoff zero
    obtain ⟨item,listed,same,_⟩ := (mem_flat items rkoff dkoff).mp (part _ (by simp))
    have met : ∃ page, cur e = some page ∧ rkoff ∈ page.map (·.rk) := by
      have point := settling.rows e
      rw [here,Option.map_some] at point
      obtain ⟨page,found,rows⟩ := Option.map_eq_some_iff.mp point
      refine ⟨page,found,?_⟩
      rw [rks_of_rows rows]
      exact mem_map.mpr ⟨item,listed,same⟩
    obtain ⟨page,found,inPage⟩ := met
    obtain ⟨middle,updated,heap,table,blocks⟩ := weave_updateMarker_spec settling.blocks
      (settling.rows.shaped shaped) e rkoff true page found inPage
      (fun other member equal => unmarked page other found member equal)
    have pageAfter : ∀ others, cur.remark e rkoff true e = some others →
        others = page.map (Item.remark rkoff true) := by
      intro others equal
      unfold Book.remark at equal
      rw [update_self,found] at equal
      exact (Option.some.inj equal).symm
    have following : Settling flags book e (cur.remark e rkoff true) middle
        (update h rkoff (some 0)) := by
      refine ⟨blocks,settling.rows.remark e rkoff true,?_,?_⟩
      · intro rk nonzero
        have different : rk ≠ rkoff := by
          intro equal
          unfold hash_fetchU32U32 at nonzero
          rw [equal,update_self] at nonzero
          exact nonzero rfl
        have before : hash_fetchU32U32 h rk ≠ 0 := by
          unfold hash_fetchU32U32 at nonzero ⊢
          rwa [update_of_ne different] at nonzero
        obtain ⟨owedRk,plain⟩ := settling.owed rk before
        refine ⟨owedRk,?_⟩
        intro others other equal member own
        rw [pageAfter others equal] at member
        obtain ⟨old,inOld,rfl⟩ := mem_map.mp member
        have sameRk : (old.remark rkoff true).rk = old.rk := congrArg Prod.fst (remark_row _ _ old)
        rw [sameRk] at own
        unfold Item.remark
        rw [if_neg (fun equal => different (own.symm.trans equal))]
        exact plain page old found inOld own
      · intro others other equal member marked d less live
        rw [pageAfter others equal] at member
        obtain ⟨old,inOld,rfl⟩ := mem_map.mp member
        have sameRk : (old.remark rkoff true).rk = old.rk := congrArg Prod.fst (remark_row _ _ old)
        rw [sameRk]
        by_cases own : old.rk = rkoff
        · rw [own]
          exact owed.2 d less live
        · unfold Item.remark at marked
          rw [if_neg own] at marked
          exact settling.marks page old found inOld marked d less live
    obtain ⟨after,h',cur',finished,heap',table',done,kept,cleared,stays⟩ :=
      ih laterPart _ middle _ following
    refine ⟨after,h',cur',?_,heap'.trans heap,table'.trans table,done,?_,?_,?_⟩
    · rwa [updated]
    · intro d different
      rw [kept d different]
      unfold Book.remark
      rw [update_of_ne different]
    · intro p member
      rcases mem_cons.mp member with equal | later
      · rw [equal]
        apply stays
        unfold hash_fetchU32U32
        rw [update_self]
        rfl
      · exact cleared p later
    · intro rk none
      apply stays
      unfold hash_fetchU32U32 at none ⊢
      by_cases own : rk = rkoff
      · rw [own,update_self]
        rfl
      · rwa [update_of_ne own]

end Pairs

def liveSerials (flags : Nat → Flag) (n : Nat) : List Nat :=
  (List.range' 1 n).filter (fun d => flags d = .live)

structure Compressing (flags : Nat → Flag) (book : Book) (n : Nat) (cur : Book) (s : Sccs) (h : Hash)
    (kept : List (Option Block)) : Prop where
  blocks : ∀ d, s.weave d = (cur d).map flat
  rows : SameRows cur book
  ahead : ∀ d, n < d → cur d = book d
  owed : ∀ rk, hash_fetchU32U32 h rk ≠ 0 → Owed flags book (n + 1) rk
  marks : ∀ d items item, d ≤ n → flags d = .live → cur d = some items → item ∈ items →
    item.mark = true → ∀ d', d' < d → flags d' = .live → ¬ book.Has d' item.rk
  kept : kept = (liveSerials flags n).map (fun d => (cur d).map flat)

section Loop
variable {flags : Nat → Flag} {book : Book} {n : Nat} {cur : Book} {s : Sccs} {h : Hash}
  {kept : List (Option Block)}

private theorem liveSerials_succ (flags : Nat → Flag) (n : Nat) :
    liveSerials flags (n + 1) = liveSerials flags n ++ if flags (n + 1) = .live then
      [n + 1] else [] := by
  unfold liveSerials
  rw [range'_concat,filter_append,one_mul,add_comm 1 n]
  congr 1
  by_cases live : flags (n + 1) = .live <;> simp [live]

theorem mem_liveSerials (flags : Nat → Flag) (n d : Nat) (member : d ∈ liveSerials flags n) :
    d ≠ 0 ∧ d ≤ n ∧ flags d = .live := by
  unfold liveSerials at member
  rw [mem_filter,mem_range'_1] at member
  exact ⟨by omega,by omega,of_decide_eq_true member.2⟩

theorem Owed.next {e rk : Nat} (owed : Owed flags book e rk)
    (here : flags e = .live → ¬ book.Has e rk) : Owed flags book (e + 1) rk := by
  obtain ⟨⟨g,items,item,less,found,listed,same,marked⟩,none⟩ := owed
  refine ⟨⟨g,items,item,by omega,found,listed,same,marked⟩,?_⟩
  intro d lessD live
  rcases lt_or_eq_of_le (le_of_lt_succ lessD) with before | equal
  · exact none d before live
  · rw [equal] at live ⊢
    exact here live

section
variable (state : Compressing flags book n cur s h kept)
include state

theorem Compressing.drop (dead : flags (n + 1) ≠ .live) (h' : Hash)
    (owed : ∀ rk, hash_fetchU32U32 h' rk ≠ 0 → Owed flags book (n + 2) rk) :
    Compressing flags book (n + 1) cur s h' kept := by
  refine ⟨state.blocks,state.rows,fun d later => state.ahead d (by omega), owed,?_,?_⟩
  · intro d items item within live
    have different : d ≠ n + 1 := fun equal => dead (equal ▸ live)
    exact state.marks d items item (by omega) live
  · rw [liveSerials_succ,if_neg dead,append_nil]
    exact state.kept

theorem Compressing.gone (shaped : book.Shaped)
    (truthful : book.Truthful) (gone : flags (n + 1) = .gone) :
    ∃ h', compressPairs (n + 1) true ((s.weave (n + 1)).getD []) s h = some (s, h') ∧
      Compressing flags book (n + 1) cur s h' kept := by
  have dead : flags (n + 1) ≠ .live := by
    rw [gone]
    simp
  have owed : ∀ rk, hash_fetchU32U32 h rk ≠ 0 → Owed flags book (n + 2) rk :=
    fun rk nonzero => (state.owed rk nonzero).next (fun live => absurd live dead)
  rw [state.blocks,state.ahead (n + 1) (by omega)]
  cases here : book (n + 1) with
  | none => exact ⟨h,rfl,state.drop dead h owed⟩
  | some items =>
    obtain ⟨h',finished,owed'⟩ := compressPairs_gone shaped truthful items here gone (flat items)
      (fun p member => member) s h owed
    exact ⟨h',finished,state.drop dead h' owed'⟩

theorem Compressing.live (shaped : book.Shaped)
    (truthful : book.Truthful) (live : flags (n + 1) = .live) :
    ∃ after h' cur', compressPairs (n + 1) false ((s.weave (n + 1)).getD []) s h = some (after, h') ∧
      after.heap = s.heap ∧ after.table = s.table ∧
      Compressing flags book (n + 1) cur' after h' (kept ++ [after.weave (n + 1)]) := by
  have current : cur (n + 1) = book (n + 1) := state.ahead (n + 1) (by omega)
  have settling : Settling flags book (n + 1) cur s h := by
    refine ⟨state.blocks,state.rows,?_,?_⟩
    · intro rk nonzero
      have owed := state.owed rk nonzero
      refine ⟨owed,?_⟩
      intro items item here listed same
      by_contra positive
      obtain ⟨⟨g,others,other,less,found,listed',same',marked⟩,_⟩ := owed
      rw [current] at here
      have unique := truthful.mark_unique shaped found listed' marked here listed
        (by simpa using positive) (same'.trans same.symm)
      omega
    · intro items item here listed marked d less _live
      rw [current] at here
      exact truthful (n + 1) items item here listed marked d less
  have finish : ∀ (after : Sccs) (h' : Hash) (cur' : Book),
    Settling flags book (n + 1) cur' after h' →
      (∀ d, d ≠ n + 1 → cur' d = cur d) →
      (∀ rk, book.Has (n + 1) rk → hash_fetchU32U32 h' rk = 0) →
      Compressing flags book (n + 1) cur' after h' (kept ++ [after.weave (n + 1)]) := by
    intro after h' cur' settled others cleared
    refine ⟨settled.blocks,settled.rows,?_,?_,?_,?_⟩
    · intro d later
      rw [others d (by omega)]
      exact state.ahead d (by omega)
    · intro rk nonzero
      apply (settled.owed rk nonzero).1.next
      intro _live has
      exact nonzero (cleared rk has)
    · intro d items item within liveD here listed marked
      rcases lt_or_eq_of_le within with before | equal
      · rw [others d (by omega)] at here
        exact state.marks d items item (by omega) liveD here listed marked
      · subst equal
        exact settled.marks items item here listed marked
    · rw [liveSerials_succ,if_pos live,map_append,state.kept,settled.blocks]
      congr 1
      apply map_congr_left
      intro d member
      have inside := mem_liveSerials flags n d member
      rw [others d (by omega)]
  rw [state.blocks,current]
  cases here : book (n + 1) with
  | none =>
    refine ⟨s,h,cur,rfl,rfl,rfl,finish s h cur settling (fun _ _ => rfl) ?_⟩
    rintro rk ⟨items,found,_⟩
    rw [here] at found
    cases found
  | some items =>
    obtain ⟨after,h',cur',finished,heap,table,settled,others,cleared,_⟩ :=
      compressPairs_live shaped items here (flat items) (fun p member => member) cur s h settling
    refine ⟨after,h',cur',finished,heap,table,finish after h' cur' settled others ?_⟩
    rintro rk ⟨items',found,member⟩
    rw [here] at found
    cases found
    obtain ⟨item,listed,same⟩ := mem_map.mp member
    exact cleared (rk, item.dk) ((mem_flat _ _ _).mpr ⟨item,listed,same,.inl rfl⟩)

end

theorem compressLoop_spec (shaped : book.Shaped) (truthful : book.Truthful) (m n : Nat) (cur : Book)
    (s : Sccs) (h : Hash) (kept : List (Option Block))
    (state : Compressing flags book n cur s h kept) :
    ∃ after kept' cur' h', compressLoop flags (List.range' (n + 1) m) s h kept = some (after, kept') ∧
      after.heap = s.heap ∧ after.table = s.table ∧
      Compressing flags book (n + m) cur' after h' kept' := by
  induction m generalizing n cur s h kept with
  | zero => exact ⟨s,kept,cur,h,rfl,rfl,rfl,state⟩
  | succ m ih =>
    rw [range'_succ,compressLoop,show n + (m + 1) = (n + 1) + m by omega]
    cases flag : flags (n + 1) with
    | hole =>
      have dead : flags (n + 1) ≠ .live := by
        rw [flag]
        simp
      apply ih (n + 1) cur s h kept
      exact state.drop dead h
        (fun rk nonzero => (state.owed rk nonzero).next (fun live => absurd live dead))
    | gone =>
      obtain ⟨h',finished,following⟩ := state.gone shaped truthful flag
      rw [finished]
      exact ih (n + 1) cur s h' kept following
    | live =>
      obtain ⟨middle,h',cur',finished,heap,table,following⟩ := state.live shaped truthful flag
      rw [finished]
      obtain ⟨after,kept',cur'',h'',done,heap',table',final⟩ := ih (n + 1) cur' middle h' _ following
      exact ⟨after,kept',cur'',h'',done,heap'.trans heap,table'.trans table,final⟩

end Loop

def Book.renumber (book : Book) (serials : List Nat) : Book :=
  fun d => if d = 0 then none else (serials[d - 1]?).bind book

theorem Book.renumber_some {book : Book} {serials : List Nat}
    (here : book.renumber serials d = some items) :
    d ≠ 0 ∧ ∃ e, serials[d - 1]? = some e ∧ book e = some items := by
  unfold Book.renumber at here
  split at here
  · cases here
  next zero =>
    obtain ⟨e,found,page⟩ := Option.bind_eq_some_iff.mp here
    exact ⟨zero,e,found,page⟩

theorem scompressGraph_holds {s : Sccs} {book : Book} (holds : Holds s book) (flags : Nat → Flag) :
    ∃ after book', scompressGraph s flags = some after ∧ Holds after book' := by
  have start : Compressing flags book 0 book s (fun _ => none) [] := by
    refine ⟨holds.blocks,.refl book,fun _ _ => rfl, ?_,?_,rfl⟩
    · intro rk nonzero
      exact absurd rfl nonzero
    · intro d items item zero _live here
      omega
  obtain ⟨after,kept,cur,_h,finished,heap,table,state⟩ :=
    compressLoop_spec holds.shaped holds.truthful s.table 0 book s (fun _ => none) [] start
  rw [zero_add] at state finished
  have serials : (List.range s.table).map (· + 1) = List.range' 1 s.table := by
    rw [range'_eq_map_range]
    apply map_congr_left
    intro i _member
    omega
  have increasing : (liveSerials flags s.table).Pairwise (· < ·) :=
    (pairwise_lt_range' (s := 1) (n := s.table)).filter _
  have nodup : (liveSerials flags s.table).Nodup := increasing.imp (fun less => ne_of_lt less)
  have curShaped := state.rows.shaped holds.shaped
  have at_ : ∀ d e, (liveSerials flags s.table)[d - 1]? = some e → e ∈ liveSerials flags s.table :=
    fun d e found => mem_of_getElem? found
  refine ⟨_,cur.renumber (liveSerials flags s.table),by
    unfold scompressGraph
    rw [serials,finished]
    rfl,⟨?_,?_,?_,⟨?_,?_,?_,?_⟩⟩,?_⟩
  · intro d
    change (if d = 0 then none else (kept[d - 1]?).join) = _
    unfold Book.renumber
    split
    · rfl
    · rw [state.kept,getElem?_map]
      cases (liveSerials flags s.table)[d - 1]? with
      | none => rfl
      | some e => rfl
  · rw [heap]
    exact holds.heap
  · intro d items here
    obtain ⟨_,e,_,page⟩ := Book.renumber_some here
    exact curShaped e items page
  · intro d items here
    obtain ⟨nonzero,e,found,_⟩ := Book.renumber_some here
    have inside := (List.getElem?_eq_some_iff.mp found).1
    change d ≠ 0 ∧ d ≤ kept.length
    rw [state.kept,length_map]
    omega
  · intro d items item here member
    obtain ⟨_,e,_,page⟩ := Book.renumber_some here
    obtain ⟨others,other,found,listed,rk,_⟩ := state.rows.item page member
    rw [heap,← rk]
    exact holds.filed.rootkey e others other found listed
  · intro d items item here member
    obtain ⟨_,e,_,page⟩ := Book.renumber_some here
    obtain ⟨others,other,found,listed,_,dk⟩ := state.rows.item page member
    rw [heap,← dk]
    exact holds.filed.deltakey e others other found listed
  · intro d items item d' items' item' here member here' member' same
    obtain ⟨nonzero,e,place,page⟩ := Book.renumber_some here
    obtain ⟨nonzero',e',place',page'⟩ := Book.renumber_some here'
    obtain ⟨others,other,found,listed,rk,dk⟩ := state.rows.item page member
    obtain ⟨others',other',found',listed',rk',dk'⟩ := state.rows.item page' member'
    obtain ⟨equal,sameRk⟩ := holds.filed.own e others other e' others' other' found listed found'
      listed' (dk.trans (same.trans dk'.symm))
    refine ⟨?_,rk.symm.trans (sameRk.trans rk')⟩
    subst equal
    have inside := (List.getElem?_eq_some_iff.mp place).1
    have index := (getElem?_inj inside nodup).mp (place.trans place'.symm)
    omega
  · intro d items item here member marked e less has
    obtain ⟨nonzero,x,place,page⟩ := Book.renumber_some here
    obtain ⟨others,here',listed⟩ := has
    obtain ⟨nonzero',y,place',page'⟩ := Book.renumber_some here'
    have liveX := mem_liveSerials flags _ x (at_ d x place)
    have liveY := mem_liveSerials flags _ y (at_ e y place')
    have order : y < x := by
      have insideX := List.getElem?_eq_some_iff.mp place
      have insideY := List.getElem?_eq_some_iff.mp place'
      have sorted := pairwise_iff_getElem.mp increasing (e - 1) (d - 1) insideY.1 insideX.1 (by omega)
      rwa [insideY.2,insideX.2] at sorted
    apply state.marks x items item liveX.2.1 liveX.2.2 page member marked y order liveY.2.2
    exact state.rows.has ⟨others,page',listed⟩

end BitKeeper.CsetWeave
