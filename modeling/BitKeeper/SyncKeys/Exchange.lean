import BitKeeper.SyncKeys.Exact

/-!
The three programs put together: which deltas the probe names, what the reply lists, and what is left
on either side.
-/

namespace BitKeeper.SyncKeys

open List Function
open Dag (Reach ClosedTo)

variable {K : Type}

def keys (s : CsetFile K) : List K := s.serials.reverse.map s.key

variable (s : CsetFile K)

theorem mem_keys (k : K) : k ∈ keys s ↔ ∃ d ∈ s.serials, s.key d = k := by simp [keys]

theorem keys_filter (p : K → Bool) :
    (keys s).filter p = (s.serials.reverse.filter (fun d => p (s.key d))).map s.key := by
  simp [keys,filter_map,comp_def]

/-- What is red after colouring from `probed` and, if there is one, the tag `tagd`. -/
def Coloured (s : CsetFile K) (probed tagd x : Nat) : Prop :=
  Reach s.parents probed x ∨ (tagd ≠ 0 ∧ Reach s.ptags tagd x)

theorem closedTo_none (next : Nat → List Nat) (bound : Nat) :
    ClosedTo next bound (fun _ => false) := by
  intro d _ marked
  cases marked

theorem colour_both (probed tagd : Nat) (member : probed ∈ s.serials)
    (real : s.tag probed = false) :
    ∃ red, sccs_color s (fun _ => false) probed = .ok red ∧
      ∀ flags : Flags, flags = (if tagd = 0 then { red := red, blue := fun _ => false }
          else sccs_tagcolor s { red := red, blue := fun _ => false } tagd) →
        ∀ x, flags.red x = true ↔ Coloured s probed tagd x := by
  have nonzero := ((s.mem_serials probed).mp member).1
  obtain ⟨red,ran,spec⟩ := sccs_color_spec s (fun _ => false) probed (fun _ => real)
    (closedTo_none _ _)
  refine ⟨red,ran,?_⟩
  rintro flags rfl x
  have reached : red x = true ↔ Reach s.parents probed x := by
    rw [spec x]
    simp [nonzero]
  split
  next none =>
    rw [reached]
    simp [Coloured,none]
  next none =>
    have painted := (sccs_tagcolor_spec s { red := red, blue := fun _ => false } tagd none
      (closedTo_none _ _)).2 (by simp) x
    rw [painted]
    simp only [Coloured,reached,ne_eq,none,not_false_eq_true,true_and]

theorem Coloured.transport {A B : CsetFile K} (agree : Agree A B) {a ta b tb x : Nat}
    (inA : a ∈ A.serials) (inB : b ∈ B.serials) (same : A.key a = B.key b)
    (tags : ta ≠ 0 → ta ∈ A.serials ∧ tb ∈ B.serials ∧ A.key ta = B.key tb)
    (coloured : Coloured A a ta x) :
    ∃ y ∈ B.serials, Coloured B b tb y ∧ A.key x = B.key y := by
  rcases coloured with reached | ⟨real,reached⟩
  · obtain ⟨y,reachedB,inside,sameY⟩ := parents_transport agree inA inB same reached
    exact ⟨y,inside,.inl reachedB,sameY⟩
  · obtain ⟨inTa,inTb,sameTag⟩ := tags real
    obtain ⟨y,reachedB,inside,sameY⟩ := ptags_transport agree inTa inTb sameTag reached
    exact ⟨y,inside,.inr ⟨((B.mem_serials tb).mp inTb).1,reachedB⟩,sameY⟩

private theorem sweep_spec {M : Type} (md5delta : K → M) (ds : List Nat)
    (distinct : ds.Nodup) (flags : Flags) (out : List M) :
    (sweep s md5delta ds flags out).2 =
        out ++ (ds.filter (fun d => !flags.red d)).map (fun d => md5delta (s.key d)) ∧
      ∀ x ∈ ds, (sweep s md5delta ds flags out).1.red x = false ∧
        (sweep s md5delta ds flags out).1.blue x = false := by
  -- what the sweep has cleared stays clear, so the flags are followed for any `x`
  have cleared : ∀ (ds : List Nat) (flags : Flags) (out : List M) (x : Nat),
      (x ∈ ds ∨ (flags.red x = false ∧ flags.blue x = false)) →
      (sweep s md5delta ds flags out).1.red x = false ∧
        (sweep s md5delta ds flags out).1.blue x = false := by
    intro ds
    induction ds with
    | nil =>
      intro flags out x start
      simpa [sweep] using start
    | cons d rest ih =>
      intro flags out x start
      have next : x ∈ rest ∨ ((if x = d then false else flags.red x) = false ∧
          (if x = d then false else flags.blue x) = false) := by
        by_cases same : x = d
        · simp [same]
        · rcases start with member | clear
          · exact .inl ((mem_cons.mp member).resolve_left same)
          · exact .inr (by simpa [same] using clear)
      simp only [sweep]
      split
      · exact ih _ _ x next
      · exact ih _ _ x next
  refine ⟨?_,fun x member => cleared ds flags out x (.inl member)⟩
  induction ds generalizing flags out with
  | nil => simp [sweep]
  | cons d rest ih =>
    obtain ⟨fresh,restDistinct⟩ := nodup_cons.mp distinct
    have same : rest.filter (fun e => !(if e = d then false else flags.red e)) =
        rest.filter (fun e => !flags.red e) := by
      apply filter_congr
      intro e member
      have different : e ≠ d := fun equal => fresh (equal ▸ member)
      simp [different]
    simp only [sweep]
    split
    next marked =>
      rw [ih restDistinct,same]
      simp [marked]
    next marked =>
      rw [ih restDistinct,same]
      simp [marked]

private theorem probekey_spec (top : Nat) (member : top ∈ s.serials)
    (real : s.tag top = false) :
    ∃ (lod tags : List Nat) (withTags : Bool), probekey s top =
        .ok (.lodProbe :: ((lod.map s.key ++ [s.key (sccs_ino s)]).map .key ++
          ((if withTags then .tagProbe :: (tags.map s.key).map .key else []) ++ [.endProbe]))) ∧
      (∀ e ∈ lod, e ∈ s.serials ∧ s.tag e = false) ∧ (∀ e ∈ tags, e ∈ s.serials) ∧
      lod.length ≤ Nat.log 2 s.table + 2 := by
  obtain ⟨nonzero,inside⟩ := (s.mem_serials top).mp member
  have enough : top + 1 < 1 * 2 ^ (Nat.log 2 s.table + 2) := by
    have power := Nat.lt_pow_succ_log_self (b := 2) (by decide) s.table
    rw [Nat.pow_succ] at power ⊢
    omega
  obtain ⟨lod,ran,short,good⟩ :=
    lodLoop_spec s top 1 top (Nat.log 2 s.table + 2) (fun _ => real) inside enough
  refine ⟨lod,tagLoop s 0 (tagTip s),decide (tagTip s ≠ 0),?_,good,
    tagLoop_inside s 0 (tagTip s) (tagTip_inside s),short⟩
  unfold probekey
  rw [ran]
  by_cases none : tagTip s = 0
  · simp [none,pure,Except.pure,bind,Except.bind,comp_def]
  · simp [none,pure,Except.pure,bind,Except.bind,comp_def]

variable [DecidableEq K]

theorem sccs_findKey_eq_zero_iff (k : K) : sccs_findKey s k = 0 ↔ k ∉ keys s := by
  rw [sccs_findKey_eq_zero,mem_keys]
  constructor
  · rintro absent ⟨d,member,same⟩
    exact absent d member same
  · intro absent d member same
    exact absent ⟨d,member,same⟩

theorem readRemote_spec (istagkey : K → Bool) (names : List K) (flags : Flags)
    (remote : Remote K) :
    ∃ flags', readRemote s istagkey (fun _ => false) (names.map .key ++ [.endAll]) flags remote =
        .ok (flags',
          { csets := remote.csets +
              ((names.filter (· ∉ keys s)).filter (fun k => !istagkey k)).length
            tags := remote.tags + ((names.filter (· ∉ keys s)).filter istagkey).length
            rkeys := remote.rkeys ++ names.filter (· ∉ keys s) }) ∧
      ∀ x ∈ s.serials, flags'.red x = true ↔ flags.red x = true ∨ s.key x ∈ names := by
  induction names generalizing flags remote with
  | nil => exact ⟨flags,by simp [readRemote],by simp⟩
  | cons k rest ih =>
    simp only [map_cons,cons_append,readRemote]
    by_cases known : sccs_findKey s k = 0
    · have absent := (sccs_findKey_eq_zero_iff s k).mp known
      simp only [known,ne_eq,not_true_eq_false,if_false,Bool.false_eq_true]
      obtain ⟨flags',ran,spec⟩ := ih flags _
      refine ⟨flags',?_,fun x member => ?_⟩
      · rw [ran]
        cases tagged : istagkey k <;> simp [absent,tagged] <;> omega
      · have different : s.key x ≠ k := fun same => absent ((mem_keys s k).mpr ⟨x,member,same⟩)
        rw [spec x member]
        simp [different]
    · obtain ⟨inside,sameKey⟩ := sccs_findKey_ne_zero s k known
      have present : k ∈ keys s := (mem_keys s k).mpr ⟨_,inside,sameKey⟩
      rw [if_pos known]
      obtain ⟨flags',ran,spec⟩ := ih { flags with red := mark flags.red (sccs_findKey s k) } remote
      refine ⟨flags',?_,fun x member => ?_⟩
      · rw [ran]
        simp [present]
      rw [spec x member,mark_true,mem_cons]
      have hit : x = sccs_findKey s k ↔ s.key x = k := by
        constructor
        · rintro rfl
          exact sameKey
        · intro same
          exact s.key_inj x _ member inside (same.trans sameKey.symm)
      rw [hit]
      grind only

private theorem listkey_spec (lodKeys tagKeys : List K) (withTags : Bool)
    (root : lodKeys.getLast? = some (s.key (sccs_ino s)))
    (realMatch : ∀ d ∈ s.serials, s.key d ∈ lodKeys → s.tag d = false) :
    ∃ probed tagd red, probed ∈ s.serials ∧ s.key probed ∈ lodKeys ∧
      (tagd ≠ 0 → tagd ∈ s.serials ∧ s.key tagd ∈ tagKeys) ∧
      (∀ x, red x = true ↔ Coloured s probed tagd x) ∧
      listkey s (.lodProbe :: (lodKeys.map .key ++
          ((if withTags then .tagProbe :: tagKeys.map .key else []) ++ [.endProbe]))) =
        .ok (.lodMatch :: .key (s.key probed) ::
          ((if tagd = 0 then [] else [.tagMatch,.key (s.key tagd)]) ++
            .endMatches :: ((unmarkedKeys s red).map .key ++ [.endAll]))) := by
  obtain ⟨inoInside,-⟩ := sccs_ino_spec s
  have rootMember : s.key (sccs_ino s) ∈ lodKeys := mem_of_getLast? root
  obtain ⟨matched,matches'⟩ := firstMatch_spec s lodKeys
  have probedReal : firstMatch s lodKeys ≠ 0 := by
    refine matches' ⟨_,rootMember,?_⟩
    rw [sccs_findKey_key s _ inoInside]
    exact ((s.mem_serials _).mp inoInside).1
  obtain ⟨inside,named⟩ := matched probedReal
  have tagMatched := (firstMatch_spec s tagKeys).1
  let tagd := if withTags then firstMatch s tagKeys else 0
  obtain ⟨red,ran,spec⟩ := colour_both s (firstMatch s lodKeys) tagd inside
    (realMatch _ inside named)
  refine ⟨firstMatch s lodKeys,tagd,_,inside,named,?_,spec _ rfl,?_⟩
  · intro realTag
    cases withTags with
    | false => exact absurd rfl realTag
    | true => exact tagMatched realTag
  cases withTags with
  | false =>
    simp only [listkey,Bool.false_eq_true,if_false,nil_append]
    rw [spanKeys_append lodKeys [.endProbe] (by simp)]
    simp only [root,ne_eq,probedReal,not_false_eq_true,and_self,if_true,listReply,ran]
    simp [tagd,bind,Except.bind,pure,Except.pure]
  | true =>
    simp only [listkey,if_true,cons_append]
    rw [spanKeys_append lodKeys _ (by simp)]
    simp only [spanKeys_append tagKeys [.endProbe] (by simp),root,ne_eq,probedReal,
      not_false_eq_true,and_self,if_true,listReply,ran]
    by_cases none : tagd = 0
    · simp [tagd] at none
      simp [tagd,none,bind,Except.bind,pure,Except.pure]
    · simp [tagd] at none
      simp [tagd,none,bind,Except.bind,pure,Except.pure]

theorem prunekey_spec {M : Type} (md5delta : K → M) (istagkey : K → Bool)
    (a ta : Nat) (names : List K) (inside : a ∈ s.serials) (real : s.tag a = false)
    (tagInside : ta ≠ 0 → ta ∈ s.serials) :
    ∃ result, prunekey s md5delta istagkey (fun _ => false)
        (.lodMatch :: .key (s.key a) :: ((if ta = 0 then [] else [.tagMatch,.key (s.key ta)]) ++
            .endMatches :: (names.map .key ++ [.endAll]))) = .ok result ∧
      result.localOnly = result.lkeys.length ∧
      (∀ red : Nat → Bool, (∀ x ∈ s.serials, red x = true ↔ Coloured s a ta x ∨ s.key x ∈ names) →
        result.lkeys = (s.serials.reverse.filter (fun d => !red d)).map
          (fun d => md5delta (s.key d))) ∧
      result.rkeys = names.filter (· ∉ keys s) ∧
      result.remoteTags = (result.rkeys.filter istagkey).length ∧
      result.remoteCsets = (result.rkeys.filter (fun k => !istagkey k)).length ∧
      ∀ x ∈ s.serials, result.flags.red x = false ∧ result.flags.blue x = false := by
  obtain ⟨red,ran,spec⟩ := colour_both s a ta inside real
  obtain ⟨flags,read,flagSpec⟩ := readRemote_spec s istagkey names
    (if ta = 0 then { red := red, blue := fun _ => false }
      else sccs_tagcolor s { red := red, blue := fun _ => false } ta) ⟨0,0,[]⟩
  have distinct : s.serials.reverse.Nodup := nodup_reverse.mpr nodup_range'
  obtain ⟨listed,clean⟩ := sweep_spec s md5delta s.serials.reverse distinct flags []
  have found := sccs_findKey_key s a inside
  have nonzero := ((s.mem_serials a).mp inside).1
  refine ⟨finishPrune s md5delta flags
      { csets := 0 + ((names.filter (· ∉ keys s)).filter (fun k => !istagkey k)).length
        tags := 0 + ((names.filter (· ∉ keys s)).filter istagkey).length
        rkeys := [] ++ names.filter (· ∉ keys s) }, ?_,rfl,?_,?_,?_,?_,?_⟩
  · split at read
    next none =>
      simp only [prunekey,if_pos none,nil_append,spanKeys,colorMatches,found,
        if_neg nonzero,ran,bind,Except.bind,pure,Except.pure,read]
    next none =>
      have foundTag := sccs_findKey_key s ta (tagInside none)
      simp only [prunekey,if_neg none,cons_append,nil_append,spanKeys,
        colorMatches,found,if_neg nonzero,ran,bind,Except.bind,pure,Except.pure,
        tagcolorMatches,foundTag,read]
  · intro wanted wantedSpec
    simp only [finishPrune,listed,nil_append]
    congr 1
    apply filter_congr
    intro d member
    have serial := mem_reverse.mp member
    have agree : flags.red d = wanted d := by
      rw [Bool.eq_iff_iff,flagSpec d serial,wantedSpec d serial,spec _ rfl d]
    rw [agree]
  · simp [finishPrune]
  · simp [finishPrune]
  · simp [finishPrune]
  · intro x member
    exact clean x (mem_reverse.mpr member)

/-- For every pair of files that share the root and agree where they overlap. -/
theorem keysync_exact {M : Type} (A B : CsetFile K) (md5delta : K → M) (istagkey : K → Bool)
    (top : Nat) (member : top ∈ A.serials) (real : A.tag top = false) (agree : Agree A B) :
    ∃ probe reply result, probekey A top = .ok probe ∧ listkey B probe = .ok reply ∧
      prunekey A md5delta istagkey (fun _ => false) reply = .ok result ∧
      result.lkeys = ((keys A).filter (· ∉ keys B)).map md5delta ∧
      result.localOnly = ((keys A).filter (· ∉ keys B)).length ∧
      result.rkeys = (keys B).filter (· ∉ keys A) ∧
      result.remoteTags = (result.rkeys.filter istagkey).length ∧
      result.remoteCsets = (result.rkeys.filter (fun k => !istagkey k)).length ∧
      (∀ d ∈ A.serials, result.flags.red d = false ∧ result.flags.blue d = false) ∧
      (spanKeys probe.tail).1.length ≤ Nat.log 2 A.table + 3 := by
  obtain ⟨lod,tags,withTags,probed,good,tagsInside,short⟩ := probekey_spec A top member real
  obtain ⟨inoA,realIno⟩ := sccs_ino_spec A
  -- every key of the probe names a real delta of `A`
  have probeNames : ∀ k ∈ lod.map A.key ++ [A.key (sccs_ino A)],
      ∃ d ∈ A.serials, A.key d = k ∧ A.tag d = false := by
    intro k inProbe
    rcases mem_append.mp inProbe with inLod | isRoot
    · obtain ⟨d,inside,rfl⟩ := mem_map.mp inLod
      exact ⟨d,(good d inside).1,rfl,(good d inside).2⟩
    · rw [mem_singleton] at isRoot
      exact ⟨sccs_ino A,inoA,isRoot.symm,realIno⟩
  have realMatch : ∀ b ∈ B.serials, B.key b ∈ lod.map A.key ++ [A.key (sccs_ino A)] →
      B.tag b = false := by
    intro b inB named
    obtain ⟨a,inA,same,realA⟩ := probeNames _ named
    rwa [← (agree.same a inA b inB same).tag]
  have rootLast : (lod.map A.key ++ [A.key (sccs_ino A)]).getLast? = some (B.key (sccs_ino B)) := by
    rw [← agree.root]
    simp
  obtain ⟨b,tb,redB,inB,named,tagNamed,redSpec,replied⟩ := listkey_spec B
    (lod.map A.key ++ [A.key (sccs_ino A)]) (tags.map A.key) withTags rootLast
    realMatch
  obtain ⟨a,inA,sameA,realA⟩ := probeNames _ named
  -- the tag the server matched is a delta of `A` as well
  obtain ⟨ta,taZero,taInside⟩ : ∃ ta, (ta = 0 ↔ tb = 0) ∧
      (tb ≠ 0 → ta ∈ A.serials ∧ A.key ta = B.key tb) := by
    by_cases none : tb = 0
    · exact ⟨0,by simp [none],fun some => absurd none some⟩
    · obtain ⟨ta,inTags,same⟩ := mem_map.mp (tagNamed none).2
      have inside := tagsInside ta inTags
      have nonzero := ((A.mem_serials ta).mp inside).1
      exact ⟨ta,by simp [none,nonzero],fun _ => ⟨inside,same⟩⟩
  obtain ⟨result,pruned,counted,listed,remote,remoteTags,remoteCsets,clean⟩ :=
    prunekey_spec A md5delta istagkey a ta (unmarkedKeys B redB) inA realA
      (fun some => (taInside (fun none => some (taZero.mpr none))).1)
  have unmarked : ∀ k, k ∈ unmarkedKeys B redB ↔ ∃ d ∈ B.serials, ¬ Coloured B b tb d ∧
      B.key d = k := by
    intro k
    simp only [unmarkedKeys,mem_map,mem_filter,mem_reverse,Bool.not_eq_true',
      ← Bool.not_eq_true,redSpec]
    grind only
  have redIff : ∀ x ∈ A.serials, (decide (A.key x ∈ keys B)) = true ↔
      Coloured A a ta x ∨ A.key x ∈ unmarkedKeys B redB := by
    intro x inside
    rw [decide_eq_true_iff,mem_keys,unmarked]
    constructor
    · rintro ⟨d,inD,same⟩
      by_cases coloured : Coloured B b tb d
      · left
        obtain ⟨y,inY,colouredY,sameY⟩ := coloured.transport agree.symm inB inA sameA.symm
          (fun some => ⟨(tagNamed some).1,(taInside some).1,(taInside some).2.symm⟩)
        have equal : x = y := A.key_inj x y inside inY (same.symm.trans sameY)
        exact equal ▸ colouredY
      · exact .inr ⟨d,inD,coloured,same⟩
    · rintro (coloured | ⟨d,inD,-,same⟩)
      · obtain ⟨y,inY,-,sameY⟩ := coloured.transport agree inA inB sameA
          (fun some => by
            have tagB : tb ≠ 0 := fun none => some (taZero.mpr none)
            exact ⟨(taInside tagB).1,(tagNamed tagB).1,(taInside tagB).2⟩)
        exact ⟨y,inY,sameY.symm⟩
      · exact ⟨d,inD,same⟩
  have remoteExact : (unmarkedKeys B redB).filter (· ∉ keys A) = (keys B).filter (· ∉ keys A) := by
    unfold unmarkedKeys keys
    rw [filter_map,filter_map,filter_filter]
    congr 1
    apply filter_congr
    intro d inD
    by_cases common : B.key d ∈ keys A
    · simp [keys] at common
      simp [common]
    have plain : redB d = false := by
      rw [← Bool.not_eq_true,redSpec]
      intro coloured
      obtain ⟨y,inY,-,sameY⟩ := coloured.transport agree.symm inB inA sameA.symm
        (fun some => ⟨(tagNamed some).1,(taInside some).1,(taInside some).2.symm⟩)
      exact common ((mem_keys A _).mpr ⟨y,inY,sameY.symm⟩)
    simp [plain]
  refine ⟨_,_,result,probed,replied,?_,?_,?_,?_,remoteTags,remoteCsets,clean,?_⟩
  · rw [← pruned,sameA]
    by_cases none : tb = 0
    · simp [none,taZero.mpr none]
    · have noneA : ta ≠ 0 := fun zero => none (taZero.mp zero)
      simp [none,noneA,(taInside none).2]
  · rw [listed (fun x => decide (A.key x ∈ keys B)) redIff, keys_filter,map_map]
    simp only [decide_not,comp_def]
  · rw [counted,listed (fun x => decide (A.key x ∈ keys B)) redIff, keys_filter, length_map,
      length_map]
    simp only [decide_not]
  · rw [remote,remoteExact]
  · rw [tail_cons,spanKeys_append]
    · simpa using short
    · intro k tail
      cases withTags <;> simp

/-- A client with a merge (4 of 2 and 3), a tag (5) on it and the tag's successor 6; keys are
numbers. -/
def clientFile : CsetFile Nat where
  table := 6
  parent := fun | 2 => 1 | 3 => 1 | 4 => 2 | 5 => 4 | 6 => 4 | _ => 0
  merge := fun | 4 => 3 | _ => 0
  ptag := fun | 6 => 5 | _ => 0
  tag := fun | 5 => true | 6 => true | _ => false
  parent_lt := by intro d real; split <;> omega
  merge_lt := by intro d real; split <;> omega
  ptag_lt := by intro d real; split <;> omega
  parent_real := by intro d real; split <;> simp
  merge_real := by intro d real; split <;> simp
  key := fun d => 10 * d
  fake := false
  kid := 0
  key_inj := by intro d e _ _ same; omega
  nonempty := by decide
  root_real := rfl
  kid_real := by intro fake; cases fake

def serverFile : CsetFile Nat where
  table := 3
  parent := fun | 2 => 1 | 3 => 2 | _ => 0
  parent_lt := by intro d real; split <;> omega
  parent_real := by intro d real; simp
  merge_real := by intro d real; simp
  key := fun d => if d = 3 then 77 else 10 * d
  fake := false
  kid := 0
  key_inj := by intro d e _ _ same; split at same <;> split at same <;> omega
  nonempty := by decide
  root_real := rfl
  kid_real := by intro fake; cases fake

theorem client_server_agree : Agree clientFile serverFile := by
  have common : ∀ a ∈ clientFile.serials, ∀ b ∈ serverFile.serials,
      clientFile.key a = serverFile.key b → a = 1 ∧ b = 1 ∨ a = 2 ∧ b = 2 := by decide
  refine ⟨rfl,fun a inA b inB same => ?_⟩
  rcases common a inA b inB same with ⟨rfl,rfl⟩ | ⟨rfl,rfl⟩
  · exact ⟨rfl,rfl,rfl,rfl,rfl⟩
  · exact ⟨rfl,rfl,rfl,rfl,rfl⟩

theorem keysync_client_server :
    ∃ probe reply result, probekey clientFile 4 = .ok probe ∧ listkey serverFile probe = .ok reply ∧
      prunekey clientFile (fun k => k) (fun _ => false) (fun _ => false) reply = .ok result ∧
      result.lkeys = [60,50,40,30] ∧ result.rkeys = [77] := by
  obtain ⟨probe,reply,result,probed,listed,pruned,lkeys,-,rkeys,-⟩ :=
    keysync_exact clientFile serverFile (fun k => k) (fun _ => false) 4 (by decide) rfl
      client_server_agree
  exact ⟨probe,reply,result,probed,listed,pruned,lkeys.trans (by decide), rkeys.trans (by decide)⟩

end BitKeeper.SyncKeys
