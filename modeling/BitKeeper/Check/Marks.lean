import BitKeeper.Check.Merge

/-!
The marks of the files against the weave. The dates of a file fall from the newest delta to the
oldest, so a key of the weave is found wherever the cursor is.
-/

namespace BitKeeper.Check

open List hiding getElem?_eq_some_iff
open Option (getD_some some)
open Prod (fst snd)
open Assoc Bytes Range

def Dated (keys : List Bytes) : Prop := keys.Pairwise fun a b => 0 ≤ strncmp 14 (keyDate a)
    (keyDate b)

variable {keys : List Bytes}

theorem Dated.order (dated : Dated keys) {i j : Nat} {a b : Bytes} (first : keys[i]? = some a)
    (second : keys[j]? = some b) (before : i ≤ j) : 0 ≤ strncmp 14 (keyDate a) (keyDate b) := by
  obtain ⟨insideI,rfl⟩ := List.getElem?_eq_some_iff.mp first
  obtain ⟨insideJ,rfl⟩ := List.getElem?_eq_some_iff.mp second
  by_cases same : i = j
  · subst same
    exact Int.le_of_eq (strncmp_self 14 _).symm
  · exact pairwise_iff_getElem.mp dated i j insideI insideJ (by omega)

section search
variable (env : Env) {rkd : Rkdata} {keys : List Bytes} (saved : rkd.keys = some keys)
include saved

theorem KEY_at {j : Nat} {k : Bytes} (place : keys[j]? = some k) : KEY env rkd (j + 1) = k := by
  unfold KEY
  rw [saved,getD_some,getD_eq_getElem?_getD,Nat.add_sub_cancel,place,getD_some]

theorem keycnt_eq : rkd.keycnt = keys.length := by
  unfold Rkdata.keycnt
  rw [saved,getD_some]

omit saved in
variable (rkd) in
private theorem keyBack_spec (date : Bytes) (p : Nat) : keyBack env rkd date p = 0 ∨
    (keyBack env rkd date p < p ∧ 0 < strncmp 14 (keyDate (KEY env rkd (keyBack env rkd date p)))
      date) := by
  fun_induction keyBack env rkd date p with
  | case1 | case2 => exact .inl rfl
  | case3 p start older ih => exact ih.imp_right fun found => ⟨by omega,found.2⟩
  | case4 p start newer => exact .inr ⟨Nat.lt_succ_self p,by omega⟩

variable {key : Bytes}

theorem keyForward_sound {fuel p : Nat} (found : keyForward env rkd key fuel p ≠ 0) :
    ∃ j, keyForward env rkd key fuel p = j + 1 ∧ keys[j]? = some key := by
  fun_induction keyForward env rkd key fuel p with
  | case1 | case2 | case5 => exact absurd rfl found
  | case3 fuel p within cmp hit =>
    rw [keycnt_eq saved] at within
    obtain ⟨k,place⟩ : ∃ k, keys[p]? = some k := ⟨_,getElem?_eq_getElem (by omega)⟩
    refine ⟨p,rfl,?_⟩
    rw [place,← hit.2,KEY_at env saved place]
  | case4 _ _ _ _ _ _ ih => exact ih found

theorem keyForward_complete (dated : Dated keys) {j : Nat} (place : keys[j]? = some key)
    {fuel p : Nat} (ahead : p ≤ j) (enough : j - p < fuel) : keyForward env rkd key fuel p ≠ 0 := by
  obtain ⟨inside,_⟩ := List.getElem?_eq_some_iff.mp place
  induction fuel generalizing p with
  | zero => omega
  | succ fuel ih =>
    obtain ⟨k,within⟩ : ∃ k, keys[p]? = some k := ⟨_,getElem?_eq_getElem (by omega)⟩
    have read := KEY_at env saved within
    have order := dated.order within place ahead
    unfold keyForward
    rw [keycnt_eq saved,if_neg (by omega),read]
    by_cases hit : strncmp 14 (keyDate k) (keyDate key) = 0 ∧ k = key
    · rw [if_pos hit]
      exact Nat.succ_ne_zero p
    rw [if_neg hit,if_pos order]
    have further : p ≠ j := by
      intro same
      subst same
      have own : k = key := some.inj (within.symm.trans place)
      exact hit ⟨own ▸ strncmp_self 14 _,own⟩
    exact ih (by omega) (by omega)

theorem keyFind_spec (dated : Dated keys) (place : rkd.curr ≤ keys.length ∨ rkd.curr = 1)
    (key : Bytes) :
    (keyFind env rkd key = 0 ∧ key ∉ keys) ∨ ∃ j, keyFind env rkd key = j + 1 ∧
      keys[j]? = some key := by
  unfold keyFind
  dsimp only
  generalize startAt : (if rkd.curr = 0 then 1 else rkd.curr) = p
  have back := keyBack_spec env rkd (keyDate key) p
  generalize keyBack env rkd (keyDate key) p = low at *
  by_cases found : keyForward env rkd key (rkd.keycnt + 1) low = 0
  · refine .inl ⟨found,?_⟩
    intro inside
    obtain ⟨j,within,same⟩ := mem_iff_getElem.mp inside
    have known : keys[j]? = some key := same ▸ getElem?_eq_getElem within
    -- a key with a newer date stands before it, so the forward walk comes to it
    have ahead : low ≤ j := by
      by_contra behind
      rcases back with zero | ⟨below,newer⟩
      · omega
      have inLow : low - 1 < keys.length := by
        split at startAt
        · omega
        · omega
      obtain ⟨k,lowKey⟩ : ∃ k, keys[low - 1]? = some k := ⟨_,getElem?_eq_getElem inLow⟩
      have read : KEY env rkd low = k := by
        have := KEY_at env saved lowKey
        rwa [show low - 1 + 1 = low by omega] at this
      rw [read] at newer
      have order := dated.order known lowKey (by omega)
      have self := strncmp_trans order newer
      rw [strncmp_self] at self
      exact Int.lt_irrefl 0 self
    have enough : j - low < rkd.keycnt + 1 := by
      rw [keycnt_eq saved]
      omega
    exact keyForward_complete env saved dated known ahead enough found
  · exact .inr (keyForward_sound env saved found)

theorem matchIndex_spec (dated : Dated keys) (place : rkd.curr ≤ keys.length ∨ rkd.curr = 1)
    (other : key ≠ env.spare) :
    (matchIndex env rkd key = 0 ∧ key ∉ keys) ∨ ∃ j, matchIndex env rkd key = j + 1 ∧
      keys[j]? = some key := by
  unfold matchIndex
  split
  next hit =>
    refine .inr ⟨rkd.curr - 1,by omega,?_⟩
    by_cases inside : rkd.curr - 1 < keys.length
    · obtain ⟨k,known⟩ : ∃ k, keys[rkd.curr - 1]? = some k := ⟨_,getElem?_eq_getElem inside⟩
      have read := KEY_at env saved known
      rw [show rkd.curr - 1 + 1 = rkd.curr by omega] at read
      rw [known,hit.2,read]
    · have beyond : KEY env rkd rkd.curr = env.spare := by
        unfold KEY
        rw [saved,getD_some,getD_eq_getElem?_getD,getElem?_eq_none (by omega),Option.getD_none]
      exact absurd (hit.2.trans beyond) other
  · exact keyFind_spec env saved dated place key

end search

structure Struck (keys seen : List Bytes) (rkd : Rkdata) : Prop where
  saved : rkd.keys = some keys
  curr : rkd.curr ≤ keys.length ∨ rkd.curr = 1
  struck : ∀ j k, keys[j]? = some k → (rkd.dmasks (j + 1) ≠ Mask.none ↔ k ∈ seen)
  unmarked : rkd.unmarked = (keys.filter fun k => k ∉ seen).length
  missing : rkd.missing.map snd = seen.filter fun k => k ∉ keys

private theorem or_ne_none {a b : Mask} (some_ : b ≠ Mask.none) : a.or b ≠ Mask.none := by
  intro nothing
  apply some_
  obtain ⟨p,m,i,t,g,d⟩ := b
  simp only [Mask.or,Mask.none,Mask.mk.injEq,Bool.or_eq_false_iff] at nothing
  simp [Mask.none,nothing]

variable {seen : List Bytes}

private theorem filter_seen (distinct : keys.Nodup) {key : Bytes} (inside : key ∈ keys) :
    (keys.filter fun k => k ∉ seen ++ [key]).length =
      (keys.filter fun k => k ∉ seen).length - if key ∈ seen then 0 else 1 := by
  have erased : (keys.filter fun k => k ∉ seen ++ [key]) = (keys.filter fun k => k ∉ seen).erase
      key := by
    rw [(distinct.filter _).erase_eq_filter,filter_filter]
    refine filter_congr ?_
    intro k _
    rw [Bool.eq_iff_iff]
    simp [and_comm]
  rw [erased]
  split
  next old =>
    rw [erase_of_not_mem (by simp [old]),Nat.sub_zero]
  next old =>
    rw [length_erase_of_mem (mem_filter.mpr ⟨inside,decide_eq_true old⟩)]

variable {rkd : Rkdata} {mask : Mask}

theorem Struck.strike (inv : Struck keys seen rkd) (distinct : keys.Nodup) (dated : Dated keys)
    (small : keys.length < 2 ^ 32) (env : Env) (shows : mask ≠ Mask.none) (p : Pair) {key : Bytes}
    (other : key ≠ env.spare) : Struck keys (seen ++ [key]) (strike env mask p key rkd).1 := by
  unfold Check.strike
  rcases matchIndex_spec env inv.saved dated inv.curr other with ⟨zero,absent⟩ | ⟨j,found,known⟩
  · rw [zero,if_neg (fun nonzero => nonzero rfl)]
    refine ⟨inv.saved,inv.curr,?_,?_,?_⟩
    · intro i k place
      have apart : k ≠ key := fun same => absent (same ▸ mem_of_getElem? place)
      rw [inv.struck i k place]
      simp [apart]
    · rw [inv.unmarked]
      congr 1
      refine filter_congr ?_
      intro k inside
      have apart : k ≠ key := fun same => absent (same ▸ inside)
      simp [apart]
    · rw [map_append,inv.missing,filter_append]
      simp [absent]
  have member : key ∈ keys := mem_of_getElem? known
  rw [found,if_pos (Nat.succ_ne_zero j)]
  refine ⟨inv.saved,?_,?_,?_,?_⟩
  · dsimp only
    rw [keycnt_eq inv.saved]
    split <;> omega
  · intro i k place
    dsimp only
    by_cases same : i = j
    · subst same
      have own : k = key := some.inj (place.symm.trans known)
      rw [Function.update_self]
      simp [own,or_ne_none shows]
    · have apart : k ≠ key := by
        intro equal
        subst equal
        exact same ((getElem?_inj (List.getElem?_eq_some_iff.mp place).1 distinct).mp
          (place.trans known.symm))
      rw [Function.update_of_ne (fun equal => same (Nat.succ.inj equal)), inv.struck i k place]
      simp [apart]
  · dsimp only
    rw [filter_seen distinct member,inv.unmarked]
    have again := inv.struck j key known
    by_cases old : key ∈ seen
    · rw [if_pos (again.mpr old),if_pos old,Nat.sub_zero]
    · have fresh : key ∈ keys.filter fun k => k ∉ seen := mem_filter.mpr ⟨member,decide_eq_true old⟩
      have positive := length_pos_of_mem fresh
      have bounded := (filter_sublist (p := fun k => decide (k ∉ seen)) (l := keys)).length_le
      rw [if_neg (fun struck => old (again.mp struck)), if_neg old]
      omega
  · rw [filter_append,inv.missing]
    simp [member]

structure GoodFile (deltas : Deltas) : Prop where
  distinct : (deltas.map fst).Nodup
  dated : Dated (deltas.map fst)
  small : deltas.length < 2 ^ 32

theorem markedKeys_sublist (deltas : Deltas) : (markedKeys deltas).Sublist (deltas.map fst) :=
  filter_sublist.map fst

def keysOf (rk : Nat) (seen : List Pair) : List Bytes :=
  seen.filterMap fun p => if p.rkoff = rk then p.dkey else none

theorem Struck.reflag (inv : Struck keys seen rkd) (mask : Mask) :
    Struck keys seen { rkd with mask := mask } :=
  ⟨inv.saved,inv.curr,inv.struck,inv.unmarked,inv.missing⟩

theorem sawKey_eq (env : Env) (merging : Bool) (mask : Mask) (key : Bytes) (rkd : Rkdata) :
    ∃ m, sawKey env key (collect merging mask rkd) = { rkd with mask := m } := by
  have collected : ∃ m, collect merging mask rkd = { rkd with mask := m } := by
    cases merging with
    | false => exact ⟨rkd.mask,rfl⟩
    | true => exact ⟨rkd.mask.or mask,rfl⟩
  obtain ⟨m,same⟩ := collected
  rw [same]
  by_cases first : atTip env { rkd with mask := m } key = true
  · exact ⟨m.or RK_TIP,if_pos first⟩
  · exact ⟨m,if_neg first⟩

variable {deltas : Deltas} {p : Pair}

theorem Struck.turn (good : GoodFile deltas) (inv : Struck (markedKeys deltas) seen rkd) (env : Env)
    (merging : Bool) (shows : mask ≠ Mask.none) (other : p.dkey ≠ some env.spare) :
    Struck (markedKeys deltas) (seen ++ p.dkey.toList) (rkdTurn env merging mask p rkd).1 := by
  have sub := markedKeys_sublist deltas
  have small : (markedKeys deltas).length < 2 ^ 32 :=
    Nat.lt_of_le_of_lt (Nat.le_trans sub.length_le (le_of_eq (length_map ..))) good.small
  unfold rkdTurn
  cases known : p.dkey with
  | none =>
    rw [Option.toList_none,append_nil]
    exact inv.reflag _
  | some key =>
    dsimp only
    obtain ⟨m,saw⟩ := sawKey_eq env merging mask key rkd
    have flagged := inv.reflag m
    rw [saw,if_pos (by rw [flagged.saved]; rfl),Option.toList_some]
    refine flagged.strike (good.distinct.sublist sub) (good.dated.sublist sub) small env shows p ?_
    intro same
    exact other (known.trans (congrArg some same))

structure Fileless (rkd : Rkdata) : Prop where
  saved : rkd.keys = none
  missing : rkd.missing = []
  unmarked : rkd.unmarked = 0

theorem Fileless.turn (inv : Fileless rkd) (env : Env) (merging : Bool) (mask : Mask) (p : Pair) :
    Fileless (rkdTurn env merging mask p rkd).1 := by
  unfold rkdTurn
  cases p.dkey with
  | none => exact ⟨inv.saved,inv.missing,inv.unmarked⟩
  | some key =>
    dsimp only
    obtain ⟨m,saw⟩ := sawKey_eq env merging mask key rkd
    rw [saw,if_neg (by rw [inv.saved]; exact Bool.false_ne_true)]
    exact ⟨inv.saved,inv.missing,inv.unmarked⟩

structure Matched (files : List (Nat × Deltas)) (seen : List Pair) (b : Build) : Prop where
  shows : b.lastser ≠ 0 → b.mask ≠ Mask.none
  file : ∀ f ∈ files, ∃ rkd, b.r2deltas.lookup f.1 = some rkd ∧
    Struck (markedKeys f.2) (keysOf f.1 seen) rkd
  other : ∀ rk rkd, rk ∉ files.map fst → b.r2deltas.lookup rk = some rkd → Fileless rkd
  known : ∀ rk, rk ∈ b.r2deltas.map fst ↔ rk ∈ files.map fst ∨ ∃ p ∈ seen, p.rkoff = rk
  warned : ∀ rk, rk ∈ b.warned ↔ (∃ p ∈ seen, p.rkoff = rk) ∧ rk ∉ files.map fst
  distinct : (b.r2deltas.map fst).Nodup

theorem flags2mask_ne_none (c : Color) : flags2mask c ≠ Mask.none := by
  obtain ⟨red,blue,green⟩ := c
  cases red <;> cases blue <;> simp [flags2mask,RK_GCA,RK_PARENT,RK_MERGE,RK_INTIP,Mask.none]

variable {env : Env} {s : Sccs} {b : Build}

private theorem newSer_ok {moved : Build} {ser : Nat} (turn : newSer env s b ser = .ok moved) :
    ∃ oldest mask, moved = { b with lastser := ser, oldest := oldest, mask := mask } ∧
      ((ser = b.lastser ∧ mask = b.mask) ∨ ∃ c, mask = flags2mask c) := by
  unfold newSer at turn
  split at turn
  next same =>
    cases turn
    exact ⟨b.oldest,b.mask,by rw [same],.inl ⟨same,rfl⟩⟩
  split at turn
  · cases found : b.r2deltas.find? (unmerged env) with
    | some node =>
      rw [found] at turn
      exact absurd turn (by simp)
    | none =>
      rw [found] at turn
      cases turn
      exact ⟨0,_,rfl,.inr ⟨Color.clear,rfl⟩⟩
  · cases turn
    split
    · exact ⟨b.oldest,_,rfl,.inr ⟨(s.flags ser).color,rfl⟩⟩
    · exact ⟨b.oldest,_,rfl,.inr ⟨Color.clear,rfl⟩⟩

theorem weaveTurn_ok {next : Build} (turn : weaveTurn env s b p = .ok next) :
    ∃ oldest mask, next = keyTurn env { b with lastser := p.ser, oldest := oldest, mask := mask } p ∧
      ((p.ser = b.lastser ∧ mask = b.mask) ∨ ∃ c, mask = flags2mask c) := by
  unfold weaveTurn at turn
  cases moving : newSer env s b p.ser with
  | error rk =>
    rw [moving] at turn
    cases turn
  | ok moved =>
    rw [moving] at turn
    cases turn
    obtain ⟨oldest,mask,rfl,painted⟩ := newSer_ok moving
    exact ⟨oldest,mask,rfl,painted⟩

theorem readWeave_keeps {P : List Pair → Build → Prop} {weave seen : List Pair} {next : Build}
    (step : ∀ seen p later b next, seen ++ p :: later = weave → P seen b →
      weaveTurn env s b p = .ok next →
      P (seen ++ [p]) next) {rest : List Pair} (whole : seen ++ rest = weave) (inv : P seen b)
    (run : readWeave env s rest b = .ok next) : P weave next := by
  induction rest generalizing seen b with
  | nil =>
    cases run
    rwa [← whole,append_nil]
  | cons p rest ih =>
    unfold readWeave at run
    cases turn : weaveTurn env s b p with
    | error rk =>
      rw [turn] at run
      cases run
    | ok moved =>
      rw [turn] at run
      exact ih ((append_assoc ..).trans whole) (step seen p rest b moved whole inv turn) run

theorem keysOf_concat (rk : Nat) (seen : List Pair) (p : Pair) :
    keysOf rk (seen ++ [p]) = keysOf rk seen ++ if p.rkoff = rk then p.dkey.toList else [] := by
  unfold keysOf
  rw [filterMap_append]
  congr 1
  split
  next own =>
    rw [filterMap_cons,if_pos own]
    cases p.dkey <;> rfl
  next own =>
    rw [filterMap_cons,if_neg own]
    rfl

/-- What the weave must be for the files: ordinary keys, none of which the spare
memory spells. -/
structure PlainWeave (env : Env) : Prop where
  full : env.all = true
  kept : ∀ key, env.gone key = false
  plain : ∀ p ∈ env.weave, componentKey (p.dkey.getD []) = false
  spare : ∀ p ∈ env.weave, p.dkey ≠ some env.spare

variable {files : List (Nat × Deltas)} {next : Build}

theorem Matched.turn (weave : PlainWeave env) (good : ∀ f ∈ files, GoodFile f.2) {seen : List Pair}
    (inv : Matched files seen b) (entry : p ∈ env.weave) (real : p.ser ≠ 0)
    (turn : weaveTurn env s b p = .ok next) :
    Matched files (seen ++ [p]) next := by
  obtain ⟨oldest,mask,rfl,painted⟩ := weaveTurn_ok turn
  have shows : mask ≠ Mask.none := by
    rcases painted with ⟨last,old⟩ | ⟨c,new⟩
    · exact old ▸ inv.shows (last ▸ real)
    · exact new ▸ flags2mask_ne_none c
  have members : ∀ rk, (∃ q ∈ seen ++ [p], q.rkoff = rk) ↔ (∃ q ∈ seen, q.rkoff = rk) ∨
      p.rkoff = rk := by
    intro rk
    simp [or_and_right,exists_or]
  unfold keyTurn
  refine ⟨fun _ => shows, ?_,?_,?_,?_,nodup_put inv.distinct _ _⟩
  · intro f inside
    obtain ⟨rkd,found,struck⟩ := inv.file f inside
    rw [lookup_put,keysOf_concat]
    split
    next own =>
      rw [if_pos own.symm,← own,found,getD_some]
      exact ⟨_,rfl,struck.turn (good f inside) env _ shows (weave.spare p entry)⟩
    next own =>
      rw [if_neg (Ne.symm own),append_nil]
      exact ⟨rkd,found,struck⟩
  · intro rk rkd outside found
    rw [lookup_put] at found
    split at found
    next own =>
      rw [← some.inj found]
      refine Fileless.turn ?_ env _ _ p
      cases old : b.r2deltas.lookup p.rkoff with
      | none => exact ⟨rfl,rfl,rfl⟩
      | some before => exact inv.other rk before outside (own ▸ old)
    · exact inv.other rk rkd outside found
  · intro rk
    rw [members,mem_keys_put,inv.known,eq_comm,or_comm,or_assoc]
  · intro rk
    have reported : noFile env { b with lastser := p.ser, oldest := oldest, mask := mask } p =
        decide (p.rkoff ∉ b.r2deltas.map fst) := by
      unfold noFile
      rw [weave.full,weave.plain p entry,weave.kept]
      simp
    rw [members,reported]
    by_cases fresh : p.rkoff ∉ b.r2deltas.map fst
    · rw [decide_eq_true fresh,if_pos rfl,mem_append,mem_singleton,inv.warned]
      have none_ := mt (inv.known p.rkoff).mpr fresh
      constructor
      · rintro (old | same)
        · exact ⟨.inl old.1,old.2⟩
        · exact ⟨.inr same.symm,fun inside => none_ (.inl (same ▸ inside))⟩
      · rintro ⟨old | same,outside⟩
        · exact .inl ⟨old,outside⟩
        · exact .inr same.symm
    · rw [decide_eq_false fresh,if_neg Bool.false_ne_true,inv.warned]
      have old := (inv.known p.rkoff).mp (not_not.mp fresh)
      constructor
      · intro found
        exact ⟨.inl found.1,found.2⟩
      · rintro ⟨seenBefore | same,outside⟩
        · exact ⟨seenBefore,outside⟩
        · subst same
          exact ⟨old.resolve_left outside,outside⟩

theorem matched_start (roots : (files.map fst).Nodup) (oldest : Nat) :
    Matched files [] ⟨checkFiles files,0,[],[],oldest,0,Mask.none⟩ := by
  have table : checkFiles files = files.map fun f => (f.1, fileKeys f.2) := by
    have step : ∀ (later earlier : List (Nat × Deltas)), ((earlier ++ later).map fst).Nodup →
        later.foldl (fun r2deltas file => (checkKeys r2deltas file).1)
          (earlier.map fun f => (f.1, fileKeys f.2)) =
          (earlier ++ later).map fun f => (f.1, fileKeys f.2) := by
      intro later
      induction later with
      | nil =>
        intro earlier _
        rw [append_nil]
        rfl
      | cons file later ih =>
        intro earlier distinct
        have fresh : file.1 ∉ (earlier.map fun f => (f.1, fileKeys f.2)).map fst := by
          intro inside
          rw [map_map] at inside
          rw [map_append,nodup_append] at distinct
          exact distinct.2.2 file.1 inside file.1 mem_cons_self rfl
        have next := ih (earlier ++ [file])
        rw [append_assoc,singleton_append] at next
        rw [foldl_cons]
        unfold checkKeys
        rw [if_neg fresh,← next distinct,map_append]
        rfl
    exact step files [] roots
  have keys : (checkFiles files).map fst = files.map fst := by
    rw [table,map_map]
    rfl
  have distinct : ((checkFiles files).map fst).Nodup := keys ▸ roots
  refine ⟨(absurd rfl ·), ?_,?_,?_,?_,distinct⟩
  · intro f inside
    have listed : (f.1, fileKeys f.2) ∈ checkFiles files := by
      rw [table]
      exact mem_map_of_mem inside
    refine ⟨fileKeys f.2,lookup_mem distinct listed,rfl,.inr rfl,?_,?_,rfl⟩
    · intro j k _
      exact ⟨(absurd rfl ·), nofun⟩
    · change (markedKeys f.2).length = _
      congr 1
      exact (filter_eq_self.mpr fun k _ => by simp [keysOf]).symm
  · intro rk rkd outside found
    have inside := mem_keys_iff.mpr ⟨rkd,found⟩
    exact absurd (keys ▸ inside) outside
  · intro rk
    simp only [not_mem_nil,false_and,exists_false,or_false]
    exact keys ▸ Iff.rfl
  · intro rk
    simp

private theorem mend_fold (kept : ∀ key, env.gone key = false) (rk : Nat) {missing : List Bytes}
    (distinct : (deltas.map fst).Nodup) (errors : Nat)
    (once : ∀ key ∈ missing, key ∈ deltas.map fst → deltas.lookup key = some false ∧
      missing.count key ≤ 1) :
    ∃ after, missing.foldlM (mend env rk) (deltas, errors) =
        some (after, errors + (missing.filter fun key => key ∉ deltas.map fst).length) ∧
      after.map fst = deltas.map fst ∧
      ∀ key, after.lookup key =
        if key ∈ missing ∧ key ∈ deltas.map fst then some true else deltas.lookup key := by
  induction missing generalizing deltas errors with
  | nil => exact ⟨deltas,rfl,rfl,fun key => by simp⟩
  | cons key missing ih =>
    rw [foldlM_cons,filter_cons]
    have later : ∀ other ∈ missing, other ∈ deltas.map fst → other ≠ key →
        deltas.lookup other = some false ∧ missing.count other ≤ 1 := by
      intro other inside known apart
      obtain ⟨still,count⟩ := once other (mem_cons_of_mem key inside) known
      rw [count_cons_of_ne (Ne.symm apart)] at count
      exact ⟨still,count⟩
    by_cases there : key ∈ deltas.map fst
    · obtain ⟨unmarked,single⟩ := once key mem_cons_self there
      have gone : key ∉ missing := by
        intro again
        rw [count_cons_self] at single
        have more := count_pos_iff.mpr again
        omega
      have marked : mend env rk (deltas, errors) key = some (put deltas key true, errors) := by
        unfold mend
        rw [unmarked]
      have keys := map_fst_put there true
      have next : ∀ other ∈ missing, other ∈ (put deltas key true).map fst →
          (put deltas key true).lookup other = some false ∧ missing.count other ≤ 1 := by
        intro other inside known
        have apart : other ≠ key := fun same => gone (same ▸ inside)
        rw [keys] at known
        rw [lookup_put,if_neg apart]
        exact later other inside known apart
      obtain ⟨after,run,sameKeys,lookups⟩ := ih (keys ▸ distinct) errors next
      refine ⟨after,?_,sameKeys.trans keys,?_⟩
      · rw [marked,if_neg (by rw [decide_not,decide_eq_true there]; exact Bool.false_ne_true)]
        simp only [keys] at run
        exact run
      intro other
      rw [lookups,keys,lookup_put]
      by_cases same : other = key
      · subst same
        simp [gone,there]
      · simp [same]
    · have absent : deltas.lookup key = none := lookup_none there
      have counted : mend env rk (deltas, errors) key = some (deltas, errors + 1) := by
        unfold mend
        rw [absent,kept,kept]
        rfl
      obtain ⟨after,run,sameKeys,lookups⟩ := ih distinct (errors + 1) fun other inside known =>
        later other inside known fun same => there (same ▸ known)
      refine ⟨after,?_,sameKeys,?_⟩
      · rw [counted,if_pos (decide_eq_true there),length_cons]
        refine Eq.trans run ?_
        congr 2
        omega
      · intro other
        rw [lookups]
        by_cases same : other = key
        · subst same
          simp [there]
        · simp [same]

theorem Struck.unmatched (inv : Struck keys seen rkd) : unmatched rkd ≠ 0 ↔ ∃ k ∈ keys, k ∉ seen := by
  have left : rkd.unmarked ≠ 0 ↔ ∃ k ∈ keys, k ∉ seen := by
    rw [inv.unmarked,Ne,length_eq_zero_iff,filter_eq_nil_iff]
    simp
  unfold Check.unmatched
  split
  next zero =>
    exact ⟨(absurd rfl ·), fun some_ => absurd zero (left.mpr some_)⟩
  rename_i zero
  obtain ⟨k,inside,fresh⟩ := left.mp zero
  obtain ⟨j,within,same⟩ := mem_iff_getElem.mp inside
  have place : keys[j]? = some k := same ▸ getElem?_eq_getElem within
  have free : rkd.dmasks (j + 1) = Mask.none := by
    by_contra struck
    exact fresh ((inv.struck j k place).mp struck)
  have found : ((List.range' 1 rkd.keycnt).any fun i => rkd.dmasks i = Mask.none) = true := by
    rw [any_eq_true]
    refine ⟨j + 1,?_,decide_eq_true free⟩
    rw [keycnt_eq inv.saved,mem_range'_1]
    omega
  dsimp only
  rw [found,if_pos rfl,ite_self]
  exact ⟨fun _ => ⟨k,inside,fresh⟩, fun _ => Nat.one_ne_zero⟩

theorem lookup_marked (distinct : (deltas.map fst).Nodup) (key : Bytes) :
    deltas.lookup key = some true ↔ key ∈ markedKeys deltas := by
  constructor
  · intro found
    exact mem_map.mpr ⟨(key, true),mem_filter.mpr ⟨lookup_some_mem found,rfl⟩,rfl⟩
  · intro inside
    obtain ⟨delta,kept,rfl⟩ := mem_map.mp inside
    obtain ⟨listed,marked⟩ := mem_filter.mp kept
    rw [lookup_mem distinct listed,marked]

structure Verdict (deltas : Deltas) (weave : List Bytes) (after : Deltas) (errors : Nat) : Prop where
  errors : errors ≠ 0 ↔ (∃ k ∈ weave, k ∉ deltas.map fst) ∨ ∃ k ∈ markedKeys deltas, k ∉ weave
  keys : after.map fst = deltas.map fst
  marks : ∀ k, k ∈ markedKeys after ↔ k ∈ markedKeys deltas ∨ (k ∈ weave ∧ k ∈ deltas.map fst)

theorem Struck.missingDelta (kept : ∀ key, env.gone key = false) (rk : Nat) (good : GoodFile deltas)
    (inv : Struck (markedKeys deltas) seen rkd)
    (once : ∀ key, (key, false) ∈ deltas → seen.count key ≤ 1) :
    ∃ after errors, missingDelta env rk deltas rkd = some (after, errors) ∧
      Verdict deltas seen after errors := by
  have unmarkedOf : ∀ key, key ∉ markedKeys deltas → key ∈ deltas.map fst →
      deltas.lookup key = some false := by
    intro key off there
    obtain ⟨value,found⟩ := mem_keys_iff.mp there
    cases value with
    | false => exact found
    | true => exact absurd ((lookup_marked good.distinct key).mp found) off
  have ready : ∀ key ∈ rkd.missing.map snd, key ∈ deltas.map fst →
      deltas.lookup key = some false ∧ (rkd.missing.map snd).count key ≤ 1 := by
    intro key inside there
    rw [inv.missing] at inside ⊢
    obtain ⟨_,off⟩ := mem_filter.mp inside
    have found := unmarkedOf key (of_decide_eq_true off) there
    exact ⟨found,Nat.le_trans (filter_sublist.count_le key) (once key (lookup_some_mem found))⟩
  obtain ⟨after,run,keys,lookups⟩ := mend_fold kept rk good.distinct 0 ready
  rw [foldlM_map] at run
  refine ⟨after,0 + ((rkd.missing.map snd).filter fun key => key ∉ deltas.map fst).length +
    Check.unmatched rkd, ?_,?_,keys,?_⟩
  · unfold Check.missingDelta
    rw [run]
    rfl
  · have lost : 0 +
      ((rkd.missing.map snd).filter fun key => key ∉ deltas.map fst).length ≠ 0 ↔
        ∃ k ∈ seen, k ∉ deltas.map fst := by
      rw [Nat.zero_add,Ne,length_eq_zero_iff,filter_eq_nil_iff,inv.missing]
      simp only [mem_filter,not_forall,decide_eq_true_iff]
      constructor
      · rintro ⟨k,⟨inside,_⟩,away⟩
        exact ⟨k,inside,not_not.mp away⟩
      · rintro ⟨k,inside,away⟩
        exact ⟨k,⟨inside,fun marked => away ((markedKeys_sublist deltas).subset marked)⟩,
          not_not.mpr away⟩
    rw [← inv.unmatched,← lost]
    omega
  · intro k
    rw [← lookup_marked (keys ▸ good.distinct),lookups,inv.missing]
    by_cases marked : k ∈ markedKeys deltas
    · have known := (lookup_marked good.distinct k).mpr marked
      simp [marked,known]
    have off : deltas.lookup k ≠ some true := mt (lookup_marked good.distinct k).mp marked
    by_cases both : k ∈ seen ∧ k ∈ deltas.map fst
    · rw [if_pos ⟨mem_filter.mpr ⟨both.1,decide_eq_true marked⟩,both.2⟩]
      exact iff_of_true rfl (.inr both)
    · rw [if_neg fun found => both ⟨(mem_filter.mp found.1).1,found.2⟩]
      exact iff_of_false off (not_or.mpr ⟨marked,both⟩)

theorem checkRoot_eq (env : Env) (files : List (Nat × Deltas)) (node : Nat × Rkdata) :
    checkRoot env files node = missingDelta env node.1 ((files.lookup node.1).getD []) node.2 := by
  unfold checkRoot
  by_cases rest : node.2.missing ≠ [] ∨ node.2.unmarked ≠ 0
  · rw [if_pos rest]
  · obtain ⟨none_,zero⟩ := not_or.mp rest
    rw [if_neg rest]
    unfold missingDelta unmatched
    rw [not_not.mp none_,if_pos (not_not.mp zero)]
    rfl

theorem checkRoots_spec {nodes : List (Nat × Rkdata)}
    (each : ∀ node ∈ nodes, ∃ checked, checkRoot env files node = some checked) :
    ∃ roots, checkRoots env files nodes = some roots ∧ roots.map fst = nodes.map fst ∧
      ∀ node ∈ nodes, ∀ checked, checkRoot env files node = some checked →
        (node.1, checked) ∈ roots := by
  induction nodes with
  | nil => exact ⟨[],rfl,rfl,nofun⟩
  | cons node nodes ih =>
    obtain ⟨checked,first⟩ := each node mem_cons_self
    obtain ⟨roots,rest,keys,listed⟩ := ih fun other inside => each other (mem_cons_of_mem node inside)
    refine ⟨(node.1, checked) :: roots,?_,?_,?_⟩
    · unfold checkRoots
      rw [first,rest]
    · rw [map_cons,map_cons,keys]
    · intro other inside result known
      rcases mem_cons.mp inside with rfl | later
      · rw [first] at known
        rw [← some.inj known]
        exact mem_cons_self
      · exact mem_cons_of_mem _ (listed other later result known)

def MarkersLast (weave : List Pair) : Prop :=
  weave.Pairwise fun a b => a.dkey = none → b.rkoff ≠ a.rkoff

structure Quiet (seen : List Pair) (b : Build) : Prop where
  errors : b.e = 0
  mask : b.mask.done = false
  done : ∀ rk, (maskOf b rk).done = true → ∃ p ∈ seen, p.rkoff = rk ∧ p.dkey = none

theorem flags2mask_done (c : Color) : (flags2mask c).done = false := by
  obtain ⟨red,blue,green⟩ := c
  cases red <;> cases blue <;> rfl

private theorem sawKey_done (env : Env) (merging : Bool) (open_ : mask.done = false) (dkey : Bytes)
    (rkd : Rkdata) :
    (sawKey env dkey (collect merging mask rkd)).mask.done = rkd.mask.done := by
  have collected : (collect merging mask rkd).mask.done = rkd.mask.done := by
    cases merging with
    | false => rfl
    | true => exact (congrArg (rkd.mask.done || ·) open_).trans (Bool.or_false _)
  unfold sawKey
  split
  · exact (Bool.or_false _).trans collected
  · exact collected

section
variable (policy : ∀ rkey dkey old new, env.processDups rkey dkey old new = false)
include policy

theorem strike_quiet (mask : Mask) (p : Pair) (dkey : Bytes) (rkd : Rkdata) :
    (strike env mask p dkey rkd).2 = 0 := by
  unfold strike
  dsimp only
  split
  · exact if_neg fun dup => absurd dup.2 (by rw [policy]; exact Bool.false_ne_true)
  · rfl

theorem rkdTurn_quiet (merging : Bool) (open_ : mask.done = false) (p : Pair)
    (going : rkd.mask.done = false) :
    (rkdTurn env merging mask p rkd).2 = 0 ∧
      ((rkdTurn env merging mask p rkd).1.mask.done = true → p.dkey = none) := by
  unfold rkdTurn
  rw [going]
  cases known : p.dkey with
  | none => exact ⟨rfl,fun _ => rfl⟩
  | some dkey =>
    have still := (sawKey_done env merging open_ dkey rkd).trans going
    dsimp only
    split
    · refine ⟨(Nat.zero_add _).trans (strike_quiet policy mask p dkey _),fun ended => ?_⟩
      rw [strike_mask,still] at ended
      cases ended
    · refine ⟨rfl,fun ended => ?_⟩
      rw [still] at ended
      cases ended

theorem Quiet.turn {seen : List Pair} (inv : Quiet seen b)
    (before : ∀ q ∈ seen, q.dkey = none → p.rkoff ≠ q.rkoff)
    (turn : weaveTurn env s b p = .ok next) : Quiet (seen ++ [p]) next := by
  obtain ⟨oldest,mask,rfl,painted⟩ := weaveTurn_ok turn
  have open_ : mask.done = false := by
    rcases painted with ⟨_,old⟩ | ⟨c,new⟩
    · exact old ▸ inv.mask
    · exact new ▸ flags2mask_done c
  have going : (maskOf b p.rkoff).done = false := by
    rw [← Bool.not_eq_true]
    intro ended
    obtain ⟨q,inside,own,marker⟩ := inv.done p.rkoff ended
    exact before q inside marker own.symm
  obtain ⟨errors,ends⟩ := rkdTurn_quiet policy (oldest ≠ 0) open_ p going
  refine ⟨?_,open_,?_⟩
  · rw [inv.errors]
    exact (Nat.zero_add _).trans errors
  intro rk ended
  unfold maskOf keyTurn at ended
  rw [lookup_put] at ended
  split at ended
  next own =>
    exact ⟨p,mem_append_right seen mem_cons_self,own.symm,ends ended⟩
  · obtain ⟨q,inside,rest⟩ := inv.done rk ended
    exact ⟨q,mem_append_left [p] inside,rest⟩

end

private theorem quiet_start (files : List (Nat × Deltas)) (oldest : Nat) :
    Quiet [] ⟨checkFiles files,0,[],[],oldest,0,Mask.none⟩ := by
  obtain ⟨_,fresh⟩ := checkFiles_fresh files
  refine ⟨rfl,rfl,fun rk ended => ?_⟩
  unfold maskOf at ended
  cases found : (checkFiles files).lookup rk with
  | none =>
    rw [found] at ended
    cases ended
  | some rkd =>
    have bare : rkd.mask = Mask.none := fresh (rk, rkd) (lookup_some_mem found)
    rw [found,getD_some,bare] at ended
    cases ended

def Settled (env : Env) : Prop :=
  env.g.merge env.top = 0 ∧ Clean env.flags ∨ MergeTip env ∧
    ¬ ((∃ rk, Unmerged env rk) ∧ EntryBelow env)

theorem readWeave_plain (single : env.g.merge env.top = 0) (clean : Clean env.flags)
    (order : NewestFirst env.weave) (kept : ∀ key, env.gone key = false)
    (files : List (Nat × Deltas)) :
    ∃ s oldest b, color_merge env.g env.flags env.top 0 = some (s, oldest) ∧
      readWeave env s env.weave ⟨checkFiles files,0,[],[],oldest,0,Mask.none⟩ = .ok b := by
  let s := env.flags.orColor env.top (Color.D_BLUE.or Color.D_RED)
  have colors : color_merge env.g env.flags env.top 0 = some (s, env.top) := by
    unfold color_merge
    rw [if_pos rfl]
    exact if_pos single
  by_cases zero : env.top = 0
  · obtain ⟨b,run⟩ := readWeave_evaluated env s env.weave
      (b := ⟨checkFiles files,0,[],[],env.top,0,Mask.none⟩) zero
    exact ⟨s,env.top,b,colors,run⟩
  obtain ⟨high,low,split,above,below⟩ := order.split env.top
  have real := order.real
  rw [split] at real
  obtain ⟨b,run,reading⟩ := (reading_start files s env.top).run env zero
    (fun p inside => real p (mem_append_left low inside)) above
  have unsided : ∀ x, (flags2mask (s.flags x).color).parent = false := by
    intro x
    rw [← Bool.not_eq_true,(flags2mask_bits _).1,orColor_color,clean x]
    by_cases same : x = env.top
    · simp [same,Color.or,Color.D_BLUE,Color.D_RED]
    · simp [same,Color.clear]
  cases low with
  | nil =>
    rw [append_nil] at split
    exact ⟨s,env.top,b,colors,split ▸ run⟩
  | cons p low =>
    cases rest : readWeave env s (p :: low) b with
    | ok last => exact ⟨s,env.top,last,colors,by rw [split,readWeave_append env s high _ run,rest]⟩
    | error rk =>
      have older := below p mem_cons_self
      have one := real p (mem_append_right high mem_cons_self)
      obtain ⟨found,parent,_⟩ := (reading.evaluate kept one older low).mp ⟨rk,rest⟩
      obtain ⟨entry,_,_,_,bit⟩ := (reading.bits _ sideBit_parent found).mp parent
      rw [unsided] at bit
      cases bit

theorem Settled.readWeave (settled : Settled env) (order : NewestFirst env.weave)
    (kept : ∀ key, env.gone key = false) (q : SortPaths) (files : List (Nat × Deltas)) :
    ∃ s oldest b, color_merge env.g env.flags env.top 0 = some (s, oldest) ∧
      Check.readWeave env s env.weave ⟨checkFiles files,0,[],[],oldest,0,Mask.none⟩ = .ok b := by
  rcases settled with ⟨single,clean⟩ | ⟨tip,nothing⟩
  · exact readWeave_plain single clean order kept files
  obtain ⟨s,oldest,colors,_⟩ := color_merge_colored tip
  cases run : Check.readWeave env s env.weave ⟨checkFiles files,0,[],[],oldest,0,Mask.none⟩ with
  | ok b => exact ⟨s,oldest,b,colors,run⟩
  | error rk =>
    have reported := (buildKeys_missingMerge colors q files rk).mpr run
    exact absurd ((missingMerge_iff tip order kept q files).mp ⟨rk,reported⟩) nothing

structure Exact (env : Env) (files : List (Nat × Deltas)) (report : Report) : Prop where
  file : ∀ f ∈ files, ∃ after errors, report.roots.lookup f.1 = some (after, errors) ∧
    Verdict f.2 (keysOf f.1 env.weave) after errors
  warned : ∀ rk, rk ∈ report.warned ↔ (∃ p ∈ env.weave, p.rkoff = rk) ∧ rk ∉ files.map fst
  quiet : MarkersLast env.weave → (∀ rkey dkey old new, env.processDups rkey dkey old new = false) →
    report.e = 0

/-- Provided that no key with an unmarked delta is listed twice. -/
theorem buildKeys_marks_exact {env : Env} (weave : PlainWeave env) (order : NewestFirst env.weave)
    (settled : Settled env) {files : List (Nat × Deltas)} (roots : (files.map Prod.fst).Nodup)
    (good : ∀ f ∈ files, GoodFile f.2)
    (once : ∀ f ∈ files, ∀ key, (key, false) ∈ f.2 → (keysOf f.1 env.weave).count key ≤ 1)
    (q : SortPaths) :
    ∃ report, buildKeys env q files = .report report ∧ Exact env files report := by
  obtain ⟨s,oldest,b,colors,run⟩ := settled.readWeave order weave.kept q files
  have inv : Matched files env.weave b := by
    refine readWeave_keeps ?_ (nil_append _) (matched_start roots oldest) run
    intro seen p later b next whole inv turn
    have entry : p ∈ env.weave := whole ▸ mem_append_right seen mem_cons_self
    exact inv.turn weave good entry (order.real p entry) turn
  have verdict : ∀ f ∈ files, ∀ rkd, b.r2deltas.lookup f.1 = some rkd → ∃ after errors,
      checkRoot env files (f.1, rkd) = some (after, errors) ∧
      Verdict f.2 (keysOf f.1 env.weave) after errors := by
    intro f inside rkd found
    obtain ⟨_,known,struck⟩ := inv.file f inside
    rw [known] at found
    rw [← some.inj found,checkRoot_eq,lookup_mem roots inside,getD_some]
    exact struck.missingDelta weave.kept f.1 (good f inside) (once f inside)
  have each : ∀ node ∈ b.r2deltas, ∃ checked, checkRoot env files node = some checked := by
    intro node inside
    have found := lookup_mem inv.distinct inside
    by_cases own : node.1 ∈ files.map fst
    · obtain ⟨f,listed,same⟩ := mem_map.mp own
      rw [← same] at found
      obtain ⟨after,errors,checked,_⟩ := verdict f listed node.2 found
      rw [same] at checked
      exact ⟨_,checked⟩
    · have bare := inv.other node.1 node.2 own found
      refine ⟨_,if_neg ?_⟩
      rw [bare.missing,bare.unmarked]
      simp
  obtain ⟨checked,all,keys,listed⟩ := checkRoots_spec each
  refine ⟨⟨b.e,b.warned,checked,pathConflicts q b.pathnames⟩,?_,?_,inv.warned,?_⟩
  · unfold buildKeys
    rw [colors]
    dsimp only
    rw [run]
    dsimp only
    rw [all]
  · intro f inside
    obtain ⟨rkd,found,_⟩ := inv.file f inside
    obtain ⟨after,errors,result,exact_⟩ := verdict f inside rkd found
    have entry := listed _ (lookup_some_mem found) _ result
    exact ⟨after,errors,lookup_mem (keys ▸ inv.distinct) entry,exact_⟩
  · intro markers policy
    refine (readWeave_keeps (P := Quiet) ?_ (nil_append _) (quiet_start files oldest) run).errors
    intro seen p later b next whole inv turn
    have last := pairwise_append.mp (whole ▸ markers)
    exact inv.turn policy (fun q inside => last.2.2 q inside p mem_cons_self) turn

def lineEnv (weave : List Pair) : Env := { sixEnv weave with top := 5 }

theorem lineEnv_settled (weave : List Pair) : Settled (lineEnv weave) := .inl ⟨rfl,fun _ => rfl⟩

/-- One key of file 7 has no mark, one no delta, one is not in the weave; file 8 is missing. -/
theorem buildKeys_marks_exact_line : ∃ report,
    buildKeys (lineEnv [⟨5,7,some [53]⟩,⟨3,7,some [51]⟩,⟨3,8,some [50]⟩,⟨1,7,some [49]⟩,⟨1,7,none⟩])
      insertPaths [(7, [([53], false),([51], true),([48], true)])] = .report report ∧
    Exact (lineEnv [⟨5,7,some [53]⟩,⟨3,7,some [51]⟩,⟨3,8,some [50]⟩,⟨1,7,some [49]⟩,⟨1,7,none⟩])
      [(7, [([53], false),([51], true),([48], true)])] report := by
  refine buildKeys_marks_exact ⟨rfl,fun _ => rfl, by decide,by decide⟩ ⟨by decide,by decide⟩
    (lineEnv_settled _)
    (by decide) ?_ ?_ insertPaths
  · intro f inside
    rw [mem_singleton.mp inside]
    exact ⟨by decide,by unfold Dated; decide,by decide⟩
  intro f inside
  rw [mem_singleton.mp inside]
  intro key unmarked
  have only : key = [53] := by simpa using unmarked
  rw [only]
  decide

/-- Csets 3 and 5 list a key that file 7 has without a mark: the second meets the mark of the first.
And where a merge is missing the files are not looked at. -/
theorem buildKeys_marks_missed :
    buildKeys (lineEnv [⟨5,7,some [49]⟩,⟨3,7,some [50]⟩,⟨3,7,some [49]⟩,⟨1,9,some [51]⟩]) insertPaths
      [(7, [([50], true),([49], false)])] = .assertion ∧
    buildKeys (sixEnv (sixWeave ++ [⟨1,9,some [49]⟩])) insertPaths
      [(7, [([53], true),([52], true),([48], true)])] = .missingMerge 7 := by
  constructor
  · decide +kernel
  · decide +kernel

end BitKeeper.Check
