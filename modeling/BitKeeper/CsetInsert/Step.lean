import BitKeeper.CsetInsert.Symbols

/-!
The step lemma: `cset_insert` of an acceptable delta succeeds, keeps the state and takes that one
delta into the history the state stands for.
-/

namespace BitKeeper.CsetInsert

open List hiding getElem?_eq_some_iff

variable {K Q : Type} [LinearOrder Q]

structure Ordered (deltas : List (Delta K Q)) (symlist : List Symbol) : Prop where
  sorted : deltas.Pairwise (fun a b => a.rank < b.rank)
  keys : (deltas.map (·.key)).Nodup
  parents : ∀ i e, deltas[i]? = some e → ParentsBelow i e
  tagged : ∀ e ∈ deltas, e.tag = true → e.parent ≠ 0
  symSorted : symlist.Pairwise (fun a b => a.metaSer ≤ b.metaSer)
  symSer : ∀ sym ∈ symlist, sym.ser ≠ 0 ∧ sym.ser ≤ deltas.length
  symMeta : ∀ sym ∈ symlist, sym.metaSer ≠ 0 ∧ sym.metaSer ≤ deltas.length

def Delta.lazily (d : Delta K Q) : K × Nat × Nat × List (Nat × Bool) :=
  (d.key, d.ptag, d.mtag, d.cludes)

/-- `old` is the table before the patch, `locs` has the increasing places of all that came with it. -/
structure Running (old : List (Delta K Q)) (s : Sccs K Q) : Prop where
  ordered : Ordered s.deltas s.symlist
  others : ∀ i e, s.deltas[i]? = some e → e.remote = true → OthersBelow i e
  locals : (s.deltas.filter (fun d => !d.remote)).map Delta.lazily = old.map Delta.lazily
  locsSorted : s.locs.Pairwise (· < ·)
  locsInside : ∀ l ∈ s.locs, l ≠ 0 ∧ l ≤ s.deltas.length
  remoteLocs : ∀ i e, s.deltas[i]? = some e → e.remote = true → i + 1 ∈ s.locs

def runHistory [DecidableEq K] (old : List (Delta K Q)) (s : Sccs K Q) : History K Q :=
  { deltas := {v | v ∈ runViews old s.deltas}, syms := symsAt s.deltas s.symlist }

def TouchedBefore (s : Sccs K Q) (p : Incoming K Q) : Prop :=
  ∀ l ∈ s.locs, ∀ e, s.deltas[l - 1]? = some e → e.rank < p.rank

section Pieces
variable (older newer : List (Delta K Q)) (d : Delta K Q)
omit [LinearOrder Q]

theorem getElem?_insertDelta (i : Nat) (e : Delta K Q)
    (at_ : (insertDelta (older ++ newer) (older.length + 1) d)[i]? = some e) :
    (i < older.length ∧ (older ++ newer)[i]? = some e) ∨ (i = older.length ∧ e = d) ∨
      ∃ j before, i = j + 1 ∧ older.length ≤ j ∧ (older ++ newer)[j]? = some before ∧
        e = bumpParents (older.length + 1) before := by
  rw [insertDelta_append] at at_
  rcases lt_trichotomy i older.length with low | same | high
  · rw [getElem?_append_left low] at at_
    exact .inl ⟨low,by rw [getElem?_append_left low,at_]⟩
  · rw [same,getElem?_append_right le_rfl,Nat.sub_self] at at_
    exact .inr (.inl ⟨same,(Option.some.inj at_).symm⟩)
  · obtain ⟨j,rfl⟩ := Nat.exists_eq_succ_of_ne_zero (show i ≠ 0 by omega)
    rw [getElem?_append_right (by omega),
      show j.succ - older.length = (j - older.length) + 1 by omega,getElem?_cons_succ,
      getElem?_map,Option.map_eq_some_iff] at at_
    obtain ⟨before,found,bumped⟩ := at_
    refine .inr (.inr ⟨j,before,rfl,by omega,?_,bumped.symm⟩)
    rw [getElem?_append_right (by omega),found]

variable (serial : Nat) (e : Delta K Q)

theorem bumpParents_remote :
    (bumpParents serial e).remote = e.remote := by
  unfold bumpParents
  split <;> rfl

theorem bumpParents_rank : (bumpParents serial e).rank = e.rank := by
  unfold bumpParents
  split <;> rfl

theorem bumpParents_lazily :
    (bumpParents serial e).lazily = e.lazily := by
  unfold bumpParents
  split <;> rfl

theorem bumpParents_tagged (tagged : e.tag = true → e.parent ≠ 0) :
    (bumpParents serial e).tag = true → (bumpParents serial e).parent ≠ 0 := by
  unfold bumpParents
  split
  · exact tagged
  · rename_i real
    intro _meta
    change bump serial e.parent ≠ 0
    unfold bump
    split <;> omega

theorem insertDelta_keys :
    (insertDelta (older ++ newer) (older.length + 1) d).map (·.key) =
      older.map (·.key) ++ d.key :: newer.map (·.key) := by
  rw [insertDelta_append,map_append,map_cons,map_map]
  simp only [Function.comp_def,bumpParents_key]

theorem insertDelta_length :
    (insertDelta (older ++ newer) (older.length + 1) d).length = (older ++ newer).length + 1 := by
  rw [insertDelta_append]
  simp only [length_append,length_cons,length_map]
  omega

private theorem bumpSymbols_low (symlist : List Symbol)
    (low : ∀ sym ∈ symlist, sym.ser < serial ∧ sym.metaSer < serial) :
    bumpSymbols serial symlist = symlist := by
  conv_rhs => rw [← map_id symlist]
  apply map_congr_left
  intro sym member
  have small := low sym member
  unfold bump
  rw [if_neg (by omega),if_neg (by omega)]
  rfl

private theorem bump_mono (serial m n : Nat) (le : m ≤ n) : bump serial m ≤ bump serial n := by
  unfold bump
  split <;> split <;> omega

end Pieces

theorem insertDelta_sorted (older newer : List (Delta K Q)) (d : Delta K Q)
    (sorted : (older ++ newer).Pairwise (fun a b => a.rank < b.rank))
    (low : ∀ e ∈ older, e.rank < d.rank) (high : ∀ e ∈ newer, d.rank < e.rank) :
    (insertDelta (older ++ newer) (older.length + 1) d).Pairwise (fun a b => a.rank < b.rank) := by
  rw [insertDelta_append]
  rw [pairwise_append] at sorted ⊢
  obtain ⟨olderSorted,newerSorted,across⟩ := sorted
  refine ⟨olderSorted,?_,?_⟩
  · rw [pairwise_cons,pairwise_map]
    constructor
    · intro e member
      obtain ⟨before,inside,rfl⟩ := mem_map.mp member
      rw [bumpParents_rank]
      exact high before inside
    · simpa only [bumpParents_rank] using newerSorted
  · intro a inOlder b member
    rcases mem_cons.mp member with same | later
    · exact same ▸ low a inOlder
    · obtain ⟨before,inside,rfl⟩ := mem_map.mp later
      rw [bumpParents_rank]
      exact across a inOlder before inside

structure Fits (s : Sccs K Q) (p : Incoming K Q) (older newer : List (Delta K Q)) (d : Delta K Q) :
    Prop where
  split : s.deltas = older ++ newer
  low : ∀ e ∈ older, e.rank < d.rank
  high : ∀ e ∈ newer, d.rank < e.rank
  fresh : ∀ e ∈ s.deltas, e.key ≠ d.key
  view : viewWith (keyAt s.deltas) (keyAt s.deltas) d = p.view
  remote : d.remote = true
  parents : ParentsBelow older.length d
  others : OthersBelow older.length d
  tagged : d.tag = true → d.parent ≠ 0
  touched : ∀ l ∈ s.locs, l ≤ older.length

section NewDelta
variable {old : List (Delta K Q)} {s : Sccs K Q} {p : Incoming K Q} {older newer : List (Delta K Q)}
  {d : Delta K Q}

theorem Fits.ordered (fits : Fits s p older newer d) (ordered : Ordered s.deltas s.symlist) :
    Ordered (insertDelta s.deltas (older.length + 1) d)
      (bumpSymbols (older.length + 1) s.symlist) := by
  have fresh := fits.fresh
  rw [fits.split] at ordered fresh ⊢
  have moved : ∀ n, n ≠ 0 ∧ n ≤ (older ++ newer).length → bump (older.length + 1) n ≠ 0 ∧
      bump (older.length + 1) n ≤ (insertDelta (older ++ newer) (older.length + 1) d).length := by
    intro n range
    rw [insertDelta_length]
    unfold bump
    split <;> omega
  refine ⟨?_,?_,?_,?_,?_,?_,?_⟩
  · exact insertDelta_sorted older newer d ordered.sorted fits.low fits.high
  · rw [insertDelta_keys]
    apply nodup_middle.mpr
    rw [nodup_cons,← map_append]
    refine ⟨?_,ordered.keys⟩
    intro member
    obtain ⟨e,inside,same⟩ := mem_map.mp member
    exact fresh e inside same
  · intro i e at_
    rcases getElem?_insertDelta older newer d i e at_ with
      ⟨_low,before⟩ | ⟨same,new⟩ | ⟨j,before,next,_high,found,bumped⟩
    · exact ordered.parents i e before
    · rw [same,new]
      exact fits.parents
    · rw [next,bumped]
      exact (ordered.parents j before found).bump _
  · intro e member
    obtain ⟨i,inside⟩ := mem_iff_getElem?.mp member
    rcases getElem?_insertDelta older newer d i e inside with
      ⟨_low,before⟩ | ⟨_same,new⟩ | ⟨j,before,_next,_high,found,bumped⟩
    · exact ordered.tagged e (mem_of_getElem? before)
    · rw [new]
      exact fits.tagged
    · rw [bumped]
      exact bumpParents_tagged _ before (ordered.tagged before (mem_of_getElem? found))
  · unfold bumpSymbols
    rw [pairwise_map]
    exact ordered.symSorted.imp (fun le => bump_mono _ _ _ le)
  · intro sym member
    obtain ⟨before,inside,rfl⟩ := mem_map.mp member
    exact moved before.ser (ordered.symSer before inside)
  · intro sym member
    obtain ⟨before,inside,rfl⟩ := mem_map.mp member
    exact moved before.metaSer (ordered.symMeta before inside)

theorem Ordered.addsyms {deltas : List (Delta K Q)} {before behind : List Symbol}
    (ordered : Ordered deltas (before ++ behind)) (metad ser : Nat) (vals : List String)
    (low : ∀ sym ∈ before, sym.metaSer ≤ metad) (high : ∀ sym ∈ behind, metad < sym.metaSer)
    (metaInside : metad ≠ 0 ∧ metad ≤ deltas.length) (serInside : ser ≠ 0 ∧ ser ≤ deltas.length) :
    Ordered deltas (before ++ vals.map (fun val => ⟨val,ser,metad⟩) ++ behind) := by
  have parts : ∀ sym ∈ before ++ vals.map (fun val => (⟨val,ser,metad⟩ : Symbol)) ++ behind,
      sym ∈ before ++ behind ∨ sym.ser = ser ∧ sym.metaSer = metad := by
    intro sym member
    rw [append_assoc,mem_append,mem_append] at member
    rcases member with first | middle | last
    · exact .inl (by simp [first])
    · obtain ⟨val,_listed,rfl⟩ := mem_map.mp middle
      exact .inr ⟨rfl,rfl⟩
    · exact .inl (by simp [last])
  refine ⟨ordered.sorted,ordered.keys,ordered.parents,ordered.tagged,?_,?_,?_⟩
  · have sorted := ordered.symSorted
    rw [pairwise_append] at sorted
    obtain ⟨beforeSorted,behindSorted,_across⟩ := sorted
    rw [pairwise_append,pairwise_append]
    refine ⟨⟨beforeSorted,?_,?_⟩,behindSorted,?_⟩
    · rw [pairwise_map]
      exact pairwise_of_forall (fun _ _ => le_rfl)
    · intro a inBefore b member
      obtain ⟨val,_listed,rfl⟩ := mem_map.mp member
      exact low a inBefore
    · intro a member b inBehind
      have above := high b inBehind
      rcases mem_append.mp member with inBefore | new
      · have below := low a inBefore
        omega
      · obtain ⟨val,_listed,rfl⟩ := mem_map.mp new
        exact Nat.le_of_lt above
  · intro sym member
    rcases parts sym member with earlier | ⟨same,_⟩
    · exact ordered.symSer sym earlier
    · rwa [same]
  · intro sym member
    rcases parts sym member with earlier | ⟨_,same⟩
    · exact ordered.symMeta sym earlier
    · rwa [same]

variable (fits : Fits s p older newer d)
include fits

theorem Fits.newer_local (running : Running old s) : ∀ e ∈ newer, e.remote = false := by
  intro e member
  obtain ⟨j,found⟩ := mem_iff_getElem?.mp member
  by_contra remote
  have place : s.deltas[older.length + j]? = some e := by
    rw [fits.split,getElem?_append_right (by omega),Nat.add_sub_cancel_left,found]
  have touched := fits.touched _ (running.remoteLocs _ e place (by simpa using remote))
  omega

theorem Fits.running (running : Running old s) (symlist : List Symbol)
    (ordered : Ordered (insertDelta s.deltas (older.length + 1) d) symlist) :
    Running old
      { deltas := insertDelta s.deltas (older.length + 1) d, symlist := symlist
        locs := s.locs ++ [older.length + 1] } := by
  have localBehind := fits.newer_local running
  have pieces : ∀ i e, (insertDelta s.deltas (older.length + 1) d)[i]? = some e →
      e.remote = true → (i < older.length ∧ s.deltas[i]? = some e) ∨ (i = older.length ∧ e = d) := by
    intro i e at_ remote
    rw [fits.split] at at_ ⊢
    rcases getElem?_insertDelta older newer d i e at_ with
      first | second | ⟨j,before,_next,high,found,bumped⟩
    · exact .inl first
    · exact .inr second
    · rw [getElem?_append_right high] at found
      have plain := localBehind before (mem_of_getElem? found)
      rw [bumped,bumpParents_remote,plain] at remote
      cases remote
  refine ⟨ordered,?_,?_,?_,?_,?_⟩
  · intro i e at_ remote
    rcases pieces i e at_ remote with ⟨_low,before⟩ | ⟨same,new⟩
    · exact running.others i e before remote
    · rw [same,new]
      exact fits.others
  · have locals := running.locals
    rw [fits.split,filter_append,map_append] at locals
    rw [fits.split,insertDelta_append,filter_append,filter_cons_of_neg (by simp [fits.remote]),
      map_append,filter_map,map_map,← locals]
    simp only [Function.comp_def,bumpParents_remote,bumpParents_lazily]
  · rw [pairwise_append]
    refine ⟨running.locsSorted,by simp,?_⟩
    intro a member b new
    rw [mem_singleton] at new
    have touched := fits.touched a member
    omega
  · intro l member
    rw [fits.split,insertDelta_length,← fits.split]
    rcases mem_append.mp member with before | new
    · have inside := running.locsInside l before
      omega
    · rw [mem_singleton] at new
      have length := congrArg List.length fits.split
      rw [length_append] at length
      omega
  · intro i e at_ remote
    rcases pieces i e at_ remote with ⟨_low,before⟩ | ⟨same,_new⟩
    · exact mem_append_left _ (running.remoteLocs i e before remote)
    · rw [same]
      simp

theorem Fits.takes [DecidableEq K] (running : Running old s) (before behind : List Symbol)
    (symbols : bumpSymbols (older.length + 1) s.symlist = before ++ behind) :
    Takes (runHistory old s) p (runHistory old
      { deltas := insertDelta s.deltas (older.length + 1) d
        symlist := before ++ p.syms.map (fun val =>
          ⟨val,realDelta (insertDelta s.deltas (older.length + 1) d) (older.length + 1)
            (older.length + 1),older.length + 1⟩) ++ behind
        locs := s.locs ++ [older.length + 1] }) := by
  have ordered := fits.ordered running.ordered
  have key : d.key = p.key := congrArg KeyDelta.key fits.view
  have absent : ∀ e ∈ s.deltas, e.key ≠ p.key := key ▸ fits.fresh
  have unknown : ¬ Holds (runHistory old s).deltas p.key := by
    intro held
    obtain ⟨e,inside,same⟩ := (runViews_holds old s.deltas p.key).mp held
    exact absent e inside same
  have own : keyAt (insertDelta s.deltas (older.length + 1) d) (older.length + 1) = some p.key := by
    rw [fits.split,keyAt_insert_self,key]
  have renamed : ∀ k, symsAt (insertDelta s.deltas (older.length + 1) d) (before ++ behind) k =
      symsAt s.deltas s.symlist k := by
    intro k
    rw [← symbols,fits.split]
    exact symsAt_bump older newer d s.symlist k
  obtain ⟨_nonzero,_inside,k,target,keySelf,keyTarget,tagged⟩ :=
    realDelta_spec (insertDelta s.deltas (older.length + 1) d)
      (fun e => if e.remote then keyAt (insertDelta s.deltas (older.length + 1) d) else keyAt old)
      ordered.parents ordered.tagged (older.length + 1) (older.length + 1) (by omega)
      (by rw [fits.split,insertDelta_length,length_append]; omega) le_rfl
  rw [own] at keySelf
  cases keySelf
  refine ⟨?_,?_,?_,?_⟩
  · have placed := runViews_insert old older newer d (fits.split ▸ running.ordered.parents)
      (fun i e at_ remote => running.others i e
        (by rw [fits.split,getElem?_append_left (List.getElem?_eq_some_iff.mp at_).1,at_])
        remote)
      (fits.newer_local running) fits.remote fits.parents fits.others
    rw [← fits.split,fits.view] at placed
    ext v
    change v ∈ runViews old (insertDelta s.deltas (older.length + 1) d) ↔
      v ∈ runViews old s.deltas ∨ v = p.view ∧ ¬ Holds (runHistory old s).deltas p.key
    rw [placed,mem_append,mem_cons]
    nth_rewrite 3 [← take_append_drop older.length (runViews old s.deltas)]
    rw [mem_append]
    constructor
    · rintro (first | same | last)
      · exact .inl (.inl first)
      · exact .inr ⟨same,unknown⟩
      · exact .inl (.inr last)
    · rintro ((first | last) | ⟨same,_⟩)
      · exact .inl first
      · exact .inr (.inr last)
      · exact .inr (.inl same)
  · intro known
    exact absurd known unknown
  · intro k different
    change symsAt _ _ k = symsAt s.deltas s.symlist k
    rw [← renamed k,symsAt_append,symsAt_append,symsAt_append]
    rw [symsAt_absent _ (p.syms.map _) k,append_nil]
    intro sym member
    obtain ⟨val,_listed,rfl⟩ := mem_map.mp member
    rw [own]
    intro same
    exact different (Option.some.inj same).symm
  · intro _new
    refine ⟨target,tagged,?_⟩
    change symsAt _ _ p.key = _
    have none := renamed p.key
    rw [symsAt_absent s.deltas s.symlist p.key
      (fun sym _member => keyAt_ne_of_absent s.deltas p.key absent sym.metaSer), symsAt_append,
      append_eq_nil_iff] at none
    rw [symsAt_append,symsAt_append,none.1,none.2,symsAt_own _ _ _ _ _ own,keyTarget]
    simp

end NewDelta

section Step
variable {old : List (Delta K Q)} {s : Sccs K Q} {p : Incoming K Q}

private theorem reference_low (older newer : List (Delta K Q)) (known : Set (KeyDelta K Q))
    (viewed : ∀ v ∈ known, ∃ e ∈ older ++ newer, e.key = v.key ∧ e.rank = v.rank)
    (keys : ((older ++ newer).map (·.key)).Nodup) (high : ∀ e ∈ newer, p.rank < e.rank) (n : Nat)
    (inside : n ≤ (older ++ newer).length)
    (named : ∀ k, keyAt (older ++ newer) n = some k → ∃ v ∈ known, v.key = k ∧ v.rank < p.rank) :
    n ≤ older.length := by
  by_contra beyond
  obtain ⟨k,found⟩ := keyAt_isSome (older ++ newer) n (by omega) inside
  obtain ⟨v,member,same,before⟩ := named k found
  obtain ⟨e,listed,key,rank⟩ := viewed v member
  obtain ⟨i,at_⟩ := mem_iff_getElem?.mp listed
  have here : keyAt (older ++ newer) (i + 1) = some k := by rw [keyAt,at_,Option.map_some,key,same]
  have place := keyAt_inj _ keys n (i + 1) k found here
  rw [getElem?_append_right (by omega)] at at_
  have after := high e (mem_of_getElem? at_)
  rw [rank] at after
  exact lt_asymm before after

theorem Acceptable.below {known : Set (KeyDelta K Q)} (acceptable : Acceptable known p)
    (older newer : List (Delta K Q)) (d : Delta K Q)
    (viewed : ∀ v ∈ known, ∃ e ∈ older ++ newer, e.key = v.key ∧ e.rank = v.rank)
    (keys : ((older ++ newer).map (·.key)).Nodup) (high : ∀ e ∈ newer, p.rank < e.rank)
    (view : viewWith (keyAt (older ++ newer)) (keyAt (older ++ newer)) d = p.view)
    (parentInside : d.parent ≤ (older ++ newer).length)
    (mergeInside : d.merge ≤ (older ++ newer).length)
    (ptagInside : d.ptag ≤ (older ++ newer).length)
    (mtagInside : d.mtag ≤ (older ++ newer).length) :
    ParentsBelow older.length d ∧ OthersBelow older.length d := by
  have low : ∀ {n reference}, n ≤ (older ++ newer).length → keyAt (older ++ newer) n = reference →
      (∀ k, reference = some k → k ∈ p.references) → n ≤ older.length := by
    intro n reference inside same listed
    refine reference_low older newer known viewed keys high n inside fun k found => ?_
    exact acceptable.present k (listed k (same.symm.trans found))
  have parent : keyAt (older ++ newer) d.parent = p.parent := congrArg KeyDelta.parent view
  have merge : keyAt (older ++ newer) d.merge = p.merge := congrArg KeyDelta.merge view
  have ptag : keyAt (older ++ newer) d.ptag = p.ptag := congrArg KeyDelta.ptag view
  have mtag : keyAt (older ++ newer) d.mtag = p.mtag := congrArg KeyDelta.mtag view
  have cludes : d.cludes.map (fun c => (keyAt (older ++ newer) c.1, c.2)) =
      p.incs.map (fun k => (some k, true)) ++ p.excs.map (fun k => (some k, false)) :=
    congrArg KeyDelta.cludes view
  have named : ∀ c ∈ d.cludes, ∃ k ∈ p.references, keyAt (older ++ newer) c.1 = some k := by
    intro c member
    have image : (keyAt (older ++ newer) c.1, c.2) ∈
        p.incs.map (fun k => (some k, true)) ++ p.excs.map (fun k => (some k, false)) := by
      rw [← cludes]
      exact mem_map.mpr ⟨c,member,rfl⟩
    unfold Incoming.references
    rcases mem_append.mp image with inc | exc
    · obtain ⟨k,listed,same⟩ := mem_map.mp inc
      exact ⟨k,by simp [listed],(congrArg Prod.fst same).symm⟩
    · obtain ⟨k,listed,same⟩ := mem_map.mp exc
      exact ⟨k,by simp [listed],(congrArg Prod.fst same).symm⟩
  have zero : ∀ n, n ≤ (older ++ newer).length → keyAt (older ++ newer) n = none → n = 0 := by
    intro n inside missing
    by_contra nonzero
    obtain ⟨k,found⟩ := keyAt_isSome _ n nonzero inside
    rw [missing] at found
    cases found
  refine ⟨⟨?_,?_,?_⟩,⟨?_,?_,?_,?_,?_⟩⟩
  · exact low parentInside parent fun k found => by simp [Incoming.references,found]
  · exact low mergeInside merge fun k found => by simp [Incoming.references,found]
  · intro root
    apply zero _ mergeInside
    rw [merge]
    apply acceptable.mergeNeedsParent
    rw [← parent,root]
    rfl
  · exact low ptagInside ptag fun k found => by simp [Incoming.references,found]
  · exact low mtagInside mtag fun k found => by simp [Incoming.references,found]
  · intro c member
    obtain ⟨k,listed,found⟩ := named c member
    exact low (keyAt_bound _ _ k found).2 found fun k' same => Option.some.inj same ▸ listed
  · intro c member
    obtain ⟨k,_listed,found⟩ := named c member
    exact (keyAt_bound _ _ k found).1
  · intro root
    apply zero _ mtagInside
    rw [mtag]
    apply acceptable.mtagNeedsPtag
    rw [← ptag,root]
    rfl

theorem Running.again (running : Running old s) (e : Delta K Q) (i : Nat)
    (found : s.deltas[i]? = some e) (rank : e.rank = p.rank) (touched : TouchedBefore s p) :
    Running old { s with locs := s.locs ++ [i + 1] } := by
  have inside : i < s.deltas.length := (List.getElem?_eq_some_iff.mp found).1
  refine ⟨running.ordered,running.others,running.locals,?_,?_,?_⟩
  · rw [pairwise_append]
    refine ⟨running.locsSorted,by simp,?_⟩
    intro l member last same
    rw [mem_singleton] at same
    obtain ⟨nonzero,within⟩ := running.locsInside l member
    have place : s.deltas[l - 1]? = some (s.deltas.get ⟨l - 1,by omega⟩) :=
      getElem?_eq_getElem (by omega)
    have before := touched l member _ place
    by_contra later
    have order : i ≤ l - 1 := by omega
    rcases Nat.eq_or_lt_of_le order with equal | less
    · have again := touched l member e (by rw [← equal,found])
      rw [rank] at again
      exact lt_irrefl _ again
    · have sorted := pairwise_iff_getElem.mp running.ordered.sorted i (l - 1) inside (by omega) less
      rw [(List.getElem?_eq_some_iff.mp found).2,rank] at sorted
      exact lt_asymm sorted before
  · intro l member
    rcases mem_append.mp member with before | new
    · exact running.locsInside l before
    · rw [mem_singleton] at new
      change l ≠ 0 ∧ l ≤ s.deltas.length
      omega
  · intro j e' at_ remote
    exact mem_append_left _ (running.remoteLocs j e' at_ remote)

theorem TouchedBefore.snoc {deltas : List (Delta K Q)} {symlist : List Symbol} {locs : List Nat}
    {serial : Nat} (q : Incoming K Q) (before : p.rank < q.rank)
    (earlier : ∀ l ∈ locs, ∀ e, deltas[l - 1]? = some e → e.rank < p.rank)
    (self : ∀ e, deltas[serial - 1]? = some e → e.rank = p.rank) :
    TouchedBefore { deltas := deltas, symlist := symlist, locs := locs ++ [serial] } q := by
  intro l member e at_
  rcases mem_append.mp member with old | new
  · exact lt_trans (earlier l old e at_) before
  · rw [mem_singleton] at new
    rw [new] at at_
    rwa [self e at_]

theorem Acceptable.fits [DecidableEq K] (running : Running old s)
    (acceptable : Acceptable (runHistory old s).deltas p) (touched : TouchedBefore s p)
    (d : Delta K Q) (view : viewWith (keyAt s.deltas) (keyAt s.deltas) d = p.view)
    (remote : d.remote = true) (parentInside : d.parent ≤ s.deltas.length)
    (mergeInside : d.merge ≤ s.deltas.length) (ptagInside : d.ptag ≤ s.deltas.length)
    (mtagInside : d.mtag ≤ s.deltas.length) (absent : ∀ e ∈ s.deltas, e.key ≠ p.key) :
    ∃ older newer, insertionPoint d s.deltas.reverse = .ok (older.length + 1) ∧
      Fits s p older newer d := by
  have key : d.key = p.key := congrArg KeyDelta.key view
  have rank : d.rank = p.rank := congrArg KeyDelta.rank view
  have distinct : ∀ e ∈ s.deltas, e.rank ≠ d.rank := by
    intro e member same
    have viewed : viewWith (keyAt s.deltas) (if e.remote then keyAt s.deltas else keyAt old) e ∈
        (runHistory old s).deltas := mem_map.mpr ⟨e,member,rfl⟩
    exact absent e member ((acceptable.ranked _ viewed).mp (same.trans rank))
  obtain ⟨older,newer,split,found,low,high⟩ :=
    insertionPoint_spec d s.deltas running.ordered.sorted distinct
  have viewed : ∀ v ∈ (runHistory old s).deltas, ∃ e ∈ older ++ newer, e.key = v.key ∧
      e.rank = v.rank := by
    intro v member
    obtain ⟨e,inside,sameKey,sameRank,_⟩ := runViews_mem old s.deltas v member
    exact ⟨e,split ▸ inside,sameKey,sameRank⟩
  have below := acceptable.below older newer d viewed (split ▸ running.ordered.keys)
    (fun e member => rank ▸ high e member) (split ▸ view) (split ▸ parentInside)
    (split ▸ mergeInside) (split ▸ ptagInside) (split ▸ mtagInside)
  refine ⟨older,newer,found,split,low,high,key ▸ absent,view,remote,below.1,below.2,?_,?_⟩
  · intro meta_ root
    have parent : keyAt s.deltas d.parent = p.parent := congrArg KeyDelta.parent view
    have tag : d.tag = p.tag := congrArg KeyDelta.tag view
    rw [root] at parent
    exact acceptable.tagHasParent (tag ▸ meta_) parent.symm
  intro l member
  obtain ⟨_nonzero,within⟩ := running.locsInside l member
  by_contra beyond
  have place : s.deltas[l - 1]? = some (s.deltas.get ⟨l - 1,by omega⟩) :=
    getElem?_eq_getElem (by omega)
  have before := touched l member _ place
  generalize s.deltas.get ⟨l - 1,by omega⟩ = e at place before
  rw [split,getElem?_append_right (by omega)] at place
  have after := high e (mem_of_getElem? place)
  rw [rank] at after
  exact lt_asymm before after

theorem Fits.symlist {older newer : List (Delta K Q)} {d : Delta K Q} (fits : Fits s p older newer d)
    (ordered : Ordered s.deltas s.symlist) :
    (if older.length + 1 ≠ (insertDelta s.deltas (older.length + 1) d).length
      then bumpSymbols (older.length + 1) s.symlist else s.symlist) =
      bumpSymbols (older.length + 1) s.symlist := by
  split
  · rfl
  rename_i top
  rw [not_not,fits.split,insertDelta_length,← fits.split] at top
  symm
  apply bumpSymbols_low
  intro sym member
  have ser := ordered.symSer sym member
  have metaSer := ordered.symMeta sym member
  omega

theorem cset_insert_new [DecidableEq K] {d : Delta K Q} {serial : Nat} {symlist : List Symbol}
    (read : sccs_getInit s.deltas p = .ok d) (unknown : sccs_findKey s.deltas p.key = 0)
    (found : insertionPoint d s.deltas.reverse = .ok serial)
    (added : p.syms.foldlM (fun syms val => addsym (insertDelta s.deltas serial d) syms serial val)
      (if serial ≠ (insertDelta s.deltas serial d).length then bumpSymbols serial s.symlist
        else s.symlist) = .ok symlist) :
    cset_insert s p = .ok
      { deltas := insertDelta s.deltas serial d, symlist := symlist, locs := s.locs ++ [serial] } :=
  by
  unfold cset_insert
  rw [read]
  change (if sccs_findKey s.deltas p.key ≠ 0 then _ else _) = _
  rw [if_neg (not_not.mpr unknown),found]
  change (Except.bind (List.foldlM (m := Except Stop) _ _ p.syms) _) = _
  rw [added]
  rfl

theorem cset_insert_spec [DecidableEq K] (running : Running old s)
    (acceptable : Acceptable (runHistory old s).deltas p) (touched : TouchedBefore s p) :
    ∃ after, cset_insert s p = .ok after ∧ Running old after ∧
      Takes (runHistory old s) p (runHistory old after) ∧
      ∀ q : Incoming K Q, p.rank < q.rank → TouchedBefore after q := by
  have present : ∀ k ∈ p.references, ∃ e ∈ s.deltas, e.key = k := by
    intro k listed
    obtain ⟨v,member,same,_before⟩ := acceptable.present k listed
    obtain ⟨e,inside,key,_⟩ := runViews_mem old s.deltas v member
    exact ⟨e,inside,key.trans same⟩
  obtain ⟨d,read,view,remote,parentInside,mergeInside,ptagInside,mtagInside⟩ :=
    sccs_getInit_spec s.deltas p present
  by_cases known : sccs_findKey s.deltas p.key = 0
  · have absent := (sccs_findKey_zero s.deltas p.key).mp known
    obtain ⟨older,newer,found,fits⟩ := acceptable.fits running touched d view remote parentInside
      mergeInside ptagInside mtagInside absent
    have ordered := fits.ordered running.ordered
    obtain ⟨before,behind,symbols,low,high⟩ := symlist_split _ (older.length + 1) ordered.symSorted
    have top : older.length + 1 ≤ (insertDelta s.deltas (older.length + 1) d).length := by
      rw [fits.split,insertDelta_length,length_append]
      omega
    obtain ⟨realNonzero,realInside,_⟩ :=
      realDelta_spec (insertDelta s.deltas (older.length + 1) d) (fun _ => keyAt old)
        ordered.parents ordered.tagged (older.length + 1) (older.length + 1) (by omega) top
        le_rfl
    have added := addsyms_spec (insertDelta s.deltas (older.length + 1) d) (older.length + 1)
      realNonzero behind high p.syms before low
    refine ⟨_,?_,fits.running running _ ?_,fits.takes running before behind symbols,?_⟩
    · apply cset_insert_new read known found
      rwa [fits.symlist running.ordered,symbols]
    · rw [symbols] at ordered
      exact ordered.addsyms _ _ _ low high ⟨by omega,top⟩ ⟨realNonzero,realInside⟩
    intro q later
    apply TouchedBefore.snoc q later
    · intro l member e at_
      have inFront := fits.touched l member
      obtain ⟨nonzero,_⟩ := running.locsInside l member
      apply touched l member e
      rw [fits.split,insertDelta_append,getElem?_append_left (by omega)] at at_
      rw [fits.split,getElem?_append_left (by omega),at_]
    · intro e at_
      rw [fits.split,insertDelta_append,Nat.add_sub_cancel,getElem?_append_right (by omega),
        Nat.sub_self] at at_
      rw [← Option.some.inj at_]
      exact congrArg KeyDelta.rank view
  · have key := keyAt_findKey s.deltas p.key known
    obtain ⟨i,place⟩ := Nat.exists_eq_succ_of_ne_zero known
    rw [place,keyAt,Option.map_eq_some_iff] at key
    obtain ⟨e,at_,same⟩ := key
    have member : e ∈ s.deltas := mem_of_getElem? at_
    have viewed : viewWith (keyAt s.deltas) (if e.remote then keyAt s.deltas else keyAt old) e ∈
        (runHistory old s).deltas := mem_map.mpr ⟨e,member,rfl⟩
    have rank : e.rank = p.rank := (acceptable.ranked _ viewed).mpr same
    obtain ⟨sameParent,sameMerge⟩ := acceptable.lineage _ viewed same
    have inside : i < s.deltas.length := (List.getElem?_eq_some_iff.mp at_).1
    have below := running.ordered.parents i e at_
    have parent : e.parent = d.parent := by
      have parentLow := below.parent
      exact keyAt_inside_inj s.deltas running.ordered.keys _ _ (by omega) parentInside
        (sameParent.trans (congrArg KeyDelta.parent view).symm)
    have merge : e.merge = d.merge := by
      have mergeLow := below.merge
      exact keyAt_inside_inj s.deltas running.ordered.keys _ _ (by omega) mergeInside
        (sameMerge.trans (congrArg KeyDelta.merge view).symm)
    refine ⟨{ s with locs := s.locs ++ [i + 1] },?_,running.again e i at_ rank touched,?_,?_⟩
    · unfold cset_insert
      rw [read]
      change (if sccs_findKey s.deltas p.key ≠ 0 then _ else _) = _
      rw [if_pos known,place,Nat.succ_eq_add_one,Nat.add_sub_cancel]
      rw [at_]
      change (if e.parent ≠ d.parent ∨ e.merge ≠ d.merge then _ else _) = _
      rw [if_neg (by rw [parent,merge]; simp)]
      rfl
    · have held : Holds (runHistory old s).deltas p.key := ⟨_,viewed,same⟩
      refine ⟨?_,fun _ => rfl, fun _ _ => rfl, fun unknown => absurd held unknown⟩
      ext v
      constructor
      · exact .inl
      · intro learned
        exact learned.elim id (fun new => absurd held new.2)
    · intro q later
      apply TouchedBefore.snoc q later touched
      intro e' at'
      rw [Nat.add_sub_cancel,at_] at at'
      rw [← Option.some.inj at',rank]

end Step

end BitKeeper.CsetInsert
