import BitKeeper.CsetInsert.Insert

/-!
The references of an init block, and the symbols a delta of a patch brings: where they go and what
the insertion leaves of the older ones.
-/

namespace BitKeeper.CsetInsert

open List

variable {K Q : Type}

section Find
variable [DecidableEq K] (deltas : List (Delta K Q))

theorem sccs_findKey_zero (k : K) :
    sccs_findKey deltas k = 0 ↔ ∀ e ∈ deltas, e.key ≠ k := by
  unfold sccs_findKey
  cases found : deltas.findIdx? (fun d => d.key = k) with
  | none =>
    rw [findIdx?_eq_none_iff] at found
    simpa using found
  | some i =>
    rw [findIdx?_eq_some_iff_getElem] at found
    obtain ⟨inside,holds,_first⟩ := found
    simp only [Nat.add_eq_zero_iff,one_ne_zero,and_false,false_iff]
    intro absent
    exact absent _ (getElem_mem inside) (by simpa using holds)

theorem keyAt_findKey (k : K) (found : sccs_findKey deltas k ≠ 0) :
    keyAt deltas (sccs_findKey deltas k) = some k := by
  unfold sccs_findKey at found ⊢
  cases located : deltas.findIdx? (fun d => d.key = k) with
  | none =>
    rw [located] at found
    exact absurd rfl found
  | some i =>
    rw [findIdx?_eq_some_iff_getElem] at located
    obtain ⟨inside,holds,_first⟩ := located
    simp only [keyAt,getElem?_eq_getElem inside,Option.map_some]
    rw [of_decide_eq_true holds]

theorem reference_spec (key : Option K)
    (present : ∀ k ∈ key.toList, ∃ e ∈ deltas, e.key = k) :
    ∃ n, reference deltas key = .ok n ∧ keyAt deltas n = key ∧ n ≤ deltas.length := by
  cases key with
  | none => exact ⟨0,rfl,rfl,Nat.zero_le _⟩
  | some k =>
    have found : sccs_findKey deltas k ≠ 0 := by
      obtain ⟨e,member,same⟩ := present k (by simp)
      intro zero
      exact (sccs_findKey_zero deltas k).mp zero e member same
    have named := keyAt_findKey deltas k found
    exact ⟨sccs_findKey deltas k,if_neg found,named,(keyAt_bound deltas _ k named).2⟩

theorem references_spec (sign : Bool) (keys : List K)
    (present : ∀ k ∈ keys, ∃ e ∈ deltas, e.key = k) :
    ∃ cludes, references deltas sign keys = .ok cludes ∧
      cludes.map (fun c => (keyAt deltas c.1, c.2)) = keys.map (fun k => (some k, sign)) := by
  induction keys with
  | nil => exact ⟨[],rfl,rfl⟩
  | cons k rest ih =>
    obtain ⟨n,found,named,_inside⟩ :=
      reference_spec deltas (some k) (by simpa using present k (by simp))
    obtain ⟨cludes,resolved,mapped⟩ := ih (fun k member => present k (by simp [member]))
    refine ⟨(n, sign) :: cludes,?_,?_⟩
    · simp only [references,found,resolved]
      rfl
    · rw [map_cons,map_cons,mapped]
      rw [named]

theorem sccs_getInit_spec (p : Incoming K Q)
    (present : ∀ k ∈ p.references, ∃ e ∈ deltas, e.key = k) :
    ∃ d, sccs_getInit deltas p = .ok d ∧ viewWith (keyAt deltas) (keyAt deltas) d = p.view ∧
      d.remote = true ∧ d.parent ≤ deltas.length ∧ d.merge ≤ deltas.length ∧
      d.ptag ≤ deltas.length ∧ d.mtag ≤ deltas.length := by
  have part : ∀ keys : List K, (∀ k ∈ keys, k ∈ p.references) → ∀ k ∈ keys, ∃ e ∈ deltas, e.key = k :=
    fun keys included k member => present k (included k member)
  unfold Incoming.references at part
  obtain ⟨parent,readParent,parentKey,parentInside⟩ :=
    reference_spec deltas p.parent (part _ (by intro k member; simp [member]))
  obtain ⟨merge,readMerge,mergeKey,mergeInside⟩ :=
    reference_spec deltas p.merge (part _ (by intro k member; simp [member]))
  obtain ⟨ptag,readPtag,ptagKey,ptagInside⟩ :=
    reference_spec deltas p.ptag (part _ (by intro k member; simp [member]))
  obtain ⟨mtag,readMtag,mtagKey,mtagInside⟩ :=
    reference_spec deltas p.mtag (part _ (by intro k member; simp [member]))
  obtain ⟨incs,readIncs,incKeys⟩ :=
    references_spec deltas true p.incs (part _ (by intro k member; simp [member]))
  obtain ⟨excs,readExcs,excKeys⟩ :=
    references_spec deltas false p.excs (part _ (by intro k member; simp [member]))
  refine ⟨{ key := p.key, date := p.date, sortkey := p.sortkey, tag := p.tag, parent := parent
            merge := merge, ptag := ptag, mtag := mtag, cludes := incs ++ excs, remote := true },
    ?_,?_,rfl,parentInside,mergeInside,ptagInside,mtagInside⟩
  · simp only [sccs_getInit,readParent,readMerge,readPtag,readMtag,readIncs,readExcs]
    rfl
  · simp only [viewWith,Incoming.view,parentKey,mergeKey,ptagKey,mtagKey,map_append, incKeys,excKeys]

end Find

variable (deltas : List (Delta K Q))

theorem realDelta_spec (others : Delta K Q → Nat → Option K)
    (parents : ∀ i e, deltas[i]? = some e → ParentsBelow i e)
    (tagged : ∀ e ∈ deltas, e.tag = true → e.parent ≠ 0) (steps d : Nat) (nonzero : d ≠ 0)
    (inside : d ≤ deltas.length) (enough : d ≤ steps) :
    realDelta deltas steps d ≠ 0 ∧ realDelta deltas steps d ≤ deltas.length ∧
      ∃ k target, keyAt deltas d = some k ∧ keyAt deltas (realDelta deltas steps d) = some target ∧
        Tagged {v | v ∈ deltas.map (fun e => viewWith (keyAt deltas) (others e) e)} k target := by
  induction steps generalizing d with
  | zero => omega
  | succ steps ih =>
    have lookup : deltas[d - 1]? = some (deltas.get ⟨d - 1,by omega⟩) :=
      getElem?_eq_getElem (by omega)
    generalize deltas.get ⟨d - 1,by omega⟩ = e at lookup
    have member : e ∈ deltas := mem_of_getElem? lookup
    have viewed : viewWith (keyAt deltas) (others e) e ∈
        {v | v ∈ deltas.map (fun e => viewWith (keyAt deltas) (others e) e)} :=
      mem_map.mpr ⟨e,member,rfl⟩
    have key : keyAt deltas d = some e.key := by
      obtain ⟨n,rfl⟩ := Nat.exists_eq_succ_of_ne_zero nonzero
      rw [Nat.succ_sub_one] at lookup
      simp [keyAt,lookup]
    simp only [realDelta,lookup]
    by_cases meta_ : e.tag = true
    · rw [if_pos ⟨nonzero,meta_⟩]
      have below := (parents _ e lookup).parent
      have up := tagged e member meta_
      obtain ⟨realNonzero,realInside,k,target,keyParent,keyReal,rest⟩ :=
        ih e.parent up (by omega) (by omega)
      refine ⟨realNonzero,realInside,e.key,target,key,keyReal,?_⟩
      exact .above _ k target viewed meta_ keyParent rest
    · rw [if_neg (fun both => meta_ both.2)]
      refine ⟨nonzero,inside,e.key,e.key,key,key,?_⟩
      exact .real _ viewed (by simpa [viewWith] using meta_)

private theorem addsym_spec (before behind : List Symbol) (metad : Nat)
    (val : String) (real : realDelta deltas metad metad ≠ 0)
    (low : ∀ sym ∈ before, sym.metaSer ≤ metad) (high : ∀ sym ∈ behind, metad < sym.metaSer) :
    addsym deltas (before ++ behind) metad val =
      .ok ((before ++ [⟨val,realDelta deltas metad metad,metad⟩]) ++ behind) := by
  have stop : before.reverse.takeWhile (fun sym => decide (metad < sym.metaSer)) = [] := by
    rw [takeWhile_eq_nil_iff]
    intro nonempty later
    have small := low _ (mem_reverse.mp (get_mem _ ⟨0,nonempty⟩))
    exact absurd (of_decide_eq_true later) (by omega)
  have rest : before.reverse.dropWhile (fun sym => decide (metad < sym.metaSer)) = before.reverse :=
      by
    have whole := takeWhile_append_dropWhile (p := fun sym => decide (metad < sym.metaSer))
      (l := before.reverse)
    rwa [stop,nil_append] at whole
  have all : ∀ sym ∈ behind.reverse, decide (metad < sym.metaSer) = true :=
    fun sym member => decide_eq_true (high sym (mem_reverse.mp member))
  unfold addsym
  rw [if_neg real,reverse_append,takeWhile_append_of_pos all, dropWhile_append_of_pos all,stop,rest]
  simp

theorem addsyms_spec (metad : Nat)
    (real : realDelta deltas metad metad ≠ 0) (behind : List Symbol)
    (high : ∀ sym ∈ behind, metad < sym.metaSer) (vals : List String) (before : List Symbol)
    (low : ∀ sym ∈ before, sym.metaSer ≤ metad) :
    vals.foldlM (fun syms val => addsym deltas syms metad val) (before ++ behind) =
      .ok (before ++ vals.map (fun val => ⟨val,realDelta deltas metad metad,metad⟩) ++ behind) := by
  induction vals generalizing before with
  | nil => simp [pure,Except.pure]
  | cons val rest ih =>
    rw [foldlM_cons,addsym_spec deltas before behind metad val real low high]
    change List.foldlM _ _ rest = _
    rw [ih]
    · simp
    · intro sym member
      rcases mem_append.mp member with old | new
      · exact low sym old
      · rw [mem_singleton] at new
        rw [new]

theorem symlist_split (symlist : List Symbol) (serial : Nat)
    (sorted : symlist.Pairwise (fun a b => a.metaSer ≤ b.metaSer)) :
    ∃ before behind, symlist = before ++ behind ∧ (∀ sym ∈ before, sym.metaSer ≤ serial) ∧
      ∀ sym ∈ behind, serial < sym.metaSer := by
  induction symlist with
  | nil => exact ⟨[],[],rfl,by simp,by simp⟩
  | cons sym rest ih =>
    rw [pairwise_cons] at sorted
    by_cases low : sym.metaSer ≤ serial
    · obtain ⟨before,behind,split,lows,highs⟩ := ih sorted.2
      exact ⟨sym :: before,behind,by rw [split,cons_append],forall_mem_cons.mpr ⟨low,lows⟩,highs⟩
    refine ⟨[],sym :: rest,rfl,by simp,?_⟩
    intro other member
    rcases mem_cons.mp member with same | later
    · rw [same]
      omega
    · have more := sorted.1 other later
      omega

def symsAt [DecidableEq K] (deltas : List (Delta K Q)) (symlist : List Symbol) (k : K) :
    List (String × Option K) :=
  (symlist.filter (fun sym => keyAt deltas sym.metaSer = some k)).map
    (fun sym => (sym.name, keyAt deltas sym.ser))

theorem symsAt_append [DecidableEq K] (left right : List Symbol) (k : K) :
    symsAt deltas (left ++ right) k = symsAt deltas left k ++ symsAt deltas right k := by
  simp [symsAt]

theorem symsAt_absent [DecidableEq K] (symlist : List Symbol) (k : K)
    (absent : ∀ sym ∈ symlist, keyAt deltas sym.metaSer ≠ some k) : symsAt deltas symlist k = [] := by
  unfold symsAt
  rw [filter_eq_nil_iff.mpr,map_nil]
  intro sym member holds
  exact absent sym member (of_decide_eq_true holds)

theorem symsAt_own [DecidableEq K] (vals : List String)
    (ser metad : Nat) (k : K) (named : keyAt deltas metad = some k) :
    symsAt deltas (vals.map (fun val => ⟨val,ser,metad⟩)) k =
      vals.map (fun val => (val, keyAt deltas ser)) := by
  unfold symsAt
  rw [filter_eq_self.mpr]
  · rw [map_map]
    rfl
  · intro sym member
    obtain ⟨val,_listed,rfl⟩ := mem_map.mp member
    exact decide_eq_true named

theorem symsAt_bump [DecidableEq K] (older newer : List (Delta K Q)) (d : Delta K Q)
    (symlist : List Symbol) (k : K) :
    symsAt (insertDelta (older ++ newer) (older.length + 1) d)
        (bumpSymbols (older.length + 1) symlist) k = symsAt (older ++ newer) symlist k := by
  unfold symsAt bumpSymbols
  rw [filter_map,map_map]
  simp only [Function.comp_def,keyAt_insert_bump]

end BitKeeper.CsetInsert
