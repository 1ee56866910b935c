import BitKeeper.CsetInsert.Fix

/-!
Whole patches.  A well-formed table and the history it stands for determine
each other, so what a run of patches leaves behind is decided by the set of
deltas taken.
-/

namespace BitKeeper.CsetInsert

open List

variable {K Q : Type} [LinearOrder Q]

structure WellFormed (s : Sccs K Q) : Prop where
  ordered : Ordered s.deltas s.symlist
  others : ∀ i e, s.deltas[i]? = some e → OthersBelow i e
  plain : ∀ e ∈ s.deltas, e.remote = false
  locs : s.locs = []

def history [DecidableEq K] (s : Sccs K Q) : History K Q :=
  { deltas := {v | v ∈ views s.deltas}, syms := symsAt s.deltas s.symlist }

variable {s : Sccs K Q}

theorem WellFormed.views_sorted (wellFormed : WellFormed s) :
    (views s.deltas).Pairwise (fun a b => a.rank < b.rank) := by
  unfold views
  rw [pairwise_map]
  exact wellFormed.ordered.sorted

omit [LinearOrder Q] in
theorem views_keys (deltas : List (Delta K Q)) :
    (views deltas).map (·.key) = deltas.map (·.key) := by
  unfold views
  rw [map_map]
  rfl

private theorem sorted_ext {left right : List (KeyDelta K Q)}
    (sortedLeft : left.Pairwise (fun a b => a.rank < b.rank))
    (sortedRight : right.Pairwise (fun a b => a.rank < b.rank))
    (same : ∀ v, v ∈ left ↔ v ∈ right) : left = right := by
  have nodup : ∀ l : List (KeyDelta K Q), l.Pairwise (fun a b => a.rank < b.rank) → l.Nodup := by
    intro l sorted
    apply sorted.imp
    intro a b less equal
    rw [equal] at less
    exact lt_irrefl _ less
  have perm := (perm_ext_iff_of_nodup (nodup left sortedLeft) (nodup right sortedRight)).mpr same
  exact perm.eq_of_pairwise (fun a b _ _ less more => absurd less (lt_asymm more)) sortedLeft
    sortedRight

theorem map_inj_on {α β : Type} (f : α → β) (left right : List α)
    (inj : ∀ a ∈ left, ∀ b ∈ right, f a = f b → a = b) (same : left.map f = right.map f) :
    left = right := by
  induction left generalizing right with
  | nil =>
    rw [map_nil] at same
    exact (map_eq_nil_iff.mp same.symm).symm
  | cons a left ih =>
    cases right with
    | nil => cases same
    | cons b right =>
      rw [map_cons,map_cons,List.cons.injEq] at same
      rw [inj a (by simp) b (by simp) same.1]
      rw [ih right (fun x inLeft y inRight => inj x (by simp [inLeft]) y (by simp [inRight])) same.2]

omit [LinearOrder Q] in
private theorem viewWith_inj {deltas : List (Delta K Q)} (keys : (deltas.map (·.key)).Nodup)
    (i : Nat) (inside : i ≤ deltas.length) (d e : Delta K Q) (parentsD : ParentsBelow i d)
    (parentsE : ParentsBelow i e) (othersD : OthersBelow i d) (othersE : OthersBelow i e)
    (remote : d.remote = e.remote)
    (same : viewWith (keyAt deltas) (keyAt deltas) d = viewWith (keyAt deltas) (keyAt deltas) e) :
    d = e := by
  have serial : ∀ m n, m ≤ i → n ≤ i → keyAt deltas m = keyAt deltas n → m = n :=
    fun m n boundM boundN equal => keyAt_inside_inj deltas keys m n (by omega) (by omega) equal
  have key : d.key = e.key := congrArg KeyDelta.key same
  have date : d.date = e.date := congrArg KeyDelta.date same
  have sortkey : d.sortkey = e.sortkey := congrArg KeyDelta.sortkey same
  have tag : d.tag = e.tag := congrArg KeyDelta.tag same
  have parent := serial _ _ parentsD.parent parentsE.parent (congrArg KeyDelta.parent same)
  have merge := serial _ _ parentsD.merge parentsE.merge (congrArg KeyDelta.merge same)
  have ptag := serial _ _ othersD.ptag othersE.ptag (congrArg KeyDelta.ptag same)
  have mtag := serial _ _ othersD.mtag othersE.mtag (congrArg KeyDelta.mtag same)
  have cludes : d.cludes = e.cludes := by
    apply map_inj_on (fun c : Nat × Bool => (keyAt deltas c.1, c.2)) _ _ _
      (congrArg KeyDelta.cludes same)
    intro a inD b inE equal
    have first := serial _ _ (othersD.cludes a inD) (othersE.cludes b inE) (congrArg Prod.fst equal)
    exact Prod.ext first (Prod.mk.inj equal).2
  cases d
  cases e
  simp only at key date sortkey tag parent merge ptag mtag cludes remote
  subst key date sortkey tag parent merge ptag mtag cludes remote
  rfl

variable {t : Sccs K Q}

theorem WellFormed.deltas_eq (wellS : WellFormed s) (wellT : WellFormed t)
    (same : views s.deltas = views t.deltas) : s.deltas = t.deltas := by
  have keys : s.deltas.map (·.key) = t.deltas.map (·.key) := by rw [← views_keys,← views_keys,same]
  have lookup := keyAt_congr s.deltas t.deltas keys
  have lengths := congrArg List.length keys
  rw [length_map,length_map] at lengths
  apply ext_getElem lengths
  intro i insideS insideT
  have atS := getElem?_eq_getElem insideS
  have atT := getElem?_eq_getElem insideT
  have point := congrArg (fun l => l[i]?) same
  unfold views at point
  simp only [getElem?_map,atS,atT,Option.map_some,Option.some.injEq,lookup] at point
  exact viewWith_inj wellT.ordered.keys i (by omega) _ _ (wellS.ordered.parents i _ atS)
    (wellT.ordered.parents i _ atT) (wellS.others i _ atS) (wellT.others i _ atT)
    ((wellS.plain _ (getElem_mem insideS)).trans (wellT.plain _ (getElem_mem insideT)).symm)
    point

private theorem symlist_ext (left right : List Symbol)
    (sortedLeft : left.Pairwise (fun a b => a.metaSer ≤ b.metaSer))
    (sortedRight : right.Pairwise (fun a b => a.metaSer ≤ b.metaSer))
    (same : ∀ n,
      left.filter (fun sym => sym.metaSer = n) = right.filter (fun sym => sym.metaSer = n)) :
    left = right := by
  have mem : ∀ sym, sym ∈ left ↔ sym ∈ right := by
    intro sym
    have fiber := congrArg (fun l => sym ∈ l) (same sym.metaSer)
    simpa using fiber
  induction left generalizing right with
  | nil =>
    cases right with
    | nil => rfl
    | cons b right => exact absurd ((mem b).mpr (by simp)) (by simp)
  | cons a left ih =>
    cases right with
    | nil => exact absurd ((mem a).mp (by simp)) (by simp)
    | cons b right =>
      rw [pairwise_cons] at sortedLeft sortedRight
      have low : a.metaSer ≤ b.metaSer := by
        rcases mem_cons.mp ((mem b).mpr (by simp)) with equal | later
        · rw [equal]
        · exact sortedLeft.1 b later
      have high : b.metaSer ≤ a.metaSer := by
        rcases mem_cons.mp ((mem a).mp (by simp)) with equal | later
        · rw [equal]
        · exact sortedRight.1 a later
      have level : a.metaSer = b.metaSer := Nat.le_antisymm low high
      have head : a = b := by
        have fiber := same a.metaSer
        rw [filter_cons_of_pos (by simp),filter_cons_of_pos (by simp [level])] at fiber
        exact (List.cons.inj fiber).1
      subst head
      have tails : ∀ n, left.filter (fun sym => sym.metaSer = n) =
          right.filter (fun sym => sym.metaSer = n) := by
        intro n
        have fiber := same n
        by_cases here : a.metaSer = n
        · rw [filter_cons_of_pos (by simp [here]), filter_cons_of_pos (by simp [here])] at fiber
          exact (List.cons.inj fiber).2
        · rwa [filter_cons_of_neg (by simp [here]), filter_cons_of_neg (by simp [here])] at fiber
      rw [ih right sortedLeft.2 sortedRight.2 tails]
      intro sym
      have fiber := congrArg (fun l => sym ∈ l) (tails sym.metaSer)
      simpa using fiber

theorem WellFormed.symlist_eq [DecidableEq K] (wellS : WellFormed s) (wellT : WellFormed t)
    (deltas : s.deltas = t.deltas)
    (syms : ∀ k, symsAt s.deltas s.symlist k = symsAt t.deltas t.symlist k) :
    s.symlist = t.symlist := by
  have orderedS := wellS.ordered
  have orderedT := wellT.ordered
  rw [← deltas] at orderedT syms
  apply symlist_ext _ _ orderedS.symSorted orderedT.symSorted
  intro n
  by_cases inside : n ≠ 0 ∧ n ≤ s.deltas.length
  · obtain ⟨k,named⟩ := keyAt_isSome s.deltas n inside.1 inside.2
    have fiber : ∀ symlist : List Symbol,
        symlist.filter (fun sym => decide (keyAt s.deltas sym.metaSer = some k)) =
          symlist.filter (fun sym => decide (sym.metaSer = n)) := by
      intro symlist
      apply filter_congr
      intro sym _member
      apply decide_eq_decide.mpr
      constructor
      · intro found
        exact keyAt_inj s.deltas orderedS.keys _ _ k found named
      · intro equal
        rw [equal,named]
    have mapped := syms k
    unfold symsAt at mapped
    rw [fiber,fiber] at mapped
    apply map_inj_on _ _ _ _ mapped
    intro a inS b inT equal
    rw [mem_filter] at inS inT
    have name : a.name = b.name := congrArg Prod.fst equal
    have ser : a.ser = b.ser := keyAt_inside_inj s.deltas orderedS.keys _ _
      (orderedS.symSer a inS.1).2
        (orderedT.symSer b inT.1).2 (congrArg Prod.snd equal)
    have metaSer : a.metaSer = b.metaSer :=
      (of_decide_eq_true inS.2).trans (of_decide_eq_true inT.2).symm
    cases a
    cases b
    simp only at name ser metaSer
    subst name ser metaSer
    rfl
  · rw [filter_eq_nil_iff.mpr,filter_eq_nil_iff.mpr]
    · intro sym member equal
      rw [← of_decide_eq_true equal] at inside
      exact inside (orderedT.symMeta sym member)
    · intro sym member equal
      rw [← of_decide_eq_true equal] at inside
      exact inside (orderedS.symMeta sym member)

theorem WellFormed.history_inj [DecidableEq K] (wellS : WellFormed s) (wellT : WellFormed t)
    (same : history s = history t) : s = t := by
  have views : ∀ v, v ∈ views s.deltas ↔ v ∈ views t.deltas := by
    intro v
    have member := congrArg (fun h : History K Q => v ∈ h.deltas) same
    exact member.to_iff
  have deltas := wellS.deltas_eq wellT (sorted_ext wellS.views_sorted wellT.views_sorted views)
  have symlist := wellS.symlist_eq wellT deltas
    (fun k => congrArg (fun h : History K Q => h.syms k) same)
  have locs := wellS.locs.trans wellT.locs.symm
  cases s
  cases t
  simp only at deltas symlist locs
  subst deltas symlist locs
  rfl

section OnePatch
variable [DecidableEq K]

omit [DecidableEq K] in
theorem WellFormed.running (wellFormed : WellFormed s) : Running s.deltas s := by
  have remote : ∀ (i : Nat) (e : Delta K Q), s.deltas[i]? = some e → e.remote ≠ true := by
    intro i e at_
    rw [wellFormed.plain e (mem_of_getElem? at_)]
    exact Bool.false_ne_true
  refine ⟨wellFormed.ordered,fun i e at_ flag => absurd flag (remote i e at_), ?_,?_,?_,
    fun i e at_ flag => absurd flag (remote i e at_)⟩
  · rw [filter_eq_self.mpr (fun e member => by simp [wellFormed.plain e member])]
  · rw [wellFormed.locs]
    exact List.Pairwise.nil
  · rw [wellFormed.locs]
    intro l member
    cases member

theorem WellFormed.runHistory_eq (wellFormed : WellFormed s) : runHistory s.deltas s = history s := by
  have same : runViews s.deltas s.deltas = views s.deltas := by
    apply map_congr_left
    intro e member
    rw [wellFormed.plain e member]
    rfl
  unfold runHistory history
  rw [same]

theorem cset_inserts_spec {old : List (Delta K Q)} (ps : List (Incoming K Q)) (s : Sccs K Q)
    (running : Running old s) (acceptable : AcceptablePatch (runHistory old s).deltas ps)
    (touched : ∀ p ∈ ps, TouchedBefore s p) :
    ∃ after, ps.foldlM cset_insert s = .ok after ∧ Running old after ∧
      Run (runHistory old s) ps (runHistory old after) := by
  induction ps generalizing s with
  | nil => exact ⟨s,rfl,running,.nil _⟩
  | cons p rest ih =>
    obtain ⟨first,increasing,later⟩ := acceptable
    obtain ⟨middle,inserted,runningMiddle,takes,touchedMiddle⟩ :=
      cset_insert_spec running first (touched p (by simp))
    rw [← takes.deltas] at later
    obtain ⟨after,finished,runningAfter,run⟩ := ih middle runningMiddle later
      (fun q member => touchedMiddle q (increasing q member))
    refine ⟨after,?_,runningAfter,.cons _ _ _ p rest takes run⟩
    rwa [foldlM_cons,inserted]

omit [DecidableEq K] [LinearOrder Q] in
theorem written_firm (s : Sccs K Q) : (written s).deltas.map Delta.firm = s.deltas.map Delta.firm :=
  by
  unfold written
  rw [map_map]
  rfl

omit [DecidableEq K] [LinearOrder Q] in
private theorem views_written (s : Sccs K Q) : views (written s).deltas = views s.deltas := by
  rw [views_of_keys (keys_of_firm (written_firm s))]
  unfold written
  rw [map_map]
  rfl

theorem applyPatch_spec (s : Sccs K Q) (wellFormed : WellFormed s) (ps : List (Incoming K Q))
    (acceptable : AcceptablePatch (history s).deltas ps) :
    ∃ after, applyPatch s ps = .ok after ∧ WellFormed after ∧ Run (history s) ps (history after) := by
  have untouched : ∀ p ∈ ps, TouchedBefore s p := by
    intro p _member l member
    rw [wellFormed.locs] at member
    cases member
  rw [← wellFormed.runHistory_eq] at acceptable
  obtain ⟨inserted,finished,running,run⟩ :=
    cset_inserts_spec ps s wellFormed.running acceptable untouched
  obtain ⟨viewed,below⟩ := running.fix_spec wellFormed.others
  have firm : (written (fix inserted)).deltas.map Delta.firm = inserted.deltas.map Delta.firm :=
    (written_firm _).trans (fix_firm inserted)
  have symlist : (written (fix inserted)).symlist = inserted.symlist := by
    unfold written fix
    split <;> rfl
  have same : history (written (fix inserted)) = runHistory s.deltas inserted := by
    unfold history runHistory
    rw [views_written,viewed,symlist]
    unfold symsAt
    rw [keyAt_congr _ _ (keys_of_firm firm)]
  refine ⟨written (fix inserted),?_,⟨?_,?_,?_,rfl⟩,?_⟩
  · unfold applyPatch
    rw [finished]
    rfl
  · rw [symlist]
    exact running.ordered.of_firm firm
  · intro i e at_
    unfold written at at_
    rw [getElem?_map,Option.map_eq_some_iff] at at_
    obtain ⟨before,place,rfl⟩ := at_
    have old := below i before place
    exact ⟨old.ptag,old.mtag,old.cludes,old.cludesReal,old.mtagNeedsPtag⟩
  · intro e member
    obtain ⟨before,_listed,rfl⟩ := mem_map.mp member
    rfl
  · rwa [same,← wellFormed.runHistory_eq]

theorem applyPatches_spec (batches : List (List (Incoming K Q))) (s : Sccs K Q)
    (wellFormed : WellFormed s) (acceptable : AcceptablePatches (history s).deltas batches) :
    ∃ after, batches.foldlM applyPatch s = .ok after ∧ WellFormed after ∧
      Run (history s) batches.flatten (history after) := by
  induction batches generalizing s with
  | nil => exact ⟨s,rfl,wellFormed,.nil _⟩
  | cons ps rest ih =>
    obtain ⟨first,later⟩ := acceptable
    obtain ⟨middle,applied,wellMiddle,run⟩ := applyPatch_spec s wellFormed ps first
    rw [← run.deltas] at later
    obtain ⟨after,finished,wellAfter,runLater⟩ := ih middle wellMiddle later
    refine ⟨after,?_,wellAfter,run.append runLater⟩
    rwa [foldlM_cons,applied]

theorem WellFormed.keysUnique (wellFormed : WellFormed s) : KeysUnique (history s).deltas := by
  intro v inV w inW same
  have distinct : ((views s.deltas).map (·.key)).Nodup := by
    rw [views_keys]
    exact wellFormed.ordered.keys
  exact inj_on_of_nodup_map distinct inV inW same

end OnePatch

def branchTable : Sccs Nat Nat :=
  { deltas :=
      [{ key := 1, date := 1, sortkey := 0, tag := false, parent := 0, merge := 0, ptag := 0
         mtag := 0, cludes := [], remote := false },
       { key := 3, date := 3, sortkey := 0, tag := false, parent := 1, merge := 0, ptag := 1
         mtag := 0, cludes := [(1, false)], remote := false },
       { key := 5, date := 5, sortkey := 0, tag := false, parent := 1, merge := 0, ptag := 0
         mtag := 0, cludes := [(2, true)], remote := false }]
    symlist := [{ name := "v1", ser := 1, metaSer := 2 }]
    locs := [] }

def branchDelta : Incoming Nat Nat :=
  { key := 2, date := 2, sortkey := 0, tag := false, parent := some 1, merge := none, ptag := none
    mtag := none, incs := [], excs := [], syms := [] }

def branchTag : Incoming Nat Nat :=
  { key := 4, date := 4, sortkey := 0, tag := true, parent := some 2, merge := none, ptag := some 3
    mtag := none, incs := [], excs := [], syms := ["r1"] }

theorem branchTable_wellFormed : WellFormed branchTable := by
  refine ⟨⟨?_,by decide,?_,by decide,by decide,by decide,by decide⟩,?_,by decide,rfl⟩
  · refine pairwise_cons.mpr ⟨fun d later => Prod.Lex.toLex_lt_toLex.mpr (.inl ?_),
      pairwise_pair.mpr (Prod.Lex.toLex_lt_toLex.mpr (.inl (by decide)))⟩
    revert d
    decide
  · intro i e at_
    rcases i with _ | _ | _ | i <;> cases at_
    all_goals exact ⟨by decide,by decide,by decide⟩
  · intro i e at_
    rcases i with _ | _ | _ | i <;> cases at_
    all_goals exact ⟨by decide,by decide,by decide,by decide,by decide⟩

theorem branchDelta_acceptable : Acceptable (history branchTable).deltas branchDelta := by
  refine ⟨?_,?_,?_,by decide,by decide,by decide⟩
  · intro k listed
    rw [show k = 1 from mem_singleton.mp listed]
    exact ⟨_,mem_cons_self,rfl,Prod.Lex.toLex_lt_toLex.mpr (.inl (by decide))⟩
  · change ∀ v ∈ views branchTable.deltas, _
    decide
  · change ∀ v ∈ views branchTable.deltas, _
    decide

theorem branchTag_acceptable :
    Acceptable (learn (history branchTable).deltas branchDelta) branchTag := by
  refine ⟨?_,?_,?_,by decide,by decide,by decide⟩
  · intro k listed
    have either : k = 2 ∨ k = 3 := by simpa [Incoming.references,branchTag] using listed
    rcases either with rfl | rfl
    · refine ⟨branchDelta.view,.inr ⟨rfl,?_⟩,rfl,Prod.Lex.toLex_lt_toLex.mpr (.inl (by decide))⟩
      change ¬ ∃ v ∈ views branchTable.deltas, _
      decide
    · exact ⟨_,.inl (mem_cons_of_mem _ mem_cons_self),rfl,
        Prod.Lex.toLex_lt_toLex.mpr (.inl (by decide))⟩
  · rintro v (old | ⟨rfl,_⟩)
    · revert v
      change ∀ v ∈ views branchTable.deltas, _
      decide
    · decide
  · rintro v (old | ⟨rfl,_⟩)
    · revert v
      change ∀ v ∈ views branchTable.deltas, _
      decide
    · decide

/-- Taking patches keeps the table sorted, each delta once and every reference on its delta; the
deltas alone decide the table. -/
theorem takepatch_table [DecidableEq K] (s : Sccs K Q) (wellFormed : WellFormed s)
    (batches : List (List (Incoming K Q)))
    (acceptable : AcceptablePatches (history s).deltas batches) (named : KeysName batches.flatten) :
    ∃ after, batches.foldlM applyPatch s = .ok after ∧ WellFormed after ∧
      Grown (history s) batches.flatten (history after) ∧
      ∀ rebatched, AcceptablePatches (history s).deltas rebatched →
        (∀ p, p ∈ rebatched.flatten ↔ p ∈ batches.flatten) →
        rebatched.foldlM applyPatch s = .ok after := by
  obtain ⟨after,applied,wellAfter,run⟩ := applyPatches_spec batches s wellFormed acceptable
  have grown := run.grown named
  refine ⟨after,applied,wellAfter,grown,?_⟩
  intro rebatched acceptableAgain same
  obtain ⟨other,appliedAgain,wellOther,runAgain⟩ :=
    applyPatches_spec rebatched s wellFormed acceptableAgain
  have namedAgain : KeysName rebatched.flatten :=
    fun p inP q inQ equal => named p ((same p).mp inP) q ((same q).mp inQ) equal
  have histories := (runAgain.grown namedAgain).unique grown same wellOther.keysUnique
  rw [appliedAgain,wellOther.history_inj wellAfter histories]

/-- The include of the local delta 5 moves from serial 2 to serial 3. -/
theorem takepatch_table_branch :
    ∃ after, [[branchDelta],[branchTag]].foldlM applyPatch branchTable = .ok after ∧
      after.deltas.map Delta.cludes = [[],[],[(1, false)],[],[(3, true)]] ∧
      [[branchDelta,branchTag]].foldlM applyPatch branchTable = .ok after := by
  have apart : AcceptablePatches (history branchTable).deltas [[branchDelta],[branchTag]] :=
    ⟨⟨branchDelta_acceptable,by simp,trivial⟩,⟨branchTag_acceptable,by simp,trivial⟩,trivial⟩
  have together : AcceptablePatches (history branchTable).deltas [[branchDelta,branchTag]] := by
    refine ⟨⟨branchDelta_acceptable,?_,branchTag_acceptable,by simp,trivial⟩,trivial⟩
    intro q member
    rw [mem_singleton.mp member]
    exact Prod.Lex.toLex_lt_toLex.mpr (.inl (by decide))
  have named : KeysName [[branchDelta],[branchTag]].flatten := fun _ inP _ inQ same =>
    inj_on_of_nodup_map (f := Incoming.key) (by decide) inP inQ same
  obtain ⟨after,applied,_wellFormed,_grown,again⟩ :=
    takepatch_table branchTable branchTable_wellFormed _ apart named
  have moved : ([[branchDelta],[branchTag]].foldlM applyPatch branchTable).map
      (fun s => s.deltas.map Delta.cludes) = .ok [[],[],[(1, false)],[],[(3, true)]] := by rfl
  rw [applied] at moved
  exact ⟨after,applied,Except.ok.inj moved,again _ together (by simp)⟩

end BitKeeper.CsetInsert
