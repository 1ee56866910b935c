import BitKeeper.CsetInsert.Step

/-!
`fix`: the tag parents and include lists of local deltas move to the new numbering. A delta only
needs the part of the map that belongs to older local deltas.
-/

namespace BitKeeper.CsetInsert

open List hiding getElem?_eq_some_iff

variable {K Q : Type}

/-- `remap` covers the serials up to `base + remap.length`, with values before `d`. -/
structure Remap (deltas old : List (Delta K Q)) (base d : Nat) (remap : List Nat) : Prop where
  known : ∀ n, n ≤ base + remap.length → keyAt deltas (sermap base remap n) = keyAt old n
  small : ∀ n, n ≤ base + remap.length → sermap base remap n < d

theorem sermap_push (base d : Nat) (remap : List Nat) (n : Nat) (covered : n ≤ base + remap.length) :
    sermap base (remap ++ [d]) n = sermap base remap n := by
  unfold sermap
  split
  · rw [getD_append _ _ _ _ (by omega)]
  · rfl

private theorem sermap_last (base d : Nat) (remap : List Nat) :
    sermap base (remap ++ [d]) (base + remap.length + 1) = d := by
  unfold sermap
  rw [if_pos (by omega),show base + remap.length + 1 - base - 1 = remap.length by omega]
  simp

theorem Remap.start (deltas old : List (Delta K Q)) (base : Nat)
    (same : ∀ n, n ≤ base → keyAt deltas n = keyAt old n) :
    Remap deltas old base (base + 2) [] := by
  have plain : ∀ n, n ≤ base + ([] : List Nat).length → sermap base [] n = n ∧ n ≤ base := by
    intro n covered
    rw [length_nil,Nat.add_zero] at covered
    unfold sermap
    rw [if_neg (by omega)]
    exact ⟨rfl,covered⟩
  constructor
  · intro n covered
    rw [(plain n covered).1]
    exact same n (plain n covered).2
  · intro n covered
    have bound := plain n covered
    omega

variable {old : List (Delta K Q)}

theorem Remap.skip {deltas : List (Delta K Q)} {base d : Nat} {remap : List Nat}
    (map : Remap deltas old base d remap) : Remap deltas old base (d + 1) remap :=
  ⟨map.known,fun n covered => Nat.lt_succ_of_lt (map.small n covered)⟩

theorem Remap.push {deltas : List (Delta K Q)} {base d : Nat} {remap : List Nat}
    (map : Remap deltas old base d remap)
    (same : keyAt deltas d = keyAt old (base + remap.length + 1)) :
    Remap deltas old base (d + 1) (remap ++ [d]) := by
  have cases : ∀ n, n ≤ base + (remap ++ [d]).length →
      n ≤ base + remap.length ∨ n = base + remap.length + 1 := by
    intro n covered
    rw [length_append,length_singleton] at covered
    omega
  constructor
  · intro n covered
    rcases cases n covered with before | last
    · rw [sermap_push base d remap n before,map.known n before]
    · rw [last,sermap_last,same]
  · intro n covered
    rcases cases n covered with before | last
    · rw [sermap_push base d remap n before]
      exact Nat.lt_succ_of_lt (map.small n before)
    · rw [last,sermap_last]
      exact Nat.lt_succ_self d

theorem viewWith_others (parents others others' : Nat → Option K) (bound : Nat) (d : Delta K Q)
    (below : OthersBelow bound d) (same : ∀ n, n ≤ bound → others n = others' n) :
    viewWith parents others d = viewWith parents others' d := by
  apply viewWith_congr <;> try rfl
  · exact same _ below.ptag
  · exact same _ below.mtag
  · apply map_congr_left
    intro c member
    rw [same _ (below.cludes c member)]

section OneDelta
variable {deltas old : List (Delta K Q)} {base d : Nat} {remap : List Nat}

theorem fixDelta_push (delta : Delta K Q) (below : OthersBelow (base + remap.length) delta) :
    fixDelta base (remap ++ [d]) delta = fixDelta base remap delta := by
  have push := sermap_push base d remap
  unfold fixDelta
  rw [push _ below.ptag,push _ below.mtag]
  congr 1
  apply map_congr_left
  intro c member
  rw [push _ (below.cludes c member)]

private theorem sermap_zero (base : Nat) (remap : List Nat) : sermap base remap 0 = 0 := by
  unfold sermap
  rw [if_neg (by omega)]

theorem fixDelta_mtag (delta : Delta K Q) (shape : delta.ptag = 0 → delta.mtag = 0) :
    (fixDelta base remap delta).mtag = sermap base remap delta.mtag := by
  change (if delta.ptag = 0 then delta.mtag else sermap base remap delta.mtag) = _
  split
  · rename_i none
    rw [shape none,sermap_zero]
  · rfl

variable (map : Remap deltas old base d remap)
include map

theorem Remap.fixDelta_view (delta : Delta K Q) (below : OthersBelow (base + remap.length) delta) :
    viewWith (keyAt deltas) (keyAt deltas) (fixDelta base remap delta) =
      viewWith (keyAt deltas) (keyAt old) delta := by
  apply viewWith_congr <;> try rfl
  · exact map.known _ below.ptag
  · rw [fixDelta_mtag delta below.mtagNeedsPtag]
    exact map.known _ below.mtag
  change (delta.cludes.map (fun c => (sermap base remap c.1, c.2))).map _ = _
  rw [map_map]
  apply map_congr_left
  intro c member
  change (keyAt deltas (sermap base remap c.1), c.2) = _
  rw [map.known _ (below.cludes c member)]

theorem Remap.sermap_ne_zero (n : Nat)
    (covered : n ≤ base + remap.length) (inside : n ≤ old.length) (nonzero : n ≠ 0) :
    sermap base remap n ≠ 0 := by
  obtain ⟨k,found⟩ := keyAt_isSome old n nonzero inside
  rw [← map.known n covered] at found
  exact (keyAt_bound deltas _ k found).1

theorem Remap.fixDelta_below (delta : Delta K Q)
    (below : OthersBelow (base + remap.length) delta) (inside : base + remap.length ≤ old.length) :
    OthersBelow (d - 1) (fixDelta base remap delta) := by
  have bound : ∀ n, n ≤ base + remap.length → sermap base remap n ≤ d - 1 := by
    intro n covered
    have less := map.small n covered
    omega
  refine ⟨bound _ below.ptag,?_,?_,?_,?_⟩
  · rw [fixDelta_mtag delta below.mtagNeedsPtag]
    exact bound _ below.mtag
  · intro c member
    obtain ⟨before,listed,rfl⟩ := mem_map.mp member
    exact bound _ (below.cludes before listed)
  · intro c member
    obtain ⟨before,listed,rfl⟩ := mem_map.mp member
    have covered := below.cludes before listed
    exact map.sermap_ne_zero _ covered (by omega) (below.cludesReal before listed)
  · intro none
    rw [fixDelta_mtag delta below.mtagNeedsPtag]
    have root : delta.ptag = 0 := by
      by_contra nonzero
      have covered := below.ptag
      exact map.sermap_ne_zero _ covered (by omega) nonzero none
    rw [below.mtagNeedsPtag root,sermap_zero]

end OneDelta

theorem OthersBelow.of_lazily {bound : Nat} {d e : Delta K Q} (below : OthersBelow bound e)
    (same : d.lazily = e.lazily) : OthersBelow bound d := by
  have ptag : d.ptag = e.ptag := congrArg (fun l => l.2.1) same
  have mtag : d.mtag = e.mtag := congrArg (fun l => l.2.2.1) same
  have cludes : d.cludes = e.cludes := congrArg (fun l => l.2.2.2) same
  refine ⟨?_,?_,?_,?_,?_⟩
  · rw [ptag]
    exact below.ptag
  · rw [mtag]
    exact below.mtag
  · rw [cludes]
    exact below.cludes
  · rw [cludes]
    exact below.cludesReal
  · rw [ptag,mtag]
    exact below.mtagNeedsPtag

/-- The walk keeps in step with the old table: `seen` are the old deltas passed, `ahead` those still
in `rest`. -/
theorem fixLoop_spec (deltas old : List (Delta K Q)) (base : Nat)
    (oldBelow : ∀ i e, old[i]? = some e → OthersBelow i e) (rest : List (Delta K Q)) (d : Nat)
    (remap : List Nat) (seen ahead : List (Delta K Q)) (parts : old = seen ++ ahead)
    (length : seen.length = base + remap.length)
    (locals : (rest.filter (fun e => !e.remote)).map Delta.lazily = ahead.map Delta.lazily)
    (keys : ∀ i e, rest[i]? = some e → keyAt deltas (d + i) = some e.key) (nonzero : d ≠ 0)
    (remote : ∀ i e, rest[i]? = some e → e.remote = true → OthersBelow (d - 1 + i) e)
    (map : Remap deltas old base d remap) :
    (fixLoop base d remap rest).map (viewWith (keyAt deltas) (keyAt deltas)) =
        rest.map (fun e => viewWith (keyAt deltas) (if e.remote then keyAt deltas else keyAt old) e) ∧
      ∀ i e, (fixLoop base d remap rest)[i]? = some e → OthersBelow (d - 1 + i) e := by
  induction rest generalizing d remap seen ahead with
  | nil => exact ⟨rfl,by simp [fixLoop]⟩
  | cons delta rest ih =>
    have keysLater : ∀ i e, rest[i]? = some e → keyAt deltas (d + 1 + i) = some e.key := by
      intro i e at_
      rw [Nat.add_assoc,Nat.add_comm 1 i]
      exact keys (i + 1) e (by simpa using at_)
    have remoteLater : ∀ i e, rest[i]? = some e → e.remote = true → OthersBelow (d + 1 - 1 + i) e :=
        by
      intro i e at_ flag
      have later := remote (i + 1) e (by simpa using at_) flag
      rwa [show d - 1 + (i + 1) = d + 1 - 1 + i by omega] at later
    have assemble : ∀ (first : Delta K Q) (later : List (Delta K Q)),
        OthersBelow (d - 1) first → (∀ i e, later[i]? = some e → OthersBelow (d + 1 - 1 + i) e) →
        ∀ i e, (first :: later)[i]? = some e → OthersBelow (d - 1 + i) e := by
      intro first later belowFirst belowLater i e at_
      cases i with
      | zero =>
        rwa [← Option.some.inj at_]
      | succ i =>
        have below := belowLater i e (by simpa using at_)
        rwa [show d + 1 - 1 + i = d - 1 + (i + 1) by omega] at below
    by_cases flag : delta.remote = true
    · rw [filter_cons_of_neg (by simp [flag])] at locals
      obtain ⟨views,below⟩ := ih (d + 1) remap seen ahead parts length locals keysLater
        (by omega) remoteLater map.skip
      simp only [fixLoop,flag,if_true,map_cons]
      exact ⟨by rw [views],assemble _ _ (remote 0 delta rfl flag) below⟩
    rw [filter_cons_of_pos (by simp [flag]),map_cons] at locals
    cases ahead with
    | nil => cases locals
    | cons own later =>
      rw [map_cons,List.cons.injEq] at locals
      obtain ⟨same,locals⟩ := locals
      have place : old[base + remap.length]? = some own := by
        rw [parts,← length,getElem?_append_right le_rfl,Nat.sub_self]
        rfl
      have inside : base + remap.length < old.length := (List.getElem?_eq_some_iff.mp place).1
      have below := (oldBelow _ own place).of_lazily same
      have sameKey : keyAt deltas d = keyAt old (base + remap.length + 1) := by
        rw [keyAt,place]
        have here := keys 0 delta rfl
        rw [Nat.add_zero] at here
        rw [here,Option.map_some]
        exact congrArg some (congrArg Prod.fst same)
      obtain ⟨views,belowLater⟩ := ih (d + 1) (remap ++ [d]) (seen ++ [own]) later
        (by rw [parts,append_assoc,singleton_append])
        (by rw [length_append,length_append,length]; rfl) locals keysLater
        (by omega) remoteLater (map.push sameKey)
      simp only [fixLoop,flag,Bool.false_eq_true,if_false,map_cons]
      rw [fixDelta_push delta below,views,map.fixDelta_view delta below]
      exact ⟨rfl,assemble _ _ (map.fixDelta_below delta below (by omega)) belowLater⟩

def Delta.firm (d : Delta K Q) : K × Nat × Q × Bool × Nat × Nat :=
  (d.key, d.date, d.sortkey, d.tag, d.parent, d.merge)

private theorem fixLoop_firm (base d : Nat) (remap : List Nat) (rest : List (Delta K Q)) :
    (fixLoop base d remap rest).map Delta.firm = rest.map Delta.firm := by
  induction rest generalizing d remap with
  | nil => rfl
  | cons delta rest ih =>
    unfold fixLoop
    split
    · rw [map_cons,map_cons,ih]
    · rw [map_cons,map_cons,ih]
      rfl

theorem fix_firm (s : Sccs K Q) : (fix s).deltas.map Delta.firm = s.deltas.map Delta.firm := by
  unfold fix
  split
  · rfl
  · rw [map_append,fixLoop_firm,← map_append,take_append_drop]

variable {left right : List (Delta K Q)}

theorem keys_of_firm (same : left.map Delta.firm = right.map Delta.firm) :
    left.map (·.key) = right.map (·.key) := by
  have keys := congrArg (List.map Prod.fst) same
  rwa [map_map,map_map] at keys

theorem mem_of_firm (same : left.map Delta.firm = right.map Delta.firm) (i : Nat) (e : Delta K Q)
    (at_ : left[i]? = some e) : ∃ e', right[i]? = some e' ∧ e'.firm = e.firm := by
  have point := congrArg (fun l => l[i]?) same
  simp only [getElem?_map,at_,Option.map_some] at point
  exact Option.map_eq_some_iff.mp point.symm

theorem Ordered.of_firm [LinearOrder Q] {symlist : List Symbol} (ordered : Ordered right symlist)
    (same : left.map Delta.firm = right.map Delta.firm) : Ordered left symlist := by
  have length : left.length = right.length := by
    have lengths := congrArg List.length same
    rwa [length_map,length_map] at lengths
  refine ⟨?_,?_,?_,?_,ordered.symSorted,?_,?_⟩
  · have sorted : (right.map Delta.firm).Pairwise
        (fun a b => toLex (a.2.1, a.2.2.1) < toLex (b.2.1, b.2.2.1)) :=
      pairwise_map.mpr ordered.sorted
    rw [← same] at sorted
    exact (pairwise_map (f := Delta.firm)).mp sorted
  · rw [keys_of_firm same]
    exact ordered.keys
  · intro i e at_
    obtain ⟨e',at',firm⟩ := mem_of_firm same i e at_
    have parent : e'.parent = e.parent := congrArg (fun f => f.2.2.2.2.1) firm
    have merge : e'.merge = e.merge := congrArg (fun f => f.2.2.2.2.2) firm
    have below := ordered.parents i e' at'
    exact ⟨parent ▸ below.parent,merge ▸ below.merge,parent ▸ merge ▸ below.mergeNeedsParent⟩
  · intro e member
    obtain ⟨i,at_⟩ := mem_iff_getElem?.mp member
    obtain ⟨e',at',firm⟩ := mem_of_firm same i e at_
    have tag : e'.tag = e.tag := congrArg (fun f => f.2.2.2.1) firm
    have parent : e'.parent = e.parent := congrArg (fun f => f.2.2.2.2.1) firm
    exact tag ▸ parent ▸ ordered.tagged e' (mem_of_getElem? at')
  · rw [length]
    exact ordered.symSer
  · rw [length]
    exact ordered.symMeta

theorem isRemote_eq (deltas : List (Delta K Q)) (i : Nat) (e : Delta K Q)
    (at_ : deltas[i]? = some e) : isRemote deltas (i + 1) = e.remote := by
  simp [isRemote,at_]

variable {s : Sccs K Q}

theorem Running.first_remote [LinearOrder Q] (running : Running old s) (first : Nat)
    (found : s.locs.find? (isRemote s.deltas) = some first) :
    ∃ before own rest, s.deltas = before ++ own :: rest ∧ first = before.length + 1 ∧
      own.remote = true ∧ ∀ e ∈ before, e.remote = false := by
  rw [find?_eq_some_iff_append] at found
  obtain ⟨flag,earlier,later,locs,plain⟩ := found
  obtain ⟨nonzero,within⟩ := running.locsInside first (by rw [locs]; simp)
  obtain ⟨n,rfl⟩ := Nat.exists_eq_succ_of_ne_zero nonzero
  have place : s.deltas[n]? = some (s.deltas.get ⟨n,by omega⟩) := getElem?_eq_getElem (by omega)
  generalize s.deltas.get ⟨n,by omega⟩ = own at place
  refine ⟨s.deltas.take n,own,s.deltas.drop (n + 1),?_,?_,?_,?_⟩
  · have whole := take_append_drop n s.deltas
    rw [drop_eq_getElem_cons (by omega),(List.getElem?_eq_some_iff.mp place).2] at whole
    exact whole.symm
  · rw [length_take]
    omega
  · rwa [← isRemote_eq s.deltas n own place]
  intro e member
  obtain ⟨i,at_⟩ := mem_iff_getElem?.mp member
  have small : i < n := by
    have bound := (List.getElem?_eq_some_iff.mp at_).1
    rw [length_take] at bound
    omega
  rw [getElem?_take_of_lt small] at at_
  by_contra remote
  have listed := running.remoteLocs i e at_ (by simpa using remote)
  have sorted := running.locsSorted
  rw [locs] at listed sorted
  rw [pairwise_append,pairwise_cons] at sorted
  rcases mem_append.mp listed with inFront | behind
  · have none := plain (i + 1) inFront
    rw [isRemote_eq s.deltas i e at_] at none
    simp at none
    exact remote none
  · rcases mem_cons.mp behind with same | after
    · omega
    · have greater := sorted.2.1.1 (i + 1) after
      omega

theorem views_of_keys (same : left.map (·.key) = right.map (·.key)) :
    views left = left.map (viewWith (keyAt right) (keyAt right)) := by
  unfold views
  rw [keyAt_congr left right same]

theorem below_of_lazily (same : left.map Delta.lazily = old.map Delta.lazily)
    (oldBelow : ∀ i e, old[i]? = some e → OthersBelow i e) (i : Nat) (e : Delta K Q)
    (at_ : left[i]? = some e) : OthersBelow i e := by
  have point := congrArg (fun l => l[i]?) same
  simp only [getElem?_map,at_,Option.map_some] at point
  obtain ⟨own,place,equal⟩ := Option.map_eq_some_iff.mp point.symm
  exact (oldBelow i own place).of_lazily equal.symm

theorem Running.views_unchanged [LinearOrder Q] (running : Running old s)
    (plain : ∀ e ∈ s.deltas, e.remote = false)
    (oldBelow : ∀ i e, old[i]? = some e → OthersBelow i e) :
    s.deltas.map (viewWith (keyAt s.deltas) (keyAt s.deltas)) = runViews old s.deltas ∧
      ∀ i e, s.deltas[i]? = some e → OthersBelow i e := by
  have locals := running.locals
  rw [filter_eq_self.mpr (fun e member => by simp [plain e member])] at locals
  have keys : s.deltas.map (·.key) = old.map (·.key) := by
    have firsts := congrArg (List.map Prod.fst) locals
    rwa [map_map,map_map] at firsts
  constructor
  · apply map_congr_left
    intro e member
    rw [plain e member,keyAt_congr s.deltas old keys]
    rfl
  · exact below_of_lazily locals oldBelow

theorem Running.views_fixed [LinearOrder Q] (running : Running old s) (before rest : List (Delta K Q))
    (own : Delta K Q) (split : s.deltas = before ++ own :: rest) (remote : own.remote = true)
    (plain : ∀ e ∈ before, e.remote = false) (oldBelow : ∀ i e, old[i]? = some e → OthersBelow i e) :
    (before ++ own :: fixLoop before.length (before.length + 2) [] rest).map
        (viewWith (keyAt s.deltas) (keyAt s.deltas)) = runViews old s.deltas ∧
      ∀ i e, (before ++ own :: fixLoop before.length (before.length + 2) [] rest)[i]? = some e →
        OthersBelow i e := by
  have locals := running.locals
  rw [split,filter_append,filter_cons_of_neg (by simp [remote]),map_append,
    filter_eq_self.mpr (fun e member => by simp [plain e member])] at locals
  obtain ⟨seen,ahead,parts,sameSeen,sameAhead⟩ := map_eq_append_iff.mp locals.symm
  have length : seen.length = before.length := by
    have lengths := congrArg List.length sameSeen
    rwa [length_map,length_map] at lengths
  have sameKeys : ∀ n, n ≤ before.length → keyAt s.deltas n = keyAt old n := by
    intro n inside
    cases n with
    | zero => rfl
    | succ n =>
      have point := congrArg (fun l => l[n]?.map Prod.fst) sameSeen
      simp only [getElem?_map,Option.map_map] at point
      simp only [keyAt]
      rw [split,parts,getElem?_append_left (by omega), getElem?_append_left (by omega)]
      exact point.symm
  have belowBefore : ∀ i e, before[i]? = some e → OthersBelow i e := by
    apply below_of_lazily sameSeen.symm
    intro i e at_
    apply oldBelow i e
    rw [parts,getElem?_append_left (List.getElem?_eq_some_iff.mp at_).1,at_]
  have behind : ∀ i, s.deltas[before.length + 1 + i]? = rest[i]? := by
    intro i
    rw [split,getElem?_append_right (by omega),
      show before.length + 1 + i - before.length = i + 1 by omega,getElem?_cons_succ]
  have keys : ∀ i e, rest[i]? = some e → keyAt s.deltas (before.length + 2 + i) = some e.key := by
    intro i e at_
    rw [show before.length + 2 + i = (before.length + 1 + i) + 1 by omega,keyAt,behind,at_]
    rfl
  have remoteRest : ∀ i e, rest[i]? = some e → e.remote = true →
      OthersBelow (before.length + 2 - 1 + i) e :=
    fun i e at_ flag => running.others (before.length + 1 + i) e (by rw [behind,at_]) flag
  obtain ⟨walked,belowRest⟩ := fixLoop_spec s.deltas old before.length oldBelow rest
    (before.length + 2) [] seen ahead parts length sameAhead.symm keys (by omega) remoteRest
    (.start s.deltas old before.length sameKeys)
  constructor
  · have whole : runViews old s.deltas = (before ++ own :: rest).map (fun e =>
        viewWith (keyAt s.deltas) (if e.remote then keyAt s.deltas else keyAt old) e) := by
      rw [← split]
      rfl
    rw [whole,map_append,map_append,map_cons,map_cons,walked,remote]
    congr 1
    apply map_congr_left
    intro e member
    obtain ⟨i,at_⟩ := mem_iff_getElem?.mp member
    rw [plain e member]
    apply viewWith_others _ _ _ i e (belowBefore i e at_)
    intro n inside
    have bound := (List.getElem?_eq_some_iff.mp at_).1
    exact sameKeys n (by omega)
  · intro i e at_
    rcases lt_trichotomy i before.length with low | same | high
    · rw [getElem?_append_left low] at at_
      exact belowBefore i e at_
    · rw [same,getElem?_append_right le_rfl,Nat.sub_self] at at_
      have here : s.deltas[before.length]? = some own := by
        rw [split,getElem?_append_right le_rfl,Nat.sub_self]
        rfl
      rw [same,← Option.some.inj at_]
      exact running.others _ own here remote
    · obtain ⟨j,rfl⟩ := Nat.exists_eq_add_of_lt high
      rw [getElem?_append_right (by omega),
        show before.length + j + 1 - before.length = j + 1 by omega,getElem?_cons_succ] at at_
      have below := belowRest j e at_
      rwa [show before.length + 2 - 1 + j = before.length + j + 1 by omega] at below

theorem Running.fix_spec [LinearOrder Q] (running : Running old s)
    (oldBelow : ∀ i e, old[i]? = some e → OthersBelow i e) :
    views (fix s).deltas = runViews old s.deltas ∧
      ∀ i e, (fix s).deltas[i]? = some e → OthersBelow i e := by
  rw [views_of_keys (keys_of_firm (fix_firm s))]
  unfold fix
  cases found : s.locs.find? (isRemote s.deltas) with
  | none =>
    apply running.views_unchanged _ oldBelow
    intro e member
    obtain ⟨i,at_⟩ := mem_iff_getElem?.mp member
    by_contra remote
    have listed := running.remoteLocs i e at_ (by simpa using remote)
    have none := find?_eq_none.mp found (i + 1) listed
    rw [isRemote_eq s.deltas i e at_] at none
    exact remote (by simpa using none)
  | some first =>
    obtain ⟨before,own,rest,split,place,remote,plain⟩ := running.first_remote first found
    have cut : s.deltas.take first ++ fixLoop (first - 1) (first + 1) [] (s.deltas.drop first) =
        before ++ own :: fixLoop before.length (before.length + 2) [] rest := by
      rw [split,place,append_cons before own rest]
      rw [take_left' (by simp),drop_left' (by simp),Nat.add_sub_cancel, ← append_cons]
    have fixed := running.views_fixed before rest own split remote plain oldBelow
    rwa [← cut] at fixed

end BitKeeper.CsetInsert
