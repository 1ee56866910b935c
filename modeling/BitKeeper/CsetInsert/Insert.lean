import BitKeeper.CsetInsert.History

/-!
One `cset_insert`. While a patch is read the parents are renamed at once; the tag parents and the
include lists of local deltas still use the serials of the table `old`.
-/

namespace BitKeeper.CsetInsert

open List

variable {K Q : Type} (older newer : List (Delta K Q)) (d : Delta K Q)

theorem insertDelta_append :
    insertDelta (older ++ newer) (older.length + 1) d =
      older ++ d :: newer.map (bumpParents (older.length + 1)) := by
  simp [insertDelta]

theorem bumpParents_key (serial : Nat) (d : Delta K Q) : (bumpParents serial d).key = d.key := by
  unfold bumpParents
  split <;> rfl

theorem keyAt_insert_bump (p : Nat) :
    keyAt (insertDelta (older ++ newer) (older.length + 1) d) (bump (older.length + 1) p) =
      keyAt (older ++ newer) p := by
  rw [insertDelta_append]
  unfold bump
  cases p with
  | zero => simp [keyAt]
  | succ p =>
    split
    · simp only [keyAt]
      rw [getElem?_append_right (by omega),getElem?_append_right (by omega),
        show p + 1 - older.length = (p - older.length) + 1 by omega,getElem?_cons_succ,
        getElem?_map,Option.map_map]
      congr 1
      funext e
      exact bumpParents_key _ e
    · simp only [keyAt]
      rw [getElem?_append_left (by omega),getElem?_append_left (by omega)]

theorem keyAt_insert_low (p : Nat)
    (low : p ≤ older.length) :
    keyAt (insertDelta (older ++ newer) (older.length + 1) d) p = keyAt (older ++ newer) p := by
  have moved := keyAt_insert_bump older newer d p
  unfold bump at moved
  rwa [if_neg (by omega)] at moved

theorem keyAt_insert_self :
    keyAt (insertDelta (older ++ newer) (older.length + 1) d) (older.length + 1) = some d.key := by
  rw [insertDelta_append]
  simp [keyAt]

def runViews (old deltas : List (Delta K Q)) : List (KeyDelta K Q) :=
  deltas.map (fun d => viewWith (keyAt deltas) (if d.remote then keyAt deltas else keyAt old) d)

variable (old deltas : List (Delta K Q))

theorem runViews_holds (k : K) :
    Holds {v | v ∈ runViews old deltas} k ↔ ∃ e ∈ deltas, e.key = k := by
  constructor
  · rintro ⟨v,member,same⟩
    obtain ⟨e,inside,rfl⟩ := mem_map.mp member
    exact ⟨e,inside,same⟩
  · rintro ⟨e,inside,same⟩
    exact ⟨_,mem_map.mpr ⟨e,inside,rfl⟩,same⟩

theorem runViews_mem (v : KeyDelta K Q)
    (member : v ∈ runViews old deltas) : ∃ e ∈ deltas, e.key = v.key ∧ e.rank = v.rank ∧
      keyAt deltas e.parent = v.parent ∧ keyAt deltas e.merge = v.merge := by
  obtain ⟨e,inside,rfl⟩ := mem_map.mp member
  exact ⟨e,inside,rfl,rfl,rfl,rfl⟩

structure ParentsBelow (bound : Nat) (d : Delta K Q) : Prop where
  parent : d.parent ≤ bound
  merge : d.merge ≤ bound
  mergeNeedsParent : d.parent = 0 → d.merge = 0

structure OthersBelow (bound : Nat) (d : Delta K Q) : Prop where
  ptag : d.ptag ≤ bound
  mtag : d.mtag ≤ bound
  cludes : ∀ c ∈ d.cludes, c.1 ≤ bound
  cludesReal : ∀ c ∈ d.cludes, c.1 ≠ 0
  mtagNeedsPtag : d.ptag = 0 → d.mtag = 0

theorem ParentsBelow.bump {bound : Nat} (serial : Nat) {d : Delta K Q}
    (below : ParentsBelow bound d) :
    ParentsBelow (bound + 1) (bumpParents serial d) := by
  have parentLow := below.parent
  have mergeLow := below.merge
  unfold bumpParents CsetInsert.bump
  split
  · rename_i root
    exact ⟨by omega,by omega,below.mergeNeedsParent⟩
  rename_i real
  refine ⟨?_,?_,?_⟩
  · change (if serial ≤ d.parent then d.parent + 1 else d.parent) ≤ bound + 1
    split <;> omega
  · change (if serial ≤ d.merge then d.merge + 1 else d.merge) ≤ bound + 1
    split <;> omega
  · intro zero
    change (if serial ≤ d.parent then d.parent + 1 else d.parent) = 0 at zero
    split at zero <;> omega

theorem viewWith_congr (parents parents' others others' : Nat → Option K) (d d' : Delta K Q)
    (key : d.key = d'.key) (date : d.date = d'.date) (sortkey : d.sortkey = d'.sortkey)
    (tag : d.tag = d'.tag) (parent : parents d.parent = parents' d'.parent)
    (merge : parents d.merge = parents' d'.merge) (ptag : others d.ptag = others' d'.ptag)
    (mtag : others d.mtag = others' d'.mtag)
    (cludes : d.cludes.map (fun c => (others c.1, c.2)) = d'.cludes.map
      (fun c => (others' c.1, c.2))) :
    viewWith parents others d = viewWith parents' others' d' := by
  simp only [viewWith,key,date,sortkey,tag,parent,merge,ptag,mtag,cludes]

section Bumped
variable (older newer : List (Delta K Q)) (d : Delta K Q)

private theorem viewWith_bumped (others : Nat → Option K) (e : Delta K Q)
    (shape : e.parent = 0 → e.merge = 0) :
    viewWith (keyAt (insertDelta (older ++ newer) (older.length + 1) d)) others
        (bumpParents (older.length + 1) e) =
      viewWith (keyAt (older ++ newer)) others e := by
  unfold bumpParents
  split
  · rename_i root
    apply viewWith_congr <;> try rfl
    · rw [root]
      rfl
    · rw [shape root]
      rfl
  · apply viewWith_congr <;> try rfl
    · exact keyAt_insert_bump older newer d e.parent
    · exact keyAt_insert_bump older newer d e.merge

theorem viewWith_low (bound : Nat) (e : Delta K Q) (others : Bool)
    (below : ParentsBelow bound e) (othersBelow : others = true → OthersBelow bound e)
    (low : bound ≤ older.length) (lookup : Nat → Option K) :
    viewWith (keyAt (insertDelta (older ++ newer) (older.length + 1) d))
        (if others then keyAt (insertDelta (older ++ newer) (older.length + 1) d) else lookup) e =
      viewWith (keyAt (older ++ newer)) (if others then keyAt (older ++ newer) else lookup) e := by
  have lowKey : ∀ p, p ≤ bound →
      keyAt (insertDelta (older ++ newer) (older.length + 1) d) p = keyAt (older ++ newer) p :=
    fun p small => keyAt_insert_low older newer d p (by omega)
  cases others with
  | false =>
    apply viewWith_congr <;> try rfl
    · exact lowKey _ below.parent
    · exact lowKey _ below.merge
  | true =>
    have others := othersBelow rfl
    apply viewWith_congr <;> try rfl
    · exact lowKey _ below.parent
    · exact lowKey _ below.merge
    · exact lowKey _ others.ptag
    · exact lowKey _ others.mtag
    · apply map_congr_left
      intro c member
      simp only [if_true]
      rw [lowKey _ (others.cludes c member)]

end Bumped

theorem runViews_insert (old older newer : List (Delta K Q)) (d : Delta K Q)
    (parents : ∀ i e, (older ++ newer)[i]? = some e → ParentsBelow i e)
    (others : ∀ i e, older[i]? = some e → e.remote = true → OthersBelow i e)
    (localBehind : ∀ e ∈ newer, e.remote = false)
    (remote : d.remote = true) (parentsNew : ParentsBelow older.length d)
    (othersNew : OthersBelow older.length d) :
    runViews old (insertDelta (older ++ newer) (older.length + 1) d) =
      (runViews old (older ++ newer)).take older.length ++
        viewWith (keyAt (older ++ newer)) (keyAt (older ++ newer)) d ::
          (runViews old (older ++ newer)).drop older.length := by
  have split : runViews old (insertDelta (older ++ newer) (older.length + 1) d) =
      (older ++ d :: newer.map (bumpParents (older.length + 1))).map (fun e =>
        viewWith (keyAt (insertDelta (older ++ newer) (older.length + 1) d))
          (if e.remote then keyAt (insertDelta (older ++ newer) (older.length + 1) d)
            else keyAt old) e) := by
    unfold runViews
    rw [insertDelta_append]
  rw [split]
  unfold runViews
  rw [map_append,map_cons,map_append,take_left' (by simp), drop_left' (by simp),map_map]
  congr 1
  · -- in front of the insertion nothing was renamed
    apply map_congr_left
    intro e member
    obtain ⟨i,inside,at_⟩ := getElem_of_mem member
    have point : older[i]? = some e := by rw [getElem?_eq_getElem inside,at_]
    have below := parents i e (by rw [getElem?_append_left inside,point])
    exact viewWith_low older newer d i e e.remote below (fun flag => others i e point flag)
      (by omega) (keyAt old)
  congr 1
  · rw [if_pos remote]
    have low := viewWith_low older newer d older.length d true parentsNew (fun _ => othersNew)
      le_rfl (keyAt old)
    simpa using low
  apply map_congr_left
  intro e member
  obtain ⟨i,inside,at_⟩ := getElem_of_mem member
  have point : (older ++ newer)[older.length + i]? = some e := by
    rw [getElem?_append_right (by omega),Nat.add_sub_cancel_left, getElem?_eq_getElem inside,at_]
  have localE := localBehind e member
  have remoteBumped : (bumpParents (older.length + 1) e).remote = false := by
    unfold bumpParents
    split <;> exact localE
  simp only [Function.comp_apply,remoteBumped,localE,Bool.false_eq_true,if_false]
  exact viewWith_bumped older newer d (keyAt old) e (parents _ e point).mergeNeedsParent

end BitKeeper.CsetInsert
