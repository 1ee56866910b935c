import BitKeeper.SyncKeys.Model

/-!
`probekey`, `listkey` and `prunekey` compute the exact difference of two ChangeSet files: everything
either side colours is reached from a common delta over edges both files have.
-/

namespace BitKeeper.SyncKeys

open List
open Dag (Reach ClosedTo)

variable {K : Type}

section Lookup
variable [DecidableEq K] (s : CsetFile K)

theorem sccs_findKey_ne_zero (k : K) (found : sccs_findKey s k ≠ 0) :
    sccs_findKey s k ∈ s.serials ∧ s.key (sccs_findKey s k) = k := by
  unfold sccs_findKey at found ⊢
  cases search : s.serials.find? (fun d => s.key d = k) with
  | none =>
    rw [search] at found
    exact absurd rfl found
  | some d =>
    rw [Option.getD_some]
    exact ⟨mem_of_find?_eq_some search,by simpa using find?_some search⟩

theorem sccs_findKey_key (d : Nat) (member : d ∈ s.serials) :
    sccs_findKey s (s.key d) = d := by
  have found : sccs_findKey s (s.key d) ≠ 0 := by
    unfold sccs_findKey
    cases search : s.serials.find? (fun e => s.key e = s.key d) with
    | none =>
      have absent := find?_eq_none.mp search d member
      simp at absent
    | some e =>
      rw [Option.getD_some]
      exact ((s.mem_serials e).mp (mem_of_find?_eq_some search)).1
  obtain ⟨inside,same⟩ := sccs_findKey_ne_zero s (s.key d) found
  exact s.key_inj _ _ inside member same

theorem sccs_findKey_eq_zero (k : K) :
    sccs_findKey s k = 0 ↔ ∀ d ∈ s.serials, s.key d ≠ k := by
  constructor
  · intro missing d member same
    rw [← same,sccs_findKey_key s d member] at missing
    exact ((s.mem_serials d).mp member).1 missing
  · intro absent
    by_contra found
    obtain ⟨inside,same⟩ := sccs_findKey_ne_zero s k found
    exact absent _ inside same

theorem firstMatch_start (keys : List K) (found : Nat) (real : found ≠ 0) :
    keys.foldl (fun found k => if found ≠ 0 then found else sccs_findKey s k) found = found := by
  induction keys with
  | nil => rfl
  | cons k rest ih =>
    rwa [foldl_cons,if_pos real]

theorem firstMatch_spec (keys : List K) :
    (firstMatch s keys ≠ 0 → firstMatch s keys ∈ s.serials ∧ s.key (firstMatch s keys) ∈ keys) ∧
      ((∃ k ∈ keys, sccs_findKey s k ≠ 0) → firstMatch s keys ≠ 0) := by
  unfold firstMatch
  induction keys with
  | nil => simp
  | cons k rest ih =>
    rw [foldl_cons,if_neg (by simp)]
    by_cases known : sccs_findKey s k = 0
    · rw [known]
      refine ⟨fun real => ?_, ?_⟩
      · obtain ⟨inside,member⟩ := ih.1 real
        exact ⟨inside,mem_cons_of_mem k member⟩
      · rintro ⟨other,member,real⟩
        rcases mem_cons.mp member with same | later
        · exact absurd known (same ▸ real)
        · exact ih.2 ⟨other,later,real⟩
    · rw [firstMatch_start s rest _ known]
      obtain ⟨inside,same⟩ := sccs_findKey_ne_zero s k known
      exact ⟨fun _ => ⟨inside,by rw [same]; exact mem_cons_self⟩, fun _ => known⟩

end Lookup

theorem spanKeys_append (keys : List K) (rest : List (Line K))
    (stop : ∀ k tail, rest ≠ .key k :: tail) :
    spanKeys (keys.map .key ++ rest) = (keys, rest) := by
  induction keys with
  | nil =>
    cases rest with
    | nil => rfl
    | cons line tail =>
      cases line with
      | key k => exact absurd rfl (stop k tail)
      | _ => rfl
  | cons k keys ih => simp only [map_cons,cons_append,spanKeys,ih]

variable (s : CsetFile K)

theorem sccs_ino_spec :
    sccs_ino s ∈ s.serials ∧ s.tag (sccs_ino s) = false := by
  unfold sccs_ino
  split
  next fake =>
    exact s.kid_real fake
  · have filled := s.nonempty
    exact ⟨(s.mem_serials 1).mpr ⟨by omega,by omega⟩,s.root_real⟩

private theorem lodWalk_real (limit d : Nat) (real : s.tag d = false)
    (found : lodWalk s limit d ≠ 0) : s.tag (lodWalk s limit d) = false := by
  fun_induction lodWalk s limit d with
  | case1 d h ih =>
    by_cases root : s.parent d = 0
    · rw [root,lodWalk] at found
      simp at found
    · exact ih (s.parent_real d real root) found
  | case2 d h => exact real

/-- The probe's loop meets no tag, stays in the table and stops after `rounds` keys when `top + 1 <
i * 2 ^ rounds`: the stride doubles. -/
theorem lodLoop_spec (top i d rounds : Nat)
    (real : d ≠ 0 → s.tag d = false) (inside : d ≤ s.table)
    (enough : top + 1 < i * 2 ^ rounds) :
    ∃ probes, lodLoop s top i d = .ok probes ∧ probes.length ≤ rounds ∧
      ∀ e ∈ probes, e ∈ s.serials ∧ s.tag e = false := by
  induction rounds generalizing i d with
  | zero =>
    refine ⟨[],?_,by simp,by simp⟩
    unfold lodLoop
    split
    · rw [if_pos (by omega)]
    · rfl
  | succ rounds ih =>
    unfold lodLoop
    split
    · rename_i more
      by_cases beyond : top < i - 1
      · exact ⟨[],by rw [if_pos beyond],by simp,by simp⟩
      rw [if_neg beyond]
      by_cases gone : lodWalk s (top + 1 - i) d = 0
      · exact ⟨[],by rw [dif_pos gone],by simp,by simp⟩
      rw [dif_neg gone]
      have walked := lodWalk_real s (top + 1 - i) d (real more.1) gone
      have below := lodWalk_le s (top + 1 - i) d
      have parentBelow := s.parent_lt _ gone
      rw [if_neg (by rw [walked]; decide)]
      obtain ⟨rest,ran,short,good⟩ := ih (2 * i) (s.parent (lodWalk s (top + 1 - i) d))
        (fun root => s.parent_real _ walked root) (by omega)
        (by rw [Nat.pow_succ] at enough; rw [Nat.mul_comm 2 i,Nat.mul_assoc,Nat.mul_comm 2]
            exact enough)
      refine ⟨lodWalk s (top + 1 - i) d :: rest,by rw [ran]; rfl,by simpa using short,?_⟩
      intro e member
      rcases mem_cons.mp member with same | later
      · subst e
        exact ⟨(s.mem_serials _).mpr ⟨gone,by omega⟩,walked⟩
      · exact good e later
    · exact ⟨[],rfl,by simp,by simp⟩

theorem tagLoop_inside (steps d : Nat) (inside : d ≤ s.table) :
    ∀ e ∈ tagLoop s steps d, e ∈ s.serials := by
  fun_induction tagLoop s steps d with
  | case1 steps => simp
  | case2 steps d real ih =>
    obtain ⟨le,ne⟩ := tagWalk_le s steps d real
    intro e member
    rcases mem_cons.mp member with same | later
    · subst e
      exact (s.mem_serials _).mpr ⟨ne,by omega⟩
    · split at later
      · rename_i more
        exact ih more (by omega) e later
      · cases later

theorem tagTip_inside : tagTip s ≤ s.table := by
  unfold tagTip
  cases search : s.serials.reverse.find? (fun d => s.ptag d ≠ 0) with
  | none => simp
  | some d =>
    have member := mem_of_find?_eq_some search
    rw [Option.getD_some]
    exact ((s.mem_serials d).mp (mem_reverse.mp member)).2

theorem mark_true (marked : Nat → Bool) (d x : Nat) :
    mark marked d x = true ↔ x = d ∨ marked x = true := by
  unfold mark
  by_cases same : x = d
  · simp [same]
  · simp [same]

theorem mark_closed {next : Nat → List Nat} {marked : Nat → Bool} {bound d : Nat}
    (closed : ClosedTo next bound marked) (above : bound < d) :
    ClosedTo next bound (mark marked d) := by
  intro x within start e edge real
  rcases (mark_true marked d x).mp start with same | old
  · omega
  · exact (mark_true marked d e).mpr (.inr (closed x within old e edge real))

private theorem reach_parents (s : Graph) (d x : Nat) (real : d ≠ 0) :
    Reach s.parents d x ↔ x = d ∨ (s.merge d ≠ 0 ∧ Reach s.parents (s.merge d) x) ∨
      (s.parent d ≠ 0 ∧ Reach s.parents (s.parent d) x) := by
  constructor
  · intro reached
    cases reached with
    | self => exact .inl rfl
    | step edge nonzero rest =>
      simp only [Graph.parents,if_neg real,mem_cons,not_mem_nil,or_false] at edge
      rcases edge with rfl | rfl
      · exact .inr (.inl ⟨nonzero,rest⟩)
      · exact .inr (.inr ⟨nonzero,rest⟩)
  · rintro (rfl | ⟨nonzero,rest⟩ | ⟨nonzero,rest⟩)
    · exact .self _
    · exact .step (by simp [Graph.parents,real]) nonzero rest
    · exact .step (by simp [Graph.parents,real]) nonzero rest

theorem reach_ptags (s : Graph) (d x : Nat) (real : d ≠ 0) :
    Reach s.ptags d x ↔ x = d ∨ (s.ptag d ≠ 0 ∧ Reach s.ptags (s.ptag d) x) ∨
      (s.ptag d ≠ 0 ∧ s.mtag d ≠ 0 ∧ Reach s.ptags (s.mtag d) x) := by
  constructor
  · intro reached
    cases reached with
    | self => exact .inl rfl
    | step edge nonzero rest =>
      by_cases leaf : s.ptag d = 0
      · simp [Graph.ptags,leaf] at edge
      · simp only [Graph.ptags,if_neg real,if_neg leaf,mem_cons,not_mem_nil, or_false] at edge
        rcases edge with rfl | rfl
        · exact .inr (.inl ⟨nonzero,rest⟩)
        · exact .inr (.inr ⟨leaf,nonzero,rest⟩)
  · rintro (rfl | ⟨nonzero,rest⟩ | ⟨leaf,nonzero,rest⟩)
    · exact .self _
    · exact .step (by simp [Graph.ptags,real,nonzero]) nonzero rest
    · exact .step (by simp [Graph.ptags,real,leaf]) nonzero rest

/-- The recursion may stop at a red delta: below the current one the red set is closed. -/
theorem sccs_color_spec (red : Nat → Bool) (d : Nat)
    (real : d ≠ 0 → s.tag d = false) (closed : ClosedTo s.parents d red) :
    ∃ after, sccs_color s red d = .ok after ∧
      ∀ x, after x = true ↔ red x = true ∨ (d ≠ 0 ∧ Reach s.parents d x) := by
  induction d using Nat.strongRecOn generalizing red with
  | _ d ih =>
    unfold sccs_color
    by_cases zero : d = 0
    · exact ⟨red,by rw [dif_pos (.inl zero)],by simp [zero]⟩
    by_cases already : red d = true
    · refine ⟨red,by rw [dif_pos (.inr already)],fun x => ?_⟩
      constructor
      · exact .inl
      · rintro (old | ⟨-,reached⟩)
        · exact old
        · exact closed.reach s.parents_descending (Nat.le_refl d) already reached
    rw [dif_neg (by grind only),if_neg (by rw [real zero]; decide)]
    have mergeBelow := s.merge_lt d zero
    have parentBelow := s.parent_lt d zero
    -- the merge parent first, with `d` already red
    obtain ⟨middle,ranMerge,middleSpec⟩ : ∃ middle, (if s.merge d = 0 then .ok (mark red d)
          else sccs_color s (mark red d) (s.merge d)) = .ok middle ∧
        ∀ x, middle x = true ↔
          mark red d x = true ∨ (s.merge d ≠ 0 ∧ Reach s.parents (s.merge d) x) := by
      by_cases none : s.merge d = 0
      · exact ⟨mark red d,by rw [if_pos none],by simp [none]⟩
      · rw [if_neg none]
        exact ih (s.merge d) mergeBelow (mark red d) (fun _ => s.merge_real d (real zero) none)
          (mark_closed (closed.mono (by omega)) mergeBelow)
    have middleClosed : ClosedTo s.parents (s.parent d) middle := by
      have marked : ClosedTo s.parents (s.parent d) (mark red d) :=
        mark_closed (closed.mono (by omega)) parentBelow
      by_cases none : s.merge d = 0
      · have unchanged : middle = mark red d := by
          funext x
          have spec := middleSpec x
          rw [Bool.eq_iff_iff,spec]
          simp [none]
        rwa [unchanged]
      · exact marked.union_reach (d := s.merge d) (fun x => by rw [middleSpec x]; simp [none])
    obtain ⟨after,ranParent,afterSpec⟩ := ih (s.parent d) parentBelow middle
      (fun root => s.parent_real d (real zero) root) middleClosed
    refine ⟨after,by rw [ranMerge]; exact ranParent,fun x => ?_⟩
    rw [afterSpec x,middleSpec x,mark_true,reach_parents s.toGraph d x zero]
    grind only

theorem sccs_tagcolor_spec (flags : Flags) (d : Nat) (zero : d ≠ 0)
    (closed : ClosedTo s.ptags d flags.blue) :
    (∀ x, (sccs_tagcolor s flags d).blue x = true ↔ flags.blue x = true ∨ Reach s.ptags d x) ∧
      ((∀ x, x ≤ d → flags.blue x = true → flags.red x = true) →
        ∀ x, (sccs_tagcolor s flags d).red x = true ↔ flags.red x = true ∨ Reach s.ptags d x) := by
  induction d using Nat.strongRecOn generalizing flags with
  | _ d ih =>
    unfold sccs_tagcolor
    by_cases already : flags.blue d = true
    · rw [dif_pos (.inr already)]
      have covered : ∀ x, Reach s.ptags d x → flags.blue x = true := fun x reached =>
        closed.reach s.ptags_descending (Nat.le_refl d) already reached
      refine ⟨fun x => ⟨.inl,?_⟩, fun painted x => ⟨.inl,?_⟩⟩
      · rintro (old | reached)
        · exact old
        · exact covered x reached
      · rintro (old | reached)
        · exact old
        · exact painted x (reached.le s.ptags_descending) (covered x reached)
    rw [dif_neg (by grind only)]
    have ptagBelow := s.ptag_lt d zero
    have mtagBelow := s.mtag_lt d zero
    let flags1 : Flags := { flags with blue := mark flags.blue d }
    by_cases leaf : s.ptag d = 0
    · simp only [if_pos leaf,if_pos (.inl leaf : s.ptag d = 0 ∨ s.mtag d = 0)]
      refine ⟨fun x => ?_, fun _ x => ?_⟩
      · rw [mark_true,reach_ptags s.toGraph d x zero]
        grind only
      · rw [mark_true,reach_ptags s.toGraph d x zero]
        grind only
    let flags2 : Flags := sccs_tagcolor s flags1 (s.ptag d)
    have closed1 : ∀ bound, bound < d → ClosedTo s.ptags bound flags1.blue := fun bound below =>
      mark_closed (closed.mono (by omega)) below
    obtain ⟨blue2,red2⟩ := ih (s.ptag d) ptagBelow flags1 leaf (closed1 _ ptagBelow)
    have start1 : (∀ x, x ≤ d → flags.blue x = true → flags.red x = true) →
        ∀ x, x < d → flags1.blue x = true → flags1.red x = true := by
      intro painted x below marked
      rcases (mark_true flags.blue d x).mp marked with same | old
      · omega
      · exact painted x (by omega) old
    by_cases single : s.mtag d = 0
    · simp only [if_neg leaf,if_pos (.inr single : s.ptag d = 0 ∨ s.mtag d = 0)]
      refine ⟨fun x => ?_, fun painted x => ?_⟩
      · rw [blue2 x,mark_true,reach_ptags s.toGraph d x zero]
        grind only
      · rw [mark_true,red2 (fun y below => start1 painted y (by omega)) x,
          reach_ptags s.toGraph d x zero]
        grind only
    have pair : ¬ (s.ptag d = 0 ∨ s.mtag d = 0) := by grind only
    simp only [if_neg leaf,if_neg pair]
    have closed2 : ClosedTo s.ptags (s.mtag d) flags2.blue := (closed1 _ mtagBelow).union_reach blue2
    obtain ⟨blue3,red3⟩ := ih (s.mtag d) mtagBelow flags2 single closed2
    refine ⟨fun x => ?_, fun painted x => ?_⟩
    · rw [blue3 x,blue2 x,mark_true,reach_ptags s.toGraph d x zero]
      grind only
    have red2' := red2 (fun y below => start1 painted y (by omega))
    have start2 : ∀ y, y ≤ s.mtag d → flags2.blue y = true → flags2.red y = true := by
      intro y below marked
      rw [red2' y]
      rcases (blue2 y).mp marked with old | reached
      · exact .inl (start1 painted y (by omega) old)
      · exact .inr reached
    rw [mark_true,red3 start2 x,red2' x,reach_ptags s.toGraph d x zero]
    grind only

def refKey (s : CsetFile K) (d : Nat) : Option K := if d = 0 then none else some (s.key d)

structure SameDelta (A B : CsetFile K) (a b : Nat) : Prop where
  tag : A.tag a = B.tag b
  parent : refKey A (A.parent a) = refKey B (B.parent b)
  merge : refKey A (A.merge a) = refKey B (B.merge b)
  ptag : refKey A (A.ptag a) = refKey B (B.ptag b)
  mtag : refKey A (A.mtag a) = refKey B (B.mtag b)

structure Agree (A B : CsetFile K) : Prop where
  root : A.key (sccs_ino A) = B.key (sccs_ino B)
  same : ∀ a ∈ A.serials, ∀ b ∈ B.serials, A.key a = B.key b → SameDelta A B a b

variable {a b : Nat}

theorem SameDelta.symm {A B : CsetFile K} (same : SameDelta A B a b) : SameDelta B A b a :=
  ⟨same.tag.symm,same.parent.symm,same.merge.symm,same.ptag.symm,same.mtag.symm⟩

theorem Agree.symm {A B : CsetFile K} (agree : Agree A B) : Agree B A :=
  ⟨agree.root.symm,fun b inB a inA same => (agree.same a inA b inB same.symm).symm⟩

variable (A B : CsetFile K)

theorem refKey_transport (e f : Nat) (same : refKey A e = refKey B f)
    (real : e ≠ 0) : f ≠ 0 ∧ A.key e = B.key f := by
  unfold refKey at same
  rw [if_neg real] at same
  split at same
  · cases same
  next zero =>
    exact ⟨zero,Option.some.inj same⟩

theorem below_inside (s : Graph) (d e : Nat) (inside : d ∈ s.serials) (below : e < d)
    (real : e ≠ 0) : e ∈ s.serials := by
  have bounds := (s.mem_serials d).mp inside
  exact (s.mem_serials e).mpr ⟨real,by omega⟩

variable {A B}

theorem reach_agreed (agree : Agree A B) {nextA nextB : Nat → List Nat}
    (downA : ∀ d e, e ∈ nextA d → e ≠ 0 → e < d) (downB : ∀ d e, e ∈ nextB d → e ≠ 0 → e < d)
    (edges : ∀ d d', d ≠ 0 → d' ≠ 0 → SameDelta A B d d' → ∀ e ∈ nextA d, ∃ f ∈ nextB d',
      refKey A e = refKey B f)
    {x : Nat} (inA : a ∈ A.serials) (inB : b ∈ B.serials) (same : A.key a = B.key b)
    (reached : Reach nextA a x) :
    ∃ y, Reach nextB b y ∧ y ∈ B.serials ∧ A.key x = B.key y := by
  refine Dag.reach_transport (P := (· ∈ A.serials)) (Q := (· ∈ B.serials)) ?_ ?_ inA inB same reached
  · intro d e inside edge real
    exact below_inside A.toGraph d e inside (downA d e edge real) real
  intro d d' inside inside' sameKey e edge real
  obtain ⟨f,edge',sameRef⟩ := edges d d' ((A.mem_serials d).mp inside).1
    ((B.mem_serials d').mp inside').1
    (agree.same d inside d' inside' sameKey) e edge
  obtain ⟨realB,sameEdge⟩ := refKey_transport A B _ _ sameRef real
  exact ⟨f,edge',realB,below_inside B.toGraph d' f inside' (downB d' f edge' realB) realB,sameEdge⟩

theorem parents_transport (agree : Agree A B) {x : Nat} (inA : a ∈ A.serials) (inB : b ∈ B.serials)
    (same : A.key a = B.key b) (reached : Reach A.parents a x) :
    ∃ y, Reach B.parents b y ∧ y ∈ B.serials ∧ A.key x = B.key y := by
  refine reach_agreed agree A.parents_descending B.parents_descending ?_ inA inB same reached
  intro d d' ne ne' delta e edge
  simp only [Graph.parents,if_neg ne,mem_cons,not_mem_nil,or_false] at edge
  rcases edge with rfl | rfl
  · exact ⟨B.merge d',by simp [Graph.parents,ne'],delta.merge⟩
  · exact ⟨B.parent d',by simp [Graph.parents,ne'],delta.parent⟩

theorem ptags_transport (agree : Agree A B) {x : Nat} (inA : a ∈ A.serials) (inB : b ∈ B.serials)
    (same : A.key a = B.key b) (reached : Reach A.ptags a x) :
    ∃ y, Reach B.ptags b y ∧ y ∈ B.serials ∧ A.key x = B.key y := by
  refine reach_agreed agree A.ptags_descending B.ptags_descending ?_ inA inB same reached
  intro d d' ne ne' delta e edge
  by_cases leaf : A.ptag d = 0
  · simp [Graph.ptags,leaf] at edge
  obtain ⟨leaf',_⟩ := refKey_transport A B _ _ delta.ptag leaf
  simp only [Graph.ptags,if_neg ne,if_neg leaf,mem_cons,not_mem_nil,or_false] at edge
  rcases edge with rfl | rfl
  · exact ⟨B.ptag d',by simp [Graph.ptags,ne',leaf'],delta.ptag⟩
  · exact ⟨B.mtag d',by simp [Graph.ptags,ne',leaf'],delta.mtag⟩

end BitKeeper.SyncKeys
