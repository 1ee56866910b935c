import BitKeeper.Smerge.Model

/-!
The regions as an ordered exact cover of the four files: what stands between two regions has the
same sequence numbers on every side.
-/

namespace BitKeeper.Smerge

open List Function

variable {T : Type} (f : Files T) {side : Side} {i : Nat}

theorem Files.seqAt_inside (inside : i < f.n side) :
    f.seqAt side i = ((f.body side).get ⟨i,inside⟩).seq := by
  unfold Files.seqAt
  rw [getElem?_eq_getElem inside]
  rfl

theorem Files.seqAt_outside (outside : f.n side ≤ i) : f.seqAt side i = eof := by
  unfold Files.seqAt
  rw [getElem?_eq_none outside]

theorem Files.seqAt_lt_eof (inside : i < f.n side) : f.seqAt side i < eof := by
  rw [f.seqAt_inside inside]
  exact (f.numbered side _ (get_mem _ _)).2

theorem Files.seqAt_ne_zero (side : Side) (i : Nat) : f.seqAt side i ≠ 0 := by
  by_cases inside : i < f.n side
  · rw [f.seqAt_inside inside]
    exact (f.numbered side _ (get_mem _ _)).1
  · rw [f.seqAt_outside (by omega)]
    decide

theorem Files.seqAt_le_eof (side : Side) (i : Nat) : f.seqAt side i ≤ eof := by
  by_cases inside : i < f.n side
  · exact Nat.le_of_lt (f.seqAt_lt_eof inside)
  · rw [f.seqAt_outside (by omega)]

variable {j : Nat}

theorem Files.seqAt_strict (less : i < j) (inside : j ≤ f.n side) :
    f.seqAt side i < f.seqAt side j := by
  rcases Nat.lt_or_eq_of_le inside with inner | last
  · have first : i < f.n side := by omega
    rw [f.seqAt_inside first,f.seqAt_inside inner]
    exact pairwise_iff_get.mp (f.increasing side) ⟨i,first⟩ ⟨j,inner⟩ less
  · rw [f.seqAt_outside (le_of_eq last.symm)]
    exact f.seqAt_lt_eof (by omega)

theorem Files.seqAt_mono (le : i ≤ j) (inside : j ≤ f.n side) : f.seqAt side i ≤ f.seqAt side j := by
  rcases Nat.lt_or_eq_of_le le with less | same
  · exact Nat.le_of_lt (f.seqAt_strict less inside)
  · rw [same]

theorem Files.seqAt_inj (insideI : i ≤ f.n side) (insideJ : j ≤ f.n side)
    (same : f.seqAt side i = f.seqAt side j) : i = j := by
  rcases lt_trichotomy i j with less | equal | greater
  · have strict := f.seqAt_strict less insideJ
    omega
  · exact equal
  · have strict := f.seqAt_strict greater insideI
    omega

def Common (mk upto : Marks) : Prop :=
  ∃ k, (∀ side, upto side = mk side + k) ∧ (∀ side, upto side ≤ f.n side) ∧
    ∀ j, j < k → ∀ side, f.seqAt side (mk side + j) = f.seqAt .gca (mk .gca + j)

/-- The regions and the common lines between them are all up to `upto`. -/
def Cover (upto : Marks) : Marks → List (Region T) → Prop
  | mk, [] => Common f mk upto
  | mk, c :: next =>
    Common f mk c.start ∧ (∀ side, c.start side ≤ c.end_ side) ∧ Cover upto c.end_ next

def Twin (a b : Side) (c : Region T) : Prop := c.start a = c.start b ∧ c.end_ a = c.end_ b

variable {f} {mk upto : Marks}

theorem Common.le (common : Common f mk upto) (side : Side) : mk side ≤ upto side := by
  obtain ⟨k,ends,_,_⟩ := common
  have here := ends side
  omega

theorem Common.inside (common : Common f mk upto) (side : Side) : upto side ≤ f.n side := by
  obtain ⟨_,_,inside,_⟩ := common
  exact inside side

theorem Common.refl (inside : ∀ side, mk side ≤ f.n side) : Common f mk mk :=
  ⟨0,fun _ => rfl, inside,fun _ low => absurd low (Nat.not_lt_zero _)⟩

theorem Common.twin (common : Common f mk upto) {a b : Side} (same : mk a = mk b) :
    upto a = upto b := by
  obtain ⟨k,ends,_,_⟩ := common
  rw [ends a,ends b,same]

theorem Common.shift (common : Common f mk upto) (low : j ≤ upto .gca - mk .gca) :
    Common f (fun side => mk side + j) upto := by
  obtain ⟨k,ends,inside,same⟩ := common
  have length := ends .gca
  refine ⟨k - j,?_,inside,?_⟩
  · intro side
    have here := ends side
    dsimp only
    omega
  · intro i less side
    have here := same (j + i) (by omega) side
    rwa [← Nat.add_assoc,← Nat.add_assoc] at here

theorem Cover.inside {regions : List (Region T)} (cover : Cover f upto mk regions) (side : Side) :
    mk side ≤ f.n side := by
  cases regions with
  | nil => exact Nat.le_trans (Common.le cover side) (Common.inside cover side)
  | cons c next => exact Nat.le_trans (cover.1.le side) (cover.1.inside side)

theorem Cover.le {regions : List (Region T)} (cover : Cover f upto mk regions) (side : Side) :
    mk side ≤ upto side := by
  induction regions generalizing mk with
  | nil => exact Common.le cover side
  | cons c next ih => exact (cover.1.le side).trans ((cover.2.1 side).trans (ih cover.2.2))

theorem Cover.shift {c : Region T} {next : List (Region T)} (cover : Cover f f.n c.end_ next)
    (low : j ≤ gapAfter f c next) : Cover f f.n (fun side => c.end_ side + j) next := by
  cases next with
  | nil => exact Common.shift cover low
  | cons d rest => exact ⟨cover.1.shift low,cover.2⟩

theorem matching_spec (mk : Marks) (len j : Nat) :
    j ≤ matching f mk len j ∧ matching f mk len j ≤ j + len ∧
      (∀ i, j ≤ i → i < matching f mk len j → ∀ side,
        f.seqAt side (mk side + i) = f.seqAt .gca (mk .gca + i)) ∧
      (matching f mk len j < j + len → ∃ side,
        f.seqAt side (mk side + matching f mk len j) ≠ f.seqAt .left
          (mk .left + matching f mk len j)) := by
  induction len generalizing j with
  | zero =>
    refine ⟨Nat.le_refl j,Nat.le_refl j,?_,?_⟩
    · intro i low high
      exact absurd high (Nat.not_lt.mpr low)
    · intro less
      exact absurd less (Nat.lt_irrefl j)
  | succ len ih =>
    rw [matching]
    split
    · rename_i equal
      obtain ⟨low,high,same,differ⟩ := ih (j + 1)
      refine ⟨by omega,by omega,?_,?_⟩
      · intro i above below side
        rcases Nat.lt_or_eq_of_le above with later | here
        · exact same i later below side
        subst here
        obtain ⟨right,gca,gcar⟩ := equal
        cases side with
        | left => exact gca
        | right => exact right.symm.trans gca
        | gca => rfl
        | gcar => exact gcar.symm.trans gca
      · intro less
        exact differ (by omega)
    · rename_i different
      refine ⟨Nat.le_refl j,by omega,?_,?_⟩
      · intro i low high
        exact absurd high (Nat.not_lt.mpr low)
      · intro _
        by_contra none
        simp only [not_exists,not_not] at none
        exact different ⟨(none .right).symm,(none .gca).symm,(none .gcar).symm⟩

private theorem minlen_le (mk : Marks) (side : Side) : minlen f mk ≤ f.n side - mk side := by
  unfold minlen
  cases side <;> omega

theorem minlen_reached (mk : Marks) : ∃ side, minlen f mk = f.n side - mk side := by
  unfold minlen
  rcases Nat.le_total (min (f.n .left - mk .left) (f.n .right - mk .right))
      (min (f.n .gca - mk .gca) (f.n .gcar - mk .gcar)) with first | second
  · rw [Nat.min_eq_left first]
    rcases Nat.le_total (f.n .left - mk .left) (f.n .right - mk .right) with left | right
    · exact ⟨.left,Nat.min_eq_left left⟩
    · exact ⟨.right,Nat.min_eq_right right⟩
  · rw [Nat.min_eq_right second]
    rcases Nat.le_total (f.n .gca - mk .gca) (f.n .gcar - mk .gcar) with left | right
    · exact ⟨.gca,Nat.min_eq_left left⟩
    · exact ⟨.gcar,Nat.min_eq_right right⟩

theorem takeWhile_stops {α : Type} (p : α → Bool) (l : List α) (a : α)
    (found : l[(l.takeWhile p).length]? = some a) : p a = false := by
  induction l with
  | nil => cases found
  | cons b rest ih =>
    cases test : p b with
    | false =>
      rw [takeWhile_cons_of_neg (by simp [test])] at found
      rwa [← Option.some.inj found]
    | true =>
      rw [takeWhile_cons_of_pos test,length_cons,getElem?_cons_succ] at found
      exact ih found

private theorem catchUp_spec (maxseq : Nat) (inside : i ≤ f.n side) (low : maxseq ≤ eof) :
    i ≤ catchUp f side maxseq i ∧ catchUp f side maxseq i ≤ f.n side ∧
      maxseq ≤ f.seqAt side (catchUp f side maxseq i) := by
  unfold catchUp
  have length : ((f.body side).drop i).length = f.n side - i := length_drop
  have bound : (((f.body side).drop i).takeWhile (fun line => decide (line.seq < maxseq))).length ≤
      f.n side - i := by
    rw [← length]
    exact ( takeWhile_prefix _).length_le
  refine ⟨Nat.le_add_right _ _,by omega,?_⟩
  unfold Files.seqAt
  rw [← getElem?_drop]
  cases found : ((f.body side).drop i)[(((f.body side).drop i).takeWhile
      (fun line => decide (line.seq < maxseq))).length]? with
  | none => exact low
  | some line =>
    have stopped := takeWhile_stops _ _ line found
    simpa using stopped

theorem catchUpAll_spec (sides : List Side) (maxseq : Nat) (low : maxseq ≤ eof) (mk : Marks)
    (inside : ∀ side, mk side ≤ f.n side) :
    (∀ side, mk side ≤ catchUpAll f sides maxseq mk side ∧ catchUpAll f sides maxseq mk side ≤
      f.n side) ∧
      ∀ side ∈ sides, maxseq ≤ f.seqAt side (catchUpAll f sides maxseq mk side) := by
  induction sides generalizing maxseq mk with
  | nil => exact ⟨fun side => ⟨le_rfl,inside side⟩, by simp⟩
  | cons first rest ih =>
    rw [catchUpAll]
    obtain ⟨up,bound,reached⟩ := catchUp_spec maxseq (inside first) low
    have highest : max maxseq (f.seqAt first (catchUp f first maxseq (mk first))) ≤ eof :=
      Nat.max_le.mpr ⟨low,f.seqAt_le_eof _ _⟩
    have moved : ∀ side, mk side ≤ update mk first (catchUp f first maxseq (mk first)) side ∧
        update mk first (catchUp f first maxseq (mk first)) side ≤ f.n side := by
      intro side
      by_cases same : side = first
      · subst same
        rw [update_self]
        exact ⟨up,bound⟩
      · rw [update_of_ne same]
        exact ⟨le_rfl,inside side⟩
    obtain ⟨range,above⟩ := ih _ highest _ (fun side => (moved side).2)
    refine ⟨fun side => ⟨Nat.le_trans (moved side).1 (range side).1,(range side).2⟩, ?_⟩
    intro side member
    rcases mem_cons.mp member with rfl | later
    · have here := (range side).1
      rw [update_self] at here
      exact Nat.le_trans reached (f.seqAt_mono here (range side).2)
    · exact Nat.le_trans (Nat.le_max_left _ _) (above side later)

def remaining (f : Files T) (mk : Marks) : Nat :=
  (f.n .left - mk .left) + (f.n .right - mk .right) + (f.n .gca - mk .gca) + (f.n .gcar - mk .gcar)

theorem remaining_lt {mk' : Marks} (up : ∀ side, mk side ≤ mk' side ∧ mk' side ≤ f.n side)
    (moved : mk side < mk' side) : remaining f mk' < remaining f mk := by
  have left := up .left
  have right := up .right
  have gca := up .gca
  have gcar := up .gcar
  unfold remaining
  cases side <;> omega

theorem mem_all (side : Side) : side ∈ Side.all := by cases side <;> decide

theorem all_sides (p : Side → Bool) : Side.all.all p = true ↔ ∀ side, p side = true := by
  rw [all_eq_true]
  exact ⟨fun all side => all side (mem_all side), fun all side _ => all side⟩

private theorem findEnd_spec (fuel : Nat) (mk : Marks) (inside : ∀ side, mk side ≤ f.n side)
    (enough : remaining f mk < fuel) :
    ∃ mk', findEnd f fuel mk = .ok mk' ∧ (∀ side, mk side ≤ mk' side ∧ mk' side ≤ f.n side) ∧
      ∀ side, f.seqAt side (mk' side) = f.seqAt .left (mk' .left) := by
  induction fuel generalizing mk with
  | zero => exact absurd enough (Nat.not_lt_zero _)
  | succ fuel ih =>
    rw [findEnd]
    generalize top : Side.all.foldl (fun maxseq side => max maxseq (f.seqAt side (mk side)))
      0 = maxseq
    have largest : maxseq ≤ eof ∧ ∀ side, f.seqAt side (mk side) ≤ maxseq := by
      have left := f.seqAt_le_eof .left (mk .left)
      have right := f.seqAt_le_eof .right (mk .right)
      have gca := f.seqAt_le_eof .gca (mk .gca)
      have gcar := f.seqAt_le_eof .gcar (mk .gcar)
      simp only [Side.all,foldl_cons,foldl_nil] at top
      refine ⟨by omega,?_⟩
      intro side
      cases side <;> omega
    obtain ⟨range,above⟩ := catchUpAll_spec Side.all maxseq largest.1 mk inside
    generalize catchUpAll f Side.all maxseq mk = mk' at range above ⊢
    split
    next still =>
      refine ⟨mk',rfl,range,?_⟩
      rw [all_sides] at still
      have level : ∀ side, f.seqAt side (mk' side) = maxseq := by
        intro side
        have here := above side (mem_all side)
        rw [of_decide_eq_true (still side)] at here ⊢
        exact Nat.le_antisymm (largest.2 side) here
      intro side
      rw [level,level]
    next still =>
      rw [all_sides,not_forall] at still
      obtain ⟨side,moved⟩ := still
      have strict : mk side < mk' side := by
        have up := (range side).1
        have different : mk' side ≠ mk side := fun same => moved (beq_iff_eq.mpr same)
        omega
      obtain ⟨last,found,further,level⟩ := ih mk' (fun side => (range side).2)
        (by have less := remaining_lt range strict; omega)
      exact ⟨last,found,fun side => ⟨Nat.le_trans (range side).1 (further side).1,(further side).2⟩,
        level⟩

structure New (f : Files T) (c : Region T) : Prop where
  nonempty : ∃ side, c.start side < c.end_ side
  twins : ∀ a b, f.body a = f.body b → Twin a b c
  start_seq : c.start_seq ≤ f.seqAt .gca (c.start .gca)
  end_seq : c.end_seq ≠ 0
  merged : c.merged = none
  split : c.split = false

def Level (f : Files T) (mk : Marks) : Prop :=
  ∀ side, f.seqAt side (mk side) = f.seqAt .left (mk .left)

theorem Level.twin (level : Level f mk) (inside : ∀ side, mk side ≤ f.n side) {a b : Side}
    (sameBody : f.body a = f.body b) : mk a = mk b := by
  have equal := (level a).trans (level b).symm
  have length : f.n a = f.n b := congrArg List.length sameBody
  have seqs : f.seqAt b (mk b) = f.seqAt a (mk b) := by
    unfold Files.seqAt
    rw [sameBody]
  rw [seqs] at equal
  exact f.seqAt_inj (inside a) (by rw [length]; exact inside b) equal

theorem Level.at_end (level : Level f mk) (last : Side) (ended : mk last = f.n last) (side : Side) :
    f.n side ≤ mk side := by
  have equal := (level side).trans (level last).symm
  rw [ended,f.seqAt_outside le_rfl] at equal
  by_contra before
  have real : f.seqAt side (mk side) < eof := f.seqAt_lt_eof (by omega)
  omega

theorem matching_not_level (inside : ∀ side, mk side ≤ f.n side)
    (level : Level f (fun side => mk side + matching f mk (minlen f mk) 0)) (side : Side) :
    f.n side ≤ mk side + matching f mk (minlen f mk) 0 := by
  obtain ⟨_,high,_,differ⟩ := matching_spec (f := f) mk (minlen f mk) 0
  rw [Nat.zero_add] at high differ
  rcases Nat.lt_or_eq_of_le high with less | reached
  · obtain ⟨other,different⟩ := differ less
    exact absurd (level other) different
  · obtain ⟨last,short⟩ := minlen_reached (f := f) mk
    apply level.at_end last
    have here := inside last
    omega

theorem findLoop_spec (fuel : Nat) (mk : Marks) (inside : ∀ side, mk side ≤ f.n side)
    (twins : ∀ a b, f.body a = f.body b → mk a = mk b) (begins : Level f mk ∨ mk .left = 0)
    (enough : remaining f mk < fuel) :
    ∃ regions, findLoop f fuel mk = .ok regions ∧ Cover f f.n mk regions ∧ ∀ c ∈ regions, New f c :=
  by
  induction fuel generalizing mk with
  | zero => exact absurd enough (Nat.not_lt_zero _)
  | succ fuel ih =>
    rw [findLoop]
    obtain ⟨_,high,same,_⟩ := matching_spec (f := f) mk (minlen f mk) 0
    have stops := matching_not_level inside
    generalize matching f mk (minlen f mk) 0 = j at high same stops ⊢
    have within : ∀ side, mk side + j ≤ f.n side := by
      intro side
      have short := minlen_le (f := f) mk side
      have here := inside side
      omega
    have common : Common f mk (fun side => mk side + j) :=
      ⟨j,fun _ => rfl, within,fun i less side => same i (Nat.zero_le i) less side⟩
    split
    next done =>
      refine ⟨[],rfl,?_,by simp⟩
      rw [all_sides] at done
      have whole : (fun side => mk side + j) = f.n := by
        funext side
        exact Nat.le_antisymm (within side) (of_decide_eq_true (done side))
      rwa [whole] at common
    rename_i done
    rw [all_sides] at done
    have before : (if mk .left + j > 0 then f.seqAt .left (mk .left + j - 1) else 0) ≤
        f.seqAt .gca (mk .gca + j) := by
      rcases Nat.eq_zero_or_pos j with rfl | some_
      · have first : mk .left = 0 :=
          begins.resolve_left (fun level => done (fun side => decide_eq_true (stops level side)))
        rw [if_neg (by omega)]
        exact Nat.zero_le _
      · have last := same (j - 1) (Nat.zero_le _) (by omega) .left
        have strict := f.seqAt_strict (show mk .gca + (j - 1) < mk .gca + j by omega) (within .gca)
        rw [if_pos (by omega),show mk .left + j - 1 = mk .left + (j - 1) by omega,last]
        omega
    have fewer : remaining f (fun side => mk side + j) ≤ remaining f mk := by
      unfold remaining
      dsimp only
      omega
    have all : remaining f mk ≤ f.size := by
      unfold remaining Files.size
      omega
    obtain ⟨mk',found,range,level⟩ := findEnd_spec (f.size + 1) (fun side => mk side + j) within
      (by omega)
    have moved : ∃ side, mk side + j < mk' side := by
      by_contra none
      have still : mk' = fun side => mk side + j := by
        funext side
        have stay : ¬ mk side + j < mk' side := fun less => none ⟨side,less⟩
        exact Nat.le_antisymm (Nat.not_lt.mp stay) (range side).1
      rw [still] at level
      exact done (fun side => decide_eq_true (stops level side))
    have twin : ∀ a b, f.body a = f.body b → mk' a = mk' b :=
      fun a b sameBody => Level.twin level (fun side => (range side).2) sameBody
    obtain ⟨regions,rest,cover,new⟩ := ih mk' (fun side => (range side).2) twin (.inl level) (by
      obtain ⟨side,strict⟩ := moved
      have less : remaining f mk' < remaining f (fun side => mk side + j) := remaining_lt range strict
      omega)
    have checked : f.seqAt .left (mk' .left) ≠ 0 ∧
        Side.all.all (fun side => f.seqAt .left (mk' .left) == f.seqAt side (mk' side)) = true :=
      ⟨f.seqAt_ne_zero _ _,(all_sides _).mpr (fun side => beq_iff_eq.mpr (level side).symm)⟩
    have made : conflictAt f (fun side => mk side + j) mk' = .ok
        { start := fun side => mk side + j, end_ := mk'
          start_seq := if mk .left + j > 0 then f.seqAt .left (mk .left + j - 1) else 0
          end_seq := f.seqAt .left (mk' .left)
          merged := none, split := false, algos := [] } := if_pos checked
    rw [found,Except.bind,made,Except.bind,rest]
    refine ⟨_,rfl,⟨common,fun side => (range side).1, cover⟩, ?_⟩
    intro c member
    rcases mem_cons.mp member with rfl | later
    · exact ⟨moved,fun a b sameBody => ⟨common.twin (twins a b sameBody),twin a b sameBody⟩,
        before,checked.1,rfl,rfl⟩
    · exact new c later

theorem find_conflicts_spec (f : Files T) :
    ∃ regions, find_conflicts f = .ok regions ∧ Cover f f.n (fun _ => 0) regions ∧ ∀ c ∈ regions,
      New f c := by
  apply findLoop_spec
  · intro side
    exact Nat.zero_le _
  · intro a b _
    rfl
  · exact .inr rfl
  · unfold remaining Files.size
    omega

end BitKeeper.Smerge
