import BitKeeper.Smerge.Cover

/-!
What a merge function can do to the head of the list: fill in the merge, join the next region, split,
or take common lines from below.
-/

namespace BitKeeper.Smerge

open List Function

variable {T : Type} {f : Files T}

structure Placed (f : Files T) (c : Region T) : Prop where
  ordered : ∀ side, c.start side ≤ c.end_ side
  inside : ∀ side, c.end_ side ≤ f.n side
  twin : Twin .gca .gcar c

def Live (c : Region T) : Prop := 0 < c.len .left ∨ 0 < c.len .right

def splitHead (f : Files T) (c : Region T) (idx : Marks) : Region T := { c with
    end_ := fun side => c.start side + idx side
    end_seq := f.seqAt .gca (c.start .gca + idx .gca)
    split := true }

def splitTail (f : Files T) (c : Region T) (idx : Marks) : Region T :=
  { start := fun side => c.start side + idx side, end_ := c.end_
    start_seq := f.seqAt .gca (c.start .gca + idx .gca), end_seq := c.end_seq
    merged := none, split := false, algos := [] }

/-- Where a region is split. Both parts have lines, but for a region with lines in the GCA alone, of
which all are left to the second part. -/
structure SplitAt (fcn : MergeFcn) (c : Region T) (idx : Marks) : Prop where
  inside : ∀ side, idx side ≤ c.len side
  twin : idx .gca = idx .gcar
  shrinks : ∃ side, idx side < c.len side
  leaves : (0 < idx .left ∨ 0 < idx .right) ∨
    (fcn = .merge_common_deletes ∧ ¬ Live c ∧ ∀ side, idx side = 0)

inductive Move (f : Files T) (fcn : MergeFcn) (c : Region T) :
    List (Region T) → Region T → List (Region T) → Prop where
  | merged (next : List (Region T)) (lines : List (Line T))
      (origin : fcn = .merge_content ∨ lines = c.lines f .left ∨ lines = c.lines f .right) :
      Move f fcn c next { c with merged := some lines } next
  | joined (tmp : Region T) (rest : List (Region T)) (whole : c.split = false) :
      Move f fcn c (tmp :: rest) { c with end_ := tmp.end_, end_seq := tmp.end_seq } rest
  | split (next : List (Region T)) (idx : Marks) (at_ : SplitAt fcn c idx) :
      Move f fcn c next (splitHead f c idx) (splitTail f c idx :: next)
  | extended (next : List (Region T)) (j : Nat) (following : fcn = .merge_with_following_gca)
      (some_ : j ≠ 0)
      (below : j ≤ gapAfter f c next)
      (oneSided : c.len .left = 0 ∧ c.len .right ≠ 0 ∨ c.len .right = 0 ∧ c.len .left ≠ 0) :
      Move f fcn c next { c with end_ := fun side => c.end_ side + j
                                 end_seq := f.seqAt .gca (c.end_ .gca + j) } next

variable (c : Region T)

theorem lines_length (side : Side) : (c.lines f side).length ≤ c.len side := by
  exact length_take_le _ _

theorem texts_length [DecidableEq T] (side : Side) : (c.texts f side).length ≤ c.len side := by
  unfold Region.texts
  rw [length_map]
  exact lines_length c side

theorem split_conflict_ok (next : List (Region T)) (idx : Marks) :
    split_conflict f c next idx = .ok (some (splitHead f c idx, splitTail f c idx :: next)) := by
  exact if_neg (f.seqAt_ne_zero _ _)

theorem commonStart_le [DecidableEq T] (ls rs gs : List T) (chk : Bool) :
    (commonStart ls rs gs chk).1 ≤ ls.length ∧ (commonStart ls rs gs chk).1 ≤ rs.length ∧
      (commonStart ls rs gs chk).2 ≤ gs.length := by
  fun_induction commonStart ls rs gs chk with
  | case1 _ _ _ _ _ ih =>
    exact ⟨Nat.succ_le_succ ih.1,Nat.succ_le_succ ih.2.1,Nat.succ_le_succ ih.2.2⟩
  | case2 _ _ _ _ _ _ _ ih =>
    exact ⟨Nat.succ_le_succ ih.1,Nat.succ_le_succ ih.2.1,Nat.le_succ_of_le ih.2.2⟩
  | case3 _ _ _ _ _ _ _ ih => exact ⟨Nat.succ_le_succ ih.1,Nat.succ_le_succ ih.2.1,ih.2.2⟩
  | case4 => simp
  | case5 => simp

theorem unidiffLoop_deletes (fuel : Nat) (ls rs : List (Line T))
    (del ins : List (DiffChar × Line T)) :
    (unidiffLoop fuel ls rs del ins).countP (fun d => d.1 = .del) ≤
      del.countP (fun d => d.1 = .del) + ins.countP (fun d => d.1 = .del) + ls.length := by
  fun_induction unidiffLoop fuel ls rs del ins with
  | case1 | case2 =>
    rw [countP_append]
    omega
  | case3 | case5 | case7 =>
    simp_all [countP_append]
    omega
  | case4 | case6 => simp_all [countP_append]

theorem deletesAtEnd_le (a b : Side) :
    deletesAtEnd (unidiff f c a b) ≤ c.len a := by
  have counted : deletesAtEnd (unidiff f c a b) ≤ (unidiff f c a b).countP (fun d => d.1 = .del) := by
    unfold deletesAtEnd
    rw [← countP_reverse]
    generalize (unidiff f c a b).reverse = diffs
    have all : (diffs.takeWhile (fun d => decide (d.1 = .del))).countP
      (fun d => decide (d.1 = .del)) =
        (diffs.takeWhile (fun d => decide (d.1 = .del))).length := by
      rw [countP_eq_length]
      intro d member
      exact mem_takeWhile_imp (p := fun d : DiffChar × Line T => decide (d.1 = .del)) member
    rw [← all]
    exact (takeWhile_sublist _).countP_le
  have bounded := unidiffLoop_deletes (c.len a + c.len b) (c.lines f a) (c.lines f b) [] []
  have lines := lines_length (f := f) c a
  unfold unidiff at counted ⊢
  simp only [countP_nil] at bounded
  omega

theorem unidiffLoop_nil (fuel : Nat) (ls : List (Line T)) (del : List (DiffChar × Line T))
    (enough : ls.length ≤ fuel) :
    unidiffLoop fuel ls [] del [] = del ++ ls.map (fun l => (.del, l)) := by
  induction ls generalizing fuel del with
  | nil => cases fuel <;> simp [unidiffLoop]
  | cons l ls ih =>
    cases fuel with
    | zero => cases enough
    | succ fuel =>
      rw [unidiffLoop,ih fuel _ (Nat.le_of_succ_le_succ enough)]
      simp

theorem Placed.lines_length {c : Region T} (placed : Placed f c) (side : Side) :
    (c.lines f side).length = c.len side := by
  have inside : c.end_ side ≤ (f.body side).length := placed.inside side
  unfold Region.lines Region.len
  rw [length_take,length_drop]
  omega

theorem lines_nil {c : Region T} {side : Side} (none : c.len side = 0) : c.lines f side = [] :=
  eq_nil_of_length_eq_zero (Nat.eq_zero_of_le_zero (none ▸ lines_length c side))

theorem deletesAtEnd_all {c : Region T} (placed : Placed f c) (a : Side) {b : Side}
    (none : c.len b = 0) :
    deletesAtEnd (unidiff f c a b) = c.len a := by
  have length := placed.lines_length a
  unfold unidiff deletesAtEnd
  rw [lines_nil none,unidiffLoop_nil _ _ _ (by omega),nil_append,← map_reverse,
    takeWhile_eq_self_iff.mpr (by simp),length_map,length_reverse,length]

section Functions
variable [DecidableEq T] {c : Region T} {next : List (Region T)}

section
variable (placed : Placed f c)
include placed

private theorem header_splitAt {i j : Nat}
    (found : commonStart (c.texts f .left) (c.texts f .right) (c.texts f .gca) true = (i, j))
    (proper : ¬ (i = 0 ∨ i = c.len .left ∧ i = c.len .right)) :
    SplitAt .merge_common_header c (fun side =>
      match side with
      | .left => i
      | .right => i
      | .gca => j
      | .gcar => j) := by
  obtain ⟨inLeft,inRight,inGca⟩ :=
    commonStart_le (c.texts f .left) (c.texts f .right) (c.texts f .gca) true
  rw [found] at inLeft inRight inGca
  have left := texts_length (f := f) c .left
  have right := texts_length (f := f) c .right
  have gca := texts_length (f := f) c .gca
  have twin : c.len .gca = c.len .gcar := by
    unfold Region.len
    rw [placed.twin.1,placed.twin.2]
  refine ⟨?_,rfl,?_,.inl (.inl ?_)⟩
  · intro side
    cases side <;> dsimp only <;> omega
  · by_cases short : i = c.len .left
    · exact ⟨.right,by dsimp only; omega⟩
    · exact ⟨.left,by dsimp only; omega⟩
  · dsimp only
    omega

private theorem footer_splitAt {i j : Nat}
    (found : commonStart (c.texts f .left).reverse (c.texts f .right).reverse
      (c.texts f .gca).reverse true =
      (i, j))
    (proper : ¬ (i = 0 ∨ i = c.len .left ∧ i = c.len .right)) :
    SplitAt .merge_common_footer c (fun side =>
      match side with
      | .left => c.len .left - i
      | .right => c.len .right - i
      | .gca => c.len .gca - j
      | .gcar => c.len .gcar - j) := by
  obtain ⟨inLeft,inRight,_⟩ := commonStart_le (c.texts f .left).reverse (c.texts f .right).reverse
    (c.texts f .gca).reverse true
  rw [found,length_reverse] at inLeft inRight
  have left := texts_length (f := f) c .left
  have right := texts_length (f := f) c .right
  have twin : c.len .gca = c.len .gcar := by
    unfold Region.len
    rw [placed.twin.1,placed.twin.2]
  refine ⟨?_,?_,⟨.left,?_⟩,.inl ?_⟩
  · intro side
    cases side <;> exact Nat.sub_le _ _
  · rw [twin]
  · dsimp only
    omega
  · dsimp only
    omega

omit [DecidableEq T] in
theorem deletes_splitAt {cnt : Nat}
    (found : min (deletesAtEnd (unidiff f c .gca .left)) (deletesAtEnd (unidiff f c .gcar .right)) =
      cnt)
    (proper : cnt ≠ 0) :
    SplitAt .merge_common_deletes c (fun side =>
      match side with
      | .left => c.len .left
      | .right => c.len .right
      | .gca => c.len .gca - cnt
      | .gcar => c.len .gcar - cnt) := by
  have bound := deletesAtEnd_le (f := f) c .gca .left
  have twin : c.len .gca = c.len .gcar := by
    unfold Region.len
    rw [placed.twin.1,placed.twin.2]
  refine ⟨?_,?_,⟨.gca,?_⟩,?_⟩
  · intro side
    cases side <;> dsimp only <;> omega
  · rw [twin]
  · dsimp only
    omega
  · by_cases live : Live c
    · exact .inl live
    have none : c.len .left = 0 ∧ c.len .right = 0 := by
      unfold Live at live
      omega
    rw [deletesAtEnd_all placed .gca none.1,deletesAtEnd_all placed .gcar none.2,twin,min_self]
      at found
    refine .inr ⟨rfl,live,?_⟩
    intro side
    cases side <;> dsimp only <;> omega

omit [DecidableEq T] in
theorem lines_cons {side : Side} (some_ : c.end_ side ≠ c.start side) :
    ∃ line rest, c.lines f side = line :: rest ∧ line.seq = f.seqAt side (c.start side) := by
  have ordered := placed.ordered side
  have inside := placed.inside side
  have first : c.start side < f.n side := by omega
  refine ⟨(f.body side).get ⟨c.start side,first⟩,
    ((f.body side).drop (c.start side + 1)).take (c.end_ side - c.start side - 1),?_,?_⟩
  · unfold Region.lines
    rw [drop_eq_getElem_cons first,take_cons (by omega)]
    rfl
  · rw [f.seqAt_inside first]

omit [DecidableEq T] in
theorem oneside_splitAt {side : Side} (which : side = .left ∨ side = .right)
    (full : ¬ Side.all.any (fun side => c.end_ side == c.start side) = true)
    (before : f.seqAt side (c.start side) < f.seqAt .gca (c.start .gca)) :
    SplitAt .merge_added_oneside c
      (update (fun _ => 0) side (addedBefore f c side (f.seqAt .gca (c.start .gca)))) := by
  have lines : ∀ side, c.end_ side ≠ c.start side := by
    intro side same
    exact full (any_eq_true.mpr ⟨side,mem_all side,beq_iff_eq.mpr same⟩)
  have others : ∀ other, other ≠ side →
      update (fun _ => 0) side (addedBefore f c side (f.seqAt .gca (c.start .gca))) other = 0 :=
    fun other different => update_of_ne different ..
  have bound : addedBefore f c side (f.seqAt .gca (c.start .gca)) ≤ c.len side :=
    Nat.le_trans ( takeWhile_prefix _).length_le (lines_length c side)
  have positive : 0 < addedBefore f c side (f.seqAt .gca (c.start .gca)) := by
    obtain ⟨line,rest,shape,seq⟩ := lines_cons placed (lines side)
    unfold addedBefore
    rw [shape,takeWhile_cons_of_pos (by rw [seq]; exact decide_eq_true before),length_cons]
    exact Nat.succ_pos _
  have gca : side ≠ .gca := by rcases which with rfl | rfl <;> decide
  have gcar : side ≠ .gcar := by rcases which with rfl | rfl <;> decide
  refine ⟨?_,?_,⟨.gca,?_⟩,.inl ?_⟩
  · intro other
    by_cases same : other = side
    · rwa [same,update_self]
    · rw [others other same]
      exact Nat.zero_le _
  · rw [others _ gca.symm,others _ gcar.symm]
  · rw [others _ gca.symm]
    have ordered := placed.ordered .gca
    have some_ := lines .gca
    unfold Region.len
    omega
  · rcases which with rfl | rfl
    · rw [update_self]
      exact .inl positive
    · rw [update_self]
      exact .inr positive

end

private theorem samePrefix_le (as bs : List T) : samePrefix as bs ≤ as.length := by
  fun_induction samePrefix as bs with
  | case1 _ _ _ ih => exact Nat.succ_le_succ ih
  | case2 => exact Nat.zero_le _
  | case3 => exact Nat.zero_le _

omit [DecidableEq T] in
theorem moved {c' : Region T} {next' : List (Region T)} {fcn : MergeFcn}
    (move : Move f fcn c next c' next') :
    ∃ did, Except.ok (ε := Stop) (some (c', next')) = .ok did ∧
      ∀ c' next', did = some (c', next') → Move f fcn c next c' next' := by
  refine ⟨_,rfl,?_⟩
  intro c' next' same
  cases same
  exact move

theorem extendDown_move (side : Side)
    (oneSided : c.len .left = 0 ∧ c.len .right ≠ 0 ∨ c.len .right = 0 ∧ c.len .left ≠ 0) :
    ∃ did, extendDown f c next side = .ok did ∧
      ∀ c' next', did = some (c', next') → Move f .merge_with_following_gca c next c' next' := by
  unfold extendDown
  dsimp only
  generalize prefixed : samePrefix ((c.texts f side).take (min (c.len side) (gapAfter f c next)))
    ((((f.body .gca).drop (c.end_ .gca)).take (min (c.len side) (gapAfter f c next))).map
      Line.text) = j
  have bound : j ≤ gapAfter f c next := by
    have short := samePrefix_le ((c.texts f side).take (min (c.len side) (gapAfter f c next)))
      ((((f.body .gca).drop (c.end_ .gca)).take (min (c.len side) (gapAfter f c next))).map Line.text)
    rw [prefixed] at short
    have taken := length_take_le (min (c.len side) (gapAfter f c next)) (c.texts f side)
    omega
  split
  · exact ⟨none,rfl,by simp⟩
  · rename_i some_
    exact moved (.extended next j rfl some_ bound oneSided)

omit [DecidableEq T] in
theorem split_move (fcn : MergeFcn) (idx : Marks) (at_ : SplitAt fcn c idx) :
    ∃ did, split_conflict f c next idx = .ok did ∧
      ∀ c' next', did = some (c', next') → Move f fcn c next c' next' := by
  rw [split_conflict_ok]
  exact moved (.split next idx at_)

omit [DecidableEq T] in
theorem unmoved (fcn : MergeFcn) :
    ∃ did : Option (Region T × List (Region T)), Except.ok (ε := Stop) none = .ok did ∧
      ∀ c' next', did = some (c', next') → Move f fcn c next c' next' :=
  ⟨none,rfl,by simp⟩

theorem fcn_move (diff_items : List T → List T → List Libdiff.Hunk) (fcn : MergeFcn)
    (placed : Placed f c) (ends : ∀ tmp ∈ c :: next, tmp.end_seq ≠ 0) :
    ∃ did, fcn.fcn f diff_items c next = .ok did ∧
      ∀ c' next', did = some (c', next') → Move f fcn c next c' next' := by
  cases fcn with
  | merge_conflicts =>
    change ∃ did, merge_conflicts f c next = .ok did ∧ _
    cases next with
    | nil => exact unmoved _
    | cons tmp rest =>
      rw [merge_conflicts]
      split
      · exact unmoved _
      rename_i whole
      dsimp only
      split
      · rw [if_neg (ends tmp (by simp))]
        exact moved (.joined tmp _ (Bool.eq_false_iff.mpr whole))
      · exact unmoved _
  | merge_same_changes =>
    rw [MergeFcn.fcn,merge_same_changes]
    split
    · exact moved (.merged next _ (.inr (.inl rfl)))
    · exact unmoved _
  | merge_only_one =>
    rw [MergeFcn.fcn,merge_only_one]
    split
    · exact moved (.merged next _ (.inr (.inr rfl)))
    · split
      · exact moved (.merged next _ (.inr (.inl rfl)))
      · exact unmoved _
  | merge_content =>
    rw [MergeFcn.fcn,merge_content]
    split
    · exact unmoved _
    · dsimp only
      split
      · exact unmoved _
      · exact moved (.merged next _ (.inl rfl))
  | merge_common_header =>
    rw [MergeFcn.fcn,merge_common_header]
    split
    · exact unmoved _
    · rename_i proper
      exact split_move _ _ (header_splitAt placed rfl proper)
  | merge_added_oneside =>
    rw [MergeFcn.fcn,merge_added_oneside]
    split
    · exact unmoved _
    rename_i full
    dsimp only
    split
    · rename_i before
      exact split_move _ _ (oneside_splitAt placed (.inr rfl) full before.2)
    · split
      · rename_i before
        exact split_move _ _ (oneside_splitAt placed (.inl rfl) full before.2)
      · exact unmoved _
  | merge_common_footer =>
    rw [MergeFcn.fcn,merge_common_footer]
    split
    · exact unmoved _
    · rename_i proper
      exact split_move _ _ (footer_splitAt placed rfl proper)
  | merge_common_deletes =>
    rw [MergeFcn.fcn,merge_common_deletes]
    split
    · exact unmoved _
    · rename_i proper
      exact split_move _ _ (deletes_splitAt placed rfl proper)
  | merge_with_following_gca =>
    rw [MergeFcn.fcn,merge_with_following_gca]
    split
    · rename_i right
      exact extendDown_move .right (.inl right)
    · split
      · rename_i left
        exact extendDown_move .left (.inr left)
      · exact unmoved _

end Functions

structure Waiting (f : Files T) (c : Region T) : Prop where
  nonempty : ∃ side, c.start side < c.end_ side
  start_seq : c.start_seq ≤ f.seqAt .gca (c.start .gca)
  merged : c.merged = none
  split : c.split = false

structure Listed (f : Files T) (upto mk : Marks) (c : Region T) (next : List (Region T)) : Prop where
  cover : Cover f upto mk (c :: next)
  twin : ∀ r ∈ c :: next, Twin .gca .gcar r
  end_seq : ∀ r ∈ c :: next, r.end_seq ≠ 0
  adjacent : c.split = true → ∃ tmp rest, next = tmp :: rest ∧ tmp.start = c.end_
  waiting : ∀ r ∈ next, Waiting f r

variable {upto mk : Marks} {c c' : Region T} {next next' : List (Region T)} {fcn : MergeFcn}

theorem Listed.placed (listed : Listed f upto mk c next) : Placed f c :=
  ⟨listed.cover.2.1,fun side => listed.cover.2.2.inside side, listed.twin c (by simp)⟩

theorem Listed.tail (listed : Listed f upto mk c (c' :: next)) : Listed f upto c.end_ c' next := by
  refine ⟨listed.cover.2.2,fun r member => listed.twin r (mem_cons_of_mem c member),
    fun r member => listed.end_seq r (mem_cons_of_mem c member),?_,
    fun r member => listed.waiting r (mem_cons_of_mem c' member)⟩
  intro split
  rw [(listed.waiting c' mem_cons_self).split] at split
  cases split

theorem Listed.gap (listed : Listed f upto mk c next) (split : c.split = true) :
    gapAfter f c next = 0 := by
  obtain ⟨tmp,rest,rfl,same⟩ := listed.adjacent split
  change tmp.start .gca - c.end_ .gca = 0
  rw [same,Nat.sub_self]

theorem Move.start (move : Move f fcn c next c' next') : c'.start = c.start := by cases move <;> rfl

theorem splitHead_len (idx : Marks) (side : Side) : (splitHead f c idx).len side = idx side :=
  Nat.add_sub_cancel_left _ _

theorem Move.listed (move : Move f fcn c next c' next') (listed : Listed f upto mk c next)
    (fits : fcn = .merge_with_following_gca → upto = f.n) : Listed f upto mk c' next' := by
  have placed := listed.placed
  obtain ⟨twin,twins⟩ := forall_mem_cons.mp listed.twin
  obtain ⟨ends,endsNext⟩ := forall_mem_cons.mp listed.end_seq
  cases move with
  | merged _ lines origin =>
    exact ⟨listed.cover,forall_mem_cons.mpr ⟨twin,twins⟩,forall_mem_cons.mpr ⟨ends,endsNext⟩,
      listed.adjacent,listed.waiting⟩
  | joined tmp rest whole =>
    obtain ⟨before,ordered,between,orderedTmp,after⟩ := listed.cover
    obtain ⟨twinTmp,twins⟩ := forall_mem_cons.mp twins
    refine ⟨⟨before,?_,after⟩,forall_mem_cons.mpr ⟨⟨twin.1,twinTmp.2⟩,twins⟩,
      forall_mem_cons.mpr (forall_mem_cons.mp endsNext), ?_,
      fun r member => listed.waiting r (mem_cons_of_mem tmp member)⟩
    · intro side
      exact Nat.le_trans (ordered side) (Nat.le_trans (between.le side) (orderedTmp side))
    · intro split
      exact absurd split (by simp [whole])
  | split _ idx at_ =>
    have before : ∀ side, c.start side + idx side ≤ c.end_ side := by
      intro side
      have short := at_.inside side
      have ordered := placed.ordered side
      unfold Region.len at short
      omega
    have middle : c.start .gca + idx .gca = c.start .gcar + idx .gcar := by rw [twin.1,at_.twin]
    refine ⟨⟨listed.cover.1,fun side => Nat.le_add_right _ _, ?_⟩,
      forall_mem_cons.mpr ⟨⟨twin.1,middle⟩,forall_mem_cons.mpr ⟨⟨middle,twin.2⟩,twins⟩⟩,
      forall_mem_cons.mpr ⟨f.seqAt_ne_zero _ _,forall_mem_cons.mpr ⟨ends,endsNext⟩⟩,
      fun _ => ⟨_,next,rfl,rfl⟩, forall_mem_cons.mpr ⟨?_,listed.waiting⟩⟩
    · exact ⟨Common.refl (fun side => Nat.le_trans (before side) (placed.inside side)), before,
        listed.cover.2.2⟩
    · obtain ⟨side,short⟩ := at_.shrinks
      refine ⟨⟨side,?_⟩,le_rfl,rfl,rfl⟩
      unfold Region.len at short
      change c.start side + idx side < c.end_ side
      omega
  | extended _ j following some_ below oneSided =>
    have later : c.end_ .gca + j = c.end_ .gcar + j := by rw [twin.2]
    have whole := fits following
    subst whole
    refine ⟨⟨listed.cover.1,?_,listed.cover.2.2.shift below⟩,
      forall_mem_cons.mpr ⟨⟨twin.1,later⟩,twins⟩,forall_mem_cons.mpr ⟨f.seqAt_ne_zero _ _,endsNext⟩,
      ?_,listed.waiting⟩
    · intro side
      exact Nat.le_add_right_of_le (placed.ordered side)
    · intro split
      have gap := listed.gap split
      omega

def total (c : Region T) : Nat := c.len .left + c.len .right + c.len .gca + c.len .gcar

def oneSided (c : Region T) : Bool :=
  c.len .left = 0 ∧ c.len .right ≠ 0 ∨ c.len .right = 0 ∧ c.len .left ≠ 0

/-- After a split the region only shrinks; before it, regions behind are joined, and lines from
below taken once for each. -/
def weight (f : Files T) (c : Region T) (next : List (Region T)) : Nat :=
  if c.split then total c else 2 * next.length + (if oneSided c then 1 else 0) + f.size + 1

theorem Placed.total_le (placed : Placed f c) : total c ≤ f.size := by
  have left := placed.inside .left
  have right := placed.inside .right
  have gca := placed.inside .gca
  have gcar := placed.inside .gcar
  unfold total Region.len Files.size
  omega

theorem Move.weight_lt (move : Move f fcn c next c' next') (listed : Listed f upto mk c next)
    (unmerged : c'.merged = none) : weight f c' next' < weight f c next := by
  have placed := listed.placed
  unfold weight
  cases move with
  | merged _ lines origin => cases unmerged
  | joined tmp rest whole =>
    have head : ({ c with end_ := tmp.end_, end_seq := tmp.end_seq } : Region T).split = false :=
      whole
    have before : ¬ c.split = true := by simp [whole]
    rw [if_neg (by rw [head]; exact Bool.false_ne_true),if_neg before,length_cons]
    split <;> split <;> omega
  | split _ idx at_ =>
    have shorter : total (splitHead f c idx) < total c := by
      obtain ⟨side,short⟩ := at_.shrinks
      have left := at_.inside .left
      have right := at_.inside .right
      have gca := at_.inside .gca
      have gcar := at_.inside .gcar
      unfold total
      rw [splitHead_len,splitHead_len,splitHead_len,splitHead_len]
      cases side <;> omega
    have bound := placed.total_le
    have head : (splitHead f c idx).split = true := rfl
    rw [if_pos head]
    split <;> omega
  | extended _ j following some_ below sided =>
    by_cases split : c.split = true
    · have gap := listed.gap split
      omega
    rw [if_neg split,if_neg split]
    have before : oneSided c = true := decide_eq_true sided
    have after : oneSided { c with end_ := fun side => c.end_ side + j
                                   end_seq := f.seqAt .gca (c.end_ .gca + j) } = false := by
      have left := placed.ordered .left
      have right := placed.ordered .right
      unfold oneSided Region.len
      apply decide_eq_false
      dsimp only
      omega
    rw [before,after]
    simp

end BitKeeper.Smerge
