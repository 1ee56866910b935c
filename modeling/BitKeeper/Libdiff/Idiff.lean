import BitKeeper.Libdiff.Split

/-!
The recursion of `idiff`.  It works on the hashes that both sides have, each
with the place of its mark.  What it leaves unmarked is the same list of hashes
on both sides.
-/

namespace BitKeeper.Libdiff

open List Prod

section
variable {α : Type}

def kept (chg : Marks) (items : List (α × Nat)) : List α := (items.filter (fun p => !chg p.2)).map fst

def places (items : List (α × Nat)) : List Nat := items.map snd

theorem kept_append (chg : Marks) (first second : List (α × Nat)) :
    kept chg (first ++ second) = kept chg first ++ kept chg second := by
  unfold kept
  rw [filter_append,map_append]

variable {chg : Marks} {items : List (α × Nat)}

theorem kept_congr {chg' : Marks} (same : ∀ i ∈ places items, chg i = chg' i) :
    kept chg items = kept chg' items := by
  unfold kept
  congr 1
  apply filter_congr
  intro p member
  rw [same p.2 (mem_map_of_mem member)]

theorem kept_free (free : ∀ i ∈ places items, chg i = false) : kept chg items = items.map fst := by
  unfold kept
  rw [filter_eq_self.mpr]
  intro p member
  rw [free p.2 (mem_map_of_mem member),Bool.not_false]

theorem kept_marked (marked : ∀ i ∈ places items, chg i = true) : kept chg items = [] := by
  unfold kept
  rw [filter_eq_nil_iff.mpr,map_nil]
  intro p member
  rw [marked p.2 (mem_map_of_mem member)]
  exact Bool.false_ne_true

end

/-- From `s` to `t` only marks of these hashes were set; what stays unmarked is the same on both
sides. -/
structure Solved (A B : List (Nat × Nat)) (s t : Search) : Prop where
  equal : kept t.left A = kept t.right B
  left : ∀ i, i ∉ places A → t.left i = s.left i
  right : ∀ i, i ∉ places B → t.right i = s.right i

structure Fresh (A B : List (Nat × Nat)) (s : Search) : Prop where
  left : ∀ i ∈ places A, s.left i = false
  right : ∀ i ∈ places B, s.right i = false

theorem Fresh.solved {A B : List (Nat × Nat)} {s : Search} (fresh : Fresh A B s)
    (same : A.map fst = B.map fst) : Solved A B s s := by
  refine ⟨?_,fun _ _ => rfl, fun _ _ => rfl⟩
  rw [kept_free fresh.left,kept_free fresh.right,same]

section
variable {A A' B B' : List (Nat × Nat)} {s t u : Search}

theorem Solved.trans (first : Solved A B s t) (second : Solved A' B' t u)
    (leftApart : ∀ i ∈ places A, i ∉ places A') (rightApart : ∀ i ∈ places B, i ∉ places B') :
    Solved (A ++ A') (B ++ B') s u := by
  refine ⟨?_,?_,?_⟩
  · rw [kept_append,kept_append,second.equal,
      kept_congr (fun i member => second.left i (leftApart i member)),first.equal,
      kept_congr (fun i member => second.right i (rightApart i member))]
  · intro i outside
    unfold places at outside
    rw [map_append,mem_append,not_or] at outside
    rw [second.left i outside.2,first.left i outside.1]
  · intro i outside
    unfold places at outside
    rw [map_append,mem_append,not_or] at outside
    rw [second.right i outside.2,first.right i outside.1]

theorem Fresh.kept (fresh : Fresh A' B' s) (solved : Solved A B s t)
    (leftApart : ∀ i ∈ places A', i ∉ places A) (rightApart : ∀ i ∈ places B', i ∉ places B) :
    Fresh A' B' t :=
  ⟨fun i member => (solved.left i (leftApart i member)).trans (fresh.left i member),
    fun i member => (solved.right i (rightApart i member)).trans (fresh.right i member)⟩

end

structure Reduced.Placed (R : Reduced) : Prop where
  length : R.red.length = R.idx.length
  nodup : R.idx.Nodup

def Reduced.slice (R : Reduced) (lo hi : Nat) : List (Nat × Nat) :=
  ((R.red.zip R.idx).drop lo).take (hi - lo)

section
variable {R : Reduced} {lo hi : Nat}

theorem slice_append {mid : Nat} (low : lo ≤ mid) (high : mid ≤ hi) :
    R.slice lo mid ++ R.slice mid hi = R.slice lo hi := by
  unfold Reduced.slice
  rw [show hi - lo = (mid - lo) + (hi - mid) by omega,take_add,drop_drop,Nat.add_sub_cancel' low]

private theorem slice_self (lo : Nat) : R.slice lo lo = [] := by
  unfold Reduced.slice
  rw [Nat.sub_self,take_zero]

theorem places_slice (placed : R.Placed) (lo hi : Nat) :
    places (R.slice lo hi) = (R.idx.drop lo).take (hi - lo) := by
  unfold places Reduced.slice
  rw [map_take,map_drop,map_snd_zip placed.length.ge]

theorem hashes_slice (placed : R.Placed) (lo hi : Nat) :
    (R.slice lo hi).map fst = (R.red.drop lo).take (hi - lo) := by
  unfold Reduced.slice
  rw [map_take,map_drop,map_fst_zip placed.length.le]

theorem slice_apart (placed : R.Placed) {mid : Nat} (low : lo ≤ mid) (high : mid ≤ hi) :
    ∀ i ∈ places (R.slice lo mid), i ∉ places (R.slice mid hi) := by
  intro i first second
  have all : (places (R.slice lo hi)).Nodup := by
    rw [places_slice placed]
    exact (placed.nodup.sublist (drop_sublist lo _)).sublist (take_sublist _ _)
  rw [← slice_append low high] at all
  unfold places at all first second
  rw [map_append] at all
  exact (nodup_append.mp all).2.2 i first i second rfl

theorem places_slice_mono {lo' hi' i : Nat} (low : lo ≤ lo') (order : lo' ≤ hi') (high : hi' ≤ hi)
    (member : i ∈ places (R.slice lo' hi')) : i ∈ places (R.slice lo hi) := by
  rw [← slice_append low (order.trans high),← slice_append order high]
  unfold places at member ⊢
  rw [map_append,map_append,mem_append,mem_append]
  exact .inr (.inl member)

end

section
variable {A B : Reduced}

theorem Fresh.slice {x1 x2 y1 y2 x1' x2' y1' y2' : Nat} {s : Search}
    (fresh : Fresh (A.slice x1 x2) (B.slice y1 y2) s) (left : x1 ≤ x1') (wide : x1' ≤ x2')
    (right : x2' ≤ x2) (top : y1 ≤ y1') (tall : y1' ≤ y2') (bottom : y2' ≤ y2) :
    Fresh (A.slice x1' x2') (B.slice y1' y2') s :=
  ⟨fun i member => fresh.left i (places_slice_mono left wide right member),
    fun i member => fresh.right i (places_slice_mono top tall bottom member)⟩

private theorem hashes_same (leftPlaced : A.Placed) (rightPlaced : B.Placed) {x y m : Nat}
    (same : ∀ i, i < m → A.red[x + i]? = B.red[y + i]?) :
    (A.slice x (x + m)).map fst = (B.slice y (y + m)).map fst := by
  rw [hashes_slice leftPlaced,hashes_slice rightPlaced,Nat.add_sub_cancel_left,
    Nat.add_sub_cancel_left]
  apply ext_getElem?
  intro i
  rw [getElem?_take,getElem?_take]
  split
  next within => rw [getElem?_drop,getElem?_drop,same i within]
  next => rfl

theorem trimHead_spec (x2 y2 n x1 y1 : Nat) (wide : x1 ≤ x2) (tall : y1 ≤ y2) (enough : x2 ≤ x1 + n) :
    ∃ m, trimHead A B x2 y2 n x1 y1 = (x1 + m, y1 + m) ∧ x1 + m ≤ x2 ∧ y1 + m ≤ y2 ∧
      (∀ i, i < m → A.red[x1 + i]? = B.red[y1 + i]?) ∧
      (x1 + m < x2 → y1 + m < y2 → sameAt A B (x1 + m + 1) (y1 + m + 1) = false) := by
  induction n generalizing x1 y1 with
  | zero =>
    exact ⟨0,rfl,wide,tall,fun i none => absurd none (Nat.not_lt_zero i), fun more => by omega⟩
  | succ n ih =>
    unfold trimHead
    split
    next more =>
      obtain ⟨m,trimmed,right,bottom,same,stop⟩ := ih (x1 + 1) (y1 + 1) more.1 more.2.1 (by omega)
      have shift (z : Nat) : z + 1 + m = z + (m + 1) := by omega
      rw [shift,shift] at trimmed stop
      refine ⟨m + 1,trimmed,by omega,by omega,?_,fun more more' => stop (by omega) (by omega)⟩
      intro i within
      cases i with
      | zero => exact eq_of_beq more.2.2
      | succ i =>
        have step := same i (by omega)
        rwa [show x1 + 1 + i = x1 + (i + 1) by omega,show y1 + 1 + i = y1 + (i + 1) by omega] at step
    next stop =>
      refine ⟨0,rfl,wide,tall,fun i none => absurd none (Nat.not_lt_zero i), ?_⟩
      intro right bottom
      rw [Bool.eq_false_iff]
      exact fun same => stop ⟨right,bottom,same⟩

theorem trimTail_spec (x1 y1 n x2 y2 : Nat) (wide : x1 ≤ x2) (tall : y1 ≤ y2) (enough : x2 ≤ x1 + n) :
    ∃ m x y, trimTail A B x1 y1 n x2 y2 = (x, y) ∧ x + m = x2 ∧ y + m = y2 ∧ x1 ≤ x ∧ y1 ≤ y ∧
      (∀ i, i < m → A.red[x + i]? = B.red[y + i]?) ∧ (x1 < x → y1 < y → sameAt A B x y = false) := by
  induction n generalizing x2 y2 with
  | zero =>
    exact ⟨0,x2,y2,rfl,rfl,rfl,wide,tall,fun i none => absurd none (Nat.not_lt_zero i),
      fun more => by omega⟩
  | succ n ih =>
    unfold trimTail
    split
    next more =>
      obtain ⟨m,x,y,trimmed,right,bottom,left,top,same,stop⟩ :=
        ih (x2 - 1) (y2 - 1) (by omega) (by omega) (by omega)
      refine ⟨m + 1,x,y,trimmed,by omega,by omega,left,top,?_,stop⟩
      intro i within
      by_cases last : i = m
      · have step := eq_of_beq more.2.2
        rwa [last,show x + m = x2 - 1 by omega,show y + m = y2 - 1 by omega]
      · exact same i (by omega)
    next stop =>
      refine ⟨0,x2,y2,rfl,rfl,rfl,wide,tall,fun i none => absurd none (Nat.not_lt_zero i), ?_⟩
      intro right bottom
      rw [Bool.eq_false_iff]
      exact fun same => stop ⟨right,bottom,same⟩

theorem setMarks_inside {idx : List Nat} {lo hi i : Nat} (chg : Marks)
    (inside : i ∈ (idx.drop lo).take (hi - lo)) :
    setMarks idx lo hi chg i = true := by
  unfold setMarks
  rw [decide_eq_true inside,Bool.or_true]

theorem setMarks_outside {idx : List Nat} {lo hi i : Nat} (chg : Marks)
    (outside : i ∉ (idx.drop lo).take (hi - lo)) :
    setMarks idx lo hi chg i = chg i := by
  unfold setMarks
  rw [decide_eq_false outside,Bool.or_false]

private theorem solved_added (placed : B.Placed) (y1 y2 : Nat) (s : Search) :
    Solved [] (B.slice y1 y2) s { s with right := setMarks B.idx y1 y2 s.right } := by
  have marked : ∀ i ∈ places (B.slice y1 y2), setMarks B.idx y1 y2 s.right i = true := by
    intro i member
    rw [places_slice placed] at member
    exact setMarks_inside _ member
  refine ⟨(kept_marked marked).symm,fun _ _ => rfl, ?_⟩
  · intro i outside
    rw [places_slice placed] at outside
    exact setMarks_outside _ outside

private theorem solved_deleted (placed : A.Placed) (x1 x2 : Nat) (s : Search) :
    Solved (A.slice x1 x2) [] s { s with left := setMarks A.idx x1 x2 s.left } := by
  have marked : ∀ i ∈ places (A.slice x1 x2), setMarks A.idx x1 x2 s.left i = true := by
    intro i member
    rw [places_slice placed] at member
    exact setMarks_inside _ member
  refine ⟨kept_marked marked,?_,fun _ _ => rfl⟩
  · intro i outside
    rw [places_slice placed] at outside
    exact setMarks_outside _ outside

theorem Solved.trimmed (leftPlaced : A.Placed) (rightPlaced : B.Placed) {x1 y1 m x y k : Nat}
    {s t : Search} (fresh : Fresh (A.slice x1 (x + k)) (B.slice y1 (y + k)) s) (wide : x1 + m ≤ x)
    (tall : y1 + m ≤ y) (head : ∀ i, i < m → A.red[x1 + i]? = B.red[y1 + i]?)
    (tail : ∀ i, i < k → A.red[x + i]? = B.red[y + i]?)
    (inner : Solved (A.slice (x1 + m) x) (B.slice (y1 + m) y) s t) :
    Solved (A.slice x1 (x + k)) (B.slice y1 (y + k)) s t := by
  have first : Solved (A.slice x1 (x1 + m)) (B.slice y1 (y1 + m)) s s :=
    (fresh.slice (le_refl _) (by omega) (by omega) (le_refl _) (by omega) (by omega)).solved
      (hashes_same leftPlaced rightPlaced head)
  have freshTail : Fresh (A.slice x (x + k)) (B.slice y (y + k)) s :=
    fresh.slice (by omega) (by omega) (le_refl _) (by omega) (by omega) (le_refl _)
  have leftApart := slice_apart leftPlaced wide (Nat.le_add_right x k)
  have rightApart := slice_apart rightPlaced tall (Nat.le_add_right y k)
  have last : Solved (A.slice x (x + k)) (B.slice y (y + k)) t t :=
    (freshTail.kept inner (fun i member other => leftApart i other member)
      (fun i member other => rightApart i other member)).solved
        (hashes_same leftPlaced rightPlaced tail)
  have rest := inner.trans last leftApart rightApart
  rw [slice_append wide (by omega),slice_append tall (by omega)] at rest
  have all := first.trans rest (slice_apart leftPlaced (by omega) (by omega))
    (slice_apart rightPlaced (by omega) (by omega))
  rwa [slice_append (by omega) (by omega),slice_append (by omega) (by omega)] at all

theorem idiff_spec (leftPlaced : A.Placed) (rightPlaced : B.Placed) (minimal : Bool)
    (max_steps fuel x1 x2 y1 y2 : Nat) (s : Search) (wide : x1 ≤ x2) (tall : y1 ≤ y2)
    (enough : x2 - x1 + (y2 - y1) < fuel) (fresh : Fresh (A.slice x1 x2) (B.slice y1 y2) s) :
    ∃ t, idiff A B minimal max_steps fuel x1 x2 y1 y2 s = .ok t ∧ Solved (A.slice x1 x2)
    (B.slice y1 y2) s t := by
  induction fuel generalizing x1 x2 y1 y2 s with
  | zero => omega
  | succ fuel ih =>
    obtain ⟨m,headTrimmed,right,bottom,head,headStop⟩ :=
      trimHead_spec (A := A) (B := B) x2 y2 (x2 - x1) x1 y1 wide tall (by omega)
    obtain ⟨k,x,y,tailTrimmed,xEnd,yEnd,left,top,tail,tailStop⟩ :=
      trimTail_spec (A := A) (B := B) (x1 + m) (y1 + m) (x2 - (x1 + m)) x2 y2 right bottom (by omega)
    subst xEnd yEnd
    unfold idiff
    rw [if_pos ⟨wide,tall⟩,headTrimmed]
    dsimp only
    rw [tailTrimmed]
    have trim {t : Search} := Solved.trimmed leftPlaced rightPlaced (t := t) fresh left top head tail
    split
    next narrow =>
      refine ⟨_,rfl,trim ?_⟩
      rw [narrow,slice_self]
      exact solved_added rightPlaced _ _ s
    next =>
      split
      next flat =>
        refine ⟨_,rfl,trim ?_⟩
        rw [flat,slice_self]
        exact solved_deleted leftPlaced _ _ s
      next high =>
        have box : (↑(x1 + m) : Int) < x ∧ (↑(y1 + m) : Int) < y := by omega
        have first := headStop (by omega) (by omega)
        have last := tailStop (by omega) (by omega)
        obtain ⟨p,d,found,inner⟩ := dsplit1_spec (fun x y => sameAt A B x.toNat y.toNat)
          (b := { x1 := ↑(x1 + m), x2 := x, y1 := ↑(y1 + m), y2 := y, wide := box.1, tall := box.2 })
          first last (by dsimp only; omega) minimal max_steps s.vf s.vr
        obtain ⟨xBounds,yBounds,notFirst,notLast⟩ := inner
        dsimp only at found xBounds yBounds notFirst notLast
        rw [found,Except.bind]
        rw [if_pos ⟨xBounds.1,xBounds.2,yBounds.1,yBounds.2⟩]
        generalize columnEq : p.1.toNat = column
        generalize rowEq : p.2.toNat = row
        have columnLe : x1 + m ≤ column ∧ column ≤ x := by omega
        have rowLe : y1 + m ≤ row ∧ row ≤ y := by omega
        have freshFirst : Fresh (A.slice (x1 + m) column) (B.slice (y1 + m) row) s :=
          fresh.slice (by omega) columnLe.1 (by omega) (by omega) rowLe.1 (by omega)
        have freshSecond : Fresh (A.slice column x) (B.slice row y) s :=
          fresh.slice (by omega) columnLe.2 (by omega) (by omega) rowLe.2 (by omega)
        have leftApart := slice_apart leftPlaced columnLe.1 columnLe.2
        have rightApart := slice_apart rightPlaced rowLe.1 rowLe.2
        obtain ⟨t,firstRan,firstSolved⟩ := ih (x1 + m) column (y1 + m) row
          { s with vf := d.vf, vr := d.vr }
          columnLe.1 rowLe.1 (by omega) ⟨freshFirst.left,freshFirst.right⟩
        have between : Solved (A.slice (x1 + m) column) (B.slice (y1 + m) row) s t :=
          ⟨firstSolved.equal,firstSolved.left,firstSolved.right⟩
        obtain ⟨u,secondRan,secondSolved⟩ := ih column x row y t columnLe.2 rowLe.2 (by omega)
          (freshSecond.kept between (fun i member other => leftApart i other member)
            (fun i member other => rightApart i other member))
        rw [firstRan]
        refine ⟨u,secondRan,trim ?_⟩
        have both := between.trans secondSolved leftApart rightApart
        rwa [slice_append columnLe.1 columnLe.2,slice_append rowLe.1 rowLe.2] at both

end

end BitKeeper.Libdiff
