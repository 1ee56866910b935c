import BitKeeper.Libdiff.Hash

/-!
`shrink_gaps` and `align_blocks`: a block of marks that is shifted over equal hashes leaves the same
unmarked hashes behind, so both sides keep the list that `idiff` left.
-/

namespace BitKeeper.Libdiff

open List

theorem mem_places_zipIdx {α : Type} {list : List α} {k i : Nat}
    (member : i ∈ places (list.zipIdx k)) :
    k ≤ i ∧ i < k + list.length := by
  unfold places at member
  rwa [zipIdx_map_snd,mem_range'_1] at member

theorem zipIdx_split {α : Type} (list : List α) {len : Nat} (short : len ≤ list.length) (k : Nat) :
    list.zipIdx k = (list.take len).zipIdx k ++ (list.drop len).zipIdx (k + len) := by
  conv_lhs => rw [← take_append_drop len list]
  rw [zipIdx_append,length_take_of_le short]

section
variable {h : List Nat}

/-- The block from `a` to `b` and the one `m` further down; the hashes that change places are equal.
-/
structure Shifted (h : List Nat) (a b m : Nat) (upper lower : Marks) : Prop where
  order : 1 ≤ a ∧ a ≤ b ∧ b + m ≤ h.length + 1
  same : ∀ i, i < m → hashAt h (a + i) = hashAt h (b + i)
  upperBlock : ∀ i, a ≤ i → i < b → upper i = true
  upperFree : ∀ i, b ≤ i → i < b + m → upper i = false
  lowerFree : ∀ i, a ≤ i → i < a + m → lower i = false
  lowerBlock : ∀ i, a + m ≤ i → i < b + m → lower i = true
  outside : ∀ i, i < a ∨ b + m ≤ i → upper i = lower i

variable {chg : Marks}

private theorem kept_behind {α : Type} {list : List α} {k len : Nat} (short : len ≤ list.length)
    (block : ∀ i, k ≤ i → i < k + len → chg i = true)
    (free : ∀ i, k + len ≤ i → i < k + list.length → chg i = false) :
    kept chg (list.zipIdx k) = list.drop len := by
  rw [zipIdx_split list short,kept_append,kept_marked,nil_append,kept_free,zipIdx_map_fst]
  · intro i member
    have bounds := mem_places_zipIdx member
    rw [length_drop] at bounds
    exact free i bounds.1 (by omega)
  · intro i member
    have bounds := mem_places_zipIdx member
    rw [length_take_of_le short] at bounds
    exact block i bounds.1 bounds.2

private theorem kept_before {α : Type} {list : List α} {k len : Nat} (short : len ≤ list.length)
    (free : ∀ i, k ≤ i → i < k + len → chg i = false)
    (block : ∀ i, k + len ≤ i → i < k + list.length → chg i = true) :
    kept chg (list.zipIdx k) = list.take len := by
  rw [zipIdx_split list short,kept_append,kept_free,zipIdx_map_fst,kept_marked,append_nil]
  · intro i member
    have bounds := mem_places_zipIdx member
    rw [length_drop] at bounds
    exact block i bounds.1 (by omega)
  · intro i member
    have bounds := mem_places_zipIdx member
    rw [length_take_of_le short] at bounds
    exact free i bounds.1 bounds.2

variable {a b m : Nat} {upper lower : Marks}

theorem Shifted.kept (shifted : Shifted h a b m upper lower) :
    kept upper (h.zipIdx 1) = kept lower (h.zipIdx 1) := by
  obtain ⟨⟨first,order,last⟩,same,upperBlock,upperFree,lowerFree,lowerBlock,outside⟩ := shifted
  have length : ((h.drop (a - 1)).take (b + m - a)).length = b + m - a := by
    rw [length_take,length_drop]
    omega
  have split : h.zipIdx 1 = (h.take (a - 1)).zipIdx
    1 ++ (((h.drop (a - 1)).take (b + m - a)).zipIdx a ++
      ((h.drop (a - 1)).drop (b + m - a)).zipIdx (b + m)) := by
    have middle : b + m - a ≤ (h.drop (a - 1)).length := by
      rw [length_drop]
      omega
    rw [zipIdx_split h (by omega : a - 1 ≤ h.length),Nat.add_sub_cancel' first,zipIdx_split _ middle,
      Nat.add_sub_cancel' (by omega)]
  have moved : ((h.drop (a - 1)).take (b + m - a)).drop (b - a) =
      ((h.drop (a - 1)).take (b + m - a)).take m := by
    apply ext_getElem?
    intro i
    rw [getElem?_drop,getElem?_take,getElem?_take,getElem?_take]
    by_cases within : i < m
    · have equal := same i within
      unfold hashAt at equal
      rw [if_pos (by omega),if_pos within,if_pos (by omega),getElem?_drop,getElem?_drop,
        show a - 1 + (b - a + i) = b + i - 1 by omega,show a - 1 + i = a + i - 1 by omega,equal]
    · rw [if_neg (by omega),if_neg within]
  rw [split,kept_append,kept_append,kept_append,kept_append]
  congr 1
  · apply kept_congr
    intro i member
    have bounds := mem_places_zipIdx member
    rw [length_take] at bounds
    exact outside i (.inl (by omega))
  congr 1
  · rw [kept_behind (by omega : b - a ≤ _),kept_before (by omega : m ≤ _),moved]
    · intro i low high
      exact lowerFree i low high
    · intro i low high
      rw [length] at high
      exact lowerBlock i low (by omega)
    · intro i low high
      exact upperBlock i low (by omega)
    · intro i low high
      rw [length] at high
      exact upperFree i (by omega) (by omega)
  · apply kept_congr
    intro i member
    have bounds := mem_places_zipIdx member
    exact outside i (.inr bounds.1)

theorem shifted_down (order : 1 ≤ a ∧ a ≤ b ∧ b + m ≤ h.length + 1)
    (same : ∀ i, i < m → hashAt h (a + i) = hashAt h (b + i))
    (block : ∀ i, a ≤ i → i < b → chg i = true) (free : ∀ i, b ≤ i → i < b + m → chg i = false) :
    Shifted h a b m chg (setRange (a + m) (b + m) true (setRange a b false chg)) := by
  refine ⟨order,same,block,free,?_,?_,?_⟩
  · intro i low high
    unfold setRange
    rw [if_neg (by omega)]
    split
    · rfl
    · exact free i (by omega) (by omega)
  · intro i low high
    unfold setRange
    rw [if_pos ⟨low,high⟩]
  · intro i apart
    unfold setRange
    rw [if_neg (by omega),if_neg (by omega)]

theorem shifted_up (order : 1 ≤ a ∧ a ≤ b ∧ b + m ≤ h.length + 1)
    (same : ∀ i, i < m → hashAt h (a + i) = hashAt h (b + i))
    (block : ∀ i, a + m ≤ i → i < b + m → chg i = true)
    (free : ∀ i, a ≤ i → i < a + m → chg i = false) :
    Shifted h a b m (setRange a b true (setRange (a + m) (b + m) false chg)) chg := by
  refine ⟨order,same,?_,?_,free,block,?_⟩
  · intro i low high
    unfold setRange
    rw [if_pos ⟨low,high⟩]
  · intro i low high
    unfold setRange
    rw [if_neg (by omega)]
    split
    · rfl
    · exact free i (by omega) (by omega)
  · intro i apart
    unfold setRange
    rw [if_neg (by omega),if_neg (by omega)]

structure Fits (h : List Nat) (list : List Nat) (chg : Marks) : Prop where
  kept : Libdiff.kept chg (h.zipIdx 1) = list
  bounded : Bounded h.length chg

theorem Fits.shift_down {list : List Nat} (fits : Fits h list upper)
    (shifted : Shifted h a b m upper lower) :
    Fits h list lower := by
  refine ⟨shifted.kept.symm.trans fits.kept,?_⟩
  intro i marked
  have order := shifted.order
  by_cases inside : a ≤ i ∧ i < b + m
  · omega
  · rw [← shifted.outside i (by omega)] at marked
    exact fits.bounded i marked

theorem Fits.shift_up {list : List Nat} (fits : Fits h list lower)
    (shifted : Shifted h a b m upper lower) :
    Fits h list upper := by
  refine ⟨shifted.kept.trans fits.kept,?_⟩
  intro i marked
  have order := shifted.order
  by_cases inside : a ≤ i ∧ i < b + m
  · omega
  · rw [shifted.outside i (by omega)] at marked
    exact fits.bounded i marked

end

theorem skipUp_spec (n : Nat) (chg : Marks) (value : Bool) (m i : Nat) (enough : n + 1 ≤ i + m) :
    i ≤ skipUp n chg value m i ∧ (∀ j, i ≤ j → j < skipUp n chg value m i → chg j = value) ∧
      (skipUp n chg value m i ≤ n → chg (skipUp n chg value m i) = !value) ∧
      (i ≤ n + 1 → skipUp n chg value m i ≤ n + 1) := by
  induction m generalizing i with
  | zero =>
    unfold skipUp
    exact ⟨le_refl i,fun j low high => by omega, fun within => by omega, id⟩
  | succ m ih =>
    unfold skipUp
    split
    next more =>
      obtain ⟨low,skipped,stop,bound⟩ := ih (i + 1) (by omega)
      refine ⟨by omega,?_,stop,fun _ => bound (by omega)⟩
      intro j first last
      by_cases here : j = i
      · rw [here]
        exact more.2
      · exact skipped j (by omega) last
    next stop =>
      refine ⟨le_refl i,fun j low high => by omega, ?_,id⟩
      intro within
      cases value <;> simpa [within] using stop

theorem skipDown_spec (chg : Marks) (value : Bool) (a : Nat) :
    skipDown chg value a ≤ a ∧ (∀ j, skipDown chg value a < j → j ≤ a → chg j = value) ∧
      (1 ≤ a → 1 ≤ skipDown chg value a) ∧
      (1 < skipDown chg value a → chg (skipDown chg value a) = !value) := by
  induction a with
  | zero =>
    exact ⟨le_refl 0,fun j low high => by omega, id,
      fun more => absurd more (by unfold skipDown; omega)⟩
  | succ a ih =>
    unfold skipDown
    split
    next more =>
      obtain ⟨high,skipped,low,stop⟩ := ih
      refine ⟨by omega,?_,fun _ => low (by omega), stop⟩
      intro j first last
      by_cases here : j = a + 1
      · rw [here]
        exact more.2
      · exact skipped j first (by omega)
    next stop =>
      refine ⟨le_refl _,fun j low high => by omega, id,?_⟩
      intro more
      cases value <;> simpa [more] using stop

section
variable {h : List Nat}

theorem moveDown_spec (c m a b : Nat) :
    moveDown h c m a b ≤ c + 1 - b ∧ ∀ i, i < moveDown h c m a b →
      hashAt h (a + i) = hashAt h (b + i) := by
  induction m generalizing a b with
  | zero => exact ⟨Nat.zero_le _,nofun⟩
  | succ m ih =>
    unfold moveDown
    split
    next more =>
      obtain ⟨bound,same⟩ := ih (a + 1) (b + 1)
      refine ⟨by omega,?_⟩
      intro i within
      cases i with
      | zero => exact more.2
      | succ i =>
        have step := same i (by omega)
        rwa [Nat.add_right_comm,Nat.add_right_comm b] at step
    next => exact ⟨Nat.zero_le _,fun i none => by omega⟩

private theorem moveUp_spec (b m c d : Nat) (room : m ≤ c) (order : c ≤ d) :
    moveUp h b m c d ≤ c + 1 - b ∧ ∀ i, i < moveUp h b m c d →
      hashAt h (c - i) = hashAt h (d - i) := by
  induction m generalizing c d with
  | zero => exact ⟨Nat.zero_le _,nofun⟩
  | succ m ih =>
    unfold moveUp
    split
    next more =>
      obtain ⟨bound,same⟩ := ih (c - 1) (d - 1) (by omega) (by omega)
      refine ⟨by omega,?_⟩
      intro i within
      cases i with
      | zero => exact more.2
      | succ i =>
        have step := same i (by omega)
        rwa [Nat.sub_sub,Nat.sub_sub,Nat.add_comm 1] at step
    next => exact ⟨Nat.zero_le _,fun i none => by omega⟩

structure Gap (chg : Marks) (a b c d i : Nat) : Prop where
  order : 1 ≤ a ∧ a ≤ b ∧ b ≤ c + 1 ∧ c ≤ d ∧ d < i
  first : ∀ j, a ≤ j → j < b → chg j = true
  gap : ∀ j, b ≤ j → j ≤ c → chg j = false
  second : ∀ j, c < j → j ≤ d → chg j = true
  rest : ∀ j, d < j → j < i → chg j = false

structure Block (chg : Marks) (a b i : Nat) : Prop where
  order : 1 ≤ a ∧ a ≤ b ∧ b ≤ i
  block : ∀ j, a ≤ j → j < b → chg j = true
  rest : ∀ j, b ≤ j → j < i → chg j = false

variable {list : List Nat} {chg : Marks} {a b i : Nat}

theorem Gap.close {c d down up : Nat} (gap : Gap chg a b c d i) (fits : Fits h list chg)
    (last : i ≤ h.length + 1) (closed : b + down + up = c + 1)
    (downSame : ∀ j, j < down → hashAt h (a + j) = hashAt h (b + j))
    (upSame : ∀ j, j < up → hashAt h (c - j) = hashAt h (d - j)) {chg' : Marks}
    (made : chg' = setRange (c - up + 1) (d - up + 1) true
      (setRange (c + 1) (d + 1) false
      (setRange (a + down) (b + down) true (setRange a b false chg)))) :
    Fits h list chg' ∧ Block chg' (a + down)
    (d - up + 1) i ∧ (∀ j, a ≤ j → j < a + down → chg' j = false) ∧
      ∀ j, i ≤ j → chg' j = chg j := by
  obtain ⟨order,first,between,second,rest⟩ := gap
  have moved : Shifted h a b down chg
      (setRange (a + down) (b + down) true (setRange a b false chg)) :=
    shifted_down (by omega) downSame first (fun j low high => between j low (by omega))
  generalize setRange (a + down) (b + down) true (setRange a b false chg) = lowered at moved made
  have raised : Shifted h (c - up + 1) (d - up + 1) up chg' lowered := by
    have place : c - up + 1 + up = c + 1 := by omega
    have place' : d - up + 1 + up = d + 1 := by omega
    rw [made,← place,← place']
    apply shifted_up
    · omega
    · intro j within
      have same := upSame (up - 1 - j) (by omega)
      rwa [show c - (up - 1 - j) = c - up + 1 + j by omega,
        show d - (up - 1 - j) = d - up + 1 + j by omega] at same
    · intro j low high
      rw [← moved.outside j (by omega)]
      exact second j (by omega) (by omega)
    · intro j low high
      rw [← moved.outside j (by omega)]
      exact between j (by omega) (by omega)
  have outside (j : Nat) (apart : j < c - up + 1 ∨ d - up + 1 + up ≤ j) : chg' j = lowered j :=
    raised.outside j apart
  refine ⟨(fits.shift_down moved).shift_up raised,⟨by omega,?_,?_⟩,?_,?_⟩
  · intro j low high
    by_cases early : j < c - up + 1
    · rw [outside j (.inl early)]
      exact moved.lowerBlock j low (by omega)
    · exact raised.upperBlock j (by omega) high
  · intro j low high
    by_cases early : j < d - up + 1 + up
    · exact raised.upperFree j low early
    · rw [outside j (.inr (by omega)),← moved.outside j (by omega)]
      exact rest j (by omega) high
  · intro j low high
    rw [outside j (.inl (by omega))]
    exact moved.lowerFree j low high
  · intro j high
    rw [outside j (.inr (by omega)),← moved.outside j (by omega)]

theorem closeGap_spec (fuel : Nat) {c d : Nat} (gap : Gap chg a b c d i) (fits : Fits h list chg)
    (last : i ≤ h.length + 1) (enough : a < fuel) :
    ∃ chg' a' b', closeGap h fuel a b c d chg = .ok (chg', a', b') ∧ Fits h list chg' ∧
      Block chg' a' b' i ∧
      ∀ j, i ≤ j → chg' j = chg j := by
  induction fuel generalizing a b c d chg with
  | zero => omega
  | succ fuel ih =>
    have order := gap.order
    obtain ⟨downBound,downSame⟩ := moveDown_spec (h := h) c (c + 1 - b) a b
    unfold closeGap
    generalize moveDown h c (c + 1 - b) a b = down at downBound downSame
    obtain ⟨upBound,upSame⟩ :=
      moveUp_spec (h := h) (b + down) (c + 1 - (b + down)) c d (by omega) (by omega)
    dsimp only
    generalize moveUp h (b + down) (c + 1 - (b + down)) c d = up at upBound upSame
    split
    next closed =>
      obtain ⟨fits',block,free,beyond⟩ := gap.close fits last (by omega) downSame upSame rfl
      generalize setRange (c - up + 1) (d - up + 1) true (setRange (c + 1) (d + 1) false
        (setRange (a + down) (b + down) true (setRange a b false chg))) =
          chg' at fits' block free beyond
      obtain ⟨high,skipped,_,_⟩ := skipDown_spec chg' false (a + down - 1)
      generalize skipDown chg' false (a + down - 1) = r at high skipped
      split
      next found =>
        have early : r < a := by
          by_contra late
          rw [free r (not_lt.mp late) (by omega)] at found
          cases found
        have positive := (fits'.bounded r found).1
        obtain ⟨high',skipped',low',_⟩ := skipDown_spec chg' true r
        generalize skipDown chg' true r = q at high' skipped' low'
        have start : q ≤ (if chg' q = false then q + 1 else q) ∧
          (if chg' q = false then q + 1 else q) ≤ r ∧
            chg' (if chg' q = false then q + 1 else q) = true := by
          split
          next free =>
            have before : q < r :=
              lt_of_le_of_ne high' (fun same => by rw [same,found] at free; cases free)
            exact ⟨by omega,before,skipped' _ (by omega) before⟩
          next marked => exact ⟨le_refl q,high',Bool.eq_true_of_not_eq_false marked⟩
        generalize (if chg' q = false then q + 1 else q) = a' at start
        have previous : Gap chg' a' (r + 1) (a + down - 1) (d - up) i := by
          refine ⟨by omega,?_,?_,?_,?_⟩
          · intro j low high
            by_cases here : j = a'
            · rw [here]
              exact start.2.2
            · exact skipped' j (by omega) (by omega)
          · exact fun j low high => skipped j low high
          · exact fun j low high => block.block j (by omega) (by omega)
          · exact fun j low high => block.rest j low high
        obtain ⟨chg'',a'',b'',ran,fits'',block'',beyond'⟩ := ih previous fits' (by omega)
        exact ⟨chg'',a'',b'',ran,fits'',block'',fun j high => (beyond' j high).trans (beyond j high)⟩
      next => exact ⟨_,_,_,rfl,fits',block,beyond⟩
    next => exact ⟨_,_,_,rfl,fits,⟨by omega,fun j low high => gap.second j (by omega) (by omega),
        fun j low high => gap.rest j (by omega) high⟩, fun _ _ => rfl⟩

private theorem gapLoop_spec (fuel : Nat) (block : Block chg a b i) (fits : Fits h list chg)
    (within : i ≤ h.length + 1) (enough : h.length + 1 < fuel + i) :
    ∃ chg', gapLoop h h.length fuel i a b chg = .ok chg' ∧ Fits h list chg' := by
  induction fuel generalizing i a b chg with
  | zero => omega
  | succ fuel ih =>
    have order := block.order
    obtain ⟨low,free,found,_⟩ := skipUp_spec h.length chg false (h.length + 1 - i) i (by omega)
    unfold gapLoop
    generalize skipUp h.length chg false (h.length + 1 - i) i = start at low free found
    dsimp only
    split
    · exact ⟨chg,rfl,fits⟩
    next more =>
      obtain ⟨low',marked,stop,bound⟩ :=
        skipUp_spec h.length chg true (h.length + 1 - start) start (by omega)
      generalize skipUp h.length chg true (h.length + 1 - start) start =
        end_ at low' marked stop bound
      have advance : start < end_ := by
        apply lt_of_le_of_ne low'
        intro same
        rw [← same,found (by omega)] at stop
        cases stop (by omega)
      have gap : Gap chg a b (start - 1) (end_ - 1) end_ := by
        refine ⟨by omega,block.block,?_,?_,?_⟩
        · intro j first last
          by_cases early : j < i
          · exact block.rest j first early
          · exact free j (by omega) (by omega)
        · exact fun j first last => marked j (by omega) (by omega)
        · exact fun j first last => by omega
      obtain ⟨chg',a',b',ran,fits',block',_⟩ :=
        closeGap_spec (h.length + 1) gap fits (bound (by omega)) (by omega)
      rw [ran,Except.bind]
      exact ih block' fits' (bound (by omega)) (by omega)

theorem shrink_gaps_spec (fits : Fits h list chg) :
    ∃ chg', shrink_gaps h h.length chg = .ok chg' ∧ Fits h list chg' := by
  obtain ⟨low,_,_,_⟩ := skipUp_spec h.length chg false h.length 1 (by omega)
  unfold shrink_gaps
  generalize skipUp h.length chg false h.length 1 = start at low
  dsimp only
  split
  · exact ⟨chg,rfl,fits⟩
  obtain ⟨low',marked,_,bound⟩ :=
    skipUp_spec h.length chg true (h.length + 1 - start) start (by omega)
  generalize skipUp h.length chg true (h.length + 1 - start) start = end_ at low' marked bound
  split
  · exact ⟨chg,rfl,fits⟩
  · apply gapLoop_spec _ _ fits (bound (by omega)) (by omega)
    exact ⟨by omega,marked,fun j first last => by omega⟩

theorem shiftUp_spec (chg : Marks) (a b m up : Nat)
    (before : ∀ k, k < up → 1 < a - k ∧ hashAt h (a - 1 - k) = hashAt h (b - 1 - k) ∧
      chg (a - 1 - k) = false) :
    ∀ k, k < shiftUp h chg a b m up →
      1 < a - k ∧ hashAt h (a - 1 - k) = hashAt h (b - 1 - k) ∧ chg (a - 1 - k) = false := by
  induction m generalizing up with
  | zero => exact before
  | succ m ih =>
    unfold shiftUp
    split
    next more =>
      apply ih
      intro k within
      by_cases here : k = up
      · rwa [here]
      · exact before k (by omega)
    next => exact before

theorem shiftDown_spec (n : Nat) (chg : Marks) (a b m down : Nat)
    (before : ∀ k, k < down → b + k ≤ n ∧ hashAt h (a + k) = hashAt h (b + k) ∧ chg (b + k) = false) :
    ∀ k, k < shiftDown h n chg a b m down →
      b + k ≤ n ∧ hashAt h (a + k) = hashAt h (b + k) ∧ chg (b + k) = false := by
  induction m generalizing down with
  | zero => exact before
  | succ m ih =>
    unfold shiftDown
    split
    next more =>
      apply ih
      intro k within
      by_cases here : k = down
      · rwa [here]
      · exact before k (by omega)
    next => exact before

variable (dcost : Nat → Pos → Nat)

theorem bestAlign_spec (len lo hi m a1 : Nat) (best : Option (Nat × Nat)) (low : lo ≤ a1)
    (high : a1 + m ≤ hi + 1)
    (start : (∃ p, best = some p ∧ lo ≤ p.2 ∧ p.2 ≤ hi) ∨ best = none ∧ 0 < m) :
    ∃ p, bestAlign dcost len m a1 best = some p ∧ lo ≤ p.2 ∧ p.2 ≤ hi := by
  induction m generalizing a1 best with
  | zero =>
    rcases start with found | fresh
    · exact found
    · omega
  | succ m ih =>
    apply ih (a1 + 1) _ (by omega) (by omega)
    left
    rcases start with found | fresh
    · obtain ⟨p,rfl,bounds⟩ := found
      dsimp only
      split
      · exact ⟨_,rfl,low,by dsimp only; omega⟩
      · exact ⟨_,rfl,bounds⟩
    · rw [fresh.1]
      exact ⟨_,rfl,low,by dsimp only; omega⟩

theorem Fits.moved (a1 : Nat) (fits : Fits h list chg) (order : 1 ≤ a ∧ a ≤ b)
    (within : b ≤ h.length + 1) (block : ∀ j, a ≤ j → j < b → chg j = true)
    (up : ∀ k, k < a - a1 → 1 < a - k ∧ hashAt h (a - 1 - k) = hashAt h (b - 1 - k) ∧
      chg (a - 1 - k) = false)
    (down : ∀ k, k < a1 - a → b + k ≤ h.length ∧ hashAt h (a + k) = hashAt h (b + k) ∧
      chg (b + k) = false) :
    Fits h list (setRange a1 (a1 + (b - a)) true (setRange a b false chg)) ∧
      ∀ j, a1 + (b - a) ≤ j → j < b → setRange a1 (a1 + (b - a)) true (setRange a b false chg) j =
        false := by
  by_cases above : a1 ≤ a
  · have top : 1 ≤ a1 := by
      by_contra zero
      have room := (up (a - a1 - 1) (by omega)).1
      omega
    have raised : Shifted h a1 (a1 + (b - a)) (a - a1)
        (setRange a1 (a1 + (b - a)) true
          (setRange (a1 + (a - a1)) (a1 + (b - a) + (a - a1)) false chg)) chg := by
      apply shifted_up
      · omega
      · intro i inside
        have same := (up (a - a1 - 1 - i) (by omega)).2.1
        rw [show a - 1 - (a - a1 - 1 - i) = a1 + i by omega,
          show b - 1 - (a - a1 - 1 - i) = a1 + (b - a) + i by omega] at same
        exact same
      · exact fun i first last => block i (by omega) (by omega)
      · intro i first last
        have free := (up (a - 1 - i) (by omega)).2.2
        rwa [show a - 1 - (a - 1 - i) = i by omega] at free
    have free := raised.upperFree
    rw [show a1 + (a - a1) = a by omega,show a1 + (b - a) + (a - a1) = b by omega] at raised free
    exact ⟨fits.shift_up raised,free⟩
  · have lowered : Shifted h a b (a1 - a) chg
        (setRange (a + (a1 - a)) (b + (a1 - a)) true (setRange a b false chg)) := by
      have room := (down (a1 - a - 1) (by omega)).1
      apply shifted_down (by omega) (fun i inside => (down i inside).2.1) block
      intro i first last
      have free := (down (i - b) (by omega)).2.2
      rwa [Nat.add_sub_cancel' first] at free
    rw [show a + (a1 - a) = a1 by omega,show b + (a1 - a) = a1 + (b - a) by omega] at lowered
    exact ⟨fits.shift_down lowered,fun j first last => by omega⟩

theorem alignLoop_spec (fuel a base : Nat) (fits : Fits h list chg) (low : 1 ≤ a)
    (free : ∀ j, a ≤ j → j < base → chg j = false) (order : a ≤ h.length + 1)
    (within : base ≤ h.length + 1) (enough : h.length + 1 < fuel + base) :
    ∃ chg', alignLoop h h.length dcost fuel a chg = .ok chg' ∧ Fits h list chg' := by
  induction fuel generalizing a base chg with
  | zero => omega
  | succ fuel ih =>
    obtain ⟨up,skipped,found,bound⟩ := skipUp_spec h.length chg false (h.length + 1 - a) a (by omega)
    unfold alignLoop
    generalize skipUp h.length chg false (h.length + 1 - a) a = start at up skipped found bound
    dsimp only
    split
    · exact ⟨chg,rfl,fits⟩
    next more =>
      have marked := found (by omega)
      have late : base ≤ start := by
        by_contra early
        rw [free start up (by omega)] at marked
        cases marked
      obtain ⟨low',block,stop,bound'⟩ :=
        skipUp_spec h.length chg true (h.length + 1 - start) start (by omega)
      generalize skipUp h.length chg true (h.length + 1 - start) start =
        end_ at low' block stop bound'
      have advance : start < end_ := by
        apply lt_of_le_of_ne low'
        intro same
        rw [← same,marked] at stop
        cases stop (by omega)
      have inside := bound' (by omega)
      have stay :=
        ih end_ end_ fits (by omega) (fun j first last => by omega) inside inside (by omega)
      have ups := shiftUp_spec (h := h) chg start end_ start 0 (fun k none => by omega)
      have downs := shiftDown_spec (h := h) h.length chg start end_ (h.length + 1 - end_) 0
        (fun k none => by omega)
      generalize shiftUp h chg start end_ start 0 = up' at ups
      generalize shiftDown h h.length chg start end_ (h.length + 1 - end_) 0 = down at downs
      split
      next =>
        have room : up' < start := by
          by_contra far
          have step := (ups (start - 1) (by omega)).1
          omega
        obtain ⟨p,best,least,most⟩ := bestAlign_spec dcost (end_ - start) (start - up') (start + down)
          (up' + down + 1) (start - up') none (le_refl _) (by omega) (.inr ⟨rfl,by omega⟩)
        rw [best]
        dsimp only
        split
        next moves =>
          obtain ⟨fits',free'⟩ := Fits.moved p.2 fits ⟨by omega,low'⟩ inside block
            (fun k near => ups k (by omega)) (fun k near => downs k (by omega))
          have bottom : p.2 + (end_ - start) ≤ h.length + 1 := by
            by_contra far
            have step := (downs (p.2 - start - 1) (by omega)).1
            omega
          exact ih _ end_ fits' (by omega) free' bottom inside (by omega)
        next => exact stay
      next => exact stay

theorem align_blocks_spec (fits : Fits h list chg) :
    ∃ chg', align_blocks h h.length dcost chg = .ok chg' ∧ Fits h list chg' :=
  alignLoop_spec dcost (h.length + 1) 1 1 fits (le_refl 1) (fun j low high => by omega) (by omega)
    (by omega)
    (by omega)

end

end BitKeeper.Libdiff
