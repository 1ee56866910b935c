import Mathlib

/-!
`diff_cmpIgnoreWS` and `diff_cmpIgnoreWSChg` with their hashes. A line is cut at its solid bytes into
white runs, its gaps; where only the right line is still in white space the second comparison looks at
the byte before that place in the left line.
-/

namespace BitKeeper.Libdiff.Space

open List hiding getElem?_eq_some_iff isEmpty_iff

abbrev Byte := UInt8

def isspace (c : Byte) : Bool := c == 32 || (9 ≤ c && c ≤ 13)

def matching : List Byte → List Byte → Nat
  | x :: u, y :: v => if x = y then matching u v + 1 else 0
  | _, _ => 0

def blanks (a : List Byte) (i : Nat) : Nat := ((a.drop i).takeWhile isspace).length

def cmpIgnoreWSLoop (a b : List Byte) : Nat → Nat → Nat → Nat × Nat
  | 0, i, j => (i, j)
  | fuel + 1, i, j =>
    let n := matching (a.drop i) (b.drop j)
    let i := i + n + blanks a (i + n)
    let j := j + n + blanks b (j + n)
    if i < a.length ∧ j < b.length ∧ a[i]? = b[j]? then cmpIgnoreWSLoop a b fuel (i + 1) (j + 1)
      else (i, j)

def diff_cmpIgnoreWS (a b : List Byte) : Nat :=
  if cmpIgnoreWSLoop a b (a.length + 1) 0 0 = (a.length, b.length) then 0 else 1

def byteAt (past : Nat → Byte) (a : List Byte) (i : Nat) : Byte := a.getD i (past (i - a.length))

def spaceAt (a : List Byte) (i : Nat) : Bool := (a[i]?).any isspace

def spaceBefore (past : Nat → Byte) (a : List Byte) (i : Nat) : Bool :=
  i ≠ 0 && isspace (byteAt past a (i - 1))

def cmpIgnoreWSChgLoop (past : Nat → Byte) (a b : List Byte) : Nat → Nat → Nat → Nat × Nat
  | 0, i, j => (i, j)
  | fuel + 1, i, j =>
    let n := matching (a.drop i) (b.drop j)
    let i := i + n
    let j := j + n
    let sa := spaceAt a i
    let sb := spaceAt b j
    if !(sa || sb) then (i, j)
    -- the second look behind is into the left line, too
    else if !(sa && sb) && (sa && !spaceBefore past a i || sb && !spaceBefore past a j) then (i, j)
    else
      let i := i + blanks a i
      let j := j + blanks b j
      if i < a.length ∧ j < b.length ∧ a[i]? = b[j]? then cmpIgnoreWSChgLoop past a b fuel
        (i + 1) (j + 1)
      else (i, j)

def diff_cmpIgnoreWSChg (past : Nat → Byte) (a b : List Byte) : Nat :=
  if cmpIgnoreWSChgLoop past a b (a.length + 1) 0 0 = (a.length, b.length) then 0 else 1

def MAXLINE : Nat := 2048

section Hash
variable (crc32c : UInt32 → List Byte → UInt32)

def copyByte (state : UInt32 × List Byte) (c : Byte) :
    UInt32 × List Byte := let copy := state.2 ++ [c]
  if copy.length ≥ MAXLINE then (crc32c state.1 copy, []) else (state.1, copy)

def lastCopy (state : UInt32 × List Byte) : UInt32 :=
  if state.2.length ≠ 0 then crc32c state.1 state.2 else state.1

def hashIgnoreWSLoop : List Byte → UInt32 × List Byte → UInt32 × List Byte
  | [], state => state
  | c :: rest, state => hashIgnoreWSLoop rest (if isspace c then state else copyByte crc32c state c)

def diff_hashIgnoreWS (a : List Byte) : UInt32 := lastCopy crc32c (hashIgnoreWSLoop crc32c a (0, []))

def hashIgnoreWSChgLoop : Nat → List Byte → UInt32 × List Byte → UInt32 × List Byte
  | 0, _, state => state
  | _ + 1, [], state => state
  | fuel + 1, c :: rest, state =>
    if isspace c then hashIgnoreWSChgLoop fuel (rest.dropWhile isspace) (copyByte crc32c state 32)
    else hashIgnoreWSChgLoop fuel rest (copyByte crc32c state c)

def diff_hashIgnoreWSChg (a : List Byte) : UInt32 :=
  lastCopy crc32c (hashIgnoreWSChgLoop crc32c a.length a (0, []))

end Hash

def solid (a : List Byte) : List Byte := a.filter (fun c => !isspace c)

/-- Every run of white space becomes one space; `inside` if the line starts in a run that has its
space. -/
def squeeze (inside : Bool) : List Byte → List Byte
  | [] => []
  | c :: rest =>
    if isspace c then (if inside then squeeze true rest else 32 :: squeeze true rest)
    else c :: squeeze false rest

def gaps (a : List Byte) : List (List Byte) := a.splitOnP (fun c => !isspace c)

variable {c : Byte} {a b u v : List Byte}

theorem gaps_white (white : isspace c = true) : gaps (c :: a) = (gaps a).modifyHead (List.cons c) :=
  by
  unfold gaps
  rw [splitOnP_cons_eq_if_modifyHead,white]
  rfl

theorem gaps_solid (black : isspace c = false) : gaps (c :: a) = [] :: gaps a := by
  unfold gaps
  rw [splitOnP_cons_eq_if_modifyHead,black]
  rfl

theorem solid_white (white : isspace c = true) : solid (c :: a) = solid a :=
  filter_cons_of_neg (by rw [white]; decide)

theorem solid_solid (black : isspace c = false) : solid (c :: a) = c :: solid a :=
  filter_cons_of_pos (by rw [black]; rfl)

theorem gaps_eq (a : List Byte) :
    gaps a = a.takeWhile isspace :: (gaps (a.dropWhile isspace)).tail ∧
      (gaps (a.dropWhile isspace)).head? = some [] ∧ solid (a.dropWhile isspace) = solid a := by
  induction a with
  | nil => exact ⟨rfl,rfl,rfl⟩
  | cons c a ih =>
    cases white : isspace c with
    | true =>
      rw [gaps_white white,ih.1,takeWhile_cons_of_pos white,dropWhile_cons_of_pos white,
        solid_white white]
      exact ⟨rfl,ih.2⟩
    | false =>
      have stays : ¬ isspace c = true := by
        rw [white]
        decide
      rw [takeWhile_cons_of_neg stays,dropWhile_cons_of_neg stays,gaps_solid white]
      exact ⟨rfl,rfl,rfl⟩

theorem gaps_length (a : List Byte) : (gaps a).length = (solid a).length + 1 := by
  induction a with
  | nil => rfl
  | cons c a ih =>
    cases white : isspace c with
    | true => rw [gaps_white white,length_modifyHead,ih,solid_white white]
    | false => rw [gaps_solid white,length_cons,ih,solid_solid white,length_cons]

private theorem solid_stop (left : ∀ c, u.head? = some c → isspace c = false)
    (right : ∀ c, v.head? = some c → isspace c = false)
    (stop : ∀ c, u.head? = some c → v.head? ≠ some c) : solid u = solid v ↔ u = [] ∧ v = [] := by
  constructor
  · intro same
    cases u with
    | nil =>
      cases v with
      | nil => exact ⟨rfl,rfl⟩
      | cons d v =>
        rw [solid_solid (right d rfl)] at same
        exact absurd same (cons_ne_nil _ _).symm
    | cons c u =>
      rw [solid_solid (left c rfl)] at same
      cases v with
      | nil => exact absurd same (cons_ne_nil _ _)
      | cons d v =>
        rw [solid_solid (right d rfl)] at same
        rw [(List.cons.inj same).1] at stop
        exact absurd rfl (stop d rfl)
  · rintro ⟨rfl,rfl⟩
    rfl

theorem drop_cons {i : Nat} (here : a[i]? = some c) : a.drop i = c :: a.drop (i + 1) := by
  obtain ⟨within,rfl⟩ := List.getElem?_eq_some_iff.mp here
  exact drop_eq_getElem_cons within

theorem matching_moves {P : Nat → Nat → Prop}
    (step : ∀ i j c, a[i]? = some c → b[j]? = some c → (P i j ↔ P (i + 1) (j + 1))) (i j : Nat) :
    (P i j ↔ P (i + matching (a.drop i) (b.drop j)) (j + matching (a.drop i) (b.drop j))) ∧
      ∀ c, a[i + matching (a.drop i) (b.drop j)]? = some c →
        b[j + matching (a.drop i) (b.drop j)]? ≠ some c := by
  generalize rest : a.drop i = u
  induction u generalizing i j with
  | nil =>
    have over_ : a[i]? = none := by rw [← head?_drop,rest]; rfl
    refine ⟨Iff.rfl,?_⟩
    intro c here
    exact absurd (over_.symm.trans here) (Option.some_ne_none c).symm
  | cons x u ih =>
    have here : a[i]? = some x := by rw [← head?_drop,rest]; rfl
    have tail : a.drop (i + 1) = u := by
      rw [drop_cons here] at rest
      exact (List.cons.inj rest).2
    cases there : b[j]? with
    | none =>
      have last : b.drop j = [] := drop_eq_nil_of_le (getElem?_eq_none_iff.mp there)
      rw [last]
      exact ⟨Iff.rfl,fun c _ found => absurd (there.symm.trans found) (Option.some_ne_none c).symm⟩
    | some y =>
      rw [drop_cons there]
      unfold matching
      split
      next same =>
        rw [step i j x here (same ▸ there)]
        have moved := ih (i + 1) (j + 1) tail
        generalize matching u (b.drop (j + 1)) = n at moved ⊢
        rwa [Nat.add_right_comm i 1 n,Nat.add_right_comm j 1 n] at moved
      next same =>
        refine ⟨Iff.rfl,?_⟩
        intro c found other
        apply same
        exact Option.some.inj (here.symm.trans (found.trans (other.symm.trans there)))

theorem drop_blanks (a : List Byte) (i : Nat) :
    a.drop (i + blanks a i) = (a.drop i).dropWhile isspace := by
  unfold blanks
  rw [← drop_drop]
  generalize a.drop i = u
  conv_lhs => arg 2; rw [← takeWhile_append_dropWhile (p := isspace) (l := u)]
  exact drop_left

theorem blanks_le {i : Nat} (within : i ≤ a.length) : i + blanks a i ≤ a.length := by
  have bound := ( takeWhile_prefix isspace (l := a.drop i)).length_le
  unfold blanks
  rw [length_drop] at bound
  omega

theorem skipped_black (i : Nat) (c : Byte) (first : (a.drop (i + blanks a i)).head? = some c) :
    isspace c = false := by
  have stops := head?_dropWhile_not isspace (a.drop i)
  rwa [← drop_blanks,first] at stops

theorem skipped_apart {i j : Nat} (stop : ¬ (i < a.length ∧ j < b.length ∧ a[i]? = b[j]?)) (c : Byte)
    (here : (a.drop i).head? = some c) : (b.drop j).head? ≠ some c := by
  intro there
  rw [head?_drop] at here there
  have inside := (List.getElem?_eq_some_iff.mp here).1
  have inside' := (List.getElem?_eq_some_iff.mp there).1
  exact stop ⟨inside,inside',here.trans there.symm⟩

theorem at_end {i j : Nat} (inA : i ≤ a.length) (inB : j ≤ b.length) :
    (i, j) = (a.length, b.length) ↔ a.drop i = [] ∧ b.drop j = [] := by
  rw [drop_eq_nil_iff,drop_eq_nil_iff,Prod.mk.injEq]
  omega

theorem matching_le (i j : Nat) (inA : i ≤ a.length) (inB : j ≤ b.length) :
    i + matching (a.drop i) (b.drop j) ≤ a.length ∧ j + matching (a.drop i) (b.drop j) ≤ b.length :=
  by
  have moves :=
      (matching_moves (P := fun i j => i ≤ a.length ∧ j ≤ b.length) (a := a) (b := b)
      (fun i j c here there => by
    have inside := (List.getElem?_eq_some_iff.mp here).1
    have inside' := (List.getElem?_eq_some_iff.mp there).1
    omega) i j).1
  exact moves.mp ⟨inA,inB⟩

private theorem cmpIgnoreWSLoop_spec (fuel i j : Nat) (inA : i ≤ a.length) (inB : j ≤ b.length)
    (enough : a.length < fuel + i) :
    cmpIgnoreWSLoop a b fuel i j = (a.length, b.length) ↔ solid (a.drop i) = solid (b.drop j) := by
  induction fuel generalizing i j with
  | zero => omega
  | succ fuel ih =>
    have moves := (matching_moves (P := fun i j => solid (a.drop i) = solid (b.drop j))
      (a := a) (b := b)
      (fun i j c here there => by
        rw [drop_cons here,drop_cons there]
        cases white : isspace c with
        | true => rw [solid_white white,solid_white white]
        | false => rw [solid_solid white,solid_solid white,cons_inj_right]) i j).1
    have bounds := matching_le i j inA inB
    rw [moves]
    unfold cmpIgnoreWSLoop
    dsimp only
    generalize matching (a.drop i) (b.drop j) = n at *
    split
    next same =>
      obtain ⟨c,here⟩ : ∃ c, a[i + n + blanks a (i + n)]? = some c := ⟨_,getElem?_eq_getElem same.1⟩
      have there := same.2.2.symm.trans here
      rw [ih _ _ same.1 same.2.1 (by omega),← (gaps_eq (a.drop (i + n))).2.2,
        ← (gaps_eq (b.drop (j + n))).2.2,← drop_blanks,← drop_blanks,drop_cons here,drop_cons there]
      have black : isspace c = false := skipped_black (i + n) c (by rw [head?_drop,here])
      rw [solid_solid black,solid_solid black,cons_inj_right]
    next stop =>
      rw [at_end (blanks_le bounds.1) (blanks_le bounds.2),
        ← solid_stop (skipped_black (i + n)) (skipped_black (j + n)) (skipped_apart stop),
        drop_blanks,drop_blanks,
        (gaps_eq (a.drop (i + n))).2.2,(gaps_eq (b.drop (j + n))).2.2]

theorem cmpIgnoreWS_solid : diff_cmpIgnoreWS a b = 0 ↔ solid a = solid b := by
  have loop :=
    cmpIgnoreWSLoop_spec (a := a) (b := b) (a.length + 1) 0 0 (Nat.zero_le _) (Nat.zero_le _)
    (by omega)
  rw [drop_zero,drop_zero] at loop
  unfold diff_cmpIgnoreWS
  rw [← loop]
  split <;> simp_all

/-- How the walk gets through a gap: `prev` if it is in a run of both lines, `white j` what the look
behind finds before `j`. -/
def Fine (white : Nat → Bool) (j : Nat) (prev : Bool) (w w' : List Byte) : Prop :=
  (w' <+: w → w' = w ∨ prev = true ∨ w' ≠ []) ∧ (w <+: w' → w = w' ∨ white (j + w.length) = true)

def Tracks (white : Nat → Bool) : Nat → Bool → List (List Byte) → List (List Byte) → Prop
  | j, prev, w :: ws, w' :: ws' =>
    Fine white j prev w w' ∧ Tracks white (j + w'.length + 1) false ws ws'
  | _, _, [], [] => True
  | _, _, _, _ => False

def Passes (white : Nat → Bool) (j : Nat) (prev : Bool) (u v : List Byte) : Prop :=
  solid u = solid v ∧ Tracks white j prev (gaps u) (gaps v)

variable {white : Nat → Bool} {j : Nat} {prev : Bool}

theorem fine_self (w : List Byte) : Fine white j prev w w := ⟨fun _ => .inl rfl, fun _ => .inl rfl⟩

private theorem fine_cons (c : Byte) (w w' : List Byte) :
    Fine white j prev (c :: w) (c :: w') ↔ Fine white (j + 1) true w w' := by
  unfold Fine
  rw [prefix_cons_inj,prefix_cons_inj,cons_inj_right,cons_inj_right,length_cons,
    Nat.add_assoc,Nat.add_comm 1]
  simp

theorem passes_cons (c : Byte) (u v : List Byte) :
    Passes white j prev (c :: u) (c :: v) ↔ Passes white (j + 1) (isspace c) u v := by
  unfold Passes
  cases space : isspace c with
  | true =>
    rw [solid_white space,solid_white space,gaps_white space,gaps_white space,(gaps_eq u).1,
      (gaps_eq v).1,modifyHead_cons,modifyHead_cons]
    unfold Tracks
    rw [fine_cons,length_cons,Nat.add_right_comm j 1]
    rfl
  | false =>
    rw [solid_solid space,solid_solid space,gaps_solid space,gaps_solid space,cons_inj_right]
    conv_lhs => unfold Tracks
    rw [and_iff_right (fine_self [])]
    rfl

private theorem passes_runs (prev' : Bool) (u v : List Byte) :
    Passes white j prev u v ↔ Fine white j prev (u.takeWhile isspace) (v.takeWhile isspace) ∧
      Passes white (j + (v.takeWhile isspace).length) prev' (u.dropWhile isspace)
    (v.dropWhile isspace) := by
  have rest (u : List Byte) : gaps (u.dropWhile isspace) = [] :: (gaps (u.dropWhile isspace)).tail :=
    (cons_head?_tail (gaps_eq u).2.1).symm
  unfold Passes
  rw [(gaps_eq u).2.2,(gaps_eq v).2.2,(gaps_eq u).1,(gaps_eq v).1,rest u,rest v]
  conv_lhs => unfold Tracks
  conv_rhs => unfold Tracks
  rw [and_iff_right (fine_self []),and_left_comm]
  rfl

theorem passes_stop (left : ∀ c, u.head? = some c → isspace c = false)
    (right : ∀ c, v.head? = some c → isspace c = false)
    (stop : ∀ c, u.head? = some c → v.head? ≠ some c) : Passes white j prev u v ↔ u = [] ∧ v = [] :=
  by
  constructor
  · intro passes
    exact (solid_stop left right stop).mp passes.1
  · rintro ⟨rfl,rfl⟩
    exact ⟨rfl,fine_self [],trivial⟩

theorem fine_left {w : List Byte} (inside : w ≠ []) : Fine white j prev w [] ↔ prev = true := by
  unfold Fine
  simp [inside,inside.symm]

theorem fine_right {w : List Byte} (inside : w ≠ []) : Fine white j prev [] w ↔ white j = true := by
  unfold Fine
  simp [inside,inside.symm]

private theorem fine_differ {c d : Byte} (differ : c ≠ d) (w w' : List Byte) :
    Fine white j prev (c :: w) (d :: w') := by
  constructor
  · intro _
    exact .inr (.inr (cons_ne_nil _ _))
  · intro same
    exact absurd (cons_prefix_cons.mp same).1 differ

variable {past : Nat → Byte}

theorem spaceBefore_succ {i : Nat} (here : a[i]? = some c) :
    spaceBefore past a (i + 1) = isspace c := by
  unfold spaceBefore byteAt
  rw [Nat.add_sub_cancel,getD_eq_getElem?_getD,here]
  simp

private theorem passes_step (white : Nat → Bool) (i j : Nat) (here : a[i]? = some c)
    (there : b[j]? = some c) :
    Passes white j (spaceBefore past a i) (a.drop i) (b.drop j) ↔
      Passes white (j + 1) (spaceBefore past a (i + 1)) (a.drop (i + 1)) (b.drop (j + 1)) := by
  rw [drop_cons here,drop_cons there,passes_cons,spaceBefore_succ here]

theorem spaceAt_run (a : List Byte) (i : Nat) :
    (spaceAt a i = false ∧ (a.drop i).takeWhile isspace = []) ∨
      (spaceAt a i = true ∧ ∃ c w, a[i]? = some c ∧ (a.drop i).takeWhile isspace = c :: w) := by
  unfold spaceAt
  cases here : a[i]? with
  | none =>
    rw [drop_eq_nil_of_le (getElem?_eq_none_iff.mp here)]
    exact .inl ⟨rfl,rfl⟩
  | some c =>
    rw [drop_cons here,Option.any_some]
    cases space : isspace c with
    | true =>
      rw [takeWhile_cons_of_pos space]
      exact .inr ⟨rfl,c,_,rfl,rfl⟩
    | false =>
      rw [takeWhile_cons_of_neg (by rw [space]; decide)]
      exact .inl ⟨rfl,rfl⟩

theorem spaceAt_black {i : Nat} (none : spaceAt a i = false) (c : Byte)
    (first : (a.drop i).head? = some c) :
    isspace c = false := by
  rw [head?_drop] at first
  unfold spaceAt at none
  rwa [first] at none

theorem spaceAt_end {i : Nat} (outside : a.length ≤ i) : spaceAt a i = false := by
  unfold spaceAt
  rw [getElem?_eq_none_iff.mpr outside]
  rfl

private theorem fine_tests {i : Nat} (stop : ∀ c, a[i]? = some c → b[j]? ≠ some c) :
    Fine white j prev ((a.drop i).takeWhile isspace) ((b.drop j).takeWhile isspace) ↔
      (!(spaceAt a i && spaceAt b j) && (spaceAt a i && !prev || spaceAt b j && !white j)) =
      false := by
  rcases spaceAt_run a i with ⟨sa,run⟩ | ⟨sa,c,w,here,run⟩
  · rcases spaceAt_run b j with ⟨sb,run'⟩ | ⟨sb,d,w',there,run'⟩
    · rw [run,run',sa,sb]
      exact ⟨fun _ => rfl, fun _ => fine_self []⟩
    · rw [run,run',sa,sb,fine_right (cons_ne_nil _ _)]
      simp
  · rcases spaceAt_run b j with ⟨sb,run'⟩ | ⟨sb,d,w',there,run'⟩
    · rw [run,run',sa,sb,fine_left (cons_ne_nil _ _)]
      simp
    · rw [run,run',sa,sb]
      have differ : c ≠ d := by
        intro same
        exact stop c here (same ▸ there)
      exact ⟨fun _ => rfl, fun _ => fine_differ differ w w'⟩

private theorem cmpIgnoreWSChgLoop_spec (fuel i j : Nat) (inA : i ≤ a.length) (inB : j ≤ b.length)
    (enough : a.length < fuel + i) :
    cmpIgnoreWSChgLoop past a b fuel i j = (a.length, b.length) ↔
      Passes (spaceBefore past a) j (spaceBefore past a i) (a.drop i) (b.drop j) := by
  induction fuel generalizing i j with
  | zero => omega
  | succ fuel ih =>
    have moves := matching_moves
      (P := fun i j => Passes (spaceBefore past a) j (spaceBefore past a i) (a.drop i) (b.drop j))
      (fun i j c => passes_step (spaceBefore past a) i j) i j
    have bounds := matching_le i j inA inB
    rw [moves.1]
    have stop := moves.2
    unfold cmpIgnoreWSChgLoop
    dsimp only
    generalize matching (a.drop i) (b.drop j) = n at *
    have later : a.length < fuel + 1 + (i + n) := by omega
    generalize i + n = i at *
    generalize j + n = j at *
    split
    next neither =>
      rw [Bool.not_eq_true',Bool.or_eq_false_iff] at neither
      rw [passes_stop (spaceAt_black neither.1) (spaceAt_black neither.2)
        (by rwa [head?_drop,head?_drop]),at_end bounds.1 bounds.2]
    next white =>
      rw [passes_runs false,fine_tests stop,← drop_blanks,← drop_blanks]
      split
      next ends =>
        rw [ends,Prod.mk.injEq]
        have inside : i < a.length ∨ j < b.length := by
          by_contra outside
          rw [spaceAt_end (by omega),spaceAt_end (by omega)] at white
          exact white rfl
        constructor
        · omega
        · rintro ⟨passed,-⟩
          cases passed.symm
      next goes =>
        rw [and_iff_right (eq_false_of_ne_true goes)]
        split
        next same =>
          obtain ⟨c,here⟩ : ∃ c, a[i + blanks a i]? = some c := ⟨_,getElem?_eq_getElem same.1⟩
          have there := same.2.2.symm.trans here
          rw [ih _ _ same.1 same.2.1 (by omega),drop_cons here,drop_cons there,passes_cons,
            spaceBefore_succ here]
          rfl
        next apart =>
          rw [at_end (blanks_le bounds.1) (blanks_le bounds.2),
            passes_stop (skipped_black i) (skipped_black j) (skipped_apart apart)]

def flags (a : List Byte) : List Bool := (gaps a).map List.isEmpty

theorem solid_squeeze (inside : Bool) (a : List Byte) : solid (squeeze inside a) = solid a := by
  induction a generalizing inside with
  | nil => rfl
  | cons c a ih =>
    unfold squeeze
    cases space : isspace c with
    | true =>
      rw [if_pos rfl,solid_white space]
      split
      · exact ih true
      · rw [solid_white (by decide)]
        exact ih true
    | false => rw [if_neg Bool.false_ne_true,solid_solid space,solid_solid space,ih]

theorem flags_squeeze (inside : Bool) (a : List Byte) :
    flags (squeeze inside a) = (flags a).modifyHead (inside || ·) := by
  induction a generalizing inside with
  | nil => cases inside <;> rfl
  | cons c a ih =>
    have after := ih true
    unfold flags at after ih ⊢
    unfold squeeze
    cases space : isspace c with
    | true =>
      rw [(gaps_eq a).1] at after
      rw [if_pos rfl,gaps_white space,(gaps_eq a).1]
      cases inside with
      | true => exact after
      | false =>
        rw [if_neg Bool.false_ne_true,gaps_white (by decide)]
        rw [(gaps_eq (squeeze true a)).1] at after ⊢
        exact congrArg (List.cons false) (List.cons.inj after).2
    | false =>
      rw [if_neg Bool.false_ne_true,gaps_solid space,gaps_solid space,map_cons,map_cons,ih false,
        (gaps_eq a).1]
      cases inside <;> rfl

def rebuild : List Bool → List Byte → List Byte
  | true :: fs, c :: cs => c :: rebuild fs cs
  | false :: fs, c :: cs => 32 :: c :: rebuild fs cs
  | false :: _, [] => [32]
  | _, _ => []

theorem squeeze_rebuild (inside : Bool) (a : List Byte) :
    squeeze inside a = rebuild ((flags a).modifyHead (inside || ·)) (solid a) := by
  induction a generalizing inside with
  | nil => cases inside <;> rfl
  | cons c a ih =>
    have after := ih true
    have fresh := ih false
    unfold flags at after fresh ⊢
    rw [(gaps_eq a).1] at after fresh
    unfold squeeze
    cases space : isspace c with
    | true =>
      rw [if_pos rfl,gaps_white space,(gaps_eq a).1,solid_white space,after]
      cases inside with
      | true => rfl
      | false => cases solid a <;> rfl
    | false =>
      rw [if_neg Bool.false_ne_true,gaps_solid space,(gaps_eq a).1,solid_solid space,fresh]
      cases inside <;> rfl

theorem squeeze_iff : squeeze false a = squeeze false b ↔ solid a = solid b ∧ flags a = flags b := by
  have id_ (fs : List Bool) : fs.modifyHead (false || ·) = fs := by cases fs <;> rfl
  constructor
  · intro same
    constructor
    · rw [← solid_squeeze false a,same,solid_squeeze]
    · rw [← id_ (flags a),← flags_squeeze,same,flags_squeeze,id_]
  · rintro ⟨solids,empties⟩
    rw [squeeze_rebuild,squeeze_rebuild,solids,empties]

section
variable (crc32c : UInt32 → List Byte → UInt32)

theorem hashIgnoreWSLoop_solid (a : List Byte) (state : UInt32 × List Byte) :
    hashIgnoreWSLoop crc32c a state = (solid a).foldl (copyByte crc32c) state := by
  induction a generalizing state with
  | nil => rfl
  | cons c a ih =>
    unfold hashIgnoreWSLoop
    cases space : isspace c with
    | true => rw [if_pos rfl,ih,solid_white space]
    | false => rw [if_neg Bool.false_ne_true,ih,solid_solid space,foldl_cons]

theorem squeeze_inside (a : List Byte) : squeeze true a = squeeze false (a.dropWhile isspace) := by
  induction a with
  | nil => rfl
  | cons c a ih =>
    cases space : isspace c with
    | true =>
      rw [dropWhile_cons_of_pos space,← ih]
      unfold squeeze
      rw [if_pos space,if_pos rfl]
      cases a <;> rfl
    | false =>
      rw [dropWhile_cons_of_neg (by rw [space]; decide)]
      unfold squeeze
      rw [space,if_neg Bool.false_ne_true,if_neg Bool.false_ne_true]

theorem hashIgnoreWSChgLoop_squeeze (fuel : Nat) (a : List Byte) (state : UInt32 × List Byte)
    (enough : a.length ≤ fuel) :
    hashIgnoreWSChgLoop crc32c fuel a state = (squeeze false a).foldl (copyByte crc32c) state := by
  induction fuel generalizing a state with
  | zero =>
    rw [length_eq_zero_iff.mp (Nat.le_zero.mp enough)]
    rfl
  | succ fuel ih =>
    cases a with
    | nil => rfl
    | cons c a =>
      rw [length_cons] at enough
      unfold hashIgnoreWSChgLoop squeeze
      cases space : isspace c with
      | true =>
        have shorter := (dropWhile_suffix isspace (l := a)).length_le
        rw [if_pos rfl,ih _ _ (by omega),if_pos rfl,if_neg Bool.false_ne_true,squeeze_inside,
          foldl_cons]
      | false => rw [if_neg Bool.false_ne_true,ih _ _ (by omega),if_neg Bool.false_ne_true,foldl_cons]

end

def gapAt (a : List Byte) (k : Nat) : List Byte := (gaps a).getD k []

def gapStart (a : List Byte) (k : Nat) : Nat := k + ((gaps a).take k).flatten.length

/-- The right run goes on behind the left one, and of the byte the walk looks at and the byte before
its place one is white. -/
def Misread (past : Nat → Byte) (a b : List Byte) (k : Nat) : Prop :=
  gapAt a k <+: gapAt b k ∧ gapAt a k ≠ gapAt b k ∧
    (spaceBefore past a (gapStart b k + (gapAt a k).length) = true ↔ gapAt a k = [])

def Uneven (a b : List Byte) (k : Nat) : Prop := ¬ (gapAt a k = [] ↔ gapAt b k = [])

private theorem fine_iff (k : Nat) :
    Fine (spaceBefore past a) (gapStart b k) false (gapAt a k) (gapAt b k) ↔
      (Uneven a b k ↔ Misread past a b k) := by
  unfold Uneven Misread Fine
  generalize gapAt a k = w
  generalize gapAt b k = w'
  generalize gapStart b k = j
  cases w with
  | nil => cases w' <;> simp
  | cons c w =>
    cases w' with
    | nil => simp
    | cons d w' =>
      simp
      tauto

private theorem tracks_iff {gs hs : List (List Byte)} (long : gs.length = hs.length) (j : Nat) :
    Tracks white j false gs hs ↔
      ∀ k, Fine white (j + (k + (hs.take k).flatten.length)) false (gs.getD k []) (hs.getD k []) := by
  induction gs generalizing hs j with
  | nil =>
    rw [length_eq_zero_iff.mp long.symm]
    exact ⟨fun _ k => fine_self [], fun _ => trivial⟩
  | cons w gs ih =>
    cases hs with
    | nil => exact absurd long (Nat.succ_ne_zero _)
    | cons w' hs =>
      unfold Tracks
      rw [ih (Nat.succ.inj long)]
      have later (k : Nat) : j + w'.length + 1 + (k + (hs.take k).flatten.length) =
          j + (k + 1 + ((w' :: hs).take (k + 1)).flatten.length) := by
        rw [take_succ_cons,flatten_cons,length_append]
        omega
      constructor
      · rintro ⟨first,rest⟩ k
        cases k with
        | zero => exact first
        | succ k =>
          have there := rest k
          rwa [later] at there
      · intro all
        refine ⟨all 0,?_⟩
        intro k
        rw [later]
        exact all (k + 1)

theorem flags_iff (solids : solid a = solid b) : flags a = flags b ↔ ∀ k, ¬ Uneven a b k := by
  have long : (gaps a).length = (gaps b).length := by rw [gaps_length,gaps_length,solids]
  have at_ (a : List Byte) (k : Nat) : (flags a).getD k true = (gapAt a k).isEmpty :=
    getD_map (gaps a) [] List.isEmpty
  constructor
  · intro same k uneven
    have here := at_ a k
    rw [same,at_,Bool.eq_iff_iff,List.isEmpty_iff,List.isEmpty_iff] at here
    exact uneven here.symm
  intro even
  apply ext_getElem
  · unfold flags
    rw [length_map,length_map,long]
  · intro k inA inB
    rw [← getD_eq_getElem _ true,← getD_eq_getElem _ true,at_,at_,Bool.eq_iff_iff,List.isEmpty_iff,
      List.isEmpty_iff]
    exact not_not.mp (even k)

private theorem cmpIgnoreWSChg_gaps :
    diff_cmpIgnoreWSChg past a b = 0 ↔ solid a = solid b ∧ ∀ k, Uneven a b k ↔ Misread past a b k :=
  by
  have loop : cmpIgnoreWSChgLoop past a b (a.length + 1) 0 0 = (a.length, b.length) ↔ _ :=
    cmpIgnoreWSChgLoop_spec (a.length + 1) 0 0 (Nat.zero_le _) (Nat.zero_le _) (by omega)
  have zero : diff_cmpIgnoreWSChg past a b = 0 ↔
      cmpIgnoreWSChgLoop past a b (a.length + 1) 0 0 = (a.length, b.length) := by
    unfold diff_cmpIgnoreWSChg
    split <;> simp_all
  rw [zero,loop,drop_zero,drop_zero]
  apply and_congr_right
  intro solids
  change Tracks (spaceBefore past a) 0 false (gaps a) (gaps b) ↔ _
  rw [tracks_iff (by rw [gaps_length,gaps_length,solids])]
  apply forall_congr'
  intro k
  rw [← fine_iff,Nat.zero_add]
  rfl

/-- The lines differ in a solid byte; or no gap is misread; or there is an uneven gap, and some gap
stops the walk: an uneven one rightly read, or an even one misread. -/
def ReadsRight (past : Nat → Byte) (a b : List Byte) : Prop :=
  solid a = solid b → (∀ k, ¬ Misread past a b k) ∨
    (∃ k, Uneven a b k) ∧ ∃ k, ¬ (Uneven a b k ↔ Misread past a b k)

/-- `diff -b` and `diff -w` on two lines. -/
theorem cmpIgnoreWSChg_squeeze_iff (crc32c : UInt32 → List Byte → UInt32) (past : Nat → Byte)
    (a b : List Byte) :
    ((diff_cmpIgnoreWSChg past a b = 0 ↔ squeeze false a = squeeze false b) ∧
      (diff_cmpIgnoreWSChg past a b = 0 →
      diff_hashIgnoreWSChg crc32c a = diff_hashIgnoreWSChg crc32c b) ∧
      (diff_cmpIgnoreWS a b = 0 ↔ solid a = solid b) ∧
      (diff_cmpIgnoreWS a b = 0 → diff_hashIgnoreWS crc32c a = diff_hashIgnoreWS crc32c b)) ↔
    ReadsRight past a b := by
  have hashes (same : squeeze false a = squeeze false b) :
      diff_hashIgnoreWSChg crc32c a = diff_hashIgnoreWSChg crc32c b := by
    unfold diff_hashIgnoreWSChg
    rw [hashIgnoreWSChgLoop_squeeze crc32c _ _ _ (le_refl _),
      hashIgnoreWSChgLoop_squeeze crc32c _ _ _ (le_refl _),same]
  have solidHashes (same : solid a = solid b) : diff_hashIgnoreWS crc32c a = diff_hashIgnoreWS
      crc32c b := by
    unfold diff_hashIgnoreWS
    rw [hashIgnoreWSLoop_solid,hashIgnoreWSLoop_solid,same]
  have exactly : (diff_cmpIgnoreWSChg past a b = 0 ↔ squeeze false a = squeeze false b) ↔
      ReadsRight past a b := by
    rw [cmpIgnoreWSChg_gaps,squeeze_iff]
    by_cases solids : solid a = solid b
    · rw [flags_iff solids,and_iff_right solids,and_iff_right solids]
      constructor
      · intro agree _
        by_cases even : ∀ k, ¬ Uneven a b k
        · exact .inl (fun k misread => even k ((agree.mpr even k).mpr misread))
        · exact .inr ⟨by push Not at even; exact even,not_forall.mp (fun all => even (agree.mp all))⟩
      · intro right
        rcases right solids with never | ⟨⟨k,uneven⟩,k',stops⟩
        · exact forall_congr' fun k => ⟨fun same uneven => never k (same.mp uneven),
            fun even => ⟨fun uneven => absurd uneven even, fun misread => absurd misread (never k)⟩⟩
        · exact ⟨fun all => absurd (all k') stops, fun even => absurd uneven (even k)⟩
    · exact ⟨fun _ same => absurd same solids,
        fun _ => ⟨fun both => absurd both.1 solids, fun both => absurd both.1 solids⟩⟩
  rw [← exactly]
  exact ⟨fun all => all.1,
    fun compare => ⟨compare,fun zero => hashes (compare.mp zero), cmpIgnoreWS_solid,
    fun zero => solidHashes (cmpIgnoreWS_solid.mp zero)⟩⟩

/-- `a  b c` and `a b  c`: equal one way round only. -/
theorem cmpIgnoreWSChg_shifted :
    let a : List Byte := [97,32,32,98,32,99]
    let b : List Byte := [97,32,98,32,32,99]
    squeeze false a = squeeze false b ∧ diff_cmpIgnoreWSChg (fun _ => 0) a b = 1 ∧
      diff_cmpIgnoreWSChg (fun _ => 0) b a = 0 := by
  decide +kernel

end BitKeeper.Libdiff.Space
