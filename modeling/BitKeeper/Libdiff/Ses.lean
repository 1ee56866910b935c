import BitKeeper.Libdiff.Moving

/-!
From marks to hunks. `ses` walks both sides at once; it stays in step because both sides have the
same unmarked items.
-/

namespace BitKeeper.Libdiff

open List

section
variable {α : Type} (E : α → α → Prop)

inductive Script : Nat → Nat → List α → List α → List Hunk → Prop where
  | same {x y : Nat} {l r : List α} : List.Forall₂ E l r → Script x y l r []
  | hunk {x y : Nat} {cl cr dl dr l r : List α} {hunks : List Hunk} :
      List.Forall₂ E cl cr → 0 < dl.length + dr.length →
      Script (x + cl.length + dl.length) (y + cr.length + dr.length) l r hunks →
      (∀ h ∈ hunks, x + cl.length + dl.length < h.lstart ∧ y + cr.length + dr.length < h.rstart) →
      Script x y (cl ++ (dl ++ l)) (cr ++ (dr ++ r))
        ({ lstart := x + cl.length, llen := dl.length
           rstart := y + cr.length, rlen := dr.length } :: hunks)

variable {E} {x y : Nat} {l r : List α} {hunks : List Hunk}

theorem Script.start (script : Script E x y l r hunks) : ∀ h ∈ hunks, x ≤ h.lstart ∧ y ≤ h.rstart :=
  by
  induction script with
  | same => exact nofun
  | hunk common changed rest apart ih =>
    intro h member
    rcases mem_cons.mp member with first | later
    · rw [first]
      exact ⟨Nat.le_add_right _ _,Nat.le_add_right _ _⟩
    · have bounds := ih h later
      omega

theorem Script.cons {a b : α} (equal : E a b) (script : Script E (x + 1) (y + 1) l r hunks) :
    Script E x y (a :: l) (b :: r) hunks := by
  cases script with
  | same common => exact .same (.cons equal common)
  | @hunk _ _ cl cr dl dr l r hunks common changed rest apart =>
    have left : x + (a :: cl).length = x + 1 + cl.length := by
      rw [length_cons]
      omega
    have right : y + (b :: cr).length = y + 1 + cr.length := by
      rw [length_cons]
      omega
    rw [← left,← right] at rest apart ⊢
    exact .hunk (.cons equal common) changed rest apart

theorem Script.empty (script : Script E x y l r hunks) (left : l = []) (right : r = []) :
    hunks = [] := by
  cases script with
  | same => rfl
  | @hunk _ _ cl cr dl dr l r hunks common changed rest apart =>
    have noLeft := append_eq_nil_iff.mp (append_eq_nil_iff.mp left).2
    have noRight := append_eq_nil_iff.mp (append_eq_nil_iff.mp right).2
    rw [noLeft.1,noRight.1] at changed
    exact absurd changed (Nat.lt_irrefl 0)

theorem Script.shift (script : Script E x y l r hunks) (a b : Nat) (first : 1 ≤ x ∧ 1 ≤ y) :
    Script E (x + a - 1) (y + b - 1) l r
      (hunks.map (fun h => { h with lstart := h.lstart + a - 1, rstart := h.rstart + b - 1 })) := by
  induction script with
  | same common => exact .same common
  | @hunk x y cl cr dl dr l r hunks common changed rest apart ih =>
    have tail := ih (by omega)
    have left : x + cl.length + a - 1 = x + a - 1 + cl.length := by omega
    have left' : x + cl.length + dl.length + a - 1 = x + a - 1 + cl.length + dl.length := by omega
    have right : y + cr.length + b - 1 = y + b - 1 + cr.length := by omega
    have right' : y + cr.length + dr.length + b - 1 = y + b - 1 + cr.length + dr.length := by omega
    rw [left',right'] at tail
    rw [map_cons,left,right]
    apply Script.hunk common changed tail
    intro h member
    obtain ⟨k,inside,same⟩ := mem_map.mp member
    have bounds := apart k inside
    rw [← same]
    dsimp only
    omega

end

section
variable {α : Type} {E : α → α → Prop} {list : List α} {x : Nat}

theorem kept_skip {chg : Marks} {k : Nat} (short : k ≤ list.length)
    (marked : ∀ i, x ≤ i → i < x + k → chg i = true) :
    kept chg (list.zipIdx x) = kept chg ((list.drop k).zipIdx (x + k)) := by
  rw [zipIdx_split list short,kept_append,kept_marked,nil_append]
  intro i member
  have bounds := mem_places_zipIdx member
  rw [length_take_of_le short] at bounds
  exact marked i bounds.1 bounds.2

theorem kept_cons_free {chg : Marks} {a : α} (free : chg x = false) :
    kept chg ((a :: list).zipIdx x) = a :: kept chg (list.zipIdx (x + 1)) := by
  unfold kept
  rw [zipIdx_cons,filter_cons_of_pos (by rw [free,Bool.not_false]),map_cons]

variable {left right : Marks}

private theorem kept_heads {l r : List α} {y : Nat}
    (agree : List.Forall₂ E (kept left (l.zipIdx x)) (kept right (r.zipIdx y)))
    (leftFree : l ≠ [] → left x = false) (rightFree : r ≠ [] → right y = false) :
    (l = [] ∧ r = []) ∨ ∃ a l' b r', l = a :: l' ∧ r = b :: r' ∧ E a b ∧
      List.Forall₂ E (kept left (l'.zipIdx (x + 1))) (kept right (r'.zipIdx (y + 1))) := by
  cases l with
  | nil =>
    cases r with
    | nil => exact .inl ⟨rfl,rfl⟩
    | cons b r =>
      rw [kept_cons_free (rightFree (cons_ne_nil b r))] at agree
      cases agree
  | cons a l =>
    rw [kept_cons_free (leftFree (cons_ne_nil a l))] at agree
    cases r with
    | nil => cases agree
    | cons b r =>
      rw [kept_cons_free (rightFree (cons_ne_nil b r))] at agree
      cases agree with
      | cons equal rest => exact .inr ⟨a,l,b,r,rfl,rfl,equal,rest⟩

theorem Script.changed {y x' y' : Nat} {l r : List α} {hunks : List Hunk} (leftLe : x ≤ x')
    (rightLe : y ≤ y') (leftShort : x' - x ≤ l.length) (rightShort : y' - y ≤ r.length)
    (some_ : x < x' ∨ y < y') (rest : Script E x' y' (l.drop (x' - x)) (r.drop (y' - y)) hunks)
    (apart : ∀ h ∈ hunks, x' < h.lstart ∧ y' < h.rstart) :
    Script E x y l r ({ lstart := x, llen := x' - x, rstart := y, rlen := y' - y } :: hunks) := by
  have leftLength : (l.take (x' - x)).length = x' - x := length_take_of_le leftShort
  have rightLength : (r.take (y' - y)).length = y' - y := length_take_of_le rightShort
  have leftPlace : x + 0 + (l.take (x' - x)).length = x' := by omega
  have rightPlace : y + 0 + (r.take (y' - y)).length = y' := by omega
  have script : Script E x y ([] ++ (l.take (x' - x) ++ l.drop (x' - x)))
    ([] ++ (r.take (y' - y) ++ r.drop (y' - y)))
      ({ lstart := x + 0, llen := (l.take (x' - x)).length
         rstart := y + 0, rlen := (r.take (y' - y)).length } :: hunks) := by
    apply Script.hunk .nil (by omega)
    · rwa [length_nil,leftPlace,rightPlace]
    · rwa [length_nil,leftPlace,rightPlace]
  rwa [nil_append,nil_append,take_append_drop,take_append_drop,leftLength,rightLength] at script

theorem drop_ne_nil (first : 1 ≤ x) : list.drop (x - 1) ≠ [] ↔ x ≤ list.length := by
  rw [ne_eq,drop_eq_nil_iff]
  omega

private theorem sesLoop_spec {L R : List α} (leftBounded : Bounded L.length left)
    (rightBounded : Bounded R.length right) (fuel x y : Nat) (first : 1 ≤ x ∧ 1 ≤ y)
    (within : x ≤ L.length + 1 ∧ y ≤ R.length + 1) (enough : L.length + R.length + 2 < fuel + x + y)
    (agree : List.Forall₂ E (kept left ((L.drop (x - 1)).zipIdx x))
    (kept right ((R.drop (y - 1)).zipIdx y))) :
    ∃ hunks, sesLoop left right L.length R.length fuel x y = .ok hunks ∧
      Script E x y (L.drop (x - 1)) (R.drop (y - 1)) hunks := by
  induction fuel generalizing x y with
  | zero => omega
  | succ fuel ih =>
    -- After the marks of a hunk, or without one, the walk stands at a common pair or at both ends.
    have next (x' y' : Nat) (low : x ≤ x' ∧ y ≤ y') (high : x' ≤ L.length + 1 ∧ y' ≤ R.length + 1)
        (progress : x + y < x' + y' ∨ x' ≤ L.length ∨ y' ≤ R.length)
        (agree' : List.Forall₂ E (kept left ((L.drop (x' - 1)).zipIdx x'))
          (kept right ((R.drop (y' - 1)).zipIdx y')))
        (leftFree : x' ≤ L.length → left x' = false) (rightFree : y' ≤ R.length → right y' = false) :
        ∃ hunks, sesLoop left right L.length R.length fuel (if x' ≤ L.length then x' + 1 else x')
            (if y' ≤ R.length then y' + 1 else y') = .ok hunks ∧
          Script E x' y' (L.drop (x' - 1)) (R.drop (y' - 1)) hunks ∧
          ∀ h ∈ hunks, x' < h.lstart ∧ y' < h.rstart := by
      rcases kept_heads agree' (fun some_ => leftFree ((drop_ne_nil (by omega)).mp some_))
        (fun some_ => rightFree ((drop_ne_nil (by omega)).mp some_)) with ends | pair
      · have leftEnd := drop_eq_nil_iff.mp ends.1
        have rightEnd := drop_eq_nil_iff.mp ends.2
        rw [if_neg (by omega),if_neg (by omega)]
        obtain ⟨hunks,ran,script⟩ := ih x' y' (by omega) high (by omega) agree'
        have none := script.empty ends.1 ends.2
        subst none
        exact ⟨[],ran,script,nofun⟩
      obtain ⟨a,l,b,r,leftPair,rightPair,equal,rest⟩ := pair
      have leftMore : x' ≤ L.length :=
        (drop_ne_nil (by omega)).mp (by rw [leftPair]; exact cons_ne_nil a l)
      have rightMore : y' ≤ R.length :=
        (drop_ne_nil (by omega)).mp (by rw [rightPair]; exact cons_ne_nil b r)
      have leftTail : L.drop (x' + 1 - 1) = l := by
        rw [show x' + 1 - 1 = x' - 1 + 1 by omega,← drop_drop,leftPair]
        rfl
      have rightTail : R.drop (y' + 1 - 1) = r := by
        rw [show y' + 1 - 1 = y' - 1 + 1 by omega,← drop_drop,rightPair]
        rfl
      rw [if_pos leftMore,if_pos rightMore]
      rw [← leftTail,← rightTail] at rest
      obtain ⟨hunks,ran,script⟩ := ih (x' + 1) (y' + 1) (by omega) (by omega) (by omega) rest
      rw [leftTail,rightTail] at script
      rw [leftPair,rightPair]
      exact ⟨hunks,ran,script.cons equal,script.start⟩
    unfold sesLoop
    split
    next more =>
      split
      next marked =>
        obtain ⟨leftLow,leftMarked,leftStop,leftHigh⟩ :=
          skipUp_spec L.length left true (L.length + 1 - x) x (by omega)
        obtain ⟨rightLow,rightMarked,rightStop,rightHigh⟩ :=
          skipUp_spec R.length right true (R.length + 1 - y) y (by omega)
        dsimp only
        generalize skipUp L.length left true (L.length + 1 - x) x =
          x' at leftLow leftMarked leftStop leftHigh
        generalize skipUp R.length right true (R.length + 1 - y) y =
          y' at rightLow rightMarked rightStop rightHigh
        have some_ : x < x' ∨ y < y' := by
          by_contra stuck
          have leftSame : x' = x := by omega
          have rightSame : y' = y := by omega
          rw [leftSame] at leftStop
          rw [rightSame] at rightStop
          rcases marked with one | one
          · rw [leftStop (leftBounded x one).2] at one
            cases one
          · rw [rightStop (rightBounded y one).2] at one
            cases one
        have leftDrop : (L.drop (x - 1)).length = L.length + 1 - x := by
          rw [length_drop]
          omega
        have rightDrop : (R.drop (y - 1)).length = R.length + 1 - y := by
          rw [length_drop]
          omega
        have leftTail : (L.drop (x - 1)).drop (x' - x) = L.drop (x' - 1) := by
          rw [drop_drop]
          congr 1
          omega
        have rightTail : (R.drop (y - 1)).drop (y' - y) = R.drop (y' - 1) := by
          rw [drop_drop]
          congr 1
          omega
        rw [kept_skip (by omega : x' - x ≤ _) (fun i low high => leftMarked i low (by omega)),
          kept_skip (by omega : y' - y ≤ _) (fun i low high => rightMarked i low (by omega)),
          leftTail,rightTail,
          Nat.add_sub_cancel' leftLow,Nat.add_sub_cancel' rightLow] at agree
        obtain ⟨hunks,ran,script,apart⟩ := next x' y' ⟨leftLow,rightLow⟩
          ⟨leftHigh within.1,rightHigh within.2⟩ (.inl (by omega)) agree leftStop rightStop
        rw [ran]
        rw [← leftTail,← rightTail] at script
        exact ⟨_,rfl,script.changed leftLow rightLow (by omega) (by omega) some_ apart⟩
      next free =>
        rw [not_or,Bool.not_eq_true,Bool.not_eq_true] at free
        obtain ⟨hunks,ran,script,_⟩ := next x y ⟨le_refl x,le_refl y⟩ within (.inr more) agree
          (fun _ => free.1) (fun _ => free.2)
        exact ⟨hunks,ran,script⟩
    next done =>
      have leftEnd : L.drop (x - 1) = [] := drop_eq_nil_iff.mpr (by omega)
      have rightEnd : R.drop (y - 1) = [] := drop_eq_nil_iff.mpr (by omega)
      rw [leftEnd,rightEnd]
      exact ⟨[],rfl,.same .nil⟩

theorem ses_spec {L R : List α} (lstart rstart : Nat) (leftBounded : Bounded L.length left)
    (rightBounded : Bounded R.length right)
    (agree : List.Forall₂ E (kept left (L.zipIdx 1)) (kept right (R.zipIdx 1))) :
    ∃ hunks, ses { lstart := lstart, llen := L.length, rstart := rstart, rlen := R.length } left
      right = .ok hunks ∧
      Script E lstart rstart L R hunks := by
  obtain ⟨hunks,ran,script⟩ := sesLoop_spec leftBounded rightBounded (L.length + R.length + 1) 1 1
    ⟨le_refl 1,le_refl 1⟩
    (by omega) (by omega) agree
  have shifted := script.shift lstart rstart ⟨le_refl 1,le_refl 1⟩
  rw [Nat.add_sub_cancel_left,Nat.add_sub_cancel_left] at shifted
  unfold ses
  rw [ran]
  exact ⟨_,rfl,shifted⟩

end

end BitKeeper.Libdiff
