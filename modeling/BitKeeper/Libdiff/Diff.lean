import BitKeeper.Libdiff.Ses

/-!
What `diff_items` promises: the hunks are separated, the runs between them have equal items on both
sides, and replacing the left side of every hunk by its right side gives the right items.
-/

namespace BitKeeper.Libdiff

open List

section
variable {α : Type}

def gaps : Option Hunk → List Hunk → List (Option Hunk × Option Hunk)
  | from_, [] => [(from_, none)]
  | from_, h :: rest => (from_, some h) :: gaps (some h) rest

def patch (range : Hunk) (left right : List α) : Nat → List Hunk → List α
  | x, [] => left.drop (x - range.lstart)
  | x, h :: rest =>
    (left.drop (x - range.lstart)).take (h.lstart - x) ++
      ((right.drop (h.rstart - range.rstart)).take h.rlen ++ patch range left right h.lend rest)

structure CommonRun (E : α → α → Prop) (range : Hunk) (left right : List α) (run : Hunk) : Prop where
  length : run.llen = run.rlen
  items : ∀ i, i < run.llen → ∃ a b, left[run.lstart - range.lstart + i]? = some a ∧
    right[run.rstart - range.rstart + i]? = some b ∧ E a b

structure Correct (E : α → α → Prop) (range : Hunk) (left right : List α) (hunks : List Hunk) :
    Prop where
  nonEmpty : ∀ h ∈ hunks, 0 < h.llen + h.rlen
  separated : hunks.Pairwise (fun h k => h.lend < k.lstart ∧ h.rend < k.rstart)
  runs : ∀ gap ∈ gaps none hunks, ∃ run, diff_mkCommon range gap.1 gap.2 = .ok run ∧
    CommonRun E range left right run
  patched : List.Forall₂ E (patch range left right range.lstart hunks) right

variable {E : α → α → Prop} {range : Hunk} {left right : List α} {x y : Nat} {l r : List α}
  {hunks : List Hunk}

theorem Script.nonEmpty (script : Script E x y l r hunks) : ∀ h ∈ hunks, 0 < h.llen + h.rlen := by
  induction script with
  | same => exact nofun
  | hunk common changed rest apart ih =>
    intro h member
    rcases mem_cons.mp member with first | later
    · rwa [first]
    · exact ih h later

theorem Script.separated (script : Script E x y l r hunks) :
    hunks.Pairwise (fun h k => h.lend < k.lstart ∧ h.rend < k.rstart) := by
  induction script with
  | same => exact .nil
  | hunk common changed rest apart ih => exact .cons apart ih

theorem commonRun_of {cl cr : List α} (leftAt : left.drop (x - range.lstart) = cl ++ l)
    (rightAt : right.drop (y - range.rstart) = cr ++ r) (common : List.Forall₂ E cl cr) :
    CommonRun E range left right
      { lstart := x, llen := cl.length, rstart := y, rlen := cr.length } := by
  refine ⟨common.length_eq,?_⟩
  intro i within
  have within' : i < cr.length := by rw [← common.length_eq]; exact within
  refine ⟨cl[i],cr[i],?_,?_,common.get within within'⟩
  · rw [← getElem?_drop,leftAt,getElem?_append_left within,getElem?_eq_getElem within]
  · rw [← getElem?_drop,rightAt,getElem?_append_left within',getElem?_eq_getElem within']

def startOf (range : Hunk) : Option Hunk → Nat × Nat
  | none => (range.lstart, range.rstart)
  | some h => (h.lend, h.rend)

theorem mkCommon_from {from_ : Option Hunk} (start : startOf range from_ = (x, y))
    (upto : Option Hunk) :
    diff_mkCommon range from_ upto =
      diff_mkCommon range (some { lstart := x, llen := 0, rstart := y, rlen := 0 }) upto := by
  cases from_ with
  | none =>
    cases start
    rfl
  | some h =>
    cases start
    rfl

theorem drop_past {base : Nat} {list c d : List α} (low : base ≤ x)
    (at_ : list.drop (x - base) = c ++ (d ++ l)) :
    list.drop (x + c.length + d.length - base) = l := by
  rw [show x + c.length + d.length - base = x - base + (c.length + d.length) by omega,← drop_drop,at_,
    ← append_assoc,← length_append,drop_left]

theorem Script.runs (script : Script E x y l r hunks) (leftAt : left.drop (x - range.lstart) = l)
    (rightAt : right.drop (y - range.rstart) = r) (leftEnd : x + l.length = range.lend)
    (rightEnd : y + r.length = range.rend) (low : range.lstart ≤ x ∧ range.rstart ≤ y)
    (from_ : Option Hunk) (start : startOf range from_ = (x, y)) :
    ∀ gap ∈ gaps from_ hunks, ∃ run, diff_mkCommon range gap.1 gap.2 = .ok run ∧
      CommonRun E range left right run := by
  induction script generalizing from_ with
  | @same x y l r common =>
    intro gap member
    rw [mem_singleton.mp member,mkCommon_from start]
    refine ⟨{ lstart := x, llen := l.length, rstart := y, rlen := r.length },?_,?_⟩
    · have length := common.length_eq
      unfold diff_mkCommon
      rw [if_pos (by unfold Hunk.lend Hunk.rend at *; dsimp only; omega)]
      congr 2 <;> unfold Hunk.lend Hunk.rend at * <;> dsimp only <;> omega
    · exact commonRun_of (l := []) (r := []) (by rw [leftAt,append_nil])
        (by rw [rightAt,append_nil]) common
  | @hunk x y cl cr dl dr l r hunks common changed rest apart ih =>
    rw [length_append,length_append] at leftEnd rightEnd
    intro gap member
    rcases mem_cons.mp member with first | later
    · rw [first,mkCommon_from start]
      refine ⟨{ lstart := x, llen := cl.length, rstart := y, rlen := cr.length },?_,
        commonRun_of leftAt rightAt common⟩
      have length := common.length_eq
      unfold diff_mkCommon Hunk.lend Hunk.rend
      dsimp only
      rw [if_pos (by omega)]
      congr 2 <;> omega
    · apply ih (drop_past low.1 leftAt) (drop_past low.2 rightAt) (by omega) (by omega) (by omega) _
        _ gap later
      rfl

theorem Script.patched (reflexive : ∀ a, E a a) (script : Script E x y l r hunks)
    (leftAt : left.drop (x - range.lstart) = l) (rightAt : right.drop (y - range.rstart) = r)
    (low : range.lstart ≤ x ∧ range.rstart ≤ y) :
    List.Forall₂ E (patch range left right x hunks) r := by
  induction script with
  | same common =>
    unfold patch
    rwa [leftAt]
  | @hunk x y cl cr dl dr l r hunks common changed rest apart ih =>
    have tail := ih (drop_past low.1 leftAt) (drop_past low.2 rightAt) (by omega)
    have inserted : (right.drop (y + cr.length - range.rstart)).take dr.length = dr := by
      rw [show y + cr.length - range.rstart = y - range.rstart + cr.length by omega,
        ← drop_drop,rightAt,drop_left,take_left]
    unfold patch
    rw [leftAt,Nat.add_sub_cancel_left,take_left,inserted]
    exact rel_append common (rel_append (forall₂_same.mpr (fun a _ => reflexive a)) tail)

theorem Script.correct (reflexive : ∀ a, E a a) {lstart rstart : Nat}
    (script : Script E lstart rstart left right hunks) :
    Correct E { lstart := lstart, llen := left.length, rstart := rstart, rlen := right.length } left
      right hunks := by
  have leftAt : left.drop (lstart - lstart) = left := by rw [Nat.sub_self,drop_zero]
  have rightAt : right.drop (rstart - rstart) = right := by rw [Nat.sub_self,drop_zero]
  exact ⟨script.nonEmpty,script.separated,
    script.runs leftAt rightAt rfl rfl ⟨le_refl _,le_refl _⟩ none rfl,
    script.patched reflexive leftAt rightAt ⟨le_refl _,le_refl _⟩⟩

end

section
variable {α : Type} {items : Items α}

theorem moveMarks_spec {hl hr list : List Nat} {left right : Marks} (lstart rstart : Nat)
    (dcost : Option (Side → Nat → Pos → Nat)) (leftFits : Fits hl list left)
    (rightFits : Fits hr list right) :
    ∃ marks, moveMarks { lstart := lstart, llen := hl.length, rstart := rstart, rlen := hr.length }
      dcost hl hr left
        right = .ok marks ∧ Fits hl list marks.1 ∧ Fits hr list marks.2 := by
  obtain ⟨left,leftRan,leftFits⟩ := shrink_gaps_spec leftFits
  obtain ⟨right,rightRan,rightFits⟩ := shrink_gaps_spec rightFits
  unfold moveMarks
  rw [leftRan,Except.bind,rightRan,Except.bind]
  cases dcost with
  | none => exact ⟨_,rfl,leftFits,rightFits⟩
  | some dcost =>
    obtain ⟨left,leftRan,leftFits⟩ := align_blocks_spec (costIt _ dcost .left) leftFits
    obtain ⟨right,rightRan,rightFits⟩ := align_blocks_spec (costIt _ dcost .right) rightFits
    dsimp only
    rw [leftRan,Except.bind,rightRan]
    exact ⟨_,rfl,leftFits,rightFits⟩

theorem forall₂_kept {β : Type} {R : α → β → Prop} (chg : Marks) {list : List α} {hashes : List β}
    (k : Nat) (slots : List.Forall₂ R list hashes) :
    List.Forall₂ R (kept chg (list.zipIdx k)) (kept chg (hashes.zipIdx k)) := by
  induction slots generalizing k with
  | nil => exact .nil
  | @cons a u list hashes slot _ ih =>
    unfold kept
    rw [zipIdx_cons,zipIdx_cons,filter_cons,filter_cons]
    cases chg k with
    | true => exact ih (k + 1)
    | false => exact .cons slot (ih (k + 1))

private theorem items_agree (equal : Equivalence (fun a b => items.dcmp a b = true)) {h : Table α}
    {left right : List α} {hl hr : List Nat} (leftSlots : List.Forall₂ (Slot items h) left hl)
    (rightSlots : List.Forall₂ (Slot items h) right hr) {chgLeft chgRight : Marks}
    (same : kept chgLeft (hl.zipIdx 1) = kept chgRight (hr.zipIdx 1)) :
    List.Forall₂ (fun a b => items.dcmp a b = true) (kept chgLeft (left.zipIdx 1))
    (kept chgRight (right.zipIdx 1)) := by
  have first := forall₂_kept chgLeft 1 leftSlots
  have second := forall₂_kept chgRight 1 rightSlots
  rw [same] at first
  generalize kept chgLeft (left.zipIdx 1) = l at first
  generalize kept chgRight (right.zipIdx 1) = r at second
  generalize kept chgRight (hr.zipIdx 1) = hashes at first second
  induction first generalizing r with
  | nil =>
    cases second
    exact .nil
  | cons slot _ ih =>
    cases second with
    | cons slot' rest => exact .cons (slot.same equal slot') (ih _ rest)

theorem diff_items_script (equal : Equivalence (fun a b => items.dcmp a b = true))
    (lstart rstart : Nat) (minimal : Bool) (dcost : Option (Side → Nat → Pos → Nat))
    (left right : List α) (vf vr : Int → Int) (some_ : ¬ (left.length = 0 ∨ right.length = 0))
    (noWrap : diff_items items lstart rstart minimal dcost left right vf vr ≠ .error .wrap) :
    ∃ hunks, diff_items items lstart rstart minimal dcost left right vf vr = .ok hunks ∧
      Script (fun a b => items.dcmp a b = true) lstart rstart left right hunks := by
  unfold diff_items at noWrap ⊢
  rw [if_neg some_] at noWrap ⊢
  rcases hashThings_spec equal.refl .left left (fun _ => none) with wrapped | hashed
  · rw [wrapped] at noWrap
    exact absurd rfl noWrap
  obtain ⟨hl,h,ran,_,leftSlots⟩ := hashed
  rw [ran,Except.bind] at noWrap ⊢
  rcases hashThings_spec equal.refl .right right h with wrapped | hashed
  · rw [wrapped] at noWrap
    exact absurd rfl noWrap
  obtain ⟨hr,h',ran,grows,rightSlots⟩ := hashed
  rw [ran,Except.bind]
  have leftSlots' : List.Forall₂ (Slot items h') left hl :=
    leftSlots.imp (fun _ _ slot => grows.slot slot)
  have leftLength := leftSlots'.length_eq
  have rightLength := rightSlots.length_eq
  obtain ⟨A,leftRan,leftCompressed⟩ := compressHashes_spec h' 1 hl (slots_found leftSlots')
  obtain ⟨B,rightRan,rightCompressed⟩ := compressHashes_spec h' 1 hr (slots_found rightSlots)
  rw [leftRan,Except.bind]
  dsimp only
  rw [rightRan,Except.bind]
  obtain ⟨s,searched,same,leftBounded,rightBounded⟩ := idiff_kept leftCompressed
    rightCompressed minimal
    (max 256 (effort 32 (A.red.length + B.red.length + 3) 1)) vf vr
  rw [searched,Except.bind,leftLength,rightLength]
  obtain ⟨marks,moved,leftFits,rightFits⟩ := moveMarks_spec lstart rstart dcost
    (⟨rfl,leftBounded⟩ : Fits hl _ s.left) (⟨same.symm,rightBounded⟩ : Fits hr _ s.right)
  rw [moved,Except.bind,← leftLength,← rightLength]
  have agree := items_agree equal leftSlots' rightSlots (leftFits.kept.trans rightFits.kept.symm)
  exact ses_spec lstart rstart (by rw [leftLength]; exact leftFits.bounded)
    (by rw [rightLength]; exact rightFits.bounded) agree

private theorem empty_script {E : α → α → Prop} (lstart rstart : Nat) (left right : List α) :
    Script E lstart rstart left right
      (if left.length = 0 ∧ right.length = 0 then []
      else [{ lstart := lstart, llen := left.length, rstart := rstart, rlen := right.length }]) := by
  split
  next both =>
    rw [eq_nil_of_length_eq_zero both.1,eq_nil_of_length_eq_zero both.2]
    exact .same .nil
  next more =>
    have script : Script E lstart rstart ([] ++ (left ++ [])) ([] ++ (right ++ []))
        [{ lstart := lstart + 0, llen := left.length, rstart := rstart + 0, rlen := right.length }] :=
      .hunk .nil (by omega) (.same .nil) (nofun)
    rwa [append_nil,append_nil] at script

theorem diff_items_runs (equal : Equivalence (fun a b => items.dcmp a b = true)) (lstart rstart : Nat)
    (minimal : Bool) (dcost : Option (Side → Nat → Pos → Nat)) (left right : List α)
    (vf vr : Int → Int)
    (noWrap : diff_items items lstart rstart minimal dcost left right vf vr ≠ .error .wrap) :
    ∃ hunks, diff_items items lstart rstart minimal dcost left right vf vr = .ok hunks ∧
      Script (fun a b => items.dcmp a b = true) lstart rstart left right hunks := by
  by_cases one : left.length = 0 ∨ right.length = 0
  · refine ⟨_,?_,empty_script lstart rstart left right⟩
    unfold diff_items
    rw [if_pos one]
    split <;> rfl
  · exact diff_items_script equal lstart rstart minimal dcost left right vf vr one noWrap

/-- `diff_items` returns a correct diff, unless collisions pass the last slot of the table. -/
theorem diff_items_correct (equal : Equivalence (fun a b => items.dcmp a b = true))
    (lstart rstart : Nat) (minimal : Bool) (dcost : Option (Side → Nat → Pos → Nat))
    (left right : List α) (vf vr : Int → Int)
    (noWrap : diff_items items lstart rstart minimal dcost left right vf vr ≠ .error .wrap) :
    ∃ hunks, diff_items items lstart rstart minimal dcost left right vf vr = .ok hunks ∧
      Correct (fun a b => items.dcmp a b = true)
        { lstart := lstart, llen := left.length, rstart := rstart, rlen := right.length } left right
      hunks := by
  obtain ⟨hunks,ran,script⟩ :=
    diff_items_runs equal lstart rstart minimal dcost left right vf vr noWrap
  exact ⟨hunks,ran,script.correct equal.refl⟩

/-- Two swapped items whose hashes collide. -/
theorem diff_items_correct_swapped :
    diff_items { dcmp := fun a b : Nat => a == b, dhash := fun _ => 7 } 1 1 false none [1,2] [2,1]
    (fun _ => 0)
        (fun _ => 0) ≠ .error .wrap ∧
      ∃ hunks, diff_items { dcmp := fun a b : Nat => a == b, dhash := fun _ => 7 } 1 1 false none
        [1,2] [2,1]
          (fun _ => 0) (fun _ => 0) = .ok hunks ∧
        Correct (fun a b => (a == b) = true) { lstart := 1, llen := 2, rstart := 1, rlen := 2 }
    [1,2] [2,1] hunks :=
  have noWrap : diff_items { dcmp := fun a b : Nat => a == b, dhash := fun _ => 7 } 1 1 false none
    [1,2] [2,1]
      (fun _ => 0) (fun _ => 0) ≠ .error .wrap := by decide +kernel
  ⟨noWrap,diff_items_correct ⟨fun _ => beq_self_eq_true _,
    fun same => beq_iff_eq.mpr (beq_iff_eq.mp same).symm,
    fun first second => beq_iff_eq.mpr ((beq_iff_eq.mp first).trans (beq_iff_eq.mp second))⟩ 1 1
    false none [1,2] [2,1] (fun _ => 0) (fun _ => 0) noWrap⟩

end

end BitKeeper.Libdiff
