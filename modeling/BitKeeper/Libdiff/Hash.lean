import BitKeeper.Libdiff.Idiff

/-!
Hashing and the first marks. Items in one slot of the table compare equal, whatever collided on the
way there; `compressHashes` keeps the unmarked hashes with their places.
-/

namespace BitKeeper.Libdiff

open List Function

section
variable {α : Type} {items : Items α}

def Slot (items : Items α) (h : Table α) (a : α) (u : Nat) : Prop :=
  ∃ t, h u = some t ∧ items.dcmp a t.item = true

def Grows (h h' : Table α) : Prop := ∀ u t, h u = some t → ∃ t', h' u = some t' ∧ t'.item = t.item

theorem Grows.refl (h : Table α) : Grows h h := fun _ t at_ => ⟨t,at_,rfl⟩

variable {h : Table α}

theorem Grows.trans {h' h'' : Table α} (first : Grows h h') (second : Grows h' h'') :
    Grows h h'' := by
  intro u t at_
  obtain ⟨t',at',same⟩ := first u t at_
  obtain ⟨t'',at'',same'⟩ := second u t' at'
  exact ⟨t'',at'',same'.trans same⟩

variable {a : α}

theorem Grows.slot {h' : Table α} (grows : Grows h h') {u : Nat} (slot : Slot items h a u) :
    Slot items h' a u := by
  obtain ⟨t,at_,same⟩ := slot
  obtain ⟨t',at',item⟩ := grows u t at_
  exact ⟨t',at',by rw [item]; exact same⟩

private theorem probe_ok (reflexive : ∀ a, items.dcmp a a = true) {side : Side} {left dh : Nat}
    {found : Nat × Table α} (ran : probe items h side a left dh = .ok found) :
    Slot items found.2 a found.1 ∧ Grows h found.2 := by
  induction left generalizing dh with
  | zero => cases ran
  | succ left ih =>
    unfold probe at ran
    split at ran
    next empty =>
      cases ran
      refine ⟨⟨_,update_self ..,reflexive a⟩,?_⟩
      intro u t at_
      have other : u ≠ dh := fun same => by rw [same,empty] at at_; cases at_
      exact ⟨t,by dsimp only; rw [update_of_ne other]; exact at_,rfl⟩
    next t full =>
      split at ran
      next same =>
        cases ran
        dsimp only
        split
        · refine ⟨⟨_,update_self ..,same⟩,?_⟩
          intro u t' at_
          by_cases here : u = dh
          · rw [here,full] at at_
            cases at_
            refine ⟨{ t with both := true },?_,rfl⟩
            rw [here]
            exact update_self ..
          · exact ⟨t',by rw [update_of_ne here]; exact at_,rfl⟩
        · exact ⟨⟨t,full,same⟩,Grows.refl h⟩
      next => exact ih ran

theorem probe_error {side : Side} {left dh : Nat} {e : Stop}
    (ran : probe items h side a left dh = .error e) : e = .wrap := by
  fun_induction probe items h side a left dh with
  | case1 =>
    cases ran
    rfl
  | case2 | case3 => cases ran
  | case4 _ _ _ _ _ ih => exact ih ran

theorem hashThings_spec (reflexive : ∀ a, items.dcmp a a = true) (side : Side) (list : List α)
    (h : Table α) :
    hashThings items side list h = .error .wrap ∨
      ∃ hashes h', hashThings items side list h = .ok (hashes, h') ∧ Grows h h' ∧
        List.Forall₂ (Slot items h') list hashes := by
  induction list generalizing h with
  | nil => exact .inr ⟨[],h,rfl,Grows.refl h,.nil⟩
  | cons a rest ih =>
    unfold hashThings
    generalize probed : probe items h side a (4294967296 - hashIt items a) (hashIt items a) = found
    cases found with
    | error e =>
      left
      rw [probe_error probed]
      rfl
    | ok found =>
      obtain ⟨slot,grows⟩ := probe_ok reflexive probed
      rw [Except.bind]
      rcases ih found.2 with wrapped | more
      · left
        rw [wrapped]
        rfl
      · obtain ⟨hashes,h',ran,more,slots⟩ := more
        right
        rw [ran]
        exact ⟨found.1 :: hashes,h',rfl,grows.trans more,.cons (more.slot slot) slots⟩

theorem slots_found {list : List α} {hashes : List Nat}
    (slots : List.Forall₂ (Slot items h) list hashes) : ∀ u ∈ hashes, ∃ t, h u = some t := by
  induction slots with
  | nil => exact nofun
  | cons slot _ ih =>
    intro u member
    rcases mem_cons.mp member with first | later
    · obtain ⟨t,at_,_⟩ := slot
      exact ⟨t,by rw [first]; exact at_⟩
    · exact ih u later

theorem Slot.same (equal : Equivalence (fun a b => items.dcmp a b = true)) {b : α} {u : Nat}
    (first : Slot items h a u) (second : Slot items h b u) : items.dcmp a b = true := by
  obtain ⟨t,at_,left⟩ := first
  obtain ⟨t',at',right⟩ := second
  rw [at_] at at'
  cases at'
  exact equal.trans left (equal.symm right)

end

def Bounded (n : Nat) (chg : Marks) : Prop := ∀ i, chg i = true → 1 ≤ i ∧ i ≤ n

structure Compressed (i : Nat) (hashes : List Nat) (R : Reduced) : Prop where
  length : R.red.length = R.idx.length
  pairs : R.red.zip R.idx = (hashes.zipIdx i).filter (fun p => !R.chg p.2)
  marks : ∀ j, R.chg j = true → i ≤ j ∧ j < i + hashes.length

theorem compressHashes_spec {α : Type} (h : Table α) (i : Nat) (hashes : List Nat)
    (slots : ∀ u ∈ hashes, ∃ t, h u = some t) :
    ∃ R, compressHashes h i hashes = .ok R ∧ Compressed i hashes R := by
  induction hashes generalizing i with
  | nil =>
    refine ⟨_,rfl,rfl,rfl,?_⟩
    intro j marked
    cases marked
  | cons u rest ih =>
    obtain ⟨t,at_⟩ := slots u mem_cons_self
    obtain ⟨R,ran,length,pairs,marks⟩ :=
      ih (i + 1) (fun v member => slots v (mem_cons_of_mem u member))
    have free : R.chg i = false := by
      by_contra marked
      have bounds := marks i (Bool.eq_true_of_not_eq_false marked)
      omega
    unfold compressHashes
    rw [at_]
    dsimp only
    rw [ran]
    cases both : t.both with
    | true =>
      refine ⟨{ R with red := u :: R.red, idx := i :: R.idx },rfl,congrArg Nat.succ length,?_,?_⟩
      · rw [zipIdx_cons,filter_cons_of_pos (by simp only [free,Bool.not_false]),zip_cons_cons, pairs]
      · intro j marked
        have bounds := marks j marked
        rw [length_cons]
        omega
    | false =>
      refine ⟨{ R with chg := update R.chg i true },rfl,length,?_,?_⟩
      · rw [zipIdx_cons,filter_cons_of_neg (by simp),pairs]
        apply filter_congr
        intro p member
        have bound := le_snd_of_mem_zipIdx member
        dsimp only
        rw [update_of_ne (by omega)]
      · intro j marked
        rw [length_cons]
        by_cases here : j = i
        · omega
        · dsimp only at marked
          rw [update_of_ne here] at marked
          have bounds := marks j marked
          omega

section
variable {hashes : List Nat} {R : Reduced}

variable (compressed : Compressed 1 hashes R)
include compressed

theorem Compressed.places_eq : places (R.red.zip R.idx) = R.idx :=
  map_snd_zip compressed.length.ge

theorem Compressed.mem {i : Nat} (member : i ∈ R.idx) :
    R.chg i = false ∧ 1 ≤ i ∧ i ≤ hashes.length := by
  rw [← compressed.places_eq,compressed.pairs] at member
  obtain ⟨p,inside,same⟩ := mem_map.mp member
  obtain ⟨whole,free⟩ := mem_filter.mp inside
  have low := le_snd_of_mem_zipIdx whole
  have high := snd_lt_add_of_mem_zipIdx whole
  rw [← same]
  exact ⟨by simpa using free,low,by omega⟩

theorem Compressed.placed : R.Placed := by
  refine ⟨compressed.length,?_⟩
  rw [← compressed.places_eq,compressed.pairs]
  have all : (places (hashes.zipIdx 1)).Nodup := by
    unfold places
    rw [zipIdx_map_snd]
    exact nodup_range'
  exact all.sublist (filter_sublist.map _)

theorem Compressed.slice_all : R.slice 0 R.red.length = R.red.zip R.idx := by
  unfold Reduced.slice
  rw [drop_zero,Nat.sub_zero,take_of_length_le]
  rw [length_zip,compressed.length,Nat.min_self]

theorem Compressed.kept_all {chg : Marks} (outside : ∀ i, i ∉ R.idx → chg i = R.chg i) :
    kept chg (hashes.zipIdx 1) = kept chg (R.red.zip R.idx) := by
  unfold kept
  rw [compressed.pairs,filter_filter]
  congr 1
  apply filter_congr
  intro p member
  cases marked : R.chg p.2 with
  | false => rw [Bool.not_false,Bool.and_true]
  | true =>
    have absent : p.2 ∉ R.idx := fun present => by
      rw [(compressed.mem present).1] at marked
      cases marked
    rw [outside p.2 absent,marked]
    rfl

theorem Compressed.bounded {chg : Marks}
    (outside : ∀ i, i ∉ R.idx → chg i = R.chg i) : Bounded hashes.length chg := by
  intro i marked
  by_cases present : i ∈ R.idx
  · exact (compressed.mem present).2
  · rw [outside i present] at marked
    have bounds := compressed.marks i marked
    omega

end

theorem idiff_kept {hl hr : List Nat} {A B : Reduced} (left : Compressed 1 hl A)
    (right : Compressed 1 hr B) (minimal : Bool) (max_steps : Nat) (vf vr : Int → Int) :
    ∃ t, idiff A B minimal max_steps (A.red.length + B.red.length + 1) 0 A.red.length 0 B.red.length
        { left := A.chg, right := B.chg, vf := vf, vr := vr } = .ok t ∧
      kept t.left (hl.zipIdx 1) = kept t.right (hr.zipIdx 1) ∧ Bounded hl.length t.left ∧
      Bounded hr.length t.right := by
  have fresh : Fresh (A.slice 0 A.red.length) (B.slice 0 B.red.length)
      { left := A.chg, right := B.chg, vf := vf, vr := vr } := by
    rw [left.slice_all,right.slice_all]
    refine ⟨?_,?_⟩
    · rw [left.places_eq]
      exact fun i member => (left.mem member).1
    · rw [right.places_eq]
      exact fun i member => (right.mem member).1
  obtain ⟨t,ran,solved⟩ := idiff_spec left.placed right.placed minimal max_steps
    (A.red.length + B.red.length + 1)
    0 A.red.length 0 B.red.length _ (Nat.zero_le _) (Nat.zero_le _) (by omega) fresh
  rw [left.slice_all,right.slice_all] at solved
  obtain ⟨equal,leftOutside,rightOutside⟩ := solved
  rw [left.places_eq] at leftOutside
  rw [right.places_eq] at rightOutside
  refine ⟨t,ran,?_,left.bounded leftOutside,right.bounded rightOutside⟩
  rw [left.kept_all leftOutside,right.kept_all rightOutside,equal]

end BitKeeper.Libdiff
