import BitKeeper.Serialmap.Walk

/-!
Expanding against the serial map: two walks in one byte change a map exactly where the two full walks
differ, but for the oldest delta, which `serialmap` does not look at.
-/

namespace BitKeeper.Serialmap

open Activation Symdiff Dag

theorem seedmap_active {s : Sfile} (proper : Proper s.graph s.cludes) {list : List Nat}
    (real : ∀ d ∈ list, RealSerial s.graph d) {top : Nat} (within : ∀ d ∈ list, d ≤ top) {e : Nat}
    (kept : e = 1 → seedmap s list 1 &&& S_EXCL = 0) :
    seedmap s list e ≠ 0 ↔ activeFrom (s.net s.cludes proper) list top e = true := by
  have answer := seedmap_answered proper within e
  unfold activeFrom
  by_cases visited : 1 < e ∧ s.graph.tag e = false
  · rw [answer,answered_ne_zero,if_pos visited]
  by_cases apart : e = 0 ∨ s.graph.tag e = true
  · have blank := walk_seeds_blank proper real top apart
    rw [answer,answered_ne_zero,if_neg visited,blank]
    exact ⟨(absurd rfl ·), fun on => absurd on (by decide)⟩
  have one : e = 1 := by
    by_contra other
    refine visited ⟨?_,eq_false_of_ne_true fun tag => apart (.inr tag)⟩
    omega
  have free := kept one
  rw [← one,answer] at free
  rw [answer,answered_ne_zero,if_neg visited]
  unfold answered at free
  rw [if_neg visited,excl_pack] at free
  generalize walk (s.net s.cludes proper) top (seedMarks list) e = m at free ⊢
  obtain ⟨par,inc,excl⟩ := m
  subst free
  cases par <;> cases inc <;> decide

def entry (map : Nat → Byte) (e : Nat) : Byte := if map e ≠ 0 then S_DIFF else 0

private theorem flipped_entries {g : Graph} {old left right : Nat → Byte} {act : Side → Nat → Bool}
    {e : Nat} (byte : old e = diffByte (hasDiff (old e)))
    (tags : g.tag e = true → act .left e = act .right e) (isLeft : left e ≠ 0 ↔ act .left e = true)
    (isRight : right e ≠ 0 ↔ act .right e = true) :
    flipped g old act e = old e ^^^ entry left e ^^^ entry right e := by
  have leftEq : entry left e = diffByte (act .left e) := by
    exact if_congr isLeft rfl rfl
  have rightEq : entry right e = diffByte (act .right e) := by
    exact if_congr isRight rfl rfl
  unfold flipped
  rw [leftEq,rightEq]
  split
  · rw [tags (by assumption),BitVec.xor_assoc,BitVec.xor_self,BitVec.xor_zero]
  · rw [byte,(flags_diffByte _).1]
    cases hasDiff (old e) <;> cases act .left e <;> cases act .right e <;> rfl

theorem expand_entries {s : Sfile} (proper : Proper s.graph s.cludes) {left : List Nat} {right : Nat}
    (realLeft : ∀ d ∈ left, RealSerial s.graph d) (realRight : right = 0 ∨ RealSerial s.graph right)
    {slist : Nat → Byte} (bytes : ∀ e, slist e = 0 ∨ slist e = S_DIFF) :
    ∃ out, symdiff_expand s left right slist =
      some ((ones s.graph out : Int) - ones s.graph slist, out) ∧
      (∀ e, out e = 0 ∨ out e = S_DIFF) ∧
      ∀ e, (e = 1 → seedmap s left 1 &&& S_EXCL = 0 ∧ seedmap s (rightList right) 1 &&& S_EXCL = 0) →
        out e = slist e ^^^ entry (seedmap s left) e ^^^ entry (seedmap s (rightList right)) e := by
  have byte : ∀ e, slist e = diffByte (hasDiff (slist e)) := fun e => eq_diffByte (bytes e)
  by_cases empty : s.graph.table = 0
  · have noLeft : left = [] := List.eq_nil_iff_forall_not_mem.mpr fun d inside => by
      obtain ⟨nonzero,low,_real⟩ := realLeft d inside
      omega
    have noRight : right = 0 := realRight.resolve_right fun real => by
      obtain ⟨nonzero,low,_real⟩ := real
      omega
    subst noLeft noRight
    refine ⟨slist,?_,bytes,fun e _ => ?_⟩
    · rw [Int.sub_self]
      rfl
    · exact (BitVec.xor_zero.trans BitVec.xor_zero).symm
  obtain ⟨st,ran,slistEq,counted⟩ := symdiff_expands ⟨s,right,s.cludes,true,false⟩ left slist (-1)
    rfl proper
    ⟨byte,fun _ _ compress => absurd compress.symm Bool.false_ne_true⟩ realLeft realRight empty
  have realList : ∀ side, ∀ d ∈ seedsOf left right side, RealSerial s.graph d := by
    intro side d inside
    cases side with
    | left => exact realLeft d inside
    | right =>
      rcases mem_rightList.mp inside with ⟨rfl,nonzero⟩
      exact realRight.resolve_left nonzero
  have byteOut : ∀ e, st.slist e = diffByte (hasDiff (st.slist e)) := by
    intro e
    rw [slistEq e]
    unfold flipped
    split
    · exact byte e
    · rw [(flags_diffByte _).1]
  refine ⟨st.slist,?_,fun e => ?_, fun e kept => ?_⟩
  · have low : startOf left right ≤ s.graph.table :=
      startOf_le (fun d inside => (realLeft d inside).2.1)
        (realRight.elim (by omega) fun real => real.2.1)
    have change : st.count = (ones s.graph st.slist : Int) - ones s.graph slist := by
      rw [counted,← total_ones byteOut,← total_ones byte,← total_sub]
      refine (total_beyond low fun e above => ?_).symm
      rw [slistEq e,flipped_above byte above,Int.sub_self]
    unfold symdiff_expand
    rw [ran,Option.map_some,change]
  · rw [byteOut e]
    cases hasDiff (st.slist e)
    · exact .inl rfl
    · exact .inr rfl
  · have agrees : ∀ side, (e = 1 → seedmap s (seedsOf left right side) 1 &&& S_EXCL = 0) →
        (seedmap s (seedsOf left right side) e ≠ 0 ↔
          activeFrom (s.net s.cludes proper) (seedsOf left right side) (startOf left right)
            e = true) :=
      fun side free => seedmap_active proper (realList side) (fun d inside => le_startOf inside) free
    rw [slistEq e]
    refine flipped_entries (byte e) (fun tag => ?_) (agrees .left fun one => (kept one).1)
      (agrees .right fun one => (kept one).2)
    unfold activeFrom
    rw [walk_seeds_blank proper (realList .left) _ (.inr tag),
      walk_seeds_blank proper (realList .right) _ (.inr tag)]

/-- Expanding flips what is active in one of the two sets. -/
theorem symdiff_expand_eq (s : Sfile) (proper : Proper s.graph s.cludes) (left : List Nat)
    (right : Nat) (realLeft : ∀ d ∈ left, RealSerial s.graph d)
    (realRight : right = 0 ∨ RealSerial s.graph right) (slist : Nat → Byte)
    (bytes : ∀ e, slist e = 0 ∨ slist e = S_DIFF) :
    ∃ out, symdiff_expand s left right slist =
      some ((ones s.graph out : Int) - ones s.graph slist, out) ∧
      (∀ e, out e = 0 ∨ out e = S_DIFF) ∧
      ∀ e, (e = 1 → seedmap s left 1 &&& S_EXCL = 0 ∧ seedmap s (rightList right) 1 &&& S_EXCL = 0) →
        out e = slist e ^^^ entry (seedmap s left) e ^^^ entry (seedmap s (rightList right)) e :=
  expand_entries proper realLeft realRight bytes

theorem symdiff_expand_eq_branched :
    ∃ out, symdiff_expand branched [2] 4 (fun _ => 0) =
      some ((ones branched.graph out : Int) - 0, out) ∧
      out 4 = S_DIFF ∧ out 3 = S_DIFF ∧ out 2 = S_DIFF ∧ out 1 = 0 := by
  obtain ⟨out,ran,_bytes,exact_⟩ := symdiff_expand_eq branched branched_proper [2] 4 (by decide)
    (.inr (by decide)) (fun _ => 0)
    (fun _ => .inl rfl)
  refine ⟨out,ran,?_,?_,?_,?_⟩
  · rw [exact_ 4 (by decide)]
    decide +kernel
  · rw [exact_ 3 (by decide)]
    decide +kernel
  · rw [exact_ 2 (by decide)]
    decide +kernel
  · rw [exact_ 1 (fun _ => by decide +kernel)]
    decide +kernel

end BitKeeper.Serialmap
