import BitKeeper.Symdiff.Model
import BitKeeper.Lib.Activation

/-!
The bytes of the two walks, bit by bit: each side of a byte is the mark of a
serial map walk, and the macros compute on both sides at once.
-/

namespace BitKeeper.Symdiff

open Activation

inductive Side where
  | left
  | right
deriving DecidableEq

def mark : Side → Byte → Mark
  | .left, x => ⟨x.getLsbD 5,x.getLsbD 6,x.getLsbD 7⟩
  | .right, x => ⟨x.getLsbD 1,x.getLsbD 2,x.getLsbD 3⟩

def hasDiff (x : Byte) : Bool := x.getLsbD 0

def hasDup (x : Byte) : Bool := x.getLsbD 4

def activeByte (left right : Bool) : Byte :=
  (if left then 0x10#8 else 0) ||| (if right then 0x01#8 else 0)

theorem byte_ext {x y : Byte} (marks : ∀ side, mark side x = mark side y)
    (diff : hasDiff x = hasDiff y) (dup : hasDup x = hasDup y) :
    x = y := by
  have left := Mark.mk.inj (marks .left)
  have right := Mark.mk.inj (marks .right)
  refine BitVec.eq_of_getLsbD_eq fun i small => ?_
  rcases i with _ | _ | _ | _ | _ | _ | _ | _ | i
  · exact diff
  · exact right.1
  · exact right.2.1
  · exact right.2.2
  · exact dup
  · exact left.1
  · exact left.2.1
  · exact left.2.2
  · omega

theorem active_eq : ∀ x :
    Byte, ACTIVE x = activeByte (mark .left x).active (mark .right x).active := by
  decide +kernel

theorem different_eq : ∀ x : Byte, S_DIFFERENT x ≠ 0 ↔ mark .left x ≠ mark .right x :=
  by decide +kernel

variable (left right : Bool)

theorem xor_active : XOR_ACTIVE (activeByte left right) = if left = right then 0 else 1 := by
  cases left <;> cases right <;> decide

theorem active_zero : activeByte left right = 0 ↔ left = false ∧ right = false := by
  cases left <;> cases right <;> decide

theorem active_right : activeByte left right &&& ARIGHT ≠ 0 ↔ right = true := by
  cases left <;> cases right <;> decide

theorem flip_right : activeByte left right ^^^ ARIGHT = activeByte left !right := by
  cases left <;> cases right <;> decide

def diffByte (diff : Bool) : Byte := if diff then S_DIFF else 0

theorem diff_bit : ∀ x : Byte, x &&& S_DIFF = diffByte (hasDiff x) := by decide +kernel

theorem dup_bit : ∀ x : Byte, x &&& S_DUP ≠ 0 ↔ hasDup x = true := by decide +kernel

def parByte (left right : Bool) : Byte :=
  (if left then SL_PAR else 0) ||| (if right then SR_PAR else 0)

theorem par_bits : ∀ x :
    Byte, x &&& (SL_PAR ||| SR_PAR) = parByte (mark .left x).par (mark .right x).par := by
  decide +kernel

def Side.pick {α : Type} (left right : α) : Side → α
  | .left => left
  | .right => right

theorem mark_par (side : Side) (left right : Bool) (x : Byte) :
    mark side (x ||| parByte left right) = if side.pick left right then (mark side x).inherit else
      mark side x := by
  cases side <;> cases left <;> cases right <;>
    simp [mark,parByte,SL_PAR,SR_PAR,Side.pick,Mark.inherit]

theorem flags_par (x : Byte) :
    hasDiff (x ||| parByte left right) = hasDiff x ∧ hasDup (x ||| parByte left right) = hasDup x :=
  by
  cases left <;> cases right <;> simp [hasDiff,hasDup,parByte,SL_PAR,SR_PAR]

private theorem note_eq (m : Mark) (plus : Bool) :
    m.note plus =
      ⟨m.par,m.inc || (plus && (!m.inc && !m.excl)),m.excl || (!plus && (!m.inc && !m.excl))⟩ := by
  obtain ⟨par,inc,excl⟩ := m
  cases inc <;> cases excl <;> cases plus <;> rfl

theorem mark_ie (side : Side) (left right plus : Bool) (x : Byte) :
    mark side (x ||| IE (activeByte left right) x plus) =
      if side.pick left right then (mark side x).note plus else mark side x := by
  rw [note_eq]
  cases side <;> cases left <;> cases right <;> cases plus <;> simp [mark,IE,activeByte,Side.pick]

theorem flags_ie (left right plus : Bool) (x : Byte) :
    hasDiff (x ||| IE (activeByte left right) x plus) = hasDiff x ∧
      hasDup (x ||| IE (activeByte left right) x plus) = hasDup x := by
  cases left <;> cases right <;> cases plus <;> simp [hasDiff,hasDup,IE,activeByte]

theorem set_dup (x : Byte) :
    (∀ side, mark side (x ||| S_DUP) = mark side x) ∧ hasDiff (x ||| S_DUP) = hasDiff x ∧
    hasDup (x ||| S_DUP) = true := by
  refine ⟨fun side => ?_, ?_⟩
  · cases side <;> simp [mark,S_DUP]
  · simp [hasDiff,hasDup,S_DUP]

theorem clear_dup (x : Byte) :
    (∀ side, mark side (x &&& ~~~S_DUP) = mark side x) ∧ hasDiff (x &&& ~~~S_DUP) = hasDiff x ∧
    hasDup (x &&& ~~~S_DUP) = false := by
  refine ⟨fun side => ?_, ?_⟩
  · cases side <;> simp [mark,S_DUP]
  · simp [hasDiff,hasDup,S_DUP]

theorem mark_diffByte (side : Side) (diff : Bool) : mark side (diffByte diff) = Mark.blank := by
  cases side <;> cases diff <;> decide

theorem flags_diffByte (diff : Bool) :
    hasDiff (diffByte diff) = diff ∧ hasDup (diffByte diff) = false := by
  cases diff <;> decide

theorem eq_diffByte {x : Byte} (byte : x = 0 ∨ x = S_DIFF) : x = diffByte (hasDiff x) := by
  rcases byte with rfl | rfl <;> decide

theorem excl_bit : ∀ x : Byte, decide (x &&& SR_EXCL = 0) = !(mark .right x).excl := by decide +kernel

theorem inc_bit : ∀ x : Byte, decide (x &&& SR_INC ≠ 0) = (mark .right x).inc := by decide +kernel

theorem unused_bit : ∀ x : Byte, ((x &&& SR_PAR = 0) = (x &&& SR_INC = 0)) ↔
      (mark .right x).par = (mark .right x).inc := by
  decide +kernel

end BitKeeper.Symdiff
