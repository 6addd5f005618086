import Lift6502.Proofs.Code.Value
import Lift6502.Run.Cpu
import Lift6502.Symbolic.Arithmetic

/-!
# Values of the results of instructions

The expressions have the values that the processor computes, if their operands are bytes and
conditions.
-/

namespace Lift6502

theorem forall_byte {P : UInt8 → Prop} (h : ∀ n : Fin 256, P (UInt8.ofNat n)) (b : UInt8) :
    P b := by
  have hb := h ⟨b.toNat, b.toNat_lt⟩
  rwa [UInt8.ofNat_toNat] at hb

theorem and_lowByte (w : UInt32) : w &&& 0xff = w.toUInt8.toUInt32 := by
  apply UInt32.toNat_inj.1
  rw [UInt32.toNat_and, UInt8.toNat_toUInt32, UInt32.toNat_toUInt8]
  exact Nat.and_two_pow_sub_one_eq_mod w.toNat 8

theorem and_lowWord (w : UInt32) : w &&& 0xffff = w.toUInt16.toUInt32 := by
  apply UInt32.toNat_inj.1
  rw [UInt32.toNat_and, UInt16.toNat_toUInt32, UInt32.toNat_toUInt16]
  exact Nat.and_two_pow_sub_one_eq_mod w.toNat 16

theorem toUInt32_ne_zero (b : UInt8) : (b.toUInt32 != 0) = (b != 0) := by
  have h : b.toUInt32 = 0 ↔ b = 0 := UInt8.toUInt32_inj (b := 0)
  rw [bne, bne, Bool.eq_iff_iff]
  simp [h]

theorem toUInt32_eq_zero (b : UInt8) : (b.toUInt32 == 0) = (b == 0) := by
  have h := toUInt32_ne_zero b
  rw [bne, bne] at h
  exact Bool.not_inj h

theorem toUInt32_sum (a b : UInt8) (c : Bool) :
    a.toUInt32 + b.toUInt32 + c.toUInt32 =
      (a.toUInt16 + b.toUInt16 + c.toUInt16).toUInt32 := by
  apply UInt32.toNat_inj.1
  have ha := a.toNat_lt
  have hb := b.toNat_lt
  cases c <;>
    simp only [UInt32.toNat_add, UInt16.toNat_add, UInt16.toNat_toUInt32, UInt8.toNat_toUInt32,
      UInt8.toNat_toUInt16, Bool.toUInt32, Bool.toUInt16] <;>
    simp <;> omega

theorem isNegative_eq (b : UInt8) : Cpu.isNegative b = decide (0x80 ≤ b.toUInt32) := by
  revert b
  apply forall_byte
  decide +kernel

theorem isNegative_xor (a b : UInt8) :
    Cpu.isNegative (a ^^^ b) = ((a.toUInt32 ^^^ b.toUInt32) &&& 0x80 != 0) := by
  rw [← UInt8.toUInt32_xor]
  exact (toUInt32_ne_zero ((a ^^^ b) &&& 0x80)).symm

def Arithmetic.Shift.change : Arithmetic.Shift → UInt8 → Bool → UInt8 × Bool
  | .asl, b, _ => (b <<< 1, Cpu.isNegative b)
  | .lsr, b, _ => (b >>> 1, b &&& 1 != 0)
  | .rol, b, carry => (b <<< 1 ||| carry.toUInt8, Cpu.isNegative b)
  | .ror, b, carry => (b >>> 1 ||| carry.toUInt8 <<< 7, b &&& 1 != 0)

theorem toUInt32_shift (kind : Arithmetic.Shift) (b : UInt8) (carry : Bool) :
    ((kind.change b carry).1).toUInt32 =
      match kind with
      | .asl => (BinOp.shiftLeft b.toUInt32 1).toUInt8.toUInt32
      | .lsr => BinOp.shiftRight b.toUInt32 1
      | .rol => (BinOp.shiftLeft b.toUInt32 1 ||| BinOp.shiftLeft carry.toUInt32 0).toUInt8.toUInt32
      | .ror => BinOp.shiftRight b.toUInt32 1 ||| BinOp.shiftLeft carry.toUInt32 7 := by
  revert b
  apply forall_byte
  revert carry
  cases kind <;> decide +kernel

namespace Expression.HasValue

open Arithmetic

variable {known : Known} {e l r s : Expression} {w : UInt32} {a b c : UInt8}

theorem number (op : BinOp) {x y : UInt32} (hop : ¬ (op = .and ∨ op = .or))
    (hl : l.HasValue known x) (hr : r.HasValue known y) :
    (Expression.mkBinary op l r).HasValue known (op.eval x y) :=
  mkBinary op (fun h => absurd h hop) hl hr

theorem lowByte (h : e.HasValue known w) : e.lowByte.HasValue known w.toUInt8.toUInt32 := by
  rw [← and_lowByte]
  exact number _ (by decide) h (.literal _)

theorem sum {carry : Bool} (hl : l.HasValue known a.toUInt32) (hr : r.HasValue known b.toUInt32)
    (hc : e.HasValue known carry.toUInt32) :
    (sum l r e).HasValue known
      (a.toUInt16 + b.toUInt16 + carry.toUInt16).toUInt32 := by
  rw [← toUInt32_sum]
  exact number _ (by decide) (number _ (by decide) hl hr) hc.mkToInt

theorem carryOut {w : UInt16} (h : e.HasValue known w.toUInt32) :
    (carryOut e).HasValue known (decide (0xff < w)).toUInt32 := by
  have hw : decide (0xff < w) = decide (0x100 ≤ w.toUInt32) := by
    rw [decide_eq_decide, UInt16.lt_iff_toNat_lt, UInt32.le_iff_toNat_le, UInt16.toNat_toUInt32]
    exact Iff.rfl
  rw [hw]
  exact number _ (by decide) h (.literal _)

theorem overflow (hl : l.HasValue known a.toUInt32) (hr : r.HasValue known b.toUInt32)
    (hs : s.HasValue known c.toUInt32) :
    (overflow l r s).HasValue known
      (!Cpu.isNegative (a ^^^ b) && Cpu.isNegative (a ^^^ c)).toUInt32 := by
  have hsame : (Expression.mkBinary .eq (.mkBinary .bitAnd (.mkBinary .bitXor l r) (.literal 0x80))
      (.literal 0)).HasValue known (!Cpu.isNegative (a ^^^ b)).toUInt32 := by
    rw [isNegative_xor, bne, Bool.not_not]
    exact number _ (by decide) (number _ (by decide) (number _ (by decide) hl hr) (.literal _))
      (.literal _)
  have hother : (Expression.mkBinary .neq (.mkBinary .bitAnd (.mkBinary .bitXor l s)
      (.literal 0x80)) (.literal 0)).HasValue known (Cpu.isNegative (a ^^^ c)).toUInt32 := by
    rw [isNegative_xor]
    exact number _ (by decide) (number _ (by decide) (number _ (by decide) hl hs) (.literal _))
      (.literal _)
  have h := mkBinary .and (fun _ => ⟨⟨_, rfl⟩, ⟨_, rfl⟩⟩) hsame hother
  have hand : ∀ x y : Bool, BinOp.and.eval x.toUInt32 y.toUInt32 = (x && y).toUInt32 := by decide
  rwa [hand] at h

section

variable (h : e.HasValue known b.toUInt32)

include h

theorem zero : (zero e).HasValue known (b == 0).toUInt32 := by
  rw [← toUInt32_eq_zero]
  exact number _ (by decide) h (.literal _)

theorem negative : (negative e).HasValue known (Cpu.isNegative b).toUInt32 := by
  rw [isNegative_eq]
  exact number _ (by decide) h (.literal _)

theorem testBit (mask : UInt8) :
    (Expression.mkBinary .neq (.mkBinary .bitAnd e (.literal mask.toUInt32)) (.literal 0)).HasValue
      known (b &&& mask != 0).toUInt32 := by
  rw [← toUInt32_ne_zero, UInt8.toUInt32_and]
  exact number _ (by decide) (number _ (by decide) h (.literal _)) (.literal _)

theorem invert : (invert e).HasValue known (b ^^^ 0xff).toUInt32 := by
  rw [UInt8.toUInt32_xor]
  exact number _ (by decide) h (.literal _)

theorem increment : (increment e).HasValue known (b + 1).toUInt32 := by
  have h' := (number .add (by decide) h (.literal 1)).lowByte
  rwa [BinOp.eval, UInt32.toUInt8_add, UInt8.toUInt8_toUInt32] at h'

theorem decrement : (decrement e).HasValue known (b - 1).toUInt32 := by
  have h' := (number .sub (by decide) h (.literal 1)).lowByte
  rwa [BinOp.eval, UInt32.toUInt8_sub, UInt8.toUInt8_toUInt32] at h'

end

section

variable (hl : l.HasValue known a.toUInt32) (hr : r.HasValue known b.toUInt32)

include hl hr

theorem atLeast : (compare l r).carry.HasValue known (decide (b ≤ a)).toUInt32 := by
  have h : decide (b ≤ a) = decide (b.toUInt32 ≤ a.toUInt32) := by
    rw [decide_eq_decide]
    exact UInt8.toUInt32_le.symm
  rw [h]
  exact number _ (by decide) hl hr

theorem compareZero : (compare l r).zero.HasValue known (a - b == 0).toUInt32 := by
  have h : (a - b == 0) = (a.toUInt32 == b.toUInt32) := by
    rw [Bool.eq_iff_iff, beq_iff_eq, beq_iff_eq, UInt8.toUInt32_inj]
    constructor
    · intro h
      rw [← UInt8.sub_add_cancel a b, h, UInt8.zero_add]
    · rintro rfl
      exact UInt8.sub_self a
  rw [h]
  exact number _ (by decide) hl hr

theorem compareNegative :
    (compare l r).negative.HasValue known (Cpu.isNegative (a - b)).toUInt32 := by
  have h := (number .sub (by decide) hl hr).lowByte
  rw [BinOp.eval, UInt32.toUInt8_sub, UInt8.toUInt8_toUInt32, UInt8.toUInt8_toUInt32] at h
  exact h.negative

end

theorem shifted {carry : Bool} (kind : Shift) (h : e.HasValue known b.toUInt32)
    (hc : l.HasValue known carry.toUInt32) :
    (shift kind e l).1.HasValue known (kind.change b carry).1.toUInt32 := by
  rw [toUInt32_shift]
  have left := number .shl (by decide) h (.literal 1)
  have right := number .shr (by decide) h (.literal 1)
  cases kind with
  | asl => exact left.lowByte
  | lsr => exact right
  | rol =>
    exact (number .bitOr (by decide) left
      (number .shl (by decide) hc.mkToInt (.literal 0))).lowByte
  | ror =>
    exact number .bitOr (by decide) right
      (number .shl (by decide) hc.mkToInt (.literal 7))

theorem shiftedOut (kind : Shift) (h : e.HasValue known b.toUInt32) (carry : Bool) :
    (shift kind e l).2.HasValue known (kind.change b carry).2.toUInt32 := by
  cases kind with
  | asl | rol => exact h.negative
  | lsr | ror => exact h.testBit 1

end Expression.HasValue

end Lift6502
