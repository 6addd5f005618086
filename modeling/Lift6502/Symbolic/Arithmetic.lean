import Lift6502.Code.Expression

/-!
# Results of instructions as expressions

Bytes are kept below 256 by masking after every step that can leave that range.
-/

namespace Lift6502.Arithmetic

open Expression

def zero (value : Expression) : Expression := mkBinary .eq value (.literal 0)

def negative (value : Expression) : Expression := mkBinary .ge value (.literal 0x80)

/-- `a + operand + carry`, with the carry out of the byte still in it. -/
def sum (a operand carry : Expression) : Expression :=
  mkBinary .add (mkBinary .add a operand) (mkToInt carry)

/-- Subtraction adds this. -/
def invert (operand : Expression) : Expression := mkBinary .bitXor operand (.literal 0xff)

def carryOut (sum : Expression) : Expression := mkBinary .ge sum (.literal 0x100)

/-- Both inputs have one sign and the result has the other. -/
def overflow (a operand result : Expression) : Expression :=
  let sign := fun op l r =>
    mkBinary op (mkBinary .bitAnd (mkBinary .bitXor l r) (.literal 0x80)) (.literal 0)
  mkBinary .and (sign .eq a operand) (sign .neq a result)

def increment (value : Expression) : Expression := (mkBinary .add value (.literal 1)).lowByte

def decrement (value : Expression) : Expression := (mkBinary .sub value (.literal 1)).lowByte

structure Comparison where
  carry : Expression
  zero : Expression
  negative : Expression
  deriving DecidableEq, Repr

def compare (register operand : Expression) : Comparison where
  carry := mkBinary .ge register operand
  zero := mkBinary .eq register operand
  negative := negative (mkBinary .sub register operand).lowByte

inductive Shift where
  | asl
  | lsr
  | rol
  | ror
  deriving DecidableEq, Repr

/-- The result of a shift, and the bit shifted out. Only the rotations use the carry. -/
def shift (kind : Shift) (value carry : Expression) : Expression × Expression :=
  let lowBit := mkBinary .neq (mkBinary .bitAnd value (.literal 1)) (.literal 0)
  let carryAt := fun position => mkBinary .shl (mkToInt carry) (.literal position)
  let left := mkBinary .shl value (.literal 1)
  let right := mkBinary .shr value (.literal 1)
  match kind with
  | .asl => (left.lowByte, negative value)
  | .lsr => (right, lowBit)
  | .rol => ((mkBinary .bitOr left (carryAt 0)).lowByte, negative value)
  | .ror => (mkBinary .bitOr right (carryAt 7), lowBit)

structure BitTest where
  zero : Expression
  negative : Expression
  overflow : Expression
  deriving DecidableEq, Repr

def bitTest (a operand : Expression) : BitTest where
  zero := zero (mkBinary .bitAnd a operand)
  negative := negative operand
  overflow := mkBinary .neq (mkBinary .bitAnd operand (.literal 0x40)) (.literal 0)

def statusBit (status : Expression) (position : Nat) : Expression :=
  mkBinary .neq (mkBinary .bitAnd status (.literal (1 <<< UInt32.ofNat position))) (.literal 0)

end Lift6502.Arithmetic
