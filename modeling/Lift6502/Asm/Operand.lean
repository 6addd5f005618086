import Lift6502.Machine.Location
import Lift6502.Text.Characters

/-!
# Operands

Address expressions and the operand forms in which an instruction can be written.
-/

namespace Lift6502

inductive Reference where
  | address (value : UInt16)
  | symbol (name : String)
  deriving DecidableEq, Repr

/-- An address expression: a base and a signed distance from it, such as `Table+1`. -/
structure Target where
  base : Reference
  offset : Int32 := 0
  deriving DecidableEq, Repr

namespace Target

def address (value : UInt16) : Target := { base := .address value }

def symbol (name : String) : Target := { base := .symbol name }

def label? (t : Target) : Option String :=
  match t.base with
  | .symbol name => if t.offset = 0 then some name else none
  | .address _ => none

/-- A distance with its sign; zero is not written. -/
def offsetText (offset : Int32) : String :=
  let n := offset.toInt
  if n = 0 then "" else if 0 < n then "+" ++ toString n.toNat else "-" ++ toString n.natAbs

/-- Addresses in page zero have two digits, all others four. -/
def text (t : Target) : String :=
  let base := match t.base with
    | .address value => "$" ++ Text.upperHexDigits (if value ≤ 0xff then 2 else 4) value.toNat
    | .symbol name => name
  base ++ offsetText t.offset

end Target

inductive Immediate where
  | byte (value : UInt8)
  | low (target : Target)
  | high (target : Target)
  deriving DecidableEq, Repr

def Immediate.text : Immediate → String
  | .byte value => "#$" ++ Text.upperHexDigits 2 value.toNat
  | .low target => "#<" ++ target.text
  | .high target => "#>" ++ target.text

inductive Width where
  | zeroPage
  | absolute
  deriving DecidableEq, Repr

inductive IndexRegister where
  | x
  | y
  deriving DecidableEq, Repr, Inhabited

def IndexRegister.register : IndexRegister → Register
  | .x => .x
  | .y => .y

inductive Operand where
  | implied
  | accumulator
  | immediate (value : Immediate)
  | direct (target : Target) (width : Width)
  | indexed (target : Target) (index : IndexRegister) (width : Width)
  | indirect (target : Target)
  | indexedIndirect (target : Target)
  | indirectIndexed (target : Target)
  deriving DecidableEq, Repr, Inhabited

namespace Operand

def target? : Operand → Option Target
  | .implied | .accumulator | .immediate _ => none
  | .direct t _ | .indexed t _ _ | .indirect t | .indexedIndirect t | .indirectIndexed t => some t

def usesMemory (o : Operand) : Bool := o.target?.isSome

def index? : Operand → Option Register
  | .indexed _ index _ => some index.register
  | .indexedIndirect _ => some .x
  | .indirectIndexed _ => some .y
  | _ => none

def text : Operand → String
  | .implied => ""
  | .accumulator => "A"
  | .immediate value => value.text
  | .direct t _ => t.text
  | .indexed t .x _ => t.text ++ ",X"
  | .indexed t .y _ => t.text ++ ",Y"
  | .indirect t => "(" ++ t.text ++ ")"
  | .indexedIndirect t => "(" ++ t.text ++ ",X)"
  | .indirectIndexed t => "(" ++ t.text ++ "),Y"

end Operand

end Lift6502
