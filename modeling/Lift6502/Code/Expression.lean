import Lift6502.Machine.Location
import Lift6502.Text.Characters

/-!
# Expressions of decompiled code

Values are 32-bit words; conditions are the words 0 and 1. The constructors `binary`, `not`, `toInt`
and `lowByte` simplify as they build.
-/

namespace Lift6502

/-- A value with a name. Variables belong to one function. -/
inductive Variable where
  /-- A value kept from the point where it was computed. -/
  | temp (id : Nat)
  /-- The value of a location where paths meet. -/
  | merge (location : Location) (id : Nat)
  /-- The value of a register when the function is entered. -/
  | input (r : Register)
  /-- The block to run next in a dispatch loop. -/
  | dispatch
  deriving DecidableEq, Repr

def Variable.text : Variable → String
  | .temp id => "t" ++ toString id
  | .merge location id => location.text ++ "_" ++ toString id
  | .input r => r.text ++ "_in"
  | .dispatch => "state"

inductive BinOp where
  | add
  | sub
  | bitAnd
  | bitOr
  | bitXor
  | shl
  | shr
  | eq
  | neq
  | lt
  | ge
  | and
  | or
  deriving DecidableEq, Repr, Inhabited

namespace BinOp

def text : BinOp → String
  | .add => "+"
  | .sub => "-"
  | .bitAnd => "&"
  | .bitOr => "|"
  | .bitXor => "^"
  | .shl => "<<"
  | .shr => ">>"
  | .eq => "=="
  | .neq => "!="
  | .lt => "<"
  | .ge => ">="
  | .and => "&&"
  | .or => "||"

/-- Shifting by the width of a word or more leaves nothing. -/
def shiftLeft (l r : UInt32) : UInt32 := if r < 32 then l <<< r else 0

def shiftRight (l r : UInt32) : UInt32 := if r < 32 then l >>> r else 0

def eval (op : BinOp) (l r : UInt32) : UInt32 :=
  match op with
  | .add => l + r
  | .sub => l - r
  | .bitAnd => l &&& r
  | .bitOr => l ||| r
  | .bitXor => l ^^^ r
  | .shl => shiftLeft l r
  | .shr => shiftRight l r
  | .eq => (l == r).toUInt32
  | .neq => (l != r).toUInt32
  | .lt => (decide (l < r)).toUInt32
  | .ge => (decide (r ≤ l)).toUInt32
  | .and => (l != 0 && r != 0).toUInt32
  | .or => (l != 0 || r != 0).toUInt32

end BinOp

inductive UnOp where
  | not
  /-- A condition used as the number 0 or 1. -/
  | toInt
  deriving DecidableEq, Repr

def UnOp.eval : UnOp → UInt32 → UInt32
  | .not, value => (value == 0).toUInt32
  | .toInt, value => value

inductive Expression where
  | literal (value : UInt32)
  | bool (value : Bool)
  | var (v : Variable)
  | memory (address : Expression)
  | binary (op : BinOp) (lhs rhs : Expression)
  | unary (op : UnOp) (operand : Expression)
  deriving DecidableEq, Repr, Inhabited

namespace Expression

/-- `l op r` for two literals. Comparisons give conditions; the logical operators do not apply to
numbers and stay. -/
def foldLiterals (op : BinOp) (l r : UInt32) : Expression :=
  match op with
  | .add | .sub | .bitAnd | .bitOr | .bitXor | .shl | .shr => .literal (op.eval l r)
  | .eq => .bool (l == r)
  | .neq => .bool (l != r)
  | .lt => .bool (decide (l < r))
  | .ge => .bool (decide (r ≤ l))
  | .and | .or => .binary op (.literal l) (.literal r)

def mkBinary (op : BinOp) (lhs rhs : Expression) : Expression :=
  match op, lhs, rhs with
  | op, .literal l, .literal r => foldLiterals op l r
  | .and, .bool l, .bool r => .bool (l && r)
  | .or, .bool l, .bool r => .bool (l || r)
  | .eq, .bool l, .bool r => .bool (l == r)
  | .neq, .bool l, .bool r => .bool (l != r)
  | .and, .bool true, rhs => rhs
  | .or, .bool false, rhs => rhs
  | .and, lhs, .bool true => lhs
  | .or, lhs, .bool false => lhs
  | op, lhs, rhs => .binary op lhs rhs

def mkNot : Expression → Expression
  | .bool value => .bool !value
  | .unary .not operand => operand
  | operand => .unary .not operand

def mkToInt : Expression → Expression
  | .bool value => .literal value.toUInt32
  | operand => .unary .toInt operand

def lowByte (e : Expression) : Expression := mkBinary .bitAnd e (.literal 0xff)

def literal? : Expression → Option UInt32
  | .literal value => some value
  | _ => none

def size : Expression → Nat
  | .literal _ | .bool _ | .var _ => 1
  | .memory address => 1 + address.size
  | .binary _ lhs rhs => 1 + lhs.size + rhs.size
  | .unary _ operand => 1 + operand.size

def reads : Expression → List Variable
  | .literal _ | .bool _ => []
  | .var v => [v]
  | .memory address => address.reads
  | .binary _ lhs rhs => lhs.reads ++ rhs.reads
  | .unary _ operand => operand.reads

def mentions (e : Expression) (v : Variable) : Bool := e.reads.contains v

def mentionsOneOf (e : Expression) (vs : List Variable) : Bool := vs.any e.mentions

def readsMemory : Expression → Bool
  | .literal _ | .bool _ | .var _ => false
  | .memory _ => true
  | .binary _ lhs rhs => lhs.readsMemory || rhs.readsMemory
  | .unary _ operand => operand.readsMemory

/-- The text of an expression; a binary one inside another expression has parentheses around it. -/
def render (nested : Bool) : Expression → String
  | .literal value => Text.hex (if 0xff < value then 4 else 2) value.toNat
  | .bool true => "true"
  | .bool false => "false"
  | .var v => v.text
  | .memory address => "mem[" ++ address.render false ++ "]"
  | .binary op lhs rhs =>
    let inner := lhs.render true ++ " " ++ op.text ++ " " ++ rhs.render true
    if nested then "(" ++ inner ++ ")" else inner
  | .unary .not operand => "!" ++ operand.render true
  | .unary .toInt operand => "int(" ++ operand.render false ++ ")"

def text (e : Expression) : String := e.render false

end Expression

end Lift6502
