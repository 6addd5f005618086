import Lift6502.Asm.Instruction

/-!
# Programs

Each line has its byte offset from the origin. Of several definitions of one name the last one
counts, and a constant hides a label of the same name.
-/

namespace Lift6502

inductive LineKind where
  | empty
  | code (instruction : Instruction)
  | data (bytes : List UInt8)
  | constant (name : String) (value : UInt16)
  deriving DecidableEq, Repr

structure Line where
  label : Option String
  offset : UInt16
  kind : LineKind
  deriving DecidableEq, Repr

namespace Line

def size (line : Line) : UInt16 :=
  match line.kind with
  | .code i => UInt16.ofNat (i.size?.getD 0)
  | .data bytes => UInt16.ofNat bytes.length
  | .empty | .constant .. => 0

def instruction? (line : Line) : Option Instruction :=
  match line.kind with
  | .code i => some i
  | _ => none

def constant? (line : Line) : Option (String × UInt16) :=
  match line.kind with
  | .constant name value => some (name, value)
  | _ => none

/-- The label of the line with its offset. What stands before a constant is no label. -/
def labelOffset? (line : Line) : Option (String × UInt16) :=
  match line.kind, line.label with
  | .constant .., _ => none
  | _, some label => some (label, line.offset)
  | _, none => none

end Line

structure Program where
  origin : UInt16
  lines : List Line
  deriving DecidableEq, Repr, Inhabited

namespace Program

def constants (p : Program) : List (String × UInt16) := (p.lines.filterMap Line.constant?).reverse

def labels (p : Program) : List (String × UInt16) := (p.lines.filterMap Line.labelOffset?).reverse

def constant? (p : Program) (name : String) : Option UInt16 := p.constants.lookup name

def labelOffset? (p : Program) (name : String) : Option UInt16 := p.labels.lookup name

def addressOf (p : Program) (offset : UInt16) : UInt16 := p.origin + offset

def base? (p : Program) : Reference → Option UInt16
  | .address value => some value
  | .symbol name => (p.constant? name).or ((p.labelOffset? name).map p.addressOf)

def resolve? (p : Program) (t : Target) : Option UInt16 :=
  (p.base? t.base).map fun base => UInt16.ofInt (base.toNat + t.offset.toInt)

def immediateByte? (p : Program) : Immediate → Option UInt8
  | .byte value => some value
  | .low t => (p.resolve? t).map UInt16.toUInt8
  | .high t => (p.resolve? t).map fun (address : UInt16) => (address >>> 8).toUInt8

/-- Replaces one byte of a data line. A line that is not data, or is too short, stays as it is. -/
def patch? (p : Program) (line position : Nat) (byte : UInt8) : Option Program :=
  match p.lines[line]? with
  | some { kind := .data bytes, label, offset } =>
    if position < bytes.length then
      let patched : Line := { label, offset, kind := .data (bytes.set position byte) }
      some { p with lines := p.lines.set line patched }
    else none
  | _ => none

end Program

end Lift6502
