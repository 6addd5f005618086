import Lift6502.Asm.Program
import Lift6502.Exchange.Datum

/-!
# Programs as plain data
-/

namespace Lift6502

open Datum

def Register.names : List (String × Register) := Register.all.map fun r => (r.title, r)

def Flag.names : List (String × Flag) :=
  [("Carry", .carry), ("Zero", .zero), ("Negative", .negative), ("Overflow", .overflow)]

def Location.names : List (String × Location) :=
  Location.all.map fun l => (l.title, l)

def Opcode.title (o : Opcode) : String :=
  match o.mnemonic.toList with
  | c :: rest => String.ofList (c.toUpper :: rest)
  | [] => ""

def Opcode.names : List (String × Opcode) := Opcode.all.map fun o => (o.title, o)

def AddressingMode.names : List (String × AddressingMode) :=
  [("Implied", .implied), ("Accumulator", .accumulator), ("Immediate", .immediate),
   ("ZeroPage", .zeroPage), ("ZeroPageX", .zeroPageX), ("ZeroPageY", .zeroPageY),
   ("Absolute", .absolute), ("AbsoluteX", .absoluteX), ("AbsoluteY", .absoluteY),
   ("Indirect", .indirect), ("IndexedIndirect", .indexedIndirect),
   ("IndirectIndexed", .indirectIndexed), ("Relative", .relative)]

def Width.names : List (String × Width) := [("ZeroPage", .zeroPage), ("Absolute", .absolute)]

def IndexRegister.names : List (String × IndexRegister) := [("X", .x), ("Y", .y)]

def Target.toDatum (t : Target) : Datum :=
  let base := match t.base with
    | .address value => form "Address" value.toNat
    | .symbol name => form "Symbol" name
  .record [("base", base), ("offset", .int t.offset.toInt)]

def Immediate.toDatum : Immediate → Datum
  | .byte value => form "Byte" value.toNat
  | .low target => form "LowByte" target.toDatum
  | .high target => form "HighByte" target.toDatum

def Operand.toDatum : Operand → Datum
  | .implied => "Implied"
  | .accumulator => "Accumulator"
  | .immediate value => form "Immediate" value.toDatum
  | .direct target width => form "Direct" (.record
      [("target", target.toDatum), ("width", named Width.names width)])
  | .indexed target index width => form "Indexed" (.record
      [("target", target.toDatum), ("index", named IndexRegister.names index),
       ("width", named Width.names width)])
  | .indirect target => form "Indirect" target.toDatum
  | .indexedIndirect target => form "IndexedIndirect" target.toDatum
  | .indirectIndexed target => form "IndirectIndexed" target.toDatum

def Instruction.toDatum (i : Instruction) : Datum :=
  .record [("opcode", i.opcode.title), ("operand", i.operand.toDatum)]

def LineKind.toDatum : LineKind → Datum
  | .empty => "Empty"
  | .code i => form "Instruction" i.toDatum
  | .data bytes => form "Data" (listOf (fun byte => byte.toNat) bytes)
  | .constant name value => form "Constant" (.record [("name", name), ("value", value.toNat)])

def Line.toDatum (line : Line) : Datum :=
  .record [("label", option .text line.label), ("offset", line.offset.toNat),
    ("kind", line.kind.toDatum)]

def Program.toDatum (p : Program) : Datum :=
  .record [("origin", p.origin.toNat), ("lines", listOf Line.toDatum p.lines)]

def Reference.ofDatum? (d : Datum) : Option Reference := do
  match ← d.form? with
  | ("Address", value) => value.u16?.map .address
  | ("Symbol", name) => name.text?.map .symbol
  | _ => none

def Target.ofDatum? (d : Datum) : Option Target := do
  match ← d.fields? ["base", "offset"] with
  | [base, offset] => return { base := ← Reference.ofDatum? base, offset := ← offset.i32? }
  | _ => none

def Immediate.ofDatum? (d : Datum) : Option Immediate := do
  match ← d.form? with
  | ("Byte", value) => value.u8?.map .byte
  | ("LowByte", target) => (Target.ofDatum? target).map .low
  | ("HighByte", target) => (Target.ofDatum? target).map .high
  | _ => none

def Operand.ofDatum? (d : Datum) : Option Operand :=
  d.named? [("Implied", .implied), ("Accumulator", .accumulator)] <|> do
  match ← d.form? with
  | ("Immediate", value) => (Immediate.ofDatum? value).map .immediate
  | ("Direct", value) =>
    match ← value.fields? ["target", "width"] with
    | [target, width] => return .direct (← Target.ofDatum? target) (← width.named? Width.names)
    | _ => none
  | ("Indexed", value) =>
    match ← value.fields? ["target", "index", "width"] with
    | [target, index, width] =>
      return .indexed (← Target.ofDatum? target) (← index.named? IndexRegister.names)
        (← width.named? Width.names)
    | _ => none
  | ("Indirect", target) => (Target.ofDatum? target).map .indirect
  | ("IndexedIndirect", target) => (Target.ofDatum? target).map .indexedIndirect
  | ("IndirectIndexed", target) => (Target.ofDatum? target).map .indirectIndexed
  | _ => none

def Instruction.ofDatum? (d : Datum) : Option Instruction := do
  match ← d.fields? ["opcode", "operand"] with
  | [opcode, operand] => return ⟨← opcode.named? Opcode.names, ← Operand.ofDatum? operand⟩
  | _ => none

def LineKind.ofDatum? (d : Datum) : Option LineKind :=
  d.named? [("Empty", .empty)] <|> do
  match ← d.form? with
  | ("Instruction", value) => (Instruction.ofDatum? value).map .code
  | ("Data", bytes) => (bytes.listOf? u8?).map .data
  | ("Constant", value) =>
    match ← value.fields? ["name", "value"] with
    | [name, value] => return .constant (← name.text?) (← value.u16?)
    | _ => none
  | _ => none

def Line.ofDatum? (d : Datum) : Option Line := do
  match ← d.fields? ["label", "offset", "kind"] ["label"] with
  | [label, offset, kind] =>
    return { label := ← label.option? text?, offset := ← offset.u16?,
             kind := ← LineKind.ofDatum? kind }
  | _ => none

def Program.ofDatum? (d : Datum) : Option Program := do
  match ← d.fields? ["origin", "lines"] with
  | [origin, lines] => return { origin := ← origin.u16?, lines := ← lines.listOf? Line.ofDatum? }
  | _ => none

end Lift6502
