import Lift6502.Generate.Join
import Lift6502.Symbolic.Arithmetic

/-!
# Code for one instruction
-/

namespace Lift6502.Generator

open Gen

structure Site where
  name : String
  block : Block
  index : Nat
  instruction : Instruction
  deriving Repr

namespace Site

def unsupported (site : Site) : GenerationError := .unsupported site.name site.instruction.text

def unresolvedTarget (site : Site) : GenerationError :=
  .unresolvedTarget site.name site.instruction.text

def stackUnderflow (site : Site) : GenerationError :=
  .stackUnderflow site.name site.instruction.text

end Site

/-- The two bytes at a place in page zero as an address; the second one wraps around in the page. -/
def pointer (place : Expression) : Gen Expression := do
  let low ← load place
  let high ← load (Expression.mkBinary .add place (.literal 1)).lowByte
  return .mkBinary .bitOr low (.mkBinary .shl high (.literal 8))

def indexed (place index : Expression) (mask : UInt32) : Expression :=
  .mkBinary .bitAnd (.mkBinary .add place index) (.literal mask)

variable (c : Generator) (site : Site) (s : SymbolicState)

/-- The address that an operand with a known base denotes. An index is added within page zero for a
one-byte address, and within memory otherwise. -/
def addressFrom (base : Expression) :
    AddressingMode → Gen Expression
  | .zeroPage | .absolute => return base
  | .zeroPageX => return indexed base (← read s .x site.name) 0xff
  | .zeroPageY => return indexed base (← read s .y site.name) 0xff
  | .absoluteX => return indexed base (← read s .x site.name) 0xffff
  | .absoluteY => return indexed base (← read s .y site.name) 0xffff
  | .indexedIndirect => do
    let place ← c.withinLimit (indexed base (← read s .x site.name) 0xff)
    pointer place
  | .indirectIndexed => do
    let y ← read s .y site.name
    return indexed (← pointer base) y 0xffff
  | .implied | .accumulator | .immediate | .indirect | .relative => throw site.unsupported

def address : Gen Expression :=
  match site.instruction.operand.target?.bind c.program.resolve?, site.instruction.mode? with
  | none, _ => throw site.unresolvedTarget
  | some _, none => throw site.unsupported
  | some base, some mode => c.addressFrom site s (.literal base.toUInt32) mode

/-- The value an instruction works on: an immediate byte, the accumulator, or a byte of memory. -/
def readOperand : Gen Expression := do
  match site.instruction.operand with
  | .immediate value =>
    match c.program.immediateByte? value with
    | some byte => return .literal byte.toUInt32
    | none => throw site.unresolvedTarget
  | .implied | .accumulator => read s .a site.name
  | _ => load (← c.address site s)

def setResultFlags (value : Expression) : Gen SymbolicState :=
  c.bindAll s [(.z, Arithmetic.zero value), (.n, Arithmetic.negative value)]

def putRegister (r : Register) (value : Expression) :
    Gen SymbolicState := do
  let (s, value) ← c.bind s (.register r) value
  c.setResultFlags s value

def modifyMemory (change : Expression → Expression) : Gen (Expression × Expression) := do
  let address ← c.address site s
  let old ← load address
  let value ← c.withinLimit (change old)
  emit (.store address value)
  return (old, value)

def transfer (source target : Register) :
    Gen SymbolicState := do
  c.putRegister s target (← read s (.register source) site.name)

def store (r : Register) : Gen SymbolicState := do
  let value ← read s (.register r) site.name
  emit (.store (← c.address site s) value)
  return s

/-- Addition with carry; subtraction adds the inverted operand. -/
def addWithCarry (inverted : Bool) :
    Gen SymbolicState := do
  let a ← read s .a site.name
  let carry ← read s .c site.name
  let operand ← c.readOperand site s
  let operand ← (if inverted then c.withinLimit (Arithmetic.invert operand) else pure operand :
    Gen Expression)
  let sum ← c.withinLimit (Arithmetic.sum a operand carry)
  let (s, result) ← c.bind s .a sum.lowByte
  let s ← c.bindAll s
    [(.c, Arithmetic.carryOut sum), (.v, Arithmetic.overflow a operand result)]
  c.setResultFlags s result

def logical (op : BinOp) : Gen SymbolicState := do
  let a ← read s .a site.name
  let operand ← c.readOperand site s
  c.putRegister s .a (.mkBinary op a operand)

def compare (r : Register) :
    Gen SymbolicState := do
  let value ← read s (.register r) site.name
  let operand ← c.readOperand site s
  let flags := Arithmetic.compare value operand
  c.bindAll s [(.c, flags.carry), (.z, flags.zero), (.n, flags.negative)]

def shiftedIn : Arithmetic.Shift → Gen Expression
  | .rol | .ror => read s .c site.name
  | .asl | .lsr => return .bool false

def shift (kind : Arithmetic.Shift) :
    Gen SymbolicState := do
  let carry ← shiftedIn site s kind
  let result := fun value => Arithmetic.shift kind value carry
  if site.instruction.operand.usesMemory then
    let (old, value) ← c.modifyMemory site s fun old => (result old).1
    let (s, _) ← c.bind s .c (result old).2
    c.setResultFlags s value
  else
    let a ← read s .a site.name
    let (s, _) ← c.bind s .c (result a).2
    c.putRegister s .a (result a).1

def bitTest : Gen SymbolicState := do
  let a ← read s .a site.name
  let operand ← load (← c.address site s)
  let flags := Arithmetic.bitTest a operand
  c.bindAll s [(.z, flags.zero), (.n, flags.negative), (.v, flags.overflow)]

/-- A byte comes back from the stack to the accumulator, with or without a known value. -/
def pullAccumulator : Gen SymbolicState := do
  match s.pop? with
  | none => throw site.stackUnderflow
  | some (.status _, _) => throw site.unsupported
  | some (.byte b, s) =>
    match b.expression? .a with
    | some value => c.putRegister s .a value
    | none => return s.setAll [(.a, b), (.z, b), (.n, b)]

/-- The flags come back from the stack, or are taken from the bits of a byte. -/
def pullStatus : Gen SymbolicState := do
  match s.pop? with
  | none => throw site.stackUnderflow
  | some (.status flags, s) => return s.setAll (Flag.all.map fun f => (.flag f, flags.get f))
  | some (.byte b, s) =>
    match b.expression? .a with
    | none => throw (.unbound site.name .a "pulled as status")
    | some value =>
      let status ← stableValue value
      return s.setAll <| Flag.all.map fun f =>
        (.flag f, .ofExpression (Arithmetic.statusBit status f.statusBit))

/-- A jump or branch; its test belongs to the tree. -/
def branchAway : Gen SymbolicState :=
  if site.block.branch.isNone then throw site.unresolvedTarget else return s

def callRoutine : Gen SymbolicState := do
  match (site.block.callAt? site.index).bind c.routines.atEntry? with
  | some callee => call callee s site.name
  | none => throw site.unresolvedTarget

def modifyRegister (r : Register) (change : Expression → Expression) : Gen SymbolicState := do
  c.putRegister s r (change (← read s (.register r) site.name))

def loadRegister (r : Register) :
    Gen SymbolicState := do
  c.putRegister s r (← c.readOperand site s)

def countInMemory (change : Expression → Expression) : Gen SymbolicState := do
  c.setResultFlags s (← c.modifyMemory site s change).2

/-- The state after an instruction, or nothing if it leaves the routine. -/
def instruction : Gen (Option SymbolicState) :=
  match site.instruction.opcode with
  | .lda => some <$> c.loadRegister site s .a
  | .ldx => some <$> c.loadRegister site s .x
  | .ldy => some <$> c.loadRegister site s .y
  | .sta => some <$> c.store site s .a
  | .stx => some <$> c.store site s .x
  | .sty => some <$> c.store site s .y
  | .tax => some <$> c.transfer site s .a .x
  | .tay => some <$> c.transfer site s .a .y
  | .txa => some <$> c.transfer site s .x .a
  | .tya => some <$> c.transfer site s .y .a
  | .inx => some <$> c.modifyRegister site s .x Arithmetic.increment
  | .iny => some <$> c.modifyRegister site s .y Arithmetic.increment
  | .dex => some <$> c.modifyRegister site s .x Arithmetic.decrement
  | .dey => some <$> c.modifyRegister site s .y Arithmetic.decrement
  | .inc => some <$> c.countInMemory site s Arithmetic.increment
  | .dec => some <$> c.countInMemory site s Arithmetic.decrement
  | .adc => some <$> c.addWithCarry site s false
  | .sbc => some <$> c.addWithCarry site s true
  | .and => some <$> c.logical site s .bitAnd
  | .ora => some <$> c.logical site s .bitOr
  | .eor => some <$> c.logical site s .bitXor
  | .cmp => some <$> c.compare site s .a
  | .cpx => some <$> c.compare site s .x
  | .cpy => some <$> c.compare site s .y
  | .asl => some <$> c.shift site s .asl
  | .lsr => some <$> c.shift site s .lsr
  | .rol => some <$> c.shift site s .rol
  | .ror => some <$> c.shift site s .ror
  | .bit => some <$> c.bitTest site s
  | .clc => return some (s.set .c (.literal 0))
  | .sec => return some (s.set .c (.literal 1))
  | .clv => return some (s.set .v (.literal 0))
  -- Decimal mode and the interrupt mask are not part of the state.
  | .cld | .sed | .cli | .sei | .nop => return some s
  | .pha => return some (s.push (.byte (s.get .a)))
  | .php => return some (s.push (.status (.ofFn fun f => s.get (.flag f))))
  | .pla => some <$> c.pullAccumulator site s
  | .plp => some <$> pullStatus site s
  | .jsr => some <$> c.callRoutine site s
  | .jmp =>
    match site.instruction.operand with
    | .indirect _ => throw site.unsupported
    | _ => some <$> branchAway site s
  | .bcc | .bcs | .beq | .bmi | .bne | .bpl | .bvc | .bvs => some <$> branchAway site s
  | .rts => do
    c.ret s site.name
    return none
  | .brk | .rti | .tsx | .txs => throw site.unsupported

end Lift6502.Generator
