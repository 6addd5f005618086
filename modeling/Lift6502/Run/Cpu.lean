import Lift6502.Machine.Encoding
import Lift6502.Run.Memory
import Lift6502.Text.Characters

/-!
# The processor

Decimal mode can be switched on, but addition and subtraction stay binary.
-/

namespace Lift6502

structure Status where
  carry : Bool := false
  zero : Bool := false
  interrupt : Bool := false
  decimal : Bool := false
  overflow : Bool := false
  negative : Bool := false
  deriving DecidableEq, Repr

namespace Status

def ofByte (byte : UInt8) : Status where
  carry := byte &&& 0x01 != 0
  zero := byte &&& 0x02 != 0
  interrupt := byte &&& 0x04 != 0
  decimal := byte &&& 0x08 != 0
  overflow := byte &&& 0x40 != 0
  negative := byte &&& 0x80 != 0

/-- The byte that is pushed; the two bits without a flag are set. -/
def toByte (s : Status) : UInt8 :=
  s.carry.toUInt8 ||| s.zero.toUInt8 <<< 1 ||| s.interrupt.toUInt8 <<< 2 |||
    s.decimal.toUInt8 <<< 3 ||| (0x30 : UInt8) ||| s.overflow.toUInt8 <<< 6 |||
      s.negative.toUInt8 <<< 7

theorem ofByte_toByte (s : Status) : ofByte s.toByte = s := by
  rcases s with ⟨_ | _, _ | _, _ | _, _ | _, _ | _, _ | _⟩ <;> decide

def text (s : Status) : String :=
  let letter := fun (isSet : Bool) name => if isSet then name else ""
  letter s.negative "n" ++ letter s.overflow "v" ++ letter s.decimal "d" ++
    letter s.interrupt "i" ++ letter s.zero "z" ++ letter s.carry "c"

end Status

/-! ## The processor -/

structure Cpu where
  a : UInt8 := 0
  x : UInt8 := 0
  y : UInt8 := 0
  sp : UInt8 := 0xfd
  pc : UInt16 := 0
  status : Status := { interrupt := true }
  memory : Memory addressCount
  steps : Nat := 0
  deriving DecidableEq, Repr

inductive CpuError where
  | illegalOpcode (pc : UInt16) (byte : UInt8)
  | breakpoint (pc : UInt16)
  /-- The steps run so far have reached the limit. -/
  | stepLimit (steps : Nat)
  deriving DecidableEq, Repr

def CpuError.message : CpuError → String
  | .illegalOpcode pc byte =>
    "illegal opcode " ++ Text.hex 2 byte.toNat ++ " at " ++ Text.hex 4 pc.toNat
  | .breakpoint pc => "BRK at " ++ Text.hex 4 pc.toNat
  | .stepLimit steps => "no return after " ++ toString steps ++ " steps"

def wordOf (low high : UInt8) : UInt16 := high.toUInt16 <<< 8 ||| low.toUInt16

def signExtend (byte : UInt8) : UInt16 :=
  if byte < 0x80 then byte.toUInt16 else byte.toUInt16 ||| 0xff00

namespace Cpu

variable (c : Cpu)

def read (address : UInt16) : UInt8 := c.memory.read address

def write (address : UInt16) (byte : UInt8) : Cpu :=
  { c with memory := c.memory.write address byte }

def word (address : UInt16) : UInt16 := wordOf (c.read address) (c.read (address + 1))

/-- The address stored in page zero; its second byte is in page zero, too. -/
def pointerAt (address : UInt8) : UInt16 :=
  wordOf (c.read address.toUInt16) (c.read (address + 1).toUInt16)

def stackAddress (sp : UInt8) : UInt16 := 0x100 + sp.toUInt16

def push (byte : UInt8) : Cpu :=
  let sp := c.sp
  { c.write (stackAddress sp) byte with sp := sp - 1 }

def pushWord (value : UInt16) : Cpu :=
  (c.push (value >>> 8).toUInt8).push value.toUInt8

def pull : UInt8 × Cpu :=
  let sp := c.sp + 1
  (c.read (stackAddress sp), { c with sp })

def pullWord : UInt16 × Cpu :=
  let (low, c) := c.pull
  let (high, c) := c.pull
  (wordOf low high, c)

/-- The address that an instruction works on, for the address written in its operand. A one-byte
operand is the low byte of it. -/
def operandAddress (mode : AddressingMode) (written : UInt16) : UInt16 :=
  let byte := written.toUInt8
  match mode with
  | .zeroPage => byte.toUInt16
  | .zeroPageX => (byte + c.x).toUInt16
  | .zeroPageY => (byte + c.y).toUInt16
  | .absolute => written
  | .absoluteX => written + c.x.toUInt16
  | .absoluteY => written + c.y.toUInt16
  | .indirect =>
    -- The second byte of the target comes from the same page as the first.
    wordOf (c.read written) (c.read ((written &&& 0xff00) ||| ((written + 1) &&& 0x00ff)))
  | .indexedIndirect => c.pointerAt (byte + c.x)
  | .indirectIndexed => c.pointerAt byte + c.y.toUInt16
  | .implied | .accumulator | .immediate | .relative => 0

def effectiveAddress (mode : AddressingMode) (operand next : UInt16) : UInt16 :=
  match mode with
  | .immediate => operand
  | .relative => next + signExtend (c.read operand)
  | mode => c.operandAddress mode (c.word operand)

def isNegative (byte : UInt8) : Bool := byte &&& 0x80 != 0

def setResultFlags (byte : UInt8) : Cpu :=
  { c with status := { c.status with zero := byte == 0, negative := isNegative byte } }

def setCarry (carry : Bool) : Cpu := { c with status := { c.status with carry } }

def setA (byte : UInt8) : Cpu := { c with a := byte }.setResultFlags byte

def setX (byte : UInt8) : Cpu := { c with x := byte }.setResultFlags byte

def setY (byte : UInt8) : Cpu := { c with y := byte }.setResultFlags byte

def add (byte : UInt8) : Cpu :=
  let sum := c.a.toUInt16 + byte.toUInt16 + c.status.carry.toUInt16
  let result := sum.toUInt8
  let overflow := !isNegative (c.a ^^^ byte) && isNegative (c.a ^^^ result)
  { c with status := { c.status with carry := decide (0xff < sum), overflow } }.setA result

def compare (register byte : UInt8) : Cpu :=
  (c.setCarry (decide (byte ≤ register))).setResultFlags (register - byte)

/-- A byte of memory or the accumulator is read, changed and written back. The change also says
what the carry becomes. -/
def modifyByte (mode : AddressingMode) (address : UInt16) (byte : UInt8)
    (change : UInt8 → Bool → UInt8 × Bool) : Cpu :=
  let carry := c.status.carry
  match mode with
  | .accumulator =>
    let (result, carry) := change c.a carry
    (c.setCarry carry).setA result
  | _ =>
    let (result, carry) := change byte carry
    ((c.setCarry carry).setResultFlags result).write address result

def branchIf (taken : Bool) (target : UInt16) : Cpu :=
  if taken then { c with pc := target } else c

/-- What an instruction does with the byte at the address that it works on, once the program counter
is behind it. `BRK` does nothing: it ends the run. -/
def apply (opcode : Opcode) (mode : AddressingMode) (address : UInt16) (byte : UInt8) : Cpu :=
  match opcode with
  | .adc => c.add byte
  | .sbc => c.add (byte ^^^ 0xff)
  | .and => c.setA (c.a &&& byte)
  | .ora => c.setA (c.a ||| byte)
  | .eor => c.setA (c.a ^^^ byte)
  | .asl => c.modifyByte mode address byte fun byte _ => (byte <<< 1, isNegative byte)
  | .lsr => c.modifyByte mode address byte fun byte _ => (byte >>> 1, byte &&& 1 != 0)
  | .rol => c.modifyByte mode address byte fun byte carry =>
      (byte <<< 1 ||| carry.toUInt8, isNegative byte)
  | .ror => c.modifyByte mode address byte fun byte carry =>
      (byte >>> 1 ||| carry.toUInt8 <<< 7, byte &&& 1 != 0)
  | .inc => c.modifyByte mode address byte fun byte carry => (byte + 1, carry)
  | .dec => c.modifyByte mode address byte fun byte carry => (byte - 1, carry)
  | .bit =>
    { c with status := { c.status with
        zero := c.a &&& byte == 0, negative := isNegative byte, overflow := byte &&& 0x40 != 0 } }
  | .bcc => c.branchIf (!c.status.carry) address
  | .bcs => c.branchIf c.status.carry address
  | .bne => c.branchIf (!c.status.zero) address
  | .beq => c.branchIf c.status.zero address
  | .bpl => c.branchIf (!c.status.negative) address
  | .bmi => c.branchIf c.status.negative address
  | .bvc => c.branchIf (!c.status.overflow) address
  | .bvs => c.branchIf c.status.overflow address
  | .clc => c.setCarry false
  | .sec => c.setCarry true
  | .cli => { c with status := { c.status with interrupt := false } }
  | .sei => { c with status := { c.status with interrupt := true } }
  | .cld => { c with status := { c.status with decimal := false } }
  | .sed => { c with status := { c.status with decimal := true } }
  | .clv => { c with status := { c.status with overflow := false } }
  | .cmp => c.compare c.a byte
  | .cpx => c.compare c.x byte
  | .cpy => c.compare c.y byte
  | .dex => c.setX (c.x - 1)
  | .dey => c.setY (c.y - 1)
  | .inx => c.setX (c.x + 1)
  | .iny => c.setY (c.y + 1)
  | .jmp => { c with pc := address }
  | .jsr =>
    let last := c.pc - 1
    { c.pushWord last with pc := address }
  | .rts =>
    let (last, c) := c.pullWord
    { c with pc := last + 1 }
  | .rti =>
    let (status, c) := c.pull
    let (pc, c) := c.pullWord
    { c with status := .ofByte status, pc }
  | .lda => c.setA byte
  | .ldx => c.setX byte
  | .ldy => c.setY byte
  | .sta => let stored := c.a; c.write address stored
  | .stx => let stored := c.x; c.write address stored
  | .sty => let stored := c.y; c.write address stored
  | .tax => c.setX c.a
  | .tay => c.setY c.a
  | .txa => c.setA c.x
  | .tya => c.setA c.y
  | .tsx => c.setX c.sp
  | .txs => { c with sp := c.x }
  | .pha => let pushed := c.a; c.push pushed
  | .php => let status := c.status; c.push status.toByte
  | .pla =>
    let (pulled, c) := c.pull
    c.setA pulled
  | .plp =>
    let (pulled, c) := c.pull
    { c with status := .ofByte pulled }
  | .nop | .brk => c

def execute (opcode : Opcode) (mode : AddressingMode) (address : UInt16) : Cpu :=
  c.apply opcode mode address (c.read address)

def step : Except CpuError Opcode × Cpu :=
  let pc := c.pc
  let byte := c.read pc
  match Opcode.decode? byte with
  | none => (.error (.illegalOpcode pc byte), c)
  | some (opcode, mode) =>
    let next := pc + UInt16.ofNat mode.size
    let address := c.effectiveAddress mode (pc + 1) next
    let c := { c with steps := c.steps + 1, pc := next }
    if opcode = .brk then (.error (.breakpoint (next - 1)), c)
    else (.ok opcode, c.execute opcode mode address)

/-- Runs at most `fuel` instructions, until the return of a subroutine inside which `depth` others
have been called. -/
def runToReturn : Nat → Nat → Cpu → Except CpuError Unit × Cpu
  | 0, _, c => (.error (.stepLimit c.steps), c)
  | fuel + 1, depth, c =>
    match c.step with
    | (.error e, c) => (.error e, c)
    | (.ok .jsr, c) => runToReturn fuel (depth + 1) c
    | (.ok .rts, c) =>
      match depth with
      | 0 => (.ok (), c)
      | depth + 1 => runToReturn fuel depth c
    | (.ok _, c) => runToReturn fuel depth c

/-- Calls a subroutine and runs until it returns. All steps of the processor count towards the
limit. The return address is the one of a call just before the subroutine. -/
def call (entry : UInt16) (limit : Nat) : Except CpuError Unit × Cpu :=
  let c := { c.pushWord (entry - 1) with pc := entry }
  runToReturn (limit - c.steps) 0 c

end Cpu

end Lift6502
