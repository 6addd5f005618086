import Lift6502.Asm.Program
import Lift6502.Run.Cpu

/-!
# The processor with its stack kept apart

What is pushed lies on a list and not in memory, and jumps and branches move nothing: the tree of
the routine says where control goes.
-/

namespace Lift6502

def Status.get (s : Status) : Flag → Bool
  | .carry => s.carry
  | .zero => s.zero
  | .negative => s.negative
  | .overflow => s.overflow

namespace Cpu

def register (c : Cpu) : Register → UInt8
  | .a => c.a
  | .x => c.x
  | .y => c.y

def value (c : Cpu) : Location → UInt32
  | .register r => (c.register r).toUInt32
  | .flag f => (c.status.get f).toUInt32

end Cpu

/-- What an instruction works on: the mode of its encoding, an address, and the byte there. -/
structure Work where
  mode : AddressingMode
  address : UInt16
  byte : UInt8
  deriving DecidableEq, Repr

namespace Program

/-- What an instruction works on as the processor sees it. Without an address the byte is the
immediate one, or the accumulator. -/
def work? (p : Program) (i : Instruction) (c : Cpu) : Option Work := do
  let mode ← i.mode?
  match i.operand with
  | .implied | .accumulator => return ⟨mode, 0, c.a⟩
  | .immediate value => return ⟨mode, 0, ← p.immediateByte? value⟩
  | operand =>
    let address := c.operandAddress mode (← operand.target?.bind p.resolve?)
    return ⟨mode, address, c.read address⟩

end Program

/-- A processor and the bytes on its stack, the top first. -/
structure Core where
  cpu : Cpu
  stack : List UInt8 := []
  deriving DecidableEq, Repr

namespace Core

/-- What an instruction other than a call or a return does, if it can be run without a
stack in memory. -/
def step (work? : Option Work) (opcode : Opcode) (c : Core) : Option Core :=
  match opcode with
  | .pha => some { c with stack := c.cpu.a :: c.stack }
  | .php => some { c with stack := c.cpu.status.toByte :: c.stack }
  | .pla =>
    match c.stack with
    | [] => none
    | byte :: rest => some { cpu := c.cpu.setA byte, stack := rest }
  | .plp =>
    match c.stack with
    | [] => none
    | byte :: rest => some { cpu := { c.cpu with status := .ofByte byte }, stack := rest }
  | .jmp | .bcc | .bcs | .beq | .bmi | .bne | .bpl | .bvc | .bvs => some c
  | .jsr | .rts | .rti | .brk | .tsx | .txs => none
  | .clc | .cld | .cli | .clv | .dex | .dey | .inx | .iny | .nop | .sec | .sed | .sei | .tax | .tay
  | .txa | .tya => some { c with cpu := c.cpu.apply opcode .implied 0 0 }
  | .dec | .inc =>
    -- There is no form of them that works on the accumulator.
    work?.bind fun w =>
      if w.mode = .accumulator then none
      else some { c with cpu := c.cpu.apply opcode w.mode w.address w.byte }
  | .adc | .and | .asl | .bit | .cmp | .cpx | .cpy | .eor | .lda | .ldx | .ldy | .lsr | .ora | .rol
  | .ror | .sbc | .sta | .stx | .sty =>
    work?.map fun w => { c with cpu := c.cpu.apply opcode w.mode w.address w.byte }

end Core

end Lift6502
