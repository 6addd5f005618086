import Lift6502.Asm.Operand
import Lift6502.Machine.Encoding

/-!
# Instructions

A mnemonic with its operand, the mode it is encoded in, and the registers and flags it touches.
-/

namespace Lift6502

structure Instruction where
  opcode : Opcode
  operand : Operand
  deriving DecidableEq, Repr, Inhabited

/-- The registers and flags an instruction reads and writes. A subroutine call reports only the
flags, which it leaves undefined: the registers depend on the subroutine. -/
structure Effects where
  reads : LocationSet := ∅
  writes : LocationSet := ∅
  deriving DecidableEq, Repr

namespace Instruction

def firstMode (o : Opcode) (modes : List AddressingMode) : Option AddressingMode :=
  modes.find? o.supports

/-- The mode of the encoding. A page-zero form that the opcode lacks becomes the absolute one;
a shift without an operand works on the accumulator; branches are relative. -/
def mode? (i : Instruction) : Option AddressingMode :=
  match i.operand with
  | .implied => firstMode i.opcode [.accumulator, .implied]
  | .accumulator => firstMode i.opcode [.accumulator]
  | .immediate _ => firstMode i.opcode [.immediate]
  | .direct _ width =>
    if i.opcode.isConditionalBranch then some .relative
    else match width with
      | .zeroPage => firstMode i.opcode [.zeroPage, .absolute]
      | .absolute => firstMode i.opcode [.absolute]
  | .indexed _ .x .zeroPage => firstMode i.opcode [.zeroPageX, .absoluteX]
  | .indexed _ .y .zeroPage => firstMode i.opcode [.zeroPageY, .absoluteY]
  | .indexed _ .x .absolute => firstMode i.opcode [.absoluteX]
  | .indexed _ .y .absolute => firstMode i.opcode [.absoluteY]
  | .indirect _ => firstMode i.opcode [.indirect]
  | .indexedIndirect _ => firstMode i.opcode [.indexedIndirect]
  | .indirectIndexed _ => firstMode i.opcode [.indirectIndexed]

def size? (i : Instruction) : Option Nat := i.mode?.map AddressingMode.size

def jumpTarget? (i : Instruction) : Option Target :=
  match i.operand with
  | .direct t _ =>
    if i.opcode.isConditionalBranch || i.opcode == .jmp || i.opcode == .jsr then some t else none
  | _ => none

/-- Touches nothing but registers and flags, so that it can run again inside a loop test. -/
def worksOnRegisters (i : Instruction) : Bool :=
  i.opcode.isConditionalBranch ||
    (!i.operand.usesMemory &&
      !([.jsr, .jmp, .pha, .pla, .php, .plp, .brk, .rts, .rti, .tsx, .txs] : List Opcode).contains
        i.opcode)

def opcodeEffects (onAccumulator : Bool) : Opcode → List Location × List Location
  | .adc | .sbc => ([.a, .c], [.a, .z, .n, .c, .v])
  | .and | .ora | .eor => ([.a], [.a, .z, .n])
  | .asl | .lsr => if onAccumulator then ([.a], [.a, .z, .n, .c]) else ([], [.z, .n, .c])
  | .rol | .ror => if onAccumulator then ([.a, .c], [.a, .z, .n, .c]) else ([.c], [.z, .n, .c])
  | .bit => ([.a], [.z, .n, .v])
  | .bcc | .bcs => ([.c], [])
  | .beq | .bne => ([.z], [])
  | .bmi | .bpl => ([.n], [])
  | .bvc | .bvs => ([.v], [])
  | .clc | .sec => ([], [.c])
  | .clv => ([], [.v])
  | .cmp => ([.a], [.z, .n, .c])
  | .cpx => ([.x], [.z, .n, .c])
  | .cpy => ([.y], [.z, .n, .c])
  | .dec | .inc => ([], [.z, .n])
  | .dex | .inx => ([.x], [.x, .z, .n])
  | .dey | .iny => ([.y], [.y, .z, .n])
  | .jsr => ([], Location.flags)
  | .lda => ([], [.a, .z, .n])
  | .ldx => ([], [.x, .z, .n])
  | .ldy => ([], [.y, .z, .n])
  | .pha => ([.a], [])
  | .php => (Location.flags, [])
  | .pla => ([], [.a, .z, .n])
  | .plp => ([], Location.flags)
  | .sta => ([.a], [])
  | .stx => ([.x], [])
  | .sty => ([.y], [])
  | .tax => ([.a], [.x, .z, .n])
  | .tay => ([.a], [.y, .z, .n])
  | .txa => ([.x], [.a, .z, .n])
  | .tya => ([.y], [.a, .z, .n])
  | .tsx => ([], [.x, .z, .n])
  | .txs => ([.x], [])
  | .brk | .cld | .cli | .jmp | .nop | .rti | .rts | .sed | .sei => ([], [])

def effects (i : Instruction) : Effects :=
  let (reads, writes) := opcodeEffects (!i.operand.usesMemory) i.opcode
  { reads := .ofList ((i.operand.index?.map Location.register).toList ++ reads)
    writes := .ofList writes }

def text (i : Instruction) : String :=
  match i.operand with
  | .implied => i.opcode.text
  | operand => i.opcode.text ++ " " ++ operand.text

end Instruction

end Lift6502
