import Lift6502.Machine.Opcode

/-!
# Addressing modes and the encoding table

One table serves both directions: `encode?` looks for a mnemonic in a mode, `decode?` for a byte.
-/

namespace Lift6502

inductive AddressingMode where
  | implied
  | accumulator
  | immediate
  | zeroPage
  | zeroPageX
  | zeroPageY
  | absolute
  | absoluteX
  | absoluteY
  | indirect
  | indexedIndirect
  | indirectIndexed
  | relative
  deriving DecidableEq, Repr

namespace AddressingMode

def all : List AddressingMode :=
  [.implied, .accumulator, .immediate, .zeroPage, .zeroPageX, .zeroPageY, .absolute, .absoluteX,
   .absoluteY, .indirect, .indexedIndirect, .indirectIndexed, .relative]

def size : AddressingMode → Nat
  | .implied | .accumulator => 1
  | .immediate | .zeroPage | .zeroPageX | .zeroPageY => 2
  | .indexedIndirect | .indirectIndexed | .relative => 2
  | .absolute | .absoluteX | .absoluteY | .indirect => 3

end AddressingMode

/-- The official encodings of each mode: opcode byte and mnemonic. -/
def encodingsIn : AddressingMode → List (UInt8 × Opcode)
  | .implied =>
    [(0x00, .brk), (0x18, .clc), (0xD8, .cld), (0x58, .cli), (0xB8, .clv), (0xCA, .dex),
     (0x88, .dey), (0xE8, .inx), (0xC8, .iny), (0xEA, .nop), (0x48, .pha), (0x08, .php),
     (0x68, .pla), (0x28, .plp), (0x40, .rti), (0x60, .rts), (0x38, .sec), (0xF8, .sed),
     (0x78, .sei), (0xAA, .tax), (0xA8, .tay), (0xBA, .tsx), (0x8A, .txa), (0x9A, .txs),
     (0x98, .tya)]
  | .accumulator => [(0x0A, .asl), (0x4A, .lsr), (0x2A, .rol), (0x6A, .ror)]
  | .immediate =>
    [(0x69, .adc), (0x29, .and), (0xC9, .cmp), (0xE0, .cpx), (0xC0, .cpy), (0x49, .eor),
     (0xA9, .lda), (0xA2, .ldx), (0xA0, .ldy), (0x09, .ora), (0xE9, .sbc)]
  | .zeroPage =>
    [(0x65, .adc), (0x25, .and), (0x06, .asl), (0x24, .bit), (0xC5, .cmp), (0xE4, .cpx),
     (0xC4, .cpy), (0xC6, .dec), (0x45, .eor), (0xE6, .inc), (0xA5, .lda), (0xA6, .ldx),
     (0xA4, .ldy), (0x46, .lsr), (0x05, .ora), (0x26, .rol), (0x66, .ror), (0xE5, .sbc),
     (0x85, .sta), (0x86, .stx), (0x84, .sty)]
  | .zeroPageX =>
    [(0x75, .adc), (0x35, .and), (0x16, .asl), (0xD5, .cmp), (0xD6, .dec), (0x55, .eor),
     (0xF6, .inc), (0xB5, .lda), (0xB4, .ldy), (0x56, .lsr), (0x15, .ora), (0x36, .rol),
     (0x76, .ror), (0xF5, .sbc), (0x95, .sta), (0x94, .sty)]
  | .zeroPageY => [(0xB6, .ldx), (0x96, .stx)]
  | .absolute =>
    [(0x6D, .adc), (0x2D, .and), (0x0E, .asl), (0x2C, .bit), (0xCD, .cmp), (0xEC, .cpx),
     (0xCC, .cpy), (0xCE, .dec), (0x4D, .eor), (0xEE, .inc), (0x4C, .jmp), (0x20, .jsr),
     (0xAD, .lda), (0xAE, .ldx), (0xAC, .ldy), (0x4E, .lsr), (0x0D, .ora), (0x2E, .rol),
     (0x6E, .ror), (0xED, .sbc), (0x8D, .sta), (0x8E, .stx), (0x8C, .sty)]
  | .absoluteX =>
    [(0x7D, .adc), (0x3D, .and), (0x1E, .asl), (0xDD, .cmp), (0xDE, .dec), (0x5D, .eor),
     (0xFE, .inc), (0xBD, .lda), (0xBC, .ldy), (0x5E, .lsr), (0x1D, .ora), (0x3E, .rol),
     (0x7E, .ror), (0xFD, .sbc), (0x9D, .sta)]
  | .absoluteY =>
    [(0x79, .adc), (0x39, .and), (0xD9, .cmp), (0x59, .eor), (0xB9, .lda), (0xBE, .ldx),
     (0x19, .ora), (0xF9, .sbc), (0x99, .sta)]
  | .indirect => [(0x6C, .jmp)]
  | .indexedIndirect =>
    [(0x61, .adc), (0x21, .and), (0xC1, .cmp), (0x41, .eor), (0xA1, .lda), (0x01, .ora),
     (0xE1, .sbc), (0x81, .sta)]
  | .indirectIndexed =>
    [(0x71, .adc), (0x31, .and), (0xD1, .cmp), (0x51, .eor), (0xB1, .lda), (0x11, .ora),
     (0xF1, .sbc), (0x91, .sta)]
  | .relative =>
    [(0x90, .bcc), (0xB0, .bcs), (0xF0, .beq), (0x30, .bmi), (0xD0, .bne), (0x10, .bpl),
     (0x50, .bvc), (0x70, .bvs)]

def encodings : List (UInt8 × Opcode × AddressingMode) :=
  AddressingMode.all.flatMap fun mode => (encodingsIn mode).map fun e => (e.1, e.2, mode)

namespace Opcode

def encode? (o : Opcode) (mode : AddressingMode) : Option UInt8 :=
  (encodings.find? fun e => e.2.1 == o && e.2.2 == mode).map (·.1)

def decode? (byte : UInt8) : Option (Opcode × AddressingMode) :=
  (encodings.find? fun e => e.1 == byte).map (·.2)

def supports (o : Opcode) (mode : AddressingMode) : Bool := (o.encode? mode).isSome

end Opcode

end Lift6502
