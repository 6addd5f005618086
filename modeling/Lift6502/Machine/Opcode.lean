import Lift6502.Machine.Location

/-!
# Instruction mnemonics

The 56 official mnemonics, their names, and how each one moves control.
-/

namespace Lift6502

inductive Opcode where
  | adc | and | asl | bcc | bcs | beq | bit | bmi
  | bne | bpl | brk | bvc | bvs | clc | cld | cli
  | clv | cmp | cpx | cpy | dec | dex | dey | eor
  | inc | inx | iny | jmp | jsr | lda | ldx | ldy
  | lsr | nop | ora | pha | php | pla | plp | rol
  | ror | rti | rts | sbc | sec | sed | sei | sta
  | stx | sty | tax | tay | tsx | txa | txs | tya
  deriving DecidableEq, Repr, Inhabited

namespace Opcode

def all : List Opcode :=
  [.adc, .and, .asl, .bcc, .bcs, .beq, .bit, .bmi,
   .bne, .bpl, .brk, .bvc, .bvs, .clc, .cld, .cli,
   .clv, .cmp, .cpx, .cpy, .dec, .dex, .dey, .eor,
   .inc, .inx, .iny, .jmp, .jsr, .lda, .ldx, .ldy,
   .lsr, .nop, .ora, .pha, .php, .pla, .plp, .rol,
   .ror, .rti, .rts, .sbc, .sec, .sed, .sei, .sta,
   .stx, .sty, .tax, .tay, .tsx, .txa, .txs, .tya]

def mnemonic : Opcode → String
  | .adc => "adc"
  | .and => "and"
  | .asl => "asl"
  | .bcc => "bcc"
  | .bcs => "bcs"
  | .beq => "beq"
  | .bit => "bit"
  | .bmi => "bmi"
  | .bne => "bne"
  | .bpl => "bpl"
  | .brk => "brk"
  | .bvc => "bvc"
  | .bvs => "bvs"
  | .clc => "clc"
  | .cld => "cld"
  | .cli => "cli"
  | .clv => "clv"
  | .cmp => "cmp"
  | .cpx => "cpx"
  | .cpy => "cpy"
  | .dec => "dec"
  | .dex => "dex"
  | .dey => "dey"
  | .eor => "eor"
  | .inc => "inc"
  | .inx => "inx"
  | .iny => "iny"
  | .jmp => "jmp"
  | .jsr => "jsr"
  | .lda => "lda"
  | .ldx => "ldx"
  | .ldy => "ldy"
  | .lsr => "lsr"
  | .nop => "nop"
  | .ora => "ora"
  | .pha => "pha"
  | .php => "php"
  | .pla => "pla"
  | .plp => "plp"
  | .rol => "rol"
  | .ror => "ror"
  | .rti => "rti"
  | .rts => "rts"
  | .sbc => "sbc"
  | .sec => "sec"
  | .sed => "sed"
  | .sei => "sei"
  | .sta => "sta"
  | .stx => "stx"
  | .sty => "sty"
  | .tax => "tax"
  | .tay => "tay"
  | .tsx => "tsx"
  | .txa => "txa"
  | .txs => "txs"
  | .tya => "tya"

def text (o : Opcode) : String := String.ofList (o.mnemonic.toList.map Char.toUpper)

/-- Look-up that ignores the case of ASCII letters. -/
def ofMnemonic? (name : String) : Option Opcode :=
  let lower := String.ofList (name.toList.map Char.toLower)
  all.find? fun o => o.mnemonic == lower

/-- The flag a branch tests, and the value of it that makes the branch go. -/
def branchCondition? : Opcode → Option (Flag × Bool)
  | .bcc => some (.carry, false)
  | .bcs => some (.carry, true)
  | .bne => some (.zero, false)
  | .beq => some (.zero, true)
  | .bpl => some (.negative, false)
  | .bmi => some (.negative, true)
  | .bvc => some (.overflow, false)
  | .bvs => some (.overflow, true)
  | _ => none

def isConditionalBranch (o : Opcode) : Bool := o.branchCondition?.isSome

def isReturn : Opcode → Bool
  | .rts | .rti => true
  | _ => false

def isControlTransfer (o : Opcode) : Bool := o.isConditionalBranch || o.isReturn || o == .jmp

/-- Control never goes on to the next instruction. -/
def isUnconditionalTransfer (o : Opcode) : Bool := o.isReturn || o == .jmp

end Opcode

end Lift6502
