import Lift6502.Asm.Program

/-!
# Encoding and assembling

Each instruction is encoded at its own offset; the image is every line's bytes at its offset, with
zeros between.
-/

namespace Lift6502

inductive EncodeError where
  | unencodable (instruction : Instruction)
  | branchOutOfRange (instruction : Instruction)
  deriving DecidableEq, Repr

def EncodeError.message : EncodeError → String
  | .unencodable i => "instruction `" ++ i.text ++ "` cannot be encoded"
  | .branchOutOfRange i => "branch `" ++ i.text ++ "` is out of range"

def littleEndian (value : UInt16) : List UInt8 := [value.toUInt8, (value >>> 8).toUInt8]

namespace Program

/-- The distance byte of a branch at `offset`, counted from the instruction after it; it has to
fit in a signed byte. -/
def displacement? (p : Program) (offset destination : UInt16) : Option UInt8 :=
  let distance := destination - (p.addressOf offset + 2)
  if distance ≤ 0x7f || 0xff80 ≤ distance then some distance.toUInt8 else none

def operandBytes (p : Program) (i : Instruction) (mode : AddressingMode) (offset : UInt16) :
    Except EncodeError (List UInt8) :=
  match i.operand, mode with
  | .immediate value, _ =>
    match p.immediateByte? value with
    | some byte => .ok [byte]
    | none => .error (.unencodable i)
  | operand, mode =>
    match operand.target? with
    | none => .ok []
    | some target =>
      match p.resolve? target with
      | none => .error (.unencodable i)
      | some address =>
        match mode with
        | .relative =>
          match p.displacement? offset address with
          | some byte => .ok [byte]
          | none => .error (.branchOutOfRange i)
        | mode => .ok ((littleEndian address).take (mode.size - 1))

def encode (p : Program) (i : Instruction) (offset : UInt16) : Except EncodeError (List UInt8) :=
  match i.mode? with
  | none => .error (.unencodable i)
  | some mode =>
    match i.opcode.encode? mode with
    | none => .error (.unencodable i)
    | some byte => (p.operandBytes i mode offset).map (byte :: ·)

def lineBytes (p : Program) (line : Line) : Except EncodeError (List UInt8) :=
  match line.kind with
  | .code i => p.encode i line.offset
  | .data bytes => .ok bytes
  | .empty | .constant .. => .ok []

/-- Writes bytes into an image, which grows with zeros as far as it has to. -/
def place (image : List UInt8) (start : Nat) (bytes : List UInt8) : List UInt8 :=
  image.take start ++ List.replicate (start - image.length) 0 ++ bytes ++
    image.drop (start + bytes.length)

/-- An empty or constant line leaves the image alone; every other line reaches at least
to its offset. -/
def placeLine (p : Program) (image : List UInt8) (line : Line) : Except EncodeError (List UInt8) :=
  match line.kind with
  | .empty | .constant .. => .ok image
  | _ => (p.lineBytes line).map (place image line.offset.toNat)

/-- The whole image, from the origin on. A line overwrites what earlier ones left at its offset. -/
def assemble (p : Program) : Except EncodeError (List UInt8) :=
  p.lines.foldlM p.placeLine []

end Program

end Lift6502
