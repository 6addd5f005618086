import Lift6502.Asm.Image
import Lift6502.Journal
import Lift6502.Listing.Error
import Lift6502.Listing.Scan

/-!
# Reading a listing

Constants are collected first, so that the width of every operand, and with it every offset, is
known when its line is read. The words of a `.dw` are filled in at the end.
-/

namespace Lift6502.Listing

open Text

abbrev Constants := List (String × UInt16)

def name (cs : List Char) : String := String.ofList cs

def number (digits : List Char) : Except ListingFault Nat :=
  let value := numeralValue digits
  if value < 0x8000000000000000 then .ok value else .error (.unreadable (name digits))

def word (value : Int) : Except ListingFault UInt16 :=
  if 0 ≤ value && value < 0x10000 then .ok (UInt16.ofInt value) else .error (.outOfRange value)

def byte (value : UInt16) : Except ListingFault UInt8 :=
  if value ≤ 0xff then .ok value.toUInt8 else .error (.outOfRange value.toNat)

def reference : Base → Except ListingFault Reference
  | .numeral digits => do return .address (← word (← number digits))
  | .symbol cs => .ok (.symbol (name cs))

def distance : Option (Bool × List Char) → Except ListingFault Int32
  | none => .ok 0
  | some (negative, digits) => do
    let magnitude : Int ← number digits
    let value := if negative then -magnitude else magnitude
    if -0x80000000 ≤ value && value < 0x80000000 then .ok (Int32.ofInt value)
    else .error (.outOfRange value)

def target (text : List Char) : Except ListingFault Target :=
  match sum? (trim text) with
  | none => .error (.badOperand (name text))
  | some sum => do
    let base ← reference sum.base
    let offset ← distance sum.offset
    return { base, offset }

section

variable (constants : Constants)

/-- The value of a target that names no label, if its base is known. -/
def knownValue? (t : Target) : Option Int :=
  let base := match t.base with
    | .address value => some value
    | .symbol symbol => constants.lookup symbol
  base.map fun value => value.toNat + t.offset.toInt

def value (text : List Char) : Except ListingFault UInt16 := do
  let t ← target text
  match knownValue? constants t, t.base with
  | some known, _ => word known
  | none, .symbol symbol => .error (.unknownSymbol symbol)
  | none, .address _ => .error (.badOperand (name text))

/-- Page zero when the address is known already and lies there. Labels are always absolute. -/
def width (t : Target) : Width :=
  match knownValue? constants t with
  | some known => if 0 ≤ known && known ≤ 0xff then .zeroPage else .absolute
  | none => .absolute

def immediate (text : List Char) : Except ListingFault Immediate :=
  match text with
  | '<' :: low => do return .low (← target low)
  | '>' :: high => do return .high (← target high)
  | text => do return .byte (← byte (← value constants text))

def unbracketed (text : List Char) : Except ListingFault Operand :=
  match indexed? text with
  | some (inner, isX) => do
    let t ← target inner
    return .indexed t (if isX then .x else .y) (width constants t)
  | none => do
    let t ← target text
    return .direct t (width constants t)

def addressed (text : List Char) : Except ListingFault Operand :=
  match indexedIndirect? text with
  | some inner => do return .indexedIndirect (← target inner)
  | none =>
  match indirectIndexed? text with
  | some inner => do return .indirectIndexed (← target inner)
  | none =>
  match indirect? text with
  | some inner => do return .indirect (← target inner)
  | none => unbracketed constants text

def operand (text : List Char) : Except ListingFault Operand :=
  match text with
  | [] => .ok .implied
  | ['a'] | ['A'] => .ok .accumulator
  | '#' :: rest => do return .immediate (← immediate constants (trim rest))
  | text => addressed constants text

end

structure PendingWord where
  sourceLine : Nat
  line : Nat
  position : Nat
  target : Target

structure Reader where
  constants : Constants
  origin : Option UInt16 := none
  offset : UInt16 := 0
  labels : List String := []
  lines : Array Line := #[]
  words : Array PendingWord := #[]

namespace Reader

def push (r : Reader) (label : Option String) (kind : LineKind) : Reader :=
  let line : Line := { label, offset := r.offset, kind }
  { r with offset := r.offset + line.size, lines := r.lines.push line }

/-- The first origin before any byte places the program; a later one pads up to its address. -/
def setOrigin (r : Reader) (origin : UInt16) : Except ListingFault Reader :=
  if r.origin.isNone && r.offset = 0 then .ok { r with origin := some origin }
  else
    let current := r.origin.getD 0 + r.offset
    if origin < current then .error (.originBehind origin)
    else if origin = current then .ok r
    else .ok (r.push none (.data (List.replicate (origin - current).toNat 0)))

/-- The items of a comma-separated list; empty ones are skipped. -/
def items (arguments : List Char) : List (List Char) :=
  ((fields ',' arguments).map trim).filter (!·.isEmpty)

def directive (r : Reader) (number : Nat) (label : Option String)
    (directive arguments : List Char) : Except ListingFault Reader :=
  let lower := name (directive.map Char.toLower)
  if lower = "org" then do
    let r ← r.setOrigin (← value r.constants arguments)
    return if label.isSome then r.push label .empty else r
  else if lower = "db" || lower = "byte" then do
    let bytes ← (items arguments).mapM fun item => do byte (← value r.constants item)
    return r.push label (.data bytes)
  else if lower = "dw" || lower = "word" then do
    let targets ← (items arguments).mapM target
    let words := targets.mapIdx fun i t =>
      { sourceLine := number, line := r.lines.size, position := 2 * i, target := t : PendingWord }
    return { r with words := r.words ++ words }.push label
      (.data (List.replicate (2 * targets.length) 0))
  else .error (.unknownDirective (name directive))

def instruction (r : Reader) (label : Option String) (text : List Char) :
    Except ListingFault Reader :=
  match instruction? text with
  | none => .error (.unreadable (name text))
  | some (mnemonic, rest) =>
    match Opcode.ofMnemonic? (name mnemonic) with
    | none => .error (.unknownMnemonic (name mnemonic))
    | some opcode => do
      let i : Instruction := ⟨opcode, ← operand r.constants rest⟩
      if i.size?.isNone then .error (.unencodable (name text))
      else return r.push label (.code i)

def body (r : Reader) (number : Nat) (label : Option String) (text : List Char) :
    Except ListingFault Reader :=
  if text.isEmpty then .ok (r.push label .empty)
  else match directive? text with
    | some (directive, arguments) => r.directive number label directive arguments
    | none => r.instruction label text

def line (r : Reader) (number : Nat) (text : List Char) : Except ListingFault Reader :=
  if text.isEmpty then .ok r
  else match constant? text with
    | some (constant, _) =>
      .ok (r.push none (.constant (name constant) ((r.constants.lookup (name constant)).getD 0)))
    | none =>
      match label? text with
      | none => r.body number none text
      | some (label, rest) =>
        let label := name label
        if r.labels.contains label then .error (.duplicateLabel label)
        else { r with labels := label :: r.labels }.body number (some label) rest

def fill (p : Program) (w : PendingWord) : Except ListingError Program :=
  match p.resolve? w.target with
  | none => .error ⟨w.sourceLine, .unknownSymbol w.target.text⟩
  | some value =>
    let p := (p.patch? w.line w.position value.toUInt8).getD p
    .ok ((p.patch? w.line (w.position + 1) (value >>> 8).toUInt8).getD p)

def finish (r : Reader) : Except ListingError Program :=
  r.words.toList.foldlM fill { origin := r.origin.getD 0, lines := r.lines.toList }

end Reader

def numbered (source : List Char) : List (Nat × List Char) :=
  (lines source).mapIdx fun i line => (i + 1, withoutComment line)

def atLine {α : Type} (number : Nat) (result : Except ListingFault α) : Except ListingError α :=
  result.mapError fun fault => ⟨number, fault⟩

def collect (constants : Constants) (line : Nat × List Char) : Except ListingError Constants :=
  match constant? line.2 with
  | none => .ok constants
  | some (constant, text) => do
    let known ← atLine line.1 (value constants text)
    return (name constant, known) :: constants

/-- The constants of a listing. Each may use those defined above it. -/
def definedConstants (lines : List (Nat × List Char)) : Except ListingError Constants :=
  lines.foldlM collect []

def readLines (constants : Constants) (lines : List (Nat × List Char)) :
    Except ListingError Reader :=
  lines.foldlM (fun r line => atLine line.1 (r.line line.1 line.2)) { constants }

def read (source : String) : Except ListingError Program := do
  let lines := numbered source.toList
  let reader ← readLines (← definedConstants lines) lines
  reader.finish

end Lift6502.Listing

namespace Lift6502

namespace Program

def endOffset (p : Program) : UInt16 :=
  match p.lines.getLast? with
  | some line => line.offset + line.size
  | none => 0

def listingEntry (p : Program) : Entry :=
  .debug ("[listing] " ++ toString p.lines.length ++ " lines at origin " ++
    Text.hex 4 p.origin.toNat ++ ", " ++ toString p.endOffset.toNat ++ " bytes")

end Program

end Lift6502
