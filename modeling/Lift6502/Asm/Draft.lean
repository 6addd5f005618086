import Lift6502.Asm.Image

/-!
# Programs under construction

A label waits for the next line; when another label comes first, the waiting one gets a line of its
own.
-/

namespace Lift6502

structure Draft where
  origin : UInt16
  offset : UInt16 := 0
  waiting : Option String := none
  lines : List Line := []
  deriving DecidableEq, Repr

namespace Draft

def start (origin : UInt16) : Draft := { origin }

def push (d : Draft) (label : Option String) (kind : LineKind) : Draft :=
  let line : Line := { label, offset := d.offset, kind }
  { d with offset := d.offset + line.size, lines := d.lines ++ [line] }

def line (d : Draft) (kind : LineKind) : Draft :=
  { d with waiting := none }.push d.waiting kind

def label (d : Draft) (name : String) : Draft :=
  match d.waiting with
  | none => { d with waiting := some name }
  | some previous => { d with waiting := some name }.push (some previous) .empty

def op (d : Draft) (opcode : Opcode) (operand : Operand) : Draft := d.line (.code ⟨opcode, operand⟩)

def implied (d : Draft) (opcode : Opcode) : Draft := d.op opcode .implied

def immediate (d : Draft) (opcode : Opcode) (value : UInt8) : Draft :=
  d.op opcode (.immediate (.byte value))

def zeroPage (d : Draft) (opcode : Opcode) (address : UInt8) : Draft :=
  d.op opcode (.direct (.address address.toUInt16) .zeroPage)

def absolute (d : Draft) (opcode : Opcode) (address : UInt16) : Draft :=
  d.op opcode (.direct (.address address) .absolute)

def atLabel (d : Draft) (opcode : Opcode) (name : String) : Draft :=
  d.op opcode (.direct (.symbol name) .absolute)

def data (d : Draft) (bytes : List UInt8) : Draft := d.line (.data bytes)

/-- The program; a label still waiting gets an empty line. -/
def program (d : Draft) : Program :=
  match d.waiting with
  | none => { origin := d.origin, lines := d.lines }
  | some name =>
    { origin := d.origin, lines := ({ d with waiting := none }.push (some name) .empty).lines }

end Draft

end Lift6502
