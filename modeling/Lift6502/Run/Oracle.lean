import Lift6502.Asm.Image
import Lift6502.Run.Cpu
import Lift6502.Run.Evaluator

/-!
# Comparing a program with its decompiled code

The runs agree if the registers and all memory outside the stack page agree afterwards.
-/

namespace Lift6502

structure MachineState where
  a : UInt8 := 0
  x : UInt8 := 0
  y : UInt8 := 0
  status : Status := {}
  memory : Memory addressCount
  deriving DecidableEq, Repr

namespace MachineState

def get (s : MachineState) : Register → UInt8
  | .a => s.a
  | .x => s.x
  | .y => s.y

def set (s : MachineState) (r : Register) (byte : UInt8) : MachineState :=
  match r with
  | .a => { s with a := byte }
  | .x => { s with x := byte }
  | .y => { s with y := byte }

def inStackPage (address : Nat) : Bool := 0x100 ≤ address && address < 0x200

/-- What differs between two states: registers, and memory outside the stack page. -/
def differences (s t : MachineState) : List String :=
  let bytes := fun (l r : UInt8) => Text.hex 2 l.toNat ++ " vs " ++ Text.hex 2 r.toNat
  let registers := Register.all.filterMap fun r =>
    if s.get r = t.get r then none else some (r.text ++ ": " ++ bytes (s.get r) (t.get r))
  let memory := (s.memory.differences t.memory).filterMap fun (address, l, r) =>
    if inStackPage address then none
    else some ("mem[" ++ Text.hex 4 address ++ "]: " ++ bytes l r)
  registers ++ memory

end MachineState

inductive OracleError where
  | assembly (e : EncodeError)
  | tooLarge
  | unknownEntry (entry : String)
  | notDecompiled (entry : String)
  | reference (entry : String) (e : CpuError)
  | decompiled (entry : String) (e : EvalError)
  | differs (entry : String) (run seed : Nat) (differences : List String)
  deriving DecidableEq, Repr

def OracleError.messages : OracleError → List String
  | .assembly e => ["cannot assemble program", e.message]
  | .tooLarge => ["program does not fit below 0x10000"]
  | .unknownEntry entry => ["unknown entry label `" ++ entry ++ "`"]
  | .notDecompiled entry => ["`" ++ entry ++ "` was not decompiled"]
  | .reference entry e => ["reference run of " ++ entry, e.message]
  | .decompiled entry e => ["decompiled run of " ++ entry, e.message]
  | .differs entry run seed differences =>
    [entry ++ " differs from the reference on run " ++ toString run ++ " of seed " ++
      toString seed ++ ":\n  " ++ String.intercalate "\n  " (differences.take 8)]

structure Oracle where
  program : Program
  image : List UInt8
  deriving Repr

namespace Oracle

def stepLimit : Nat := 200000

def ofProgram (p : Program) : Except OracleError Oracle := do
  let image ← p.assemble.mapError .assembly
  if addressCount < p.origin.toNat + image.length then .error .tooLarge
  else .ok { program := p, image }

def load (o : Oracle) (memory : Memory addressCount) : Memory addressCount :=
  memory.place o.program.origin.toNat o.image

def runImage (o : Oracle) (entry : String) (s : MachineState) :
    Except OracleError MachineState := do
  match o.program.resolve? (.symbol entry) with
  | none => .error (.unknownEntry entry)
  | some address =>
    let c : Cpu := { a := s.a, x := s.x, y := s.y, status := s.status, memory := s.memory }
    match c.call address stepLimit with
    | (.error e, _) => .error (.reference entry e)
    | (.ok (), c) => .ok { a := c.a, x := c.x, y := c.y, status := c.status, memory := c.memory }

/-- The state after the decompiled code ran. It does not say anything about the status. -/
def runCode (functions : List FunctionDef) (entry : String) (s : MachineState) :
    Except OracleError MachineState := do
  match functions.find? fun f => f.name = entry with
  | none => .error (.notDecompiled entry)
  | some f =>
    let arguments := PerRegister.ofFn fun r => if f.inputs.contains r then some (s.get r) else none
    let evaluator : Evaluator := { functions, limit := stepLimit }
    match evaluator.call entry arguments s.memory with
    | (.error e, _) => .error (.decompiled entry e)
    | (.ok outputs, _, memory) =>
      .ok (outputs.foldl (fun s (r, byte) => s.set r byte) { s with memory })

def compare (o : Oracle) (functions : List FunctionDef) (entry : String) (s : MachineState) :
    Except OracleError (List String) := do
  let expected ← o.runImage entry s
  let actual ← runCode functions entry s
  return expected.differences actual

/-- A word that depends on every bit of its argument. -/
def scramble (word : UInt64) : UInt64 :=
  let word := (word ^^^ (word >>> 30)) * 0xbf58476d1ce4e5b9
  let word := (word ^^^ (word >>> 27)) * 0x94d049bb133111eb
  word ^^^ (word >>> 31)

def arbitraryState (o : Oracle) (seed run : Nat) : MachineState :=
  let start := scramble (UInt64.ofNat seed + scramble (UInt64.ofNat run))
  let byte := fun (i : Nat) => (scramble (start + UInt64.ofNat i * 0x9e3779b97f4a7c15)).toUInt8
  let status := Status.ofByte (byte addressCount)
  { a := byte (addressCount + 1), x := byte (addressCount + 2), y := byte (addressCount + 3)
    status := { status with interrupt := true, decimal := false }
    memory := o.load (Vector.ofFn fun i => byte i.val) }

/-- Compares the runs from several arbitrary states, up to the first that differs. -/
def check (o : Oracle) (functions : List FunctionDef) (entry : String) (seed runs : Nat) :
    Except OracleError Unit :=
  (List.range runs).forM fun run => do
    let differences ← o.compare functions entry (o.arbitraryState seed run)
    if differences.isEmpty then .ok () else .error (.differs entry run seed differences)

end Oracle

end Lift6502
