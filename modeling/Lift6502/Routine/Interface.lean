import Lift6502.Routine.Partition

/-!
# Interfaces of routines

What is written is the least solution of the equations over calls. What is read is register
liveness, which depends on what is handed back; that grows until every caller gets what it reads
after a call.
-/

namespace Lift6502

inductive RegisterStep where
  | plain (reads writes : RegisterSet)
  /-- A call, with what the instruction itself writes. -/
  | call (callee : Nat) (writes : RegisterSet)
  deriving DecidableEq, Repr, Inhabited

inductive Onward where
  | block (b : BlockId)
  /-- Another routine takes over. -/
  | routine (callee : Nat)
  deriving DecidableEq, Repr

/-- What matters of a block for the interface of its routine. -/
structure RegisterBlock where
  id : BlockId
  steps : List RegisterStep
  /-- The caller continues after this block. -/
  returns : Bool
  onward : List Onward
  deriving DecidableEq, Repr

namespace RegisterBlock

/-- A block returns by its last instruction, or if it leads nowhere and does not jump. -/
def leaves (b : Block) : Bool :=
  match b.terminator? with
  | some i => i.opcode.isReturn || (b.successors.isEmpty && i.opcode != .jmp)
  | none => b.successors.isEmpty

def ofBlock (g : Graph) (rs : Routines) (id : BlockId) : RegisterBlock :=
  let block := g.block id
  { id
    steps := block.code.mapIdx fun index i =>
      match (block.callAt? index).bind rs.numberAt? with
      | some callee => .call callee i.effects.writes.registers
      | none => .plain i.effects.reads.registers i.effects.writes.registers
    returns := leaves block
    onward := block.successors.map fun s =>
      match rs.takesOver? id s with
      | some callee => .routine callee
      | none => .block s }

/-- The blocks of a routine that its entry reaches inside it, in order. -/
def ofRoutine (g : Graph) (rs : Routines) (r : Routine) : List RegisterBlock :=
  let reached := reversePostorder g.size (g.successorsIn r.blocks) r.entry
  (BlockSet.ofList reached).toList.map (ofBlock g rs)

def writesThrough (b : RegisterBlock) (clobbers : Nat → RegisterSet) : RegisterSet :=
  let written := b.steps.foldl
    (fun s step =>
      match step with
      | .plain _ writes => s.union writes
      | .call callee writes => (s.union writes).union (clobbers callee))
    (∅ : RegisterSet)
  b.onward.foldl
    (fun s onward =>
      match onward with
      | .routine callee => s.union (clobbers callee)
      | .block _ => s)
    written

end RegisterBlock

/-- What is read before it is written from one instruction on, given what is read after it. -/
def RegisterStep.before (interfaces : Nat → Interface) (step : RegisterStep)
    (after : RegisterSet) : RegisterSet :=
  match step with
  | .plain reads writes => (after.diff writes).union reads
  | .call callee _ => (after.diff (interfaces callee).outputs).union (interfaces callee).inputs

namespace RegisterBlock

def liveOut (b : RegisterBlock) (interfaces : Nat → Interface) (outputs : RegisterSet)
    (live : BlockId → RegisterSet) : RegisterSet :=
  b.onward.foldl
    (fun s onward =>
      match onward with
      | .routine callee => (s.union (interfaces callee).inputs).union outputs
      | .block next => s.union (live next))
    (if b.returns then outputs else ∅)

def liveIn (b : RegisterBlock) (interfaces : Nat → Interface) (outputs : RegisterSet)
    (live : BlockId → RegisterSet) : RegisterSet :=
  b.steps.foldr (RegisterStep.before interfaces) (b.liveOut interfaces outputs live)

def liveAfterCalls (interfaces : Nat → Interface) (after : RegisterSet) :
    List RegisterStep → List (Nat × RegisterSet)
  | [] => []
  | step :: rest =>
    let later := liveAfterCalls interfaces after rest
    match step with
    | .plain .. => later
    | .call callee _ => (callee, rest.foldr (RegisterStep.before interfaces) after) :: later

end RegisterBlock

abbrev LiveMap := List (BlockId × RegisterSet)

def LiveMap.get (m : LiveMap) (b : BlockId) : RegisterSet := (m.lookup b).getD ∅

/-- The least solution of the liveness equations of a routine. -/
def liveness (blocks : List RegisterBlock) (interfaces : Nat → Interface) (outputs : RegisterSet) :
    LiveMap :=
  iterate (fun (m : LiveMap) => blocks.map fun b => (b.id, b.liveIn interfaces outputs m.get))
    (3 * blocks.length + 1) (blocks.map fun b => (b.id, ∅))

/-! ## The interfaces of all routines -/

structure RoutineFlow where
  entry : BlockId
  isRoot : Bool
  blocks : List RegisterBlock
  deriving DecidableEq, Repr

namespace Interface

def number (interfaces : List Interface) (n : Nat) : Interface := interfaces.getD n {}

variable (flows : List RoutineFlow) (interfaces : List Interface)

def clobberRound : List Interface :=
  flows.mapIdx fun n f =>
    let clobbers := f.blocks.foldl
      (fun s b => s.union (b.writesThrough fun callee => (number interfaces callee).clobbers))
      (number interfaces n).clobbers
    { number interfaces n with clobbers }

def inputRound : List Interface :=
  flows.mapIdx fun n f =>
    let live := liveness f.blocks (number interfaces) (number interfaces n).outputs
    { number interfaces n with inputs := live.get f.entry }

/-- What callers read after they called each routine. -/
def wanted : List (Nat × RegisterSet) :=
  (flows.mapIdx fun n f =>
    let outputs := (number interfaces n).outputs
    let live := liveness f.blocks (number interfaces) outputs
    f.blocks.flatMap fun b =>
      RegisterBlock.liveAfterCalls (number interfaces)
          (b.liveOut (number interfaces) outputs live.get) b.steps ++
        b.onward.filterMap fun onward =>
          match onward with
          | .routine callee => some (callee, outputs)
          | .block _ => none).flatten

/-- Hands back what is wanted of what is written; a root hands back everything it writes. -/
def growOutputs : List Interface :=
  let wanted := wanted flows interfaces
  flows.mapIdx fun n f =>
    let own := number interfaces n
    let asked := wanted.foldl (fun s (callee, live) => if callee = n then s.union live else s)
      (∅ : RegisterSet)
    let outputs := if f.isRoot then own.clobbers else own.clobbers.inter asked
    { own with outputs := own.outputs.union outputs }

/-- What is read, from nothing up, for given outputs. -/
def solveInputs : List Interface :=
  iterate (inputRound flows) (3 * flows.length + 1)
    (interfaces.map fun interface => { interface with inputs := ∅ })

/-- What is written, then inputs and outputs in turn until no routine has to hand back more. -/
def solve : List Interface :=
  let clobbers := iterate (clobberRound flows) (3 * flows.length + 1) (flows.map fun _ => {})
  iterate (fun interfaces => solveInputs flows (growOutputs flows interfaces))
    (3 * flows.length + 1) (solveInputs flows clobbers)

def entryFor (name : String) (i : Interface) : Entry :=
  .debug ("[functions] " ++ name ++ " inputs=" ++ i.inputs.journalText ++ " outputs=" ++
    i.outputs.journalText ++ " clobbers=" ++ i.clobbers.journalText)

end Interface

def Routines.ofGraph (g : Graph) (roots : List BlockId) : Routines × Journal :=
  let (rs, journal) := Routines.partition g roots
  let interfaces := Interface.solve <| rs.all.map fun r =>
    { entry := r.entry, isRoot := r.isRoot, blocks := RegisterBlock.ofRoutine g rs r }
  let routines := (rs.all.zip interfaces).map fun (r, interface) => { r with interface }
  ({ all := routines }, journal ++ routines.map fun r => Interface.entryFor r.name r.interface)

end Lift6502
