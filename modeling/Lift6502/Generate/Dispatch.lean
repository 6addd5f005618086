import Lift6502.Flow.Walk
import Lift6502.Generate.Basic

/-!
# Dispatch loops

Between the blocks of a dispatch loop each location travels in one variable. A block starts with
the values of the locations that have one on every path to it.
-/

namespace Lift6502.Generator

open Gen

def definedAfter (c : Generator) (block : Block) (index : Nat) (i : Instruction)
    (before : LocationSet) : LocationSet :=
  if i.opcode = .jsr then
    let kept := before.diff LocationSet.flags
    match (block.callAt? index).bind c.routines.atEntry? with
    | some callee =>
      (kept.diff (LocationSet.ofRegisters (callee.clobbers.diff callee.outputs))).union
        (LocationSet.ofRegisters callee.outputs)
    | none => kept
  else before.union i.effects.writes

def definedAfterBlock (c : Generator) (block : Block) (before : LocationSet) : LocationSet :=
  (block.code.mapIdx fun index i => (index, i)).foldl
    (fun defined (index, i) => c.definedAfter block index i defined) before

/-- One round of the equations: what every way into a block defines. -/
def defineRound (c : Generator) (defined : List (BlockId × LocationSet)) :
    List (BlockId × LocationSet) :=
  defined.map fun (b, _) =>
    let start := if b = c.routine.entry then LocationSet.ofRegisters c.routine.inputs
      else LocationSet.full
    let ways := (c.graph.predecessors b).toList.filterMap fun p =>
      (defined.lookup p).map (c.definedAfterBlock (c.graph.block p))
    (b, ways.foldl LocationSet.inter start)

/-- The locations with a value on every path to each block: the greatest solution. -/
def certainlySet (c : Generator) : List (BlockId × LocationSet) :=
  let blocks := c.routine.blocks.toList
  iterate c.defineRound (7 * blocks.length + 1) (blocks.map fun b => (b, LocationSet.full))

def settleFor (c : Generator) (target : BlockId) (s : SymbolicState) : Gen Unit := do
  let name := c.graph.name target
  match c.dispatch with
  | none => throw (.unsupported name "jump into a structured function")
  | some plan =>
    if s.depth ≠ 0 then throw (.stackMismatch name 0 s.depth)
    else
      let defined := (plan.defined.lookup target).getD ∅
      let values ← defined.toList.mapM fun l => return (plan.carriers.get l, ← read s l name)
      assignAtOnce (values.filter fun (v, value) => value != .var v)
      emit (.assign .dispatch (.literal (UInt32.ofNat target)))

def stateAtArm (c : Generator) (plan : DispatchPlan) (b : BlockId) : SymbolicState :=
  let defined := (plan.defined.lookup b).getD ∅
  { bindings := .ofFn fun l =>
      if l ∈ defined then .ofVariable (plan.carriers.get l)
      else .unresolved ("not set on every path into " ++ c.graph.name b) }

def carryAll : Gen (PerLocation Variable) :=
  Location.all.foldlM (fun carriers l => return carriers.set l (← newMerge l))
    (.ofFn fun _ => .dispatch)

end Lift6502.Generator
