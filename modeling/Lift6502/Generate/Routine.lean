import Lift6502.Generate.Dispatch
import Lift6502.Generate.Loop
import Lift6502.Tree.Structure

/-!
# Code for a routine
-/

namespace Lift6502.Generator

open Gen

/-- Control goes to another routine, whose results are then returned. -/
def handOver (c : Generator) (target : BlockId) (s : SymbolicState) : Gen Unit := do
  let name := c.graph.name target
  match c.routines.atEntry? target with
  | none => throw (.unresolvedTarget name ("jump to " ++ name))
  | some callee =>
    let s ← call callee s name
    c.ret s name

/-- Control leaves the tree for a block: the next one of a dispatch loop, or another routine. -/
def goto (c : Generator) (target : BlockId) (s : SymbolicState) : Gen (Option SymbolicState) :=
  if c.routine.blocks.contains target then do
    c.settleFor target s
    emit (.continueLoop (some dispatchLabel))
    return none
  else do
    c.handOver target s
    return none

mutual

/-- The code of a node. Gives the state with which control goes on after it. -/
def node (c : Generator) : ControlNode → SymbolicState → Gen (Option SymbolicState)
  | .block b, s => c.block b s
  | .cond condition thenBranch elseBranch join, s =>
    c.conditional condition (c.nodes thenBranch) (c.nodes elseBranch) join s
  | .loop kind header condition body label _, s =>
    c.loop
      { kind, header, name := c.graph.name header, condition, label
        modified := c.modifiedBy header body, body := c.nodes body } s
  | .goto b, s => c.goto b s
  | .breakLoop label, s => c.leaveLoop label s
  | .continueLoop label, s => c.resumeLoop label s

def nodes (c : Generator) : List ControlNode → SymbolicState → Gen (Option SymbolicState)
  | [], s => return some s
  | n :: rest, s => do
    match ← c.node n s with
    | some s => c.nodes rest s
    | none => return none

end

def dispatchArm (c : Generator) (plan : DispatchPlan) (entry : SymbolicState) :
    ControlNode → Gen (List Statement)
  | .cond (.dispatch b) thenBranch _ _ => do
    let (flow, body) ← capture (c.nodes thenBranch (c.stateAtArm plan b))
    match flow with
    | some _ => throw (.unsupported (c.graph.name b) "block without successor in dispatch loop")
    | none => return [.cond (← c.condition (.dispatch b) entry) body []]
  | _ => return []

def dispatchLoop (c : Generator) (t : ControlTree) (entry : SymbolicState) : Gen Unit := do
  match t.nodes with
  | [.loop _ _ _ arms _ _] =>
    let plan : DispatchPlan := { carriers := ← carryAll, defined := c.certainlySet }
    let c := { c with dispatch := some plan }
    c.settleFor c.routine.entry entry
    let body ← arms.mapM (c.dispatchArm plan entry)
    emit (.loop .forever (some dispatchLabel) body.flatten)
  | _ => throw (.unsupported (c.graph.name c.routine.entry) "dispatch lowering")

def structuredBody (c : Generator) (t : ControlTree) (entry : SymbolicState) : Gen Unit := do
  match ← c.nodes t.nodes entry with
  | some s => c.ret s c.routine.name
  | none => return ()

def body (c : Generator) (t : ControlTree) : Gen Unit := do
  let entry := SymbolicState.entry c.routine.inputs
  (if t.structured then c.structuredBody t entry else c.dispatchLoop t entry : Gen Unit)
  let p ← get
  note (.debug ("[codegen] " ++ c.routine.name ++ ": " ++ toString p.temps ++ " temporaries, " ++
    toString p.merges ++ " merge variables"))

def generate (c : Generator) (t : ControlTree) : Except GenerationError FunctionDef × Journal :=
  match (c.body t).run.run {} with
  | (.ok (), p) =>
    (.ok { name := c.routine.name, inputs := c.routine.inputs.toList
           outputs := c.routine.outputs.toList, body := p.out.toList, structured := t.structured },
     p.journal)
  | (.error e, p) => (.error e, p.journal)

end Lift6502.Generator
