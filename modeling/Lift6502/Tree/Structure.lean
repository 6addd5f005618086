import Lift6502.Routine.Basic
import Lift6502.Tree.Search
import Lift6502.Tree.Node

/-!
# Arranging a routine as a tree

Blocks are placed one after the other along the exits, each once: a routine that would need a block
twice becomes a dispatch loop, like one with an edge back into the middle of a loop.
-/

namespace Lift6502

/-- The label of the loop around a whole routine. -/
def dispatchLabel : String := "dispatch"

def dispatchExit (g : Graph) (b : BlockId) : List ControlNode :=
  let block := g.block b
  match block.branch, block.fallThrough with
  | some taken, some fall =>
    if taken ≠ fall ∧ block.isConditional then
      [.cond (.branch b true) [.goto taken] [.goto fall] none]
    else [.goto fall]
  | _, _ => (block.successors.head?.map ControlNode.goto).toList

def ControlTree.dispatch (g : Graph) (entry : BlockId) (d : Dominators) : ControlTree where
  nodes :=
    let arms := d.order.map fun b =>
      ControlNode.cond (.dispatch b) (.block b :: dispatchExit g b) [] none
    [.loop .infinite entry none arms (some dispatchLabel) none]
  structured := false

/-- A routine to be arranged, with what is known about it. -/
structure Layout where
  graph : Graph
  routine : Routine
  dominators : Dominators
  loops : LoopForest
  deriving Repr

structure LoopScope where
  header : BlockId
  follow : Option BlockId
  body : BlockSet
  label : String
  deriving DecidableEq, Repr, Inhabited

/-- The current position: the loops around it and the blocks where the constructs around it go on,
both innermost first. -/
structure Scope where
  enclosing : List LoopScope := []
  stops : List BlockId := []
  deriving DecidableEq, Repr

/-- Without the places where enclosing conditionals go on. -/
def Scope.unstopped (s : Scope) : Scope := { s with stops := [] }

inductive EdgeView where
  | onward
  /-- An enclosing construct goes on at the target. -/
  | stop
  /-- The edge leaves the innermost loop, but not to where control goes after the loop. -/
  | exit
  | jump (node : ControlNode)
  deriving Repr

namespace EdgeView

def isOnward : EdgeView → Bool
  | .onward => true
  | _ => false

def leaves : EdgeView → Bool
  | .exit | .jump _ => true
  | .onward | .stop => false

end EdgeView

inductive Unstructured where
  | placedTwice (name : String)
  | tooDeep
  deriving DecidableEq, Repr

def Unstructured.message : Unstructured → String
  | .placedTwice name => "block " ++ name ++ " would be emitted twice"
  | .tooDeep => "nested too deeply"

structure Arrangement where
  placed : BlockSet := ∅
  /-- The headers of the loops that a labelled jump names. -/
  labelled : BlockSet := ∅
  /-- The edges looked at: the position, and the block that the edge leads to. -/
  viewed : List (Scope × BlockId) := []
  journal : Journal := []
  deriving Repr

abbrev Arranging := ExceptT Unstructured (StateM Arrangement)

namespace Layout

def note (message : String) : Arranging Unit :=
  modify fun s => { s with journal := s.journal ++ [.debug ("[reconstruct] " ++ message)] }

def place (l : Layout) (b : BlockId) : Arranging Unit := do
  if (← get).placed.contains b then throw (.placedTwice (l.graph.name b))
  modify fun s => { s with placed := s.placed.insert b }

/-- The jump to a block that an enclosing loop repeats or continues at, with the header of the loop.
A loop that is not the innermost one is named by its label. -/
def jumpTo? (target : BlockId) (outer : Bool) : List LoopScope → Option (ControlNode × BlockId)
  | [] => none
  | s :: rest =>
    let label := if outer then some s.label else none
    if s.header = target then some (.continueLoop label, s.header)
    else if s.follow = some target then some (.breakLoop label, s.header)
    else jumpTo? target true rest

/-- The view of an edge to `target`, with the header of the loop that it names by label. -/
def view (l : Layout) (scope : Scope) (target : BlockId) : EdgeView × Option BlockId :=
  if !l.routine.blocks.contains target then (.jump (.goto target), none)
  else
    match jumpTo? target false scope.enclosing with
    | some (.breakLoop none, _) => (.jump (.breakLoop none), none)
    | some (.continueLoop none, _) => (.jump (.continueLoop none), none)
    | some (node, header) => (.jump node, some header)
    | none =>
      if scope.stops.contains target then (.stop, none)
      else
        match scope.enclosing with
        | s :: _ => if s.body.contains target then (.onward, none) else (.exit, none)
        | [] => (.onward, none)

def viewEdge (l : Layout) (scope : Scope) (target : BlockId) : Arranging EdgeView := do
  let (view, named) := l.view scope target
  modify fun s => { s with
    labelled := named.elim s.labelled s.labelled.insert
    viewed := s.viewed ++ [(scope, target)] }
  return view

/-- Edges along which arms can meet: inside the routine and the innermost loop, and not back
to a header. -/
def isForward (l : Layout) (scope : Scope) (source target : BlockId) : Bool :=
  l.routine.blocks.contains target && !l.loops.isBackEdge source target &&
    !scope.enclosing.any (fun s => s.header == target) &&
    match scope.enclosing with
    | s :: _ => s.body.contains target
    | [] => true

/-- The form of a loop, with the latch that tests it or the block that its header leads into. -/
inductive LoopForm where
  | preTest (inside : BlockId)
  | postTest (latch : BlockId)
  | infinite
  deriving DecidableEq, Repr

def LoopForm.kind : LoopForm → LoopKind
  | .preTest _ => .preTest
  | .postTest _ => .postTest
  | .infinite => .infinite

/-- A loop with one exit edge, to its follow, is tested at the end if the exit is at its only latch,
or at the start if it is at a header that only computes in registers. -/
def loopForm (l : Layout) (loop : NaturalLoop) (follow : Option BlockId) : LoopForm :=
  match follow, loop.exitEdges l.graph with
  | some follow, [(source, target)] =>
    let header := l.graph.block loop.header
    let ownLatch := match loop.latches.toList with
      | [latch] =>
        let block := l.graph.block latch
        let innermost := (l.loops.innermost? latch).any fun inner => inner.header == loop.header
        if innermost && block.isConditional && source == latch &&
            BlockSet.ofList block.successors == BlockSet.ofList [loop.header, follow] then some latch
        else none
      | _ => none
    if target ≠ follow then .infinite
    else
      match ownLatch with
      | some latch => .postTest latch
      | none =>
        if header.successors.length == 2 && header.isConditional && source == loop.header &&
            header.code.all Instruction.worksOnRegisters then
          match header.successors.find? loop.contains with
          | some inside => .preTest inside
          | none => .infinite
        else .infinite
  | _, _ => .infinite

abbrev Sequencer := Scope → BlockId → Arranging (List ControlNode)

section

variable (l : Layout) (sequence : Sequencer) (scope : Scope)

def arm (target : BlockId) :
    Arranging (List ControlNode) := do
  match ← l.viewEdge scope target with
  | .onward => sequence scope target
  | .exit => sequence scope.unstopped target
  | .stop => return []
  | .jump node => return [node]

/-- A conditional both of whose arms stay in the current construct. Gives the nodes, and where
the arms meet. -/
def arrangeIf (b taken fall : BlockId) :
    Arranging (List ControlNode × Option BlockId) := do
  let join := meetingPoint? l.graph l.dominators (l.isForward scope) b taken fall
  let inner := { scope with stops := join.toList ++ scope.stops }
  let takenArm ← l.arm sequence inner taken
  let fallArm ← l.arm sequence inner fall
  note ("if at " ++ l.graph.name b ++ " join=" ++ Text.quotedOption (join.map l.graph.name))
  let node :=
    if takenArm.isEmpty then .cond (.branch b false) fallArm takenArm join
    else .cond (.branch b true) takenArm fallArm join
  return ([node], join)

/-- The conditional at the end of a block, and the block where the path goes on. An arm that leaves
the current construct stands alone; the other one goes on behind the conditional. -/
def arrangeBranch (b taken fall : BlockId) :
    Arranging (List ControlNode × Option BlockId) := do
  let takenView ← l.viewEdge scope taken
  let fallView ← l.viewEdge scope fall
  let onTaken := Condition.branch b true
  match takenView, fallView with
  | .onward, .onward => l.arrangeIf sequence scope b taken fall
  | .onward, .stop =>
    let nodes ← l.arm sequence scope taken
    return ([.cond onTaken nodes [] (some fall)], none)
  | .stop, .onward =>
    let nodes ← l.arm sequence scope fall
    return ([.cond onTaken.negate nodes [] (some taken)], none)
  | .stop, .stop => return ([], none)
  | takenView, fallView =>
    if takenView.leaves && !fallView.leaves then
      let nodes ← l.arm sequence scope taken
      return ([.cond onTaken nodes [] none], if fallView.isOnward then some fall else none)
    else if fallView.leaves && !takenView.leaves then
      let nodes ← l.arm sequence scope fall
      return ([.cond onTaken.negate nodes [] none], if takenView.isOnward then some taken else none)
    else
      let takenArm ← l.arm sequence scope taken
      let fallArm ← l.arm sequence scope fall
      return ([.cond onTaken takenArm fallArm none], none)

/-- The nodes of a block and of the conditional at its end, and the block where the path goes on. -/
def arrangeBlock (b : BlockId) :
    Arranging (List ControlNode × Option BlockId) := do
  l.place b
  let block := l.graph.block b
  match block.branch, block.fallThrough with
  | some taken, some fall =>
    if taken ≠ fall ∧ block.isConditional then
      let (nodes, next) ← l.arrangeBranch sequence scope b taken fall
      return (.block b :: nodes, next)
    else return ([.block b], some fall)
  | _, _ => return ([.block b], block.successors.head?)

def arrangeBody (header : BlockId) :
    LoopForm → Arranging (Option Condition × List ControlNode)
  | .postTest latch => do
    let before ← (if latch = header then pure []
      else sequence { scope with stops := [latch] } header : Arranging (List ControlNode))
    l.place latch
    let stays := (l.graph.block latch).branch == some header
    return (some (.branch latch stays), before ++ [.block latch])
  | .preTest inside => do
    l.place header
    let body ← l.arm sequence scope.unstopped inside
    return (some (.branch header ((l.graph.block header).branch == some inside)), body)
  | .infinite => do
    return (none, ← sequence scope.unstopped header)

def withoutFinalContinue (body : List ControlNode) : List ControlNode :=
  match body.getLast? with
  | some (.continueLoop none) => body.dropLast
  | _ => body

def arrangeLoop (loop : NaturalLoop) :
    Arranging (List ControlNode × Option BlockId) := do
  let follow := followOf? l.graph l.dominators loop l.routine.blocks
  let form := l.loopForm loop follow
  let name := l.graph.name loop.header
  note (form.kind.text ++ " loop at " ++ name ++ " follow=" ++
    Text.quotedOption (follow.map l.graph.name))
  let inner : LoopScope := { header := loop.header, follow, body := loop.body, label := name }
  let (condition, body) ←
    l.arrangeBody sequence { scope with enclosing := inner :: scope.enclosing } loop.header form
  let label := if (← get).labelled.contains loop.header then some name else none
  return ([.loop form.kind loop.header condition (withoutFinalContinue body) label follow], follow)

/-- The loop that `start` is the header of, unless it is around the current position already, or
else the block `start`; and where the path goes on. -/
def arrangeFirst (start : BlockId) : Arranging (List ControlNode × Option BlockId) :=
  if scope.enclosing.any (fun s => s.header == start) then l.arrangeBlock sequence scope start
  else
    match l.loops.get? start with
    | some loop => l.arrangeLoop sequence scope loop
    | none => l.arrangeBlock sequence scope start

end

/-- Everything from `start` up to a block where an enclosing construct goes on, a jump, or the end
of the path. At most `fuel` arrangements are nested in each other. -/
def sequence (l : Layout) : Nat → Scope → BlockId → Arranging (List ControlNode)
  | 0, _, _ => throw .tooDeep
  | fuel + 1, scope, start => do
    let (nodes, next) ← l.arrangeFirst (l.sequence fuel) scope start
    match next with
    | none => return nodes
    | some next => return nodes ++ (← l.arm (l.sequence fuel) scope next)

/-- No two nested arrangements go by without a block being placed, so this is deep enough. -/
def depth (l : Layout) : Nat := 2 * (l.graph.size + 1) + 1

def tree (l : Layout) : ControlTree × Journal :=
  let givenUp (reason : String) : Entry :=
    .warn ("[reconstruct] " ++ l.routine.name ++ ": " ++ reason ++ ", using dispatch loop")
  let dispatch := ControlTree.dispatch l.graph l.routine.entry l.dominators
  match retreatingEdge? l.graph l.dominators l.routine.blocks with
  | some (source, target) =>
    (dispatch, [givenUp ("irreducible edge " ++ l.graph.name source ++ " -> " ++
      l.graph.name target)])
  | none =>
    match (l.sequence l.depth {} l.routine.entry).run.run {} with
    | (.ok nodes, s) => ({ nodes, structured := true }, s.journal)
    | (.error reason, s) => (dispatch, s.journal ++ [givenUp reason.message])

end Layout

def Layout.ofRoutine (g : Graph) (r : Routine) : Layout :=
  let dominators := Dominators.ofGraph g r.entry r.blocks
  { graph := g, routine := r, dominators, loops := LoopForest.ofGraph g dominators }

end Lift6502
