import Lift6502.Asm.Program
import Lift6502.Flow.BlockSet

/-!
# Block graphs

Every block also keeps the set of blocks that lead to it; `Graph.addEdge` maintains both directions
and `Graph.verify` checks that they agree.
-/

namespace Lift6502

inductive ExitKind where
  | fallThrough
  | branch
  deriving DecidableEq, Repr

/-- An instruction whose bytes serve as the operand of a `BIT` on this way through them. -/
structure Elision where
  index : Nat
  hidden : Instruction
  /-- The label under which the hidden instruction runs. -/
  label : String
  deriving DecidableEq, Repr

structure Block where
  label : Option String
  offset : UInt16
  code : List Instruction := []
  elisions : List Elision := []
  /-- Blocks called by `JSR`, by position of the instruction. -/
  calls : List (Nat × BlockId) := []
  fallThrough : Option BlockId := none
  branch : Option BlockId := none
  enteredFrom : BlockSet := ∅
  deriving DecidableEq, Repr, Inhabited

namespace Block

def exit? (b : Block) : ExitKind → Option BlockId
  | .fallThrough => b.fallThrough
  | .branch => b.branch

def withExit (b : Block) (kind : ExitKind) (target : BlockId) : Block :=
  match kind with
  | .fallThrough => { b with fallThrough := some target }
  | .branch => { b with branch := some target }

/-- The block below first, then the branch target; one that is both is listed once. -/
def successors (b : Block) : List BlockId :=
  match b.fallThrough, b.branch with
  | some below, some target => if below = target then [below] else [below, target]
  | some below, none => [below]
  | none, some target => [target]
  | none, none => []

def terminator? (b : Block) : Option Instruction :=
  b.code.getLast?.filter fun i => i.opcode.isControlTransfer

def isConditional (b : Block) : Bool :=
  match b.terminator? with
  | some i => i.opcode.isConditionalBranch
  | none => false

def hiddenAt? (b : Block) (index : Nat) : Option Elision :=
  b.elisions.find? fun e => e.index = index

def callAt? (b : Block) (index : Nat) : Option BlockId := b.calls.lookup index

end Block

structure Graph where
  blocks : Array Block := #[]
  /-- The block of each label, the latest first. -/
  labels : List (String × BlockId) := []
  entry : Option BlockId := none
  deriving Repr, Inhabited

inductive GraphError where
  | missingReverseEdge (source target : String)
  | danglingPredecessor (block predecessor : String)
  deriving DecidableEq, Repr

def GraphError.message : GraphError → String
  | .missingReverseEdge source target => "edge " ++ source ++ " -> " ++ target ++
      " has no matching entry in the successor's predecessor set"
  | .danglingPredecessor block predecessor => "block " ++ block ++ " lists " ++ predecessor ++
      " as a predecessor but no such edge exists"

namespace Graph

def size (g : Graph) : Nat := g.blocks.size

/-- A block of the graph; beyond its end there are only empty blocks without exits. -/
def block (g : Graph) (b : BlockId) : Block := g.blocks.getD b default

def ids (g : Graph) : List BlockId := List.range g.size

def successors (g : Graph) (b : BlockId) : List BlockId := (g.block b).successors

def successorsIn (g : Graph) (members : BlockSet) (b : BlockId) : List BlockId :=
  (g.successors b).filter members.contains

def predecessors (g : Graph) (b : BlockId) : BlockSet := (g.block b).enteredFrom

def labelled? (g : Graph) (label : String) : Option BlockId := g.labels.lookup label

def name (g : Graph) (b : BlockId) : String := (g.block b).label.getD ("block_" ++ toString b)

def modify (g : Graph) (b : BlockId) (f : Block → Block) : Graph :=
  { g with blocks := g.blocks.modify b f }

def push (g : Graph) (b : Block) : Graph := { g with blocks := g.blocks.push b }

/-- Sets an exit of a block. The block that the exit led to before forgets it, unless the other
exit still leads there. -/
def addEdge (g : Graph) (source target : BlockId) (kind : ExitKind) : Graph :=
  let former := (g.block source).exit? kind
  let g := g.modify source (·.withExit kind target)
  let g := match former with
    | some old =>
      if old ≠ target ∧ old ∉ g.successors source then
        g.modify old fun b => { b with enteredFrom := b.enteredFrom.erase source }
      else g
    | none => g
  g.modify target fun b => { b with enteredFrom := b.enteredFrom.insert source }

/-- The first disagreement at a block: an exit that is not recorded where it leads, or a recorded
predecessor that does not lead here. -/
def disagreement? (g : Graph) (b : BlockId) : Option GraphError :=
  match (g.successors b).find? fun s => !(g.predecessors s).contains b with
  | some s => some (.missingReverseEdge (g.name b) (g.name s))
  | none =>
    match (g.predecessors b).toList.find? fun p => !(g.successors p).contains b with
    | some p => some (.danglingPredecessor (g.name b) (g.name p))
    | none => none

def verify (g : Graph) : Except GraphError Unit :=
  match g.ids.findSome? g.disagreement? with
  | some e => .error e
  | none => .ok ()

end Graph

end Lift6502
