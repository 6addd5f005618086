import Lift6502.Flow.Dominators
import Lift6502.Journal

/-!
# Natural loops

All edges back to one header belong to one loop, whose body is what reaches the source of such an
edge without passing through the header.
-/

namespace Lift6502

structure NaturalLoop where
  header : BlockId
  latches : BlockSet
  /-- Includes the header. -/
  body : BlockSet
  /-- Blocks outside the body that a block of the body leads to. -/
  exits : BlockSet
  deriving DecidableEq, Repr

namespace NaturalLoop

def backEdges (l : NaturalLoop) : List (BlockId × BlockId) :=
  l.latches.toList.map fun latch => (latch, l.header)

def contains (l : NaturalLoop) (b : BlockId) : Bool := l.body.contains b

def edgesOut (g : Graph) (body : BlockSet) : List (BlockId × BlockId) :=
  body.toList.flatMap fun b =>
    ((g.successors b).filter fun s => !body.contains s).map fun s => (b, s)

def exitEdges (l : NaturalLoop) (g : Graph) : List (BlockId × BlockId) := edgesOut g l.body

/-- The blocks that reach a latch backwards without passing through the header. -/
def bodyOf (g : Graph) (d : Dominators) (header : BlockId) (latches : BlockSet) : BlockSet :=
  let back := fun b => (g.predecessors b).toList.filter fun p => d.dominates header p
  BlockSet.ofList
    (header :: (Walk.visitAll back (g.size + 1) latches.toList { seen := [header] }).order)

def ofLatches (g : Graph) (d : Dominators) (header : BlockId) (latches : BlockSet) : NaturalLoop :=
  let body := bodyOf g d header latches
  { header, latches, body, exits := BlockSet.ofList ((edgesOut g body).map (·.2)) }

def entry (l : NaturalLoop) : Entry :=
  .debug ("[loops] header=" ++ toString l.header ++ " latches=[" ++
    String.intercalate ", " (l.latches.toList.map toString) ++ "] body=" ++ l.body.text ++
    " exits=" ++ l.exits.text)

end NaturalLoop

structure LoopForest where
  loops : List NaturalLoop
  deriving DecidableEq, Repr

namespace LoopForest

def latchesOf (g : Graph) (d : Dominators) (header : BlockId) : BlockSet :=
  BlockSet.ofList (d.order.filter fun b => (g.successors b).contains header && d.dominates header b)

def ofGraph (g : Graph) (d : Dominators) : LoopForest where
  loops := (BlockSet.ofList d.order).toList.filterMap fun header =>
    let latches := latchesOf g d header
    if latches.isEmpty then none else some (NaturalLoop.ofLatches g d header latches)

def journal (f : LoopForest) : Journal := f.loops.map NaturalLoop.entry

def get? (f : LoopForest) (header : BlockId) : Option NaturalLoop :=
  f.loops.find? fun l => l.header = header

def isBackEdge (f : LoopForest) (source target : BlockId) : Bool :=
  match f.get? target with
  | some l => l.latches.contains source
  | none => false

/-- The smallest loop around a block, of equal ones the one with the lowest header. -/
def innermost? (f : LoopForest) (b : BlockId) : Option NaturalLoop :=
  (f.loops.filter (·.contains b)).foldl
    (fun best l =>
      match best with
      | some best => if l.body.size < best.body.size then some l else some best
      | none => some l)
    none

end LoopForest

end Lift6502
