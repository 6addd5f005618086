import Lift6502.Code.Statement
import Lift6502.Journal
import Lift6502.Routine.Basic
import Lift6502.Symbolic.State

/-!
# Generating code

A routine runs on symbolic states. Statements are emitted where an effect has to happen in order;
values stay symbolic until paths meet or they grow too large.
-/

namespace Lift6502

abbrev Carriers := PerLocation (Option Variable)

namespace Carriers

def empty : Carriers := .ofFn fun _ => none

def toList (c : Carriers) : List (Location × Variable) :=
  Location.all.filterMap fun l => (c.get l).map fun v => (l, v)

def carried (c : Carriers) : List Variable := c.toList.map (·.2)

def isEmpty (c : Carriers) : Bool := c.toList.isEmpty

end Carriers

structure Frame where
  label : Option String
  header : String
  /-- The variables that carry locations around the loop. -/
  phis : Carriers
  /-- What lies on the stack whenever the header is reached. -/
  stack : List StackEntry
  /-- Locations without a value at some jump to the header. -/
  widened : LocationSet := ∅
  breaks : List SymbolicState := []
  /-- The variables that every break assigns, once that is known. -/
  follow : Option Carriers := none
  deriving Repr, Inhabited

structure Progress where
  temps : Nat := 0
  merges : Nat := 0
  /-- The loops around the current point, innermost first. -/
  frames : List Frame := []
  out : Array Statement := #[]
  journal : Journal := []
  deriving Repr

/-- The loop without the breaks and the lost locations that it has noted since it was `saved`. -/
def Frame.repair (f saved : Frame) : Frame :=
  { f with breaks := f.breaks.take saved.breaks.length, widened := saved.widened }

/-- The point with the numbers of `start`, where the loops around have noted what they had
noted there. -/
def Progress.repair (p start : Progress) : Progress :=
  { p with
    temps := start.temps
    merges := start.merges
    frames := p.frames.zipWith Frame.repair start.frames }

abbrev Gen := ExceptT GenerationError (StateM Progress)

/-- Generates a part of a path, behind which control may not go on. -/
abbrev PathGen := SymbolicState → Gen (Option SymbolicState)

/-- Variables that carry the locations between the blocks of a dispatch loop. -/
structure DispatchPlan where
  carriers : PerLocation Variable
  /-- The locations with a value on every path to each block. -/
  defined : List (BlockId × LocationSet)
  deriving Repr

structure Generator where
  program : Program
  graph : Graph
  routines : Routines
  routine : Routine
  maxInline : Nat
  dispatch : Option DispatchPlan := none
  deriving Repr, Inhabited

namespace Gen

def emit (s : Statement) : Gen Unit := modify fun p => { p with out := p.out.push s }

def emitAll (ss : List Statement) : Gen Unit := ss.forM emit

def capture {α : Type} (g : Gen α) : Gen (α × List Statement) := do
  let outer := (← get).out
  modify fun p => { p with out := #[] }
  let a ← g
  let inner := (← get).out
  modify fun p => { p with out := outer }
  return (a, inner.toList)

def note (e : Entry) : Gen Unit := modify fun p => { p with journal := p.journal ++ [e] }

def newTemp : Gen Variable :=
  modifyGet fun p => (.temp (p.temps + 1), { p with temps := p.temps + 1 })

def newMerge (l : Location) : Gen Variable :=
  modifyGet fun p => (.merge l (p.merges + 1), { p with merges := p.merges + 1 })

def read (s : SymbolicState) (l : Location) (block : String) : Gen Expression :=
  MonadExcept.ofExcept (s.read l block)

def keepInTemp (value : Expression) : Gen Expression := do
  let temp ← newTemp
  emit (.assign temp value)
  return .var temp

/-- Copies a value to a temporary, unless it is a literal or a variable already. -/
def stableValue (value : Expression) : Gen Expression :=
  match value with
  | .literal _ | .bool _ | .var _ => return value
  | value => keepInTemp value

def load (address : Expression) : Gen Expression := keepInTemp (.memory address)

/-- Assigns all variables at once: a value that reads a variable assigned before it is
copied first. -/
def assignAtOnce (assignments : List (Variable × Expression)) : Gen Unit := do
  let pending ← go [] assignments
  emitAll pending
where
  /-- The assignments with values that no assignment before them changes. -/
  go (assigned : List Variable) : List (Variable × Expression) → Gen (List Statement)
    | [] => return []
    | (v, value) :: rest => do
      let value ← (if value.mentionsOneOf assigned then keepInTemp value else pure value :
        Gen Expression)
      return .assign v value :: (← go (assigned ++ [v]) rest)

end Gen

namespace Generator

open Gen

def withinLimit (c : Generator) (value : Expression) : Gen Expression :=
  if c.maxInline < value.size then stableValue value else return value

def bind (c : Generator) (s : SymbolicState) (l : Location) (value : Expression) :
    Gen (SymbolicState × Expression) := do
  let value ← c.withinLimit value
  return (s.set l (.ofExpression value), value)

def bindAll (c : Generator) (s : SymbolicState) (values : List (Location × Expression)) :
    Gen SymbolicState :=
  values.foldlM (fun s (l, value) => return (← c.bind s l value).1) s

end Generator

end Lift6502
