import Lift6502.Flow.Graph

/-!
# Routines

Every block belongs to one routine; an edge from a routine to the entry of another one hands control
over for good.
-/

namespace Lift6502

structure Interface where
  /-- Read before they are written. -/
  inputs : RegisterSet := ∅
  /-- Handed back. -/
  outputs : RegisterSet := ∅
  /-- Written, perhaps in a routine that is called. -/
  clobbers : RegisterSet := ∅
  deriving DecidableEq, Repr

structure Routine where
  name : String
  entry : BlockId
  blocks : BlockSet
  /-- Wanted for itself: its callers are not known. -/
  isRoot : Bool
  interface : Interface := {}
  deriving DecidableEq, Repr, Inhabited

namespace Routine

def inputs (r : Routine) : RegisterSet := r.interface.inputs

def outputs (r : Routine) : RegisterSet := r.interface.outputs

def clobbers (r : Routine) : RegisterSet := r.interface.clobbers

end Routine

structure Routines where
  all : List Routine
  deriving DecidableEq, Repr, Inhabited

namespace Routines

def owner? (rs : Routines) (b : BlockId) : Option Nat :=
  rs.all.findIdx? fun r => r.blocks.contains b

def numberAt? (rs : Routines) (entry : BlockId) : Option Nat :=
  rs.all.findIdx? fun r => r.entry = entry

def atEntry? (rs : Routines) (entry : BlockId) : Option Routine :=
  rs.all.find? fun r => r.entry = entry

def named? (rs : Routines) (name : String) : Option Routine := rs.all.find? fun r => r.name = name

/-- The number of the other routine that an edge hands control to. -/
def takesOver? (rs : Routines) (source target : BlockId) : Option Nat :=
  match rs.owner? source, rs.numberAt? target with
  | some caller, some callee => if caller = callee then none else some callee
  | _, _ => none

def handsOver (rs : Routines) (source target : BlockId) : Bool :=
  (rs.takesOver? source target).isSome

end Routines

end Lift6502
