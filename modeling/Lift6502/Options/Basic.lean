import Lift6502.Flow.Graph
import Lift6502.Journal

/-!
# Options

What a run is asked to do, and the blocks it starts from.
-/

namespace Lift6502

structure Options where
  /-- The label of the main root; without it, the first block of the program. -/
  entry : Option String := none
  /-- Labels of further roots, such as interrupt handlers. -/
  extraEntries : List String := []
  /-- The largest expression that stays where it is used; a larger one gets a temporary. -/
  maxInlineExpression : Nat := 12
  /-- Routines may be worked on side by side. The result is the same. -/
  parallel : Bool := false
  verbosity : Verbosity := .warn
  deriving DecidableEq, Repr

structure UnknownEntry where
  label : String
  deriving DecidableEq, Repr

def UnknownEntry.message (e : UnknownEntry) : String := "unknown entry label `" ++ e.label ++ "`"

namespace Options

def rootAt (g : Graph) (label : String) : Except UnknownEntry BlockId :=
  match g.labelled? label with
  | some b => .ok b
  | none => .error { label }

/-- The main root and the further ones, each once. Only an empty program has none. -/
def roots (o : Options) (g : Graph) : Except UnknownEntry (List BlockId) := do
  let main ← match o.entry with
    | some label => (rootAt g label).map some
    | none => .ok g.entry
  let extra ← o.extraEntries.mapM (rootAt g)
  return (main.toList ++ extra).eraseDups

end Options

end Lift6502
