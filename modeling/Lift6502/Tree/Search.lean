import Lift6502.Flow.Loops

/-!
# Searches that guide the arrangement

Where the arms of a conditional meet, where control goes after a loop, and whether some edge goes
back without closing a loop.
-/

namespace Lift6502

/-- Whether `target` can be reached from `source` along accepted edges without entering `avoided`.
A block reaches itself. -/
def reaches (g : Graph) (accepted : BlockId → BlockId → Bool) (source target avoided : BlockId) :
    Bool :=
  let next := fun b => if b = target then [] else (g.successors b).filter (accepted b)
  (reachableAvoiding g.size next source [avoided]).contains target

/-- Where the two arms of the conditional at the end of `branch` meet again. An arm that the other
one reaches is the meeting point if `branch` immediately dominates it. Otherwise it is the first
block that `branch` immediately dominates and both arms reach. -/
def meetingPoint? (g : Graph) (d : Dominators) (accepted : BlockId → BlockId → Bool)
    (branch taken fall : BlockId) : Option BlockId :=
  let below := fun b => d.immediate? b = some branch
  let reaches := fun source target => reaches g accepted source target branch
  if below fall && reaches taken fall then some fall
  else if below taken && reaches fall taken then some taken
  else d.order.find? fun b =>
    b != taken && b != fall && below b && reaches taken b && reaches fall b

/-- The block after a loop: of the targets of its exits inside the routine the one with the most
edges, and of several such ones the first in reverse postorder. -/
def followOf? (g : Graph) (d : Dominators) (l : NaturalLoop) (members : BlockSet) :
    Option BlockId :=
  let targets := (l.exitEdges g).map (·.2)
  let candidates := d.order.filter fun b => members.contains b && targets.contains b
  candidates.foldl
    (fun best b =>
      match best with
      | some best => if targets.count best < targets.count b then some b else some best
      | none => some b)
    none

/-- An edge that goes back in reverse postorder to a block that does not dominate its source. -/
def retreatingEdge? (g : Graph) (d : Dominators) (members : BlockSet) :
    Option (BlockId × BlockId) :=
  let edges := d.order.flatMap fun b => (g.successors b).map fun s => (b, s)
  edges.find? fun (b, s) =>
    members.contains s && !d.dominates s b &&
      match d.index? s, d.index? b with
      | some target, some source => target ≤ source
      | _, _ => false

end Lift6502
