import Lift6502.Flow.Graph
import Lift6502.Flow.Walk

/-!
# Dominators

The dominators of a block lie on one chain, which is kept for every block that can be reached.
-/

namespace Lift6502

structure Dominators where
  entry : BlockId
  /-- Each reachable block in reverse postorder, with its dominators, outermost first. -/
  chains : List (BlockId × List BlockId)
  deriving Repr

namespace Dominators

def ofGraph (g : Graph) (entry : BlockId) (members : BlockSet) : Dominators :=
  let next := g.successorsIn members
  let order := reversePostorder g.size next entry
  let escapes := order.map fun d => (d, reachableAvoiding g.size next entry [d])
  { entry
    chains := order.map fun b =>
      (b, (escapes.filter fun (_, reached) => !reached.contains b).map (·.1)) }

def order (d : Dominators) : List BlockId := d.chains.map (·.1)

/-- The dominators of a block, the block itself last; none for an unreachable block. -/
def chain (d : Dominators) (b : BlockId) : List BlockId := (d.chains.lookup b).getD []

def isReachable (d : Dominators) (b : BlockId) : Bool := (d.chains.lookup b).isSome

def index? (d : Dominators) (b : BlockId) : Option Nat := d.order.findIdx? (· == b)

def dominates (d : Dominators) (dominator b : BlockId) : Bool := (d.chain b).contains dominator

def immediate? (d : Dominators) (b : BlockId) : Option BlockId := (d.chain b).dropLast.getLast?

end Dominators

end Lift6502
