import Lift6502.Flow.BlockSet

/-!
# Depth-first walks

A walk visits the blocks that can be reached along `next` without passing through a block seen
before, and keeps them in the reverse of the order in which they are finished.
-/

namespace Lift6502

structure Walk where
  /-- Blocks not to be visited (again). -/
  seen : List BlockId := []
  order : List BlockId := []
  deriving Repr

namespace Walk

/-- Visits a block and everything behind it, at most `fuel` blocks deep. No walk is deeper than
there are blocks, so the number of blocks is fuel enough. -/
def visit (next : BlockId → List BlockId) : Nat → BlockId → Walk → Walk
  | 0, _, w => w
  | fuel + 1, b, w =>
    if b ∈ w.seen then w
    else
      let behind := (next b).foldl (fun w successor => visit next fuel successor w)
        { w with seen := b :: w.seen }
      { behind with order := b :: behind.order }

def visitAll (next : BlockId → List BlockId) (fuel : Nat) (starts : List BlockId) (w : Walk) :
    Walk :=
  starts.foldl (fun w b => visit next fuel b w) w

end Walk

def reversePostorder (size : Nat) (next : BlockId → List BlockId) (entry : BlockId) :
    List BlockId :=
  (Walk.visit next (size + 1) entry {}).order

def reachableAvoiding (size : Nat) (next : BlockId → List BlockId) (entry : BlockId)
    (avoided : List BlockId) : List BlockId :=
  (Walk.visit next (size + 1) entry { seen := avoided }).order

/-! ## Iteration to a fixed point -/

/-- Applies `f` until nothing changes, at most `rounds` times. -/
def iterate {α : Type} [DecidableEq α] (f : α → α) : Nat → α → α
  | 0, a => a
  | rounds + 1, a => let b := f a; if b = a then a else iterate f rounds b

end Lift6502
