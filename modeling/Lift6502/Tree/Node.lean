import Lift6502.Flow.BlockSet

/-!
# Control trees

A test uses the branch at the end of a block, or, in a routine that could not be arranged, the block
that is to run next.
-/

namespace Lift6502

inductive Condition where
  /-- The branch at the end of a block is taken, or is not taken. -/
  | branch (block : BlockId) (taken : Bool)
  /-- A block is the next one to run. -/
  | dispatch (block : BlockId)
  deriving DecidableEq, Repr

namespace Condition

def negate : Condition → Condition
  | .branch block taken => .branch block (!taken)
  | .dispatch block => .dispatch block

def text : Condition → String
  | .branch block taken => "Branch \x7b block: BlockId(" ++ toString block ++ "), taken: " ++
      (if taken then "true" else "false") ++ " \x7d"
  | .dispatch block => "Dispatch(BlockId(" ++ toString block ++ "))"

end Condition

inductive LoopKind where
  /-- The header computes the condition before each pass. -/
  | preTest
  /-- The latch tests the condition after each pass. -/
  | postTest
  /-- Left only by a break or a return. -/
  | infinite
  deriving DecidableEq, Repr

def LoopKind.text : LoopKind → String
  | .preTest => "PreTest"
  | .postTest => "PostTest"
  | .infinite => "Infinite"

inductive ControlNode where
  | block (b : BlockId)
  /-- A conditional; both branches go on at `join`, if they meet again. -/
  | cond (condition : Condition) (thenBranch elseBranch : List ControlNode) (join : Option BlockId)
  /-- A loop that runs while the condition holds; `follow` runs after it. It has a label if a
  jump names it. -/
  | loop (kind : LoopKind) (header : BlockId) (condition : Option Condition)
      (body : List ControlNode) (label : Option String) (follow : Option BlockId)
  | goto (b : BlockId)
  | breakLoop (label : Option String)
  | continueLoop (label : Option String)
  deriving Repr, Inhabited

namespace ControlNode

mutual

def descendants : ControlNode → List ControlNode
  | .cond condition t e join => .cond condition t e join :: (listDescendants t ++ listDescendants e)
  | .loop kind header condition body label follow =>
    .loop kind header condition body label follow :: listDescendants body
  | node => [node]

def listDescendants : List ControlNode → List ControlNode
  | [] => []
  | node :: rest => node.descendants ++ listDescendants rest

end

def block? : ControlNode → Option BlockId
  | .block b => some b
  | _ => none

def text : ControlNode → String
  | .block b => "block " ++ toString b
  | .cond condition .. => "if " ++ condition.text
  | .loop kind header .. => kind.text ++ " loop at " ++ toString header
  | .goto b => "goto " ++ toString b
  | .breakLoop label => "break " ++ label.getD ""
  | .continueLoop label => "continue " ++ label.getD ""

end ControlNode

structure ControlTree where
  nodes : List ControlNode
  /-- False when the routine is one dispatch loop. -/
  structured : Bool
  deriving Repr

namespace ControlTree

def descendants (t : ControlTree) : List ControlNode := ControlNode.listDescendants t.nodes

def blocks (t : ControlTree) : List BlockId := t.descendants.filterMap ControlNode.block?

end ControlTree

end Lift6502
