import Lift6502.Exchange.Datum
import Lift6502.Tree.Node

/-!
# Control trees as plain data
-/

namespace Lift6502

open Datum

def LoopKind.names : List (String × LoopKind) :=
  [.preTest, .postTest, .infinite].map fun kind => (kind.text, kind)

def Condition.toDatum : Condition → Datum
  | .branch block taken => pairOf block (.bool taken)
  | .dispatch block => pairOf "dispatch" block

def blockDatum : Option BlockId → Datum := option fun (b : BlockId) => .int b

mutual

def ControlNode.toDatum : ControlNode → Datum
  | .block b => .record [("block", .int b)]
  | .cond condition thenBranch elseBranch join => .record
      [("if", condition.toDatum), ("then", .list (ControlNode.listToData thenBranch)),
       ("else", .list (ControlNode.listToData elseBranch)), ("join", blockDatum join)]
  | .loop kind header condition body label follow => .record
      [("loop", kind.text), ("header", .int header),
        ("condition", option Condition.toDatum condition),
       ("body", .list (ControlNode.listToData body)), ("label", option .text label),
       ("follow", blockDatum follow)]
  | .goto b => .record [("goto", .int b)]
  | .breakLoop label => .record [("break", option .text label)]
  | .continueLoop label => .record [("continue", option .text label)]

def ControlNode.listToData : List ControlNode → List Datum
  | [] => []
  | node :: rest => node.toDatum :: ControlNode.listToData rest

end

def Condition.ofDatum? (d : Datum) : Option Condition :=
  match d with
  | .list [.text "dispatch", block] => block.nat?.map .dispatch
  | .list [block, taken] => do return .branch (← block.nat?) (← taken.bool?)
  | _ => none

def ControlNode.ofDatumWithin? : Nat → Datum → Option ControlNode
  | 0, _ => none
  | n + 1, d =>
    let field := fun name => (d.field? name).getD .null
    if let some b := d.field? "block" then b.nat?.map .block
    else if let some condition := d.field? "if" then do
      return .cond (← Condition.ofDatum? condition)
        (← (field "then").listOf? (ControlNode.ofDatumWithin? n))
        (← (field "else").listOf? (ControlNode.ofDatumWithin? n))
        (← (field "join").option? nat?)
    else if let some kind := d.field? "loop" then do
      return .loop (← kind.named? LoopKind.names) (← (field "header").nat?)
        (← (field "condition").option? Condition.ofDatum?)
        (← (field "body").listOf? (ControlNode.ofDatumWithin? n))
        (← (field "label").option? text?) (← (field "follow").option? nat?)
    else if let some b := d.field? "goto" then b.nat?.map .goto
    else if let some label := d.field? "break" then (label.option? text?).map .breakLoop
    else if let some label := d.field? "continue" then (label.option? text?).map .continueLoop
    else none

def ControlNode.ofDatum? (d : Datum) : Option ControlNode := ControlNode.ofDatumWithin? d.depth d

end Lift6502
