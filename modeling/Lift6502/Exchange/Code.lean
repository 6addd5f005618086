import Lift6502.Code.Statement
import Lift6502.Exchange.Program

/-!
# Decompiled code as plain data

Expressions and statements nest, so reading is bounded by the nesting of the data.
-/

namespace Lift6502

open Datum

def BinOp.names : List (String × BinOp) :=
  [("Add", .add), ("Sub", .sub), ("BitAnd", .bitAnd), ("BitOr", .bitOr), ("BitXor", .bitXor),
   ("Shl", .shl), ("Shr", .shr), ("Eq", .eq), ("Neq", .neq), ("Lt", .lt), ("Ge", .ge),
   ("And", .and), ("Or", .or)]

def UnOp.names : List (String × UnOp) := [("Not", .not), ("ToInt", .toInt)]

def Variable.toDatum : Variable → Datum
  | .temp id => form "Temp" id
  | .merge location id =>
    form "Merge" (.record [("location", named Location.names location), ("id", id)])
  | .input r => form "Input" (named Register.names r)
  | .dispatch => "Dispatch"

def Expression.toDatum : Expression → Datum
  | .literal value => form "Literal" value.toNat
  | .bool value => form "Bool" value
  | .var v => form "Variable" v.toDatum
  | .memory address => form "Memory" address.toDatum
  | .binary op lhs rhs => form "Binary" (.record
      [("op", named BinOp.names op), ("lhs", lhs.toDatum), ("rhs", rhs.toDatum)])
  | .unary op operand => form "Unary" (.record
      [("op", named UnOp.names op), ("operand", operand.toDatum)])

def LoopTest.toDatum : LoopTest → Datum
  | .whileTrue condition => form "While" condition.toDatum
  | .doWhile condition => form "DoWhile" condition.toDatum
  | .forever => "Forever"

def perRegisterDatum {α : Type} (write : α → Datum) (values : List (Register × α)) : Datum :=
  listOf (fun (r, value) => pairOf (named Register.names r) (write value)) values

mutual

def Statement.toDatum : Statement → Datum
  | .assign v value => form "Assign" (.record
      [("variable", v.toDatum), ("value", value.toDatum)])
  | .store address value => form "Store" (.record
      [("address", address.toDatum), ("value", value.toDatum)])
  | .cond condition thenBranch elseBranch => form "If" (.record
      [("condition", condition.toDatum), ("then_branch", .list (Statement.listToData thenBranch)),
       ("else_branch", .list (Statement.listToData elseBranch))])
  | .loop test label body => form "Loop" (.record
      [("kind", test.toDatum), ("label", option .text label),
       ("body", .list (Statement.listToData body))])
  | .breakLoop label => form "Break" (option .text label)
  | .continueLoop label => form "Continue" (option .text label)
  | .ret values => form "Return" (.record [("values", perRegisterDatum Expression.toDatum values)])
  | .call function arguments results => form "Call" (.record
      [("function", function), ("arguments", perRegisterDatum Expression.toDatum arguments),
       ("results", perRegisterDatum Variable.toDatum results)])
  | .note message => form "Annotation" message

def Statement.listToData : List Statement → List Datum
  | [] => []
  | s :: rest => s.toDatum :: Statement.listToData rest

end

def FunctionDef.toDatum (f : FunctionDef) : Datum :=
  .record
    [("name", f.name), ("inputs", listOf (named Register.names) f.inputs),
     ("outputs", listOf (named Register.names) f.outputs),
     ("body", .list (Statement.listToData f.body)), ("structured", f.structured)]

def Variable.ofDatum? (d : Datum) : Option Variable :=
  d.named? [("Dispatch", .dispatch)] <|> do
  match ← d.form? with
  | ("Temp", id) => id.nat?.map .temp
  | ("Merge", value) =>
    match ← value.fields? ["location", "id"] with
    | [location, id] => return .merge (← location.named? Location.names) (← id.nat?)
    | _ => none
  | ("Input", r) => (r.named? Register.names).map .input
  | _ => none

def Expression.ofDatumWithin? : Nat → Datum → Option Expression
  | 0, _ => none
  | n + 1, d => do
    match ← d.form? with
    | ("Literal", value) => value.u32?.map .literal
    | ("Bool", value) => value.bool?.map .bool
    | ("Variable", value) => (Variable.ofDatum? value).map .var
    | ("Memory", value) => (Expression.ofDatumWithin? n value).map .memory
    | ("Binary", value) =>
      match ← value.fields? ["op", "lhs", "rhs"] with
      | [op, lhs, rhs] =>
        return .binary (← op.named? BinOp.names) (← Expression.ofDatumWithin? n lhs)
          (← Expression.ofDatumWithin? n rhs)
      | _ => none
    | ("Unary", value) =>
      match ← value.fields? ["op", "operand"] with
      | [op, operand] =>
        return .unary (← op.named? UnOp.names) (← Expression.ofDatumWithin? n operand)
      | _ => none
    | _ => none

def Expression.ofDatum? (d : Datum) : Option Expression := Expression.ofDatumWithin? d.depth d

def LoopTest.ofDatum? (d : Datum) : Option LoopTest :=
  d.named? [("Forever", .forever)] <|> do
  match ← d.form? with
  | ("While", condition) => (Expression.ofDatum? condition).map .whileTrue
  | ("DoWhile", condition) => (Expression.ofDatum? condition).map .doWhile
  | _ => none

def perRegister? {α : Type} (read : Datum → Option α) (d : Datum) : Option (List (Register × α)) :=
  d.listOf? (pair? (named? Register.names) read)

def Statement.ofDatumWithin? : Nat → Datum → Option Statement
  | 0, _ => none
  | n + 1, d => do
    match ← d.form? with
    | ("Assign", value) =>
      match ← value.fields? ["variable", "value"] with
      | [v, value] => return .assign (← Variable.ofDatum? v) (← Expression.ofDatum? value)
      | _ => none
    | ("Store", value) =>
      match ← value.fields? ["address", "value"] with
      | [address, value] =>
        return .store (← Expression.ofDatum? address) (← Expression.ofDatum? value)
      | _ => none
    | ("If", value) =>
      match ← value.fields? ["condition", "then_branch", "else_branch"] with
      | [condition, thenBranch, elseBranch] =>
        return .cond (← Expression.ofDatum? condition)
          (← thenBranch.listOf? (Statement.ofDatumWithin? n))
          (← elseBranch.listOf? (Statement.ofDatumWithin? n))
      | _ => none
    | ("Loop", value) =>
      match ← value.fields? ["kind", "label", "body"] ["label"] with
      | [kind, label, body] =>
        return .loop (← LoopTest.ofDatum? kind) (← label.option? text?)
          (← body.listOf? (Statement.ofDatumWithin? n))
      | _ => none
    | ("Break", label) => (label.option? text?).map .breakLoop
    | ("Continue", label) => (label.option? text?).map .continueLoop
    | ("Return", value) =>
      match ← value.fields? ["values"] with
      | [values] => return .ret (← perRegister? Expression.ofDatum? values)
      | _ => none
    | ("Call", value) =>
      match ← value.fields? ["function", "arguments", "results"] with
      | [function, arguments, results] =>
        return .call (← function.text?) (← perRegister? Expression.ofDatum? arguments)
          (← perRegister? Variable.ofDatum? results)
      | _ => none
    | ("Annotation", message) => message.text?.map .note
    | _ => none

def Statement.ofDatum? (d : Datum) : Option Statement := Statement.ofDatumWithin? d.depth d

def FunctionDef.ofDatum? (d : Datum) : Option FunctionDef := do
  match ← d.fields? ["name", "inputs", "outputs", "body", "structured"] with
  | [name, inputs, outputs, body, structured] =>
    return { name := ← name.text?, inputs := ← inputs.listOf? (named? Register.names),
             outputs := ← outputs.listOf? (named? Register.names),
             body := ← body.listOf? Statement.ofDatum?, structured := ← structured.bool? }
  | _ => none

end Lift6502
