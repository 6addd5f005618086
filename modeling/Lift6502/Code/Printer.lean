import Lift6502.Code.Statement

/-!
# The text of decompiled code

One statement per line, two spaces of indentation for each level.
-/

namespace Lift6502

def indentation (depth : Nat) : String := String.join (List.replicate depth "  ")

namespace Statement

def bindings {α : Type} (render : α → String) (values : List (Register × α)) : String :=
  String.intercalate ", " (values.map fun (r, value) => r.text ++ ": " ++ render value)

def labelBefore : Option String → String
  | none => ""
  | some label => "'" ++ label ++ ": "

def labelAfter : Option String → String
  | none => ""
  | some label => " '" ++ label

def loopHead : LoopTest → String
  | .whileTrue condition => "while " ++ condition.text ++ " \x7b"
  | .doWhile _ => "do \x7b"
  | .forever => "loop \x7b"

def loopTail : LoopTest → String
  | .doWhile condition => "\x7d while " ++ condition.text
  | .whileTrue _ | .forever => "\x7d"

def callText (function : String) (arguments : List (Register × Expression))
    (results : List (Register × Variable)) : String :=
  let call := function ++ "(" ++ bindings Expression.text arguments ++ ")"
  if results.isEmpty then call
  else "\x7b" ++ bindings Variable.text results ++ "\x7d = " ++ call

mutual

def lines (depth : Nat) : Statement → List String
  | .assign v value => [indentation depth ++ v.text ++ " = " ++ value.text]
  | .store address value => [indentation depth ++ "mem[" ++ address.text ++ "] = " ++ value.text]
  | .cond condition thenBranch elseBranch =>
    (indentation depth ++ "if " ++ condition.text ++ " \x7b") :: linesOfAll (depth + 1) thenBranch ++
      (if elseBranch.isEmpty then []
       else (indentation depth ++ "\x7d else \x7b") :: linesOfAll (depth + 1) elseBranch) ++
      [indentation depth ++ "\x7d"]
  | .loop test label body =>
    (indentation depth ++ labelBefore label ++ loopHead test) :: linesOfAll (depth + 1) body ++
      [indentation depth ++ loopTail test]
  | .breakLoop label => [indentation depth ++ "break" ++ labelAfter label]
  | .continueLoop label => [indentation depth ++ "continue" ++ labelAfter label]
  | .ret [] => [indentation depth ++ "return"]
  | .ret values => [indentation depth ++ "return " ++ bindings Expression.text values]
  | .call function arguments results => [indentation depth ++ callText function arguments results]
  | .note text => [indentation depth ++ "// " ++ text]

def linesOfAll (depth : Nat) : List Statement → List String
  | [] => []
  | s :: rest => s.lines depth ++ linesOfAll depth rest

end

def text (s : Statement) : String := Text.trimmedEnd (String.intercalate "\n" (s.lines 0))

end Statement

namespace FunctionDef

def header (f : FunctionDef) : String :=
  "fn " ++ f.name ++ "(" ++ String.intercalate ", " (f.inputs.map fun r => r.text ++ "_in") ++
    ")" ++ (if f.outputs.isEmpty then ""
     else " -> (" ++ String.intercalate ", " (f.outputs.map Register.text) ++ ")") ++ " \x7b"

def lines (f : FunctionDef) : List String :=
  (if f.structured then [] else ["// control flow lowered to a dispatch loop"]) ++
    f.header :: Statement.linesOfAll 1 f.body ++ ["\x7d"]

def text (f : FunctionDef) : String := String.intercalate "\n" f.lines

end FunctionDef

end Lift6502
