import Lift6502.Code.Printer
import Lift6502.Flow.Build
import Lift6502.Generate.Routine
import Lift6502.Options.Basic
import Lift6502.Routine.Interface

/-!
# Decompiling a program

A routine without code is reported and does not affect the others.
-/

namespace Lift6502

structure Failure where
  routine : String
  error : GenerationError
  deriving DecidableEq, Repr

structure Decompilation where
  functions : List FunctionDef := []
  failures : List Failure := []
  deriving Repr

namespace Decompilation

def function? (d : Decompilation) (name : String) : Option FunctionDef :=
  d.functions.find? fun f => f.name = name

def failure? (d : Decompilation) (name : String) : Option Failure :=
  d.failures.find? fun f => f.routine = name

/-- The functions with an empty line between them, then a note for each failure. -/
def text (d : Decompilation) : String :=
  let functions := d.functions.map fun f => f.text ++ "\n"
  let failures := d.failures.map fun f =>
    "// " ++ f.routine ++ " not decompiled: " ++ f.error.message ++ "\n"
  String.intercalate "\n" functions ++ String.join failures

end Decompilation

inductive DecompileError where
  | graph (e : GraphError)
  | entry (e : UnknownEntry)
  deriving DecidableEq, Repr

def DecompileError.messages : DecompileError → List String
  | .graph e => ["cannot build basic blocks", e.message]
  | .entry e => [e.message]

def Routine.decompile (r : Routine) (p : Program) (g : Graph) (rs : Routines) (o : Options) :
    Except GenerationError FunctionDef × Journal :=
  let layout := Layout.ofRoutine g r
  let (tree, arranging) := layout.tree
  let generator : Generator :=
    { program := p, graph := g, routines := rs, routine := r, maxInline := o.maxInlineExpression }
  let (result, generating) := generator.generate tree
  let lost := match result with
    | .ok _ => []
    | .error e => [Entry.warn ("[decompile] " ++ r.name ++ ": " ++ e.message)]
  (result, layout.loops.journal ++ arranging ++ generating ++ lost)

def Routines.decompile (rs : Routines) (p : Program) (g : Graph) (o : Options) :
    Decompilation × Journal :=
  let results := rs.all.map fun r => (r.name, r.decompile p g rs o)
  let functions := results.filterMap fun (_, result, _) => result.toOption
  let failures := results.filterMap fun (name, result, _) =>
    match result with
    | .ok _ => none
    | .error error => some { routine := name, error }
  ({ functions, failures }, results.flatMap fun (_, _, journal) => journal)

/-- Decompiles a program. The journal is kept also when that fails. -/
def Program.decompile (p : Program) (o : Options) : Except DecompileError Decompilation × Journal :=
  match Graph.ofProgram p with
  | (.error e, journal) => (.error (.graph e), journal)
  | (.ok g, building) =>
    match o.roots g with
    | .error e => (.error (.entry e), building)
    | .ok [] => (.ok {}, building)
    | .ok roots =>
      let (rs, dividing) := Routines.ofGraph g roots
      let summary := Entry.info ("[decompile] " ++ toString g.size ++ " blocks in " ++
        toString rs.all.length ++ " functions")
      let (d, journal) := rs.decompile p g o
      (.ok d, building ++ dividing ++ summary :: journal)

end Lift6502
