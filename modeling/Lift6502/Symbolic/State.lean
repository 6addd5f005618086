import Lift6502.Code.Expression

/-!
# Symbolic states

What every register and flag holds at a point of a routine, and what lies on the stack, as values
of decompiled code.
-/

namespace Lift6502

/-- Each cause names the block where it arose. -/
inductive GenerationError where
  /-- A location is read whose value is not known, or differs by path. -/
  | unbound (block : String) (location : Location) (origin : String)
  /-- Paths meet, or the routine ends, with different things on the stack. -/
  | stackMismatch (block : String) (left right : Nat)
  | stackUnderflow (block instruction : String)
  | unsupported (block instruction : String)
  | unresolvedTarget (block instruction : String)
  deriving DecidableEq, Repr

namespace GenerationError

def message : GenerationError → String
  | .unbound block location origin =>
    "block " ++ block ++ ": `" ++ location.text ++ "` has no single value here (" ++ origin ++ ")"
  | .stackMismatch block left right =>
    "block " ++ block ++ ": stack differs where paths meet (depth " ++ toString left ++ " vs " ++
      toString right ++ ")"
  | .stackUnderflow block instruction =>
    "block " ++ block ++ ": `" ++ instruction ++ "` pulls from an empty stack"
  | .unsupported block instruction =>
    "block " ++ block ++ ": `" ++ instruction ++ "` is not supported"
  | .unresolvedTarget block instruction =>
    "block " ++ block ++ ": target of `" ++ instruction ++ "` is not known"

end GenerationError

/-! ## Bindings and states -/

inductive Binding where
  /-- A byte in a register; 0 or 1 in a flag. -/
  | literal (value : UInt32)
  /-- A value made of literals and variables. -/
  | expr (e : Expression)
  /-- There is no single value on every path to this point; `origin` says why. -/
  | unresolved (origin : String)
  deriving DecidableEq, Repr

namespace Binding

def ofExpression : Expression → Binding
  | .literal value => .literal value
  | .bool value => .literal value.toUInt32
  | e => .expr e

def ofVariable (v : Variable) : Binding := .expr (.var v)

def isKnown : Binding → Bool
  | .unresolved _ => false
  | _ => true

/-- The value as an expression of the kind the location has: a number, or a condition for a flag. -/
def expression? (b : Binding) (l : Location) : Option Expression :=
  match b with
  | .literal value => some (if l.isFlag then .bool (value != 0) else .literal value)
  | .expr e => some e
  | .unresolved _ => none

def origin : Binding → String
  | .unresolved origin => origin
  | _ => ""

def mentions (b : Binding) (v : Variable) : Bool :=
  match b with
  | .expr e => e.mentions v
  | _ => false

def mentionsOneOf (b : Binding) (vs : List Variable) : Bool := vs.any b.mentions

end Binding

inductive StackEntry where
  | byte (b : Binding)
  | status (flags : PerFlag Binding)
  deriving DecidableEq, Repr

structure SymbolicState where
  bindings : PerLocation Binding
  /-- The top of the stack first. -/
  stack : List StackEntry := []
  deriving DecidableEq, Repr

namespace SymbolicState

/-- On entry the inputs hold what they were given; nothing else is known. -/
def entry (inputs : RegisterSet) : SymbolicState where
  bindings := .ofFn fun l =>
    match l with
    | .register r => if r ∈ inputs then .ofVariable (.input r) else .unresolved "not set on entry"
    | .flag _ => .unresolved "not set on entry"

def get (s : SymbolicState) (l : Location) : Binding := s.bindings.get l

def set (s : SymbolicState) (l : Location) (b : Binding) : SymbolicState :=
  { s with bindings := s.bindings.set l b }

def setAll (s : SymbolicState) (bs : List (Location × Binding)) : SymbolicState :=
  bs.foldl (fun s (l, b) => s.set l b) s

def expression? (s : SymbolicState) (l : Location) : Option Expression := (s.get l).expression? l

def read (s : SymbolicState) (l : Location) (block : String) : Except GenerationError Expression :=
  match s.expression? l with
  | some e => .ok e
  | none => .error (.unbound block l (s.get l).origin)

def depth (s : SymbolicState) : Nat := s.stack.length

def push (s : SymbolicState) (e : StackEntry) : SymbolicState := { s with stack := e :: s.stack }

def pop? (s : SymbolicState) : Option (StackEntry × SymbolicState) :=
  match s.stack with
  | [] => none
  | e :: rest => some (e, { s with stack := rest })

def disagreements (s t : SymbolicState) : List Location :=
  Location.all.filter fun l => s.get l != t.get l

end SymbolicState

end Lift6502
