import Lift6502.Code.Expression

/-!
# Statements and functions of decompiled code

The traversals list a statement's descendants with parents first, or rebuild a statement with
children first.
-/

namespace Lift6502

inductive LoopTest where
  | whileTrue (condition : Expression)
  | doWhile (condition : Expression)
  | forever
  deriving DecidableEq, Repr

def LoopTest.condition? : LoopTest → Option Expression
  | .whileTrue condition | .doWhile condition => some condition
  | .forever => none

inductive Statement where
  | assign (target : Variable) (value : Expression)
  | store (address value : Expression)
  | cond (condition : Expression) (thenBranch elseBranch : List Statement)
  | loop (test : LoopTest) (label : Option String) (body : List Statement)
  | breakLoop (label : Option String)
  | continueLoop (label : Option String)
  /-- Leaves the function with a value for each register it returns. -/
  | ret (values : List (Register × Expression))
  | call (function : String) (arguments : List (Register × Expression))
      (results : List (Register × Variable))
  | note (text : String)
  deriving Repr

namespace Statement

def children : Statement → List Statement
  | .cond _ thenBranch elseBranch => thenBranch ++ elseBranch
  | .loop _ _ body => body
  | _ => []

mutual

def descendants : Statement → List Statement
  | .cond c t e => .cond c t e :: (listDescendants t ++ listDescendants e)
  | .loop k l b => .loop k l b :: listDescendants b
  | s => [s]

def listDescendants : List Statement → List Statement
  | [] => []
  | s :: rest => s.descendants ++ listDescendants rest

end

mutual

def count : Statement → Nat
  | .cond _ t e => 1 + listCount t + listCount e
  | .loop _ _ b => 1 + listCount b
  | _ => 1

def listCount : List Statement → Nat
  | [] => 0
  | s :: rest => s.count + listCount rest

end

def pushAll (stack statements : List Statement) : List Statement :=
  statements.reverse.foldl (fun stack s => s :: stack) stack

/-- Visits the top of the stack and pushes what is directly inside it. -/
def next? : List Statement → Option (Statement × List Statement)
  | [] => none
  | .cond c t e :: stack => some (.cond c t e, pushAll (pushAll stack e) t)
  | .loop k l b :: stack => some (.loop k l b, pushAll stack b)
  | s :: stack => some (s, stack)

/-- The walk that keeps what is still to be visited on a stack. The fuel bounds the visits. -/
def walk : Nat → List Statement → List Statement
  | 0, _ => []
  | fuel + 1, stack =>
    match next? stack with
    | none => []
    | some (s, stack) => s :: walk fuel stack

def walkAll (statements : List Statement) : List Statement :=
  walk (listCount statements) (pushAll [] statements)

mutual

/-- Rebuilds a statement with `f`, the statements inside it first, threading a state. -/
def rebuild {σ : Type} (f : Statement → σ → Statement × σ) : Statement → σ → Statement × σ
  | .cond c t e, s =>
    let (t, s) := rebuildAll f t s
    let (e, s) := rebuildAll f e s
    f (.cond c t e) s
  | .loop k l b, s =>
    let (b, s) := rebuildAll f b s
    f (.loop k l b) s
  | statement, s => f statement s

def rebuildAll {σ : Type} (f : Statement → σ → Statement × σ) :
    List Statement → σ → List Statement × σ
  | [], s => ([], s)
  | statement :: rest, s =>
    let (statement, s) := rebuild f statement s
    let (rest, s) := rebuildAll f rest s
    (statement :: rest, s)

end

def expressions : Statement → List Expression
  | .assign _ value => [value]
  | .store address value => [address, value]
  | .cond condition _ _ => [condition]
  | .loop test _ _ => test.condition?.toList
  | .ret values => values.map (·.2)
  | .call _ arguments _ => arguments.map (·.2)
  | .breakLoop _ | .continueLoop _ | .note _ => []

def defines : Statement → List Variable
  | .assign v _ => [v]
  | .call _ _ results => results.map (·.2)
  | _ => []

end Statement

structure FunctionDef where
  name : String
  inputs : List Register
  outputs : List Register
  body : List Statement
  /-- False when the body is a dispatch loop. -/
  structured : Bool
  deriving Repr

def FunctionDef.statements (f : FunctionDef) : List Statement := Statement.walkAll f.body

end Lift6502
