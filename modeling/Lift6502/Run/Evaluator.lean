import Lift6502.Code.Statement
import Lift6502.Run.Environment
import Lift6502.Run.Memory

/-!
# Running decompiled code

Addresses and stored values have to be in range already, so that a missing mask shows. Each
statement and each pass of a loop is a step, and a call from outside may take only so many steps.
-/

namespace Lift6502

def Variable.form : Variable → String
  | .temp id => "Temp(" ++ toString id ++ ")"
  | .merge l id => "Merge \x7b location: " ++ l.title ++ ", id: " ++ toString id ++ " \x7d"
  | .input r => "Input(" ++ r.title ++ ")"
  | .dispatch => "Dispatch"

inductive EvalError where
  | unknownFunction (name : String)
  | unassigned (function : String) (v : Variable)
  | missingArgument (function : String) (r : Register)
  | addressOutOfRange (function : String) (address : UInt32)
  | notAByte (function : String) (value : UInt32)
  | noReturn (function : String)
  /-- A break or continue that no loop of the function takes. -/
  | strayJump (function : String) (label : Option String)
  | stepLimit (limit : Nat)
  | callDepth
  deriving DecidableEq, Repr

def EvalError.message : EvalError → String
  | .unknownFunction name => "no function named `" ++ name ++ "`"
  | .unassigned function v => function ++ ": `" ++ v.form ++ "` read before assignment"
  | .missingArgument function r => function ++ ": argument " ++ r.text ++ " not passed"
  | .addressOutOfRange function address =>
    function ++ ": address " ++ Text.hex 1 address.toNat ++ " is outside memory"
  | .notAByte function value =>
    function ++ ": stored value " ++ Text.hex 1 value.toNat ++ " is not a byte"
  | .noReturn function => function ++ ": ends without returning"
  | .strayJump function label =>
    function ++ ": `jump to " ++ label.getD "innermost loop" ++ "` escapes every enclosing loop"
  | .stepLimit limit => "no return after " ++ toString limit ++ " statements"
  | .callDepth => "calls nested deeper than 256"

def Expression.eval {n : Nat} (function : String) (env : Environment) (memory : Memory n) :
    Expression → Except EvalError UInt32
  | .literal value => .ok value
  | .bool value => .ok value.toUInt32
  | .var v =>
    match env.get? v with
    | some value => .ok value
    | none => .error (.unassigned function v)
  | .memory address => do
    let address ← address.eval function env memory
    match memory[address.toNat]? with
    | some byte => .ok byte.toUInt32
    | none => .error (.addressOutOfRange function address)
  | .unary op operand => return op.eval (← operand.eval function env memory)
  | .binary op lhs rhs => do
    let l ← lhs.eval function env memory
    let r ← rhs.eval function env memory
    return op.eval l r

abbrev RegisterValues := PerRegister (Option UInt32)

def RegisterValues.none : RegisterValues := .ofFn fun _ => Option.none

structure Machine (n : Nat) where
  env : Environment := {}
  memory : Memory n
  steps : Nat := 0

abbrev Run (n : Nat) := ExceptT EvalError (StateM (Machine n))

inductive Control where
  | normal
  | breakLoop (label : Option String)
  | continueLoop (label : Option String)
  | returned (values : RegisterValues)
  deriving DecidableEq, Repr

structure Evaluator where
  /-- Of several functions with one name the last one runs. -/
  functions : List FunctionDef
  limit : Nat
  deriving Repr

namespace Evaluator

variable {n : Nat} {M : Type → Type} [Monad M] [MonadState (Machine n) M]
  [MonadExceptOf EvalError M]

abbrev Invoker (n : Nat) := String → RegisterValues → Run n RegisterValues

def function? (ev : Evaluator) (name : String) : Option FunctionDef :=
  ev.functions.reverse.find? fun f => f.name = name

def tick (ev : Evaluator) : M Unit := do
  modify fun m => { m with steps := m.steps + 1 }
  if ev.limit < (← get).steps then throw (.stepLimit ev.limit)

def value (function : String) (e : Expression) : M UInt32 := do
  let m ← get
  MonadExcept.ofExcept (e.eval function m.env m.memory)

def assign (v : Variable) (value : UInt32) : M Unit :=
  modify fun m => { m with env := m.env.set v value }

/-- Stores a byte; the address is checked before the value is computed. -/
def store (function : String) (address value : Expression) : M Unit := do
  let address ← Evaluator.value function address
  if inside : address.toNat < n then
    let value ← Evaluator.value function value
    if 0xff < value then throw (.notAByte function value)
    modify fun m => { m with memory := m.memory.set address.toNat value.toUInt8 inside }
  else throw (.addressOutOfRange function address)

/-- The values of some registers; of several for one register the last one counts. -/
def registerValues (function : String) (values : List (Register × Expression)) : M RegisterValues :=
  values.foldlM (fun known (r, e) => return known.set r (some (← value function e))) .none

def takeResults (callee : String) (returned : RegisterValues) :
    List (Register × Variable) → M Unit
  | [] => return ()
  | (r, v) :: rest => do
    match returned.get r with
    | some value => assign v value
    | none => throw (.missingArgument callee r)
    takeResults callee returned rest

def fails (function : String) (condition : Expression) : M Bool :=
  return (← value function condition) == 0

/-- A jump is for the loop if it names none or this one. -/
def isFor (label target : Option String) : Bool := target.isNone || target == label

/-- The test after a pass; nothing if another one follows, and otherwise how the loop ends. -/
def endOfPass (function : String) : LoopTest → M (Option Control)
  | .doWhile condition => do
    if (← fails function condition) then return some .normal else return none
  | _ => return none

def afterBody (function : String) (test : LoopTest) (label : Option String) :
    Control → M (Option Control)
  | .breakLoop target =>
    return some (if isFor label target then .normal else .breakLoop target)
  | .continueLoop target =>
    if isFor label target then endOfPass function test else return some (.continueLoop target)
  | .returned values => return some (.returned values)
  | .normal => endOfPass function test

/-- One pass of a loop; nothing if another one follows, and otherwise how the loop ends. -/
def pass (ev : Evaluator) (function : String) (test : LoopTest) (label : Option String)
    (body : M Control) : M (Option Control) := do
  ev.tick
  match test with
  | .whileTrue condition =>
    if (← fails function condition) then return some .normal
    else afterBody function test label (← body)
  | _ => afterBody function test label (← body)

/-- Passes until one ends the loop. Each pass is a step, so there are not more of them than steps
are allowed. -/
def repeatPass (ev : Evaluator) (pass : M (Option Control)) : Nat → M Control
  | 0 => throw (.stepLimit ev.limit)
  | fuel + 1 => do
    match ← pass with
    | some control => return control
    | none => ev.repeatPass pass fuel

mutual

def exec (ev : Evaluator) (invoke : String → RegisterValues → M RegisterValues)
    (function : String) : Statement → M Control
  | .assign v e => do
    assign v (← value function e)
    return .normal
  | .store address e => do
    store function address e
    return .normal
  | .cond condition thenBranch elseBranch => do
    if (← value function condition) != 0 then ev.execAll invoke function thenBranch
    else ev.execAll invoke function elseBranch
  | .loop test label body =>
    ev.repeatPass (ev.pass function test label (ev.execAll invoke function body)) (ev.limit + 1)
  | .breakLoop label => return .breakLoop label
  | .continueLoop label => return .continueLoop label
  | .ret values => return .returned (← registerValues function values)
  | .call callee arguments results => do
    let passed ← registerValues function arguments
    let returned ← invoke callee passed
    takeResults callee returned results
    return .normal
  | .note _ => return .normal

def execAll (ev : Evaluator) (invoke : String → RegisterValues → M RegisterValues)
    (function : String) : List Statement → M Control
  | [] => return .normal
  | s :: rest => do
    ev.tick
    match ← ev.exec invoke function s with
    | .normal => ev.execAll invoke function rest
    | control => return control

end

def inputs (name : String) (arguments : RegisterValues) (env : Environment) :
    List Register → Except EvalError Environment
  | [] => .ok env
  | r :: rest =>
    match arguments.get r with
    | some value => inputs name arguments (env.set (.input r) value) rest
    | none => .error (.missingArgument name r)

def maxCallDepth : Nat := 256

/-- Runs a function inside which `depth` more calls may be nested. The caller gets its
variables back. -/
def invoke (ev : Evaluator) : Nat → Invoker n
  | 0, name, _ =>
    match ev.function? name with
    | none => throw (.unknownFunction name)
    | some _ => throw .callDepth
  | depth + 1, name, arguments =>
    match ev.function? name with
    | none => throw (.unknownFunction name)
    | some f => do
      let env ← MonadExcept.ofExcept (inputs name arguments {} f.inputs)
      let outer := (← get).env
      modify fun m => { m with env }
      let control ← ev.execAll (ev.invoke depth) name f.body
      modify fun m => { m with env := outer }
      match control with
      | .returned values => return values
      | .normal => throw (.noReturn name)
      | .breakLoop label | .continueLoop label => throw (.strayJump name label)

def outputs (name : String) (values : RegisterValues) :
    Except EvalError (List (Register × UInt8)) :=
  (Register.all.filterMap fun r => (values.get r).map fun value => (r, value)).mapM
  fun (r, value) =>
    if value ≤ 0xff then .ok (r, value.toUInt8) else .error (.notAByte name value)

/-- Runs a function on a memory. Gives its outputs, the steps it took, and the memory, which is
kept also when the function fails. -/
def call (ev : Evaluator) (name : String) (arguments : PerRegister (Option UInt8))
    (memory : Memory n) : Except EvalError (List (Register × UInt8)) × Nat × Memory n :=
  let arguments := PerRegister.ofFn fun r => (arguments.get r).map UInt8.toUInt32
  match ((ev.invoke maxCallDepth name arguments).run.run { memory }) with
  | (.ok values, m) => (outputs name values, m.steps, m.memory)
  | (.error e, m) => (.error e, m.steps, m.memory)

end Evaluator

end Lift6502
