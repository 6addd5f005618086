import Lift6502.Proofs.Tree.Run
import Lift6502.Proofs.Yields

/-!
# Running decompiled code without counting steps

`Statement.run` runs code like `Evaluator.exec`, but only the passes of each loop are counted.
-/

namespace Lift6502

open Evaluator (isFor)

structure Scene where
  env : Environment
  memory : Memory addressCount

/-- A rule for calling functions: what comes back, and the memory afterwards. -/
abbrev Caller :=
  String → RegisterValues → Memory addressCount →
    Except EvalError (RegisterValues × Memory addressCount)

abbrev CodeRun := Except EvalError (Control × Scene)

abbrev CodePass := Except EvalError (Scene ⊕ (Control × Scene))

namespace Scene

def value (function : String) (e : Expression) (s : Scene) : Except EvalError UInt32 :=
  e.eval function s.env s.memory

def assign (s : Scene) (v : Variable) (value : UInt32) : Scene :=
  { s with env := s.env.set v value }

def store (function : String) (address value : Expression) (s : Scene) :
    Except EvalError Scene := do
  let address ← s.value function address
  if inside : address.toNat < addressCount then
    let value ← s.value function value
    if 0xff < value then .error (.notAByte function value)
    else .ok { s with memory := s.memory.set address.toNat value.toUInt8 inside }
  else .error (.addressOutOfRange function address)

def registerValues (function : String) (s : Scene) (known : RegisterValues) :
    List (Register × Expression) → Except EvalError RegisterValues
  | [] => .ok known
  | (r, e) :: rest => do
    let value ← s.value function e
    s.registerValues function (known.set r (some value)) rest

def takeResults (callee : String) (returned : RegisterValues) (s : Scene) :
    List (Register × Variable) → Except EvalError Scene
  | [] => .ok s
  | (r, v) :: rest =>
    match returned.get r with
    | some value => takeResults callee returned (s.assign v value) rest
    | none => .error (.missingArgument callee r)

def call (caller : Caller) (function callee : String) (arguments : List (Register × Expression))
    (results : List (Register × Variable)) (s : Scene) : Except EvalError Scene := do
  let passed ← s.registerValues function .none arguments
  let (returned, memory) ← caller callee passed s.memory
  takeResults callee returned { s with memory } results

end Scene

namespace Statement

def endOfPass (function : String) (test : LoopTest) (s : Scene) : CodePass :=
  match test with
  | .doWhile condition => do
    if (← s.value function condition) == 0 then return .inr (.normal, s) else return .inl s
  | _ => .ok (.inl s)

def afterBody (function : String) (test : LoopTest) (label : Option String) :
    Control × Scene → CodePass
  | (.breakLoop target, s) =>
    .ok (.inr (if isFor label target then .normal else .breakLoop target, s))
  | (.continueLoop target, s) =>
    if isFor label target then endOfPass function test s else .ok (.inr (.continueLoop target, s))
  | (.returned values, s) => .ok (.inr (.returned values, s))
  | (.normal, s) => endOfPass function test s

def pass (function : String) (test : LoopTest) (label : Option String) (body : Scene → CodeRun)
    (s : Scene) : CodePass :=
  match test with
  | .whileTrue condition => do
    if (← s.value function condition) == 0 then return .inr (.normal, s)
    else afterBody function test label (← body s)
  | _ => do afterBody function test label (← body s)

mutual

/-- Runs a statement. Every loop in it takes at most `fuel` passes each time it is entered. -/
def run (fuel : Nat) (caller : Caller) (function : String) :
    Statement → Scene → CodeRun
  | .assign v e, s => return (.normal, s.assign v (← s.value function e))
  | .store address e, s => return (.normal, ← s.store function address e)
  | .cond condition thenBranch elseBranch, s => do
    if (← s.value function condition) != 0 then runAll fuel caller function thenBranch s
    else runAll fuel caller function elseBranch s
  | .loop test label body, s =>
    runPasses (.stepLimit fuel) (pass function test label (runAll fuel caller function body)) fuel s
  | .breakLoop label, s => .ok (.breakLoop label, s)
  | .continueLoop label, s => .ok (.continueLoop label, s)
  | .ret values, s => return (.returned (← s.registerValues function .none values), s)
  | .call callee arguments results, s =>
    return (.normal, ← s.call caller function callee arguments results)
  | .note _, s => .ok (.normal, s)

def runAll (fuel : Nat) (caller : Caller) (function : String) :
    List Statement → Scene → CodeRun
  | [], s => .ok (.normal, s)
  | statement :: rest, s =>
    match statement.run fuel caller function s with
    | .error e => .error e
    | .ok (.normal, s) => runAll fuel caller function rest s
    | .ok r => .ok r

end

theorem runAll_append (fuel : Nat) (caller : Caller) (function : String) (l k : List Statement)
    (s : Scene) :
    runAll fuel caller function (l ++ k) s =
      match runAll fuel caller function l s with
      | .error e => .error e
      | .ok (.normal, s) => runAll fuel caller function k s
      | .ok r => .ok r := by
  induction l generalizing s with
  | nil => simp [runAll]
  | cons statement rest ih =>
    rw [List.cons_append, runAll, runAll]
    rcases statement.run fuel caller function s with e | ⟨control, s'⟩
    · rfl
    · cases control with
      | normal => exact ih s'
      | breakLoop | continueLoop | returned => rfl

end Statement

namespace Evaluator

/-- Calls a function inside which `depth` more calls may be nested. -/
def callUntimed (functions : List FunctionDef) (fuel : Nat) : Nat → Caller
  | 0, name, _, _ =>
    match Evaluator.function? { functions, limit := fuel } name with
    | none => .error (.unknownFunction name)
    | some _ => .error .callDepth
  | depth + 1, name, arguments, memory =>
    match Evaluator.function? { functions, limit := fuel } name with
    | none => .error (.unknownFunction name)
    | some f => do
      let env ← inputs name arguments {} f.inputs
      let result ← Statement.runAll fuel (callUntimed functions fuel depth) name f.body
        ⟨env, memory⟩
      match result with
      | (.returned values, s) => return (values, s.memory)
      | (.normal, _) => .error (.noReturn name)
      | (.breakLoop label, _) | (.continueLoop label, _) => .error (.strayJump name label)

end Evaluator

namespace Evaluator

def argumentWords (arguments : PerRegister (Option UInt8)) : RegisterValues :=
  .ofFn fun r => (arguments.get r).map UInt8.toUInt32

variable {n : Nat} {ev : Evaluator} {name : String} {arguments : PerRegister (Option UInt8)}
  {memory : Memory n} {m : Machine n}

theorem call_of_invoke_error {e : EvalError}
    (h : ((ev.invoke maxCallDepth name (argumentWords arguments)).run.run { memory }).1 =
      .error e) :
    (ev.call name arguments memory).1 = .error e := by
  rw [argumentWords] at h
  rw [call]
  split
  case h_1 hrun => rw [hrun] at h; cases h
  case h_2 hrun => rw [hrun] at h; cases h; rfl

theorem call_of_invoke_ok {values : RegisterValues}
    (h : (ev.invoke maxCallDepth name (argumentWords arguments)).run.run { memory } =
      (.ok values, m)) :
    ev.call name arguments memory = (outputs name values, m.steps, m.memory) := by
  rw [argumentWords] at h
  simp only [call, h]

end Evaluator

end Lift6502
