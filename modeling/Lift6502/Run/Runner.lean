import Lift6502.Run.Evaluator

/-!
# Several calls of one evaluator

From one call to the next an evaluator keeps the memory, the steps of the last call and the number
of calls that are open.
-/

namespace Lift6502

/-- Runs that keep the number of open calls beside the machine. -/
abbrev CountedRun (n : Nat) := ExceptT EvalError (StateT (Machine n) (StateM Nat))

/-- What an evaluator keeps from one call from outside to the next. -/
structure Runner (n : Nat) where
  memory : Memory n
  steps : Nat := 0
  depth : Nat := 0

namespace Evaluator

variable {n : Nat}

/-- Counts a call as open while its body runs. -/
def whileOpen {α : Type} (body : CountedRun n α) : CountedRun n α := do
  modifyThe Nat (· + 1)
  let result ← ExceptT.lift body.run
  modifyThe Nat (· - 1)
  MonadExcept.ofExcept result

/-- Runs a function, unless too many calls are open. The fuel bounds how deep calls can nest and is
not used up before. -/
def enter (ev : Evaluator) : Nat → String → RegisterValues → CountedRun n RegisterValues
  | 0, name, _ =>
    match ev.function? name with
    | none => throw (.unknownFunction name)
    | some _ => throw .callDepth
  | fuel + 1, name, arguments =>
    match ev.function? name with
    | none => throw (.unknownFunction name)
    | some f => do
      if maxCallDepth ≤ (← getThe Nat) then throw .callDepth
      let env ← MonadExcept.ofExcept (inputs name arguments {} f.inputs)
      let outer := (← get).env
      modify fun m => { m with env }
      let control ← whileOpen (ev.execAll (ev.enter fuel) name f.body)
      modify fun m => { m with env := outer }
      match control with
      | .returned values => return values
      | .normal => throw (.noReturn name)
      | .breakLoop label | .continueLoop label => throw (.strayJump name label)

end Evaluator

namespace Runner

variable {n : Nat}

open Evaluator

/-- A call from outside. The steps are counted anew. -/
def call (ev : Evaluator) (r : Runner n) (name : String) (arguments : PerRegister (Option UInt8)) :
    Except EvalError (List (Register × UInt8)) × Runner n :=
  let arguments := PerRegister.ofFn fun r => (arguments.get r).map UInt8.toUInt32
  let ((result, m), depth) :=
    ((ev.enter maxCallDepth name arguments).run.run { memory := r.memory }).run r.depth
  (result >>= outputs name, { memory := m.memory, steps := m.steps, depth })

def callAll (ev : Evaluator) (r : Runner n) (calls : List (String × PerRegister (Option UInt8))) :
    Runner n :=
  calls.foldl (fun r c => (r.call ev c.1 c.2).2) r

end Runner

end Lift6502
