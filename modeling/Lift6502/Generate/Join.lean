import Lift6502.Generate.Basic
import Lift6502.Tree.Node

/-!
# Where paths meet and end

Tests of conditions, the state after two paths meet, calls and returns.
-/

namespace Lift6502

/-- One stack entry that all states agree on, or one that has lost its value. -/
def mergeEntries (lost : Binding) (first : StackEntry) (others : List StackEntry) : StackEntry :=
  if others.all (· == first) then first
  else
    match first with
    | .status _ => .status (.ofFn fun _ => lost)
    | .byte _ => .byte lost

/-- The stack of several states that meet at a block. They have to have the same depth; an entry
that they do not agree on has no value. -/
def joinStacks (first : SymbolicState) (others : List SymbolicState) (block : String) :
    Except GenerationError (List StackEntry) :=
  match others.find? fun s => s.depth != first.depth with
  | some other => .error (.stackMismatch block first.depth other.depth)
  | none =>
    let lost := Binding.unresolved ("pushed differently on paths into " ++ block)
    .ok (first.stack.mapIdx fun position entry =>
      mergeEntries lost entry (others.filterMap fun s => s.stack[position]?))

namespace Generator

open Gen

def condition (c : Generator) (condition : Condition) (s : SymbolicState) : Gen Expression :=
  match condition with
  | .branch b taken => do
    let name := c.graph.name b
    let test := (c.graph.block b).terminator?.bind fun i => i.opcode.branchCondition?
    match test with
    | none => throw (.unsupported name "condition without a branch")
    | some (flag, sense) =>
      let value ← read s (.flag flag) name
      let branchTaken := if sense then value else value.mkNot
      return if taken then branchTaken else branchTaken.mkNot
  | .dispatch b =>
    return .mkBinary .eq (.var .dispatch) (.literal (UInt32.ofNat b))

/-- The state after two paths meet at `block`, and what each path assigns at its end. A location
with two values gets a variable; one without a value on some path has none. -/
def joinStates (left right : SymbolicState) (block : String) :
    Gen (SymbolicState × List Statement × List Statement) := do
  let stack ← MonadExcept.ofExcept (joinStacks left [right] block)
  let (merged, onLeft, onRight) ← (left.disagreements right).foldlM
    (fun (merged, onLeft, onRight) l => do
      match left.expression? l, right.expression? l with
      | some leftValue, some rightValue =>
        let v ← newMerge l
        return (merged.set l (.ofVariable v), onLeft ++ [Statement.assign v leftValue],
          onRight ++ [Statement.assign v rightValue])
      | _, _ =>
        return (merged.set l (.unresolved ("set on only some paths into " ++ block)), onLeft,
          onRight))
    (left, [], [])
  return ({ merged with stack }, onLeft, onRight)

def join (left right : Option SymbolicState) (block : String) :
    Gen (Option SymbolicState × List Statement × List Statement) :=
  match left, right with
  | some left, some right => do
    let (s, onLeft, onRight) ← joinStates left right block
    return (some s, onLeft, onRight)
  | some s, none | none, some s => return (some s, [], [])
  | none, none => return (none, [], [])

/-- The statement of a conditional; one without a first branch tests the opposite, and an empty one
is left out. -/
def emitConditional (test : Expression) (thenOut elseOut : List Statement) : Gen Unit :=
  match thenOut, elseOut with
  | [], [] => return ()
  | [], elseOut => emit (.cond test.mkNot elseOut [])
  | thenOut, elseOut => emit (.cond test thenOut elseOut)

def conditional (c : Generator) (condition : Condition) (thenBranch elseBranch : PathGen)
    (join : Option BlockId) (s : SymbolicState) : Gen (Option SymbolicState) := do
  let test ← c.condition condition s
  let name := match join, condition with
    | some b, _ | none, .branch b _ | none, .dispatch b => c.graph.name b
  let (thenFlow, thenOut) ← capture (thenBranch s)
  let (elseFlow, elseOut) ← capture (elseBranch s)
  let (joined, onThen, onElse) ← Generator.join thenFlow elseFlow name
  emitConditional test (thenOut ++ onThen) (elseOut ++ onElse)
  return joined

/-- A call. Outputs come back in temporaries; nothing else that the callee writes has a value
after it, and no flag. -/
def call (callee : Routine) (s : SymbolicState) (block : String) : Gen SymbolicState := do
  let arguments ← callee.inputs.toList.mapM fun r => return (r, ← read s (.register r) block)
  let results ← callee.outputs.toList.mapM fun r => return (r, ← newTemp)
  emit (.call callee.name arguments results)
  let lost := (callee.clobbers.diff callee.outputs).toList.map fun r =>
    (Location.register r, Binding.unresolved ("clobbered by " ++ callee.name))
  let flags := Location.flags.map fun l => (l, Binding.unresolved ("set by " ++ callee.name))
  return s.setAll (results.map (fun (r, v) => (Location.register r, Binding.ofVariable v)) ++
    lost ++ flags)

def ret (c : Generator) (s : SymbolicState) (block : String) : Gen Unit :=
  if s.depth ≠ 0 then throw (.stackMismatch block 0 s.depth)
  else do
    let values ← c.routine.outputs.toList.mapM fun r => return (r, ← read s (.register r) block)
    emit (.ret values)

end Generator

end Lift6502
