import Lift6502.Decompile
import Lift6502.Proofs.Run.Core
import Lift6502.Proofs.Tree.Run

/-!
# Running the trees of routines on the processor

The blocks of a tree run on a `Core`; a call, and a jump that leaves the routine, runs the tree of
the other routine.
-/

namespace Lift6502

inductive Stop where
  /-- A loop takes more passes than it may. -/
  | limit
  /-- Calls are nested deeper than they may. -/
  | depth
  /-- An instruction cannot be run, or control leaves for nowhere. -/
  | stuck
  /-- Control goes to a routine that has no code. -/
  | missing (name : String)
  deriving DecidableEq, Repr

/-- Runs the arms of a dispatch loop, again and again with the block that was named last, until
control leaves the `members`. -/
def ControlNode.runArms {ε σ : Type} (M : BlockMachine ε σ) (fuel : Nat) (members : BlockSet)
    (arms : List ControlNode) : Nat → BlockId → σ → Except ε (Way × σ)
  | 0, _, _ => .error M.limit
  | passes + 1, next, s =>
    match runAll M fuel next arms s with
    | .error e => .error e
    | .ok (.onward, s) => runArms M fuel members arms passes next s
    | .ok (.away t, s) =>
      if t ∈ members then runArms M fuel members arms passes t s else .ok (.away t, s)
    | .ok r => .ok r

abbrev TreeRun := Except Stop (Way × Core)

abbrev TreePass := Except Stop (Core ⊕ (Way × Core))

abbrev TreeCall := Routine → Core → Except Stop Core

/-- Routines with a meaning of their instructions: what each one works on. -/
structure Setting where
  graph : Graph
  routines : Routines
  work? : Instruction → Cpu → Option Work

namespace Setting

/-- The instructions of a block, from the one at `index` on. A return ends the routine, and so does
the end of a block that leads nowhere. -/
def runCode (S : Setting) (call : TreeCall) (block : Block) :
    Nat → List Instruction → Core → Except Stop (BlockEnd Core)
  | _, [], c => .ok (if block.successors.isEmpty then .finished c else .on c)
  | index, i :: rest, c =>
    match i.opcode with
    | .rts => .ok (.finished c)
    | .jsr =>
      match (block.callAt? index).bind S.routines.atEntry? with
      | none => .error .stuck
      | some callee =>
        match call callee c with
        | .error e => .error e
        | .ok c => S.runCode call block (index + 1) rest c
    | opcode =>
      match c.step (S.work? i c.cpu) opcode with
      | none => .error .stuck
      | some c => S.runCode call block (index + 1) rest c

theorem runCode_cons {S : Setting} {call : TreeCall} {block : Block} {index : Nat} {i : Instruction}
    {rest : List Instruction} (hjsr : i.opcode ≠ .jsr) (hrts : i.opcode ≠ .rts) (c : Core) :
    S.runCode call block index (i :: rest) c =
      match c.step (S.work? i c.cpu) i.opcode with
      | none => .error .stuck
      | some c => S.runCode call block (index + 1) rest c := by
  rw [runCode]
  split
  · next h => exact absurd h hrts
  · next h => exact absurd h hjsr
  · rfl

def machine (S : Setting) (call : TreeCall) : BlockMachine Stop Core where
  run b c := S.runCode call (S.graph.block b) 0 (S.graph.block b).code c
  taken b c :=
    match (S.graph.block b).terminator?.bind fun i => i.opcode.branchCondition? with
    | some (flag, sense) => c.cpu.status.get flag == sense
    | none => false
  limit := .limit

def runTree (S : Setting) (call : TreeCall) (fuel : Nat) (r : Routine)
    (t : ControlTree) (c : Core) : TreeRun :=
  if t.structured then ControlNode.runAll (S.machine call) fuel r.entry t.nodes c
  else
    match t.nodes with
    | [.loop _ _ _ arms _ _] =>
      ControlNode.runArms (S.machine call) fuel r.blocks arms fuel r.entry c
    | _ => .error .stuck

def finish (S : Setting) (call : TreeCall) :
    Way × Core → Except Stop Core
  | (.onward, c) | (.finished, c) => .ok c
  | (.away t, c) =>
    match S.routines.atEntry? t with
    | some callee => call callee c
    | none => .error .stuck
  | (.breakLoop _, _) | (.continueLoop _, _) => .error .stuck

def outcome (S : Setting) (call : TreeCall) :
    TreeRun → Except Stop Core
  | .error e => .error e
  | .ok result => S.finish call result

def enter (S : Setting) (call : TreeCall) (fuel : Nat) (r : Routine)
    (c : Core) : Except Stop Core :=
  S.outcome call (S.runTree call fuel r (Layout.ofRoutine S.graph r).tree.1 c)

/-- Runs a routine inside which `depth` more calls may be nested; every loop takes at most `fuel`
passes each time it is entered. -/
def run (S : Setting) (fuel : Nat) : Nat → Routine → Core → Except Stop Core
  | 0, _, _ => .error .depth
  | depth + 1, r, c => S.enter (S.run fuel depth) fuel r c

/-- Runs a routine like `run`, as far as the routines that control gets to are `coded`. -/
def runCoded (S : Setting) (coded : Routine → Bool) (fuel : Nat) :
    Nat → Routine → Core → Except Stop Core
  | 0, r, _ => .error (if coded r then .depth else .missing r.name)
  | depth + 1, r, c =>
    if coded r then S.enter (S.runCoded coded fuel depth) fuel r c else .error (.missing r.name)

end Setting

end Lift6502
