import Lift6502.Generate.Instruction

/-!
# Code for blocks and loops

Every location that a loop may change is carried in a variable, which is assigned before the loop
and at each jump to its header. A location that has no value at such a jump is not carried: the loop
is generated again without it. A loop whose breaks do not agree is generated once more, so that each
break can assign the variables of the result.
-/

namespace Lift6502.Generator

open Gen

def noteHidden (block : Block) (index : Nat) : Gen Unit :=
  match block.hiddenAt? index with
  | some e => emit (.note ("skips `" ++ e.hidden.text ++ "` (entered at " ++ e.label ++ ")"))
  | none => return ()

def instructions (c : Generator) (name : String) (block : Block) :
    Nat → List Instruction → SymbolicState → Gen (Option SymbolicState)
  | _, [], s => return some s
  | index, i :: rest, s => do
    noteHidden block index
    match ← c.instruction { name, block, index, instruction := i } s with
    | some s => c.instructions name block (index + 1) rest s
    | none => return none

variable (c : Generator)

/-- A block; one that leads nowhere ends with a return. -/
def block (b : BlockId) (s : SymbolicState) : Gen (Option SymbolicState) := do
  let name := c.graph.name b
  let block := c.graph.block b
  match ← c.instructions name block 0 block.code s with
  | none => return none
  | some s =>
    if block.successors.isEmpty then
      c.ret s name
      return none
    else return some s

structure LoopTask where
  kind : LoopKind
  header : BlockId
  name : String
  condition : Option Condition
  label : Option String
  modified : LocationSet
  body : PathGen

def writtenBy (b : BlockId) : LocationSet :=
  let block := c.graph.block b
  (block.code.mapIdx fun index i =>
      let called := if i.opcode = .jsr then (block.callAt? index).bind c.routines.atEntry? else none
      i.effects.writes.union (LocationSet.ofRegisters (called.elim ∅ Routine.clobbers))).foldl
    LocationSet.union ∅

def modifiedBy (header : BlockId) (body : List ControlNode) : LocationSet :=
  let inside := (ControlNode.listDescendants body).filterMap fun node =>
    match node with
    | .block b => some b
    | .loop _ header .. => some header
    | _ => none
  ((header :: inside).map c.writtenBy).foldl LocationSet.union ∅

/-- What a jump to the header of a loop assigns: each variable of the loop that does not hold its
value already. -/
def headerAssignments (phis : Carriers) (s : SymbolicState) : List (Variable × Expression) :=
  phis.toList.filterMap fun (l, phi) =>
    (s.expression? l).bind fun value => if value = .var phi then none else some (phi, value)

def lostAt (phis : Carriers) (s : SymbolicState) : LocationSet :=
  .ofList (phis.toList.filterMap fun (l, _) => if (s.expression? l).isNone then some l else none)

/-- Assigns the variables of the loop at a jump to its header. The loop is given by its position
among those around the current point. -/
def jumpToHeader (position : Nat) (s : SymbolicState) : Gen Unit := do
  match (← get).frames[position]? with
  | none => return ()
  | some frame =>
    if s.stack ≠ frame.stack then
      throw (.stackMismatch frame.header frame.stack.length s.depth)
    else
      let noted := { frame with widened := frame.widened.union (lostAt frame.phis s) }
      modify fun p => { p with frames := p.frames.set position noted }
      assignAtOnce (headerAssignments frame.phis s)

/-- The position of the loop that a jump names: the innermost one, or the innermost one
with the label. -/
def jumpPosition? (label : Option String) (frames : List Frame) : Option Nat :=
  match label with
  | none => if frames.isEmpty then none else some 0
  | some label => frames.findIdx? fun (f : Frame) => f.label == some label

def framePosition (label : Option String) : Gen Nat := do
  match jumpPosition? label (← get).frames with
  | some position => return position
  | none => throw (.unsupported c.routine.name
      ("jump to loop " ++ label.getD "?" ++ " from outside it"))

def resumeLoop (label : Option String) (s : SymbolicState) :
    Gen (Option SymbolicState) := do
  jumpToHeader (← c.framePosition label) s
  emit (.continueLoop label)
  return none

/-- Assigns the variables of a loop's result at a break, and keeps its state. -/
def recordBreak (position : Nat) (s : SymbolicState) : Gen Unit := do
  match (← get).frames[position]? with
  | none => return ()
  | some frame =>
    (frame.follow.getD .empty).toList.forM fun (l, v) => do
      emit (.assign v (← read s l frame.header))
    let noted := { frame with breaks := frame.breaks ++ [s] }
    modify fun p => { p with frames := p.frames.set position noted }

def leaveLoop (label : Option String) (s : SymbolicState) :
    Gen (Option SymbolicState) := do
  recordBreak (← c.framePosition label) s
  emit (.breakLoop label)
  return none

/-- What is read after the jump to the header of a loop tested at its end: a value that mentions a
variable of the loop is copied before the jump assigns it. -/
def stateAfterTest (phis : Carriers) (s : SymbolicState) : Gen SymbolicState :=
  Location.all.foldlM
    (fun after l => do
      match phis.get l, s.expression? l with
      | some phi, _ => return after.set l (.ofVariable phi)
      | none, some value =>
        if (s.get l).mentionsOneOf phis.carried then
          return after.set l (.ofExpression (← keepInTemp value))
        else return after
      | none, none => return after)
    s

def passBody (task : LoopTask) (s : SymbolicState) : Gen Unit := do
  match ← task.body s with
  | none => return ()
  | some s => jumpToHeader 0 s

/-- The end of a pass that is tested there: the jump back, the test, and the state
after it fails. -/
def passEnd (condition : Condition) (phis : Carriers) (s : SymbolicState) :
    Gen (Expression × SymbolicState) := do
  let test ← c.condition condition s
  let test ← (if test.mentionsOneOf phis.carried then keepInTemp test else pure test :
    Gen Expression)
  let exit ← stateAfterTest phis s
  jumpToHeader 0 s
  return (test, exit)

/-- One pass of a loop tested at its end; nothing if the end of the body is never reached. -/
def testedPass (task : LoopTask) (condition : Condition) (phis : Carriers)
    (entry : SymbolicState) : Gen (Option (Expression × SymbolicState)) := do
  match ← task.body entry with
  | none => return none
  | some s => some <$> c.passEnd condition phis s

/-- The statement of a loop. Gives the state after its test fails, if it has one. -/
def emitLoop (task : LoopTask) (phis : Carriers) (entry : SymbolicState) :
    Gen (Option SymbolicState) :=
  match task.kind, task.condition with
  | .postTest, some condition => do
    let (tested, body) ← capture (c.testedPass task condition phis entry)
    match tested with
    | none =>
      emit (.loop .forever task.label body)
      return none
    | some (test, exit) =>
      emit (.loop (.doWhile test) task.label body)
      return some exit
  | .preTest, some condition => do
    let (tested, header) ← capture (c.block task.header entry)
    match tested with
    | none => throw (.unsupported task.name "loop without a test")
    | some tested =>
      let test ← c.condition condition tested
      let ((), body) ← capture (passBody task tested)
      emit (testedBefore test task.label header body)
      return some tested
  | .infinite, _ => do
    let ((), body) ← capture (passBody task entry)
    emit (.loop .forever task.label body)
    return none
  | .postTest, none | .preTest, none => throw (.unsupported task.name "loop without a test")
where
  /-- A header with statements of its own has to run before each test. -/
  testedBefore (test : Expression) (label : Option String) (header body : List Statement) :
      Statement :=
    if header.isEmpty then .loop (.whileTrue test) label body
    else .loop .forever label (header ++ .cond test.mkNot [.breakLoop none] [] :: body)

structure Attempt where
  statements : List Statement
  widened : LocationSet
  breaks : List SymbolicState
  testExit : Option SymbolicState
  deriving Repr

/-- The variables that carry the changed locations, assigned from the state before the loop, and
the state at the header. -/
def enterLoop (task : LoopTask) (s : SymbolicState) (widened : LocationSet) :
    Gen (Carriers × SymbolicState) :=
  task.modified.toList.foldlM
    (fun (phis, entry) l => do
      match s.expression? l with
      | some value =>
        if l ∈ widened then return (phis, lose entry l)
        else
          let phi ← newMerge l
          emit (.assign phi value)
          return (phis.set l (some phi), entry.set l (.ofVariable phi))
      | none => return (phis, lose entry l))
    (Carriers.empty, s)
where
  lose (entry : SymbolicState) (l : Location) : SymbolicState :=
    entry.set l (.unresolved ("changed around loop " ++ task.name))

/-- Generates a loop without carrying the locations in `widened`; each break assigns the variables
in `follow`. -/
def attempt (task : LoopTask) (s : SymbolicState) (widened : LocationSet)
    (follow : Option Carriers) : Gen Attempt := do
  let ((frame, testExit), statements) ← capture do
    let (phis, entry) ← enterLoop task s widened
    let frame : Frame :=
      { label := task.label, header := task.name, phis, stack := s.stack, follow }
    modify fun p => { p with frames := frame :: p.frames }
    let testExit ← c.emitLoop task phis entry
    let finished := (← get).frames.headD frame
    modify fun p => { p with frames := p.frames.tail }
    return (finished, testExit)
  return { statements, widened := frame.widened, breaks := frame.breaks, testExit }

/-- Variables for the locations whose value the breaks do not agree on. -/
def breakCarriers (breaks : List SymbolicState) : Gen Carriers :=
  match breaks with
  | [] => return .empty
  | first :: _ =>
    Location.all.foldlM
      (fun plan l => do
        let differs := breaks.any fun s => s.get l != first.get l
        let resolved := breaks.all fun s => (s.get l).isKnown
        if differs && resolved then return plan.set l (some (← newMerge l)) else return plan)
      Carriers.empty

/-- The state after a loop: after its test fails, or where its breaks meet. -/
def afterLoop (name : String) (a : Attempt) (follow : Option Carriers) :
    Gen (Option SymbolicState) := do
  match a.testExit, a.breaks with
  | some exit, [] => return some exit
  | some _, _ :: _ => throw (.unsupported name "loop left both by its test and by break")
  | none, [] => return none
  | none, first :: others =>
    let stack ← MonadExcept.ofExcept (joinStacks first others name)
    let bindings := PerLocation.ofFn fun l =>
      match (follow.getD .empty).get l with
      | some v => .ofVariable v
      | none =>
        if others.all fun s => s.get l == first.get l then first.get l
        else .unresolved ("differs between exits of loop " ++ name)
    return some { bindings, stack }

/-- Attempts, each of which takes back what the one before it has noted, until one loses nothing
more and its breaks agree. Each attempt but the last loses a location or follows one that did, so
there are two for each location and two more. -/
def attempts (c : Generator) (task : LoopTask) (s : SymbolicState) (start : Progress) :
    Nat → LocationSet → Option Carriers → Nat → Gen (Option SymbolicState)
  | 0, _, _, _ => throw (.unsupported task.name "loop")
  | rounds + 1, widened, follow, reserved => do
    modify fun p => p.repair start
    let a ← c.attempt task s widened follow
    modify fun p => { p with merges := max p.merges reserved }
    if !a.widened.subset widened then
      note (.debug ("[codegen] loop " ++ task.name ++ ": no single value around the loop for " ++
        a.widened.journalText))
      c.attempts task s start rounds (widened.union a.widened) none reserved
    else
      let plan ← (if follow.isSome then pure Carriers.empty else breakCarriers a.breaks :
        Gen Carriers)
      if plan.isEmpty then
        emitAll a.statements
        afterLoop task.name a follow
      else c.attempts task s start rounds widened (some plan) (← get).merges

def loop (task : LoopTask) (s : SymbolicState) : Gen (Option SymbolicState) := do
  let start ← get
  c.attempts task s start (2 * (Location.all.length + 1)) ∅ none start.merges

end Lift6502.Generator
