import Lift6502.Cli.Arguments
import Lift6502.Cli.Files
import Lift6502.Decompile
import Lift6502.Listing.Reader
import Lift6502.Options.Toml
import Lift6502.Run.Oracle

/-!
# A run of the program

What a run prints is collected, also when it fails, so the program itself has only to show it.
-/

namespace Lift6502.Cli

structure Outcome where
  exit : Nat := 0
  stdout : String := ""
  stderr : String := ""
  journal : Journal := []
  verbosity : Verbosity := .off
  deriving DecidableEq, Repr

namespace Outcome

def print (o : Outcome) (text : String) : Outcome := { o with stdout := o.stdout ++ text }

def complain (o : Outcome) (line : String) : Outcome :=
  { o with stderr := o.stderr ++ line ++ "\n" }

def note (o : Outcome) (entries : Journal) : Outcome := { o with journal := o.journal ++ entries }

end Outcome

/-- Puts blanks before all lines but the first. -/
def indented (width : Nat) (text : String) : String :=
  String.intercalate ("\n" ++ String.ofList (List.replicate width ' '))
    ((Text.fields '\n' text.toList).map String.ofList)

def fiveColumns (n : Nat) : String :=
  let digits := Nat.toDigits 10 n
  String.ofList (List.replicate (5 - digits.length) ' ' ++ digits)

/-- What went wrong, with its causes below it. Two or more causes are numbered. -/
def report : List String → String
  | [] => ""
  | [message] => message
  | [message, cause] => message ++ "\n\nCaused by:\n    " ++ indented 4 cause
  | message :: causes => message ++ "\n\nCaused by:" ++ String.join (causes.mapIdx fun i cause =>
      "\n" ++ fiveColumns i ++ ": " ++ indented 7 cause)

/-- A run may stop with what went wrong, from the general to the particular. -/
abbrev Session (m : Type → Type) := ExceptT (List String) (StateT Outcome m)

variable {m : Type → Type} [Monad m]

def orStop {ε α : Type} (messages : ε → List String) : Except ε α → Session m α
  | .ok value => pure value
  | .error e => throw (messages e)

def fileStep {α : Type} (doing path : String) (step : m (Except FileError α)) : Session m α := do
  let result ← (step : StateT Outcome m _)
  orStop (fun e => [doing ++ " " ++ path, FileError.message e]) result

def readOptions (files : Files m) (r : Request) : Session m Options := do
  match r.config with
  | none => return r.apply {}
  | some path =>
    let source ← fileStep "cannot read options from" path (files.read path)
    return r.apply (← orStop OptionsError.messages (Options.ofToml source))

def loadProgram (files : Files m) (path : String) : Session m Program := do
  let source ← fileStep "cannot read listing" path (files.read path)
  let p ← orStop (fun e => ["in listing " ++ path, ListingError.message e]) (Listing.read source)
  modify (·.note [p.listingEntry, .debug ("[cli] " ++ toString p.lines.length ++
    " lines read from " ++ path)])
  return p

/-- Names the routines without code. Tells whether there are none. -/
def listFailures (d : Decompilation) : Session m Bool := do
  for f in d.failures do
    modify (·.complain ("not decompiled: " ++ f.routine ++ ": " ++ f.error.message))
  modify (·.note [.info ("[cli] " ++ toString d.functions.length ++ " functions decompiled, " ++
    toString d.failures.length ++ " failed")])
  return d.failures.isEmpty

/-- Compares a root with the assembled program. Tells whether they agree. -/
def verifyRoot (oracle : Oracle) (d : Decompilation) (name : String) (seed runs : Nat) :
    Session m Bool := do
  match oracle.check d.functions name seed runs with
  | .ok () =>
    modify (·.complain ("verified " ++ name ++ " (" ++ toString runs ++ " runs)"))
    return true
  | .error e =>
    modify (·.complain ("mismatch: " ++ report e.messages))
    return false

/-- Compares the roots that have code with the assembled program. Only roots return every register
they change, so only they can be compared as a whole. -/
def verify (p : Program) (d : Decompilation) (o : Options) (seed runs : Nat) :
    Session m Bool := do
  let g ← orStop (fun e => [GraphError.message e]) (Graph.ofProgram p).1
  let oracle ← orStop OracleError.messages (Oracle.ofProgram p)
  let roots ← orStop (fun e => [UnknownEntry.message e]) (o.roots g)
  let names := (roots.map g.name).filter fun name => (d.failure? name).isNone
  names.foldlM (fun success name => return (← verifyRoot oracle d name seed runs) && success) true

def deliver (files : Files m) (output : Option String) (text : String) : Session m Unit :=
  match output with
  | none => modify (·.print text)
  | some path => fileStep "cannot write" path (files.write path text)

/-- Carries out a request. Tells whether everything was decompiled and agreed. -/
def execute (files : Files m) (r : Request) : Session m Bool := do
  let o ← readOptions files r
  modify fun outcome => { outcome with verbosity := o.verbosity }
  if r.printOptions then
    let text ← orStop OptionsError.messages o.toToml
    modify (·.print text)
    return true
  let p ← loadProgram files r.listing
  let (result, journal) := p.decompile o
  modify (·.note journal)
  let d ← orStop DecompileError.messages result
  deliver files r.output d.text
  let complete ← listFailures d
  match r.verify with
  | none => return complete
  | some runs => return (← verify p d o (r.seed.getD Request.defaultSeed) runs) && complete

/-- Carries out a request to its end. The exit code is 1 after an error, and 2 if some routine has
no code or differs. -/
def run (files : Files m) (r : Request) : m Outcome := do
  let (result, outcome) ← (execute files r).run.run {}
  return match result with
    | .ok true => outcome
    | .ok false => { outcome with exit := 2 }
    | .error messages => { outcome.complain (report messages) with exit := 1 }

end Lift6502.Cli
