import Lift6502.Options.Basic

/-!
# The arguments of the command line

Arguments are taken from left to right and the first that cannot be taken ends the reading.
-/

namespace Lift6502.Cli

structure Request where
  listing : String
  /-- A file with options; the other settings override it. -/
  config : Option String := none
  entry : Option String := none
  extraEntries : List String := []
  maxInlineExpression : Option Nat := none
  parallel : Bool := false
  verbose : Nat := 0
  /-- A file for the decompiled program, which is otherwise printed. -/
  output : Option String := none
  printOptions : Bool := false
  /-- On how many states each root is compared with the assembled program. -/
  verify : Option Nat := none
  seed : Option Nat := none
  deriving DecidableEq, Repr

inductive Stop where
  | misuse
  | help
  | version
  deriving DecidableEq, Repr

def Stop.exit : Stop → Nat
  | .misuse => 2
  | .help => 0
  | .version => 0

namespace Request

def defaultSeed : Nat := 0x6502

def apply (r : Request) (o : Options) : Options :=
  { entry := r.entry.or o.entry
    extraEntries := r.extraEntries.foldl
      (fun labels label => if labels.contains label then labels else labels ++ [label])
      o.extraEntries
    maxInlineExpression := r.maxInlineExpression.getD o.maxInlineExpression
    parallel := o.parallel || r.parallel
    verbosity := match r.verbose with
      | 0 => o.verbosity
      | 1 => .info
      | 2 => .debug
      | _ => .trace }

end Request

/-! ## Switches and settings -/

inductive Switch where
  | parallel
  | verbose
  | printOptions
  | help
  | version
  deriving DecidableEq, Repr

inductive Setting where
  | config
  | entry
  | extraEntry
  | maxInlineExpression
  | output
  | verify
  | seed
  deriving DecidableEq, Repr

def Switch.ofLetter? : Char → Option Switch
  | 'j' => some .parallel
  | 'v' => some .verbose
  | 'h' => some .help
  | 'V' => some .version
  | _ => none

def Switch.ofWord? : String → Option Switch
  | "parallel" => some .parallel
  | "verbose" => some .verbose
  | "print-options" => some .printOptions
  | "help" => some .help
  | "version" => some .version
  | _ => none

def Setting.ofLetter? : Char → Option Setting
  | 'c' => some .config
  | 'e' => some .entry
  | 'x' => some .extraEntry
  | 'o' => some .output
  | _ => none

def Setting.ofWord? : String → Option Setting
  | "config" => some .config
  | "entry" => some .entry
  | "extra-entry" => some .extraEntry
  | "max-inline-expression" => some .maxInlineExpression
  | "output" => some .output
  | "verify" => some .verify
  | "seed" => some .seed
  | _ => none

/-- A number of 64 bits in decimal digits, with or without a plus sign. -/
def number? (text : List Char) : Option Nat :=
  let digits := match text with
    | '+' :: digits => digits
    | digits => digits
  let n := Text.digitsValue 10 digits
  if !digits.isEmpty && digits.all Char.isDigit && n < 0x10000000000000000 then some n else none

structure Reading where
  listing : Option String := none
  request : Request := { listing := "" }
  pending : Option Setting := none
  /-- After `--` nothing is a switch or a setting. -/
  namesOnly : Bool := false
  deriving DecidableEq, Repr

namespace Reading

def once {α : Type} (place value : Option α) : Except Stop (Option α) :=
  match place, value with
  | none, some value => .ok (some value)
  | _, _ => .error .misuse

def fileName? (text : String) : Option String := if text.isEmpty then none else some text

def turnOn (s : Reading) (switch : Switch) : Except Stop Reading :=
  let r := s.request
  match switch with
  | .parallel =>
    if r.parallel then .error .misuse else .ok { s with request := { r with parallel := true } }
  | .printOptions =>
    if r.printOptions then .error .misuse
    else .ok { s with request := { r with printOptions := true } }
  | .verbose => .ok { s with request := { r with verbose := r.verbose + 1 } }
  | .help => .error .help
  | .version => .error .version

/-- Gives a setting its value. Only further entries may be set more than once. -/
def set (s : Reading) (setting : Setting) (value : List Char) : Except Stop Reading := do
  let r := s.request
  let text := String.ofList value
  let r ← match setting with
    | .config => do pure { r with config := ← once r.config (fileName? text) }
    | .entry => do pure { r with entry := ← once r.entry (some text) }
    | .extraEntry => pure { r with extraEntries := r.extraEntries ++ [text] }
    | .maxInlineExpression => do
      pure { r with maxInlineExpression := ← once r.maxInlineExpression (number? value) }
    | .output => do pure { r with output := ← once r.output (fileName? text) }
    | .verify => do pure { r with verify := ← once r.verify (number? value) }
    | .seed => do pure { r with seed := ← once r.seed (number? value) }
  return { s with request := r, pending := none }

/-- The letters of an argument with one dash. What follows the letter of a setting is its value. -/
def letters (s : Reading) : List Char → Except Stop Reading
  | [] => .ok s
  | c :: rest =>
    match Switch.ofLetter? c, Setting.ofLetter? c with
    | some switch, _ => do (← s.turnOn switch).letters rest
    | none, some setting =>
      match rest with
      | [] => .ok { s with pending := some setting }
      | '=' :: value => s.set setting value
      | value => s.set setting value
    | none, none => .error .misuse

/-- An argument with two dashes. What follows an equals sign is the value of a setting. -/
def word (s : Reading) (text : List Char) : Except Stop Reading :=
  let name := String.ofList (text.takeWhile (· != '='))
  let value := text.dropWhile (· != '=')
  match Switch.ofWord? name, Setting.ofWord? name, value with
  | some switch, _, [] => s.turnOn switch
  | none, some setting, [] => .ok { s with pending := some setting }
  | none, some setting, _ :: value => s.set setting value
  | _, _, _ => .error .misuse

/-- The value of the setting that waits for one, or else the listing. -/
def plain (s : Reading) (text : List Char) : Except Stop Reading :=
  match s.pending, s.namesOnly with
  | some setting, false => s.set setting text
  | some _, true => .error .misuse
  | none, _ => do
    return { s with listing := ← once s.listing (fileName? (String.ofList text)) }

/-- Takes one argument. A dash alone is a name. -/
def take (s : Reading) (argument : String) : Except Stop Reading :=
  if s.namesOnly then s.plain argument.toList
  else
    match argument.toList with
    | ['-', '-'] => .ok { s with namesOnly := true }
    | '-' :: c :: rest =>
      if s.pending.isSome then .error .misuse
      else if c = '-' then s.word rest
      else s.letters (c :: rest)
    | text => s.plain text

def finish (s : Reading) : Except Stop Request :=
  match s.pending, s.listing with
  | none, some listing => .ok { s.request with listing }
  | _, _ => .error .misuse

end Reading

def Request.ofArguments (arguments : List String) : Except Stop Request := do
  (← arguments.foldlM Reading.take {}).finish

end Lift6502.Cli
