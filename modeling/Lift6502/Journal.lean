/-!
# The journal

A reader of the journal asks for a level and gets the entries at that level and above.
-/

namespace Lift6502

/-- How much of the journal is wanted, from nothing to everything. -/
inductive Verbosity where
  | off
  | error
  | warn
  | info
  | debug
  | trace
  deriving DecidableEq, Repr

namespace Verbosity

def all : List Verbosity := [.off, .error, .warn, .info, .debug, .trace]

def text : Verbosity → String
  | .off => "OFF"
  | .error => "ERROR"
  | .warn => "WARN"
  | .info => "INFO"
  | .debug => "DEBUG"
  | .trace => "TRACE"

def rank : Verbosity → Nat
  | .off => 0
  | .error => 1
  | .warn => 2
  | .info => 3
  | .debug => 4
  | .trace => 5

def ofText? (s : String) : Option Verbosity :=
  let upper := String.ofList (s.toList.map Char.toUpper)
  all.find? fun v => v.text == upper

end Verbosity

structure Entry where
  level : Verbosity
  message : String
  deriving DecidableEq, Repr

namespace Entry

def debug (message : String) : Entry := { level := .debug, message }

def info (message : String) : Entry := { level := .info, message }

def warn (message : String) : Entry := { level := .warn, message }

def text (e : Entry) : String := e.level.text ++ " " ++ e.message

end Entry

abbrev Journal := List Entry

def Journal.upTo (j : Journal) (level : Verbosity) : Journal :=
  j.filter fun e => e.level.rank ≤ level.rank

end Lift6502
