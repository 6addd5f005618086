import Lift6502.Exchange.Options
import Lift6502.Toml.Document

/-!
# Options in a file

Options are kept as a TOML document with one assignment for each field.
-/

namespace Lift6502

inductive OptionsError where
  | invalid
  /-- The largest inline size is no 64-bit integer with a sign. -/
  | outOfRange
  deriving DecidableEq, Repr

def OptionsError.messages : OptionsError → List String
  | .invalid => ["invalid decompiler options"]
  | .outOfRange => ["cannot render decompiler options", "out-of-range value for u64 type"]

namespace Options

/-- Reads options. Fields that are not set keep their defaults. -/
def ofToml (source : String) : Except OptionsError Options :=
  match (Toml.fields? source).bind (ofDatum? <| .record ·) with
  | some o => .ok o
  | none => .error .invalid

/-- Writes options. A main root that is not given is left out. -/
def toToml (o : Options) : Except OptionsError String :=
  if o.maxInlineExpression < 0x8000000000000000 then
    let entry := o.entry.toList.map fun label => "entry = " ++ Toml.writeText label
    let extra := "extra_entries = [" ++
      String.intercalate ", " (o.extraEntries.map Toml.writeText) ++ "]"
    let size := "max_inline_expression = " ++ toString o.maxInlineExpression
    let parallel := "parallel = " ++ if o.parallel then "true" else "false"
    let level := "verbosity_level = " ++ Toml.writeText o.verbosity.text
    .ok (String.join ((entry ++ [extra, size, parallel, level]).map (· ++ "\n")))
  else .error .outOfRange

end Options

end Lift6502
