import Lift6502.Exchange.Datum
import Lift6502.Options.Basic

/-!
# Options as plain data

A field that is left out keeps its default; a field that no option has is refused.
-/

namespace Lift6502

open Datum

def Verbosity.ofDatum? : Datum → Option Verbosity
  | .text name => Verbosity.ofText? name
  | .record [(name, .null)] => Verbosity.ofText? name
  | _ => none

namespace Options

def fieldNames : List String :=
  ["entry", "extra_entries", "max_inline_expression", "parallel", "verbosity_level"]

def withField? (o : Options) (name : String) (value : Datum) : Option Options :=
  match name with
  | "entry" => do return { o with entry := ← value.option? text? }
  | "extra_entries" => do return { o with extraEntries := ← value.listOf? text? }
  | "max_inline_expression" => do return { o with maxInlineExpression := ← value.nat? }
  | "parallel" => do return { o with parallel := ← value.bool? }
  | "verbosity_level" => do return { o with verbosity := ← Verbosity.ofDatum? value }
  | _ => none

def ofDatum? : Datum → Option Options
  | .record fields => fields.foldlM (fun o (name, value) => o.withField? name value) {}
  | .list items =>
    if items.length ≤ fieldNames.length then
      (fieldNames.zip items).foldlM (fun o (name, value) => o.withField? name value) {}
    else none
  | _ => none

def toDatum (o : Options) : Datum :=
  .record
    [("entry", option .text o.entry), ("extra_entries", listOf .text o.extraEntries),
     ("max_inline_expression", .int o.maxInlineExpression), ("parallel", o.parallel),
     ("verbosity_level", o.verbosity.text)]

end Options

end Lift6502
