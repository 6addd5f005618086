import Lift6502.Cli.Session

/-!
# The program

Reads its arguments, runs on the files of the machine, and shows the outcome.
-/

namespace Lift6502.Cli

def attempt {α : Type} (operation : IO α) : IO (Except FileError α) := do
  try
    return .ok (← operation)
  catch e =>
    return .error <| match e with
      | .noFileOrDirectory .. => .notFound
      | e => .other (toString e)

def machineFiles : Files IO where
  read path := attempt (IO.FS.readFile path)
  write path text := attempt (IO.FS.writeFile path text)

def usage : String :=
  "Decompiles a 6502 assembly listing into structured functions\n\n" ++
  "Usage: lift6502 [OPTIONS] <LISTING>\n\n" ++
  "  -c, --config <FILE>               TOML file with options; the flags override it\n" ++
  "  -e, --entry <LABEL>               main entry (default: the first instruction)\n" ++
  "  -x, --extra-entry <LABEL>         further entry; may be repeated\n" ++
  "      --max-inline-expression <N>   largest expression kept inline\n" ++
  "  -j, --parallel                    generate functions in parallel\n" ++
  "  -v, --verbose                     more logging; may be repeated\n" ++
  "  -o, --output <FILE>               write the program here instead of printing it\n" ++
  "      --print-options               print the effective options and exit\n" ++
  "      --verify <RUNS>               compare each entry on this many states\n" ++
  "      --seed <SEED>                 seed for --verify\n" ++
  "  -h, --help                        print help\n" ++
  "  -V, --version                     print version\n"

end Lift6502.Cli

open Lift6502.Cli

def main (arguments : List String) : IO UInt32 := do
  match Request.ofArguments arguments with
  | .error stop =>
    match stop with
    | .misuse => IO.eprint usage
    | .help => IO.print usage
    | .version => IO.println "lift6502 0.1.0"
    return UInt32.ofNat stop.exit
  | .ok request =>
    let outcome ← run machineFiles request
    for entry in outcome.journal.upTo outcome.verbosity do
      IO.println ("[" ++ entry.level.text ++ "] " ++ entry.message)
    IO.print outcome.stdout
    IO.eprint outcome.stderr
    return UInt32.ofNat outcome.exit
