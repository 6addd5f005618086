import Lift6502.Text.Characters

/-!
# Files

The program runs alike on the files of the machine and on a `Directory` that is held as a value.
-/

namespace Lift6502.Cli

inductive FileError where
  | notFound
  | notDirectory
  | isDirectory
  | other (text : String)
  deriving DecidableEq, Repr

def FileError.message : FileError → String
  | .notFound => "No such file or directory (os error 2)"
  | .notDirectory => "Not a directory (os error 20)"
  | .isDirectory => "Is a directory (os error 21)"
  | .other text => text

structure Files (m : Type → Type) where
  read : String → m (Except FileError String)
  write : String → String → m (Except FileError Unit)

abbrev Path := List String

/-- The names of a path; empty ones and single dots do not count. -/
def Path.ofText (text : String) : Path :=
  ((Text.fields '/' text.toList).map String.ofList).filter fun name => name != "" && name != "."

/-- The texts of some files, by name. A directory exists if a file is in it. -/
structure Directory where
  files : List (String × String) := []
  deriving DecidableEq, Repr

namespace Directory

def text? (d : Directory) (path : Path) : Option String :=
  (d.files.find? fun (name, _) => Path.ofText name = path).map (·.2)

def isDirectory (d : Directory) (path : Path) : Bool :=
  path.isEmpty || d.files.any fun (name, _) =>
    path.length < (Path.ofText name).length && path.isPrefixOf (Path.ofText name)

def obstacle (d : Directory) (path : Path) : FileError :=
  if (List.range path.length).any fun n => (d.text? (path.take n)).isSome then .notDirectory
  else .notFound

def isOutside (path : String) : Bool := path.startsWith "/"

def read (d : Directory) (path : String) : Except FileError String :=
  let names := Path.ofText path
  if isOutside path then .error .notFound
  else match d.text? names with
    | some text => if path.endsWith "/" then .error .notDirectory else .ok text
    | none => .error (if d.isDirectory names then .isDirectory else d.obstacle names)

/-- Writes a file in an existing directory, over the one of that name. -/
def write (d : Directory) (path text : String) : Except FileError Directory :=
  let names := Path.ofText path
  if isOutside path then .error .notFound
  else if (d.text? names).isSome then
    if path.endsWith "/" then .error .notDirectory
    else .ok ⟨d.files.map fun (name, old) => (name, if Path.ofText name = names then text else old)⟩
  else if d.isDirectory names then .error .isDirectory
  else if d.isDirectory names.dropLast then
    if path.endsWith "/" then .error .isDirectory
    else .ok ⟨d.files ++ [(String.intercalate "/" names, text)]⟩
  else .error (d.obstacle names)

def access : Files (StateM Directory) where
  read path := fun d => (d.read path, d)
  write path text := fun d =>
    match d.write path text with
    | .ok d => (.ok (), d)
    | .error e => (.error e, d)

def newSince (d before : Directory) : List (String × String) :=
  d.files.filter fun (name, _) => (before.text? (Path.ofText name)).isNone

end Directory

end Lift6502.Cli
