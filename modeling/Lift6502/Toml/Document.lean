import Lift6502.Exchange.Datum
import Lift6502.Toml.Text

/-!
# TOML documents

The reader knows texts, whole numbers, truth values, lists of texts and tables without entries or
with one empty entry, because no option has another value. A document with any other value is
refused.
-/

namespace Lift6502.Toml

open Text

def skipGap (cs : List Char) : List Char := cs.dropWhile isGap

/-- What follows blanks, line ends and comments; `comment` says that a comment has begun. -/
def skipSpace? (comment : Bool) : List Char → Option (List Char)
  | '\n' :: rest => skipSpace? false rest
  | '\r' :: '\n' :: rest => skipSpace? false rest
  | c :: rest =>
    if comment then if isPlain c then skipSpace? true rest else none
    else if isGap c then skipSpace? false rest
    else if c = '#' then skipSpace? true rest
    else some (c :: rest)
  | [] => some []

/-- What follows the rest of a line that holds nothing but a comment. -/
def lineEnd? (cs : List Char) : Option (List Char) :=
  let rest := match skipGap cs with
    | '#' :: rest => rest.dropWhile isPlain
    | rest => rest
  match rest with
  | [] => some []
  | rest => lineFeed? rest

/-- Digits, with single underscores allowed between them. -/
def digits? (isDigit : Char → Bool) (base : Nat) (cs : List Char) : Option (Nat × List Char) :=
  let inRun := fun c => isDigit c || c == '_'
  let groups := fields '_' (cs.takeWhile inRun)
  if groups.any List.isEmpty then none
  else some (digitsValue base groups.flatten, cs.dropWhile inRun)

/-- Decimal digits. A zero stands alone. -/
def decimal? : List Char → Option (Nat × List Char)
  | '0' :: rest => some (0, rest)
  | cs => digits? Char.isDigit 10 cs

def number? (cs : List Char) : Option (Int × List Char) := do
  let (n, rest) ← match cs with
    | '0' :: 'x' :: rest => unsigned (digits? isHexDigit 16 rest)
    | '0' :: 'o' :: rest => unsigned (digits? isOctalDigit 8 rest)
    | '0' :: 'b' :: rest => unsigned (digits? isBinaryDigit 2 rest)
    | '+' :: rest => unsigned (decimal? rest)
    | '-' :: rest => (decimal? rest).map fun (n, rest) => (-(n : Int), rest)
    | cs => unsigned (decimal? cs)
  if -0x8000000000000000 ≤ n && n < 0x8000000000000000 then some (n, rest) else none
where
  unsigned (reading : Option (Nat × List Char)) : Option (Int × List Char) :=
    reading.map fun (n, rest) => ((n : Int), rest)

/-- The texts of a list up to its end, at most `count` of them. A comma may follow the last. -/
def texts? : Nat → List Char → Option (List String × List Char)
  | 0, _ => none
  | count + 1, cs => do
    match ← skipSpace? false cs with
    | ']' :: rest => some ([], rest)
    | cs =>
      let (item, rest) ← text? cs
      match ← skipSpace? false rest with
      | ']' :: rest => some ([item], rest)
      | ',' :: rest =>
        let (items, rest) ← texts? count rest
        some (item :: items, rest)
      | _ => none

def isBareKey (c : Char) : Bool := c.isAlphanum || c == '_' || c == '-'

/-- A key: letters, digits, underscores and hyphens, or a text on one line. -/
def key? (cs : List Char) : Option (String × List Char) :=
  match lineText? cs with
  | some reading => some reading
  | none =>
    let key := cs.takeWhile isBareKey
    if key.isEmpty then none else some (String.ofList key, cs.dropWhile isBareKey)

def empty? : List Char → Option (List Char)
  | '[' :: rest => do
    match ← skipSpace? false rest with
    | ']' :: rest => some rest
    | _ => none
  | '\x7b' :: rest =>
    match skipGap rest with
    | '\x7d' :: rest => some rest
    | _ => none
  | _ => none

/-- A table with one empty entry, after its opening brace. It stands for a choice. -/
def choice? (cs : List Char) : Option (Datum × List Char) := do
  let (name, rest) ← key? (skipGap cs)
  match skipGap rest with
  | '=' :: rest =>
    let rest ← empty? (skipGap rest)
    match skipGap rest with
    | '\x7d' :: rest => some (.form name .null, rest)
    | _ => none
  | _ => none

def value? (cs : List Char) : Option (Datum × List Char) :=
  match cs with
  | '[' :: rest => (texts? (rest.length + 1) rest).map fun (items, rest) =>
      (Datum.listOf .text items, rest)
  | '\x7b' :: rest =>
    match empty? cs with
    | some rest => some (.record [], rest)
    | none => choice? rest
  | 't' :: 'r' :: 'u' :: 'e' :: rest => some (.bool true, rest)
  | 'f' :: 'a' :: 'l' :: 's' :: 'e' :: rest => some (.bool false, rest)
  | _ =>
    match text? cs with
    | some (s, rest) => some (.text s, rest)
    | none => (number? cs).map fun (n, rest) => (.int n, rest)

def path? : Nat → List Char → Option (List String × List Char)
  | 0, _ => none
  | count + 1, cs => do
    let (key, rest) ← key? (skipGap cs)
    match skipGap rest with
    | '.' :: rest =>
      let (keys, rest) ← path? count rest
      some (key :: keys, rest)
    | rest => some ([key], rest)

inductive Statement where
  /-- Later assignments are made in the table at this path. -/
  | opening (path : List String)
  | assign (path : List String) (value : Datum)
  deriving Repr

def statement? (cs : List Char) : Option (Statement × List Char) :=
  match cs with
  | '[' :: rest => do
    let (path, rest) ← path? (rest.length + 1) rest
    match rest with
    | ']' :: rest => some (.opening path, ← lineEnd? rest)
    | _ => none
  | cs => do
    let (path, rest) ← path? (cs.length + 1) cs
    match rest with
    | '=' :: rest =>
      let (value, rest) ← value? (skipGap rest)
      some (.assign path value, ← lineEnd? rest)
    | _ => none

def statements? : Nat → List Char → Option (List Statement)
  | 0, _ => none
  | count + 1, cs =>
    match skipSpace? false cs with
    | none => none
    | some [] => some []
    | some cs => do
      let (statement, rest) ← statement? cs
      return statement :: (← statements? count rest)

/-- A byte order mark may stand before the document. -/
def withoutMark : List Char → List Char
  | '\uFEFF' :: rest => rest
  | cs => cs

/-- The paths that a list of statements gives a value, in the table that is open. The value of a
table is `null`: it has been opened, by a section or by a dotted key. -/
def assignments (table : List String) : List Statement → List (List String × Datum)
  | [] => []
  | .opening path :: rest => (path, .null) :: assignments path rest
  | .assign path value :: rest =>
    (outer path).map (fun step => (table ++ step, .null)) ++
      (table ++ path, value) :: assignments table rest
where
  outer (path : List String) : List (List String) :=
    (List.range (path.length - 1)).map fun n => path.take (n + 1)

/-- The fields that a document sets, each once. An entry of a table stands for the choice of its
key, so it has to be empty and the only one. -/
def fields? (source : String) : Option (List (String × Datum)) := do
  let cs := withoutMark source.toList
  let all := assignments [] (← statements? (cs.length + 1) cs)
  let set ← all.mapM (field? all)
  let set := set.flatten
  if (all.map (·.1)).Nodup ∧ (set.map (·.1)).Nodup then some set else none
where
  field? (all : List (List String × Datum)) : List String × Datum → Option (List (String × Datum))
    | ([name], .null) =>
      if all.any fun (path, _) => path.length = 2 && path.head? = some name then some [] else none
    | ([name], value) => some [(name, value)]
    | ([name, choice], .null) => some [(name, .form choice .null)]
    | ([name, choice], .list []) => some [(name, .form choice .null)]
    | ([name, choice], .record []) => some [(name, .form choice .null)]
    | _ => none

end Lift6502.Toml
