import Lift6502.Text.Characters
import Lift6502.Text.Word

/-!
# The shapes of a listing line

Each recogniser takes the characters of a text without blanks around it and gives the pieces of the
shape, or nothing when the text has another shape.
-/

namespace Lift6502.Listing

open Text

def withoutComment (line : List Char) : List Char := trim (line.takeWhile (· != ';'))

def isNameStart (c : Char) : Bool := c.isAlpha || c == '_'

def isSymbolStart (c : Char) : Bool := isNameStart c || c == '@' || c == '.'

def isSymbolRest (c : Char) : Bool := isWord c || c == '@' || c == '.'

/-- `NAME = value`, as the name and the text of the value. -/
def constant? (text : List Char) : Option (List Char × List Char) :=
  match text with
  | [] => none
  | c :: rest =>
    if isNameStart c then
      match trimStart (rest.dropWhile isWord) with
      | '=' :: value =>
        let value := trimStart value
        if value.isEmpty then none else some (c :: rest.takeWhile isWord, value)
      | _ => none
    else none

/-- `Label: rest`, as the label and the rest. -/
def label? (text : List Char) : Option (List Char × List Char) :=
  match text with
  | [] => none
  | c :: rest =>
    if isSymbolStart c then
      match rest.dropWhile isSymbolRest with
      | ':' :: after => some (c :: rest.takeWhile isSymbolRest, trim after)
      | _ => none
    else none

def directive? (text : List Char) : Option (List Char × List Char) :=
  match text with
  | '.' :: rest =>
    let name := rest.takeWhile isWord
    if name.isEmpty then none else some (name, trim (rest.dropWhile isWord))
  | _ => none

/-- Three letters and, after a blank, an operand. -/
def instruction? (text : List Char) : Option (List Char × List Char) :=
  match text with
  | a :: b :: c :: rest =>
    if a.isAlpha && b.isAlpha && c.isAlpha then
      match rest with
      | [] => some ([a, b, c], [])
      | d :: _ => if isBlank d then some ([a, b, c], trim rest) else none
    else none
  | _ => none

/-! ## Numbers and address expressions -/

def run1? (p : Char → Bool) (cs : List Char) : Option (List Char × List Char) :=
  let run := cs.takeWhile p
  if run.isEmpty then none else some (run, cs.dropWhile p)

/-- `$` and hexadecimal digits, `%` and binary digits, or decimal digits. -/
def numeral? (cs : List Char) : Option (List Char × List Char) :=
  match cs with
  | '$' :: rest => (run1? isHexDigit rest).map fun (run, after) => ('$' :: run, after)
  | '%' :: rest => (run1? isBinaryDigit rest).map fun (run, after) => ('%' :: run, after)
  | cs => run1? Char.isDigit cs

def numeralValue (cs : List Char) : Nat :=
  match cs with
  | '$' :: digits => digitsValue 16 digits
  | '%' :: digits => digitsValue 2 digits
  | digits => digitsValue 10 digits

inductive Base where
  | numeral (digits : List Char)
  | symbol (name : List Char)
  deriving DecidableEq, Repr

def base? (cs : List Char) : Option (Base × List Char) :=
  match numeral? cs with
  | some (digits, rest) => some (.numeral digits, rest)
  | none =>
    match cs with
    | [] => none
    | c :: rest =>
      if isSymbolStart c then
        some (.symbol (c :: rest.takeWhile isSymbolRest), rest.dropWhile isSymbolRest)
      else none

structure Sum where
  base : Base
  /-- Whether the numeral is subtracted, and the numeral. -/
  offset : Option (Bool × List Char)
  deriving DecidableEq, Repr

/-- The numeral after a sign, when nothing else follows it. -/
def signed? (negative : Bool) (cs : List Char) : Option (Bool × List Char) :=
  match numeral? (trimStart cs) with
  | some (digits, []) => some (negative, digits)
  | _ => none

def sum? (cs : List Char) : Option Sum :=
  match base? cs with
  | none => none
  | some (base, rest) =>
    match trimStart rest with
    | [] => some { base, offset := none }
    | '+' :: rest => (signed? false rest).map fun offset => { base, offset := some offset }
    | '-' :: rest => (signed? true rest).map fun offset => { base, offset := some offset }
    | _ => none

/-! ## Operand forms

The bracketed and indexed forms are told by how the text ends, so they are read backwards. -/

/-- What a bracket holds: its text without blanks around it, or one blank if it holds blanks only.
Nothing fits an empty bracket. -/
def bracketed? (inner : List Char) : Option (List Char) :=
  match trim inner, inner.getLast? with
  | [], last => last.map fun c => [c]
  | text, _ => some text

/-- Removes a letter, in either case, from the front of a reversed text. -/
def dropLetter? (lower upper : Char) : List Char → Option (List Char)
  | c :: rest => if c == lower || c == upper then some rest else none
  | [] => none

/-- Removes a character and the blanks before it from the front of a reversed text. -/
def dropMark? (mark : Char) (cs : List Char) : Option (List Char) :=
  match trimStart cs with
  | c :: rest => if c == mark then some rest else none
  | [] => none

/-- What stands inside `( ,X)`. -/
def indexedIndirect? (text : List Char) : Option (List Char) :=
  match text with
  | '(' :: rest => do
    let back ← dropMark? ')' rest.reverse
    let back ← dropLetter? 'x' 'X' (trimStart back)
    let back ← dropMark? ',' back
    bracketed? back.reverse
  | _ => none

/-- What stands inside `( ),Y`. -/
def indirectIndexed? (text : List Char) : Option (List Char) :=
  match text with
  | '(' :: rest => do
    let back ← dropLetter? 'y' 'Y' rest.reverse
    let back ← dropMark? ',' back
    let back ← dropMark? ')' back
    bracketed? back.reverse
  | _ => none

/-- What stands inside `( )`. -/
def indirect? (text : List Char) : Option (List Char) :=
  match text with
  | '(' :: rest => do
    let back ← dropMark? ')' rest.reverse
    bracketed? back.reverse
  | _ => none

/-- The text before `,X` or `,Y`, and whether the register is X. -/
def indexed? (text : List Char) : Option (List Char × Bool) := do
  let (isX, back) ← match text.reverse with
    | c :: back =>
      if c == 'x' || c == 'X' then some (true, back)
      else if c == 'y' || c == 'Y' then some (false, back)
      else none
    | [] => none
  let back ← dropMark? ',' back
  let inner := trimEnd back.reverse
  if inner.isEmpty then none else some (inner, isX)

end Lift6502.Listing
