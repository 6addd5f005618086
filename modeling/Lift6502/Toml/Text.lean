import Lift6502.Text.Characters

/-!
# Texts in TOML

In double quotes a backslash starts an escape; in single quotes every character stands for itself.
Three quotes in place of one allow line feeds.
-/

namespace Lift6502.Toml

open Text

def isGap (c : Char) : Bool := c == ' ' || c == '\t'

/-- Stands for itself in comments and, quotes and backslashes apart, in texts. -/
def isPlain (c : Char) : Bool := c == '\t' || (0x20 ≤ c.toNat && c.toNat != 0x7f)

/-- What follows the end of a line: a line feed, or a carriage return and a line feed. -/
def lineFeed? : List Char → Option (List Char)
  | '\n' :: rest => some rest
  | '\r' :: '\n' :: rest => some rest
  | _ => none

abbrev Piece := Option (List Char × List Char)

def numbered? (count : Nat) (cs : List Char) : Piece :=
  let digits := cs.take count
  let n := digitsValue 16 digits
  if digits.length = count && digits.all isHexDigit && decide n.isValidChar then
    some ([Char.ofNat n], cs.drop count)
  else none

def escape? : List Char → Piece
  | 'b' :: rest => some (['\x08'], rest)
  | 't' :: rest => some (['\t'], rest)
  | 'n' :: rest => some (['\n'], rest)
  | 'f' :: rest => some (['\x0c'], rest)
  | 'r' :: rest => some (['\r'], rest)
  | '"' :: rest => some (['"'], rest)
  | '\\' :: rest => some (['\\'], rest)
  | 'u' :: rest => numbered? 4 rest
  | 'U' :: rest => numbered? 8 rest
  | _ => none

def escapedPiece? : List Char → Piece
  | '\\' :: rest => escape? rest
  | c :: rest => if isPlain c then some ([c], rest) else none
  | [] => none

def literalPiece? : List Char → Piece
  | c :: rest => if isPlain c then some ([c], rest) else none
  | [] => none

/-- A backslash at the end of a line takes away the line end and all blanks and empty
lines after it. -/
def continued? : List Char → Option (List Char)
  | '\\' :: rest => do
    let rest ← lineFeed? (rest.dropWhile isGap)
    return dropBlank rest
  | _ => none
where
  dropBlank : List Char → List Char
    | '\r' :: '\n' :: rest => dropBlank rest
    | c :: rest => if isGap c || c == '\n' then dropBlank rest else c :: rest
    | [] => []

def linesPiece? (piece? : List Char → Piece) (cs : List Char) : Piece :=
  match lineFeed? cs with
  | some rest => some (['\n'], rest)
  | none => piece? cs

def escapedLinesPiece? (cs : List Char) : Piece :=
  match continued? cs with
  | some rest => some ([], rest)
  | none => linesPiece? escapedPiece? cs

def close? (quote : Char) : List Char → Piece
  | [] => none
  | c :: rest => if c = quote then some ([], rest) else none

/-- Three quotes close a text. Up to two more before them belong to the text. -/
def closeLines? (quote : Char) (cs : List Char) : Piece :=
  let quotes := (cs.takeWhile (· == quote)).length
  if quotes < 3 then none
  else some (List.replicate (min quotes 5 - 3) quote, cs.drop (min quotes 5))

def pieces? (close? piece? : List Char → Piece) : Nat → List Char → Piece
  | 0, _ => none
  | count + 1, cs =>
    match close? cs with
    | some closing => some closing
    | none => do
      let (piece, rest) ← piece? cs
      let (text, rest) ← pieces? close? piece? count rest
      return (piece ++ text, rest)

/-- Pieces up to the closing quotes. Each takes at least one character. -/
def quoted? (close? piece? : List Char → Piece) (cs : List Char) : Option (String × List Char) := do
  let (text, rest) ← pieces? close? piece? (cs.length + 1) cs
  return (String.ofList text, rest)

/-- A line feed right after three opening quotes does not belong to the text. -/
def afterOpening (cs : List Char) : List Char := (lineFeed? cs).getD cs

def lineText? : List Char → Option (String × List Char)
  | '"' :: rest => quoted? (close? '"') escapedPiece? rest
  | '\'' :: rest => quoted? (close? '\'') literalPiece? rest
  | _ => none

def text? : List Char → Option (String × List Char)
  | '"' :: '"' :: '"' :: rest =>
    quoted? (closeLines? '"') escapedLinesPiece? (afterOpening rest)
  | '\'' :: '\'' :: '\'' :: rest =>
    quoted? (closeLines? '\'') (linesPiece? literalPiece?) (afterOpening rest)
  | cs => lineText? cs

/-- A character between double quotes. Line feeds stay as they are between three quotes. -/
def escaped (lines : Bool) (c : Char) : String :=
  match c with
  | '\x08' => "\\b"
  | '\t' => "\\t"
  | '\n' => if lines then "\n" else "\\n"
  | '\x0c' => "\\f"
  | '\r' => "\\r"
  | '"' => "\\\""
  | '\\' => "\\\\"
  | c => if isPlain c then c.toString else "\\u" ++ upperHexDigits 4 c.toNat

def hasTripleQuote : List Char → Bool
  | '\'' :: '\'' :: '\'' :: _ => true
  | _ :: rest => hasTripleQuote rest
  | [] => false

/-- Single quotes are used for a text with a backslash, if they can hold it. -/
def prefersLiteral (cs : List Char) : Bool :=
  cs.contains '\\' && cs.all (fun c => isPlain c || c == '\n') && !hasTripleQuote cs &&
    cs.getLast? != some '\''

def writeText (s : String) : String :=
  let cs := s.toList
  let lines := cs.contains '\n'
  if prefersLiteral cs then
    if lines then "'''\n" ++ s ++ "'''"
    else if cs.contains '\'' then "'''" ++ s ++ "'''"
    else "'" ++ s ++ "'"
  else
    let body := String.join (cs.map (escaped lines))
    if lines then "\"\"\"\n" ++ body ++ "\"\"\"" else "\"" ++ body ++ "\""

end Lift6502.Toml
