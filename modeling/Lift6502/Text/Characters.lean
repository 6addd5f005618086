/-!
# Characters, digits and lines

White space is every character with the property of that name, in any script. One carriage return
before a line feed belongs to the line end, and a text that ends in a line feed has no empty line
after it.
-/

namespace Lift6502.Text

/-- Space, tab, line ends, and the wider spaces of other scripts. -/
def isBlank (c : Char) : Bool :=
  let n := c.toNat
  (0x9 ≤ n && n ≤ 0xd) || n == 0x20 || n == 0x85 || n == 0xa0 || n == 0x1680
    || (0x2000 ≤ n && n ≤ 0x200a) || n == 0x2028 || n == 0x2029 || n == 0x202f || n == 0x205f
    || n == 0x3000

def trimStart (cs : List Char) : List Char := cs.dropWhile isBlank

def trimEnd (cs : List Char) : List Char := (cs.reverse.dropWhile isBlank).reverse

def trim (cs : List Char) : List Char := trimEnd (trimStart cs)

def trimmedEnd (s : String) : String := String.ofList (trimEnd s.toList)

def isHexDigit (c : Char) : Bool :=
  c.isDigit || ('a' ≤ c && c ≤ 'f') || ('A' ≤ c && c ≤ 'F')

def isOctalDigit (c : Char) : Bool := '0' ≤ c && c ≤ '7'

def isBinaryDigit (c : Char) : Bool := c == '0' || c == '1'

def digitValue (c : Char) : Nat :=
  if c.isDigit then c.toNat - '0'.toNat
  else if 'a' ≤ c && c ≤ 'f' then c.toNat - 'a'.toNat + 10
  else c.toNat - 'A'.toNat + 10

def digitsValue (base : Nat) (digits : List Char) : Nat :=
  digits.foldl (fun n c => base * n + digitValue c) 0

/-! ## Hexadecimal text -/

/-- At least `width` characters, filled up with zeros on the left. -/
def zeroPadded (width : Nat) (digits : List Char) : List Char :=
  List.replicate (width - digits.length) '0' ++ digits

def hexDigits (width n : Nat) : String := String.ofList (zeroPadded width (Nat.toDigits 16 n))

def upperHexDigits (width n : Nat) : String :=
  String.ofList ((zeroPadded width (Nat.toDigits 16 n)).map Char.toUpper)

/-- `0x` and at least `width` lower-case digits. -/
def hex (width n : Nat) : String := "0x" ++ hexDigits width n

/-- A 64-bit integer in two's complement, with as many digits as it needs. -/
def signedHex (n : Int) : String := hex 1 (n % 0x10000000000000000).toNat

def bytesHex (bytes : List UInt8) : String :=
  String.join (bytes.map fun byte => hexDigits 2 byte.toNat)

/-! ## Quoted text -/

def escaped (c : Char) : String :=
  match c with
  | '"' => "\\\""
  | '\\' => "\\\\"
  | '\n' => "\\n"
  | '\r' => "\\r"
  | '\t' => "\\t"
  | c =>
    if c.toNat = 0 then "\\0"
    else if c.toNat < 0x20 || c.toNat = 0x7f then
      "\\u\x7b" ++ String.ofList (Nat.toDigits 16 c.toNat) ++ "\x7d"
    else c.toString

def quoted (s : String) : String := "\"" ++ String.join (s.toList.map escaped) ++ "\""

def quotedOption : Option String → String
  | none => "None"
  | some s => "Some(" ++ quoted s ++ ")"

/-! ## Lines and fields -/

/-- A line read backwards, without the carriage return of its line end. -/
def dropReturn : List Char → List Char
  | '\r' :: rest => rest
  | line => line

/-- The lines of a text, where `line` is what has been read of the current one, backwards. -/
def linesFrom (line : List Char) : List Char → List (List Char)
  | [] => if line.isEmpty then [] else [line.reverse]
  | '\n' :: rest => (dropReturn line).reverse :: linesFrom [] rest
  | c :: rest => linesFrom (c :: line) rest

def lines (text : List Char) : List (List Char) := linesFrom [] text

/-- The pieces of a text between separators, where `piece` is the current one, backwards. -/
def fieldsFrom (separator : Char) (piece : List Char) : List Char → List (List Char)
  | [] => [piece.reverse]
  | c :: rest =>
    if c = separator then piece.reverse :: fieldsFrom separator [] rest
    else fieldsFrom separator (c :: piece) rest

def fields (separator : Char) (text : List Char) : List (List Char) := fieldsFrom separator [] text

end Lift6502.Text
