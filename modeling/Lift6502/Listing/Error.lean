import Lift6502.Text.Characters

/-!
# Faults of a listing

Reading stops at the first faulty line; the fault says what is wrong with it.
-/

namespace Lift6502

inductive ListingFault where
  | unreadable (text : String)
  | unknownMnemonic (mnemonic : String)
  | unknownDirective (directive : String)
  | badOperand (operand : String)
  | unencodable (instruction : String)
  | outOfRange (value : Int)
  | unknownSymbol (symbol : String)
  | duplicateLabel (label : String)
  | originBehind (origin : UInt16)
  deriving DecidableEq, Repr

def ListingFault.message : ListingFault → String
  | .unreadable text => "cannot parse `" ++ text ++ "`"
  | .unknownMnemonic mnemonic => "unknown mnemonic `" ++ mnemonic ++ "`"
  | .unknownDirective directive => "unknown directive `." ++ directive ++ "`"
  | .badOperand operand => "`" ++ operand ++ "` is not a valid operand"
  | .unencodable instruction => "`" ++ instruction ++ "` has no encoding"
  | .outOfRange value => "value " ++ Text.signedHex value ++ " does not fit"
  | .unknownSymbol symbol => "unknown symbol `" ++ symbol ++ "`"
  | .duplicateLabel label => "label `" ++ label ++ "` is already defined"
  | .originBehind origin => "`.org " ++ Text.hex 4 origin.toNat ++ "` is behind the current address"

/-- A fault and the number of its line; lines are counted from one. -/
structure ListingError where
  line : Nat
  fault : ListingFault
  deriving DecidableEq, Repr

def ListingError.message (e : ListingError) : String :=
  "line " ++ toString e.line ++ ": " ++ e.fault.message

end Lift6502
