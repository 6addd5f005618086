/-!
# Plain data

A choice between forms is a text when the form holds nothing, and otherwise a record with one field,
named for the form. Reading gives nothing when the data does not have the expected shape.
-/

namespace Lift6502

inductive Datum where
  | null
  | bool (value : Bool)
  | int (value : Int)
  | text (value : String)
  | list (items : List Datum)
  | record (fields : List (String × Datum))
  deriving Repr, Inhabited

namespace Datum

instance : Coe String Datum := ⟨.text⟩

instance : Coe Bool Datum := ⟨.bool⟩

instance : Coe Nat Datum := ⟨fun n => .int n⟩

mutual

def depth : Datum → Nat
  | .list items => 1 + listDepth items
  | .record fields => 1 + fieldsDepth fields
  | _ => 1

def listDepth : List Datum → Nat
  | [] => 0
  | d :: rest => max d.depth (listDepth rest)

def fieldsDepth : List (String × Datum) → Nat
  | [] => 0
  | (_, d) :: rest => max d.depth (fieldsDepth rest)

end

def option {α : Type} (write : α → Datum) : Option α → Datum
  | none => .null
  | some value => write value

def listOf {α : Type} (write : α → Datum) (values : List α) : Datum := .list (values.map write)

def pairOf (a b : Datum) : Datum := .list [a, b]

def form (name : String) (contents : Datum) : Datum := .record [(name, contents)]

def named {α : Type} [BEq α] (names : List (String × α)) (value : α) : Datum :=
  .text (((names.find? fun entry => entry.2 == value).map (·.1)).getD "")

def text? : Datum → Option String
  | .text s => some s
  | _ => none

def bool? : Datum → Option Bool
  | .bool b => some b
  | _ => none

def list? : Datum → Option (List Datum)
  | .list items => some items
  | _ => none

def listOf? {α : Type} (read : Datum → Option α) (d : Datum) : Option (List α) := do
  (← d.list?).mapM read

def field? (d : Datum) (name : String) : Option Datum :=
  match d with
  | .record fields => List.lookup name fields
  | _ => none

/-- Absent is written as `null`. -/
def option? {α : Type} (read : Datum → Option α) : Datum → Option (Option α)
  | .null => some none
  | d => (read d).map some

/-- An integer from `low` up to but not including `high`. -/
def intIn? (low high : Int) : Datum → Option Int
  | .int n => if low ≤ n && n < high then some n else none
  | _ => none

def natBelow? (bound : Nat) (d : Datum) : Option Nat := (d.intIn? 0 bound).map Int.toNat

def u8? (d : Datum) : Option UInt8 := (d.natBelow? 0x100).map UInt8.ofNat

def u16? (d : Datum) : Option UInt16 := (d.natBelow? 0x10000).map UInt16.ofNat

def u32? (d : Datum) : Option UInt32 := (d.natBelow? 0x100000000).map UInt32.ofNat

def nat? (d : Datum) : Option Nat := d.natBelow? 0x10000000000000000

def i32? (d : Datum) : Option Int32 := (d.intIn? (-0x80000000) 0x80000000).map Int32.ofInt

def pair? {α β : Type} (first : Datum → Option α) (second : Datum → Option β) (d : Datum) :
    Option (α × β) :=
  match d with
  | .list [a, b] => do return (← first a, ← second b)
  | _ => none

/-- The fields of a record by name, or the items of a list by position. A field that a record may
leave out counts as `null` then. -/
def fields? (d : Datum) (names : List String) (leftOut : List String := []) : Option (List Datum) :=
  match d with
  | .record fields => names.mapM fun name =>
      match List.lookup name fields with
      | some value => some value
      | none => if leftOut.contains name then some .null else none
  | .list items => if items.length = names.length then some items else none
  | _ => none

def form? : Datum → Option (String × Datum)
  | .record [(name, contents)] => some (name, contents)
  | _ => none

def named? {α : Type} (names : List (String × α)) : Datum → Option α
  | .text name => List.lookup name names
  | .record [(name, .null)] => List.lookup name names
  | _ => none

end Datum

end Lift6502
