import Lift6502.Code.Expression
import Std.Data.TreeMap.Lemmas

/-!
# Values of variables

Variables are numbered, so that their values can be kept in a search tree.
-/

namespace Lift6502

def Location.number : Location → Nat
  | .a => 0
  | .x => 1
  | .y => 2
  | .c => 3
  | .z => 4
  | .n => 5
  | .v => 6

/-- Different variables have different numbers. -/
def Variable.number : Variable → Nat
  | .temp id => 9 * id
  | .merge l id => 9 * id + 1 + l.number
  | .input .a => 8
  | .input .x => 17
  | .input .y => 26
  | .dispatch => 35

def Variable.ofNumber (n : Nat) : Variable :=
  match n % 9 with
  | 0 => .temp (n / 9)
  | 1 => .merge .a (n / 9)
  | 2 => .merge .x (n / 9)
  | 3 => .merge .y (n / 9)
  | 4 => .merge .c (n / 9)
  | 5 => .merge .z (n / 9)
  | 6 => .merge .n (n / 9)
  | 7 => .merge .v (n / 9)
  | _ =>
    match n / 9 with
    | 0 => .input .a
    | 1 => .input .x
    | 2 => .input .y
    | _ => .dispatch

theorem Variable.ofNumber_number (v : Variable) : ofNumber v.number = v := by
  rcases v with id | ⟨(_ | _ | _) | (_ | _ | _ | _), id⟩ | (_ | _ | _) | _ <;>
    simp [ofNumber, Variable.number, Location.number, Nat.add_assoc,
      Nat.mul_add_div]

theorem Variable.number_inj {v w : Variable} (h : v.number = w.number) : v = w := by
  rw [← ofNumber_number v, h, ofNumber_number w]

structure Environment where
  values : Std.TreeMap Nat UInt32 := ∅

namespace Environment

def get? (env : Environment) (v : Variable) : Option UInt32 := env.values[v.number]?

def set (env : Environment) (v : Variable) (value : UInt32) : Environment :=
  { values := env.values.insert v.number value }

theorem get?_set (env : Environment) (v w : Variable) (value : UInt32) :
    (env.set v value).get? w = if w = v then some value else env.get? w := by
  simp only [get?, set, Std.TreeMap.getElem?_insert, Nat.compare_eq_eq]
  by_cases h : w = v
  · simp [h]
  · have : v.number ≠ w.number := fun hn => h (Variable.number_inj hn).symm
    simp [h, this]

end Environment

end Lift6502
