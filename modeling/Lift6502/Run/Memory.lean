/-!
# Memory

The processor sees all addresses of two bytes; code can also be run on a memory of another size.
-/

namespace Lift6502

abbrev Memory (n : Nat) := Vector UInt8 n

abbrev addressCount : Nat := 0x10000

namespace Memory

variable {n : Nat}

def zero (n : Nat) : Memory n := Vector.replicate n 0

def read (m : Memory addressCount) (address : UInt16) : UInt8 :=
  have inside : address.toNat < addressCount := address.toNat_lt
  m[address.toNat]

def write (m : Memory addressCount) (address : UInt16) (byte : UInt8) : Memory addressCount :=
  m.set address.toNat byte address.toNat_lt

theorem read_write (m : Memory addressCount) (address other : UInt16) (byte : UInt8) :
    (m.write address byte).read other = if other = address then byte else m.read other := by
  simp only [read, write, Vector.getElem_set, UInt16.toNat_inj]
  by_cases h : other = address
  · simp [h]
  · simp [h, Ne.symm h]

def place (m : Memory n) : Nat → List UInt8 → Memory n
  | _, [] => m
  | address, byte :: rest => place (m.setIfInBounds address byte) (address + 1) rest

/-- The addresses below `i` at which two memories differ, with both bytes, before `found`. -/
def differencesBelow (m k : Memory n) :
    (i : Nat) → i ≤ n → List (Nat × UInt8 × UInt8) → List (Nat × UInt8 × UInt8)
  | 0, _, found => found
  | i + 1, inside, found =>
    let l := m[i]
    let r := k[i]
    differencesBelow m k i (Nat.le_of_succ_le inside) (if l = r then found else (i, l, r) :: found)

def differences (m k : Memory n) : List (Nat × UInt8 × UInt8) :=
  differencesBelow m k n (Nat.le_refl n) []

end Memory

end Lift6502
