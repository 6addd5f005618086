/-!
# Registers, flags and locations

A location is a register or a condition flag. Maps that hold one value per location are records, so
that look-up is total and equality is decidable; sets are such maps into `Bool`.
-/

namespace Lift6502

inductive Register where
  | a
  | x
  | y
  deriving DecidableEq, Repr

/-- The condition flags that branches test or arithmetic sets. Decimal mode and the interrupt mask
are left out: no generated value depends on them. -/
inductive Flag where
  | carry
  | zero
  | negative
  | overflow
  deriving DecidableEq, Repr

inductive Location where
  | register (r : Register)
  | flag (f : Flag)
  deriving DecidableEq, Repr

namespace Register

def all : List Register := [.a, .x, .y]

def text : Register → String
  | .a => "a"
  | .x => "x"
  | .y => "y"

def title : Register → String
  | .a => "A"
  | .x => "X"
  | .y => "Y"

theorem mem_all (r : Register) : r ∈ all := by cases r <;> decide

end Register

namespace Flag

def all : List Flag := [.carry, .zero, .negative, .overflow]

def statusBit : Flag → Nat
  | .carry => 0
  | .zero => 1
  | .overflow => 6
  | .negative => 7

theorem mem_all (f : Flag) : f ∈ all := by cases f <;> decide

end Flag

namespace Location

@[match_pattern] abbrev a : Location := .register .a
@[match_pattern] abbrev x : Location := .register .x
@[match_pattern] abbrev y : Location := .register .y
@[match_pattern] abbrev c : Location := .flag .carry
@[match_pattern] abbrev z : Location := .flag .zero
@[match_pattern] abbrev n : Location := .flag .negative
@[match_pattern] abbrev v : Location := .flag .overflow

def all : List Location := Register.all.map .register ++ Flag.all.map .flag

def flags : List Location := Flag.all.map .flag

def register? : Location → Option Register
  | .register r => some r
  | .flag _ => none

def flag? : Location → Option Flag
  | .register _ => none
  | .flag f => some f

def isFlag (l : Location) : Bool := l.flag?.isSome

def text : Location → String
  | .register r => r.text
  | .flag .carry => "c"
  | .flag .zero => "z"
  | .flag .negative => "n"
  | .flag .overflow => "v"

def title : Location → String
  | .register r => r.title
  | .flag .carry => "C"
  | .flag .zero => "Z"
  | .flag .negative => "N"
  | .flag .overflow => "V"

theorem mem_all (l : Location) : l ∈ all := by
  rcases l with r | f
  · cases r <;> decide
  · cases f <;> decide

end Location

structure PerRegister (α : Type) where
  a : α
  x : α
  y : α
  deriving DecidableEq, Repr, Inhabited

namespace PerRegister

variable {α β : Type}

def get (m : PerRegister α) : Register → α
  | .a => m.a
  | .x => m.x
  | .y => m.y

def set (m : PerRegister α) (r : Register) (value : α) : PerRegister α :=
  match r with
  | .a => { m with a := value }
  | .x => { m with x := value }
  | .y => { m with y := value }

def ofFn (f : Register → α) : PerRegister α := ⟨f .a, f .x, f .y⟩

@[simp] theorem get_ofFn (f : Register → α) (r : Register) : (ofFn f).get r = f r := by
  cases r <;> rfl

theorem get_set (m : PerRegister α) (r s : Register) (value : α) :
    (m.set r value).get s = if s = r then value else m.get s := by
  cases r <;> cases s <;> rfl

@[ext] theorem ext {m k : PerRegister α} (h : ∀ r, m.get r = k.get r) : m = k := by
  have ha := h .a
  have hx := h .x
  have hy := h .y
  cases m
  cases k
  simp_all [get]

end PerRegister

structure PerFlag (α : Type) where
  carry : α
  zero : α
  negative : α
  overflow : α
  deriving DecidableEq, Repr

namespace PerFlag

variable {α : Type}

def get (m : PerFlag α) : Flag → α
  | .carry => m.carry
  | .zero => m.zero
  | .negative => m.negative
  | .overflow => m.overflow

def ofFn (f : Flag → α) : PerFlag α := ⟨f .carry, f .zero, f .negative, f .overflow⟩

@[simp] theorem get_ofFn (f : Flag → α) (flag : Flag) : (ofFn f).get flag = f flag := by
  cases flag <;> rfl

end PerFlag

structure PerLocation (α : Type) where
  a : α
  x : α
  y : α
  c : α
  z : α
  n : α
  v : α
  deriving DecidableEq, Repr, Inhabited

namespace PerLocation

variable {α β : Type}

def get (m : PerLocation α) : Location → α
  | .a => m.a
  | .x => m.x
  | .y => m.y
  | .c => m.c
  | .z => m.z
  | .n => m.n
  | .v => m.v

def set (m : PerLocation α) (l : Location) (value : α) : PerLocation α :=
  match l with
  | .a => { m with a := value }
  | .x => { m with x := value }
  | .y => { m with y := value }
  | .c => { m with c := value }
  | .z => { m with z := value }
  | .n => { m with n := value }
  | .v => { m with v := value }

def ofFn (f : Location → α) : PerLocation α :=
  ⟨f .a, f .x, f .y, f .c, f .z, f .n, f .v⟩

@[simp] theorem get_ofFn (f : Location → α) (l : Location) : (ofFn f).get l = f l := by
  rcases l with r | f
  · cases r <;> rfl
  · cases f <;> rfl

theorem get_set (m : PerLocation α) (l k : Location) (value : α) :
    (m.set l value).get k = if k = l then value else m.get k := by
  rcases l with r | f
  · cases r <;> (rcases k with s | g) <;> first | (cases s <;> rfl) | (cases g <;> rfl)
  · cases f <;> (rcases k with s | g) <;> first | (cases s <;> rfl) | (cases g <;> rfl)

@[ext] theorem ext {m k : PerLocation α} (h : ∀ l, m.get l = k.get l) : m = k := by
  have ha := h .a
  have hx := h .x
  have hy := h .y
  have hc := h .c
  have hz := h .z
  have hn := h .n
  have hv := h .v
  cases m
  cases k
  simp_all [get]

end PerLocation

abbrev RegisterSet := PerRegister Bool

namespace RegisterSet

def empty : RegisterSet := ⟨false, false, false⟩

instance : EmptyCollection RegisterSet := ⟨empty⟩

instance : Membership Register RegisterSet := ⟨fun s r => s.get r = true⟩

instance (r : Register) (s : RegisterSet) : Decidable (r ∈ s) :=
  inferInstanceAs (Decidable (s.get r = true))

def toList (s : RegisterSet) : List Register := Register.all.filter s.get

def ofList (rs : List Register) : RegisterSet := .ofFn (rs.contains ·)

def union (s t : RegisterSet) : RegisterSet := .ofFn fun r => s.get r || t.get r

def inter (s t : RegisterSet) : RegisterSet := .ofFn fun r => s.get r && t.get r

def diff (s t : RegisterSet) : RegisterSet := .ofFn fun r => s.get r && !t.get r

def text (s : RegisterSet) : String := String.join (s.toList.map Register.text)

def journalText (s : RegisterSet) : String :=
  "\x7b" ++ String.intercalate ", " (s.toList.map Register.title) ++ "\x7d"

theorem mem_iff {r : Register} {s : RegisterSet} : r ∈ s ↔ s.get r = true := Iff.rfl

@[simp] theorem not_mem_empty (r : Register) : r ∉ (∅ : RegisterSet) := by
  cases r <;> decide

@[simp] theorem mem_union {r : Register} {s t : RegisterSet} : r ∈ s.union t ↔ r ∈ s ∨ r ∈ t := by
  simp [mem_iff, union]

@[simp] theorem mem_inter {r : Register} {s t : RegisterSet} : r ∈ s.inter t ↔ r ∈ s ∧ r ∈ t := by
  simp [mem_iff, inter]

@[simp] theorem mem_diff {r : Register} {s t : RegisterSet} : r ∈ s.diff t ↔ r ∈ s ∧ r ∉ t := by
  simp [mem_iff, diff]

@[simp] theorem mem_toList {r : Register} {s : RegisterSet} : r ∈ s.toList ↔ r ∈ s := by
  simp [toList, mem_iff, Register.mem_all]

end RegisterSet

abbrev LocationSet := PerLocation Bool

namespace LocationSet

def empty : LocationSet := ⟨false, false, false, false, false, false, false⟩

def full : LocationSet := ⟨true, true, true, true, true, true, true⟩

instance : EmptyCollection LocationSet := ⟨empty⟩

instance : Membership Location LocationSet := ⟨fun s l => s.get l = true⟩

instance (l : Location) (s : LocationSet) : Decidable (l ∈ s) :=
  inferInstanceAs (Decidable (s.get l = true))

def toList (s : LocationSet) : List Location := Location.all.filter s.get

def ofList (ls : List Location) : LocationSet := .ofFn (ls.contains ·)

def union (s t : LocationSet) : LocationSet := .ofFn fun l => s.get l || t.get l

def inter (s t : LocationSet) : LocationSet := .ofFn fun l => s.get l && t.get l

def diff (s t : LocationSet) : LocationSet := .ofFn fun l => s.get l && !t.get l

def subset (s t : LocationSet) : Bool := Location.all.all fun l => !s.get l || t.get l

def registers (s : LocationSet) : RegisterSet := ⟨s.a, s.x, s.y⟩

def ofRegisters (s : RegisterSet) : LocationSet :=
  { empty with a := s.a, x := s.x, y := s.y }

def flags : LocationSet := ofList Location.flags

def text (s : LocationSet) : String := String.join (s.toList.map Location.text)

def journalText (s : LocationSet) : String :=
  "\x7b" ++ String.intercalate ", " (s.toList.map Location.title) ++ "\x7d"

theorem mem_iff {l : Location} {s : LocationSet} : l ∈ s ↔ s.get l = true := Iff.rfl

@[simp] theorem mem_ofList {l : Location} {ls : List Location} : l ∈ ofList ls ↔ l ∈ ls := by
  simp [mem_iff, ofList]

@[simp] theorem mem_toList {l : Location} {s : LocationSet} : l ∈ s.toList ↔ l ∈ s := by
  simp [toList, mem_iff, Location.mem_all]

@[simp] theorem mem_union {l : Location} {s t : LocationSet} : l ∈ s.union t ↔ l ∈ s ∨ l ∈ t := by
  simp [mem_iff, union]

@[simp] theorem mem_inter {l : Location} {s t : LocationSet} : l ∈ s.inter t ↔ l ∈ s ∧ l ∈ t := by
  simp [mem_iff, inter]

@[simp] theorem mem_diff {l : Location} {s t : LocationSet} : l ∈ s.diff t ↔ l ∈ s ∧ l ∉ t := by
  simp [mem_iff, diff]

theorem subset_iff {s t : LocationSet} : s.subset t = true ↔ ∀ l ∈ s, l ∈ t := by
  have hone : ∀ l, (!s.get l || t.get l) = true ↔ (l ∈ s → l ∈ t) := by
    intro l
    rw [mem_iff, mem_iff]
    cases s.get l <;> simp
  simp [subset, hone, Location.mem_all]

end LocationSet

end Lift6502
