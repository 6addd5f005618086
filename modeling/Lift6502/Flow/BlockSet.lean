/-!
# Sets of blocks

A set of blocks is a strictly ascending list, so that equal sets are equal lists and members come
out in order.
-/

namespace Lift6502

abbrev BlockId := Nat

structure BlockSet where
  toList : List BlockId
  ascending : toList.Pairwise (· < ·) := by simp
  deriving DecidableEq, Repr

namespace BlockSet

def empty : BlockSet := { toList := [] }

instance : EmptyCollection BlockSet := ⟨empty⟩

instance : Inhabited BlockSet := ⟨empty⟩

instance : Membership BlockId BlockSet := ⟨fun s b => b ∈ s.toList⟩

instance (b : BlockId) (s : BlockSet) : Decidable (b ∈ s) :=
  inferInstanceAs (Decidable (b ∈ s.toList))

theorem mem_iff {b : BlockId} {s : BlockSet} : b ∈ s ↔ b ∈ s.toList := Iff.rfl

def contains (s : BlockSet) (b : BlockId) : Bool := decide (b ∈ s)

def size (s : BlockSet) : Nat := s.toList.length

def isEmpty (s : BlockSet) : Bool := s.toList.isEmpty

def insertInto (b : BlockId) : List BlockId → List BlockId
  | [] => [b]
  | c :: rest => if b < c then b :: c :: rest else if b = c then c :: rest else c :: insertInto b rest

@[simp] theorem mem_insertInto {b c : BlockId} {l : List BlockId} :
    c ∈ insertInto b l ↔ c = b ∨ c ∈ l := by
  induction l with
  | nil => simp [insertInto]
  | cons d rest ih =>
    unfold insertInto
    split
    · simp
    · split
      · simp_all
      · simp only [List.mem_cons, ih]
        constructor <;> rintro (h | h | h) <;> simp [h]

theorem ascending_insertInto {b : BlockId} {l : List BlockId} (h : l.Pairwise (· < ·)) :
    (insertInto b l).Pairwise (· < ·) := by
  induction l with
  | nil => simp [insertInto]
  | cons c rest ih =>
    have ⟨hc, hrest⟩ := List.pairwise_cons.1 h
    unfold insertInto
    split
    · next hb =>
      refine List.pairwise_cons.2 ⟨?_, h⟩
      intro d hd
      rcases List.mem_cons.1 hd with rfl | hd
      · exact hb
      · exact Nat.lt_trans hb (hc d hd)
    · next hb =>
      split
      · exact h
      · next hne =>
        refine List.pairwise_cons.2 ⟨?_, ih hrest⟩
        intro d hd
        rcases mem_insertInto.1 hd with rfl | hd
        · exact Nat.lt_of_le_of_ne (Nat.le_of_not_lt hb) (Ne.symm hne)
        · exact hc d hd

def insert (s : BlockSet) (b : BlockId) : BlockSet where
  toList := insertInto b s.toList
  ascending := ascending_insertInto s.ascending

def filter (keep : BlockId → Bool) (s : BlockSet) : BlockSet where
  toList := s.toList.filter keep
  ascending := s.ascending.filter keep

def erase (s : BlockSet) (b : BlockId) : BlockSet := s.filter (· != b)

def ofList (bs : List BlockId) : BlockSet := bs.foldl insert ∅

def union (s t : BlockSet) : BlockSet := t.toList.foldl insert s

def range (n : Nat) : BlockSet where
  toList := List.range n
  ascending := List.pairwise_lt_range

@[simp] theorem not_mem_empty (b : BlockId) : b ∉ (∅ : BlockSet) := List.not_mem_nil

@[simp] theorem mem_insert {b c : BlockId} {s : BlockSet} : c ∈ s.insert b ↔ c = b ∨ c ∈ s :=
  mem_insertInto

@[simp] theorem mem_filter {b : BlockId} {keep : BlockId → Bool} {s : BlockSet} :
    b ∈ s.filter keep ↔ b ∈ s ∧ keep b = true := List.mem_filter

@[simp] theorem mem_erase {b c : BlockId} {s : BlockSet} : c ∈ s.erase b ↔ c ∈ s ∧ c ≠ b := by
  simp [erase]

@[simp] theorem contains_iff {b : BlockId} {s : BlockSet} : s.contains b = true ↔ b ∈ s := by
  simp [contains]

theorem mem_foldl_insert {bs : List BlockId} {s : BlockSet} {b : BlockId} :
    b ∈ bs.foldl insert s ↔ b ∈ bs ∨ b ∈ s := by
  induction bs generalizing s with
  | nil => simp
  | cons c rest ih =>
    simp only [List.foldl_cons, ih, mem_insert, List.mem_cons]
    constructor
    · rintro (h | h | h) <;> simp [h]
    · rintro ((h | h) | h) <;> simp [h]

@[simp] theorem mem_ofList {bs : List BlockId} {b : BlockId} : b ∈ ofList bs ↔ b ∈ bs := by
  simp [ofList, mem_foldl_insert]

@[simp] theorem mem_union {s t : BlockSet} {b : BlockId} : b ∈ s.union t ↔ b ∈ s ∨ b ∈ t := by
  simp only [union, mem_foldl_insert, ← mem_iff]
  exact Or.comm

def text (s : BlockSet) : String :=
  "\x7b" ++ String.intercalate ", " (s.toList.map fun b => "BlockId(" ++ toString b ++ ")") ++
    "\x7d"

end BlockSet

end Lift6502
