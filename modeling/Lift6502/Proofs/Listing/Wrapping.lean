import Lift6502.Proofs.Listing.Layout

/-!
# Offsets wrap around

Offsets are taken modulo the size of memory, so a line behind 65536 bytes lies on top of an earlier
one.
-/

namespace Lift6502

variable {lines : List Line}

theorem bytesOf_take_succ {k : Nat} {line : Line} (h : lines[k]? = some line) :
    bytesOf (lines.take (k + 1)) = bytesOf (lines.take k) + line.byteCount := by
  rw [List.take_add_one, bytesOf_append, h]
  rfl

theorem bytesOf_take_le (lines : List Line) {j k : Nat} (h : j ≤ k) :
    bytesOf (lines.take j) ≤ bytesOf (lines.take k) := by
  have hsplit := congrArg bytesOf (List.take_append_drop j (lines.take k))
  rw [bytesOf_append, List.take_take, Nat.min_eq_left h] at hsplit
  omega

theorem bytesOf_take_le_bytesOf (lines : List Line) (k : Nat) :
    bytesOf (lines.take k) ≤ bytesOf lines := by
  have hsplit := congrArg bytesOf (List.take_append_drop k lines)
  rw [bytesOf_append] at hsplit
  omega

theorem exists_line_of_lt {x : Nat} (h : x < bytesOf lines) :
    ∃ j line, lines[j]? = some line ∧ bytesOf (lines.take j) ≤ x ∧
      x < bytesOf (lines.take j) + line.byteCount := by
  induction lines generalizing x with
  | nil => exact absurd h (Nat.not_lt_zero x)
  | cons first rest ih =>
    rw [bytesOf_cons] at h
    by_cases hx : x < first.byteCount
    · refine ⟨0, first, rfl, Nat.zero_le x, ?_⟩
      show x < 0 + first.byteCount
      omega
    · obtain ⟨j, line, hline, hlow, hhigh⟩ := ih (x := x - first.byteCount) (by omega)
      refine ⟨j + 1, line, hline, ?_, ?_⟩
      · rw [List.take_succ_cons, bytesOf_cons]
        omega
      · rw [List.take_succ_cons, bytesOf_cons]
        omega

/-! ## Lines on top of each other -/

def Line.Occupies (line : Line) (x : Nat) : Prop :=
  line.offset.toNat ≤ x ∧ x < line.offset.toNat + line.byteCount

namespace Program

variable {k : Nat} {line : Line}

def start (p : Program) (k : Nat) : Nat := bytesOf (p.lines.take k)

def Apart (p : Program) : Prop :=
  ∀ (j k : Nat) (line other : Line), j ≠ k → p.lines[j]? = some line → p.lines[k]? = some other →
    ∀ x, ¬ (line.Occupies x ∧ other.Occupies x)

def Ascending (p : Program) : Prop :=
  ∀ (j k : Nat) (line other : Line), j ≤ k → p.lines[j]? = some line → p.lines[k]? = some other →
    line.offset ≤ other.offset

/-- Offsets are counted modulo the size of memory. -/
structure Wraps (p : Program) : Prop where
  offset : ∀ k line, p.lines[k]? = some line → line.offset.toNat = p.start k % 0x10000
  /-- Lines that hold bytes are apart exactly if each of them starts below the bound. -/
  apart_iff : p.Apart ↔ ∀ k line, p.lines[k]? = some line → 0 < line.byteCount → p.start k < 0x10000
  /-- Unless a single line is as long as memory, offsets decrease where a line starts
  behind the bound. -/
  ascending_iff : (∀ line ∈ p.lines, line.byteCount < 0x10000) →
    (p.Ascending ↔ ∀ k < p.lines.length, p.start k < 0x10000)
  /-- What ends in memory lies there line by line. -/
  fits : p.origin.toNat + p.byteCount ≤ 0x10000 → p.Apart ∧
    ∀ k line, p.lines[k]? = some line → 0 < line.byteCount →
      (p.addressOf line.offset).toNat = p.origin.toNat + p.start k

variable {p : Program}

theorem WellPlaced.toNat_offset (h : p.WellPlaced) (hline : p.lines[k]? = some line) :
    line.offset.toNat = p.start k % 0x10000 := by
  obtain ⟨stop, hspans⟩ := h.spans
  rw [hspans.offset_eq hline, UInt16.zero_add, UInt16.toNat_ofNat']
  rfl

theorem WellPlaced.toNat_offset_of_lt (h : p.WellPlaced) (hline : p.lines[k]? = some line)
    (hk : p.start k < 0x10000) : line.offset.toNat = p.start k := by
  rw [h.toNat_offset hline, Nat.mod_eq_of_lt hk]

theorem start_add_le {j : Nat} (hline : p.lines[j]? = some line) (hjk : j < k) :
    p.start j + line.byteCount ≤ p.start k := by
  rw [start, ← bytesOf_take_succ hline]
  exact bytesOf_take_le p.lines hjk

variable (h : p.WellPlaced)

include h

theorem WellPlaced.start_lt_of_apart (hp : p.Apart) (hline : p.lines[k]? = some line)
    (hbytes : 0 < line.byteCount) : p.start k < 0x10000 := by
  by_contra hk
  have hx : p.start k % 0x10000 < bytesOf (p.lines.take k) := by
    show p.start k % 0x10000 < p.start k
    omega
  obtain ⟨j, other, hother, hlow, hhigh⟩ := exists_line_of_lt hx
  obtain ⟨hj, hother⟩ : j < k ∧ p.lines[j]? = some other := by
    rw [List.getElem?_take] at hother
    split at hother
    · next hj => exact ⟨hj, hother⟩
    · cases hother
  rw [List.take_take, Nat.min_eq_left (Nat.le_of_lt hj)] at hlow hhigh
  have hoffset : other.offset.toNat = p.start j :=
    h.toNat_offset_of_lt hother (by rw [start]; omega)
  refine hp j k other line (Nat.ne_of_lt hj) hother hline (p.start k % 0x10000) ⟨?_, ?_⟩
  · rw [Line.Occupies, hoffset, start]
    exact ⟨hlow, hhigh⟩
  · rw [Line.Occupies, h.toNat_offset hline]
    omega

theorem WellPlaced.not_occupies
    (hstart : ∀ k line, p.lines[k]? = some line → 0 < line.byteCount → p.start k < 0x10000)
    {j : Nat} (hjk : j < k) {other : Line} (hline : p.lines[j]? = some line)
    (hother : p.lines[k]? = some other) {x : Nat} (hx : line.Occupies x) : ¬ other.Occupies x := by
  intro hx'
  have hle := start_add_le hline hjk
  unfold Line.Occupies at hx hx'
  rw [h.toNat_offset_of_lt hline (hstart j line hline (by omega))] at hx
  rw [h.toNat_offset_of_lt hother (hstart k other hother (by omega))] at hx'
  omega

theorem WellPlaced.apart_iff : p.Apart ↔
    ∀ k line, p.lines[k]? = some line → 0 < line.byteCount → p.start k < 0x10000 := by
  refine ⟨fun hp k line hline hbytes => h.start_lt_of_apart hp hline hbytes, fun hstart => ?_⟩
  rintro j k line other hne hline hother x ⟨hx, hx'⟩
  rcases Nat.lt_or_gt_of_ne hne with hjk | hkj
  · exact h.not_occupies hstart hjk hline hother hx hx'
  · exact h.not_occupies hstart hkj hother hline hx' hx

theorem WellPlaced.ascending_iff (hshort : ∀ line ∈ p.lines, line.byteCount < 0x10000) :
    p.Ascending ↔ ∀ k < p.lines.length, p.start k < 0x10000 := by
  constructor
  · -- The first line behind the bound would have a smaller offset than the line before it.
    intro hp k hk
    induction k with
    | zero =>
      show (0 : Nat) < 0x10000
      decide
    | succ k ih =>
      have hbefore := ih (Nat.lt_of_succ_lt hk)
      have hline := List.getElem?_eq_getElem (Nat.lt_of_succ_lt hk)
      have hother := List.getElem?_eq_getElem hk
      have hle := hp k (k + 1) _ _ (Nat.le_succ k) hline hother
      have hlength := hshort _ (List.mem_of_getElem? hline)
      rw [UInt16.le_iff_toNat_le, h.toNat_offset_of_lt hline hbefore, h.toNat_offset hother] at hle
      have hsucc : p.start (k + 1) = p.start k + _ := bytesOf_take_succ hline
      omega
  · intro hstart j k line other hjk hline hother
    have hj := hstart j (List.getElem?_eq_some_iff.1 hline).1
    have hk := hstart k (List.getElem?_eq_some_iff.1 hother).1
    rw [UInt16.le_iff_toNat_le, h.toNat_offset_of_lt hline hj, h.toNat_offset_of_lt hother hk]
    exact bytesOf_take_le p.lines hjk

theorem WellPlaced.wraps : p.Wraps where
  offset := fun _ _ hline => h.toNat_offset hline
  apart_iff := h.apart_iff
  ascending_iff := h.ascending_iff
  fits := by
    intro hfits
    have hend : ∀ k line, p.lines[k]? = some line → p.start k + line.byteCount ≤ p.byteCount := by
      intro k line hline
      rw [start, ← bytesOf_take_succ hline]
      exact bytesOf_take_le_bytesOf p.lines (k + 1)
    have hstart : ∀ k line, p.lines[k]? = some line → 0 < line.byteCount → p.start k < 0x10000 := by
      intro k line hline hbytes
      have := hend k line hline
      omega
    refine ⟨h.apart_iff.2 hstart, fun k line hline hbytes => ?_⟩
    have hle := hend k line hline
    rw [addressOf, UInt16.toNat_add, h.toNat_offset_of_lt hline (hstart k line hline hbytes)]
    exact Nat.mod_eq_of_lt (by omega)

end Program

namespace Listing

/-- In a program that was read, offsets are byte counts modulo the size of memory. So lines lie
on top of each other exactly if one that holds bytes starts behind 65536 others; nothing of
this is checked. -/
theorem offsets_wrap (source : String) (p : Program) (h : read source = .ok p) : p.Wraps :=
  (wellPlaced_read h).wraps

def pastEndText : String := " .org $fffe\n NOP\n NOP\n NOP"

def pastEnd : Program where
  origin := 0xfffe
  lines := [⟨none, 0, .code ⟨.nop, .implied⟩⟩, ⟨none, 1, .code ⟨.nop, .implied⟩⟩,
    ⟨none, 2, .code ⟨.nop, .implied⟩⟩]

/-- A program may run past the end of memory, and its lines are still apart. -/
theorem offsets_wrap_pastEnd : read pastEndText = .ok pastEnd ∧
    0x10000 < pastEnd.origin.toNat + pastEnd.byteCount ∧ pastEnd.Apart := by
  have hread : read pastEndText = .ok pastEnd := by decide +kernel
  refine ⟨hread, by decide,
    (offsets_wrap pastEndText pastEnd hread).apart_iff.2 fun k line _ _ => ?_⟩
  have htotal : pastEnd.start k ≤ 3 := bytesOf_take_le_bytesOf pastEnd.lines k
  omega

def overlappingText : String := " .org $0000\n .org $ffff\n NOP\n NOP"

def overlapping : Program where
  origin := 0
  lines := [⟨none, 0, .data (List.replicate 0xffff 0)⟩, ⟨none, 0xffff, .code ⟨.nop, .implied⟩⟩,
    ⟨none, 0, .code ⟨.nop, .implied⟩⟩]

theorem setOrigin_padded (r : Reader) (horigin : r.origin = some 0) (hoffset : r.offset = 0) :
    r.setOrigin 0xffff = .ok (r.push none (.data (List.replicate 0xffff 0))) := by
  have hfirst : ¬ (r.origin.isNone && decide (r.offset = 0)) = true := by simp [horigin]
  rw [Reader.setOrigin, if_neg hfirst, horigin, hoffset]
  rfl

theorem read_overlapping : read overlappingText = .ok overlapping := by
  have hnumbered : numbered overlappingText.toList =
      [(1, ".org $0000".toList), (2, ".org $ffff".toList), (3, "NOP".toList),
        (4, "NOP".toList)] := by
    decide +kernel
  have hconstants : definedConstants [(1, ".org $0000".toList), (2, ".org $ffff".toList),
      (3, "NOP".toList), (4, "NOP".toList)] = .ok [] := by
    decide +kernel
  let r1 : Reader := { constants := [], origin := some 0 }
  let r2 := r1.push none (.data (List.replicate 0xffff 0))
  let r3 := r2.push none (.code ⟨.nop, .implied⟩)
  let r4 := r3.push none (.code ⟨.nop, .implied⟩)
  have h1 : Reader.line { constants := [] } 1 ".org $0000".toList = .ok r1 := rfl
  have h2 : r1.line 2 ".org $ffff".toList = .ok r2 := by
    have hdirective : r1.line 2 ".org $ffff".toList =
        (do return (← r1.setOrigin (← value r1.constants "$ffff".toList))) := rfl
    have hvalue : value r1.constants "$ffff".toList = .ok 0xffff := by decide +kernel
    rw [hdirective, hvalue, Reader.ok_bind, setOrigin_padded r1 rfl rfl]
  have h3 : r2.line 3 "NOP".toList = .ok r3 := rfl
  have h4 : r3.line 4 "NOP".toList = .ok r4 := rfl
  have hoffset : r2.offset = 0xffff := by
    show 0 + UInt16.ofNat (List.replicate 0xffff (0 : UInt8)).length = _
    rw [List.length_replicate]
    rfl
  have hlines : r4.lines.toList = overlapping.lines := by
    have hlast : r3.offset = r2.offset + 1 := rfl
    rw [Reader.toList_push, Reader.toList_push, hlast, hoffset]
    rfl
  have hread : readLines [] [(1, ".org $0000".toList), (2, ".org $ffff".toList), (3, "NOP".toList),
      (4, "NOP".toList)] = .ok r4 := by
    simp only [readLines, List.foldlM_cons, List.foldlM_nil, h1, h2, h3, h4, atLine,
      Except.mapError, Reader.ok_bind]
    rfl
  rw [read, hnumbered]
  simp only [hconstants, Reader.ok_bind, hread]
  rw [Reader.finish, hlines]
  rfl

/-- A listing of more bytes than memory holds is read. The last instruction gets the offset of the
zeros at the front and overwrites one of them. -/
theorem overlapping_accepted : read overlappingText = .ok overlapping ∧
    0x10000 < overlapping.origin.toNat + overlapping.byteCount ∧ ¬ overlapping.Ascending ∧
    ¬ overlapping.Apart := by
  have hzeros : Line.byteCount ⟨none, 0, .data (List.replicate 0xffff 0)⟩ = 0xffff :=
    List.length_replicate
  refine ⟨read_overlapping, ?_, fun h => ?_, fun h => ?_⟩
  · have hcount : overlapping.byteCount = 0xffff + (1 + (1 + 0)) := by
      rw [Program.byteCount, overlapping, List.map_cons, List.sum_cons, hzeros]
      rfl
    rw [hcount]
    decide
  · exact absurd (h 1 2 _ _ (by decide) rfl rfl) (by decide)
  · refine h 0 2 _ _ (by decide) rfl rfl 0 ⟨⟨Nat.le_refl 0, ?_⟩, by decide, by decide⟩
    rw [hzeros]
    decide

end Listing

end Lift6502
