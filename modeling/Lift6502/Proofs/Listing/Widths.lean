import Lift6502.Proofs.Listing.Layout

/-!
# Widths of operands

A direct or indexed operand that is written with one byte stands for an address in page zero; the
place of a pointer is not checked.
-/

namespace Lift6502

def Operand.narrow? : Operand → Option Target
  | .direct t .zeroPage | .indexed t _ .zeroPage => some t
  | _ => none

/-- An address of one byte belongs to such an operand, unless it is the place of a pointer. -/
theorem Instruction.narrow?_of_mode {i : Instruction} {mode : AddressingMode} {t : Target}
    (hmode : i.mode? = some mode) (hpage : mode ∈ [AddressingMode.zeroPage, .zeroPageX, .zeroPageY])
    (htarget : i.operand.target? = some t) : i.operand.narrow? = some t := by
  have hmodes : mode ∈ i.operand.modes := by
    rcases mode?_cases hmode with ⟨-, -, rfl⟩ | ⟨-, hmodes⟩
    · exact absurd hpage (by decide)
    · exact hmodes
  revert hpage
  cases hoperand : i.operand <;> rw [hoperand] at hmodes htarget
  case direct target width =>
    cases width <;> simp_all [Operand.modes, Operand.narrow?, Operand.target?]
  case indexed target index width =>
    cases index <;> cases width <;> simp_all [Operand.modes, Operand.narrow?, Operand.target?]
  all_goals simp_all [Operand.modes, Operand.target?]

namespace Listing

open Reader

variable {text : List Char} {p : Program} {i : Instruction} {o : Operand} {item : Item}
  {zeros number : Nat} {x : String}

variable {constants : Constants} {t : Target} {lines : List (Nat × List Char)} {offset : UInt16}

theorem knownValue?_of_width (h : width constants t = .zeroPage) :
    ∃ known : Int, knownValue? constants t = some known ∧ 0 ≤ known ∧ known ≤ 0xff := by
  unfold width at h
  split at h
  · next known hknown =>
    split at h
    · next hpage => exact ⟨known, hknown, by simpa using hpage⟩
    · cases h
  · cases h

theorem operand_cases (h : operand constants text = .ok o) :
    o = .implied ∨ o = .accumulator ∨
      (∃ rest value, immediate constants rest = .ok value ∧ o = .immediate value) ∨
      ∃ inner t, target inner = .ok t ∧ (o = .indexedIndirect t ∨ o = .indirectIndexed t ∨
        o = .indirect t ∨ o = .direct t (width constants t) ∨
          ∃ index, o = .indexed t index (width constants t)) := by
  unfold operand addressed unbracketed at h
  split at h
  · exact .inl (Except.ok.inj h).symm
  · exact .inr (.inl (Except.ok.inj h).symm)
  · exact .inr (.inl (Except.ok.inj h).symm)
  · obtain ⟨value, hvalue, h⟩ := bind_eq_ok h
    exact .inr (.inr (.inl ⟨_, value, hvalue, (Except.ok.inj h).symm⟩))
  · refine .inr (.inr (.inr ?_))
    repeat' split at h
    all_goals
      obtain ⟨t, ht, h⟩ := bind_eq_ok h
      cases h
      exact ⟨_, t, ht, by simp⟩

theorem width_of_operand (h : operand constants text = .ok o)
    (hnarrow : o.narrow? = some t) : width constants t = .zeroPage := by
  rcases operand_cases h with rfl | rfl | ⟨_, _, -, rfl⟩ |
    ⟨_, t', -, rfl | rfl | rfl | rfl | ⟨index, rfl⟩⟩
  iterate 6 cases hnarrow
  all_goals
    cases hwidth : width constants t' with
    | zeroPage =>
      rw [hwidth] at hnarrow
      cases hnarrow
      exact hwidth
    | absolute =>
      rw [hwidth] at hnarrow
      cases hnarrow

/-- An operand on the line was found to lie in page zero with these constants, and a constant on it
has its value among them. -/
structure Matches (constants : Constants) (line : Line) : Prop where
  narrow : ∀ i t, line.kind = .code i → i.operand.narrow? = some t → width constants t = .zeroPage
  constant : ∀ x value, line.constant? = some (x, value) → value = (constants.lookup x).getD 0

theorem matches_of_plain {line : Line} (hcode : ∀ i, line.kind ≠ .code i)
    (hconstant : line.constant? = none) : Matches constants line := by
  refine ⟨fun i t hkind => absurd hkind (hcode i), fun x value hdefined => ?_⟩
  rw [hconstant] at hdefined
  cases hdefined

theorem Item.OfBody.matches_of_mem_draft {label : Option String}
    (h : OfBody constants label text item) {line : Line}
    (hline : line ∈ item.draft offset zeros) : Matches constants line := by
  cases h with
  | empty | bytes | words =>
    obtain rfl := List.mem_singleton.1 hline
    exact matches_of_plain (fun _ => LineKind.noConfusion) rfl
  | origin =>
    rcases List.mem_append.1 hline with hline | hline
    · unfold padding at hline
      split at hline
      · cases hline
      · obtain rfl := List.mem_singleton.1 hline
        exact matches_of_plain (fun _ => LineKind.noConfusion) rfl
    · unfold marker at hline
      split at hline
      · obtain rfl := List.mem_singleton.1 hline
        exact matches_of_plain (fun _ => LineKind.noConfusion) rfl
      · cases hline
  | code other shape known read =>
    obtain rfl := List.mem_singleton.1 hline
    constructor
    · intro i t hcode hnarrow
      cases hcode
      exact width_of_operand read hnarrow
    · intro x value hconstant
      cases hconstant

theorem Item.OfText.matches_of_mem_draft (h : OfText constants text item) {line : Line}
    (hline : line ∈ item.draft offset zeros) : Matches constants line := by
  cases h with
  | blank => cases hline
  | constant =>
    obtain rfl := List.mem_singleton.1 hline
    constructor
    · intro i t hcode
      cases hcode
    · intro x value hconstant
      cases hconstant
      rfl
  | unlabelled _ _ body | labelled _ _ body => exact body.matches_of_mem_draft hline

namespace Reader

variable {r r' : Reader}

def AllMatch (r : Reader) : Prop := ∀ line ∈ r.lines.toList, Matches r.constants line

theorem AllMatch.line (h : r.AllMatch) (hr : r.line number text = .ok r') : r'.AllMatch := by
  obtain ⟨item, zeros, hitem, -, hadds⟩ := line_adds hr
  intro line hline
  rw [hadds.lines] at hline
  rw [hadds.constants]
  rcases List.mem_append.1 hline with hline | hline
  · exact h line hline
  · exact hitem.matches_of_mem_draft hline

theorem exists_constant_of_line {symbol rest : List Char}
    (hshape : constant? text = some (symbol, rest)) (hr : r.line number text = .ok r') :
    ∃ line ∈ r'.lines.toList, ∃ value, line.constant? = some (name symbol, value) := by
  obtain ⟨item, zeros, hitem, -, hadds⟩ := line_adds hr
  rw [hadds.lines]
  cases hitem with
  | blank => cases hshape
  | constant shape =>
    cases hshape.symm.trans shape
    exact ⟨_, List.mem_append_right _ List.mem_cons_self, _, rfl⟩
  | unlabelled other | labelled other =>
    rw [hshape] at other
    cases other

/-! ## The whole listing -/

theorem readLines_invariant (h : readLines constants lines = .ok r) :
    r.constants = constants ∧ r.AllMatch := by
  refine foldlM_invariant (P := fun r : Reader => r.constants = constants ∧ r.AllMatch) ?_
    ⟨rfl, fun line hline => absurd hline List.not_mem_nil⟩ h
  rintro r line r' ⟨hconstants, hmatch⟩ hline
  have hline := eq_ok_of_atLine hline
  obtain ⟨item, zeros, -, -, hadds⟩ := line_adds hline
  exact ⟨hadds.constants.trans hconstants, hmatch.line hline⟩

theorem exists_constant_of_read
    (h : lines.foldlM (fun r line => atLine line.1 (r.line line.1 line.2)) r = .ok r')
    (hx : (∃ line ∈ r.lines.toList, ∃ value, line.constant? = some (x, value)) ∨
      ∃ line ∈ lines, ∃ symbol rest, constant? line.2 = some (symbol, rest) ∧ name symbol = x) :
    ∃ line ∈ r'.lines.toList, ∃ value, line.constant? = some (x, value) := by
  induction lines generalizing r with
  | nil =>
    cases h
    rcases hx with hx | ⟨line, hline, -⟩
    · exact hx
    · cases hline
  | cons line rest ih =>
    rw [List.foldlM_cons] at h
    obtain ⟨r1, hfirst, hrest⟩ := bind_eq_ok h
    have hfirst := eq_ok_of_atLine hfirst
    apply ih hrest
    rcases hx with ⟨known, hknown, hvalue⟩ | ⟨line', hmem, symbol, text, hshape, rfl⟩
    · obtain ⟨item, zeros, -, -, hadds⟩ := line_adds hfirst
      rw [hadds.lines]
      exact .inl ⟨known, List.mem_append_left _ hknown, hvalue⟩
    · rcases List.mem_cons.1 hmem with rfl | hmem
      · exact .inl (exists_constant_of_line hshape hfirst)
      · exact .inr ⟨line', hmem, symbol, text, hshape, rfl⟩

end Reader

theorem exists_definition {known : Constants}
    (h : lines.foldlM collect known = .ok constants) {x : String × UInt16} (hx : x ∈ constants) :
    x ∈ known ∨ ∃ line ∈ lines, ∃ symbol rest, constant? line.2 = some (symbol, rest) ∧
      name symbol = x.1 := by
  induction lines generalizing known with
  | nil =>
    cases h
    exact .inl hx
  | cons line rest ih =>
    rw [List.foldlM_cons] at h
    obtain ⟨known', hfirst, hrest⟩ := bind_eq_ok h
    rcases ih hrest with hx | ⟨line', hline', hdefines⟩
    · unfold collect at hfirst
      split at hfirst
      · cases hfirst
        exact .inl hx
      · next symbol text hshape =>
        obtain ⟨value, -, hfirst⟩ := bind_eq_ok hfirst
        cases hfirst
        rcases List.mem_cons.1 hx with rfl | hx
        · exact .inr ⟨line, List.mem_cons_self, symbol, text, hshape, rfl⟩
        · exact .inl hx
    · exact .inr ⟨line', List.mem_cons_of_mem line hline', hdefines⟩

theorem constant?_of_readLines {r : Reader} (hconstants : definedConstants lines = .ok constants)
    (hr : readLines constants lines = .ok r) {value : UInt16} (hx : constants.lookup x = some value)
    (origin : UInt16) : (⟨origin, r.lines.toList⟩ : Program).constant? x = some value := by
  obtain ⟨hsame, hmatch⟩ := readLines_invariant hr
  -- Each line for this constant has the last value that was defined, and there is such a line.
  have hvalue : ∀ w, (x, w) ∈ (r.lines.toList.filterMap Line.constant?).reverse → w = value := by
    intro w hw
    obtain ⟨line, hline, hconstant⟩ := List.mem_filterMap.1 (List.mem_reverse.1 hw)
    rw [(hmatch line hline).constant x w hconstant, hsame, hx]
    rfl
  have hdefined : ∃ w, (x, w) ∈ (r.lines.toList.filterMap Line.constant?).reverse := by
    have hdefinition :=
      (exists_definition hconstants (mem_of_lookup hx)).resolve_left List.not_mem_nil
    obtain ⟨line, hline, w, hconstant⟩ := exists_constant_of_read hr (.inr hdefinition)
    exact ⟨w, List.mem_reverse.2 (List.mem_filterMap.2 ⟨line, hline, hconstant⟩)⟩
  unfold Program.constant? Program.constants
  cases hlookup : List.lookup x (r.lines.toList.filterMap Line.constant?).reverse with
  | none =>
    obtain ⟨w, hw⟩ := hdefined
    have hne := List.lookup_eq_none_iff.1 hlookup _ hw
    simp at hne
  | some w => rw [hvalue w (mem_of_lookup hlookup)]

theorem resolve?_of_knownValue?
    (hp : ∀ x value, constants.lookup x = some value → p.constant? x = some value) {known : Int}
    (h : knownValue? constants t = some known) : p.resolve? t = some (UInt16.ofInt known) := by
  unfold knownValue? at h
  obtain ⟨base, hbase, rfl⟩ := Option.map_eq_some_iff.1 h
  have hsame : p.base? t.base = some base := by
    cases hreference : t.base with
    | address value =>
      rw [hreference] at hbase
      exact hbase
    | symbol x =>
      rw [hreference] at hbase
      rw [Program.base?, hp x base hbase, Option.some_or]
  rw [Program.resolve?, hsame]
  rfl

theorem mem_of_patch? {position : Nat} {byte : UInt8} {line : Line}
    (hline : line ∈ ((p.patch? number position byte).getD p).lines) (hcode : line.kind = .code i) :
    line ∈ p.lines := by
  unfold Program.patch? at hline
  split at hline
  · split at hline
    · rcases List.mem_or_eq_of_mem_set hline with hline | rfl
      · exact hline
      · cases hcode
    · exact hline
  · exact hline

theorem mem_of_fill {q : Program} {words : List PendingWord} (h : words.foldlM fill p = .ok q)
    {line : Line} (hline : line ∈ q.lines) (hcode : line.kind = .code i) : line ∈ p.lines := by
  refine foldlM_invariant (P := fun s : Program => line ∈ s.lines → line ∈ p.lines) ?_
    id h hline
  intro s w s' hs hfill hline
  unfold fill at hfill
  split at hfill
  · cases hfill
  · cases hfill
    exact hs (mem_of_patch? (mem_of_patch? hline hcode) hcode)

theorem resolve?_narrow {source : String} (h : read source = .ok p) {line : Line}
    (hline : line ∈ p.lines) (hcode : line.kind = .code i) (hnarrow : i.operand.narrow? = some t) :
    ∃ address ≤ 0xff, p.resolve? t = some address := by
  unfold read at h
  simp only at h
  obtain ⟨constants, hconstants, h⟩ := bind_eq_ok h
  obtain ⟨r, hr, h⟩ := bind_eq_ok h
  obtain ⟨hsame, hmatch⟩ := readLines_invariant hr
  have hwidth := (hmatch line (mem_of_fill h hline hcode)).narrow i t hcode hnarrow
  rw [hsame] at hwidth
  obtain ⟨known, hknown, hlow, hhigh⟩ := knownValue?_of_width hwidth
  refine ⟨UInt16.ofInt known, ?_, ?_⟩
  · show (UInt16.ofInt known).toNat ≤ 255
    rw [UInt16.ofInt, UInt16.toNat_ofNat']
    omega
  · rw [resolve?_of_fill h]
    exact resolve?_of_knownValue? (fun x value hx => constant?_of_readLines hconstants hr hx _)
      hknown

end Listing

end Lift6502
