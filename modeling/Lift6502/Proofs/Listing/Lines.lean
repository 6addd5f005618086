import Lift6502.Listing.Reader

/-!
# Lines of a listing

A line is read without knowing what stands below it: only the words of a `.dw` are left open.
-/

namespace Lift6502

def Line.byteCount (line : Line) : Nat :=
  match line.kind with
  | .code i => i.size?.getD 0
  | .data bytes => bytes.length
  | .empty | .constant .. => 0

theorem Line.size_eq_ofNat (line : Line) : line.size = UInt16.ofNat line.byteCount := by
  unfold Line.size Line.byteCount
  cases line.kind <;> rfl

def Spans : UInt16 → List Line → UInt16 → Prop
  | start, [], stop => start = stop
  | start, line :: rest, stop => line.offset = start ∧ Spans (start + line.size) rest stop

theorem Spans.append {start mid stop : UInt16} {lines more : List Line} (h : Spans start lines mid)
    (h' : Spans mid more stop) : Spans start (lines ++ more) stop := by
  induction lines generalizing start with
  | nil =>
    rw [show start = mid from h]
    exact h'
  | cons line rest ih => exact ⟨h.1, ih h.2⟩

namespace Listing

/-- What a line of a listing says, its values being known but not its addresses. -/
inductive Item where
  | blank
  | constant (name : String) (value : UInt16)
  | empty (label : Option String)
  | origin (label : Option String) (address : UInt16)
  | bytes (label : Option String) (values : List UInt8)
  | words (label : Option String) (targets : List Target)
  | code (label : Option String) (instruction : Instruction)

namespace Item

def label? : Item → Option String
  | .blank | .constant .. => none
  | .empty label | .origin label _ | .bytes label _ | .words label _ | .code label _ => label

inductive OfBody (constants : Constants) (label : Option String) : List Char → Item → Prop where
  | empty : OfBody constants label [] (.empty label)
  | origin {text directive arguments : List Char} {address : UInt16}
      (shape : directive? text = some (directive, arguments))
      (lower : name (directive.map Char.toLower) = "org")
      (known : value constants arguments = .ok address) :
      OfBody constants label text (.origin label address)
  | bytes {text directive arguments : List Char} {values : List UInt8}
      (shape : directive? text = some (directive, arguments))
      (lower : name (directive.map Char.toLower) ∈ ["db", "byte"])
      (known : ((Reader.items arguments).mapM fun item => do byte (← value constants item)) = .ok values) :
      OfBody constants label text (.bytes label values)
  | words {text directive arguments : List Char} {targets : List Target}
      (shape : directive? text = some (directive, arguments))
      (lower : name (directive.map Char.toLower) ∈ ["dw", "word"])
      (read : (Reader.items arguments).mapM target = .ok targets) :
      OfBody constants label text (.words label targets)
  | code {text mnemonic rest : List Char} {opcode : Opcode} {written : Operand}
      (other : directive? text = none) (shape : instruction? text = some (mnemonic, rest))
      (known : Opcode.ofMnemonic? (name mnemonic) = some opcode)
      (read : operand constants rest = .ok written) :
      OfBody constants label text (.code label ⟨opcode, written⟩)

inductive OfText (constants : Constants) : List Char → Item → Prop where
  | blank : OfText constants [] .blank
  | constant {text symbol rest : List Char} (shape : constant? text = some (symbol, rest)) :
      OfText constants text (.constant (name symbol) ((constants.lookup (name symbol)).getD 0))
  | unlabelled {text : List Char} {item : Item} (other : constant? text = none)
      (shape : Listing.label? text = none) (body : OfBody constants none text item) :
      OfText constants text item
  | labelled {text label rest : List Char} {item : Item} (other : constant? text = none)
      (shape : Listing.label? text = some (label, rest))
      (body : OfBody constants (some (name label)) rest item) :
      OfText constants text item

theorem OfBody.label?_eq {constants : Constants} {label : Option String} {text : List Char}
    {item : Item} (h : OfBody constants label text item) : item.label? = label := by
  cases h <;> rfl

/-! ## What a line adds -/

def padding (offset : UInt16) (count : Nat) : List Line :=
  if count = 0 then [] else [⟨none, offset, .data (List.replicate count 0)⟩]

theorem offset_of_padding {offset stop : UInt16} {count : Nat}
    (h : Spans offset (padding offset count) stop) : stop = offset + UInt16.ofNat count := by
  unfold padding at h
  split at h
  · next hzero =>
    rw [hzero, ← show offset = stop from h]
    exact (UInt16.add_zero _).symm
  · rw [← show _ = stop from h.2]
    show offset + UInt16.ofNat (List.replicate count (0 : UInt8)).length = _
    rw [List.length_replicate]

def marker (label : Option String) (offset : UInt16) : List Line :=
  if label.isSome then [⟨label, offset, .empty⟩] else []

/-- The lines that an item adds at an offset, an origin with some zeros in front of it, and
words all zero. -/
def draft (offset : UInt16) (zeros : Nat) : Item → List Line
  | .blank => []
  | .constant name value => [⟨none, offset, .constant name value⟩]
  | .empty label => [⟨label, offset, .empty⟩]
  | .origin label _ => padding offset zeros ++ marker label (offset + UInt16.ofNat zeros)
  | .bytes label values => [⟨label, offset, .data values⟩]
  | .words label targets => [⟨label, offset, .data (List.replicate (2 * targets.length) 0)⟩]
  | .code label i => [⟨label, offset, .code i⟩]

/-- The words that an item leaves open on a line of the program. -/
def pending (number line : Nat) : Item → List PendingWord
  | .words _ targets => targets.mapIdx fun i target => ⟨number, line, 2 * i, target⟩
  | _ => []

/-- What an item does to the origin of the program: the first one that stands before any byte
decides it, and a later one is reached by zeros. -/
def Moves (origin : Option UInt16) (offset : UInt16) (zeros : Nat) (origin' : Option UInt16) :
    Item → Prop
  | .origin _ address =>
    (origin = none ∧ offset = 0) ∧ zeros = 0 ∧ origin' = some address ∨
      ¬ (origin = none ∧ offset = 0) ∧ origin' = origin ∧
        origin.getD 0 + offset + UInt16.ofNat zeros = address
  | _ => origin' = origin

end Item

namespace Reader

variable {r r' : Reader} {number : Nat} {label : Option String} {text : List Char}
  {address : UInt16} {ε α β : Type}

/-- An item has been added, whose label was known. -/
structure Adds (r : Reader) (number : Nat) (item : Item) (zeros : Nat) (r' : Reader) : Prop where
  constants : r'.constants = r.constants
  labels : r'.labels = r.labels
  lines : r'.lines.toList = r.lines.toList ++ item.draft r.offset zeros
  spans : Spans r.offset (item.draft r.offset zeros) r'.offset
  words : r'.words.toList = r.words.toList ++ item.pending number r.lines.size
  origin : item.Moves r.origin r.offset zeros r'.origin

theorem bind_eq_ok {x : Except ε α} {f : α → Except ε β} {b : β}
    (h : (x >>= f) = .ok b) : ∃ a, x = .ok a ∧ f a = .ok b := by
  cases x with
  | error e => cases h
  | ok a => exact ⟨a, rfl, h⟩

theorem ok_bind (a : α) (f : α → Except ε β) : (Except.ok a >>= f) = f a := rfl

theorem toList_push (r : Reader) (label : Option String) (kind : LineKind) :
    (r.push label kind).lines.toList = r.lines.toList ++ [⟨label, r.offset, kind⟩] :=
  Array.toList_push

theorem adds_push {item : Item} (r : Reader) {kind : LineKind}
    (hdraft : item.draft r.offset 0 = [⟨label, r.offset, kind⟩])
    (hpending : ∀ line, item.pending number line = [])
    (horigin : item.Moves r.origin r.offset 0 r.origin) :
    r.Adds number item 0 (r.push label kind) := by
  refine ⟨rfl, rfl, ?_, ?_, ?_, horigin⟩
  · rw [hdraft, toList_push]
  · rw [hdraft]
    exact ⟨rfl, rfl⟩
  · rw [hpending, List.append_nil]
    rfl

theorem setOrigin_cases (h : r.setOrigin address = .ok r') :
    (r.origin = none ∧ r.offset = 0) ∧ r' = { r with origin := some address } ∨
      ¬ (r.origin = none ∧ r.offset = 0) ∧ ∃ zeros : Nat,
        r.origin.getD 0 + r.offset + UInt16.ofNat zeros = address ∧
        r' = if zeros = 0 then r else r.push none (.data (List.replicate zeros 0)) := by
  unfold setOrigin at h
  split at h
  · next hfirst =>
    cases h
    exact .inl ⟨by simpa using hfirst, rfl⟩
  · next hlater =>
    -- Addresses are counted modulo the size of memory, and so are the zeros.
    have hreach : r.origin.getD 0 + r.offset + UInt16.ofNat
        (address - (r.origin.getD 0 + r.offset)).toNat = address := by
      rw [UInt16.ofNat_toNat, UInt16.add_comm, UInt16.sub_add_cancel]
    refine .inr ⟨by simpa using hlater, _, hreach, ?_⟩
    simp only at h
    split at h
    · cases h
    · split at h
      · next heq =>
        cases h
        rw [heq, UInt16.sub_self]
        rfl
      · next hne =>
        cases h
        rw [if_neg]
        intro hzero
        rw [hzero] at hreach
        exact hne (hreach.symm.trans (UInt16.add_zero _))

theorem setOrigin_adds (number : Nat) (h : r.setOrigin address = .ok r') :
    ∃ zeros, r.Adds number (.origin none address) zeros r' := by
  have hdraft : ∀ zeros, (Item.origin none address).draft r.offset zeros =
      Item.padding r.offset zeros := fun _ => List.append_nil _
  obtain ⟨hfirst, rfl⟩ | ⟨hlater, zeros, hreach, rfl⟩ := setOrigin_cases h
  · exact ⟨0, rfl, rfl, (List.append_nil _).symm, rfl, (List.append_nil _).symm,
      .inl ⟨hfirst, rfl, rfl⟩⟩
  · refine ⟨zeros, ?_⟩
    split
    · next hzero =>
      subst hzero
      exact ⟨rfl, rfl, (List.append_nil _).symm, rfl, (List.append_nil _).symm,
        .inr ⟨hlater, rfl, hreach⟩⟩
    · next hsome =>
      refine ⟨rfl, rfl, ?_, ?_, (List.append_nil _).symm, .inr ⟨hlater, rfl, hreach⟩⟩
      · rw [hdraft, Item.padding, if_neg hsome, toList_push]
      · rw [hdraft, Item.padding, if_neg hsome]
        exact ⟨rfl, rfl⟩

theorem Adds.mark {zeros : Nat} (h : r.Adds number (.origin none address) zeros r') :
    r.Adds number (.origin label address) zeros (if label.isSome then r'.push label .empty else r') := by
  have hdraft : (Item.origin none address).draft r.offset zeros = Item.padding r.offset zeros :=
    List.append_nil _
  cases label with
  | none => exact h
  | some label =>
    have hspans : Spans r.offset (Item.padding r.offset zeros) r'.offset := by
      rw [← hdraft]
      exact h.spans
    have hoffset : r'.offset = r.offset + UInt16.ofNat zeros := Item.offset_of_padding hspans
    refine ⟨h.constants, h.labels, ?_, ?_, h.words, h.origin⟩
    · show (r'.push (some label) .empty).lines.toList = _
      rw [toList_push, h.lines, hdraft, List.append_assoc, hoffset]
      rfl
    · exact hspans.append ⟨hoffset.symm, rfl⟩

theorem directive_adds {directive arguments : List Char}
    (hshape : directive? text = some (directive, arguments))
    (h : r.directive number label directive arguments = .ok r') :
    ∃ item zeros, Item.OfBody r.constants label text item ∧ r.Adds number item zeros r' := by
  unfold Reader.directive at h
  simp only at h
  split at h
  · next horg =>
    obtain ⟨address, hknown, h⟩ := bind_eq_ok h
    obtain ⟨r1, hset, h⟩ := bind_eq_ok h
    obtain ⟨zeros, hadds⟩ := setOrigin_adds number hset
    obtain rfl := Except.ok.inj h
    exact ⟨_, zeros, .origin hshape horg hknown, hadds.mark⟩
  · split at h
    · next hbytes =>
      obtain ⟨values, hknown, h⟩ := bind_eq_ok h
      cases h
      exact ⟨_, 0, .bytes hshape (by simpa using hbytes) hknown, adds_push r rfl (fun _ => rfl) rfl⟩
    · split at h
      · next hwords =>
        obtain ⟨targets, hread, h⟩ := bind_eq_ok h
        cases h
        refine ⟨_, 0, .words hshape (by simpa using hwords) hread, rfl, rfl, toList_push _ _ _,
          ⟨rfl, rfl⟩, ?_, rfl⟩
        exact Array.toList_appendList
      · cases h

theorem body_adds (h : r.body number label text = .ok r') :
    ∃ item zeros, Item.OfBody r.constants label text item ∧ r.Adds number item zeros r' := by
  unfold Reader.body at h
  split at h
  · next hempty =>
    cases h
    rw [List.isEmpty_iff.1 hempty]
    exact ⟨_, 0, .empty, adds_push r rfl (fun _ => rfl) rfl⟩
  · split at h
    · next hshape => exact directive_adds hshape h
    · next hother =>
      unfold Reader.instruction at h
      split at h
      · cases h
      · next mnemonic rest hshape =>
        split at h
        · cases h
        · next opcode hknown =>
          obtain ⟨written, hread, h⟩ := bind_eq_ok h
          simp only at h
          split at h
          · cases h
          · cases h
            exact ⟨_, 0, .code hother hshape hknown hread, adds_push r rfl (fun _ => rfl) rfl⟩

theorem line_adds (h : r.line number text = .ok r') :
    ∃ item zeros, Item.OfText r.constants text item ∧ (∀ x, item.label? = some x → x ∉ r.labels) ∧
      { r with labels := item.label?.toList ++ r.labels }.Adds number item zeros r' := by
  unfold Reader.line at h
  split at h
  · next hempty =>
    cases h
    rw [List.isEmpty_iff.1 hempty]
    refine ⟨.blank, 0, .blank, ?_, rfl, rfl, (List.append_nil _).symm, rfl,
      (List.append_nil _).symm, rfl⟩
    intro x hx
    cases hx
  · split at h
    · next symbol rest hshape =>
      cases h
      refine ⟨_, 0, .constant hshape, ?_, adds_push r rfl (fun _ => rfl) rfl⟩
      intro x hx
      cases hx
    · next hother =>
      split at h
      · next hshape =>
        obtain ⟨item, zeros, hbody, hadds⟩ := body_adds h
        have hlabel := hbody.label?_eq
        refine ⟨item, zeros, .unlabelled hother hshape hbody, fun x hx => ?_, ?_⟩
        · rw [hlabel] at hx
          cases hx
        · rw [hlabel]
          exact hadds
      · next label rest hshape =>
        simp only at h
        split at h
        · cases h
        · next hnew =>
          -- The label is entered before what stands behind it is read.
          obtain ⟨item, zeros, hbody, hadds⟩ := body_adds h
          have hlabel := hbody.label?_eq
          refine ⟨item, zeros, .labelled hother hshape hbody, fun x hx => ?_, ?_⟩
          · rw [hlabel] at hx
            cases hx
            simpa using hnew
          · rw [hlabel]
            exact hadds

end Reader

end Listing

end Lift6502
