import Lift6502.Proofs.Listing.Operands

/-!
# Instructions read back

An instruction that was read is written as a line of which a reader makes the same instruction,
under the same constants.
-/

namespace Lift6502.Listing

open Text

variable {constants : Constants}

structure Mnemonic (o : Opcode) (a b c : Char) : Prop where
  text : o.text.toList = [a, b, c]
  known : Opcode.ofMnemonic? (name [a, b, c]) = some o
  letters : ∀ d ∈ [a, b, c], d.isAlpha = true

theorem exists_mnemonic (o : Opcode) : ∃ a b c, Mnemonic o a b c := by
  cases o <;> exact ⟨_, _, _, rfl, rfl, List.all_eq_true.1 rfl⟩

/-- What stands behind a mnemonic: nothing, or a blank and the text of an operand. -/
inductive Behind (operand : List Char) : List Char → Prop where
  | nothing (empty : operand = []) : Behind operand []
  | blank : Behind operand (' ' :: operand)

theorem exists_behind (i : Instruction) :
    ∃ tail, Behind i.operand.text.toList tail ∧ i.text.toList = i.opcode.text.toList ++ tail := by
  unfold Instruction.text
  cases i.operand with
  | implied => exact ⟨[], .nothing rfl, (List.append_nil _).symm⟩
  | _ =>
    refine ⟨_, .blank, ?_⟩
    simp only [String.toList_append]
    rw [List.append_assoc]
    rfl

variable {a b c : Char} {o tail : List Char} {line : Line} {i : Instruction}

theorem Behind.stops (h : Behind o tail) {p : Char → Bool} (hp : p ' ' = false) :
    ∀ d ∈ tail.head?, p d = false := by
  cases h with
  | nothing => simp
  | blank => simp [hp]

theorem Behind.trimStart_eq (h : Behind o tail) (ho : Solid o) : trimStart tail = o := by
  cases h with
  | nothing hempty => exact hempty.symm
  | blank =>
    show trimStart o = o
    exact trimStart_of_solid ho

section

variable (h : Behind o tail) (hletters : ∀ d ∈ [a, b, c], d.isAlpha = true)

include h hletters

theorem Behind.constant?_eq_none (ho : ∀ d ∈ o, isOperandChar d = true) :
    constant? (a :: b :: c :: tail) = none := by
  have hrest : ∀ d ∈ [b, c], isWord d = true :=
    fun d hd => isWord_of_isAlpha (hletters d (List.mem_cons_of_mem a hd))
  have hdrop := (span_append hrest (h.stops (by decide))).2
  have htrim := h.trimStart_eq fun d hd => isBlank_of_isOperandChar (ho d hd)
  unfold constant?
  split
  · next heq => cases heq
  · next first rest heq =>
    cases heq
    split
    · rw [show (b :: c :: tail).dropWhile isWord = tail from hdrop, htrim]
      split
      · cases ho '=' List.mem_cons_self
      · rfl
    · rfl

theorem Behind.label?_eq_none : label? (a :: b :: c :: tail) = none := by
  have hrest : ∀ d ∈ [b, c], isSymbolRest d = true := fun d hd => by
    rw [isSymbolRest, isWord_of_isAlpha (hletters d (List.mem_cons_of_mem a hd))]
    rfl
  have hdrop := (span_append hrest (h.stops (by decide))).2
  unfold label?
  split
  · next heq => cases heq
  · next first rest heq =>
    cases heq
    split
    · rw [show (b :: c :: tail).dropWhile isSymbolRest = tail from hdrop]
      cases h <;> rfl
    · rfl

theorem Behind.instruction?_eq (ho : Solid o) :
    instruction? (a :: b :: c :: tail) = some ([a, b, c], o) := by
  have hthree : (a.isAlpha && b.isAlpha && c.isAlpha) = true := by simp [hletters]
  unfold instruction?
  simp only [if_pos hthree]
  cases h with
  | nothing hempty => rw [hempty]
  | blank =>
    show some ([a, b, c], trim o) = _
    rw [trim_of_solid ho]

end

theorem directive?_eq_none (ha : a.isAlpha = true) (rest : List Char) :
    directive? (a :: rest) = none := by
  unfold directive?
  split
  · next heq =>
    rw [(List.cons.inj heq).1] at ha
    cases ha
  · rfl

/-- The line of an instruction is neither a constant nor a label nor a directive, and its operand
stands behind its mnemonic. -/
theorem line_eq_of_text {r : Reader} (h : WrittenOperand r.constants i.operand) (number : Nat) :
    r.line number i.text.toList = (do
      let read : Instruction := ⟨i.opcode, ← operand r.constants i.operand.text.toList⟩
      if read.size?.isNone then .error (.unencodable (name i.text.toList))
      else return r.push none (.code read)) := by
  obtain ⟨a, b, c, hmnemonic⟩ := exists_mnemonic i.opcode
  have hchars := isOperandChar_of_mem_text h
  have hsolid : Solid i.operand.text.toList := fun d hd => isBlank_of_isOperandChar (hchars d hd)
  obtain ⟨tail, htail, htext⟩ := exists_behind i
  rw [hmnemonic.text] at htext
  replace htext : i.text.toList = a :: b :: c :: tail := htext
  rw [htext, Reader.line, htail.constant?_eq_none hmnemonic.letters hchars,
    htail.label?_eq_none hmnemonic.letters]
  show r.body number none (a :: b :: c :: tail) = _
  rw [Reader.body, directive?_eq_none (hmnemonic.letters a List.mem_cons_self)]
  show r.instruction none (a :: b :: c :: tail) = _
  rw [Reader.instruction, htail.instruction?_eq hmnemonic.letters hsolid]
  simp only [hmnemonic.known]

theorem eq_code_of_mem_draft {item : Item} {offset : UInt16} {zeros : Nat}
    (hline : line ∈ item.draft offset zeros) (hcode : line.kind = .code i) :
    ∃ label, item = .code label i := by
  cases item with
  | blank => cases hline
  | constant | empty | bytes | words =>
    obtain rfl := List.mem_singleton.1 hline
    cases hcode
  | code label j =>
    obtain rfl := List.mem_singleton.1 hline
    cases hcode
    exact ⟨label, rfl⟩
  | origin label address =>
    rcases List.mem_append.1 hline with hline | hline
    · unfold Item.padding at hline
      split at hline
      · cases hline
      · obtain rfl := List.mem_singleton.1 hline
        cases hcode
    · unfold Item.marker at hline
      split at hline
      · obtain rfl := List.mem_singleton.1 hline
        cases hcode
      · cases hline

/-- An instruction that reads back: its operand was read with these constants, and its
size is known. -/
structure WrittenCode (constants : Constants) (i : Instruction) : Prop where
  operand : WrittenOperand constants i.operand
  size : i.size?.isSome = true

namespace Reader

variable {r r' : Reader} {number : Nat} {label label' : Option String} {text : List Char}
  {i : Instruction}

theorem writtenCode_of_body (hbody : Item.OfBody r.constants label text (.code label' i))
    (h : r.body number label text = .ok r') : WrittenCode r.constants i := by
  cases hbody with
  | @code _ mnemonic rest opcode written other shape known read =>
    refine ⟨writtenOperand_of_operand read, ?_⟩
    have hne : ¬ text.isEmpty = true := by
      intro hempty
      rw [List.isEmpty_iff.1 hempty] at shape
      cases shape
    simp only [Reader.body, if_neg hne, other, Reader.instruction, shape, known, read,
      Reader.ok_bind] at h
    by_contra hnone
    rw [if_pos (by simpa using hnone)] at h
    cases h

theorem writtenCode_of_line (h : r.line number text = .ok r') (hline : line ∈ r'.lines.toList)
    (hcode : line.kind = .code i) : line ∈ r.lines.toList ∨ WrittenCode r.constants i := by
  obtain ⟨item, zeros, hitem, -, hadds⟩ := line_adds h
  rw [hadds.lines] at hline
  refine (List.mem_append.1 hline).imp_right fun hline => ?_
  obtain ⟨label, rfl⟩ := eq_code_of_mem_draft hline hcode
  unfold Reader.line at h
  cases hitem with
  | unlabelled other shape body =>
    split at h
    · next hempty =>
      rw [List.isEmpty_iff.1 hempty] at body
      cases body with
      | code _ shape => cases shape
    · simp only [other, shape] at h
      exact writtenCode_of_body body h
  | @labelled _ symbol _ _ other shape body =>
    split at h
    · next hempty =>
      rw [List.isEmpty_iff.1 hempty] at shape
      cases shape
    · simp only [other, shape] at h
      split at h
      · cases h
      · exact writtenCode_of_body (r := { r with labels := name symbol :: r.labels }) body h

theorem writtenCode_of_readLines {lines : List (Nat × List Char)}
    (h : readLines constants lines = .ok r) (hline : line ∈ r.lines.toList)
    (hcode : line.kind = .code i) : WrittenCode constants i := by
  have hinvariant : r.constants = constants ∧
      ∀ line ∈ r.lines.toList, ∀ i, line.kind = .code i → WrittenCode constants i := by
    refine foldlM_invariant (P := fun r : Reader => r.constants = constants ∧
      ∀ line ∈ r.lines.toList, ∀ i, line.kind = .code i → WrittenCode constants i) ?_
        ⟨rfl, by simp⟩ h
    rintro r numbered r' ⟨hsame, hall⟩ hnext
    have hnext := eq_ok_of_atLine hnext
    obtain ⟨item, zeros, -, -, hadds⟩ := line_adds hnext
    refine ⟨hadds.constants.trans hsame, fun line hline i hcode => ?_⟩
    rcases writtenCode_of_line hnext hline hcode with hold | hnew
    · exact hall line hold i hcode
    · rw [← hsame]
      exact hnew
  exact hinvariant.2 line hline i hcode

theorem push_code_inj {j : Instruction} (h : r.push none (.code i) = r.push none (.code j)) :
    i = j := by
  have hlines := congrArg (fun r : Reader => r.lines.toList) h
  simp only [toList_push] at hlines
  have hline := List.head_eq_of_cons_eq (List.append_cancel_left hlines)
  cases hline
  rfl

theorem operand_of_namesAccumulator (constants : Constants) {o : Operand}
    (h : o.namesAccumulator = true) :
    o ≠ .accumulator ∧ operand constants o.text.toList = .ok .accumulator := by
  unfold Operand.namesAccumulator at h
  split at h
  · next t w =>
    simp only [Bool.or_eq_true, decide_eq_true_eq] at h
    rcases h with rfl | rfl
    · have htext : (Target.symbol "a").text.toList = ['a'] := by decide
      exact ⟨Operand.noConfusion, by rw [Operand.text, htext, operand]⟩
    · have htext : (Target.symbol "A").text.toList = ['A'] := by decide
      exact ⟨Operand.noConfusion, by rw [Operand.text, htext, operand]⟩
  · cases h

theorem line_text_iff (h : WrittenCode r.constants i) (number : Nat) :
    r.line number i.text.toList = .ok (r.push none (.code i)) ↔
      i.operand.namesAccumulator = false := by
  rw [line_eq_of_text h.operand]
  constructor
  · intro hline
    by_contra hname
    obtain ⟨hother, hread⟩ := operand_of_namesAccumulator r.constants (by simpa using hname)
    rw [hread, Reader.ok_bind] at hline
    simp only at hline
    split at hline
    · cases hline
    · exact hother (congrArg Instruction.operand (push_code_inj (Except.ok.inj hline)).symm)
  · intro hname
    rw [operand_text h.operand hname, Reader.ok_bind]
    refine if_neg fun hnone => ?_
    have hsize : i.size?.isSome = true := h.size
    rw [Option.isNone_iff_eq_none.1 hnone] at hsize
    cases hsize

end Reader

/-- Instructions read back. The text of an instruction of a listing that was read is a line of which
a reader makes the same instruction, whatever else it has read, as long as it knows the same
constants. The only exception is a direct operand that is written like the accumulator. -/
theorem instruction_text_reads_back (source : String) (p : Program) (h : read source = .ok p) :
    ∃ constants, definedConstants (numbered source.toList) = .ok constants ∧
      ∀ line ∈ p.lines, ∀ i, line.kind = .code i → ∀ (r : Reader) (number : Nat),
        r.constants = constants →
        (r.line number i.text.toList = .ok (r.push none (.code i)) ↔
          i.operand.namesAccumulator = false) := by
  unfold read at h
  simp only at h
  obtain ⟨constants, hconstants, h⟩ := Reader.bind_eq_ok h
  obtain ⟨r, hr, hfill⟩ := Reader.bind_eq_ok h
  refine ⟨constants, hconstants, ?_⟩
  rintro line hline i hcode r' number rfl
  exact Reader.line_text_iff
    (Reader.writtenCode_of_readLines hr (mem_of_fill hfill hline hcode) hcode) number

def pointersText : String := "Zp = $10\nLoop: LDA ( Zp - 2 , x )\n sta Loop+$100,Y"

def pointers : Program where
  origin := 0
  lines := [
    ⟨none, 0, .constant "Zp" 0x10⟩,
    ⟨some "Loop", 0, .code ⟨.lda, .indexedIndirect ⟨.symbol "Zp", -2⟩⟩⟩,
    ⟨none, 2, .code ⟨.sta, .indexed ⟨.symbol "Loop", 0x100⟩ .y .absolute⟩⟩]

/-- Blanks, the case of letters and the way a number is written get lost, and the
instructions stay. -/
theorem instruction_text_reads_back_pointers :
    read pointersText = .ok pointers ∧ ∀ r : Reader, r.constants = [("Zp", 0x10)] →
      r.line 7 "LDA (Zp-2,X)".toList =
        .ok (r.push none (.code ⟨.lda, .indexedIndirect ⟨.symbol "Zp", -2⟩⟩)) ∧
      r.line 8 "STA Loop+256,Y".toList =
        .ok (r.push none (.code ⟨.sta, .indexed ⟨.symbol "Loop", 0x100⟩ .y .absolute⟩)) := by
  have hread : read pointersText = .ok pointers := by decide +kernel
  have hdefined : definedConstants (numbered pointersText.toList) = .ok [("Zp", 0x10)] := by
    decide +kernel
  obtain ⟨constants, hconstants, hback⟩ := instruction_text_reads_back pointersText pointers hread
  obtain rfl := Except.ok.inj (hdefined.symm.trans hconstants)
  refine ⟨hread, fun r hr => ⟨?_, ?_⟩⟩
  · exact (hback _ (List.mem_cons_of_mem _ List.mem_cons_self) _ rfl r 7 hr).2 rfl
  · exact (hback _ (List.mem_cons_of_mem _ (List.mem_cons_of_mem _ List.mem_cons_self)) _ rfl r 8
      hr).2 rfl

end Lift6502.Listing
