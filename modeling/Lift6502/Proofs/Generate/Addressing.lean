import Lift6502.Proofs.Flow.Disassembly
import Lift6502.Proofs.Generate.Operand

/-!
# Addresses in page zero

Generated code takes an address of one byte as it is, and the processor takes its low byte: the two
agree if every such address is in page zero.
-/

namespace Lift6502

variable {i : Instruction} {p : Program}

def AddressingMode.takesByteAddress : AddressingMode → Bool
  | .zeroPage | .zeroPageX | .zeroPageY | .indexedIndirect | .indirectIndexed => true
  | _ => false

/-- The instruction has a mode, and an address of one byte resolves to one. -/
def Instruction.isAddressed (i : Instruction) (p : Program) : Bool :=
  match i.mode? with
  | some mode => !mode.takesByteAddress || (i.operand.target?.bind p.resolve?).all (· ≤ 0xff)
  | none => false

theorem Instruction.isSome_mode? (h : i.isAddressed p = true) : i.mode?.isSome = true := by
  unfold isAddressed at h
  split at h
  · next mode hmode =>
    rw [hmode]
    rfl
  · cases h

def Program.isAddressed (p : Program) : Bool :=
  p.lines.all fun line =>
    match line.kind with
    | .code i => i.isAddressed p
    | _ => true

theorem Cpu.codeAddress_eq (c : Cpu) {mode : AddressingMode} {written : UInt16}
    (h : mode.takesByteAddress = true → written ≤ 0xff) :
    c.codeAddress mode written = c.operandAddress mode written := by
  have hbyte : written ≤ 0xff → written.toUInt8.toUInt16 = written := by
    intro hle
    apply UInt16.toNat_inj.1
    have hle : written.toNat ≤ 255 := hle
    rw [UInt8.toNat_toUInt16, UInt16.toNat_toUInt8]
    omega
  cases mode with
  | zeroPage => exact (hbyte (h rfl)).symm
  | indirectIndexed =>
    have hwritten := hbyte (h rfl)
    -- The second byte of a pointer comes from page zero in both.
    have hnext : ∀ byte : UInt8, (byte.toUInt16 + 1) &&& 0xff = (byte + 1).toUInt16 := by
      apply forall_byte
      decide +kernel
    show wordOf (c.read written) (c.read ((written + 1) &&& 0xff)) + _ =
      wordOf (c.read written.toUInt8.toUInt16) (c.read (written.toUInt8 + 1).toUInt16) + _
    rw [← hnext, hwritten]
  | _ => rfl

theorem Program.codeWork?_eq_work? (hi : i.isAddressed p = true)
    (hbyte : ∀ value, i.operand = .immediate value → (p.immediateByte? value).isSome = true)
    (c : Cpu) : p.codeWork? i c = p.work? i c := by
  -- Both need the mode; then they differ only in how they form an address.
  obtain ⟨mode, hmode⟩ := Option.isSome_iff_exists.1 (Instruction.isSome_mode? hi)
  unfold Instruction.isAddressed at hi
  unfold Program.codeWork? Program.work?
  rw [hmode] at hi ⊢
  cases hoperand : i.operand with
  | implied | accumulator => rfl
  | immediate value =>
    obtain ⟨byte, hbyte⟩ := Option.isSome_iff_exists.1 (hbyte value hoperand)
    simp only [hbyte]
    rfl
  | direct | indexed | indirect | indexedIndirect | indirectIndexed =>
    rw [hoperand] at hi
    dsimp only
    generalize Option.bind _ p.resolve? = written? at hi ⊢
    cases written? with
    | none => rfl
    | some written =>
      have hpage : mode.takesByteAddress = true → written ≤ 0xff := by
        intro htakes
        simpa [htakes] using hi
      dsimp only
      rw [c.codeAddress_eq hpage]
      rfl

theorem Program.codeWork?_of_work? (hi : i.isAddressed p = true) {c : Cpu} {w : Work}
    (hw : p.work? i c = some w) : p.codeWork? i c = some w := by
  rw [p.codeWork?_eq_work? hi ?_ c]
  · exact hw
  · intro value hoperand
    obtain ⟨mode, -, hw⟩ := Option.bind_eq_some_iff.1 hw
    rw [hoperand] at hw
    obtain ⟨byte, hbyte, -⟩ := Option.bind_eq_some_iff.1 hw
    rw [hbyte]
    rfl

/-! ## The code of blocks -/

theorem exists_line_of_slot {waiting : List String} {offset : UInt16} {lines : List Line}
    {slot : Slot} (h : slot ∈ slotsOf waiting offset lines) (hitem : slot.item = .code i) :
    ∃ line ∈ lines, line.kind = .code i := by
  induction lines generalizing waiting offset with
  | nil =>
    rw [slotsOf] at h
    split at h
    · cases h
    · rw [List.mem_singleton.1 h] at hitem
      cases hitem
  | cons line rest ih =>
    have hrest : ∀ {waiting offset}, slot ∈ slotsOf waiting offset rest →
        ∃ l ∈ line :: rest, l.kind = .code i := by
      intro waiting offset hmem
      obtain ⟨l, hl, hkind⟩ := ih hmem
      exact ⟨l, List.mem_cons_of_mem line hl, hkind⟩
    rw [slotsOf] at h
    split at h
    · next j hkind =>
      rcases List.mem_cons.1 h with rfl | h
      · cases hitem
        exact ⟨line, List.mem_cons_self, hkind⟩
      · exact hrest h
    · rcases List.mem_cons.1 h with rfl | h
      · cases hitem
      · exact hrest h
    · exact hrest h
    · exact hrest h

theorem isAddressed_of_hidingBit? {bytes : List UInt8} {below : List Slot}
    {bit hidden : Instruction} {label : String}
    (h : hidingBit? p bytes below = some (bit, hidden, label)) : bit.isAddressed p = true := by
  have hlow : ∀ low : UInt8, low.toUInt16 ≤ 0xff := by
    apply forall_byte
    decide +kernel
  unfold hidingBit? at h
  split at h
  · split at h
    · next low _ _ =>
      cases h
      show (p.resolve? (.address low.toUInt16)).all (· ≤ 0xff) = true
      rw [resolve?_address]
      exact decide_eq_true (hlow low)
    · cases h
      rfl
    · cases h
  · cases h

theorem Covers.isAddressed (hp : p.isAddressed = true) {m stop : Nat} {code : List Instruction}
    (h : Covers p p.slots m code stop) : ∀ i ∈ code, i.isAddressed p = true := by
  induction h with
  | nil _ => exact fun i hi => absurd hi List.not_mem_nil
  | code at_start item _ ih =>
    refine List.forall_mem_cons.2 ⟨?_, ih⟩
    obtain ⟨line, hline, hkind⟩ := exists_line_of_slot (List.mem_of_getElem? at_start) item
    have hchecked := List.all_eq_true.1 hp line hline
    rw [hkind] at hchecked
    exact hchecked
  | bit _ _ hides _ ih => exact List.forall_mem_cons.2 ⟨isAddressed_of_hidingBit? hides, ih⟩

theorem Program.isAddressed_block (hp : p.isAddressed = true) {g : Graph}
    (hg : (Graph.ofProgram p).1 = .ok g) (b : BlockId) :
    ∀ i ∈ (g.block b).code, i.isAddressed p = true := by
  cases graph_eq_of_ofProgram hg
  by_cases hb : b < (Build.ofProgram p).graph.size
  · rw [(Build.sameBlocks_ofProgram p).size] at hb
    obtain ⟨m, stop, -, hpiece, -⟩ := Build.exists_piece hb
    rw [Build.code_ofProgram]
    exact hpiece.covers.isAddressed hp
  · rw [Graph.block_eq_default hb]
    exact fun i hi => absurd hi List.not_mem_nil

end Lift6502
