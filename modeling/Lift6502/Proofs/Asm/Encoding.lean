import Lift6502.Asm.Image

/-!
# Encodings of instructions

The opcode byte gives the mnemonic and the mode back, and the mode says how many bytes there are.
-/

namespace Lift6502

variable {o : Opcode} {mode : AddressingMode} {byte : UInt8} {i : Instruction} {bytes : List UInt8}
  {value : Immediate} {offset : UInt16}

/-- The modes in which an operand can be encoded, apart from that of a branch. -/
def Operand.modes : Operand → List AddressingMode
  | .implied => [.accumulator, .implied]
  | .accumulator => [.accumulator]
  | .immediate _ => [.immediate]
  | .direct _ .zeroPage => [.zeroPage, .absolute]
  | .direct _ .absolute => [.absolute]
  | .indexed _ .x .zeroPage => [.zeroPageX, .absoluteX]
  | .indexed _ .y .zeroPage => [.zeroPageY, .absoluteY]
  | .indexed _ .x .absolute => [.absoluteX]
  | .indexed _ .y .absolute => [.absoluteY]
  | .indirect _ => [.indirect]
  | .indexedIndirect _ => [.indexedIndirect]
  | .indirectIndexed _ => [.indirectIndexed]

theorem Operand.not_mem_modes {o : Operand} (h : o.usesMemory = true) :
    ∀ m ∈ [AddressingMode.implied, .accumulator, .immediate], m ∉ o.modes := by
  cases o with
  | implied | accumulator | immediate => cases h
  | direct target width => cases width <;> simp [modes]
  | indexed target index width => cases index <;> cases width <;> simp [modes]
  | indirect | indexedIndirect | indirectIndexed => simp [modes]

theorem Operand.mem_modes_of_registers {o : Operand} (h : o.usesMemory = false) :
    ∀ m ∈ o.modes, m ∈ [AddressingMode.implied, .accumulator, .immediate] := by
  cases o with
  | implied | accumulator | immediate => simp [modes]
  | direct | indexed | indirect | indexedIndirect | indirectIndexed => cases h

def AddressingMode.index? : AddressingMode → Option Register
  | .zeroPageX | .absoluteX | .indexedIndirect => some .x
  | .zeroPageY | .absoluteY | .indirectIndexed => some .y
  | .implied | .accumulator | .immediate | .zeroPage | .absolute | .indirect | .relative => none

theorem Operand.index?_of_mem_modes (o : Operand) : ∀ m ∈ o.modes, m.index? = o.index? := by
  cases o with
  | direct target width => cases width <;> simp [modes, index?, AddressingMode.index?]
  | indexed target index width =>
    cases index <;> cases width <;>
      simp [modes, index?, AddressingMode.index?, IndexRegister.register]
  | implied | accumulator | immediate | indirect | indexedIndirect | indirectIndexed =>
    simp [modes, index?, AddressingMode.index?]

theorem Operand.relative_not_mem_modes (o : Operand) : .relative ∉ o.modes := by
  unfold modes
  split <;> decide

namespace Instruction

variable {i : Instruction} {mode : AddressingMode}

/-- A branch has a mode of its own; any other instruction has one of its operand that its
opcode supports. -/
theorem mode?_cases (h : i.mode? = some mode) :
    i.opcode.isConditionalBranch = true ∧ i.operand.usesMemory = true ∧ mode = .relative ∨
      i.opcode.supports mode = true ∧ mode ∈ i.operand.modes := by
  have hfirst : ∀ modes : List AddressingMode, firstMode i.opcode modes = some mode →
      i.opcode.supports mode = true ∧ mode ∈ modes := by
    intro modes hfind
    exact ⟨List.find?_some hfind, List.mem_of_find?_eq_some hfind⟩
  unfold mode? at h
  split at h <;> rename_i hoperand <;> rw [hoperand]
  case h_4 =>
    split at h
    · next hbranch =>
      cases h
      exact .inl ⟨hbranch, rfl, rfl⟩
    · split at h <;> exact .inr (hfirst _ h)
  all_goals exact .inr (hfirst _ h)

theorem mode_of_usesMemory (huses : i.operand.usesMemory = true) (hmode : i.mode? = some mode) :
    mode ∉ [AddressingMode.implied, .accumulator, .immediate] := by
  intro hmem
  rcases mode?_cases hmode with ⟨-, -, rfl⟩ | ⟨-, hmodes⟩
  · exact absurd hmem (by decide)
  · exact Operand.not_mem_modes huses mode hmem hmodes

theorem mode_ne_relative (hbranch : i.opcode.isConditionalBranch = false)
    (hmode : i.mode? = some mode) : mode ≠ .relative := by
  rcases mode?_cases hmode with ⟨hbranch', -, -⟩ | ⟨-, hmodes⟩
  · rw [hbranch] at hbranch'
    cases hbranch'
  · rintro rfl
    exact Operand.relative_not_mem_modes i.operand hmodes

theorem index?_of_mode {r : Register} (hmode : i.mode? = some mode) (h : mode.index? = some r) :
    i.operand.index? = some r := by
  rcases mode?_cases hmode with ⟨-, -, rfl⟩ | ⟨-, hmem⟩
  · cases h
  · rw [← Operand.index?_of_mem_modes i.operand mode hmem, h]

end Instruction

/-! ## The table -/

theorem Opcode.decode?_of_mem_encodings : ∀ e ∈ encodings, decode? e.1 = some e.2 := by
  decide +kernel

theorem Opcode.mem_encodings_of_encode? (h : o.encode? mode = some byte) :
    (byte, o, mode) ∈ encodings := by
  obtain ⟨e, hfind, rfl⟩ := Option.map_eq_some_iff.1 h
  have hentry : e.2.1 = o ∧ e.2.2 = mode := by simpa using List.find?_some hfind
  rw [← hentry.1, ← hentry.2]
  exact List.mem_of_find?_eq_some hfind

theorem Opcode.decode?_of_encode? (h : o.encode? mode = some byte) :
    decode? byte = some (o, mode) :=
  decode?_of_mem_encodings _ (mem_encodings_of_encode? h)

theorem Opcode.exists_encode?_relative (h : o.isConditionalBranch = true) :
    ∃ byte, o.encode? .relative = some byte := by
  rw [← Option.isSome_iff_exists]
  revert h
  cases o <;> decide

theorem Opcode.mode_of_isConditionalBranch (hbranch : o.isConditionalBranch = true)
    (h : o.encode? mode = some byte) : mode = .relative := by
  have hrelative : ∀ e ∈ encodings, e.2.1.isConditionalBranch = true → e.2.2 = .relative := by
    decide +kernel
  exact hrelative _ (mem_encodings_of_encode? h) hbranch

theorem mem_of_firstMode {modes : List AddressingMode}
    (h : Instruction.firstMode o modes = some mode) : mode ∈ modes := List.mem_of_find?_eq_some h

theorem size_of_immediate (hoperand : i.operand = .immediate value)
    (hmode : i.mode? = some mode) : mode.size = 2 := by
  rw [Instruction.mode?, hoperand] at hmode
  rw [List.mem_singleton.1 (mem_of_firstMode hmode)]
  rfl

theorem size_of_target?_eq_none (hplain : ∀ value, i.operand ≠ .immediate value)
    (htarget : i.operand.target? = none) (hmode : i.mode? = some mode) : mode.size = 1 := by
  rw [Instruction.mode?] at hmode
  cases hoperand : i.operand with
  | implied =>
    rw [hoperand] at hmode
    have hmem := mem_of_firstMode hmode
    simp only [List.mem_cons, List.not_mem_nil, or_false] at hmem
    rcases hmem with rfl | rfl <;> rfl
  | accumulator =>
    rw [hoperand] at hmode
    rw [List.mem_singleton.1 (mem_of_firstMode hmode)]
    rfl
  | immediate value => exact absurd hoperand (hplain value)
  | direct target width => rw [hoperand] at htarget; cases htarget
  | indexed target index width => rw [hoperand] at htarget; cases htarget
  | indirect target => rw [hoperand] at htarget; cases htarget
  | indexedIndirect target => rw [hoperand] at htarget; cases htarget
  | indirectIndexed target => rw [hoperand] at htarget; cases htarget

theorem length_take_littleEndian (address : UInt16) (mode : AddressingMode) :
    ((littleEndian address).take (mode.size - 1)).length + 1 = mode.size := by
  rw [List.length_take]
  cases mode <;> rfl

theorem length_operandBytes {p : Program} (hmode : i.mode? = some mode)
    (h : p.operandBytes i mode offset = .ok bytes) : bytes.length + 1 = mode.size := by
  unfold Program.operandBytes at h
  split at h
  · next value hoperand =>
    rw [size_of_immediate hoperand hmode]
    split at h <;> cases h
    rfl
  · next hplain =>
    split at h
    · next htarget =>
      rw [size_of_target?_eq_none (fun value heq => hplain value heq) htarget hmode]
      cases h
      rfl
    · split at h
      · cases h
      · split at h
        · split at h <;> cases h
          rfl
        · cases h
          exact length_take_littleEndian _ _

namespace Program

variable {p : Program} {i : Instruction} {mode : AddressingMode} {offset : UInt16}
  {bytes : List UInt8}

theorem exists_of_encode (h : p.encode i offset = .ok bytes) :
    ∃ mode byte rest, i.mode? = some mode ∧ i.opcode.encode? mode = some byte ∧
      p.operandBytes i mode offset = .ok rest ∧ bytes = byte :: rest := by
  unfold encode at h
  split at h
  · cases h
  · next mode hmode =>
    split at h
    · cases h
    · next byte hbyte =>
      cases hrest : p.operandBytes i mode offset with
      | error e =>
        rw [hrest] at h
        cases h
      | ok rest =>
        rw [hrest] at h
        cases h
        exact ⟨mode, byte, rest, hmode, hbyte, hrest, rfl⟩

end Program

theorem size?_of_encode {p : Program}
    (h : p.encode i offset = .ok bytes) : i.size? = some bytes.length := by
  obtain ⟨mode, byte, rest, hmode, -, hrest, rfl⟩ := Program.exists_of_encode h
  rw [Instruction.size?, hmode, Option.map_some, ← length_operandBytes hmode hrest,
    List.length_cons]

namespace Program

variable {p : Program} {i : Instruction} {mode : AddressingMode} {offset : UInt16}
  {bytes : List UInt8} {target : Target}

theorem operandBytes_immediate {byte : UInt8} (hoperand : i.operand = .immediate value)
    (hbyte : p.immediateByte? value = some byte) : p.operandBytes i mode offset = .ok [byte] := by
  unfold operandBytes
  rw [hoperand]
  simp only [hbyte]

theorem operandBytes_memory {written : UInt16} (hmode : mode ≠ .relative)
    (hwritten : i.operand.target?.bind p.resolve? = some written) :
    p.operandBytes i mode offset = .ok ((littleEndian written).take (mode.size - 1)) := by
  obtain ⟨target, htarget, hresolve⟩ := Option.bind_eq_some_iff.1 hwritten
  unfold operandBytes
  cases hoperand : i.operand <;> rw [hoperand] at htarget <;> cases htarget <;>
    simp only [Operand.target?, hresolve]

theorem exists_of_operandBytes (htarget : i.operand.target? = some target)
    (h : p.operandBytes i mode offset = .ok bytes) : ∃ address, p.resolve? target = some address ∧
      (mode = .relative → ∃ byte, p.displacement? offset address = some byte ∧ bytes = [byte]) ∧
      (mode ≠ .relative → bytes = (littleEndian address).take (mode.size - 1)) := by
  cases hresolve : p.resolve? target with
  | none =>
    unfold operandBytes at h
    cases hoperand : i.operand <;> rw [hoperand] at htarget h <;> cases htarget <;>
      simp only [Operand.target?, hresolve] at h <;> cases h
  | some address =>
    refine ⟨address, rfl, ?_, fun hmode => ?_⟩
    · rintro rfl
      unfold operandBytes at h
      cases hoperand : i.operand <;> rw [hoperand] at htarget h <;> cases htarget <;>
        simp only [Operand.target?, hresolve] at h <;> split at h <;> cases h <;>
          exact ⟨_, ‹_›, rfl⟩
    · rw [operandBytes_memory hmode (by rw [htarget]; exact hresolve)] at h
      exact (Except.ok.inj h).symm

theorem encode_branch {address : UInt16} (hbranch : i.opcode.isConditionalBranch = true)
    (htarget : i.jumpTarget? = some target) (hresolve : p.resolve? target = some address) :
    p.encode i offset = .error (.branchOutOfRange i) ↔ p.displacement? offset address = none := by
  obtain ⟨byte, hbyte⟩ := Opcode.exists_encode?_relative hbranch
  have hoperand : ∃ width, i.operand = .direct target width := by
    unfold Instruction.jumpTarget? at htarget
    split at htarget
    · next width hoperand =>
      rw [hbranch, Bool.true_or, Bool.true_or, if_pos rfl] at htarget
      exact ⟨width, by rw [hoperand, Option.some.inj htarget]⟩
    · cases htarget
  obtain ⟨width, hoperand⟩ := hoperand
  have hmode : i.mode? = some .relative := by
    rw [Instruction.mode?, hoperand]; simp only [hbranch, if_true]
  unfold encode operandBytes
  simp only [hmode, hbyte, hoperand, Operand.target?, hresolve]
  cases p.displacement? offset address <;> simp [Except.map]

end Program

end Lift6502
