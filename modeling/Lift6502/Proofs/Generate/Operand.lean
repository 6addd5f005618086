import Lift6502.Generate.Instruction
import Lift6502.Proofs.Generate.Emit

/-!
# Operands in generated code

The code for an operand computes what the instruction works on: an address and the byte there.
-/

namespace Lift6502

open Expression Gen Generator HasValue

variable {i : Instruction} {p : Program} {a : UInt16}

namespace Cpu

/-- The address that generated code computes for the address written in an operand. A one-byte
address is taken as it is. -/
def codeAddress (c : Cpu) (mode : AddressingMode) (written : UInt16) : UInt16 :=
  match mode with
  | .zeroPage | .absolute => written
  | .indirectIndexed =>
    wordOf (c.read written) (c.read ((written + 1) &&& 0xff)) + c.y.toUInt16
  | mode => c.operandAddress mode written

end Cpu

/-- What an instruction works on in generated code, which also covers instructions that
cannot be encoded. -/
def Program.codeWork? (p : Program) (i : Instruction) (c : Cpu) : Option Work :=
  match i.operand with
  | .implied | .accumulator => some ⟨i.mode?.getD .accumulator, 0, c.a⟩
  | .immediate value => some ⟨i.mode?.getD .accumulator, 0, (p.immediateByte? value).getD 0⟩
  | operand =>
    match operand.target?.bind p.resolve?, i.mode? with
    | some written, some mode =>
      let address := c.codeAddress mode written
      some ⟨mode, address, c.read address⟩
    | _, _ => none

theorem Program.codeWork?_of_memory {written : UInt16} {mode : AddressingMode}
    (hwritten : i.operand.target?.bind p.resolve? = some written) (hmode : i.mode? = some mode)
    (c : Cpu) : p.codeWork? i c =
      some ⟨mode, c.codeAddress mode written, c.read (c.codeAddress mode written)⟩ := by
  unfold codeWork?
  rw [hmode]
  cases hoperand : i.operand <;> rw [hoperand] at hwritten
  case implied | accumulator | immediate => cases hwritten
  all_goals simp only [hwritten]

theorem Program.codeWork?_of_usesMemory_eq_false (h : i.operand.usesMemory = false) (c : Cpu) :
    ∃ w, p.codeWork? i c = some w ∧ w.mode = i.mode?.getD .accumulator := by
  unfold codeWork?
  cases hoperand : i.operand <;> rw [hoperand] at h
  case implied | accumulator | immediate => exact ⟨_, rfl, rfl⟩
  all_goals cases h

theorem Program.codeWork?_of_implied (h : i.operand = .implied ∨ i.operand = .accumulator)
    (c : Cpu) : p.codeWork? i c = some ⟨i.mode?.getD .accumulator, 0, c.a⟩ := by
  unfold codeWork?
  rcases h with h | h <;> rw [h]

section

variable {known : Known} {l r : Expression}

theorem toUInt32_wordOf (low high : UInt8) :
    low.toUInt32 ||| BinOp.shiftLeft high.toUInt32 8 = (wordOf low high).toUInt32 := by
  have hshift : BinOp.shiftLeft high.toUInt32 8 = (high.toUInt16 <<< 8).toUInt32 := by
    revert high
    apply forall_byte
    decide +kernel
  rw [hshift, wordOf, UInt16.toUInt32_or, UInt32.or_comm]
  rfl

theorem hasValue_indexed_byte {b : UInt8} (hl : l.HasValue known a.toUInt32)
    (hr : r.HasValue known b.toUInt32) :
    (indexed l r 0xff).HasValue known (a.toUInt8 + b).toUInt16.toUInt32 := by
  have h := lowByte (number .add (by decide) hl hr)
  rwa [BinOp.eval, UInt32.toUInt8_add, UInt16.toUInt8_toUInt32, UInt8.toUInt8_toUInt32] at h

theorem hasValue_indexed_word {b : UInt8} (hl : l.HasValue known a.toUInt32)
    (hr : r.HasValue known b.toUInt32) :
    (indexed l r 0xffff).HasValue known (a + b.toUInt16).toUInt32 := by
  have h := number .bitAnd (by decide) (number .add (by decide) hl hr)
    (.literal 0xffff)
  rwa [BinOp.eval, BinOp.eval, and_lowWord, UInt32.toUInt16_add, UInt16.toUInt16_toUInt32,
    UInt8.toUInt16_toUInt32] at h

end

variable {inUse : Progress → Issue} [Counts inUse] {c : Generator} {H : Host} {p : Progress}
  {σ : Scene} {s : SymbolicState} {core : Core} {base : List UInt8} {site : Site}

theorem performs_withinLimit {e : Expression} {w : UInt32}
    (h : e.HasValue (σ.env.known (inUse p)) w) :
    Performs inUse H (c.withinLimit e) p σ (Kept inUse σ w) := by
  unfold withinLimit
  split
  · exact performs_stableValue h
  · exact .pure ⟨rfl, h⟩

theorem performs_pointer {place : Expression}
    (h : place.HasValue (σ.env.known (inUse p)) a.toUInt32) :
    Performs inUse H (pointer place) p σ
      (Kept inUse σ (wordOf (σ.memory.read a) (σ.memory.read ((a + 1) &&& 0xff))).toUInt32) := by
  unfold pointer
  refine .bind (performs_load h) fun low p1 σ1 hmove1 ⟨hmemory1, hlow⟩ => ?_
  have hplace : (mkBinary .add place (.literal 1)).lowByte.HasValue (σ1.env.known (inUse p1))
      ((a + 1) &&& 0xff).toUInt32 := by
    have h' := number .bitAnd (by decide)
      (number .add (by decide) (h.mono hmove1.known_le) (.literal 1)) (.literal 0xff)
    have hmask : (a.toUInt32 + 1) &&& 0xff = ((a + 1) &&& 0xff).toUInt32 := by
      rw [UInt16.toUInt32_and, and_lowByte]
      show _ = (a + 1).toUInt32 &&& 0xff
      rw [and_lowByte, UInt16.toUInt8_toUInt32, UInt32.toUInt8_add, UInt16.toUInt8_add,
        UInt16.toUInt8_toUInt32]
      rfl
    rw [← hmask]
    exact h'
  refine .bind (performs_load hplace) fun high p2 σ2 hmove2 ⟨hmemory2, hhigh⟩ => ?_
  refine .pure ⟨hmemory2.trans hmemory1, ?_⟩
  rw [← toUInt32_wordOf, ← hmemory1]
  exact number .bitOr (by decide) (hmemory1 ▸ hlow.mono hmove2.known_le)
    (number .shl (by decide) hhigh (.literal 8))

variable (hm : Matches inUse core base s p σ)

include hm

theorem performs_load_work {e : Expression} {w : Work} (hbyte : w.byte = core.cpu.read w.address)
    (h : e.HasValue (σ.env.known (inUse p)) w.address.toUInt32) :
    Performs inUse H (load e) p σ (Kept inUse σ w.byte.toUInt32) := by
  rw [hbyte, Cpu.read, ← hm.memory]
  exact performs_load h

theorem performs_addressFrom (written : UInt16) (mode : AddressingMode) :
    Performs inUse H (c.addressFrom site s (.literal written.toUInt32) mode) p σ
      (Kept inUse σ (core.cpu.codeAddress mode written).toUInt32) := by
  have hwritten : (Expression.literal written.toUInt32).HasValue (σ.env.known (inUse p))
      written.toUInt32 := .literal _
  unfold addressFrom
  cases mode with
  | zeroPage | absolute => exact .pure ⟨rfl, hwritten⟩
  | zeroPageX | zeroPageY =>
    exact performs_read_bind hm fun index hindex =>
      .pure ⟨rfl, hasValue_indexed_byte hwritten hindex⟩
  | absoluteX | absoluteY =>
    exact performs_read_bind hm fun index hindex =>
      .pure ⟨rfl, hasValue_indexed_word hwritten hindex⟩
  | indexedIndirect =>
    refine performs_read_bind hm fun x hx => ?_
    have h := hasValue_indexed_byte hwritten hx
    refine .bind (performs_withinLimit h) fun place p1 σ1 _ ⟨hmemory1, hplace⟩ => ?_
    refine (performs_pointer hplace).mono fun e p2 σ2 _ ⟨hmemory2, he⟩ =>
      ⟨hmemory2.trans hmemory1, ?_⟩
    have hnext : ∀ b : UInt8, (b.toUInt16 + 1) &&& 0xff = (b + 1).toUInt16 := by
      apply forall_byte
      decide +kernel
    rw [hmemory1, hm.memory, hnext] at he
    exact he
  | indirectIndexed =>
    refine performs_read_bind hm fun y hy => ?_
    refine .bind (performs_pointer hwritten) fun pointer p1 σ1 hmove ⟨hmemory1, hpointer⟩ => ?_
    refine .pure ⟨hmemory1, ?_⟩
    have h := hasValue_indexed_word hpointer (hy.mono hmove.known_le)
    rw [hm.memory] at h
    exact h
  | implied | accumulator | immediate | indirect | relative => exact .throw

theorem performs_address :
    Performs inUse H (c.address site s) p σ fun e p' σ' =>
      ∃ w, c.program.codeWork? site.instruction core.cpu = some w ∧
        w.byte = core.cpu.read w.address ∧ site.instruction.operand.usesMemory = true ∧
        site.instruction.mode? = some w.mode ∧ Kept inUse σ w.address.toUInt32 e p' σ' := by
  unfold address
  rcases hwritten : site.instruction.operand.target?.bind c.program.resolve? with _ | written
  · exact .throw
  rcases hmode : site.instruction.mode? with _ | mode
  · exact .throw
  · refine (performs_addressFrom hm written mode).mono fun e p' σ' _ he => ?_
    refine ⟨⟨mode, core.cpu.codeAddress mode written,
      core.cpu.read (core.cpu.codeAddress mode written)⟩, ?_, rfl, ?_, rfl, he⟩
    · exact Program.codeWork?_of_memory hwritten hmode core.cpu
    · unfold Operand.usesMemory
      cases htarget : site.instruction.operand.target? with
      | none =>
        rw [htarget] at hwritten
        cases hwritten
      | some t => rfl

theorem performs_readOperand :
    Performs inUse H (c.readOperand site s) p σ fun e p' σ' =>
      ∃ w, c.program.codeWork? site.instruction core.cpu = some w ∧
        Kept inUse σ w.byte.toUInt32 e p' σ' := by
  unfold readOperand
  split
  · next value hoperand =>
    cases hbyte : c.program.immediateByte? value with
    | none => exact .throw
    | some byte =>
      refine .pure ⟨⟨site.instruction.mode?.getD .accumulator, 0, byte⟩, ?_, rfl, .literal _⟩
      unfold Program.codeWork?
      rw [hoperand]
      simp only [hbyte, Option.getD_some]
  · next hoperand =>
    exact .ofExcept fun e he =>
      ⟨_, Program.codeWork?_of_implied (.inl hoperand) core.cpu, rfl, hm.describes.of_read he⟩
  · next hoperand =>
    exact .ofExcept fun e he =>
      ⟨_, Program.codeWork?_of_implied (.inr hoperand) core.cpu, rfl, hm.describes.of_read he⟩
  · refine .bind (performs_address hm) fun e p1 σ1 hmove ⟨w, hw, hbyte, _, _, hmemory1, he⟩ => ?_
    exact (performs_load_work (hm.mono hmove hmemory1) hbyte he).mono
      fun e' p' σ' _ ⟨hmemory', he'⟩ =>
      ⟨w, hw, hmemory'.trans hmemory1, he'⟩

end Lift6502
