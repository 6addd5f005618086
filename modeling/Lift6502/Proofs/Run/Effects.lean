import Lift6502.Proofs.Run.Decoding

/-!
# Effects of instructions

An instruction changes no location outside its writes, and what it does depends on no location
outside its reads.
-/

namespace Lift6502

open Instruction Opcode LocationSet

/-- The effects of an opcode are those of its form on the accumulator, if this is the mode; nothing
is counted there. -/
def AddressingMode.Suits (mode : AddressingMode) (onAccumulator : Bool) (o : Opcode) : Prop :=
  mode = .accumulator → onAccumulator = true ∧ o ∉ [.inc, .dec]

variable {onAccumulator : Bool} {mode : AddressingMode}

theorem AddressingMode.Suits.ne_accumulator {o : Opcode}
    (h : mode.Suits onAccumulator o) (ho : o ∈ [.inc, .dec]) : mode ≠ .accumulator :=
  fun hmode => (h hmode).2 ho

namespace Cpu

variable {mode : AddressingMode} {c d : Cpu} {o : Opcode} {keep : LocationSet}

def setRegister (c : Cpu) (r : Register) (byte : UInt8) : Cpu :=
  match r with
  | .a => c.setA byte
  | .x => c.setX byte
  | .y => c.setY byte

theorem register_setRegister (c : Cpu) (r : Register) (byte : UInt8) :
    (c.setRegister r byte).register r = byte := by
  cases r <;> rfl

theorem memory_setRegister (c : Cpu) (r : Register) (byte : UInt8) :
    (c.setRegister r byte).memory = c.memory := by
  cases r <;> rfl

theorem modifyByte_of_memory (c : Cpu) (hmode : mode ≠ .accumulator) (address : UInt16)
    (byte : UInt8) (change : UInt8 → Bool → UInt8 × Bool) : c.modifyByte mode address byte change =
      ((c.setCarry (change byte c.status.carry).2).setResultFlags
        (change byte c.status.carry).1).write address (change byte c.status.carry).1 := by
  unfold modifyByte
  split
  · exact absurd rfl hmode
  · rfl

theorem apply_of_memory (c : Cpu) (o : Opcode) (hmode : mode ≠ .accumulator) (address : UInt16)
    (byte : UInt8) : c.apply o mode address byte = c.apply o .absolute address byte := by
  cases o with
  | asl | lsr | rol | ror | inc | dec => cases mode <;> first | rfl | exact absurd rfl hmode
  | _ => rfl

section

variable (c : Cpu) {l : Location} {mode : AddressingMode}

theorem value_setRegister (r : Register) (byte : UInt8) (hl : l ∉ [Location.register r, .z, .n]) :
    (c.setRegister r byte).value l = c.value l := by
  revert hl
  rcases l with q | f
  · cases r <;> cases q <;> first | (intro _; rfl) | (intro h; exact absurd (by simp) h)
  · cases r <;> cases f <;> first | (intro _; rfl) | (intro h; exact absurd (by simp) h)

theorem value_add (byte : UInt8) (hl : l ∉ [Location.a, .z, .n, .c, .v]) :
    (c.add byte).value l = c.value l := by
  rcases l with r | f
  · cases r <;> first | rfl | exact absurd (by simp) hl
  · cases f <;> exact absurd (by simp) hl

theorem value_compare (register byte : UInt8) (hl : l ∉ [Location.z, .n, .c]) :
    (c.compare register byte).value l = c.value l := by
  rcases l with r | f
  · cases r <;> rfl
  · cases f <;> first | rfl | exact absurd (by simp) hl

theorem value_modifyByte (address : UInt16) (byte : UInt8) (change : UInt8 → Bool → UInt8 × Bool)
    (hl : l ∉ [Location.z, .n, .c]) (ha : l = .a → mode ≠ .accumulator) :
    (c.modifyByte mode address byte change).value l = c.value l := by
  by_cases hmode : mode = .accumulator
  · subst hmode
    rcases l with r | f
    · cases r <;> first | rfl | exact absurd rfl (ha rfl)
    · cases f <;> first | rfl | exact absurd (by simp) hl
  · rw [c.modifyByte_of_memory hmode]
    rcases l with r | f
    · cases r <;> rfl
    · cases f <;> first | rfl | exact absurd (by simp) hl

theorem value_count (address : UInt16) (byte : UInt8) (change : UInt8 → UInt8)
    (hl : l ∉ [Location.z, .n]) (hmode : mode ≠ .accumulator) :
    (c.modifyByte mode address byte fun b carry => (change b, carry)).value l = c.value l := by
  rw [c.modifyByte_of_memory hmode]
  rcases l with r | f
  · cases r <;> rfl
  · cases f <;> first | rfl | exact absurd (by simp) hl

theorem value_branchIf (taken : Bool) (target : UInt16) (l : Location) :
    (c.branchIf taken target).value l = c.value l := by
  cases taken <;> rfl

/-- An instruction changes only what the table says. A return from an interrupt is left out: it
takes its flags from the stack, and the table does not say so. -/
theorem value_apply {o : Opcode} (hmode : mode.Suits onAccumulator o) (ho : o ≠ .rti)
    (address : UInt16) (byte : UInt8) (hl : l ∉ (opcodeEffects onAccumulator o).2) :
    (c.apply o mode address byte).value l = c.value l := by
  cases o with
  | rti => exact absurd rfl ho
  | adc | sbc => exact c.value_add _ hl
  | and | ora | eor | lda | txa | tya => exact c.value_setRegister .a _ hl
  | pla => exact c.pull.2.value_setRegister .a _ hl
  | ldx | tax | tsx | dex | inx => exact c.value_setRegister .x _ hl
  | ldy | tay | dey | iny => exact c.value_setRegister .y _ hl
  | cmp | cpx | cpy => exact c.value_compare _ _ hl
  | inc | dec => exact c.value_count _ _ _ hl (hmode.ne_accumulator (by simp))
  | asl | lsr | rol | ror =>
    -- Where the table is for memory, the mode is not that of the accumulator.
    cases onAccumulator with
    | true =>
      refine c.value_modifyByte _ _ _ (fun hmem => hl (List.mem_cons_of_mem _ hmem)) ?_
      rintro rfl
      exact absurd List.mem_cons_self hl
    | false =>
      refine c.value_modifyByte _ _ _ hl fun _ heq => ?_
      exact absurd (hmode heq).1 (by decide)
  | bcc | bcs | beq | bmi | bne | bpl | bvc | bvs => exact c.value_branchIf _ _ l
  | bit | clc | sec | clv | plp =>
    rcases l with r | f
    · cases r <;> rfl
    · cases f <;>
        first
        | rfl
        | exact absurd (by simp [opcodeEffects, Location.flags, Flag.all]) hl
  | brk | cld | cli | jmp | jsr | nop | pha | php | rts | sed | sei | sta | stx | sty | txs => rfl

end

/-! ## Dependence -/

/-- Two processors that differ only in what locations hold, and in their steps. -/
structure Alike (c d : Cpu) : Prop where
  memory : c.memory = d.memory
  pc : c.pc = d.pc
  sp : c.sp = d.sp
  interrupt : c.status.interrupt = d.status.interrupt
  decimal : c.status.decimal = d.status.decimal

/-- The processor with everything cleared that must not count: the locations outside a set and the
number of steps. -/
def mask (c : Cpu) (keep : LocationSet) : Cpu :=
  { c with
    a := if keep.a then c.a else 0
    x := if keep.x then c.x else 0
    y := if keep.y then c.y else 0
    status :=
      { carry := keep.c && c.status.carry
        zero := keep.z && c.status.zero
        interrupt := c.status.interrupt
        decimal := c.status.decimal
        overflow := keep.v && c.status.overflow
        negative := keep.n && c.status.negative }
    steps := 0 }

theorem value_mask (c : Cpu) {l : Location} (hl : l ∈ keep) :
    (c.mask keep).value l = c.value l := by
  have hl : keep.get l = true := hl
  rcases l with r | f
  · cases r <;> exact congrArg UInt8.toUInt32 (if_pos hl)
  · cases f <;> exact congrArg Bool.toUInt32 ((congrArg (· && _) hl).trans (Bool.true_and _))

theorem register_eq_of_value {r : Register} (h : c.value (.register r) = d.value (.register r)) :
    c.register r = d.register r :=
  UInt8.toUInt32_inj.1 h

theorem flag_eq_of_value {f : Flag} (h : c.value (.flag f) = d.value (.flag f)) :
    c.status.get f = d.status.get f := by
  have h : (c.status.get f).toUInt32 = (d.status.get f).toUInt32 := h
  revert h
  cases c.status.get f <;> cases d.status.get f <;> decide

theorem mask_eq_iff : c.mask keep = d.mask keep ↔ c.Alike d ∧ ∀ l ∈ keep,
    c.value l = d.value l := by
  constructor
  · intro h
    refine ⟨⟨(congrArg memory h :), (congrArg pc h :), (congrArg sp h :),
      (congrArg (·.status.interrupt) h :), (congrArg (·.status.decimal) h :)⟩, fun l hl => ?_⟩
    rw [← c.value_mask hl, ← d.value_mask hl, h]
  · rintro ⟨⟨hmemory, hpc, hsp, hinterrupt, hdecimal⟩, hkeep⟩
    have hregister : ∀ r, (if keep.get (.register r) then c.register r else 0) =
        if keep.get (.register r) then d.register r else 0 := by
      intro r
      split
      · next hr => exact register_eq_of_value (hkeep _ hr)
      · rfl
    have hflag : ∀ f, (keep.get (.flag f) && c.status.get f) =
        (keep.get (.flag f) && d.status.get f) := by
      intro f
      cases hf : keep.get (.flag f)
      · rfl
      · rw [flag_eq_of_value (hkeep (.flag f) hf)]
    unfold mask
    rw [hmemory, hpc, hsp, hinterrupt, hdecimal]
    congr 1
    · exact hregister .a
    · exact hregister .x
    · exact hregister .y
    · congr 1
      · exact hflag .carry
      · exact hflag .zero
      · exact hflag .overflow
      · exact hflag .negative

theorem mask_branchIf (c : Cpu) (keep : LocationSet) (taken : Bool) (target : UInt16) :
    (c.branchIf taken target).mask keep =
      { c.mask keep with pc := if taken then target else c.pc } := by
  cases taken <;> rfl

/-- An instruction does the same without the locations that it does not read. A call is left
out: the table says that it writes the flags, for the sake of the subroutine, and it leaves them
as they are. -/
theorem mask_apply (c : Cpu) (hmode : mode.Suits onAccumulator o)
    (ho : o ≠ .jsr) (address : UInt16) (byte : UInt8) :
    ((c.mask (.ofList (opcodeEffects onAccumulator o).1)).apply o mode address
        byte).mask (.ofList (opcodeEffects onAccumulator o).2) =
      (c.apply o mode address byte).mask
      (.ofList (opcodeEffects onAccumulator o).2) := by
  cases o with
  | jsr => exact absurd rfl ho
  | bcc | bcs | beq | bmi | bne | bpl | bvc | bvs =>
    unfold apply
    rw [mask_branchIf, mask_branchIf]
    rfl
  | asl | lsr | rol | ror =>
    by_cases haccumulator : mode = .accumulator
    · subst haccumulator
      obtain ⟨rfl, -⟩ := hmode rfl
      rfl
    · rw [apply_of_memory _ _ haccumulator, apply_of_memory _ _ haccumulator]
      cases onAccumulator <;> rfl
  | inc | dec =>
    have hne := hmode.ne_accumulator (by simp)
    rw [apply_of_memory _ _ hne, apply_of_memory _ _ hne]
    rfl
  -- What is masked is not looked at, so both sides compute to the same.
  | _ => rfl

theorem agree_apply (hmode : mode.Suits onAccumulator o) (ho : o ≠ .jsr)
    (address : UInt16) (byte : UInt8) (h : c.Alike d)
    (hreads : ∀ l ∈ (opcodeEffects onAccumulator o).1, c.value l = d.value l) :
    (c.apply o mode address byte).Alike (d.apply o mode address byte) ∧
      ∀ l ∈ (opcodeEffects onAccumulator o).2,
        (c.apply o mode address byte).value l = (d.apply o mode address byte).value l := by
  have hmask : c.mask (.ofList (opcodeEffects onAccumulator o).1) =
      d.mask (.ofList (opcodeEffects onAccumulator o).1) :=
    mask_eq_iff.2 ⟨h, fun l hl => hreads l (mem_ofList.1 hl)⟩
  have hafter : (c.apply o mode address byte).mask
      (.ofList (opcodeEffects onAccumulator o).2) =
      (d.apply o mode address byte).mask
      (.ofList (opcodeEffects onAccumulator o).2) := by
    rw [← c.mask_apply hmode ho, hmask, d.mask_apply hmode ho]
  obtain ⟨halike, hwrites⟩ := mask_eq_iff.1 hafter
  exact ⟨halike, fun l hl => hwrites l (mem_ofList.2 hl)⟩

/-! ## Registers only -/

structure SameRegisters (c d : Cpu) : Prop where
  a : c.a = d.a
  x : c.x = d.x
  y : c.y = d.y
  status : c.status = d.status

theorem SameRegisters.symm (h : c.SameRegisters d) : d.SameRegisters c :=
  ⟨h.a.symm, h.x.symm, h.y.symm, h.status.symm⟩

theorem SameRegisters.trans {e : Cpu} (h : c.SameRegisters d) (h' : d.SameRegisters e) :
    c.SameRegisters e :=
  ⟨h.a.trans h'.a, h.x.trans h'.x, h.y.trans h'.y, h.status.trans h'.status⟩

theorem sameRegisters_branchIf (c : Cpu) (taken : Bool) (target : UInt16) :
    (c.branchIf taken target).SameRegisters c := by
  cases taken <;> exact ⟨rfl, rfl, rfl, rfl⟩

theorem sameRegisters_apply (h : c.SameRegisters d) (ho : o ∉ [.pla, .plp, .rti, .tsx])
    (mode : AddressingMode) (address : UInt16) (byte : UInt8) :
    (c.apply o mode address byte).SameRegisters (d.apply o mode address byte) := by
  -- The two differ in fields that none of the instructions left looks at.
  obtain ⟨a, x, y, sp, pc, status, memory, steps⟩ := c
  obtain ⟨a', x', y', sp', pc', status', memory', steps'⟩ := d
  obtain ⟨rfl, rfl, rfl, rfl⟩ := h
  cases o with
  | pla | plp | rti | tsx => exact absurd (by decide) ho
  | asl | lsr | rol | ror | inc | dec =>
    by_cases haccumulator : mode = .accumulator
    · subst haccumulator
      exact ⟨rfl, rfl, rfl, rfl⟩
    · rw [apply_of_memory _ _ haccumulator, apply_of_memory _ _ haccumulator]
      exact ⟨rfl, rfl, rfl, rfl⟩
  | bcc | bcs | beq | bmi | bne | bpl | bvc | bvs =>
    unfold apply branchIf
    simp only
    split <;> exact ⟨rfl, rfl, rfl, rfl⟩
  | _ => exact ⟨rfl, rfl, rfl, rfl⟩

theorem sameRegisters_apply_branch (c : Cpu) (h : o.isConditionalBranch = true)
    (mode : AddressingMode) (address : UInt16) (byte : UInt8) :
    (c.apply o mode address byte).SameRegisters c := by
  cases o <;> first | exact sameRegisters_branchIf c _ _ | cases h

theorem sameRegisters_apply_of_mode (h : c.SameRegisters d)
    (hmode : mode ∈ [.implied, .accumulator, .immediate]) (hsupports : o.supports mode = true)
    (ho : o ∉ [.pla, .plp, .rti, .tsx]) (address address' : UInt16) {byte byte' : UInt8}
    (hbyte : mode = .immediate → byte = byte') :
    (c.apply o mode address byte).SameRegisters (d.apply o mode address' byte') := by
  have hd : d.apply o mode address' byte' = d.apply o mode address byte := by
    simp only [List.mem_cons, List.not_mem_nil, or_false] at hmode
    rcases hmode with rfl | rfl | rfl
    · exact d.apply_register (.inl rfl) hsupports _ _ _ _
    · exact d.apply_register (.inr rfl) hsupports _ _ _ _
    · rw [hbyte rfl]
      exact d.apply_immediate hsupports _ _ _
  rw [hd]
  exact sameRegisters_apply h ho mode address byte

theorem memory_apply_of_registers (c : Cpu) {first : UInt8} (hfirst : o.encode? mode = some first)
    (hmode : mode ∈ [.implied, .accumulator, .immediate, .relative])
    (ho : o ∉ [.jsr, .jmp, .pha, .pla, .php, .plp, .brk, .rts, .rti, .tsx, .txs]) (address : UInt16)
    (byte : UInt8) :
    (c.apply o mode address byte).memory = c.memory ∧ (c.apply o mode address byte).sp = c.sp := by
  have hentries : ∀ e ∈ encodings,
      e.2.1 ∈ [asl, .lsr, .rol, .ror, .inc, .dec, .sta, .stx, .sty] →
        e.2.2 ∈ [AddressingMode.implied, .accumulator, .immediate, .relative] →
          e.2.2 = .accumulator ∧ e.2.1 ∈ [asl, .lsr, .rol, .ror] := by decide +kernel
  -- Of the instructions that can write to memory, only shifts have such a mode.
  have hwrites : o ∈ [.asl, .lsr, .rol, .ror, .inc, .dec, .sta, .stx, .sty] →
      mode = .accumulator ∧ o ∈ [.asl, .lsr, .rol, .ror] := fun ho =>
    hentries _ (mem_encodings_of_encode? hfirst) ho hmode
  cases o with
  | jsr | pha | pla | php | plp | rts | rti | txs => exact absurd (by decide) ho
  | inc | dec | sta | stx | sty =>
    exact absurd (hwrites (by decide)).2 (by decide)
  | asl | lsr | rol | ror =>
    obtain ⟨rfl, -⟩ := hwrites (by decide)
    exact ⟨rfl, rfl⟩
  | bcc | bcs | beq | bmi | bne | bpl | bvc | bvs =>
    unfold apply branchIf
    simp only
    split <;> exact ⟨rfl, rfl⟩
  | _ => exact ⟨rfl, rfl⟩

end Cpu

/-! ## One step -/

namespace Instruction

variable {i : Instruction} {mode : AddressingMode}

theorem suits_mode (hmode : i.mode? = some mode) : mode.Suits (!i.operand.usesMemory) i.opcode := by
  rintro rfl
  have hcount : ∀ o ∈ [inc, .dec], o.supports .accumulator = false := by decide
  constructor
  · cases huses : i.operand.usesMemory with
    | false => rfl
    | true => exact absurd (by decide) (mode_of_usesMemory huses hmode)
  · intro ho
    rcases mode?_cases hmode with ⟨-, -, hrelative⟩ | ⟨hsupports, -⟩
    · cases hrelative
    · rw [hcount _ ho] at hsupports
      cases hsupports

end Instruction

theorem Cpu.effectiveAddress_congr {c d : Cpu} {i : Instruction}
    (hmode : i.mode? = some mode) (hmemory : c.memory = d.memory)
    (hindex : ∀ r, i.operand.index? = some r → c.register r = d.register r)
    (operand next : UInt16) :
    c.effectiveAddress mode operand next = d.effectiveAddress mode operand next := by
  have hindex : ∀ r, mode.index? = some r → c.register r = d.register r := fun r hr =>
    hindex r (index?_of_mode hmode hr)
  cases mode with
  | implied | accumulator | immediate => rfl
  | relative | zeroPage | absolute | indirect =>
    simp only [effectiveAddress, operandAddress, word, read, hmemory]
  | zeroPageX | absoluteX | indexedIndirect =>
    have hx : c.x = d.x := hindex .x rfl
    simp only [effectiveAddress, operandAddress, pointerAt, word, read, hmemory, hx]
  | zeroPageY | absoluteY | indirectIndexed =>
    have hy : c.y = d.y := hindex .y rfl
    simp only [effectiveAddress, operandAddress, pointerAt, word, read, hmemory, hy]

namespace Program

variable {p : Program} {i : Instruction} {mode : AddressingMode} {offset : UInt16}
  {bytes : List UInt8} {c d : Cpu}

theorem decode?_of_encode (h : p.encode i offset = .ok bytes) (hmode : i.mode? = some mode)
    (hholds : c.HoldsBytes c.pc bytes) : decode? (c.read c.pc) = some (i.opcode, mode) := by
  obtain ⟨mode', byte, rest, hmode', hbyte, -, rfl⟩ := exists_of_encode h
  obtain rfl : mode = mode' := Option.some.inj (hmode.symm.trans hmode')
  rw [hholds.1]
  exact decode?_of_encode? hbyte

theorem step_of_encode (h : p.encode i offset = .ok bytes) (hmode : i.mode? = some mode)
    (ho : i.opcode ≠ .brk) (hholds : c.HoldsBytes c.pc bytes) : c.step = (.ok i.opcode,
      ({ c with steps := c.steps + 1, pc := c.pc + UInt16.ofNat mode.size } : Cpu).execute
        i.opcode mode (c.effectiveAddress mode (c.pc + 1) (c.pc + UInt16.ofNat mode.size))) := by
  unfold Cpu.step
  simp only [decode?_of_encode h hmode hholds, if_neg ho]

end Program

namespace Instruction

/-- What the table says about an instruction is true of every processor that has come to its bytes:
the instruction runs, changes nothing outside its writes, and takes what it leaves there from
nothing outside its reads. If it works on registers, it neither changes memory nor depends on it. -/
structure HasEffects (i : Instruction) (bytes : List UInt8) : Prop where
  runs : ∀ c : Cpu, c.HoldsBytes c.pc bytes → c.step.1 = .ok i.opcode
  writes : ∀ c : Cpu, c.HoldsBytes c.pc bytes → ∀ l, l ∉ i.effects.writes →
    c.step.2.value l = c.value l
  reads : ∀ c d : Cpu, c.HoldsBytes c.pc bytes → d.HoldsBytes d.pc bytes → c.Alike d →
    (∀ l ∈ i.effects.reads, c.value l = d.value l) →
      c.step.2.Alike d.step.2 ∧ ∀ l ∈ i.effects.writes, c.step.2.value l = d.step.2.value l
  memory : i.worksOnRegisters = true → ∀ c : Cpu, c.HoldsBytes c.pc bytes →
    c.step.2.memory = c.memory ∧ c.step.2.sp = c.sp
  registers : i.worksOnRegisters = true → ∀ c d : Cpu, c.HoldsBytes c.pc bytes →
    d.HoldsBytes d.pc bytes → c.SameRegisters d → c.step.2.SameRegisters d.step.2

end Instruction

namespace Program

variable {p : Program} {i : Instruction} {mode : AddressingMode} {offset : UInt16}
  {bytes : List UInt8} {c d : Cpu}

theorem opcode_of_worksOnRegisters (hworks : i.worksOnRegisters = true) :
    i.opcode ∉ [.jsr, .jmp, .pha, .pla, .php, .plp, .brk, .rts, .rti, .tsx, .txs] := by
  unfold worksOnRegisters at hworks
  intro hmem
  have hnone : ∀ o ∈ [jsr, .jmp, .pha, .pla, .php, .plp, .brk, .rts, .rti, .tsx, .txs],
      o.isConditionalBranch = false := by decide
  rw [hnone _ hmem, Bool.false_or, List.contains_iff_mem.2 hmem] at hworks
  simp at hworks

section

variable (h : p.encode i offset = .ok bytes)

include h

theorem value_step_of_encode (ho : i.opcode ∉ [.rti, .brk]) (hholds : c.HoldsBytes c.pc bytes)
    {l : Location} (hl : l ∉ i.effects.writes) : c.step.2.value l = c.value l := by
  obtain ⟨mode, -, -, hmode, -⟩ := exists_of_encode h
  rw [step_of_encode h hmode (fun heq => ho (by simp [heq])) hholds]
  exact Cpu.value_apply _ (suits_mode hmode) (fun heq => ho (by simp [heq])) _ _
    fun hmem => hl (mem_ofList.2 hmem)

theorem agree_step_of_encode (ho : i.opcode ∉ [.jsr, .brk])
    (hc : c.HoldsBytes c.pc bytes) (hd : d.HoldsBytes d.pc bytes) (halike : c.Alike d)
    (hreads : ∀ l ∈ i.effects.reads, c.value l = d.value l) :
    c.step.2.Alike d.step.2 ∧ ∀ l ∈ i.effects.writes, c.step.2.value l = d.step.2.value l := by
  obtain ⟨mode, -, -, hmode, -⟩ := exists_of_encode h
  have hbrk : i.opcode ≠ .brk := fun heq => ho (by simp [heq])
  have hindex : ∀ r, i.operand.index? = some r → c.register r = d.register r := by
    intro r hr
    refine Cpu.register_eq_of_value (hreads _ (mem_ofList.2 ?_))
    simp [hr]
  rw [step_of_encode h hmode hbrk hc, step_of_encode h hmode hbrk hd,
    Cpu.effectiveAddress_congr hmode halike.memory hindex, halike.pc]
  unfold Cpu.execute
  generalize d.effectiveAddress mode (d.pc + 1) (d.pc + UInt16.ofNat mode.size) = address
  generalize d.pc + UInt16.ofNat mode.size = next
  have hbyte : Cpu.read { c with steps := c.steps + 1, pc := next } address = d.read address := by
    unfold Cpu.read
    rw [halike.memory]
  have hmoved : Cpu.Alike { c with steps := c.steps + 1, pc := next }
      { d with steps := d.steps + 1, pc := next } :=
    ⟨halike.memory, rfl, halike.sp, halike.interrupt, halike.decimal⟩
  obtain ⟨hafter, hwrites⟩ :=
    Cpu.agree_apply (suits_mode hmode) (fun heq => ho (by simp [heq]))
    address (d.read address) hmoved fun l hl =>
      hreads l (mem_ofList.2 (List.mem_append_right _ hl))
  rw [hbyte]
  exact ⟨hafter, fun l hl => hwrites l (mem_ofList.1 hl)⟩

theorem mode_of_worksOnRegisters (hworks : i.worksOnRegisters = true)
    (hmode : i.mode? = some mode) : mode = .relative ∧ i.opcode.isConditionalBranch = true ∨
      mode ∈ [.implied, .accumulator, .immediate] ∧ i.opcode.supports mode = true := by
  obtain ⟨mode', byte, -, hmode', hbyte, -⟩ := exists_of_encode h
  obtain rfl : mode = mode' := Option.some.inj (hmode.symm.trans hmode')
  by_cases hbranch : i.opcode.isConditionalBranch = true
  · exact .inl ⟨mode_of_isConditionalBranch hbranch hbyte, hbranch⟩
  · obtain ⟨hsupports, hmem⟩ := (mode?_cases hmode).resolve_left fun h => hbranch h.1
    have huses : i.operand.usesMemory = false := by
      cases huses : i.operand.usesMemory with
      | false => rfl
      | true => simp [worksOnRegisters, hbranch, huses] at hworks
    exact .inr ⟨Operand.mem_modes_of_registers huses mode hmem, hsupports⟩

theorem memory_step_of_encode (hworks : i.worksOnRegisters = true)
    (hholds : c.HoldsBytes c.pc bytes) : c.step.2.memory = c.memory ∧ c.step.2.sp = c.sp := by
  obtain ⟨mode, byte, -, hmode, hbyte, -⟩ := exists_of_encode h
  have ho := opcode_of_worksOnRegisters hworks
  rw [step_of_encode h hmode (fun heq => ho (by simp [heq])) hholds]
  refine Cpu.memory_apply_of_registers _ hbyte ?_ ho _ _
  rcases mode_of_worksOnRegisters h hworks hmode with ⟨rfl, -⟩ | ⟨hmem, -⟩
  · simp
  · revert hmem
    cases mode <;> simp

theorem sameRegisters_step_of_encode (hworks : i.worksOnRegisters = true)
    (hc : c.HoldsBytes c.pc bytes) (hd : d.HoldsBytes d.pc bytes) (hsame : c.SameRegisters d) :
    c.step.2.SameRegisters d.step.2 := by
  obtain ⟨mode, byte, rest, hmode, -, hrest, rfl⟩ := exists_of_encode h
  have ho := opcode_of_worksOnRegisters hworks
  have hbrk : i.opcode ≠ .brk := fun heq => ho (by simp [heq])
  rw [step_of_encode h hmode hbrk hc, step_of_encode h hmode hbrk hd]
  have hmoved : ∀ steps pc steps' pc', ({ c with steps, pc } : Cpu).SameRegisters
      { d with steps := steps', pc := pc' } :=
    fun _ _ _ _ => ⟨hsame.a, hsame.x, hsame.y, hsame.status⟩
  rcases mode_of_worksOnRegisters h hworks hmode with ⟨-, hbranch⟩ | ⟨hmem, hsupports⟩
  · exact ((Cpu.sameRegisters_apply_branch _ hbranch _ _ _).trans (hmoved _ _ _ _)).trans
      (Cpu.sameRegisters_apply_branch _ hbranch _ _ _).symm
  · have hpulls : ∀ o ∈ [pla, .plp, .rti, .tsx],
        o ∈ [jsr, .jmp, .pha, .pla, .php, .plp, .brk, .rts, .rti, .tsx, .txs] := by decide
    refine Cpu.sameRegisters_apply_of_mode (hmoved _ _ _ _) hmem hsupports
      (fun hpull => ho (hpulls _ hpull)) _ _ ?_
    rintro rfl
    -- The byte is the one behind the opcode in both.
    obtain ⟨value, rfl⟩ := List.length_eq_one_iff.1 (Nat.succ.inj (length_operandBytes hmode hrest))
    exact hc.2.1.trans hd.2.1.symm

end

/-- The effects of an instruction are what the processor does when it comes to its bytes, apart from
calls and returns from an interrupt, whose flags the table has not from the processor, and from
`BRK`, which does not run. -/
theorem step_hasEffects {p : Program} {i : Instruction} {offset : UInt16} {bytes : List UInt8}
    (h : p.encode i offset = .ok bytes) (ho : i.opcode ∉ [.jsr, .rti, .brk]) :
    i.HasEffects bytes := by
  obtain ⟨mode, -, -, hmode, -⟩ := exists_of_encode h
  have hbrk : i.opcode ≠ .brk := fun heq => ho (by simp [heq])
  have hjumps : ∀ o ∈ [Opcode.jsr, .brk], o ∈ [Opcode.jsr, .rti, .brk] := by decide
  constructor
  · intro c hc
    rw [step_of_encode h hmode hbrk hc]
  · intro c hc l hl
    exact value_step_of_encode h (fun hmem => ho (List.mem_cons_of_mem _ hmem)) hc hl
  · intro c d hc hd halike hreads
    exact agree_step_of_encode h (fun hmem => ho (hjumps _ hmem)) hc hd halike hreads
  · intro hworks c hc
    exact memory_step_of_encode h hworks hc
  · intro hworks c d hc hd hsame
    exact sameRegisters_step_of_encode h hworks hc hd hsame

theorem step_hasEffects_rotate :
    (∃ c : Cpu, c.pc = 0xffff ∧ c.HoldsBytes c.pc [0x76, 0x20]) ∧
      Instruction.HasEffects ⟨.ror, .indexed (.address 0x20) .x .zeroPage⟩ [0x76, 0x20] := by
  refine ⟨⟨{ pc := 0xffff, memory := ((Memory.zero addressCount).write 0xffff 0x76).write 0 0x20 },
    rfl, ?_⟩, step_hasEffects (show encode ⟨0, []⟩ _ 0 = .ok _ from rfl) (by decide)⟩
  refine ⟨?_, ?_, trivial⟩
  · show Memory.read (Memory.write _ _ _) _ = _
    rw [Memory.read_write, if_neg (by decide), Memory.read_write, if_pos rfl]
  · show Memory.read (Memory.write _ _ _) _ = _
    rw [Memory.read_write, if_pos (by decide)]

end Program

end Lift6502
