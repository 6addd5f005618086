import Lift6502.Proofs.Asm.Encoding
import Lift6502.Proofs.Run.Core

/-!
# Instructions in memory

Where the bytes of an instruction lie, `Cpu.execute` does what `Core.step` says.
-/

namespace Lift6502

theorem toNat_wordOf (low high : UInt8) :
    (wordOf low high).toNat = high.toNat * 256 + low.toNat := by
  have hlow : low.toNat < 2 ^ 8 := low.toNat_lt
  have hhigh : high.toNat < 2 ^ 8 := high.toNat_lt
  unfold wordOf
  rw [UInt16.toNat_or, UInt16.toNat_shiftLeft, UInt8.toNat_toUInt16, UInt8.toNat_toUInt16]
  show (high.toNat <<< 8) % 2 ^ 16 ||| low.toNat = _
  rw [Nat.mod_eq_of_lt (by rw [Nat.shiftLeft_eq]; omega), ← Nat.shiftLeft_add_eq_or_of_lt hlow,
    Nat.shiftLeft_eq]

theorem toUInt8_wordOf (low high : UInt8) : (wordOf low high).toUInt8 = low := by
  have hlow : low.toNat < 2 ^ 8 := low.toNat_lt
  apply UInt8.toNat_inj.1
  rw [UInt16.toNat_toUInt8, toNat_wordOf]
  omega

theorem wordOf_littleEndian (word : UInt16) : wordOf word.toUInt8 (word >>> 8).toUInt8 = word := by
  have hword : word.toNat < 2 ^ 16 := word.toNat_lt
  apply UInt16.toNat_inj.1
  rw [toNat_wordOf, UInt16.toNat_toUInt8, UInt16.toNat_toUInt8, UInt16.toNat_shiftRight]
  show (word.toNat >>> 8) % 256 * 256 + word.toNat % 256 = word.toNat
  rw [Nat.shiftRight_eq_div_pow]
  omega

variable {mode : AddressingMode} {place : UInt16}

namespace Cpu

def HoldsBytes (c : Cpu) : UInt16 → List UInt8 → Prop
  | _, [] => True
  | address, byte :: rest => c.read address = byte ∧ c.HoldsBytes (address + 1) rest

theorem effectiveAddress_eq (c : Cpu) {written operand : UInt16}
    (next : UInt16) (hmode : mode ≠ .immediate ∧ mode ≠ .relative)
    (h : c.HoldsBytes operand ((littleEndian written).take (mode.size - 1))) :
    c.effectiveAddress mode operand next = c.operandAddress mode written := by
  cases mode with
  | immediate => exact absurd rfl hmode.1
  | relative => exact absurd rfl hmode.2
  | implied | accumulator => rfl
  | zeroPage | zeroPageX | zeroPageY | indexedIndirect | indirectIndexed =>
    -- Only the low byte counts, and the one behind it may be anything.
    have hlow : (c.word operand).toUInt8 = written.toUInt8 := by
      rw [word, toUInt8_wordOf]
      exact h.1
    unfold effectiveAddress operandAddress
    simp only [hlow]
  | absolute | absoluteX | absoluteY | indirect =>
    have hword : c.word operand = written := by
      rw [word, h.1, h.2.1, wordOf_littleEndian]
    unfold effectiveAddress
    rw [hword]

theorem apply_immediate (c : Cpu) {o : Opcode} (h : o.supports .immediate = true)
    (address address' : UInt16) (byte : UInt8) :
    c.apply o .immediate address byte = c.apply o .immediate address' byte := by
  cases o <;> first | rfl | exact absurd h (by decide)

theorem apply_register (c : Cpu) {o : Opcode} (hmode : mode = .implied ∨ mode = .accumulator)
    (h : o.supports mode = true) (address address' : UInt16) (byte byte' : UInt8) :
    c.apply o mode address byte = c.apply o mode address' byte' := by
  rcases hmode with rfl | rfl <;> cases o <;> first | rfl | exact absurd h (by decide)

theorem read_write_self (c : Cpu) (address : UInt16) (byte : UInt8) :
    (c.write address byte).read address = byte := by
  show (c.memory.write address byte).read address = byte
  rw [Memory.read_write, if_pos rfl]

theorem read_push (c : Cpu) (byte : UInt8) : (c.push byte).read (stackAddress c.sp) = byte :=
  c.read_write_self _ byte

theorem pull_write (c : Cpu) (byte : UInt8) : (c.write (stackAddress (c.sp + 1)) byte).pull =
    (byte, { c.write (stackAddress (c.sp + 1)) byte with sp := c.sp + 1 }) :=
  Prod.ext (c.read_write_self _ byte) rfl

theorem pc_modifyByte (c : Cpu) (mode : AddressingMode) (address : UInt16) (byte : UInt8)
    (change : UInt8 → Bool → UInt8 × Bool) : (c.modifyByte mode address byte change).pc = c.pc := by
  unfold modifyByte
  split <;> rfl

theorem with_pc {c d : Cpu} (h : d.pc = c.pc) : { d with pc := c.pc } = d := by
  rw [← h]

theorem pc_branchIf (c : Cpu) (taken : Bool) (target : UInt16) :
    { c.branchIf taken target with pc := c.pc } = c := by
  cases taken <;> rfl

end Cpu

namespace Program

variable {p : Program} {i : Instruction} {mode : AddressingMode} {offset : UInt16}
  {bytes : List UInt8}

theorem execute_eq_apply (hmode : i.mode? = some mode) (hbranch : mode ≠ .relative)
    (hencode : p.encode i offset = .ok bytes) {c : Cpu}
    (hholds : c.HoldsBytes place bytes) {w : Work} (hw : p.work? i c = some w) (next : UInt16) :
    c.execute i.opcode mode (c.effectiveAddress mode (place + 1) next) =
      c.apply i.opcode w.mode w.address w.byte := by
  obtain ⟨mode1, first, rest, hmode1, -, hrest, rfl⟩ := exists_of_encode hencode
  obtain rfl : mode = mode1 := Option.some.inj (hmode.symm.trans hmode1)
  have hrestHolds : c.HoldsBytes (place + 1) rest := hholds.2
  have hsupports := (Instruction.mode?_cases hmode).resolve_left fun h => hbranch h.2.2
  obtain ⟨mode', hmode', hw⟩ := Option.bind_eq_some_iff.1 hw
  obtain rfl : mode = mode' := Option.some.inj (hmode.symm.trans hmode')
  cases hoperand : i.operand with
  | implied =>
    rw [hoperand] at hw hsupports
    cases hw
    refine c.apply_register ?_ hsupports.1 _ _ _ _
    simpa [Operand.modes, or_comm] using hsupports.2
  | accumulator =>
    rw [hoperand] at hw hsupports
    cases hw
    refine c.apply_register (.inr ?_) hsupports.1 _ _ _ _
    simpa [Operand.modes] using hsupports.2
  | immediate value =>
    rw [hoperand] at hw hsupports
    obtain ⟨byte, hbyte, hw⟩ := Option.bind_eq_some_iff.1 hw
    cases hw
    obtain rfl : mode = .immediate := by simpa [Operand.modes] using hsupports.2
    rw [operandBytes_immediate hoperand hbyte] at hrest
    cases hrest
    have hread : c.read (place + 1) = byte := hrestHolds.1
    show c.apply i.opcode .immediate (place + 1) (c.read (place + 1)) = _
    rw [hread]
    exact c.apply_immediate hsupports.1 _ _ byte
  | direct | indexed | indirect | indexedIndirect | indirectIndexed =>
    rw [hoperand] at hw
    obtain ⟨written, hwritten, hw⟩ := Option.bind_eq_some_iff.1 hw
    cases hw
    have huses : i.operand.usesMemory = true := by rw [hoperand]; rfl
    have hne := Instruction.mode_of_usesMemory huses hmode
    rw [operandBytes_memory hbranch (by rw [hoperand]; exact hwritten)] at hrest
    cases hrest
    rw [c.effectiveAddress_eq next ⟨fun h => hne (by simp [h]), hbranch⟩ hrestHolds]
    rfl

end Program

namespace Core

/-- What `Cpu.execute` does, with the bytes of the stack on a list. A push adds the byte that goes
to memory, and a pull finds the top of the list in memory; the program counter and the stack pointer
stay. Calls and returns, and transfers of the stack pointer, are not run. -/
def execute (c : Core) (opcode : Opcode) (mode : AddressingMode) (address : UInt16) : Option Core :=
  match opcode with
  | .jsr | .rts | .rti | .brk | .tsx | .txs => none
  | .pha | .php =>
    let after := c.cpu.execute opcode mode address
    some { c with stack := after.read (Cpu.stackAddress c.cpu.sp) :: c.stack }
  | .pla | .plp =>
    match c.stack with
    | [] => none
    | byte :: rest =>
      let before := c.cpu.write (Cpu.stackAddress (c.cpu.sp + 1)) byte
      let after := before.execute opcode mode address
      some { cpu := { after with memory := c.cpu.memory, sp := c.cpu.sp }, stack := rest }
  | _ => some { c with cpu := { c.cpu.execute opcode mode address with pc := c.cpu.pc } }

theorem execute_of_step {p : Program} {i : Instruction} {offset : UInt16}
    {bytes : List UInt8} (hmode : i.mode? = some mode) (hencode : p.encode i offset = .ok bytes)
    {c c' : Core} (hholds : c.cpu.HoldsBytes place bytes)
    (hstep : c.step (p.work? i c.cpu) i.opcode = some c') (next : UInt16) :
    c.execute i.opcode mode (c.cpu.effectiveAddress mode (place + 1) next) = some c' := by
  have hwork : ∀ w, i.opcode.isConditionalBranch = false → p.work? i c.cpu = some w →
      c.cpu.execute i.opcode mode (c.cpu.effectiveAddress mode (place + 1) next) =
        c.cpu.apply i.opcode w.mode w.address w.byte := fun w hbranch hw =>
    p.execute_eq_apply hmode (Instruction.mode_ne_relative hbranch hmode) hencode hholds hw next
  generalize c.cpu.effectiveAddress mode (place + 1) next = address at hwork ⊢
  generalize i.opcode = opcode at hwork hstep ⊢
  -- What works on an operand leaves the program counter where it is.
  have hsame : ∀ w, opcode.isConditionalBranch = false → p.work? i c.cpu = some w →
      (c.cpu.apply opcode w.mode w.address w.byte).pc = c.cpu.pc →
      some { c with cpu := { c.cpu.execute opcode mode address with pc := c.cpu.pc } } =
        some { c with cpu := c.cpu.apply opcode w.mode w.address w.byte } := by
    intro w hbranch hw hpc
    rw [hwork w hbranch hw, Cpu.with_pc hpc]
  cases opcode
  case jsr | rts | rti | brk | tsx | txs => cases hstep
  case pha =>
    cases hstep
    exact congrArg (fun byte => some { c with stack := byte :: c.stack }) (c.cpu.read_push _)
  case php =>
    cases hstep
    exact congrArg (fun byte => some { c with stack := byte :: c.stack }) (c.cpu.read_push _)
  case pla | plp =>
    unfold step at hstep
    unfold execute
    cases hstack : c.stack with
    | nil =>
      rw [hstack] at hstep
      cases hstep
    | cons byte rest =>
      rw [hstack] at hstep
      cases hstep
      simp only [Cpu.execute, Cpu.apply, Cpu.pull_write]
      rfl
  case jmp =>
    cases hstep
    rfl
  case bcc | bcs | beq | bmi | bne | bpl | bvc | bvs =>
    cases hstep
    exact congrArg (fun cpu => some { c with cpu }) (Cpu.pc_branchIf c.cpu _ _)
  case clc | cld | cli | clv | dex | dey | inx | iny | nop | sec | sed | sei | tax | tay | txa | tya =>
    cases hstep
    rfl
  case dec | inc =>
    obtain ⟨w, hw, hstep⟩ := Option.bind_eq_some_iff.1 hstep
    split at hstep
    · cases hstep
    · cases hstep
      exact hsame w rfl hw (Cpu.pc_modifyByte ..)
  case asl | lsr | rol | ror =>
    obtain ⟨w, hw, rfl⟩ := Option.map_eq_some_iff.1 hstep
    exact hsame w rfl hw (Cpu.pc_modifyByte ..)
  all_goals
    obtain ⟨w, hw, rfl⟩ := Option.map_eq_some_iff.1 hstep
    exact hsame w rfl hw rfl

end Core

end Lift6502
