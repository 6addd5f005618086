import Lift6502.Proofs.Run.Effective

/-!
# Decoding

The processor finds in the bytes of an instruction what the assembler put there, also for a branch
across the end of memory.
-/

namespace Lift6502

theorem toNat_signExtend (byte : UInt8) :
    (signExtend byte).toNat = if byte.toNat < 0x80 then byte.toNat else byte.toNat + 0xff00 := by
  have hbyte : byte.toNat < 2 ^ 8 := byte.toNat_lt
  unfold signExtend
  by_cases h : byte.toNat < 0x80
  · rw [if_pos (UInt8.lt_iff_toNat_lt.2 h), if_pos h, UInt8.toNat_toUInt16]
  · rw [if_neg (fun hlt => h (UInt8.lt_iff_toNat_lt.1 hlt)), if_neg h, UInt16.toNat_or,
      UInt8.toNat_toUInt16]
    show byte.toNat ||| 0xff <<< 8 = _
    rw [Nat.or_comm, ← Nat.shiftLeft_add_eq_or_of_lt hbyte]
    omega

/-- The address some bytes behind the branch or before it. -/
def Program.Reaches (p : Program) (offset destination : UInt16) (distance : Int) : Prop :=
  ((p.addressOf offset).toNat + 2 + distance) % 0x10000 = destination.toNat

namespace Program

variable {p : Program} {offset destination : UInt16}

theorem toNat_distance (p : Program) (offset destination : UInt16) :
    ((destination - (p.addressOf offset + 2)).toNat : Int) =
      (destination.toNat - ((p.addressOf offset).toNat + 2)) % 0x10000 := by
  have hdestination : destination.toNat < 2 ^ 16 := destination.toNat_lt
  have htwo : (2 : UInt16).toNat = 2 := rfl
  rw [UInt16.toNat_sub, UInt16.toNat_add, htwo]
  omega

theorem add_signExtend_of_displacement? {byte : UInt8}
    (h : p.displacement? offset destination = some byte) :
    p.addressOf offset + 2 + signExtend byte = destination := by
  have hdistance := p.toNat_distance offset destination
  have hdestination : destination.toNat < 2 ^ 16 := destination.toNat_lt
  have haddress : (p.addressOf offset).toNat < 2 ^ 16 := (p.addressOf offset).toNat_lt
  have htwo : (2 : UInt16).toNat = 2 := rfl
  unfold displacement? at h
  simp only at h
  generalize hd : destination - (p.addressOf offset + 2) = distance at h hdistance
  split at h
  · next hfits =>
    cases h
    have hfits : distance.toNat ≤ 0x7f ∨ 0xff80 ≤ distance.toNat := by
      simpa [UInt16.le_iff_toNat_le] using hfits
    apply UInt16.toNat_inj.1
    rw [UInt16.toNat_add, UInt16.toNat_add, toNat_signExtend, UInt16.toNat_toUInt8, htwo]
    split <;> omega
  · cases h

theorem displacement?_eq_none_iff : p.displacement? offset destination = none ↔
    ¬ ∃ distance : Int, -128 ≤ distance ∧ distance ≤ 127 ∧
      p.Reaches offset destination distance := by
  have hdistance := p.toNat_distance offset destination
  have hdestination : destination.toNat < 2 ^ 16 := destination.toNat_lt
  unfold displacement? Reaches
  simp only
  generalize hd : destination - (p.addressOf offset + 2) = distance at hdistance ⊢
  have hlt : distance.toNat < 2 ^ 16 := distance.toNat_lt
  by_cases hfits : distance.toNat ≤ 0x7f ∨ 0xff80 ≤ distance.toNat
  · rw [if_pos (by simpa [UInt16.le_iff_toNat_le] using hfits)]
    refine iff_of_false (Option.some_ne_none _) fun h => h ?_
    -- Distances of 128 and more stand for negative ones.
    rcases hfits with hahead | hback
    · exact ⟨distance.toNat, by omega, by omega, by omega⟩
    · exact ⟨distance.toNat - 0x10000, by omega, by omega, by omega⟩
  · rw [if_neg (by simpa [UInt16.le_iff_toNat_le] using hfits)]
    refine iff_of_true rfl ?_
    rintro ⟨d, hlow, hhigh, hreaches⟩
    exact hfits (by omega)

end Program

/-! ## Addresses of operands -/

def Cpu.pageZeroWord (c : Cpu) (place : Nat) : Nat :=
  (c.read (.ofNat (place % 0x100))).toNat + 0x100 * (c.read (.ofNat ((place + 1) % 0x100))).toNat

/-- The address that an operand denotes in a mode, if its expression stands for the given one. -/
def AddressingMode.denoted (c : Cpu) (address : Nat) : AddressingMode → Nat
  | .absolute | .relative => address
  | .absoluteX => (address + c.x.toNat) % 0x10000
  | .absoluteY => (address + c.y.toNat) % 0x10000
  | .zeroPage => address % 0x100
  | .zeroPageX => (address + c.x.toNat) % 0x100
  | .zeroPageY => (address + c.y.toNat) % 0x100
  | .indexedIndirect => c.pageZeroWord (address + c.x.toNat)
  | .indirectIndexed => (c.pageZeroWord address + c.y.toNat) % 0x10000
  | .indirect => (c.read (.ofNat address)).toNat +
      0x100 * (c.read (.ofNat (address / 0x100 * 0x100 + (address + 1) % 0x100))).toNat
  | .implied | .accumulator | .immediate => 0

namespace Cpu

theorem toNat_pointerAt (c : Cpu) (place : UInt8) :
    (c.pointerAt place).toNat = c.pageZeroWord place.toNat := by
  have hplace : place.toNat < 2 ^ 8 := place.toNat_lt
  have hfirst : place.toUInt16 = .ofNat (place.toNat % 0x100) := by
    apply UInt16.toNat_inj.1
    rw [UInt8.toNat_toUInt16, UInt16.toNat_ofNat']
    omega
  have hsecond : (place + 1).toUInt16 = .ofNat ((place.toNat + 1) % 0x100) := by
    apply UInt16.toNat_inj.1
    rw [UInt8.toNat_toUInt16, UInt16.toNat_ofNat', UInt8.toNat_add]
    show (place.toNat + 1) % 2 ^ 8 = _
    omega
  rw [pointerAt, toNat_wordOf, hfirst, hsecond, pageZeroWord]
  omega

theorem pageZeroWord_congr (c : Cpu) {m n : Nat} (h : m % 0x100 = n % 0x100) :
    c.pageZeroWord m = c.pageZeroWord n := by
  have hsecond : (m + 1) % 0x100 = (n + 1) % 0x100 := by omega
  rw [pageZeroWord, pageZeroWord, h, hsecond]

theorem and_page {n : Nat} (h : n < 0x10000) : n &&& 0xff00 = (n / 0x100) <<< 8 := by
  apply Nat.eq_of_testBit_eq
  intro k
  have hmask : (0xff00 : Nat) = (2 ^ 8 - 1) <<< 8 := by decide
  have hpage : (0x100 : Nat) = 2 ^ 8 := by decide
  rw [hmask, hpage, Nat.testBit_and, Nat.testBit_shiftLeft, Nat.testBit_two_pow_sub_one,
    Nat.testBit_shiftLeft, Nat.testBit_div_two_pow]
  by_cases hlow : 8 ≤ k
  · rw [Nat.sub_add_cancel hlow]
    by_cases hhigh : k < 16
    · have hin : k - 8 < 8 := by omega
      simp [hlow, hin]
    · have hpow : 2 ^ 16 ≤ 2 ^ k := Nat.pow_le_pow_right (by decide) (by omega)
      simp [Nat.testBit_lt_two_pow (Nat.lt_of_lt_of_le h hpow)]
  · simp [hlow]

theorem samePage_eq (address : UInt16) : (address &&& 0xff00) ||| ((address + 1) &&& 0x00ff) =
    .ofNat (address.toNat / 0x100 * 0x100 + (address.toNat + 1) % 0x100) := by
  have haddress : address.toNat < 2 ^ 16 := address.toNat_lt
  apply UInt16.toNat_inj.1
  rw [UInt16.toNat_or, UInt16.toNat_and, UInt16.toNat_and, UInt16.toNat_add, UInt16.toNat_ofNat']
  show (address.toNat &&& 0xff00) ||| ((address.toNat + 1) % 2 ^ 16 &&& 2 ^ 8 - 1) = _
  rw [Nat.and_two_pow_sub_one_eq_mod, and_page haddress,
    ← Nat.shiftLeft_add_eq_or_of_lt (Nat.mod_lt _ (by decide)), Nat.shiftLeft_eq]
  omega

theorem toNat_operandAddress (c : Cpu) {mode : AddressingMode} (written : UInt16)
    (hmode : mode ≠ .relative) :
    (c.operandAddress mode written).toNat = mode.denoted c written.toNat := by
  have hx : c.x.toNat < 2 ^ 8 := c.x.toNat_lt
  have hy : c.y.toNat < 2 ^ 8 := c.y.toNat_lt
  cases mode with
  | relative => exact absurd rfl hmode
  | implied | accumulator | immediate | absolute => rfl
  | absoluteX | absoluteY =>
    unfold operandAddress AddressingMode.denoted
    simp only [UInt16.toNat_add, UInt8.toNat_toUInt16]
  | zeroPage =>
    unfold operandAddress AddressingMode.denoted
    simp only [UInt8.toNat_toUInt16, UInt16.toNat_toUInt8]
  | zeroPageX | zeroPageY =>
    unfold operandAddress AddressingMode.denoted
    simp only [UInt8.toNat_toUInt16, UInt8.toNat_add, UInt16.toNat_toUInt8]
    omega
  | indirect =>
    unfold operandAddress AddressingMode.denoted
    simp only [toNat_wordOf, samePage_eq, UInt16.ofNat_toNat]
    omega
  | indexedIndirect =>
    unfold operandAddress AddressingMode.denoted
    simp only [toNat_pointerAt, UInt8.toNat_add, UInt16.toNat_toUInt8]
    apply c.pageZeroWord_congr
    omega
  | indirectIndexed =>
    have hpointer : (c.pointerAt written.toUInt8).toNat = c.pageZeroWord written.toNat := by
      rw [toNat_pointerAt, UInt16.toNat_toUInt8]
      apply c.pageZeroWord_congr
      omega
    unfold operandAddress AddressingMode.denoted
    simp only [UInt16.toNat_add, UInt8.toNat_toUInt16, hpointer]

end Cpu

/-! ## Encoded instructions -/

namespace Program

variable {p : Program} {i : Instruction} {mode : AddressingMode} {offset : UInt16}
  {bytes : List UInt8}

/-- What the processor makes of the bytes of an instruction. There are as many as the size of the
instruction; the first gives opcode and mode; where they lie in memory, the operand leads to what
its expression stands for, and an immediate one is the byte behind the opcode. -/
structure Decodes (p : Program) (i : Instruction) (offset : UInt16) (bytes : List UInt8) :
    Prop where
  size : i.size? = some bytes.length
  opcode : ∃ mode, i.mode? = some mode ∧ bytes.head?.bind Opcode.decode? = some (i.opcode, mode)
  address : ∀ c : Cpu, c.HoldsBytes (p.addressOf offset) bytes → ∀ mode, i.mode? = some mode →
    ∀ target, i.operand.target? = some target → ∃ address, p.resolve? target = some address ∧
      (c.effectiveAddress mode (p.addressOf offset + 1)
        (p.addressOf offset + UInt16.ofNat mode.size)).toNat = mode.denoted c address.toNat
  immediate : ∀ c : Cpu, c.HoldsBytes (p.addressOf offset) bytes → ∀ mode, i.mode? = some mode →
    ∀ value, i.operand = .immediate value → p.immediateByte? value = some (c.read
      (c.effectiveAddress mode (p.addressOf offset + 1)
        (p.addressOf offset + UInt16.ofNat mode.size)))

theorem effectiveAddress_of_operandBytes {target : Target} (hmode : i.mode? = some mode)
    (htarget : i.operand.target? = some target) (hbytes : p.operandBytes i mode offset = .ok bytes)
    {c : Cpu} (hholds : c.HoldsBytes (p.addressOf offset + 1) bytes) : ∃ address,
      p.resolve? target = some address ∧ (c.effectiveAddress mode (p.addressOf offset + 1)
        (p.addressOf offset + UInt16.ofNat mode.size)).toNat = mode.denoted c address.toNat := by
  obtain ⟨address, hresolve, hbranch, hother⟩ := exists_of_operandBytes htarget hbytes
  refine ⟨address, hresolve, ?_⟩
  by_cases hrelative : mode = .relative
  · obtain ⟨byte, hdistance, rfl⟩ := hbranch hrelative
    subst hrelative
    have hread : c.read (p.addressOf offset + 1) = byte := hholds.1
    show (p.addressOf offset + 2 + signExtend (c.read (p.addressOf offset + 1))).toNat =
        address.toNat
    rw [hread, add_signExtend_of_displacement? hdistance]
  · have huses : i.operand.usesMemory = true := by rw [Operand.usesMemory, htarget]; rfl
    have hne := Instruction.mode_of_usesMemory huses hmode
    rw [hother hrelative] at hholds
    rw [c.effectiveAddress_eq _ ⟨fun h => hne (by simp [h]), hrelative⟩ hholds,
      c.toNat_operandAddress _ hrelative]

theorem read_immediate {value : Immediate} (hmode : i.mode? = some mode)
    (hoperand : i.operand = .immediate value) (hbytes : p.operandBytes i mode offset = .ok bytes)
    {c : Cpu} {place : UInt16} (hholds : c.HoldsBytes place bytes) (next : UInt16) :
    p.immediateByte? value = some (c.read (c.effectiveAddress mode place next)) := by
  have himmediate : mode = .immediate := by
    rw [Instruction.mode?, hoperand] at hmode
    exact List.mem_singleton.1 (mem_of_firstMode hmode)
  subst himmediate
  cases hbyte : p.immediateByte? value with
  | none =>
    unfold operandBytes at hbytes
    rw [hoperand] at hbytes
    simp only [hbyte] at hbytes
    cases hbytes
  | some byte =>
    rw [operandBytes_immediate hoperand hbyte] at hbytes
    cases hbytes
    exact congrArg some hholds.1.symm

theorem decodes_of_encode (h : p.encode i offset = .ok bytes) : p.Decodes i offset bytes := by
  obtain ⟨mode, byte, rest, hmode, hbyte, hrest, rfl⟩ := exists_of_encode h
  have hunique : ∀ mode', i.mode? = some mode' → mode = mode' :=
    fun _ h => Option.some.inj (hmode.symm.trans h)
  refine ⟨size?_of_encode h, ⟨mode, hmode, Opcode.decode?_of_encode? hbyte⟩, ?_, ?_⟩
  · intro c hholds mode' hmode' target htarget
    obtain rfl := hunique mode' hmode'
    exact effectiveAddress_of_operandBytes hmode htarget hrest hholds.2
  · intro c hholds mode' hmode' value hoperand
    obtain rfl := hunique mode' hmode'
    exact read_immediate hmode hoperand hrest hholds.2 _

/-- The processor decodes what was encoded, and a branch is refused for its distance exactly if none
that fits in a signed byte leads to where it goes, modulo the size of memory. -/
theorem encode_decodes (p : Program) (i : Instruction) (offset : UInt16) :
    (∀ bytes, p.encode i offset = .ok bytes → p.Decodes i offset bytes) ∧
      ∀ target address, i.opcode.isConditionalBranch = true → i.jumpTarget? = some target →
        p.resolve? target = some address →
          (p.encode i offset = .error (.branchOutOfRange i) ↔
            ¬ ∃ distance : Int, -128 ≤ distance ∧ distance ≤ 127 ∧
              p.Reaches offset address distance) :=
  ⟨fun _ h => decodes_of_encode h, fun _ _ hbranch htarget hresolve =>
    (encode_branch hbranch htarget hresolve).trans displacement?_eq_none_iff⟩

/-- A branch at the end of memory goes on at its start, but not further than any other. -/
theorem encode_decodes_acrossEnd :
    Decodes ⟨0xfffe, []⟩ ⟨.bne, .direct (.address 0x10) .absolute⟩ 0 [0xd0, 0x10] ∧
      ¬ ∃ distance : Int, -128 ≤ distance ∧ distance ≤ 127 ∧ Reaches ⟨0xfffe, []⟩ 0 0x80 distance :=
  ⟨(encode_decodes ⟨0xfffe, []⟩ ⟨.bne, .direct (.address 0x10) .absolute⟩ 0).1 _ rfl,
    ((encode_decodes ⟨0xfffe, []⟩ ⟨.bne, .direct (.address 0x80) .absolute⟩ 0).2
      (.address 0x80) 0x80 rfl rfl rfl).1 rfl⟩

end Program

end Lift6502
