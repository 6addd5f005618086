import Lift6502.Proofs.Generate.Simulation
import Lift6502.Proofs.Listing.Widths

/-!
# Operands of one byte

The assembler writes the low byte of an address in page zero, and the generator takes the whole
address. In a program that was read they differ only for the place of a pointer.
-/

namespace Lift6502

open Expression Gen Generator

/-- In any variables and on any processor that the state before it shows, the code for the operand
computes the address that the processor forms from the bytes of the instruction. -/
def Program.FindsOperand (p : Program) (i : Instruction) (mode : AddressingMode) : Prop :=
  ∀ (c : Generator) (site : Site) (s : SymbolicState) (q q' : Progress) (e : Expression)
    (functions : List FunctionDef) (depth : Nat) (function : String) (env : Environment)
    (core : Core)
    (base : List UInt8) (offset place next : UInt16) (bytes : List UInt8),
    c.program = p → site.instruction = i → Yields (c.address site s) q e q' →
    s.Shows (StandsFor function ⟨env, core.cpu.memory⟩ q.temps) core base →
    p.encode i offset = .ok bytes → core.cpu.HoldsBytes place bytes →
    ∃ emitted env', q'.out.toList = q.out.toList ++ emitted ∧
      (∃ cost, ∀ limit steps, steps + cost ≤ limit →
        (Evaluator.execAll { functions, limit } (Evaluator.invoke { functions, limit } depth)
          function emitted).run.run ⟨env, core.cpu.memory, steps⟩ =
            (.ok .normal, ⟨env', core.cpu.memory, steps + cost⟩)) ∧
      e.eval function env' core.cpu.memory =
        .ok (core.cpu.effectiveAddress mode (place + 1) next).toUInt32

section

variable {c : Generator} {site : Site} {s : SymbolicState} {q q' : Progress} {e : Expression}
  {env : Environment} {core : Core} {base : List UInt8} {mode : AddressingMode} {written : UInt16}

theorem address_computes (hy : Yields (c.address site s) q e q')
    (hmode : site.instruction.mode? = some mode)
    (hwritten : site.instruction.operand.target?.bind c.program.resolve? = some written)
    (functions : List FunctionDef) (depth : Nat) (function : String)
    (hs : s.Shows (StandsFor function ⟨env, core.cpu.memory⟩ q.temps) core base) :
    ∃ env', q.out.toList <+: q'.out.toList ∧
      (∃ cost, ∀ limit steps, steps + cost ≤ limit →
        (Evaluator.execAll { functions, limit } (Evaluator.invoke { functions, limit } depth)
          function (q.emitted q')).run.run ⟨env, core.cpu.memory, steps⟩ =
            (.ok .normal, ⟨env', core.cpu.memory, steps + cost⟩)) ∧
      e.eval function env' core.cpu.memory = .ok (core.cpu.codeAddress mode written).toUInt32 := by
  let H : Host := ⟨0, Evaluator.callUntimed functions 0 depth, function⟩
  let σ : Scene := ⟨env, core.cpu.memory⟩
  have hd : s.Describes (σ.env.known q.untouched) core base :=
    (SymbolicState.shows_iff_describes fun _ _ => standsFor_iff).1 hs
  obtain ⟨⟨env', memory'⟩, hmove, w, hw, -, -, -, hmemory, hvalue⟩ :=
    performs_address (H := H) ⟨hd, rfl⟩ e q' hy
  obtain rfl : memory' = core.cpu.memory := hmemory
  rw [Program.codeWork?_of_memory hwritten hmode] at hw
  cases hw
  exact ⟨env', hmove.more.out, exists_cost_execAll hmove.run, hvalue.eval_known function⟩

end

variable {p : Program} {i : Instruction} {mode : AddressingMode} {t : Target} {address : UInt16}

theorem Cpu.codeAddress_eq_operandAddress (c : Cpu) (h : address ≤ 0xff ∨ mode = .indexedIndirect) :
    c.codeAddress mode address = c.operandAddress mode address := by
  rcases h with hpage | rfl
  · exact c.codeAddress_eq fun _ => hpage
  · rfl

theorem findsOperand_of_page (hmode : i.mode? = some mode) (htakes : mode.takesByteAddress = true)
    (haddress : i.operand.target?.bind p.resolve? = some address)
    (h : address ≤ 0xff ∨ mode = .indexedIndirect) : p.FindsOperand i mode := by
  rintro c site s q q' e functions depth function env core base offset place next bytes rfl
    rfl hy hs hencode hholds
  obtain ⟨env', hout, hrun, hvalue⟩ :=
    address_computes hy hmode haddress functions depth function hs
  refine ⟨q.emitted q', env', Progress.out_eq_append_emitted hout, hrun, ?_⟩
  have hrelative : mode ≠ .immediate ∧ mode ≠ .relative := by
    constructor <;> rintro rfl <;> cases htakes
  obtain ⟨mode', byte, rest, hmode', -, hrest, rfl⟩ := Program.exists_of_encode hencode
  obtain rfl : mode = mode' := Option.some.inj (hmode.symm.trans hmode')
  rw [Program.operandBytes_memory hrelative.2 haddress] at hrest
  cases hrest
  rw [core.cpu.effectiveAddress_eq next hrelative hholds.2, hvalue,
    core.cpu.codeAddress_eq_operandAddress h]

/-! ## A pointer outside page zero -/

def zeroIndex : SymbolicState := (SymbolicState.entry ∅).set .y (.literal 0)

def placeApart (address : UInt16) : UInt16 := if address < 0x8000 then 0x8000 else 0x4000

theorem placeApart_spec (address : UInt16) :
    (255 < (placeApart address).toNat ∧ address ≠ placeApart address) ∧
      255 < (placeApart address + 1).toNat ∧ address ≠ placeApart address + 1 := by
  unfold placeApart
  split
  · next hlow =>
    refine ⟨⟨by decide, ?_⟩, by decide, ?_⟩ <;> rintro rfl <;> exact absurd hlow (by decide)
  · next hhigh =>
    refine ⟨⟨by decide, ?_⟩, by decide, ?_⟩ <;> rintro rfl <;> exact hhigh (by decide)

def pointerCore (address : UInt16) (opcode : UInt8) : Core :=
  ⟨{ memory := (((Memory.zero addressCount).write address 1).write (placeApart address)
      opcode).write (placeApart address + 1) address.toUInt8 }, []⟩

section

variable {opcode : UInt8}

theorem read_pointerCore (address other : UInt16) (opcode : UInt8) :
    (pointerCore address opcode).cpu.read other =
      if other = placeApart address + 1 then address.toUInt8 else
        if other = placeApart address then opcode else if other = address then 1 else 0 := by
  have hzero : (Memory.zero addressCount).read other = 0 := by
    simp [Memory.read, Memory.zero]
  show Memory.read _ other = _
  rw [pointerCore, Memory.read_write, Memory.read_write, Memory.read_write, hzero]

theorem read_pointerCore_page (h : 255 < address.toNat) {other : UInt16}
    (hother : other.toNat ≤ 255) : (pointerCore address opcode).cpu.read other = 0 := by
  obtain ⟨⟨hplace, -⟩, hnext, -⟩ := placeApart_spec address
  rw [read_pointerCore, if_neg, if_neg, if_neg]
  all_goals
    rintro rfl
    omega

theorem holdsBytes_pointerCore (address : UInt16) (opcode : UInt8) :
    (pointerCore address opcode).cpu.HoldsBytes (placeApart address) [opcode, address.toUInt8] := by
  have hne : placeApart address ≠ placeApart address + 1 := by
    unfold placeApart
    split <;> decide
  exact ⟨by rw [read_pointerCore, if_neg hne, if_pos rfl], by rw [read_pointerCore, if_pos rfl],
    trivial⟩

theorem codeAddress_pointerCore (h : 255 < address.toNat) :
    (pointerCore address opcode).cpu.codeAddress .indirectIndexed address = 1 := by
  obtain ⟨⟨-, hplace⟩, -, hnext⟩ := placeApart_spec address
  have hhigh : ((address + 1) &&& 0xff).toNat ≤ 255 := by
    rw [UInt16.toNat_and]
    exact Nat.and_le_right
  show wordOf (Cpu.read _ address) (Cpu.read _ ((address + 1) &&& 0xff)) + 0 = 1
  rw [read_pointerCore_page h hhigh, read_pointerCore, if_neg hnext, if_neg hplace, if_pos rfl]
  rfl

theorem operandAddress_pointerCore (h : 255 < address.toNat) :
    (pointerCore address opcode).cpu.operandAddress .indirectIndexed address = 0 := by
  have hbyte : ∀ byte : UInt8, byte.toUInt16.toNat ≤ 255 := by
    intro byte
    rw [UInt8.toNat_toUInt16]
    exact Nat.le_of_lt_succ byte.toNat_lt
  show wordOf (Cpu.read _ address.toUInt8.toUInt16)
      (Cpu.read _ (address.toUInt8 + 1).toUInt16) + 0 = 0
  rw [read_pointerCore_page h (hbyte _), read_pointerCore_page h (hbyte _)]
  rfl

end

theorem zeroIndex_shows (function : String) (memory : Memory addressCount) :
    zeroIndex.Shows (StandsFor function ⟨{}, memory⟩ 0) ⟨{ memory }, []⟩ [] := by
  refine (SymbolicState.shows_iff_describes fun _ _ => standsFor_iff (p := {})).2 ⟨?_, rfl⟩
  intro l
  rcases l with r | f
  · cases r with
    | y => exact Binding.holds_literal fun h => by cases h
    | a | x => exact Binding.holds_unresolved "not set on entry"
  · cases f <;> exact Binding.holds_unresolved "not set on entry"

theorem yields_pointer (hmode : i.mode? = some .indirectIndexed)
    (haddress : i.operand.target?.bind p.resolve? = some address) :
    ∃ e q', Yields ({ (default : Generator) with program := p }.address ⟨"", default, 0, i⟩
      zeroIndex) {} e q' := by
  unfold Generator.address
  simp only [haddress, hmode]
  exact ⟨_, _, rfl⟩

/-- The code for a pointer takes its low byte from outside page zero, and the processor does not. -/
theorem not_findsOperand (hmode : i.mode? = some .indirectIndexed)
    (haddress : i.operand.target?.bind p.resolve? = some address) (h : 0xff < address)
    {opcode : UInt8}
    {offset : UInt16} (hencode : p.encode i offset = .ok [opcode, address.toUInt8]) :
    ¬ p.FindsOperand i .indirectIndexed := by
  intro hfinds
  let core := pointerCore address opcode
  have hholds := holdsBytes_pointerCore address opcode
  obtain ⟨e, q', hy⟩ := yields_pointer hmode haddress
  have hshows : zeroIndex.Shows (StandsFor "" ⟨{}, core.cpu.memory⟩ 0) core [] :=
    zeroIndex_shows "" core.cpu.memory
  obtain ⟨env1, -, ⟨cost1, hrun1⟩, hvalue1⟩ :=
    address_computes hy hmode haddress [] 0 "" hshows
  obtain ⟨emitted, env2, hout, ⟨cost2, hrun2⟩, hvalue2⟩ :=
    hfinds _ _ _ _ _ _ [] 0 "" _ core _ _ _ 0 _ rfl rfl hy hshows hencode hholds
  obtain rfl : Progress.emitted {} q' = emitted := Progress.emitted_eq hout
  -- One run of the code gives one address.
  have henv : env1 = env2 := by
    have hsame :=
      (hrun1 (cost1 + cost2) 0 (by omega)).symm.trans (hrun2 (cost1 + cost2) 0 (by omega))
    exact congrArg (fun result => result.2.env) hsame
  rw [henv, hvalue2] at hvalue1
  have hequal : core.cpu.codeAddress .indirectIndexed address =
      core.cpu.operandAddress .indirectIndexed address := by
    have hbyte : core.cpu.HoldsBytes (placeApart address + 1)
        ((littleEndian address).take (AddressingMode.indirectIndexed.size - 1)) := hholds.2
    rw [← core.cpu.effectiveAddress_eq 0 ⟨by decide, by decide⟩ hbyte]
    exact (UInt16.toUInt32_inj.1 (Except.ok.inj hvalue1)).symm
  rw [codeAddress_pointerCore h, operandAddress_pointerCore h] at hequal
  exact absurd hequal (by decide)

theorem encode_byteAddress (hmode : i.mode? = some mode) (htakes : mode.takesByteAddress = true)
    (haddress : i.operand.target?.bind p.resolve? = some address) (offset : UInt16) :
    ∃ opcode, i.opcode.encode? mode = some opcode ∧
      p.encode i offset = .ok [opcode, address.toUInt8] := by
  have hrelative : mode ≠ .relative := by
    rintro rfl
    cases htakes
  have hsupports : i.opcode.supports mode = true :=
    (Instruction.mode?_cases hmode).resolve_left (fun h => hrelative h.2.2) |>.1
  obtain ⟨opcode, hopcode⟩ := Option.isSome_iff_exists.1 hsupports
  have hbytes : (littleEndian address).take (mode.size - 1) = [address.toUInt8] := by
    cases mode <;> first | rfl | cases htakes
  refine ⟨opcode, hopcode, ?_⟩
  unfold Program.encode
  simp only [hmode, hopcode, Program.operandBytes_memory hrelative haddress, hbytes]
  rfl

/-- An operand of one byte in a listing is the low byte of its address. The address lies in page
zero, unless it is the place of a pointer; and the code generator finds what the processor does,
unless the place of an `indirectIndexed` pointer lies outside page zero. -/
theorem byteAddress_of_read {source : String} (hread : Listing.read source = .ok p) {line : Line}
    (hline : line ∈ p.lines) (hcode : line.kind = .code i) (hmode : i.mode? = some mode)
    (htakes : mode.takesByteAddress = true) (htarget : i.operand.target? = some t)
    (haddress : p.resolve? t = some address) :
    (∃ opcode, i.opcode.encode? mode = some opcode ∧
      p.encode i line.offset = .ok [opcode, address.toUInt8]) ∧
      (address ≤ 0xff ∨ mode = .indexedIndirect ∨ mode = .indirectIndexed) ∧
      (p.FindsOperand i mode ↔ (mode = .indirectIndexed → address ≤ 0xff)) := by
  have hresolve : i.operand.target?.bind p.resolve? = some address := by
    rw [htarget]
    exact haddress
  obtain ⟨opcode, hopcode, hencode⟩ := encode_byteAddress hmode htakes hresolve line.offset
  have hpage : mode ∈ [AddressingMode.zeroPage, .zeroPageX, .zeroPageY] → address ≤ 0xff := by
    intro hmem
    obtain ⟨address', hle, hsame⟩ :=
      Listing.resolve?_narrow hread hline hcode (Instruction.narrow?_of_mode hmode hmem htarget)
    cases haddress.symm.trans hsame
    exact hle
  have hcases : address ≤ 0xff ∨ mode = .indexedIndirect ∨ mode = .indirectIndexed := by
    cases mode with
    | zeroPage | zeroPageX | zeroPageY => exact .inl (hpage (by decide))
    | indexedIndirect => exact .inr (.inl rfl)
    | indirectIndexed => exact .inr (.inr rfl)
    | implied | accumulator | immediate | absolute | absoluteX | absoluteY | indirect | relative =>
      cases htakes
  refine ⟨⟨opcode, hopcode, hencode⟩, hcases, ?_, fun h => ?_⟩
  · rintro hfinds rfl
    apply UInt16.not_lt.1
    intro hfar
    exact not_findsOperand hmode hresolve hfar hencode hfinds
  · rcases hcases with hle | hindexed | hpointer
    · exact findsOperand_of_page hmode htakes hresolve (.inl hle)
    · exact findsOperand_of_page hmode htakes hresolve (.inr hindexed)
    · exact findsOperand_of_page hmode htakes hresolve (.inl (h hpointer))

/-- A pointer that is named by a constant below it, and lies outside page zero before the
index is added. -/
def indexedPointerText : String := " .org $8000\nStart: LDA (Far,X)\n RTS\nFar = $0110"

def indexedPointer : Program where
  origin := 0x8000
  lines := [
    ⟨some "Start", 0, .code ⟨.lda, .indexedIndirect (.symbol "Far")⟩⟩,
    ⟨none, 2, .code ⟨.rts, .implied⟩⟩,
    ⟨none, 3, .constant "Far" 0x110⟩]

theorem byteAddress_of_indexedPointer : Listing.read indexedPointerText = .ok indexedPointer ∧
    indexedPointer.resolve? (.symbol "Far") = some 0x110 ∧
    indexedPointer.encode ⟨.lda, .indexedIndirect (.symbol "Far")⟩ 0 = .ok [0xa1, 0x10] ∧
    indexedPointer.FindsOperand ⟨.lda, .indexedIndirect (.symbol "Far")⟩ .indexedIndirect := by
  have hread : Listing.read indexedPointerText = .ok indexedPointer := by decide +kernel
  have hresolve : indexedPointer.resolve? (.symbol "Far") = some 0x110 := by decide +kernel
  have hmode : Instruction.mode? ⟨.lda, .indexedIndirect (.symbol "Far")⟩ =
      some .indexedIndirect := by
    decide
  obtain ⟨-, -, hfinds⟩ := byteAddress_of_read hread List.mem_cons_self rfl hmode rfl rfl hresolve
  exact ⟨hread, hresolve, by rfl, hfinds.2 fun h => by cases h⟩

/-- A pointer outside page zero, which is read and assembled. -/
def farPointerText : String :=
  "  .org $8000\nStart:\n  LDY #$00\n  LDA ($0110),Y\n  STA $20\n  RTS\n"

def farPointer : Program :=
  Draft.start 0x8000
    |>.label "Start" |>.line .empty |>.immediate .ldy 0
      |>.op .lda (.indirectIndexed (.address 0x110)) |>.zeroPage .sta 0x20 |>.implied .rts
    |>.program

theorem farPointer_differs : Listing.read farPointerText = .ok farPointer ∧
    farPointer.resolve? (.address 0x110) = some 0x110 ∧
    farPointer.encode ⟨.lda, .indirectIndexed (.address 0x110)⟩ 2 = .ok [0xb1, 0x10] ∧
    ¬ farPointer.FindsOperand ⟨.lda, .indirectIndexed (.address 0x110)⟩ .indirectIndexed := by
  have hresolve : farPointer.resolve? (.address 0x110) = some 0x110 := by decide +kernel
  have hencode : farPointer.encode ⟨.lda, .indirectIndexed (.address 0x110)⟩ 2 =
      .ok [0xb1, 0x10] := by rfl
  exact ⟨by decide +kernel, hresolve, hencode,
    not_findsOperand (by decide) hresolve (by decide) hencode⟩

end Lift6502
