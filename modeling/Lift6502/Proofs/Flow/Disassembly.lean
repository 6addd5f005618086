import Lift6502.Proofs.Code.Arithmetic
import Lift6502.Proofs.Flow.Edges

/-!
# Blocks and the image

The instructions of a block, encoded from its offset on, give the bytes that stand there, also where
a `BIT` hides an instruction.
-/

namespace Lift6502

open Program

def bytesOf (lines : List Line) : Nat := (lines.map Line.byteCount).sum

theorem bytesOf_cons (line : Line) (lines : List Line) :
    bytesOf (line :: lines) = line.byteCount + bytesOf lines := by
  rw [bytesOf, List.map_cons, List.sum_cons, ← bytesOf]

def Program.byteCount (p : Program) : Nat := (p.lines.map Line.byteCount).sum

def Slot.bytes (p : Program) (slot : Slot) : Except EncodeError (List UInt8) :=
  match slot.item with
  | .code i => p.encode i slot.offset
  | .data bytes => .ok bytes
  | .finish => .ok []

/-- The bytes are those of the slots, and each slot has the offset of its first byte. -/
inductive Reads (p : Program) : Nat → List Slot → List UInt8 → Prop where
  | nil (start : Nat) : Reads p start [] []
  | cons {start : Nat} {slot : Slot} {below : List Slot} {bytes rest : List UInt8}
      (offset : slot.offset.toNat = start) (here : slot.bytes p = .ok bytes)
      (behind : Reads p (start + bytes.length) below rest) :
      Reads p start (slot :: below) (bytes ++ rest)

variable {p : Program} {start : Nat} {bytes image : List UInt8} {line : Line}
  {code : List Instruction} {slots : List Slot} {lines : List Line}

theorem Reads.drop {m : Nat} {slot : Slot} (h : Reads p start slots bytes)
    (hslot : slots[m]? = some slot) : start ≤ slot.offset.toNat ∧
      Reads p slot.offset.toNat (slots.drop m) (bytes.drop (slot.offset.toNat - start)) := by
  induction h generalizing m with
  | nil _ => cases hslot
  | @cons start first below here rest offset hbytes behind ih =>
    cases m with
    | zero =>
      cases hslot
      rw [offset, Nat.sub_self, List.drop_zero, List.drop_zero]
      exact ⟨Nat.le_refl _, .cons offset hbytes behind⟩
    | succ m =>
      obtain ⟨hle, hreads⟩ := ih hslot
      refine ⟨by omega, ?_⟩
      have hskip : slot.offset.toNat - start =
          here.length + (slot.offset.toNat - (start + here.length)) := by omega
      rw [hskip, List.drop_length_add_append, List.drop_succ_cons]
      exact hreads

/-! ## The image -/

theorem Program.place_at_end (image bytes : List UInt8) :
    place image image.length bytes = image ++ bytes := by
  simp [place]

theorem length_of_lineBytes (h : p.lineBytes line = .ok bytes) : bytes.length = line.byteCount := by
  unfold lineBytes at h
  cases hkind : line.kind with
  | code i =>
    rw [hkind] at h
    simp only [Line.byteCount, hkind, size?_of_encode h, Option.getD_some]
  | data content =>
    rw [hkind] at h
    cases h
    rw [Line.byteCount, hkind]
  | empty =>
    rw [hkind] at h
    cases h
    rw [Line.byteCount, hkind, List.length_nil]
  | constant =>
    rw [hkind] at h
    cases h
    rw [Line.byteCount, hkind, List.length_nil]

theorem placeLine_at_end {next : List UInt8} (hoffset : line.offset.toNat = image.length)
    (h : p.placeLine image line = .ok next) :
    ∃ bytes, p.lineBytes line = .ok bytes ∧ next = image ++ bytes := by
  have hmap : (p.lineBytes line).map (place image line.offset.toNat) = .ok next →
      ∃ bytes, p.lineBytes line = .ok bytes ∧ next = image ++ bytes := by
    intro h
    cases hbytes : p.lineBytes line with
    | error e =>
      rw [hbytes] at h
      cases h
    | ok bytes =>
      rw [hbytes, hoffset] at h
      cases h
      exact ⟨bytes, rfl, place_at_end image bytes⟩
  unfold placeLine at h
  split at h
  · next hkind =>
    cases h
    exact ⟨[], by rw [lineBytes, hkind], (List.append_nil _).symm⟩
  · next hkind =>
    cases h
    exact ⟨[], by rw [lineBytes, hkind], (List.append_nil _).symm⟩
  · exact hmap h

theorem toNat_offset_behind {start : UInt16} {rest : Nat}
    (hfits : start.toNat + (line.byteCount + rest) ≤ 0xffff) :
    (start + line.size).toNat = start.toNat + line.byteCount := by
  rw [Line.size_eq_ofNat, UInt16.toNat_add, UInt16.toNat_ofNat']
  omega

theorem exists_pieces {start stop : UInt16} {full : List UInt8}
    (h : Spans start lines stop) (hfits : start.toNat + bytesOf lines ≤ 0xffff)
    (himage : image.length = start.toNat) (hfull : lines.foldlM p.placeLine image = .ok full) :
    ∃ pieces, lines.mapM p.lineBytes = .ok pieces ∧ full = image ++ pieces.flatten := by
  induction lines generalizing start image with
  | nil =>
    cases hfull
    exact ⟨[], rfl, (List.append_nil _).symm⟩
  | cons line rest ih =>
    obtain ⟨hline, hrest⟩ := h
    rw [List.foldlM_cons] at hfull
    obtain ⟨next, hplaced, hfull⟩ := Listing.Reader.bind_eq_ok hfull
    obtain ⟨bytes, hbytes, rfl⟩ := placeLine_at_end (by rw [hline, himage]) hplaced
    rw [bytesOf_cons] at hfits
    have hbehind := toNat_offset_behind hfits
    have hnext : (image ++ bytes).length = (start + line.size).toNat := by
      rw [List.length_append, himage, length_of_lineBytes hbytes, hbehind]
    obtain ⟨pieces, hpieces, rfl⟩ := ih hrest (by omega) hnext hfull
    refine ⟨bytes :: pieces, ?_, ?_⟩
    · rw [List.mapM_cons, hbytes, hpieces]
      rfl
    · rw [List.flatten_cons, List.append_assoc]

theorem reads_slotsOf {start stop offset : UInt16} {waiting : List String}
    {pieces : List (List UInt8)} (h : Spans start lines stop)
    (hoffset : waiting ≠ [] → offset = start) (hfits : start.toNat + bytesOf lines ≤ 0xffff)
    (hpieces : lines.mapM p.lineBytes = .ok pieces) :
    Reads p start.toNat (slotsOf waiting offset lines) pieces.flatten := by
  induction lines generalizing start offset waiting pieces with
  | nil =>
    cases hpieces
    rw [slotsOf]
    split
    · exact .nil _
    · next hwaiting =>
      rw [hoffset (by simpa using hwaiting)]
      have hend : Slot.bytes p ⟨waiting, start, .finish⟩ = .ok [] := rfl
      exact .cons rfl hend (.nil _)
  | cons line rest ih =>
    obtain ⟨hline, hrest⟩ := h
    rw [List.mapM_cons] at hpieces
    obtain ⟨bytes, hbytes, hpieces⟩ := Listing.Reader.bind_eq_ok hpieces
    obtain ⟨others, hothers, hpieces⟩ := Listing.Reader.bind_eq_ok hpieces
    cases hpieces
    have hcount := length_of_lineBytes hbytes
    rw [bytesOf_cons] at hfits
    have hbehind := toNat_offset_behind hfits
    rw [List.flatten_cons]
    let labels := waiting ++ (line.labelOffset?.map (·.1)).toList
    -- A line with a slot of its own, or one that passes its labels on.
    have hslot : ∀ item, slotsOf waiting offset (line :: rest) =
          ⟨labels, line.offset, item⟩ :: slotsOf [] line.offset rest →
        Slot.bytes p ⟨labels, line.offset, item⟩ = .ok bytes →
        Reads p start.toNat (slotsOf waiting offset (line :: rest)) (bytes ++ others.flatten) := by
      intro item hslots hhere
      rw [hslots]
      refine .cons (congrArg UInt16.toNat hline) hhere ?_
      rw [hcount, ← hbehind]
      exact ih hrest (fun hnil => absurd rfl hnil) (by rw [hbehind]; omega) hothers
    have hpass : slotsOf waiting offset (line :: rest) = slotsOf labels line.offset rest →
        line.byteCount = 0 →
        Reads p start.toNat (slotsOf waiting offset (line :: rest)) (bytes ++ others.flatten) := by
      intro hslots hzero
      have hsame : start + line.size = start := by
        rw [Line.size_eq_ofNat, hzero]
        exact UInt16.add_zero start
      have hnone : bytes = [] := List.eq_nil_of_length_eq_zero (hcount.trans hzero)
      rw [hsame] at hrest
      rw [hnone, List.nil_append, hslots]
      exact ih hrest (fun _ => hline) (by omega) hothers
    cases hkind : line.kind with
    | empty => exact hpass (by simp only [slotsOf, hkind, labels]) (by rw [Line.byteCount, hkind])
    | constant =>
      exact hpass (by simp only [slotsOf, hkind, labels]) (by rw [Line.byteCount, hkind])
    | code i =>
      rw [lineBytes, hkind] at hbytes
      exact hslot (.code i) (by simp only [slotsOf, hkind, labels]) hbytes
    | data content =>
      rw [lineBytes, hkind] at hbytes
      exact hslot (.data content) (by simp only [slotsOf, hkind, labels]) hbytes

theorem reads_of_assemble (hp : p.WellPlaced) (hfits : p.byteCount ≤ 0xffff)
    (himage : p.assemble = .ok image) : Reads p 0 p.slots image := by
  obtain ⟨stop, hspans⟩ := hp.spans
  have hfits : (0 : UInt16).toNat + bytesOf p.lines ≤ 0xffff := (Nat.zero_add _).trans_le hfits
  obtain ⟨pieces, hpieces, rfl⟩ := exists_pieces hspans hfits rfl himage
  exact reads_slotsOf hspans (fun hnil => absurd rfl hnil) hfits hpieces

/-! ## Instructions of a block -/

/-- The bytes of instructions that lie one behind the other, the first one at an offset. -/
def Program.encodeFrom (p : Program) : UInt16 → List Instruction → Except EncodeError (List UInt8)
  | _, [] => .ok []
  | offset, i :: rest => do
    let bytes ← p.encode i offset
    let more ← p.encodeFrom (offset + UInt16.ofNat bytes.length) rest
    return bytes ++ more

theorem littleEndian_wordOf (low high : UInt8) :
    littleEndian (high.toUInt16 <<< 8 ||| low.toUInt16) = [low, high] := by
  have hlow : ∀ b : UInt8, (b.toUInt16 <<< 8).toUInt8 = 0 := by
    apply forall_byte
    decide +kernel
  have hhigh : ∀ b : UInt8, (b.toUInt16 <<< 8 >>> 8).toUInt8 = b := by
    apply forall_byte
    decide +kernel
  have hnone : ∀ b : UInt8, (b.toUInt16 >>> 8).toUInt8 = 0 := by
    apply forall_byte
    decide +kernel
  rw [littleEndian, UInt16.shiftRight_or, UInt16.toUInt8_or, UInt16.toUInt8_or, hlow, hhigh, hnone,
    UInt8.toUInt8_toUInt16, UInt8.zero_or, UInt8.or_zero]

theorem resolve?_address (p : Program) (value : UInt16) :
    p.resolve? (.address value) = some value := by
  rw [resolve?, Target.address, base?]
  simp [ofInt_toNat]

theorem encode_bit_zeroPage (p : Program) (low : UInt8) (offset : UInt16) :
    p.encode ⟨.bit, .direct (.address low.toUInt16) .zeroPage⟩ offset = .ok [0x24, low] := by
  have hbytes : p.operandBytes ⟨.bit, .direct (.address low.toUInt16) .zeroPage⟩ .zeroPage offset =
      .ok [low] := by
    simp [operandBytes, Operand.target?, resolve?_address, littleEndian,
      AddressingMode.size]
  exact congrArg (Except.map (0x24 :: ·)) hbytes

theorem encode_bit_absolute (p : Program) (low high : UInt8) (offset : UInt16) :
    p.encode ⟨.bit, .direct (.address (high.toUInt16 <<< 8 ||| low.toUInt16)) .absolute⟩ offset =
      .ok [0x2c, low, high] := by
  have hbytes : p.operandBytes
      ⟨.bit, .direct (.address (high.toUInt16 <<< 8 ||| low.toUInt16)) .absolute⟩ .absolute offset =
        .ok [low, high] := by
    simp [operandBytes, Operand.target?, resolve?_address, littleEndian_wordOf,
      AddressingMode.size]
  exact congrArg (Except.map (0x2c :: ·)) hbytes

theorem bytes_of_bitWidth? {width : Width} (h : bitWidth? bytes = some width) :
    bytes = match width with
      | .zeroPage => [0x24]
      | .absolute => [0x2c] := by
  unfold bitWidth? at h
  split at h <;> cases h <;> rfl

/-- A `BIT` has the byte of data as its opcode and the hidden instruction as its operand. -/
theorem encode_hidingBit {below : List Slot} {bit hidden : Instruction} {label : String}
    (h : hidingBit? p bytes below = some (bit, hidden, label)) (offset : UInt16) :
    ∃ slot rest operand, below = slot :: rest ∧ slot.bytes p = .ok operand ∧
      p.encode bit offset = .ok (bytes ++ operand) := by
  unfold hidingBit? at h
  split at h
  · next width label' labels offset' hidden' rest hwidth =>
    split at h
    · next low hencode =>
      cases h
      refine ⟨_, _, [low], rfl, hencode, ?_⟩
      rw [bytes_of_bitWidth? hwidth, encode_bit_zeroPage]
      rfl
    · next low high hencode =>
      cases h
      refine ⟨_, _, [low, high], rfl, hencode, ?_⟩
      rw [bytes_of_bitWidth? hwidth, encode_bit_absolute]
      rfl
    · cases h
  · cases h

theorem encodeFrom_cons {i : Instruction} {more : List UInt8}
    (hi : p.encode i (.ofNat start) = .ok bytes)
    (hrest : p.encodeFrom (.ofNat (start + bytes.length)) code = .ok more) :
    p.encodeFrom (.ofNat start) (i :: code) = .ok (bytes ++ more) := by
  rw [UInt16.ofNat_add] at hrest
  rw [encodeFrom, hi]
  change (p.encodeFrom _ code).bind _ = _
  rw [hrest]
  rfl

theorem Covers.encodeFrom {m stop : Nat} {rest : List UInt8} (h : Covers p slots m code stop)
    (hreads : Reads p start (slots.drop m) rest) :
    ∃ bytes, p.encodeFrom (UInt16.ofNat start) code = .ok bytes ∧ bytes <+: rest := by
  induction h generalizing start rest with
  | nil _ => exact ⟨[], rfl, List.nil_prefix⟩
  | code at_start item covered ih =>
    rw [List.drop_eq_getElem?_toList_append, at_start] at hreads
    cases hreads with
    | cons offset here behind =>
      obtain ⟨more, hmore, hprefix⟩ := ih behind
      rw [Slot.bytes, item, ← UInt16.ofNat_toNat (x := Slot.offset _), offset] at here
      exact ⟨_, encodeFrom_cons here hmore, (List.prefix_append_right_inj _).2 hprefix⟩
  | bit at_start item hides covered ih =>
    obtain ⟨hidden, below, operand, hbelow, hoperand, hbit⟩ := encode_hidingBit hides (.ofNat start)
    rw [List.drop_eq_getElem?_toList_append, at_start, hbelow] at hreads
    cases hreads with
    | cons offset here behind =>
      cases behind with
      | cons offset' here' behind' =>
        rw [Slot.bytes, item] at here
        cases here
        cases hoperand.symm.trans here'
        rw [(slot_of_drop hbelow).2] at ih
        rw [Nat.add_assoc, ← List.length_append] at behind'
        obtain ⟨more, hmore, hprefix⟩ := ih behind'
        refine ⟨_, encodeFrom_cons hbit hmore, ?_⟩
        rw [← List.append_assoc]
        exact (List.prefix_append_right_inj _).2 hprefix

theorem Build.exists_encodeFrom (hp : p.WellPlaced) (hfits : p.byteCount ≤ 0xffff)
    (himage : p.assemble = .ok image) {k : BlockId} (hk : k < (read p).graph.size) :
    ∃ bytes, p.encodeFrom ((ofProgram p).graph.block k).offset ((ofProgram p).graph.block k).code =
      .ok bytes ∧ bytes <+: image.drop ((ofProgram p).graph.block k).offset.toNat := by
  obtain ⟨m, stop, hm, hpiece, -⟩ := exists_piece hk
  obtain ⟨slot, hslot, hoffset⟩ := offset_of_start hm
  obtain ⟨bytes, hbytes, hprefix⟩ :=
    hpiece.covers.encodeFrom ((reads_of_assemble hp hfits himage).drop hslot).2
  rw [UInt16.ofNat_toNat] at hbytes
  rw [hoffset, code_ofProgram]
  exact ⟨bytes, hbytes, hprefix⟩

/-- The instructions of a block of a program that was read, encoded one behind the other from the
offset of the block on, are the bytes that stand there in the image. -/
theorem block_encodes_image (source : String) (p : Program) (g : Graph) (image : List UInt8)
    (hread : Listing.read source = .ok p) (himage : p.assemble = .ok image)
    (hfits : p.byteCount ≤ 0xffff) (hg : (Graph.ofProgram p).1 = .ok g) (k : BlockId)
    (hk : k < g.size) :
    ∃ bytes, p.encodeFrom (g.block k).offset (g.block k).code = .ok bytes ∧
      bytes = (image.drop (g.block k).offset.toNat).take bytes.length := by
  cases graph_eq_of_ofProgram hg
  rw [(Build.sameBlocks_ofProgram p).size] at hk
  obtain ⟨bytes, hbytes, hprefix⟩ :=
    Build.exists_encodeFrom (Listing.wellPlaced_read hread) hfits himage hk
  exact ⟨bytes, hbytes, List.prefix_iff_eq_take.1 hprefix⟩

/-- A `BIT` hides a load, and the copy behind it ends with a branch back. -/
def copiedBranchText : String :=
  "  .org $8000\nFirst:\n  LDX #$01\n  .db $2c\nSecond:\n  LDX #$02\n  DEX\n  BNE First\n  RTS\n"

def copiedBranch : Program :=
  Draft.start 0x8000
    |>.label "First" |>.line .empty |>.immediate .ldx 1 |>.data [0x2c]
    |>.label "Second" |>.line .empty |>.immediate .ldx 2 |>.implied .dex |>.atLabel .bne "First"
      |>.implied .rts
    |>.program

/-- The first block runs through the `BIT` and its own copy of the branch, the second one starts
inside the operand of the `BIT`; both read the same image. -/
theorem block_encodes_copiedBranch :
    ∃ g, Listing.read copiedBranchText = .ok copiedBranch ∧
      (Graph.ofProgram copiedBranch).1 = .ok g ∧ copiedBranch.assemble =
        .ok [0xa2, 0x01, 0x2c, 0xa2, 0x02, 0xca, 0xd0, 0xf8, 0x60] ∧
      (g.block 0).offset = 0 ∧ (g.block 1).offset = 3 ∧
      (g.block 0).code[1]? = some ⟨.bit, .direct (.address 0x02a2) .absolute⟩ ∧
      (∃ bytes, copiedBranch.encodeFrom (g.block 0).offset (g.block 0).code = .ok bytes ∧
        bytes = [0xa2, 0x01, 0x2c, 0xa2, 0x02, 0xca, 0xd0, 0xf8, 0x60].take bytes.length) ∧
      ∃ bytes, copiedBranch.encodeFrom (g.block 1).offset (g.block 1).code = .ok bytes ∧
        bytes = [0xa2, 0x02, 0xca, 0xd0, 0xf8, 0x60].take bytes.length := by
  have hread : Listing.read copiedBranchText = .ok copiedBranch := by decide +kernel
  have himage : copiedBranch.assemble =
      .ok [0xa2, 0x01, 0x2c, 0xa2, 0x02, 0xca, 0xd0, 0xf8, 0x60] := by rfl
  have hfits : copiedBranch.byteCount ≤ 0xffff := by decide +kernel
  have hblock := block_encodes_image copiedBranchText copiedBranch _ _ hread himage hfits rfl
  have hoffset : ((Build.ofProgram copiedBranch).graph.block 1).offset = 3 := by decide +kernel
  refine ⟨(Build.ofProgram copiedBranch).graph, hread, rfl, himage, by decide +kernel, hoffset,
    by decide +kernel, hblock 0 (by decide +kernel), ?_⟩
  have hsecond := hblock 1 (by decide +kernel)
  rw [hoffset] at hsecond ⊢
  exact hsecond

end Lift6502
