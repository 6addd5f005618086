import Lift6502.Asm.Draft
import Lift6502.Proofs.Asm.Encoding
import Lift6502.Proofs.Flow.Exits
import Lift6502.Proofs.Listing.Offsets
import Mathlib.Data.UInt

/-!
# Edges and addresses

In a program that was read, falling through leads to the byte behind a block, and jumps and calls
lead to the addresses of their operands, unless a name stands both for a constant and for a label.
-/

namespace Lift6502

variable {bytes : List UInt8} {p : Program} {target : Target} {i : Instruction}

theorem length_of_bitWidth? {width : Width} (h : bitWidth? bytes = some width) :
    bytes.length = 1 := by
  unfold bitWidth? at h
  split at h
  · rfl
  · rfl
  · cases h

theorem hidingBit?_size {below : List Slot} {bit hidden : Instruction} {label : String}
    (h : hidingBit? p bytes below = some (bit, hidden, label)) :
    ∃ slot rest, below = slot :: rest ∧ slot.item = .code hidden ∧ UInt16.ofNat (bit.size?.getD 0) =
        UInt16.ofNat bytes.length + UInt16.ofNat (hidden.size?.getD 0) := by
  unfold hidingBit? at h
  split at h
  · next width label' labels offset hidden' rest hwidth =>
    refine ⟨_, _, rfl, ?_⟩
    split at h
    · next low hencode =>
      cases h
      refine ⟨rfl, ?_⟩
      rw [size?_of_encode hencode, length_of_bitWidth? hwidth]
      rfl
    · next low high hencode =>
      cases h
      refine ⟨rfl, ?_⟩
      rw [size?_of_encode hencode, length_of_bitWidth? hwidth]
      rfl
    · cases h
  · cases h

def codeSize (code : List Instruction) : UInt16 :=
  (code.map fun i => UInt16.ofNat (i.size?.getD 0)).sum

theorem codeSize_cons (i : Instruction) (code : List Instruction) :
    codeSize (i :: code) = UInt16.ofNat (i.size?.getD 0) + codeSize code := by
  rw [codeSize, List.map_cons, List.sum_cons, ← codeSize]

theorem size_of_code {slot : Slot} (h : slot.item = .code i) :
    slot.size = UInt16.ofNat (i.size?.getD 0) := by
  rw [Slot.size, h]

theorem size_of_data {slot : Slot} (h : slot.item = .data bytes) :
    slot.size = UInt16.ofNat bytes.length := by
  rw [Slot.size, h]

theorem Covers.offset_eq (hp : p.WellPlaced) {m stop : Nat} {code : List Instruction}
    (h : Covers p p.slots m code stop) {first last : Slot} (hfirst : p.slots[m]? = some first)
    (hlast : p.slots[stop]? = some last) : last.offset = first.offset + codeSize code := by
  induction h generalizing first with
  | nil _ =>
    cases hfirst.symm.trans hlast
    exact (UInt16.add_zero _).symm
  | code at_start item covered ih =>
    cases hfirst.symm.trans at_start
    -- There is a slot behind this one, since the last one is not before it.
    have hlt := lt_of_le_of_lt covered.le (List.getElem?_eq_some_iff.1 hlast).1
    have hnext := List.getElem?_eq_getElem hlt
    have hstep := hp.slots_next hfirst hnext
    rw [ih hnext hlast, hstep, size_of_code item, codeSize_cons, UInt16.add_assoc]
  | bit at_start item hides covered ih =>
    cases hfirst.symm.trans at_start
    obtain ⟨hidden, rest, hbelow, hitem, hsize⟩ := hidingBit?_size hides
    have hhidden := (slot_of_drop hbelow).1
    have hlt := lt_of_le_of_lt covered.le (List.getElem?_eq_some_iff.1 hlast).1
    have hnext := List.getElem?_eq_getElem hlt
    have hstep := hp.slots_next hfirst hhidden
    have hstep' := hp.slots_next hhidden hnext
    rw [ih hnext hlast, hstep', hstep, size_of_data item, size_of_code hitem, codeSize_cons, hsize]
    simp only [UInt16.add_assoc]

/-! ## The finished graph of a program -/

theorem graph_eq_of_ofProgram {g : Graph} (h : (Graph.ofProgram p).1 = .ok g) :
    g = (Build.ofProgram p).graph := by
  unfold Graph.ofProgram at h
  simp only at h
  split at h
  · exact (Except.ok.inj h).symm
  · cases h

namespace Build

variable {p : Program} {k t : BlockId} {m stop : Nat}

theorem exists_piece (hk : k < (read p).graph.size) :
    ∃ m stop, (m, k) ∈ (read p).starts ∧ Piece p p.slots ((read p).graph.block k) m stop ∧
      Ending p.slots (read p).starts k ((read p).graph.block k) ((read p).exitsOf k) stop := by
  have hpieces := pieces_read p
  obtain ⟨m, hm⟩ := hpieces.exists_start hk
  obtain ⟨stop, hpiece, hending⟩ := hpieces.finished m k hm (by simp)
  exact ⟨m, stop, hm, hpiece, hending⟩

theorem offset_of_start (hm : (m, k) ∈ (read p).starts) :
    ∃ slot, p.slots[m]? = some slot ∧ ((ofProgram p).graph.block k).offset = slot.offset := by
  obtain ⟨stop, hpiece, -⟩ := (pieces_read p).finished m k hm (by simp)
  obtain ⟨slot, hslot, hoffset, -⟩ := hpiece.at_start
  rw [offset_ofProgram]
  exact ⟨slot, hslot, hoffset⟩

theorem started_of_fallThrough
    (hending : Ending p.slots (read p).starts k ((read p).graph.block k) ((read p).exitsOf k) stop)
    (h : ((ofProgram p).graph.block k).fallThrough = some t) : (stop, t) ∈ (read p).starts := by
  rcases exit?_cases .fallThrough h with hbefore | ⟨e, he, hkind, hdest⟩
  · have hbefore' : ((read p).graph.block k).fallThrough = some t := hbefore
    cases hending with
    | transfer _ _ _ _ _ fall _ | rejoins _ _ _ fall _ | runsOut _ _ fall _ =>
      rw [fall] at hbefore'
      cases hbefore'
    | falls _ _ _ fall started _ =>
      rw [fall] at hbefore'
      cases hbefore'
      exact started
  -- A pending exit leads to the slot behind the block.
  · rw [hending.eq_of_fallThrough he hkind] at hdest
    exact (starts_read p).lookup_iff.1 hdest

theorem offset_of_fallThrough (hp : p.WellPlaced) (hk : k < (read p).graph.size)
    (h : ((ofProgram p).graph.block k).fallThrough = some t) :
    ((ofProgram p).graph.block t).offset =
      ((ofProgram p).graph.block k).offset + codeSize ((ofProgram p).graph.block k).code := by
  obtain ⟨m, stop, hm, hpiece, hending⟩ := exists_piece hk
  obtain ⟨first, hfirst, hoffset⟩ := offset_of_start hm
  obtain ⟨last, hlast, hoffset'⟩ := offset_of_start (started_of_fallThrough hending h)
  rw [hoffset, hoffset', code_ofProgram, hpiece.covers.offset_eq hp hfirst hlast]

theorem exists_of_branch (hpiece : Piece p p.slots ((read p).graph.block k) m stop)
    (hending : Ending p.slots (read p).starts k ((read p).graph.block k) ((read p).exitsOf k) stop)
    (h : ((ofProgram p).graph.block k).branch = some t) :
    ∃ i target, ((ofProgram p).graph.block k).code.getLast? = some i ∧
      i.opcode.isControlTransfer = true ∧ i.jumpTarget? = some target ∧
      (read p).locate? p p.slots target = some t := by
  rcases exit?_cases .branch h with hbefore | ⟨e, he, hkind, hdest⟩
  · have hbefore' : ((read p).graph.block k).branch = some t := hbefore
    rw [hpiece.branch] at hbefore'
    cases hbefore'
  · rw [code_ofProgram]
    rcases hending.of_mem he with ⟨i, target, hlast, htransfer, htarget, rfl⟩ | rfl
    · exact ⟨i, target, hlast, htransfer, htarget, hdest⟩
    · cases hkind

theorem exists_of_call {index : Nat} (hpiece : Piece p p.slots ((read p).graph.block k) m stop)
    (h : (index, t) ∈ ((ofProgram p).graph.block k).calls) :
    ∃ i target, ((ofProgram p).graph.block k).code[index]? = some i ∧ i.opcode = .jsr ∧
      i.jumpTarget? = some target ∧ (read p).locate? p p.slots target = some t := by
  have hcode := code_ofProgram p k
  rw [ofProgram_eq] at h
  rcases mem_calls_settleCalls h with hold | ⟨c, hc, hsource, hindex, hlocate⟩
  · rw [calls_settleExits, hpiece.calls] at hold
    exact absurd hold List.not_mem_nil
  · obtain ⟨-, i, hi, hjsr, htarget⟩ := (pieces_read p).call c hc
    rw [(sameBlocks_settleExits _ _).locate?] at hlocate
    rw [hcode]
    simp only at hindex
    subst hindex hsource
    exact ⟨i, c.target, hi, hjsr, htarget, hlocate⟩

theorem locate?_cases {target : Target} (h : (read p).locate? p p.slots target = some t) :
    (∃ name m slot, target.label? = some name ∧ (m, t) ∈ (read p).starts ∧
      p.slots[m]? = some slot ∧ name ∈ slot.labels) ∨
    ∃ m slot, (m, t) ∈ (read p).starts ∧ p.slots[m]? = some slot ∧
      p.resolve? target = some (p.addressOf slot.offset) := by
  unfold locate? at h
  split at h
  · next block hblock =>
    cases h
    obtain ⟨name, hname, hlabelled⟩ := Option.bind_eq_some_iff.1 hblock
    obtain ⟨m, slot, hm, hslot, hmem⟩ := (pieces_read p).label name t (mem_of_lookup hlabelled)
    exact .inl ⟨name, m, slot, hname, hm, hslot, hmem⟩
  · obtain ⟨address, hresolve, h⟩ := Option.bind_eq_some_iff.1 h
    obtain ⟨start, hstart, h⟩ := Option.bind_eq_some_iff.1 h
    cases h
    have hfound := List.find?_some hstart
    have hmem := List.mem_of_find?_eq_some hstart
    obtain ⟨m, t'⟩ := start
    simp only at hfound
    split at hfound
    · next slot hslot =>
      obtain ⟨-, haddress⟩ := Bool.and_eq_true_iff.1 hfound
      rw [← beq_iff_eq.1 haddress] at hresolve
      exact .inr ⟨m, slot, hmem, hslot, hresolve⟩
    · cases hfound

end Build

/-! ## Jumps, calls and falling through -/

/-- A jump to a target goes to an offset: to the address of the target, or, if the target is a name
that stands for a constant and for a label, to the label. -/
def Program.LandsAt (p : Program) (target : Target) (offset : UInt16) : Prop :=
  p.resolve? target = some (p.addressOf offset) ∨
    ∃ name, target.label? = some name ∧ (p.constant? name).isSome = true ∧
      p.labelOffset? name = some offset

theorem ofInt_toNat (x : UInt16) : UInt16.ofInt (x.toNat : Int) = x := by
  have hlt := x.toNat_lt
  apply UInt16.toNat_inj.1
  simp only [UInt16.ofInt, UInt16.toNat_ofNat']
  omega

theorem resolve?_of_label {name : String} {offset : UInt16} (hname : target.label? = some name)
    (hconstant : p.constant? name = none) (hlabel : p.labelOffset? name = some offset) :
    p.resolve? target = some (p.addressOf offset) := by
  unfold Target.label? at hname
  split at hname
  · next name' hbase =>
    split at hname
    · next hzero =>
      cases hname
      rw [Program.resolve?, hbase, Program.base?, hconstant, hlabel, hzero]
      simp [ofInt_toNat]
    · cases hname
  · cases hname

theorem landsAt_of_locate? (hp : p.WellPlaced) {t : BlockId}
    (h : (Build.read p).locate? p p.slots target = some t) :
    p.LandsAt target ((Build.ofProgram p).graph.block t).offset := by
  rcases Build.locate?_cases h with ⟨name, m, slot, hname, hm, hslot, hmem⟩ |
    ⟨m, slot, hm, hslot, hresolve⟩
  · obtain ⟨slot', hslot', hoffset⟩ := Build.offset_of_start hm
    cases hslot.symm.trans hslot'
    have hlabel := hp.labelOffset?_of_slot (List.mem_of_getElem? hslot) hmem
    rw [hoffset]
    cases hconstant : p.constant? name with
    | none => exact .inl (resolve?_of_label hname hconstant hlabel)
    | some value => exact .inr ⟨name, hname, by rw [hconstant]; rfl, hlabel⟩
  · obtain ⟨slot', hslot', hoffset⟩ := Build.offset_of_start hm
    cases hslot.symm.trans hslot'
    rw [hoffset]
    exact .inl hresolve

theorem jumps_of_transfer (htransfer : i.opcode.isControlTransfer = true)
    (htarget : i.jumpTarget? = some target) :
    i.opcode.isConditionalBranch = true ∨ i.opcode = .jmp := by
  unfold Instruction.jumpTarget? at htarget
  split at htarget
  · split at htarget
    · next hjumps =>
      simp only [Bool.or_eq_true, beq_iff_eq] at hjumps
      rcases hjumps with (hcond | hjmp) | hjsr
      · exact .inl hcond
      · exact .inr hjmp
      · rw [hjsr] at htransfer
        cases htransfer
    · cases htarget
  · cases htarget

/-- Every exit and every call of a block of a program that was read goes where its bytes say, but
for names that stand for a constant and for a label. -/
theorem edges_land (source : String) (p : Program) (g : Graph) (hread : Listing.read source = .ok p)
    (hg : (Graph.ofProgram p).1 = .ok g) (k : BlockId) (hk : k < g.size) :
    (∀ t, (g.block k).branch = some t → ∃ i target, (g.block k).code.getLast? = some i ∧
      (i.opcode.isConditionalBranch = true ∨ i.opcode = .jmp) ∧ i.jumpTarget? = some target ∧
      p.LandsAt target (g.block t).offset) ∧
    (∀ index t, (index, t) ∈ (g.block k).calls → ∃ i target, (g.block k).code[index]? = some i ∧
      i.opcode = .jsr ∧ i.jumpTarget? = some target ∧ p.LandsAt target (g.block t).offset) ∧
    ∀ t, (g.block k).fallThrough = some t →
      p.addressOf (g.block t).offset =
        p.addressOf ((g.block k).offset + codeSize (g.block k).code) := by
  have hp := Listing.wellPlaced_read hread
  cases graph_eq_of_ofProgram hg
  rw [(Build.sameBlocks_ofProgram p).size] at hk
  obtain ⟨m, stop, -, hpiece, hending⟩ := Build.exists_piece hk
  refine ⟨?_, ?_, ?_⟩
  · intro t ht
    obtain ⟨i, target, hlast, htransfer, htarget, hlocate⟩ :=
      Build.exists_of_branch hpiece hending ht
    exact ⟨i, target, hlast, jumps_of_transfer htransfer htarget, htarget,
      landsAt_of_locate? hp hlocate⟩
  · intro index t ht
    obtain ⟨i, target, hi, hjsr, htarget, hlocate⟩ := Build.exists_of_call hpiece ht
    exact ⟨i, target, hi, hjsr, htarget, landsAt_of_locate? hp hlocate⟩
  · intro t ht
    rw [Build.offset_of_fallThrough hp hk ht]

def waitingText : String :=
  "  .org $8000\nStart:\n  JSR Wait\n  BEQ Done\nWait:\n  DEX\n  BNE Wait\nDone:\n  RTS\n"

def waiting : Program :=
  Draft.start 0x8000
    |>.label "Start" |>.line .empty |>.atLabel .jsr "Wait" |>.atLabel .beq "Done"
    |>.label "Wait" |>.line .empty |>.implied .dex |>.atLabel .bne "Wait"
    |>.label "Done" |>.line .empty |>.implied .rts
    |>.program

/-- The first block has an edge of every kind. -/
theorem edges_land_waiting :
    ∃ g, Listing.read waitingText = .ok waiting ∧ (Graph.ofProgram waiting).1 = .ok g ∧ 0 < g.size ∧
      ((g.block 0).branch = some 2 ∧ (g.block 0).calls = [(0, 1)] ∧
        (g.block 0).fallThrough = some 1) ∧
      (∃ i target, (g.block 0).code.getLast? = some i ∧
        (i.opcode.isConditionalBranch = true ∨ i.opcode = .jmp) ∧ i.jumpTarget? = some target ∧
        waiting.LandsAt target (g.block 2).offset) ∧
      (∃ i target, (g.block 0).code[0]? = some i ∧ i.opcode = .jsr ∧
        i.jumpTarget? = some target ∧ waiting.LandsAt target (g.block 1).offset) ∧
      waiting.addressOf (g.block 1).offset =
        waiting.addressOf ((g.block 0).offset + codeSize (g.block 0).code) := by
  have hread : Listing.read waitingText = .ok waiting := by decide +kernel
  have hg : (Graph.ofProgram waiting).1 = .ok (Build.ofProgram waiting).graph := rfl
  have hsize : 0 < (Build.ofProgram waiting).graph.size := by decide +kernel
  have hedges : ((Build.ofProgram waiting).graph.block 0).branch = some 2 ∧
      ((Build.ofProgram waiting).graph.block 0).calls = [(0, 1)] ∧
      ((Build.ofProgram waiting).graph.block 0).fallThrough = some 1 := by decide +kernel
  obtain ⟨hbranch, hcalls, hfall⟩ := edges_land waitingText waiting _ hread hg 0 hsize
  exact ⟨_, hread, hg, hsize, hedges, hbranch 2 hedges.1,
    hcalls 0 1 (by rw [hedges.2.1]; exact List.mem_singleton_self _), hfall 1 hedges.2.2⟩

def shadowedText : String :=
  "Foo = $8000\n  .org $8000\nStart:\n  NOP\n  JMP Foo\nFoo:\n  RTS\n"

def shadowed : Program where
  origin := 0x8000
  lines := [
    ⟨none, 0, .constant "Foo" 0x8000⟩, ⟨some "Start", 0, .empty⟩, ⟨none, 0, .code ⟨.nop, .implied⟩⟩,
    ⟨none, 1, .code ⟨.jmp, .direct (.symbol "Foo") .absolute⟩⟩, ⟨some "Foo", 4, .empty⟩,
    ⟨none, 4, .code ⟨.rts, .implied⟩⟩]

/-- The bytes of the jump say `$8000`, but the branch leads to the label at `$8004`. -/
theorem shadowed_branch_differs :
    ∃ g, Listing.read shadowedText = .ok shadowed ∧ (Graph.ofProgram shadowed).1 = .ok g ∧
      shadowed.assemble.toOption = some [0xea, 0x4c, 0x00, 0x80, 0x60] ∧
      (g.block 0).branch = some 1 ∧
      ((g.block 0).code.getLast?.bind (·.jumpTarget?)) = some (.symbol "Foo") ∧
      shadowed.resolve? (.symbol "Foo") = some 0x8000 ∧
      shadowed.addressOf (g.block 1).offset = 0x8004 := by
  refine ⟨(Build.ofProgram shadowed).graph, ?_, rfl, ?_⟩
  · decide +kernel
  · decide +kernel

/-! ## Running into hidden code -/

/-- A block that does not jump away falls through to the code behind it. It falls through to data
that hides code only if the data is labelled. -/
theorem fallThrough_isSome_iff (p : Program) (g : Graph) (hg : (Graph.ofProgram p).1 = .ok g)
    (k : BlockId) (hk : k < g.size) (last : Instruction)
    (hlast : (g.block k).code.getLast? = some last)
    (hgoes : last.opcode.isUnconditionalTransfer = false) :
    ∃ start stop first, (start, k) ∈ (Build.ofProgram p).starts ∧ p.slots[start]? = some first ∧
      (g.block k).offset = first.offset ∧ Covers p p.slots start (g.block k).code stop ∧
      ∀ slot, p.slots[stop]? = some slot →
        slot.isCode = true ∨ HidesCode p p.slots stop slot →
        ((g.block k).fallThrough.isSome = true ↔ slot.isCode = true ∨ slot.isLabelled = true) := by
  cases graph_eq_of_ofProgram hg
  rw [(Build.sameBlocks_ofProgram p).size] at hk
  obtain ⟨start, stop, hstart, hpiece, hending⟩ := Build.exists_piece hk
  obtain ⟨first, hfirst, hoffset⟩ := Build.offset_of_start hstart
  rw [Build.code_ofProgram] at hlast ⊢
  refine ⟨start, stop, first, ?_, hfirst, hoffset, hpiece.covers, fun slot hslot hruns => ?_⟩
  · rw [(Build.sameBlocks_ofProgram p).starts]
    exact hstart
  have hstarts := Build.starts_read p
  rw [Build.fallThrough_eq_lookup hpiece hending hlast hgoes]
  have hlt : stop < p.slots.length := (List.getElem?_eq_some_iff.1 hslot).1
  constructor
  · intro hsome
    obtain ⟨t, ht⟩ := Option.isSome_iff_exists.1 hsome
    rcases hstarts.stops stop t slot (hstarts.lookup_iff.1 ht) hslot with h | h | h
    · exact .inl h
    · exact .inr h
    · exact .inr (isLabelled_of_finish (List.mem_of_getElem? hslot) h)
  · intro hmarked
    -- A block starts at the slot: it is marked, or the block before it ends with a branch.
    have hstarted : ∃ t, (stop, t) ∈ (Build.read p).starts := by
      by_cases hlabelled : slot.isLabelled = true
      · rcases hruns with hcode | hhides
        · exact hstarts.code stop slot hlt hslot hcode (.inl hlabelled)
        · exact hstarts.data stop slot hlt hslot hhides hlabelled
      · have hcode := hmarked.resolve_right hlabelled
        cases hending with
        | transfer last' transfers stop_eq at_index item fall pending =>
          exact hstarts.code stop slot hlt hslot hcode
            (.inr ⟨_, _, _, stop_eq, at_index, item, transfers⟩)
        | falls plain at_stop stops fall started pending => exact ⟨_, started⟩
        | rejoins plain at_stop stops fall pending =>
          cases hslot.symm.trans at_stop
          exact absurd stops hlabelled
        | runsOut plain nothing fall pending =>
          rcases nothing with hnil | hnothing
          · rw [hnil] at hlast
            cases hlast
          · rw [(hnothing slot hslot).2] at hcode
            cases hcode
    obtain ⟨t, ht⟩ := hstarted
    rw [hstarts.lookup_iff.2 ht]
    rfl

/-- Two ways into the same code, which differ in what is loaded. -/
def twoEntries : Program :=
  Draft.start 0x8000
    |>.label "First" |>.immediate .lda 1 |>.data [0x2c]
    |>.label "Second" |>.immediate .lda 2 |>.zeroPage .sta 0x20
    |>.label "Done" |>.implied .rts
    |>.program

/-- The first way runs a `BIT` and its own copy of the store, and falls through to the return. -/
theorem fallThrough_isSome_twoEntries :
    ∃ g, (Graph.ofProgram twoEntries).1 = .ok g ∧ 0 < g.size ∧
      (g.block 0).code.getLast? = some ⟨.sta, .direct (.address 0x20) .zeroPage⟩ ∧
      Opcode.isUnconditionalTransfer .sta = false ∧ (g.block 0).code.length = 3 ∧
      (g.block 0).fallThrough = some 2 ∧
      ∃ start stop first, (start, 0) ∈ (Build.ofProgram twoEntries).starts ∧
        twoEntries.slots[start]? = some first ∧ (g.block 0).offset = first.offset ∧
        Covers twoEntries twoEntries.slots start (g.block 0).code stop ∧
        ∀ slot, twoEntries.slots[stop]? = some slot →
          slot.isCode = true ∨ HidesCode twoEntries twoEntries.slots stop slot →
          ((g.block 0).fallThrough.isSome = true ↔
            slot.isCode = true ∨ slot.isLabelled = true) := by
  have hsize : 0 < (Build.ofProgram twoEntries).graph.size := by decide +kernel
  have hlast : ((Build.ofProgram twoEntries).graph.block 0).code.getLast? =
      some ⟨.sta, .direct (.address 0x20) .zeroPage⟩ := by decide +kernel
  refine ⟨_, rfl, hsize, hlast, rfl, ?_, ?_,
    fallThrough_isSome_iff twoEntries _ rfl 0 hsize _ hlast rfl⟩
  · decide +kernel
  · decide +kernel

/-- A conditional branch in front of a `BIT` that hides an instruction. -/
def branchOverSkipText : String :=
  "  .org $8000\nStart:\n  LDA $10\n  BEQ Done\n  .db $2c\nSkip:\n  LDA #$01\nDone:\n  RTS\n"

def branchOverSkip : Program :=
  Draft.start 0x8000
    |>.label "Start" |>.line .empty |>.zeroPage .lda 0x10 |>.atLabel .beq "Done" |>.data [0x2c]
    |>.label "Skip" |>.line .empty |>.immediate .lda 1
    |>.label "Done" |>.line .empty |>.implied .rts
    |>.program

/-- Control that does not take the branch runs the `BIT`, but nothing leads there. -/
theorem branchOverSkip_loses_exit :
    ∃ g slot, Listing.read branchOverSkipText = .ok branchOverSkip ∧
      (Graph.ofProgram branchOverSkip).1 = .ok g ∧
      (g.block 0).code.getLast? = some ⟨.beq, .direct (.symbol "Done") .absolute⟩ ∧
      Covers branchOverSkip branchOverSkip.slots 0 (g.block 0).code 2 ∧
      branchOverSkip.slots[2]? = some slot ∧ HidesCode branchOverSkip branchOverSkip.slots 2 slot ∧
      (g.block 0).fallThrough = none := by
  have hcode : ((Build.ofProgram branchOverSkip).graph.block 0).code =
      [⟨.lda, .direct (.address 0x10) .zeroPage⟩, ⟨.beq, .direct (.symbol "Done") .absolute⟩] := by
    decide +kernel
  refine ⟨(Build.ofProgram branchOverSkip).graph, ⟨[], 4, .data [0x2c]⟩, ?_, rfl, ?_, ?_,
    rfl, ?_, ?_⟩
  · decide +kernel
  · rw [hcode]
    rfl
  · rw [hcode]
    exact .code rfl rfl (.code rfl rfl (.nil 2))
  · exact ⟨[0x2c], rfl, by decide +kernel⟩
  · decide +kernel

end Lift6502
