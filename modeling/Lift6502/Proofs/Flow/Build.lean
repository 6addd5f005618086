import Lift6502.Flow.Build
import Lift6502.Proofs.Flow.Graph

/-!
# What the blocks of a program cover

While the slots are read, every block covers a run of slots. At most one block is open, and every
other one has ended in one of four ways, each with its own pending exits.
-/

namespace Lift6502

open Graph

variable {slots : List Slot} {n : Nat} {code : List Instruction} {p : Program} {m stop : Nat}

/-- The instructions cover the slots from one index up to another. -/
inductive Covers (p : Program) (slots : List Slot) : Nat → List Instruction → Nat → Prop where
  | nil (m : Nat) : Covers p slots m [] m
  | code {m stop : Nat} {slot : Slot} {i : Instruction} {rest : List Instruction}
      (at_start : slots[m]? = some slot) (item : slot.item = .code i)
      (covered : Covers p slots (m + 1) rest stop) : Covers p slots m (i :: rest) stop
  | bit {m stop : Nat} {slot : Slot} {bytes : List UInt8} {bit hidden : Instruction}
    {label : String}
      {rest : List Instruction} (at_start : slots[m]? = some slot) (item : slot.item = .data bytes)
      (hides : hidingBit? p bytes (slots.drop (m + 1)) = some (bit, hidden, label))
      (covered : Covers p slots (m + 2) rest stop) : Covers p slots m (bit :: rest) stop

theorem Covers.append {before after : List Instruction} (h : Covers p slots m before n)
    (h' : Covers p slots n after stop) : Covers p slots m (before ++ after) stop := by
  induction h with
  | nil _ => exact h'
  | code at_start item _ ih => exact .code at_start item (ih h')
  | bit at_start item hides _ ih => exact .bit at_start item hides (ih h')

theorem Covers.le (h : Covers p slots m code stop) : m ≤ stop := by
  induction h with
  | nil _ => exact Nat.le_refl _
  | code _ _ _ ih => omega
  | bit _ _ _ _ ih => omega

theorem slot_of_drop {rest : List Slot} {slot : Slot} (h : slots.drop n = slot :: rest) :
    slots[n]? = some slot ∧ slots.drop (n + 1) = rest := by
  refine ⟨?_, ?_⟩
  · rw [← List.head?_drop, h, List.head?_cons]
  · rw [← List.tail_drop, h, List.tail_cons]

namespace Build

variable {p : Program} {slots : List Slot} {b : Build} {k : BlockId} {n : Nat} {i : Instruction}
  {exits : List PendingExit} {slot : Slot} {bytes : List UInt8}

/-! ## What each step does to the graph -/

def exitsAt (block : BlockId) (index : Nat) (i : Instruction) : List PendingExit :=
  (if i.opcode = .jsr then [] else i.jumpTarget?.toList.map fun t => ⟨block, .branch, .target t⟩) ++
    if i.opcode.isConditionalBranch then [⟨block, .fallThrough, .slot (index + 1)⟩] else []

def callsAt (block : BlockId) (position : Nat) (i : Instruction) : List PendingCall :=
  if i.opcode = .jsr then i.jumpTarget?.toList.map fun t => ⟨block, position, t⟩ else []

theorem append_eq (b : Build) (k : BlockId) (index : Nat) (i : Instruction) :
    b.append k index i = { b with
      graph := b.graph.modify k fun block => { block with code := block.code ++ [i] }
      exits := b.exits ++ exitsAt k index i
      calls := b.calls ++ callsAt k (b.graph.block k).code.length i } := by
  unfold append exitsAt callsAt addExit
  cases i.jumpTarget? <;> by_cases hjsr : i.opcode = .jsr <;>
    by_cases hcond : i.opcode.isConditionalBranch <;> simp_all

theorem exitsAt_of_not_transfer (h : i.opcode.isControlTransfer = false) (block : BlockId)
    (index : Nat) : exitsAt block index i = [] := by
  unfold exitsAt Instruction.jumpTarget?
  unfold Opcode.isControlTransfer at h
  cases i.operand <;> simp_all

theorem source_of_mem_exitsAt {block : BlockId} {index : Nat} {e : PendingExit}
    (h : e ∈ exitsAt block index i) : e.source = block := by
  unfold exitsAt at h
  rcases List.mem_append.1 h with h | h
  · split at h
    · exact absurd h List.not_mem_nil
    · obtain ⟨t, -, rfl⟩ := List.mem_map.1 h
      rfl
  · split at h
    · rw [List.mem_singleton.1 h]
    · exact absurd h List.not_mem_nil

def exitsOf (b : Build) (k : BlockId) : List PendingExit := b.exits.filter (·.source = k)

/-! ## Open and finished blocks -/

/-- How a block ends that covers the slots up to `stop`, with its pending exits. -/
inductive Ending (slots : List Slot) (starts : List (Nat × BlockId)) (k : BlockId) (block : Block)
    (exits : List PendingExit) (stop : Nat) : Prop where
  | transfer {index : Nat} {slot : Slot} {i : Instruction} (last : block.code.getLast? = some i)
      (transfers : i.opcode.isControlTransfer = true) (stop_eq : stop = index + 1)
      (at_index : slots[index]? = some slot) (item : slot.item = .code i)
      (fall : block.fallThrough = none) (pending : exits = exitsAt k index i)
  | falls {slot : Slot} {t : BlockId} (plain : ∀ i, block.code.getLast? = some i →
        i.opcode.isControlTransfer = false) (at_stop : slots[stop]? = some slot)
      (stops : slot.isLabelled = true ∨ slot.item = .finish) (fall : block.fallThrough = some t)
      (started : (stop, t) ∈ starts) (pending : exits = [])
  | rejoins {slot : Slot} (plain : ∀ i, block.code.getLast? = some i →
        i.opcode.isControlTransfer = false) (at_stop : slots[stop]? = some slot)
      (stops : slot.isLabelled = true) (fall : block.fallThrough = none)
      (pending : exits = [⟨k, .fallThrough, .slot stop⟩])
  /-- There is nothing to run behind it. -/
  | runsOut (plain : ∀ i, block.code.getLast? = some i → i.opcode.isControlTransfer = false)
      (nothing : block.code = [] ∨
        ∀ slot, slots[stop]? = some slot → slot.isLabelled = false ∧ slot.isCode = false)
      (fall : block.fallThrough = none) (pending : exits = [])

theorem Ending.mono {starts more : List (Nat × BlockId)} {block block' : Block}
    (h : Ending slots starts k block exits stop) (hmore : ∀ s ∈ starts, s ∈ more)
    (hcode : block'.code = block.code) (hfall : block'.fallThrough = block.fallThrough) :
    Ending slots more k block' exits stop := by
  cases h with
  | transfer last transfers stop_eq at_index item fall pending =>
    exact .transfer (hcode ▸ last) transfers stop_eq at_index item (hfall.trans fall) pending
  | falls plain at_stop stops fall started pending =>
    exact .falls (hcode ▸ plain) at_stop stops (hfall.trans fall) (hmore _ started) pending
  | rejoins plain at_stop stops fall pending =>
    exact .rejoins (hcode ▸ plain) at_stop stops (hfall.trans fall) pending
  | runsOut plain nothing fall pending =>
    exact .runsOut (hcode ▸ plain) (hcode ▸ nothing) (hfall.trans fall) pending

/-- A block that the next slot can continue. -/
structure Open (block : Block) (exits : List PendingExit) : Prop where
  plain : ∀ i, block.code.getLast? = some i → i.opcode.isControlTransfer = false
  fall : block.fallThrough = none
  pending : exits = []

structure Piece (p : Program) (slots : List Slot) (block : Block) (start stop : Nat) : Prop where
  at_start : ∃ slot, slots[start]? = some slot ∧ block.offset = slot.offset ∧
    block.label = slot.labels.head?
  covers : Covers p slots start block.code stop
  /-- Control is transferred at the end only. -/
  straight : ∀ i ∈ block.code.dropLast, i.opcode.isControlTransfer = false
  branch : block.branch = none
  calls : block.calls = []

/-- The blocks of a graph under construction. `w` is the open block, if there is one, with the slot
that it has reached. -/
structure Pieces (p : Program) (slots : List Slot) (w : Option (BlockId × Nat)) (b : Build) :
    Prop where
  ids : b.starts.map (·.2) = List.range b.graph.size
  working : ∀ k n, w = some (k, n) → k < b.graph.size
  opened : ∀ k n, w = some (k, n) → ∀ m, (m, k) ∈ b.starts →
    Piece p slots (b.graph.block k) m n ∧ Open (b.graph.block k) (b.exitsOf k)
  finished : ∀ m k, (m, k) ∈ b.starts → (∀ n, w ≠ some (k, n)) →
    ∃ stop, Piece p slots (b.graph.block k) m stop ∧
      Ending slots b.starts k (b.graph.block k) (b.exitsOf k) stop
  exit_source : ∀ e ∈ b.exits, e.source < b.graph.size
  call : ∀ c ∈ b.calls, c.source < b.graph.size ∧ ∃ i, (b.graph.block c.source).code[c.index]? =
    some i ∧ i.opcode = .jsr ∧ i.jumpTarget? = some c.target
  label : ∀ label k, (label, k) ∈ b.graph.labels →
    ∃ m slot, (m, k) ∈ b.starts ∧ slots[m]? = some slot ∧ label ∈ slot.labels
  entry : ∀ k, b.graph.entry = some k → k < b.graph.size

theorem Pieces.empty : Pieces p slots none {} where
  ids := rfl
  working := by simp
  opened := by simp
  finished := by simp
  exit_source := by simp
  call := by simp
  label := by simp
  entry := by simp

theorem Pieces.congr {w : Option (BlockId × Nat)} {c : Build} (h : Pieces p slots w b)
    (hgraph : c.graph = b.graph) (hstarts : c.starts = b.starts) (hexits : c.exits = b.exits)
    (hcalls : c.calls = b.calls) : Pieces p slots w c := by
  obtain ⟨graph, starts, current, exits, calls, journal⟩ := c
  simp only at hgraph hstarts hexits hcalls
  subst hgraph hstarts hexits hcalls
  exact ⟨h.ids, h.working, h.opened, h.finished, h.exit_source, h.call, h.label, h.entry⟩

variable {w : Option (BlockId × Nat)} {label : String}

theorem Pieces.lt_of_mem (h : Pieces p slots w b) (hm : (m, k) ∈ b.starts) : k < b.graph.size := by
  have hmem : k ∈ b.starts.map (·.2) := List.mem_map.2 ⟨(m, k), hm, rfl⟩
  rw [h.ids] at hmem
  exact List.mem_range.1 hmem

theorem Pieces.exists_start (h : Pieces p slots w b) (hk : k < b.graph.size) :
    ∃ m, (m, k) ∈ b.starts := by
  have hmem : k ∈ b.starts.map (·.2) := by
    rw [h.ids]
    exact List.mem_range.2 hk
  obtain ⟨⟨m, k'⟩, hm, rfl⟩ := List.mem_map.1 hmem
  exact ⟨m, hm⟩

theorem exitsOf_append_of_ne (hexits : ∀ e ∈ exits, e.source = k) {j : BlockId} (hj : j ≠ k) :
    exitsOf { b with exits := b.exits ++ exits } j = b.exitsOf j := by
  have hnil : exits.filter (·.source = j) = [] := by
    refine List.filter_eq_nil_iff.2 fun e he => ?_
    rw [hexits e he]
    simpa using hj.symm
  rw [exitsOf, List.filter_append, hnil, List.append_nil, exitsOf]

theorem getLast?_concat_eq {j : Instruction} (h : (code ++ [i]).getLast? = some j) : j = i := by
  rw [List.getLast?_concat] at h
  exact (Option.some.inj h).symm

theorem hidingBit?_opcode {below : List Slot} {bit hidden : Instruction}
    (h : hidingBit? p bytes below = some (bit, hidden, label)) : bit.opcode = .bit := by
  unfold hidingBit? at h
  split at h
  · split at h
    · cases h
      rfl
    · cases h
      rfl
    · cases h
  · cases h

structure AddsInstruction (f : Block → Block) (i : Instruction) : Prop where
  code : ∀ block, (f block).code = block.code ++ [i]
  rest : ∀ block, (f block).offset = block.offset ∧ (f block).label = block.label ∧
    (f block).branch = block.branch ∧ (f block).calls = block.calls ∧
    (f block).fallThrough = block.fallThrough

section

variable (h : Pieces p slots (some (k, n)) b)

include h

theorem Pieces.isOpen : Open (b.graph.block k) (b.exitsOf k) := by
  obtain ⟨m, hm⟩ := h.exists_start (h.working k n rfl)
  exact (h.opened k n rfl m hm).2

theorem Pieces.exitsOf_append_self (hexits : ∀ e ∈ exits, e.source = k) :
    exitsOf { b with exits := b.exits ++ exits } k = exits := by
  have hall : exits.filter (·.source = k) = exits :=
    List.filter_eq_self.2 fun e he => decide_eq_true (hexits e he)
  have hpending : b.exits.filter (·.source = k) = [] := h.isOpen.pending
  rw [exitsOf, List.filter_append, hpending, hall, List.nil_append]

theorem Pieces.finish (hexits : ∀ e ∈ exits, e.source = k)
    (hend : Ending slots b.starts k (b.graph.block k) exits n) :
    Pieces p slots none { b with exits := b.exits ++ exits } := by
  refine ⟨h.ids, by simp, by simp, ?_, ?_, h.call, h.label, h.entry⟩
  · intro m j hm _
    by_cases hjk : j = k
    · subst hjk
      rw [h.exitsOf_append_self hexits]
      exact ⟨n, (h.opened j n rfl m hm).1, hend⟩
    · rw [exitsOf_append_of_ne hexits hjk]
      exact h.finished m j hm fun n' heq => hjk (by cases heq; rfl)
  · intro e he
    rcases List.mem_append.1 he with he | he
    · exact h.exit_source e he
    · rw [hexits e he]
      exact h.working k n rfl

theorem Pieces.close
    (hnothing : (b.graph.block k).code = [] ∨ ∀ slot, slots[n]? = some slot → slot.isLabelled =
      false ∧ slot.isCode = false) : Pieces p slots none b := by
  have hclosed := h.finish (fun e he => absurd he List.not_mem_nil)
    (.runsOut h.isOpen.plain hnothing h.isOpen.fall rfl)
  exact hclosed.congr rfl rfl (List.append_nil _).symm rfl

/-- The open block covers one instruction more. It stays open or ends there; no other
block changes. -/
theorem Pieces.extend {f : Block → Block} (hf : AddsInstruction f i)
    (hcovers : Covers p slots n [i] stop) (hexits : ∀ e ∈ exits, e.source = k)
    {calls : List PendingCall}
    (hcalls : calls = [] ∨ calls = callsAt k (b.graph.block k).code.length i)
    (hw : w = some (k, stop) ∧ Open (f (b.graph.block k)) exits ∨ w = none ∧
      Ending slots b.starts k (f (b.graph.block k)) exits stop) :
    Pieces p slots w { b with graph := b.graph.modify k f, exits := b.exits ++ exits,
                              calls := b.calls ++ calls } := by
  have hk := h.working k n rfl
  have hself : (b.graph.modify k f).block k = f (b.graph.block k) := block_modify_self f hk
  have hother : ∀ j, j ≠ k → (b.graph.modify k f).block j = b.graph.block j :=
    fun j hj => block_modify_of_ne f (Ne.symm hj)
  have hpiece : ∀ m, (m, k) ∈ b.starts → Piece p slots (f (b.graph.block k)) m stop := by
    intro m hm
    obtain ⟨hold, hwas⟩ := h.opened k n rfl m hm
    obtain ⟨hoffset, hlabel, hbranch, hcallsEq, -⟩ := hf.rest (b.graph.block k)
    refine ⟨?_, ?_, ?_, hbranch.trans hold.branch, hcallsEq.trans hold.calls⟩
    · rw [hoffset, hlabel]
      exact hold.at_start
    · rw [hf.code]
      exact hold.covers.append hcovers
    · rw [hf.code, List.dropLast_concat]
      intro j hj
      by_cases hlast : some j = (b.graph.block k).code.getLast?
      · exact hwas.plain j hlast.symm
      · exact hold.straight j (List.mem_dropLast_of_mem_of_ne_getLast? hj hlast)
  refine ⟨?_, ?_, ?_, ?_, ?_, ?_, ?_, ?_⟩
  · rw [size_modify]
    exact h.ids
  · intro j n' hj
    rw [size_modify]
    rcases hw with ⟨rfl, -⟩ | ⟨rfl, -⟩ <;> cases hj
    exact hk
  · intro j n' hj m hm
    rcases hw with ⟨rfl, hopen⟩ | ⟨rfl, -⟩ <;> cases hj
    -- The pending exits of the open block are the new ones.
    rw [← h.exitsOf_append_self hexits] at hopen
    rw [hself]
    exact ⟨hpiece m hm, hopen⟩
  · intro m j hm hj
    by_cases hjk : j = k
    · subst hjk
      have hend := (hw.resolve_left fun hopen => hj stop hopen.1).2
      rw [← h.exitsOf_append_self hexits] at hend
      rw [hself]
      exact ⟨stop, hpiece m hm, hend⟩
    · have hold := h.finished m j hm fun n' heq => hjk (by cases heq; rfl)
      rw [← exitsOf_append_of_ne hexits hjk] at hold
      rw [hother j hjk]
      exact hold
  · intro e he
    rw [size_modify]
    rcases List.mem_append.1 he with he | he
    · exact h.exit_source e he
    · rw [hexits e he]
      exact hk
  · intro c hc
    rw [size_modify]
    rcases List.mem_append.1 hc with hc | hc
    · obtain ⟨hsource, j, hj, hjsr, htarget⟩ := h.call c hc
      refine ⟨hsource, j, ?_, hjsr, htarget⟩
      by_cases hck : c.source = k
      · rw [hck, hself, hf.code]
        rw [hck] at hj
        rw [List.getElem?_append_left (List.getElem?_eq_some_iff.1 hj).1]
        exact hj
      · rw [hother _ hck]
        exact hj
    · rcases hcalls with hcalls | hcalls
      · rw [hcalls] at hc
        exact absurd hc List.not_mem_nil
      · rw [hcalls, callsAt] at hc
        split at hc
        · next hjsr =>
          obtain ⟨t, ht, rfl⟩ := List.mem_map.1 hc
          refine ⟨hk, i, ?_, hjsr, Option.mem_toList.1 ht⟩
          simp only [hself, hf.code, List.getElem?_concat_length]
        · exact absurd hc List.not_mem_nil
  · exact h.label
  · intro j hj
    rw [size_modify]
    exact h.entry j hj

theorem Pieces.append (hslot : slots[n]? = some slot) (hitem : slot.item = .code i) :
    Pieces p slots (if i.opcode.isControlTransfer then none else some (k, n + 1))
      (b.append k n i) := by
  rw [append_eq]
  have hf : AddsInstruction (fun block => { block with code := block.code ++ [i] }) i :=
    ⟨fun _ => rfl, fun _ => ⟨rfl, rfl, rfl, rfl, rfl⟩⟩
  refine h.extend hf (.code hslot hitem (.nil _)) (fun e he => source_of_mem_exitsAt he)
    (.inr rfl) ?_
  cases htransfer : i.opcode.isControlTransfer with
  | true =>
    exact .inr ⟨rfl, .transfer List.getLast?_concat htransfer rfl hslot hitem h.isOpen.fall rfl⟩
  | false =>
    refine .inl ⟨rfl, fun j hj => ?_, h.isOpen.fall, exitsAt_of_not_transfer htransfer k n⟩
    rw [getLast?_concat_eq hj]
    exact htransfer

theorem Pieces.bit {bit hidden : Instruction} (hslot : slots[n]? = some slot)
    (hitem : slot.item = .data bytes)
    (hhides : hidingBit? p bytes (slots.drop (n + 1)) = some (bit, hidden, label)) :
    Pieces p slots (some (k, n + 2)) { b with
      graph := b.graph.modify k fun block => { block with
        elisions := block.elisions ++ [⟨block.code.length, hidden, label⟩]
        code := block.code ++ [bit] } } := by
  have hf : AddsInstruction (fun block => { block with
      elisions := block.elisions ++ [⟨block.code.length, hidden, label⟩]
      code := block.code ++ [bit] }) bit := ⟨fun _ => rfl, fun _ => ⟨rfl, rfl, rfl, rfl, rfl⟩⟩
  have hstill : Open { b.graph.block k with
      elisions := (b.graph.block k).elisions ++ [⟨(b.graph.block k).code.length, hidden, label⟩]
      code := (b.graph.block k).code ++ [bit] } [] := by
    refine ⟨fun j hj => ?_, h.isOpen.fall, rfl⟩
    rw [getLast?_concat_eq hj, hidingBit?_opcode hhides]
    rfl
  have hextended := h.extend (w := some (k, n + 2)) hf (.bit hslot hitem hhides (.nil _))
    (fun e he => absurd he List.not_mem_nil) (.inl rfl) (.inl ⟨rfl, hstill⟩)
  exact hextended.congr rfl rfl (List.append_nil _).symm (List.append_nil _).symm

theorem Pieces.copyOn : Pieces p slots none (copyOn k n (slots.drop n) b) := by
  generalize hrest : slots.drop n = rest
  induction rest generalizing n b with
  | nil =>
    rw [Build.copyOn]
    refine h.close (.inr fun slot hslot => ?_)
    rw [List.drop_eq_nil_iff] at hrest
    rw [List.getElem?_eq_none hrest] at hslot
    cases hslot
  | cons slot rest ih =>
    obtain ⟨hslot, htail⟩ := slot_of_drop hrest
    rw [Build.copyOn]
    split
    · next hlabelled =>
      -- The copy rejoins the code at the label.
      exact h.finish (by simp) (.rejoins h.isOpen.plain hslot hlabelled h.isOpen.fall rfl)
    · next hlabelled =>
      split
      · next i hitem =>
        have happend := h.append hslot hitem
        by_cases htransfer : i.opcode.isControlTransfer = true
        · simp only [if_pos htransfer] at happend ⊢
          exact happend
        · simp only [if_neg htransfer] at happend ⊢
          exact ih happend htail
      · next hitem =>
        refine h.close (.inr fun slot' hslot' => ?_)
        cases hslot.symm.trans hslot'
        refine ⟨by simpa using hlabelled, ?_⟩
        unfold Slot.isCode
        split
        · next i hi => exact absurd hi (hitem i)
        · rfl

end

/-! ## Starting a block -/

def blockAt (slot : Slot) : Block := { label := slot.labels.head?, offset := slot.offset }

theorem mem_foldl_labels {labels : List String} {old : List (String × BlockId)} {id : BlockId}
    {x : String × BlockId} :
    x ∈ labels.foldl (fun known label => (label, id) :: known) old ↔
      (x.1 ∈ labels ∧ x.2 = id) ∨ x ∈ old := by
  induction labels generalizing old with
  | nil => simp
  | cons label rest ih =>
    rw [List.foldl_cons, ih, List.mem_cons, List.mem_cons, Prod.ext_iff]
    constructor
    · rintro (⟨hmem, hid⟩ | ⟨hlabel, hid⟩ | hold)
      · exact .inl ⟨.inr hmem, hid⟩
      · exact .inl ⟨.inl hlabel, hid⟩
      · exact .inr hold
    · rintro (⟨hlabel | hmem, hid⟩ | hold)
      · exact .inr (.inl ⟨hlabel, hid⟩)
      · exact .inl ⟨hmem, hid⟩
      · exact .inr (.inr hold)

structure Enters (b : Build) (n : Nat) (slot : Slot) (c : Build) : Prop where
  size : c.graph.size = b.graph.size + 1
  starts : c.starts = b.starts ++ [(n, b.graph.size)]
  exits : c.exits = b.exits
  calls : c.calls = b.calls
  labels : ∀ x, x ∈ c.graph.labels ↔ (x.1 ∈ slot.labels ∧ x.2 = b.graph.size) ∨ x ∈ b.graph.labels
  entry : ∀ k, c.graph.entry = some k → b.graph.entry = some k ∨ k = b.graph.size
  fresh : ∃ entered, c.graph.block b.graph.size = { blockAt slot with enteredFrom := entered }
  source : ∀ k, k < b.graph.size → b.current = some k → ∃ entered, c.graph.block k =
    { b.graph.block k with fallThrough := some b.graph.size, enteredFrom := entered }
  other : ∀ k, k < b.graph.size → b.current ≠ some k → ∃ entered, c.graph.block k =
    { b.graph.block k with enteredFrom := entered }

theorem enters_openBlock_fallInto (b : Build) (n : Nat) (slot : Slot)
    (hcurrent : ∀ k, b.current = some k → k < b.graph.size) :
    Enters b n slot ((b.openBlock n slot).2.fallInto b.graph.size) := by
  have hentry : ∀ k, b.graph.entry.or (if slot.isCode then some b.graph.size else none) = some k →
      b.graph.entry = some k ∨ k = b.graph.size := by
    intro k hk
    rcases Option.or_eq_some_iff.1 hk with hold | ⟨-, hnew⟩
    · exact .inl hold
    · split at hnew
      · exact .inr (Option.some.inj hnew).symm
      · cases hnew
  -- Blocks right after the new one was added.
  have hold : ∀ k, k < b.graph.size →
      (b.openBlock n slot).2.graph.block k = b.graph.block k :=
    fun k hk => block_push_of_lt (blockAt slot) hk
  have hnew : (b.openBlock n slot).2.graph.block b.graph.size = blockAt slot :=
    block_push_self (blockAt slot)
  have hsize : (b.openBlock n slot).2.graph.size = b.graph.size + 1 :=
    size_push (blockAt slot)
  unfold fallInto
  split
  · next k hk =>
    have hk' : b.current = some k := hk
    have hne : k ≠ b.graph.size := Nat.ne_of_lt (hcurrent k hk')
    refine ⟨?_, rfl, rfl, rfl, ?_, ?_, ?_, ?_, ?_⟩
    · exact (size_addEdge _).trans hsize
    · intro x
      rw [labels_addEdge]
      exact mem_foldl_labels
    · intro j hj
      rw [entry_addEdge] at hj
      exact hentry j hj
    · obtain ⟨entered, heq⟩ := exists_block_addEdge (b.openBlock n slot).2.graph k
        b.graph.size b.graph.size .fallThrough
      rw [block_modify_of_ne _ hne, hnew] at heq
      exact ⟨entered, heq⟩
    · intro j hj hcur
      cases hk'.symm.trans hcur
      obtain ⟨entered, heq⟩ := exists_block_addEdge (b.openBlock n slot).2.graph k
        b.graph.size k .fallThrough
      rw [block_modify_self _ (hsize ▸ Nat.lt_succ_of_lt hj), hold k hj] at heq
      exact ⟨entered, heq⟩
    · intro j hj hcur
      have hkj : k ≠ j := fun heq => hcur (heq ▸ hk')
      obtain ⟨entered, heq⟩ := exists_block_addEdge (b.openBlock n slot).2.graph k
        b.graph.size j .fallThrough
      rw [block_modify_of_ne _ hkj, hold j hj] at heq
      exact ⟨entered, heq⟩
  · next hnone =>
    refine ⟨hsize, rfl, rfl, rfl, fun x => mem_foldl_labels, hentry, ⟨∅, hnew⟩, ?_, ?_⟩
    · intro j _ hcur
      have hcur' : (b.openBlock n slot).2.current = some j := hcur
      rw [hnone] at hcur'
      cases hcur'
    · intro j hj _
      exact ⟨(b.graph.block j).enteredFrom, hold j hj⟩

theorem Pieces.enter (h : Pieces p slots (b.current.map (·, n)) b) (hslot : slots[n]? = some slot)
    (hstops : ∀ k, b.current = some k → slot.isLabelled = true ∨ slot.item = .finish) :
    Pieces p slots (some (b.graph.size, n)) ((b.openBlock n slot).2.fallInto b.graph.size) := by
  have hopen : ∀ k, b.current = some k → b.current.map (·, n) = some (k, n) := by
    intro k hk
    rw [hk]
    rfl
  have henter := enters_openBlock_fallInto b n slot fun k hk => h.working k n (hopen k hk)
  generalize (b.openBlock n slot).2.fallInto b.graph.size = c at henter
  have hmore : ∀ s ∈ b.starts, s ∈ c.starts := by
    intro s hs
    rw [henter.starts]
    exact List.mem_append_left _ hs
  have hexitsOf : ∀ k, c.exitsOf k = b.exitsOf k := fun k => by rw [exitsOf, exitsOf, henter.exits]
  -- A start of the new graph is an old one or the new one.
  have hstart : ∀ m k, (m, k) ∈ c.starts →
      ((m, k) ∈ b.starts ∧ k < b.graph.size) ∨ (m = n ∧ k = b.graph.size) := by
    intro m k hm
    rw [henter.starts, List.mem_append, List.mem_singleton, Prod.mk.injEq] at hm
    exact hm.imp_left fun hm => ⟨hm, h.lt_of_mem hm⟩
  refine ⟨?_, ?_, ?_, ?_, ?_, ?_, ?_, ?_⟩
  · rw [henter.starts, List.map_append, h.ids, henter.size, List.range_succ]
    rfl
  · intro k n' hk
    cases hk
    rw [henter.size]
    exact Nat.lt_succ_self _
  · intro k n' hk m hm
    cases hk
    rcases hstart m _ hm with ⟨-, hlt⟩ | ⟨rfl, -⟩
    · exact absurd hlt (Nat.lt_irrefl _)
    · obtain ⟨entered, heq⟩ := henter.fresh
      rw [heq, hexitsOf]
      have hnil : b.exitsOf b.graph.size = [] := by
        refine List.filter_eq_nil_iff.2 fun e he => ?_
        simpa using Nat.ne_of_lt (h.exit_source e he)
      exact ⟨⟨⟨slot, hslot, rfl, rfl⟩, .nil _, by simp [blockAt], rfl, rfl⟩,
        ⟨by simp [blockAt], rfl, hnil⟩⟩
  · intro m k hm hk
    rcases hstart m k hm with ⟨hold, hlt⟩ | ⟨-, rfl⟩
    · rw [hexitsOf]
      by_cases hcur : b.current = some k
      · -- The block that was open falls into the new one.
        obtain ⟨entered, heq⟩ := henter.source k hlt hcur
        obtain ⟨hpiece, hwas⟩ := h.opened k n (hopen k hcur) m hold
        rw [heq]
        refine ⟨n, { hpiece with }, .falls hwas.plain hslot (hstops k hcur) rfl ?_ hwas.pending⟩
        rw [henter.starts]
        exact List.mem_append_right _ (List.mem_singleton_self _)
      · obtain ⟨entered, heq⟩ := henter.other k hlt hcur
        obtain ⟨stop, hpiece, hending⟩ := h.finished m k hold fun n' hw => by
          rw [Option.map_eq_some_iff] at hw
          obtain ⟨k', hk', heq'⟩ := hw
          cases heq'
          exact hcur hk'
        rw [heq]
        exact ⟨stop, { hpiece with }, hending.mono hmore rfl rfl⟩
    · exact absurd rfl (hk n)
  · intro e he
    rw [henter.exits] at he
    rw [henter.size]
    exact Nat.lt_succ_of_lt (h.exit_source e he)
  · intro call hcall
    rw [henter.calls] at hcall
    obtain ⟨hsource, i, hi, hjsr, htarget⟩ := h.call call hcall
    rw [henter.size]
    refine ⟨Nat.lt_succ_of_lt hsource, i, ?_, hjsr, htarget⟩
    have hcode : (c.graph.block call.source).code = (b.graph.block call.source).code := by
      by_cases hcur : b.current = some call.source
      · obtain ⟨entered, heq⟩ := henter.source _ hsource hcur
        rw [heq]
      · obtain ⟨entered, heq⟩ := henter.other _ hsource hcur
        rw [heq]
    rw [hcode]
    exact hi
  · intro label k hlabel
    rcases (henter.labels (label, k)).1 hlabel with ⟨hmem, hk⟩ | hold
    · refine ⟨n, slot, ?_, hslot, hmem⟩
      rw [henter.starts, ← hk]
      exact List.mem_append_right _ (List.mem_singleton_self _)
    · obtain ⟨m, slot', hm, hslot', hmem⟩ := h.label label k hold
      exact ⟨m, slot', hmore _ hm, hslot', hmem⟩
  · intro k hk
    rw [henter.size]
    rcases henter.entry k hk with hold | rfl
    · exact Nat.lt_succ_of_lt (h.entry k hold)
    · exact Nat.lt_succ_self _

theorem Pieces.code_enter (h : Pieces p slots (b.current.map (·, n)) b) (slot : Slot) :
    (((b.openBlock n slot).2.fallInto b.graph.size).graph.block b.graph.size).code = [] := by
  have henter := enters_openBlock_fallInto b n slot fun k hk => h.working k n (by rw [hk]; rfl)
  obtain ⟨entered, heq⟩ := henter.fresh
  rw [heq]
  rfl

/-! ## Reading all slots -/

theorem Pieces.fallIntoData (h : Pieces p slots (some (k, n)) b)
    (hslot : slots[n]? = some slot) (hitem : slot.item = .data bytes)
    (hnothing : (b.graph.block k).code = [] ∨ slot.isLabelled = false) :
    Pieces p slots none (b.fallIntoData p k n slot bytes (slots.drop (n + 1))) := by
  unfold Build.fallIntoData
  split
  · have hclosed : Pieces p slots none b := by
      refine h.close (hnothing.imp_right fun hplain slot' hslot' => ?_)
      cases hslot.symm.trans hslot'
      exact ⟨hplain, by simp [Slot.isCode, hitem]⟩
    exact hclosed.congr rfl rfl rfl rfl
  · next bit hidden label hhides =>
    have hnoted : Pieces p slots (some (k, n))
        (b.note ("BIT-skip in block " ++ toString k ++ ": `" ++
        bit.text ++ "` hides `" ++ hidden.text ++ "`")) := h.congr rfl rfl rfl rfl
    rw [List.drop_drop]
    exact (hnoted.bit hslot hitem hhides).copyOn

/-- The block that takes what stands in a slot: the one that is open, or one that is
opened there. -/
inductive Takes (b : Build) (n : Nat) (slot : Slot) : BlockId → Build → Prop where
  | same {k : BlockId} (current : b.current = some k) (unlabelled : slot.isLabelled = false) :
      Takes b n slot k b
  | new (entered : b.current = none ∨ slot.isLabelled = true) :
      Takes b n slot b.graph.size ((b.openBlock n slot).2.fallInto b.graph.size)

inductive Adds (p : Program) (b : Build) (n : Nat) (slot : Slot) (below : List Slot) :
  Build → Prop where
  | code {i : Instruction} {k : BlockId} {d : Build} (item : slot.item = .code i)
      (takes : Takes b n slot k d) :
      Adds p b n slot below
        { d.append k n i with current := if i.opcode.isControlTransfer then none else some k }
  | data {bytes : List UInt8} {k : BlockId} {d : Build} (item : slot.item = .data bytes)
      (takes : Takes b n slot k d) :
      Adds p b n slot below { d.fallIntoData p k n slot bytes below with current := none }
  | skips {bytes : List UInt8} (item : slot.item = .data bytes) (idle : b.current = none) :
      Adds p b n slot below { b with current := none }
  | finish (item : slot.item = .finish) :
      Adds p b n slot below { (b.openBlock n slot).2.fallInto b.graph.size with current := none }

theorem adds_addSlot (p : Program) (b : Build) (n : Nat) (slot : Slot) (below : List Slot) :
    Adds p b n slot below (b.addSlot p n slot below) := by
  unfold Build.addSlot
  cases hitem : slot.item with
  | code i =>
    cases hcurrent : b.current with
    | none => exact .code hitem (.new (.inl hcurrent))
    | some k =>
      cases hlabelled : slot.isLabelled with
      | false => exact .code hitem (.same hcurrent hlabelled)
      | true => exact .code hitem (.new (.inr hlabelled))
  | data bytes =>
    cases hcurrent : b.current with
    | none =>
      cases hlabelled : slot.isLabelled with
      | false => exact .skips hitem hcurrent
      | true =>
        by_cases hhides : (hidingBit? p bytes below).isSome = true
        · simp only [if_pos hhides]
          -- Nothing falls into the block that is opened here.
          have hfall : (b.openBlock n slot).2.fallInto b.graph.size = (b.openBlock n slot).2 := by
            rw [fallInto, show (b.openBlock n slot).2.current = none from hcurrent]
          rw [← hfall]
          exact .data hitem (.new (.inl hcurrent))
        · simp only [if_neg hhides]
          exact .skips hitem hcurrent
    | some k =>
      cases hlabelled : slot.isLabelled with
      | false => exact .data hitem (.same hcurrent hlabelled)
      | true => exact .data hitem (.new (.inr hlabelled))
  | finish => exact .finish hitem

theorem Pieces.takes (h : Pieces p slots (b.current.map (·, n)) b) (hslot : slots[n]? = some slot)
    {d : Build} (htakes : Takes b n slot k d) :
    Pieces p slots (some (k, n)) d ∧ ((d.graph.block k).code = [] ∨ slot.isLabelled = false) := by
  cases htakes with
  | same current unlabelled =>
    rw [current] at h
    exact ⟨h, .inr unlabelled⟩
  | new entered =>
    refine ⟨h.enter hslot fun k hk => .inl (entered.resolve_left ?_), .inl (h.code_enter slot)⟩
    rw [hk]
    exact Option.some_ne_none k

theorem Pieces.addSlot (h : Pieces p slots (b.current.map (·, n)) b)
    (hslot : slots[n]? = some slot) :
    let c := b.addSlot p n slot (slots.drop (n + 1))
    Pieces p slots (c.current.map (·, n + 1)) c := by
  intro c
  have hadds : Adds p b n slot (slots.drop (n + 1)) c := adds_addSlot ..
  clear_value c
  cases hadds with
  | @code i k d item takes =>
    have happend := (h.takes hslot takes).1.append hslot item
    by_cases htransfer : i.opcode.isControlTransfer = true
    · simp only [if_pos htransfer] at happend ⊢
      exact happend.congr rfl rfl rfl rfl
    · simp only [if_neg htransfer] at happend ⊢
      exact happend.congr rfl rfl rfl rfl
  | data item takes =>
    obtain ⟨hopen, hnothing⟩ := h.takes hslot takes
    exact (hopen.fallIntoData hslot item hnothing).congr rfl rfl rfl rfl
  | skips _ idle =>
    rw [idle] at h
    exact h.congr rfl rfl rfl rfl
  | finish item =>
    have henter := h.enter hslot fun _ _ => .inr item
    exact (henter.close (.inl (h.code_enter slot))).congr rfl rfl rfl rfl

def read (p : Program) : Build := addSlots p 0 p.slots {}

theorem read_invariant (p : Program) {I : Nat → Build → Prop} (hempty : I 0 {})
    (hstep : ∀ n b slot, p.slots[n]? = some slot → I n b →
      I (n + 1) (b.addSlot p n slot (p.slots.drop (n + 1)))) : I p.slots.length (read p) := by
  have hrun : ∀ rest n b, p.slots.drop n = rest → n ≤ p.slots.length → I n b →
      I p.slots.length (addSlots p n rest b) := by
    intro rest
    induction rest with
    | nil =>
      intro n b hrest hn h
      have hlen := List.drop_eq_nil_iff.1 hrest
      have heq : n = p.slots.length := by omega
      exact heq ▸ h
    | cons slot rest ih =>
      intro n b hrest _ h
      obtain ⟨hslot, htail⟩ := slot_of_drop hrest
      have hnext := hstep n b slot hslot h
      rw [htail] at hnext
      exact ih (n + 1) _ htail (List.getElem?_eq_some_iff.1 hslot).1 hnext
  exact hrun p.slots 0 {} List.drop_zero (Nat.zero_le _) hempty

theorem pieces_read (p : Program) : Pieces p p.slots none (read p) := by
  have hpieces : Pieces p p.slots ((read p).current.map (·, p.slots.length)) (read p) :=
    read_invariant p (I := fun n b => Pieces p p.slots (b.current.map (·, n)) b) Pieces.empty
      fun n b slot hslot h => h.addSlot hslot
  cases hcurrent : (read p).current with
  | none =>
    rw [hcurrent] at hpieces
    exact hpieces
  | some k =>
    -- The last block is still open, but there are no slots left.
    rw [hcurrent] at hpieces
    refine Pieces.close hpieces (.inr fun slot hslot => ?_)
    rw [List.getElem?_eq_none (Nat.le_refl _)] at hslot
    cases hslot

end Build

end Lift6502
