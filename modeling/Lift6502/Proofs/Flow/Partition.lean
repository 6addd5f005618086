import Lift6502.Proofs.Flow.Agreement
import Lift6502.Proofs.Flow.Disassembly

/-!
# Blocks share out the code

The own instructions of the blocks are those of the program, each of them once and in order. Only a
block that runs into a byte of data which hides an instruction has more.
-/

namespace Lift6502

open Slot

def Block.ownCode (block : Block) : List Instruction :=
  match block.elisions with
  | [] => block.code
  | e :: _ => block.code.take e.index

/-- The instructions that run one after the other from a line on: up to the first transfer
of control, which is one of them, or up to the first label, the first data, or the end of
the program. -/
def runFrom : List Line → List Instruction
  | [] => []
  | line :: rest =>
    if line.labelOffset?.isSome then []
    else
      match line.kind with
      | .code i => i :: if i.opcode.isControlTransfer then [] else runFrom rest
      | .data _ => []
      | .empty | .constant .. => runFrom rest

/-- A line that neither runs nor takes up bytes. -/
def Line.isVoid (line : Line) : Bool :=
  match line.kind with
  | .empty | .constant .. => true
  | .code _ | .data _ => false

/-- A line of one byte, the opcode of a `BIT`, is run together with the instruction on another line,
whose bytes are the operand. -/
inductive RunsAsBit (p : Program) (data hidden : Line) : Instruction → Instruction → Prop where
  | absolute {i : Instruction} {low high : UInt8} (opcode : data.kind = .data [0x2c])
      (code : hidden.kind = .code i) (bytes : p.encode i hidden.offset = .ok [low, high]) :
      RunsAsBit p data hidden i
        ⟨.bit, .direct (.address (high.toUInt16 <<< 8 ||| low.toUInt16)) .absolute⟩
  | zeroPage {i : Instruction} {low : UInt8} (opcode : data.kind = .data [0x24])
      (code : hidden.kind = .code i) (bytes : p.encode i hidden.offset = .ok [low]) :
      RunsAsBit p data hidden i ⟨.bit, .direct (.address low.toUInt16) .zeroPage⟩

/-! ## Slots and lines -/

namespace Slot

def instruction? (slot : Slot) : Option Instruction :=
  match slot.item with
  | .code i => some i
  | .data _ | .finish => none

def run : List Slot → List Instruction
  | [] => []
  | slot :: rest =>
    if slot.isLabelled then []
    else
      match slot.item with
      | .code i => i :: if i.opcode.isControlTransfer then [] else run rest
      | .data _ | .finish => []

end Slot

theorem filterMap_instruction?_slotsOf (waiting : List String) (offset : UInt16)
    (lines : List Line) :
    (slotsOf waiting offset lines).filterMap instruction? =
      lines.filterMap Line.instruction? := by
  induction lines generalizing waiting offset with
  | nil =>
    rw [slotsOf]
    split <;> rfl
  | cons line rest ih =>
    rw [slotsOf, List.filterMap_cons]
    cases hkind : line.kind <;>
      simp only [Line.instruction?, hkind, List.filterMap_cons, instruction?, ih]

theorem run_slotsOf (waiting : List String) (offset : UInt16) (lines : List Line) :
    run (slotsOf waiting offset lines) = if waiting = [] then runFrom lines else [] := by
  induction lines generalizing waiting offset with
  | nil =>
    rw [slotsOf]
    by_cases hwaiting : waiting = [] <;> simp [run, isLabelled, runFrom, hwaiting]
  | cons line rest ih =>
    rw [slotsOf, runFrom]
    by_cases hwaiting : waiting = [] <;> by_cases hlabel : line.labelOffset? = none <;>
      cases hkind : line.kind <;>
      simp_all [run, isLabelled, Option.isSome_iff_ne_none]

/-- A slot with code or data stands on a line between others. -/
structure Slot.OnLine (slots : List Slot) (m : Nat) (slot : Slot) (front : List Line) (line : Line)
    (back : List Line) : Prop where
  offset : slot.offset = line.offset
  code : ∀ i, slot.item = .code i → line.kind = .code i
  data : ∀ bytes, slot.item = .data bytes → line.kind = .data bytes
  above : (slots.take m).filterMap instruction? = front.filterMap Line.instruction?
  below : slots.drop (m + 1) = slotsOf [] line.offset back
  first : m = 0 → ∀ l ∈ front, l.isVoid = true

variable {m : Nat}

theorem exists_onLine {waiting : List String} {offset : UInt16} {lines : List Line} {slot : Slot}
    (hslot : (slotsOf waiting offset lines)[m]? = some slot) (hitem : slot.item ≠ .finish) :
    ∃ front line back, lines = front ++ line :: back ∧
      Slot.OnLine (slotsOf waiting offset lines) m slot front line back := by
  induction lines generalizing waiting offset m with
  | nil =>
    rw [slotsOf] at hslot
    split at hslot
    · cases hslot
    · rw [List.mem_singleton.1 (List.mem_of_getElem? hslot)] at hitem
      exact absurd rfl hitem
  | cons line rest ih =>
    -- The slot of this line comes first; what is further down comes from the lines below.
    have hhere : ∀ item, (∀ i, item = .code i → line.kind = .code i) →
        (∀ bytes, item = .data bytes → line.kind = .data bytes) →
        line.instruction? = instruction? ⟨waiting ++ (line.labelOffset?.map (·.1)).toList,
          line.offset, item⟩ →
        slotsOf waiting offset (line :: rest) =
          ⟨waiting ++ (line.labelOffset?.map (·.1)).toList, line.offset, item⟩ :: slotsOf []
          line.offset rest →
        ∃ front l back, line :: rest = front ++ l :: back ∧
          Slot.OnLine (slotsOf waiting offset (line :: rest)) m slot front l back := by
      intro item hcode hdata hinstruction hslots
      rw [hslots] at hslot ⊢
      cases m with
      | zero =>
        cases hslot
        exact ⟨[], line, rest, rfl, rfl, hcode, hdata, rfl, rfl, fun _ l hl =>
          absurd hl List.not_mem_nil⟩
      | succ m =>
        obtain ⟨front, l, back, hlines, hline⟩ := ih hslot
        refine ⟨line :: front, l, back, by rw [hlines, List.cons_append], hline.offset, hline.code,
          hline.data, ?_, hline.below, fun h => absurd h (Nat.succ_ne_zero m)⟩
        rw [List.take_succ_cons, List.filterMap_cons, List.filterMap_cons, hline.above,
          hinstruction]
    have hpass : line.isVoid = true → line.instruction? = none →
        slotsOf waiting offset (line :: rest) =
          slotsOf (waiting ++ (line.labelOffset?.map (·.1)).toList) line.offset rest →
        ∃ front l back, line :: rest = front ++ l :: back ∧
          Slot.OnLine (slotsOf waiting offset (line :: rest)) m slot front l back := by
      intro hvoid hinstruction hslots
      rw [hslots] at hslot ⊢
      obtain ⟨front, l, back, hlines, hline⟩ := ih hslot
      refine ⟨line :: front, l, back, by rw [hlines, List.cons_append], hline.offset, hline.code,
        hline.data, ?_, hline.below, fun hm => List.forall_mem_cons.2 ⟨hvoid, hline.first hm⟩⟩
      rw [List.filterMap_cons, hinstruction, hline.above]
    cases hkind : line.kind with
    | code i =>
      refine hhere (.code i) (fun j hj => ?_) (fun bytes hbytes => ?_) ?_ ?_
      · cases hj
        exact hkind
      · cases hbytes
      · rw [Line.instruction?, hkind]
        rfl
      · rw [slotsOf, hkind]
    | data bytes =>
      refine hhere (.data bytes) (fun j hj => ?_) (fun other hother => ?_) ?_ ?_
      · cases hj
      · cases hother
        exact hkind
      · rw [Line.instruction?, hkind]
        rfl
      · rw [slotsOf, hkind]
    | empty => exact hpass (by rw [Line.isVoid, hkind]) (by rw [Line.instruction?, hkind]) (by
      rw [slotsOf, hkind])
    | constant => exact hpass (by rw [Line.isVoid, hkind]) (by rw [Line.instruction?, hkind]) (by
      rw [slotsOf, hkind])

/-! ## What is written into the blocks -/

abbrev Script := List Instruction × List Elision

def Script.own (script : Script) : List Instruction :=
  match script.2 with
  | [] => script.1
  | e :: _ => script.1.take e.index

def Block.script (block : Block) : Script := (block.code, block.elisions)

theorem Block.own_script (block : Block) : block.script.own = block.ownCode := rfl

def Graph.scripts (g : Graph) : List Script := g.blocks.toList.map Block.script

variable {last : Script}

namespace Graph

variable {g h : Graph} {k : Nat}

theorem length_scripts (g : Graph) : g.scripts.length = g.size := by
  rw [scripts, List.length_map, Array.length_toList]
  rfl

theorem getElem?_scripts (hk : k < g.size) : g.scripts[k]? = some (g.block k).script := by
  rw [scripts, List.getElem?_map, Array.getElem?_toList, getElem?_blocks hk]
  rfl

theorem scripts_eq (hsize : h.size = g.size)
    (hblocks : ∀ k : Nat, (h.block k).script = (g.block k).script) : h.scripts = g.scripts := by
  refine List.ext_getElem? fun k => ?_
  by_cases hk : k < g.size
  · rw [getElem?_scripts hk, getElem?_scripts (hsize ▸ hk), hblocks k]
  · rw [List.getElem?_eq_none (by rw [length_scripts]; omega),
      List.getElem?_eq_none (by rw [length_scripts]; omega)]

theorem scripts_push (block : Block) : (g.push block).scripts = g.scripts ++ [block.script] := by
  rw [scripts, push, Array.toList_push, List.map_append]
  rfl

theorem scripts_addEdge (s t : BlockId) (kind : ExitKind) :
    (g.addEdge s t kind).scripts = g.scripts := by
  refine scripts_eq (size_addEdge kind) fun k => ?_
  exact map_block_addEdge_of_frame Block.script (fun _ _ => rfl) fun block => by cases kind <;> rfl

theorem scripts_modify_last {front : List Script} (hg : g.scripts = front ++ [last])
    {f : Block → Block} {script : Script}
    (hf : ∀ block, block.script = last → (f block).script = script) :
    (g.modify front.length f).scripts = front ++ [script] := by
  have hsize : g.size = front.length + 1 := by rw [← length_scripts, hg, List.length_append]; rfl
  have hlast : (g.block front.length).script = last := by
    have hget := getElem?_scripts (g := g) (k := front.length) (by omega)
    rw [hg, List.getElem?_concat_length] at hget
    exact (Option.some.inj hget).symm
  have hlt : front.length < g.size := by omega
  refine List.ext_getElem? fun k => ?_
  rcases Nat.lt_trichotomy k front.length with hk | rfl | hk
  · rw [getElem?_scripts (by rw [size_modify]; omega), block_modify_of_ne f (Nat.ne_of_gt hk),
      ← getElem?_scripts (by omega), hg, List.getElem?_append_left hk, List.getElem?_append_left hk]
  · rw [getElem?_scripts (by rw [size_modify]; exact hlt), block_modify_self f hlt, hf _ hlast,
      List.getElem?_concat_length]
  · rw [List.getElem?_eq_none (by rw [length_scripts, size_modify]; omega),
      List.getElem?_eq_none (by rw [List.length_append, List.length_singleton]; omega)]

end Graph

variable {bytes : List UInt8} {label : String} {bit i : Instruction} {below : List Slot}

namespace Build

variable {p : Program} {slots : List Slot} {b : Build} {front : List Script}
  {code : List Instruction} {slot : Slot} {elisions : List Elision} {n : Nat}

theorem scripts_enter (b : Build) (n : Nat) (slot : Slot) (k : BlockId) :
    ((b.openBlock n slot).2.fallInto k).graph.scripts = b.graph.scripts ++ [([], [])] := by
  have hopen : (b.openBlock n slot).2.graph.scripts = b.graph.scripts ++ [([], [])] :=
    Graph.scripts_push (blockAt slot)
  unfold fallInto
  split
  · rw [Graph.scripts_addEdge, hopen]
  · exact hopen

theorem scripts_append (h : b.graph.scripts = front ++ [(code, elisions)]) (i : Instruction) :
    (b.append front.length n i).graph.scripts = front ++ [(code ++ [i], elisions)] := by
  rw [append_eq]
  refine Graph.scripts_modify_last h fun block hblock => ?_
  cases hblock
  rfl

theorem scripts_copyOn (h : b.graph.scripts = front ++ [(code, elisions)]) (rest : List Slot) :
    (copyOn front.length n rest b).graph.scripts = front ++
      [(code ++ run rest, elisions)] := by
  induction rest generalizing n code b with
  | nil => rw [copyOn, run, List.append_nil, h]
  | cons slot rest ih =>
    rw [copyOn, run]
    split
    · rw [List.append_nil]
      exact h
    · cases slot.item with
      | code i =>
        have hadded := scripts_append (n := n) h i
        by_cases htransfer : i.opcode.isControlTransfer = true
        · simp only [if_pos htransfer]
          exact hadded
        · simp only [if_neg htransfer]
          rw [ih hadded, List.append_assoc, List.singleton_append]
      | data bytes | finish =>
        rw [List.append_nil]
        exact h

theorem scripts_fallIntoData (h : b.graph.scripts = front ++ [(code, [])]) (slot : Slot)
    {bit hidden : Instruction} (hhides : hidingBit? p bytes below = some (bit, hidden, label)) :
    (b.fallIntoData p front.length n slot bytes below).graph.scripts =
      front ++ [(code ++ bit :: run (below.drop 1), [⟨code.length, hidden, label⟩])] := by
  unfold fallIntoData
  rw [hhides]
  have hcode : code ++ bit :: run (below.drop 1) = code ++ [bit] ++ run (below.drop 1) :=
    List.append_cons ..
  rw [hcode]
  refine scripts_copyOn (Graph.scripts_modify_last h fun block hblock => ?_) _
  obtain ⟨rfl, helisions⟩ := Prod.mk.inj hblock
  rw [Block.script, helisions]
  rfl

/-! ## Reading the slots -/

def codeAbove (slots : List Slot) (n : Nat) : List Instruction :=
  (slots.take n).filterMap instruction?

theorem codeAbove_succ (h : slots[n]? = some slot) :
    codeAbove slots (n + 1) = codeAbove slots n ++ slot.instruction?.toList := by
  rw [codeAbove, List.take_add_one, List.filterMap_append, h, ← codeAbove]
  rfl

/-- What a block holds that stands behind others: its own instructions only, or, behind these, a
`BIT` that hides the instruction at the next slot and what runs from the slot below on. -/
inductive Shared (p : Program) (slots : List Slot) (front : List Script) : Script → Prop where
  | plain (code : List Instruction) : Shared p slots front (code, [])
  | skips {m : Nat} {slot : Slot} {bytes : List UInt8} {code : List Instruction}
    {bit hidden : Instruction}
      {label : String} (at_slot : slots[m]? = some slot) (item : slot.item = .data bytes)
      (hides : hidingBit? p bytes (slots.drop (m + 1)) = some (bit, hidden, label))
      (above : front.flatMap Script.own ++ code = codeAbove slots m) :
      Shared p slots front (code ++ bit :: run (slots.drop (m + 2)),
        [⟨code.length, hidden, label⟩])

theorem Shared.own_skips (code : List Instruction) (bit hidden : Instruction)
    (rest : List Instruction) (label : String) :
    Script.own (code ++ bit :: rest, [⟨code.length, hidden, label⟩]) = code :=
  List.take_left

/-- The blocks share out the code of the first `n` slots. The open block is the last one and
hides nothing. -/
structure Shares (p : Program) (slots : List Slot) (n : Nat) (b : Build) : Prop where
  own : b.graph.scripts.flatMap Script.own = codeAbove slots n
  shared : ∀ front script back, b.graph.scripts = front ++ script :: back →
    Shared p slots front script
  opened : ∀ k, b.current = some k → ∃ front code, b.graph.scripts = front ++ [(code, [])] ∧
    front.length = k

theorem Shares.empty : Shares p slots 0 {} where
  own := rfl
  shared := by
    intro front script back h
    cases front <;> cases h
  opened := by simp

theorem Shares.of_concat
    (hshared : ∀ front' script back, front = front' ++ script :: back →
      Shared p slots front' script) (hlast : Shared p slots front last)
    (hown : front.flatMap Script.own ++ last.own = codeAbove slots n)
    (h : b.graph.scripts = front ++ [last])
    (hopen : ∀ k, b.current = some k → last.2 = [] ∧ front.length = k) : Shares p slots n b := by
  refine ⟨?_, fun front' script back heq => ?_, fun k hk => ?_⟩
  · rw [h, List.flatMap_append, List.flatMap_singleton, hown]
  · rw [h] at heq
    rcases List.eq_nil_or_concat back with rfl | ⟨back', x, rfl⟩
    · obtain ⟨rfl, hx⟩ := List.append_inj' heq rfl
      cases hx
      exact hlast
    · rw [List.concat_eq_append, ← List.cons_append, ← List.append_assoc] at heq
      exact hshared front' script back' (List.append_inj' heq rfl).1
  · obtain ⟨hplain, hlength⟩ := hopen k hk
    exact ⟨front, last.1, by rw [h, ← hplain], hlength⟩

theorem Shares.close (h : Shares p slots n b) (hcode : codeAbove slots m = codeAbove slots n)
    {c : Build} (hscripts : c.graph.scripts = b.graph.scripts) (hcurrent : c.current = none) :
    Shares p slots m c where
  own := by rw [hscripts, h.own, hcode]
  shared := by
    rw [hscripts]
    exact h.shared
  opened := by simp [hcurrent]

/-- The last block has hidden nothing yet, so that the next slot can be written to it. -/
structure Writable (p : Program) (slots : List Slot) (n : Nat) (front : List Script)
    (code : List Instruction) (b : Build) : Prop where
  scripts : b.graph.scripts = front ++ [(code, [])]
  own : front.flatMap Script.own ++ code = codeAbove slots n
  shared : ∀ front' script back, front = front' ++ script :: back → Shared p slots front' script

theorem Shares.writable_enter (h : Shares p slots n b) (slot : Slot) (k : BlockId) :
    Writable p slots n b.graph.scripts [] ((b.openBlock n slot).2.fallInto k) where
  scripts := scripts_enter b n slot k
  own := by rw [List.append_nil, h.own]
  shared := h.shared

theorem Shares.writable_current (h : Shares p slots n b) {k : BlockId} (hk : b.current = some k) :
    ∃ front code, front.length = k ∧ Writable p slots n front code b := by
  obtain ⟨front, code, hscripts, hlength⟩ := h.opened k hk
  refine ⟨front, code, hlength, hscripts, ?_, fun front' script back hfront => ?_⟩
  · rw [← h.own, hscripts, List.flatMap_append, List.flatMap_singleton]
    rfl
  · refine h.shared front' script (back ++ [(code, [])]) ?_
    rw [hscripts, hfront, List.append_assoc, List.cons_append]

theorem Writable.append (h : Writable p slots n front code b) {i : Instruction}
    (hslot : slots[n]? = some slot) (hitem : slot.item = .code i) {current : Option BlockId}
    (hcurrent : ∀ k, current = some k → k = front.length) :
    Shares p slots (n + 1) { b.append front.length n i with current } := by
  refine Shares.of_concat h.shared (.plain (code ++ [i])) ?_ (scripts_append h.scripts i)
    fun k hk => ⟨rfl, (hcurrent k hk).symm⟩
  have hinstruction : slot.instruction? = some i := by rw [instruction?, hitem]
  rw [codeAbove_succ hslot, hinstruction, ← h.own, List.append_assoc]
  rfl

theorem codeAbove_succ_of_plain (hslot : slots[n]? = some slot) (hitem : ∀ i, slot.item ≠ .code i) :
    codeAbove slots (n + 1) = codeAbove slots n := by
  have hnone : slot.instruction? = none := by
    unfold instruction?
    split
    · next i hi => exact absurd hi (hitem i)
    · rfl
    · rfl
  rw [codeAbove_succ hslot, hnone]
  exact List.append_nil _

theorem Writable.fallIntoData (h : Writable p slots n front code b)
    (hslot : slots[n]? = some slot) (hitem : slot.item = .data bytes) :
    Shares p slots (n + 1)
      { b.fallIntoData p front.length n slot bytes (slots.drop (n + 1)) with current := none } := by
  have hcode : codeAbove slots (n + 1) = codeAbove slots n :=
    codeAbove_succ_of_plain hslot (by simp [hitem])
  cases hhides : hidingBit? p bytes (slots.drop (n + 1)) with
  | none =>
    have hown : front.flatMap Script.own ++ Script.own (code, []) = codeAbove slots (n + 1) := by
      rw [hcode, ← h.own]
      rfl
    refine Shares.of_concat h.shared (.plain code) hown ?_ (by simp)
    unfold Build.fallIntoData
    rw [hhides]
    exact h.scripts
  | some found =>
    obtain ⟨bit, hidden, label⟩ := found
    have hscripts := scripts_fallIntoData (n := n) h.scripts slot hhides
    rw [List.drop_drop] at hscripts
    refine Shares.of_concat h.shared (.skips hslot hitem hhides h.own) ?_ hscripts (by simp)
    rw [Shared.own_skips, hcode, h.own]

theorem Shares.takes (h : Shares p slots n b) {k : BlockId} {d : Build}
    (htakes : Takes b n slot k d) :
    ∃ front code, front.length = k ∧ Writable p slots n front code d := by
  cases htakes with
  | same current => exact h.writable_current current
  | new => exact ⟨_, _, Graph.length_scripts _, h.writable_enter slot b.graph.size⟩

theorem Shares.addSlot (h : Shares p slots n b) (hslot : slots[n]? = some slot) :
    Shares p slots (n + 1) (b.addSlot p n slot (slots.drop (n + 1))) := by
  have hadds := adds_addSlot p b n slot (slots.drop (n + 1))
  generalize b.addSlot p n slot (slots.drop (n + 1)) = c at hadds ⊢
  cases hadds with
  | code item takes =>
    obtain ⟨front, code, rfl, hwritable⟩ := h.takes takes
    refine hwritable.append hslot item fun k hk => ?_
    split at hk <;> cases hk
    rfl
  | data item takes =>
    obtain ⟨front, code, rfl, hwritable⟩ := h.takes takes
    exact hwritable.fallIntoData hslot item
  | skips item _ => exact h.close (codeAbove_succ_of_plain hslot (by simp [item])) rfl rfl
  | finish item =>
    have henter := h.writable_enter slot b.graph.size
    refine Shares.of_concat henter.shared (.plain []) ?_ henter.scripts (by simp)
    rw [codeAbove_succ_of_plain hslot (by simp [item]), ← henter.own]
    rfl

theorem shares_read (p : Program) : Shares p p.slots p.slots.length (read p) :=
  read_invariant p Shares.empty fun _ _ _ hslot h => h.addSlot hslot

theorem scripts_ofProgram (p : Program) : (ofProgram p).graph.scripts = (read p).graph.scripts :=
  Graph.scripts_eq (sameBlocks_ofProgram p).size
    fun k => congrArg (·.2.2) ((sameBlocks_ofProgram p).contents k)

end Build

/-! ## The blocks of a program -/

/-- Block `k` of a graph runs into a line of data, which hides the instruction on the next line that
takes up bytes. -/
structure Graph.SkipsOver (g : Graph) (p : Program) (k : BlockId) (e : Elision) (bit : Instruction)
    (front : List Line) (data : Line) (gap : List Line) (hidden : Line) (after : List Line) :
    Prop where
  lines : p.lines = front ++ data :: (gap ++ hidden :: after)
  gap : ∀ line ∈ gap, line.isVoid = true
  runs : RunsAsBit p data hidden e.hidden bit
  /-- The blocks up to this one hold the code above the data. -/
  above : (g.blocks.toList.take (k + 1)).flatMap Block.ownCode = front.filterMap Line.instruction?
  index : e.index = (g.block k).ownCode.length
  code : (g.block k).code = (g.block k).ownCode ++ bit :: runFrom after

/-- The blocks of a graph share out the code of a program. -/
structure Graph.Partitions (g : Graph) (p : Program) : Prop where
  /-- Every instruction belongs to one block, and they stand in order. -/
  own : g.blocks.toList.flatMap Block.ownCode = p.lines.filterMap Line.instruction?
  /-- What is not a block's own is a `BIT` and a copy of what runs behind the
  instruction it hides. -/
  elisions : ∀ k, (g.block k).elisions = [] ∨ ∃ e bit front data gap hidden after,
    (g.block k).elisions = [e] ∧ g.SkipsOver p k e bit front data gap hidden after
  straight : ∀ k, ∀ i ∈ (g.block k).code.dropLast, i.opcode.isControlTransfer = false
  fall : ∀ k i, (g.block k).code.getLast? = some i → i.opcode.isUnconditionalTransfer = true →
    (g.block k).fallThrough = none
  branch : ∀ k t, (g.block k).branch = some t → ∃ i, (g.block k).code.getLast? = some i ∧
    (i.opcode.isConditionalBranch = true ∨ i.opcode = .jmp)

theorem Opcode.unconditional_cases (o : Opcode) (h : o.isUnconditionalTransfer = true) :
    o.isControlTransfer = true ∧ o.isConditionalBranch = false := by
  revert h
  cases o <;> decide

theorem exists_runsAsBit {p : Program} (h : hidingBit? p bytes below = some (bit, i, label)) :
    ∃ slot, below[0]? = some slot ∧ slot.item = .code i ∧ ∀ data hidden : Line,
      data.kind = .data bytes →
      hidden.kind = .code i → slot.offset = hidden.offset → RunsAsBit p data hidden i bit := by
  unfold hidingBit? at h
  split at h
  · next width label' labels offset i' rest hwidth =>
    refine ⟨⟨label' :: labels, offset, .code i'⟩, rfl, ?_⟩
    split at h
    · next low hencode =>
      cases h
      refine ⟨rfl, fun data hidden hdata hhidden hoffset => ?_⟩
      rw [bytes_of_bitWidth? hwidth] at hdata
      subst hoffset
      exact .zeroPage hdata hhidden hencode
    · next low high hencode =>
      cases h
      refine ⟨rfl, fun data hidden hdata hhidden hoffset => ?_⟩
      rw [bytes_of_bitWidth? hwidth] at hdata
      subst hoffset
      exact .absolute hdata hhidden hencode
    · cases h
  · cases h

namespace Build

variable {p : Program} {k : BlockId}

theorem flatMap_ownCode (g : Graph) :
    g.blocks.toList.flatMap Block.ownCode = g.scripts.flatMap Script.own := by
  rw [Graph.scripts, List.flatMap_map]
  rfl

theorem flatMap_take_ownCode (g : Graph) (n : Nat) :
    (g.blocks.toList.take n).flatMap Block.ownCode = (g.scripts.take n).flatMap Script.own := by
  rw [Graph.scripts, ← List.map_take, List.flatMap_map]
  rfl

theorem exists_skipped_lines {slot : Slot}
    (hslot : p.slots[m]? = some slot) (hitem : slot.item = .data bytes)
    (hhides : hidingBit? p bytes (p.slots.drop (m + 1)) = some (bit, i, label)) :
    ∃ front data gap hidden after, p.lines = front ++ data :: (gap ++ hidden :: after) ∧
      (∀ line ∈ gap, line.isVoid = true) ∧ RunsAsBit p data hidden i bit ∧
      codeAbove p.slots m = front.filterMap Line.instruction? ∧
      run (p.slots.drop (m + 2)) = runFrom after := by
  obtain ⟨front, data, back, hlines, hdata⟩ := exists_onLine hslot (by simp [hitem])
  obtain ⟨below, hbelow, hcode, hruns⟩ := exists_runsAsBit hhides
  have hdrop : p.slots.drop (m + 1) = slotsOf [] data.offset back := hdata.below
  rw [hdrop] at hbelow
  obtain ⟨gap, hidden, after, hback, hhidden⟩ := exists_onLine hbelow (by simp [hcode])
  refine ⟨front, data, gap, hidden, after, by rw [hlines, hback], hhidden.first rfl,
    hruns data hidden (hdata.data bytes hitem) (hhidden.code i hcode) hhidden.offset,
      hdata.above, ?_⟩
  have hafter : p.slots.drop (m + 2) = slotsOf [] hidden.offset after := by
    rw [← hhidden.below, ← hdrop, List.drop_drop]
  rw [hafter, run_slotsOf, if_pos rfl]

theorem skipsOver_ofProgram (hk : k < (ofProgram p).graph.size) :
    ((ofProgram p).graph.block k).elisions = [] ∨ ∃ e bit front data gap hidden after,
      ((ofProgram p).graph.block k).elisions = [e] ∧
        (ofProgram p).graph.SkipsOver p k e bit front data gap hidden after := by
  generalize hg : (ofProgram p).graph = g at hk ⊢
  have hget : g.scripts[k]? = some (g.block k).script := Graph.getElem?_scripts hk
  have hsplit : g.scripts = g.scripts.take k ++ (g.block k).script :: g.scripts.drop (k + 1) := by
    obtain ⟨hlt, hget⟩ := List.getElem?_eq_some_iff.1 hget
    rw [← hget, List.getElem_cons_drop, List.take_append_drop]
  have hscripts : (read p).graph.scripts = g.scripts := by rw [← hg, scripts_ofProgram]
  have hshared := (shares_read p).shared _ _ _ (hscripts.trans hsplit)
  generalize hscript : (g.block k).script = script at hshared
  cases hshared with
  | plain code => exact .inl (congrArg (·.2) hscript)
  | @skips m slot bytes code bit i label at_slot item hides above =>
    obtain ⟨front, data, gap, hidden, after, hlines, hgap, hruns, hfront, hafter⟩ :=
      exists_skipped_lines at_slot item hides
    have hown : (g.block k).ownCode = code := by
      rw [← Block.own_script, hscript, Shared.own_skips]
    refine .inr ⟨_, bit, front, data, gap, hidden, after, congrArg (·.2) hscript, hlines, hgap,
      hruns, ?_, ?_, ?_⟩
    · rw [flatMap_take_ownCode, List.take_add_one, hget, List.flatMap_append, Option.toList_some,
        List.flatMap_singleton, Block.own_script, hown, above, hfront]
    · rw [hown]
    · rw [hown, ← hafter]
      exact congrArg (·.1) hscript

theorem partitions_ofProgram (p : Program) : (ofProgram p).graph.Partitions p where
  own := by
    rw [flatMap_ownCode, scripts_ofProgram, (shares_read p).own, codeAbove, List.take_length]
    exact filterMap_instruction?_slotsOf [] 0 p.lines
  elisions := by
    intro k
    by_cases hk : k < (ofProgram p).graph.size
    · exact skipsOver_ofProgram hk
    · rw [Graph.block_eq_default hk]
      exact .inl rfl
  straight := by
    intro k i hi
    have hmem := List.mem_of_mem_dropLast hi
    obtain ⟨m, stop, -, hpiece, -⟩ := exists_piece (lt_size_of_code hmem)
    rw [code_ofProgram] at hi
    exact hpiece.straight i hi
  fall := by
    intro k i hlast huncond
    obtain ⟨htransfer, hcond⟩ := i.opcode.unconditional_cases huncond
    by_contra hfall
    rw [isConditionalBranch_of_fallThrough hlast htransfer
      (Option.isSome_iff_ne_none.2 hfall)] at hcond
    cases hcond
  branch := by
    intro k t hbranch
    obtain ⟨i, hlast, htransfer, htarget⟩ := exists_last_of_branch hbranch
    obtain ⟨target, htarget⟩ := Option.isSome_iff_exists.1 htarget
    exact ⟨i, hlast, jumps_of_transfer htransfer htarget⟩

end Build

/-- The blocks of a program share out its code: every instruction is one block's own, in order; a
block with more has run into data that hides an instruction; and only the last instruction of a
block transfers control. -/
theorem blocks_partition_code (p : Program) :
    ∃ g, (Graph.ofProgram p).1 = .ok g ∧ g.Partitions p := by
  refine ⟨(Build.ofProgram p).graph, ?_, Build.partitions_ofProgram p⟩
  unfold Graph.ofProgram
  simp only [Graph.verify_eq_ok_iff.2 (Build.agrees_ofProgram p)]

end Lift6502
