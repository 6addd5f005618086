import Lift6502.Asm.Image
import Lift6502.Flow.Graph
import Lift6502.Journal

/-!
# Splitting a program into blocks

A block starts at every label, after every transfer of control, and after data. Exits lead to blocks
once all blocks are known.

A data line that holds just the opcode of `BIT`, before a labelled instruction that is as long as
the operand, gives two ways through the same bytes. Control that falls into the data runs a `BIT`
whose operand is the hidden instruction; a jump to the label runs the instruction itself. The first
way gets its own copy of the code after the hidden instruction, up to the next label or transfer.
-/

namespace Lift6502

inductive SlotItem where
  | code (instruction : Instruction)
  | data (bytes : List UInt8)
  /-- The end of the program, where labels can stand. -/
  | finish
  deriving DecidableEq, Repr, Inhabited

structure Slot where
  labels : List String
  offset : UInt16
  item : SlotItem
  deriving DecidableEq, Repr, Inhabited

namespace Slot

def isCode (s : Slot) : Bool :=
  match s.item with
  | .code _ => true
  | _ => false

def isLabelled (s : Slot) : Bool := !s.labels.isEmpty

end Slot

/-- The slots of some lines, with the labels that wait for a slot and the offset reached. -/
def slotsOf (waiting : List String) (offset : UInt16) : List Line → List Slot
  | [] => if waiting.isEmpty then [] else [{ labels := waiting, offset, item := .finish }]
  | line :: rest =>
    let labels := waiting ++ (line.labelOffset?.map (·.1)).toList
    match line.kind with
    | .code i => { labels, offset := line.offset, item := .code i } :: slotsOf [] line.offset rest
    | .data bytes =>
      { labels, offset := line.offset, item := .data bytes } :: slotsOf [] line.offset rest
    | .empty | .constant .. => slotsOf labels line.offset rest

def Program.slots (p : Program) : List Slot := slotsOf [] 0 p.lines

/-- Where an exit leads, before the blocks are known. -/
inductive Destination where
  | slot (index : Nat)
  | target (target : Target)
  deriving DecidableEq, Repr

structure PendingExit where
  source : BlockId
  kind : ExitKind
  destination : Destination
  deriving DecidableEq, Repr

structure PendingCall where
  source : BlockId
  index : Nat
  target : Target
  deriving DecidableEq, Repr

def ExitKind.text : ExitKind → String
  | .fallThrough => "FallThrough"
  | .branch => "Branch"

def Destination.text : Destination → String
  | .slot index => "Slot(" ++ toString index ++ ")"
  | .target t =>
    let base := match t.base with
      | .address value => "Address(" ++ toString value.toNat ++ ")"
      | .symbol name => "Symbol(" ++ Text.quoted name ++ ")"
    "Target(Target \x7b base: " ++ base ++ ", offset: " ++ toString t.offset.toInt ++ " \x7d)"

structure Build where
  graph : Graph := {}
  starts : List (Nat × BlockId) := []
  /-- The block that the next slot continues or is entered from. -/
  current : Option BlockId := none
  exits : List PendingExit := []
  calls : List PendingCall := []
  journal : Journal := []
  deriving Repr

/-- The opcode byte and the width of the `BIT` that a data line holds. -/
def bitWidth? : List UInt8 → Option Width
  | [0x2c] => some .absolute
  | [0x24] => some .zeroPage
  | _ => none

def hidingBit? (p : Program) (bytes : List UInt8) (below : List Slot) :
    Option (Instruction × Instruction × String) :=
  match bitWidth? bytes, below with
  | some width, { labels := label :: _, offset, item := .code hidden } :: _ =>
    match width, p.encode hidden offset with
    | .zeroPage, .ok [low] =>
      some (⟨.bit, .direct (.address low.toUInt16) .zeroPage⟩, hidden, label)
    | .absolute, .ok [low, high] =>
      some (⟨.bit, .direct (.address (high.toUInt16 <<< 8 ||| low.toUInt16)) .absolute⟩,
        hidden, label)
    | _, _ => none
  | _, _ => none

namespace Build

def note (b : Build) (message : String) : Build :=
  { b with journal := b.journal ++ [.debug ("[blocks] " ++ message)] }

/-- Opens a block at a slot; the first one that starts with code is the entry of the graph. -/
def openBlock (b : Build) (index : Nat) (slot : Slot) : BlockId × Build :=
  let id := b.graph.size
  let graph := b.graph.push { label := slot.labels.head?, offset := slot.offset }
  let graph := { graph with
    labels := slot.labels.foldl (fun labels label => (label, id) :: labels) graph.labels
    entry := graph.entry.or (if slot.isCode then some id else none) }
  (id, { b with graph, starts := b.starts ++ [(index, id)] })

def addExit (b : Build) (source : BlockId) (kind : ExitKind) (destination : Destination) : Build :=
  { b with exits := b.exits ++ [{ source, kind, destination }] }

def fallInto (b : Build) (id : BlockId) : Build :=
  match b.current with
  | some source => { b with graph := b.graph.addEdge source id .fallThrough }
  | none => b

/-- Appends the instruction of a slot to a block, with the exits it implies: the target of a
transfer, and the slot below for a conditional branch. -/
def append (b : Build) (block : BlockId) (index : Nat) (i : Instruction) : Build :=
  let b : Build := match i.jumpTarget? with
    | some target =>
      if i.opcode = .jsr then
        let position := (b.graph.block block).code.length
        { b with calls := b.calls ++ [{ source := block, index := position, target }] }
      else b.addExit block .branch (.target target)
    | none => b
  let b := if i.opcode.isConditionalBranch then b.addExit block .fallThrough (.slot (index + 1)) else b
  { b with graph := b.graph.modify block fun block => { block with code := block.code ++ [i] } }

/-- Copies slots to a block up to the next label, data or transfer. -/
def copyOn (block : BlockId) : Nat → List Slot → Build → Build
  | _, [], b => b
  | index, slot :: rest, b =>
    if slot.isLabelled then b.addExit block .fallThrough (.slot index)
    else
      match slot.item with
      | .code i =>
        let b := b.append block index i
        if i.opcode.isControlTransfer then b else copyOn block (index + 1) rest b
      | _ => b

def fallIntoData (b : Build) (p : Program) (block : BlockId) (index : Nat) (slot : Slot)
    (bytes : List UInt8) (below : List Slot) : Build :=
  match hidingBit? p bytes below with
  | none => b.note ("block " ++ toString block ++ " runs into data at offset " ++
      toString slot.offset.toNat)
  | some (bit, hidden, label) =>
    let b := b.note ("BIT-skip in block " ++ toString block ++ ": `" ++ bit.text ++ "` hides `" ++
      hidden.text ++ "`")
    let graph := b.graph.modify block fun block => { block with
      elisions := block.elisions ++ [{ index := block.code.length, hidden, label }]
      code := block.code ++ [bit] }
    copyOn block (index + 2) (below.drop 1) { b with graph }

def addSlot (p : Program) (b : Build) (index : Nat) (slot : Slot) (below : List Slot) : Build :=
  match slot.item with
  | .code i =>
    let (block, b) := match b.current, slot.isLabelled with
      | some block, false => (block, b)
      | _, _ =>
        let (block, b) := b.openBlock index slot
        (block, b.fallInto block)
    let b := b.append block index i
    { b with current := if i.opcode.isControlTransfer then none else some block }
  | .data bytes =>
    let (block, b) := match b.current, slot.isLabelled with
      | some _, true =>
        let (block, b) := b.openBlock index slot
        (some block, b.fallInto block)
      | none, true =>
        if (hidingBit? p bytes below).isSome then
          let (block, b) := b.openBlock index slot
          (some block, b)
        else (none, b)
      | current, false => (current, b)
    let b := match block with
      | some block => b.fallIntoData p block index slot bytes below
      | none => b
    { b with current := none }
  | .finish =>
    let (block, b) := b.openBlock index slot
    { b.fallInto block with current := none }

def addSlots (p : Program) : Nat → List Slot → Build → Build
  | _, [], b => b
  | index, slot :: below, b => addSlots p (index + 1) below (b.addSlot p index slot below)

/-- The block an address expression leads to: the one with that label, or the first one that starts
with code at the address. -/
def locate? (b : Build) (p : Program) (slots : List Slot) (t : Target) : Option BlockId :=
  match t.label?.bind b.graph.labelled? with
  | some block => some block
  | none => do
    let address ← p.resolve? t
    let start ← b.starts.find? fun (index, _) =>
      match slots[index]? with
      | some slot => slot.isCode && p.addressOf slot.offset == address
      | none => false
    return start.2

def settleExit (p : Program) (slots : List Slot) (b : Build) (e : PendingExit) : Build :=
  let block := match e.destination with
    | .slot index => b.starts.lookup index
    | .target t => b.locate? p slots t
  match block with
  | some block => { b with graph := b.graph.addEdge e.source block e.kind }
  | none => b.note ("unresolved " ++ e.kind.text ++ " exit of block " ++
      toString e.source ++ ": " ++ e.destination.text)

def settleCall (p : Program) (slots : List Slot) (b : Build) (call : PendingCall) : Build :=
  match b.locate? p slots call.target with
  | some block => { b with graph := b.graph.modify call.source fun source =>
      { source with calls := source.calls ++ [(call.index, block)] } }
  | none => b.note ("unresolved call target " ++ call.target.text ++ " in block " ++
      toString call.source)

def ofProgram (p : Program) : Build :=
  let slots := p.slots
  let b := addSlots p 0 slots {}
  let b := b.exits.foldl (settleExit p slots) b
  b.calls.foldl (settleCall p slots) b

end Build

def Graph.ofProgram (p : Program) : Except GraphError Graph × Journal :=
  let b := Build.ofProgram p
  match b.graph.verify with
  | .ok () =>
    (.ok b.graph, (b.note ("built " ++ toString b.graph.size ++ " blocks")).journal)
  | .error e => (.error e, b.journal)

end Lift6502
