import Lift6502.Proofs.Generate.Coverage
import Lift6502.Proofs.Generate.Expectations
import Lift6502.Proofs.Tree.Dispatch

/-!
# Branches of functions that have been generated

A block whose branch has no known target has no code, so in a routine with code every branch has
one. Nothing asks for the way on behind a branch: where there is none, the branch becomes a jump.
-/

namespace Lift6502

open Gen Generator ControlNode Layout

namespace Generator

variable {c : Generator} {s : SymbolicState} {p p' : Progress} {flow : Option SymbolicState}

theorem isSome_branch_of_instruction {site : Site} (hy : Yields (c.instruction site s) p flow p')
    (hjumps : site.instruction.opcode.isConditionalBranch = true ∨ site.instruction.opcode = .jmp) :
    site.block.branch.isSome = true := by
  -- All branches have the same code, and so has a jump unless it is an indirect one.
  obtain ⟨s', hy⟩ : ∃ s', Yields (branchAway site s) p s' p' := by
    unfold instruction at hy
    cases hopcode : site.instruction.opcode <;> rw [hopcode] at hjumps hy
    case bcc | bcs | beq | bmi | bne | bpl | bvc | bvs =>
      obtain ⟨s', hy, -⟩ := Yields.map_iff.1 hy
      exact ⟨s', hy⟩
    case jmp =>
      simp only at hy
      split at hy
      · exact absurd hy Yields.not_throw
      · obtain ⟨s', hy, -⟩ := Yields.map_iff.1 hy
        exact ⟨s', hy⟩
    all_goals rcases hjumps with h | h <;> cases h
  unfold branchAway at hy
  split at hy
  · exact absurd hy Yields.not_throw
  · next hsome => simpa [Option.isSome_iff_ne_none] using hsome

theorem isSome_branch_of_instructions {name : String} {block : Block} {index : Nat}
    {code : List Instruction} (hy : Yields (c.instructions name block index code s) p flow p')
    (hcode : ∀ i ∈ code, i.opcode ≠ .rts) {i : Instruction} (hi : i ∈ code)
    (hjumps : i.opcode.isConditionalBranch = true ∨ i.opcode = .jmp) :
    block.branch.isSome = true := by
  induction code generalizing index s p with
  | nil => cases hi
  | cons j rest ih =>
    unfold instructions at hy
    obtain ⟨_, p1, -, hy1⟩ := hy.of_bind
    obtain ⟨next, p2, hfirst, hy2⟩ := hy1.of_bind
    rcases List.mem_cons.1 hi with rfl | hi
    · exact isSome_branch_of_instruction hfirst hjumps
    · cases next with
      | none => exact absurd (opcode_eq_rts hfirst) (hcode j List.mem_cons_self)
      | some s => exact ih hy2 (fun k hk => hcode k (List.mem_cons_of_mem j hk)) hi

theorem Generates.isSome_branch {b : BlockId} (h : c.Generates b)
    (hcode : ∀ i ∈ (c.graph.block b).code, i.opcode ≠ .rts) {i : Instruction}
    (hi : i ∈ (c.graph.block b).code)
    (hjumps : i.opcode.isConditionalBranch = true ∨ i.opcode = .jmp) :
    (c.graph.block b).branch.isSome = true := by
  obtain ⟨s, p, flow, p', hy⟩ := h
  unfold Generator.block at hy
  obtain ⟨next, p1, hrun, -⟩ := hy.of_bind
  exact isSome_branch_of_instructions hrun hcode hi hjumps

theorem exists_of_mapM {α β : Type} {f : α → Gen β} {l : List α} {bs : List β}
    (hy : Yields (l.mapM f) p bs p') {a : α} (ha : a ∈ l) : ∃ q b q', Yields (f a) q b q' := by
  induction l generalizing p p' bs with
  | nil => cases ha
  | cons x rest ih =>
    rw [List.mapM_cons] at hy
    obtain ⟨b, p1, hfirst, hy1⟩ := hy.of_bind
    obtain ⟨bs', p2, hrest, -⟩ := hy1.of_bind
    rcases List.mem_cons.1 ha with rfl | ha
    · exact ⟨p, b, p1, hfirst⟩
    · exact ih hrest ha

theorem generates_of_dispatchLoop {t : ControlTree} {kind : LoopKind} {header : BlockId}
    {condition : Option Condition} {order : List BlockId} {label : Option String}
    {follow : Option BlockId} {u : Unit}
    (ht : t.nodes = [.loop kind header condition (order.map c.graph.dispatchArm) label follow])
    (hy : Yields (c.dispatchLoop t s) p u p') {b : BlockId} (hb : b ∈ order) :
    ∃ plan, Generates { c with dispatch := some plan } b := by
  unfold dispatchLoop at hy
  rw [ht] at hy
  obtain ⟨carriers, p1, -, hy1⟩ := hy.of_bind
  obtain ⟨_, p2, -, hy2⟩ := hy1.of_bind
  obtain ⟨bodies, p3, harms, -⟩ := hy2.of_bind
  obtain ⟨q, body, q', harm⟩ := exists_of_mapM harms (List.mem_map_of_mem hb)
  refine ⟨{ carriers, defined := c.certainlySet }, ?_⟩
  unfold Graph.dispatchArm dispatchArm at harm
  obtain ⟨flow, out, q2, hnodes, -, -⟩ := yields_capture_bind.1 harm
  rw [nodes] at hnodes
  obtain ⟨between, q3, hblock, -⟩ := hnodes.of_bind
  rw [node] at hblock
  exact ⟨_, _, _, _, hblock⟩

end Generator

namespace Program.HasRoutine

variable {p : Program} {o : Options} {g : Graph} {rs : Routines} {r : Routine} {b : BlockId}

theorem graph_eq (h : p.HasRoutine o g rs r) : g = (Build.ofProgram p).graph := by
  obtain ⟨_, hg, -⟩ := h
  exact graph_eq_of_ofProgram hg

variable (h : p.HasRoutine o g rs r) {f : FunctionDef} (hf : (r.decompile p g rs o).1 = .ok f)
  (hkept : (ofRoutine g r).tree.1.structured = true →
    (ofRoutine g r).KeepsEdges (ofRoutine g r).arrangement)
  (hb : (ofRoutine g r).IsReachable b)

include h hf hkept hb

theorem exists_generates : ∃ c : Generator, c.graph = g ∧ c.Generates b := by
  have hstandard := h.standard
  have hreturns : g.ReturnsAtEnds := by
    rw [h.graph_eq]
    exact Build.returnsAtEnds_ofProgram p
  let c : Generator := ⟨p, g, rs, r, o.maxInlineExpression, none⟩
  obtain ⟨last, hbody⟩ : ∃ last, Yields (c.body (ofRoutine g r).tree.1) {} () last := by
    have hf' : (c.generate (ofRoutine g r).tree.1).1 = .ok f := hf
    unfold generate at hf'
    split at hf'
    · next last hrun => exact ⟨last, hrun⟩
    · cases hf'
  unfold body at hbody
  obtain ⟨_, p1, hbody, -⟩ := hbody.of_bind
  cases hstructured : (ofRoutine g r).tree.1.structured with
  | true =>
    -- Some run breaks off in the block, so it has been generated.
    rw [if_pos hstructured] at hbody
    obtain ⟨flow, p2, hnodes, -⟩ := hbody.of_bind
    obtain ⟨fuel, way, hrun⟩ :=
      exists_run_to hstandard.entry_mem hstandard.conditional hstructured
      (hkept hstructured) hb
    obtain ⟨b', way', hgenerates, herror⟩ := generates_of_runAll (M := g.walker)
      Graph.endsAtExits_walker hreturns hnodes (by simp [Graph.walker]) hrun
    cases Graph.walker_run_error herror
    exact ⟨c, rfl, hgenerates⟩
  | false =>
    -- The loop has an arm for every block that can be reached.
    rw [if_neg (by simp [hstructured])] at hbody
    rw [tree_eq_dispatch hstructured] at hbody
    obtain ⟨plan, hgenerates⟩ := generates_of_dispatchLoop (c := c)
      (nodes_dispatchTree (l := ofRoutine g r)) hbody (isReachable_iff.1 hb)
    exact ⟨_, rfl, hgenerates⟩

theorem isSome_branch {i : Instruction} (hlast : (g.block b).code.getLast? = some i)
    (hjumps : i.opcode.isConditionalBranch = true ∨ i.opcode = .jmp) :
    (g.block b).branch.isSome = true := by
  obtain ⟨c, rfl, hgenerates⟩ := h.exists_generates hf hkept hb
  refine hgenerates.isSome_branch (fun j hj hrts => ?_) (List.mem_of_getLast? hlast) hjumps
  -- A return would end the block, which ends with a jump.
  rw [h.graph_eq] at hj hlast
  have hlast' := Build.getLast?_of_transfer hj (by rw [hrts]; rfl)
  cases hlast.symm.trans hlast'
  rw [hrts] at hjumps
  rcases hjumps with h | h <;> cases h

end Program.HasRoutine

/-- In a function that has been generated every branch that the entry reaches has a known target, if
its tree is a dispatch loop or keeps all edges. There is a way on behind the branch exactly if there
is something to run. -/
theorem branch_isSome_of_decompile {p : Program} {o : Options} {g : Graph} {rs : Routines}
    {r : Routine} (h : p.HasRoutine o g rs r) {f : FunctionDef}
    (hf : (r.decompile p g rs o).1 = .ok f)
    (hkept : (Layout.ofRoutine g r).tree.1.structured = true →
      (Layout.ofRoutine g r).KeepsEdges (Layout.ofRoutine g r).arrangement) {b : BlockId}
    (hb : (Layout.ofRoutine g r).IsReachable b) (hcond : (g.block b).isConditional = true) :
    (g.block b).branch.isSome = true ∧
      ∃ start stop, (start, b) ∈ (Build.ofProgram p).starts ∧
        Covers p p.slots start (g.block b).code stop ∧
        ((g.block b).fallThrough.isSome = true ↔
          ∃ slot, p.slots[stop]? = some slot ∧ RunsBehind p p.slots stop slot) := by
  obtain ⟨i, hlast, hbranch⟩ := Block.exists_branch_of_isConditional hcond
  refine ⟨h.isSome_branch hf hkept hb hlast (.inl hbranch), ?_⟩
  rw [h.graph_eq] at hcond ⊢
  exact Build.exists_behind hcond

theorem Program.exists_first (p : Program)
    (h : (p.first.decompile p p.graph p.routines {}).1.isOk = true) :
    ∃ f, (p.first.decompile p p.graph p.routines {}).1 = .ok f := by
  cases hcode : (p.first.decompile p p.graph p.routines {}).1 with
  | error e =>
    rw [hcode] at h
    cases h
  | ok f => exact ⟨f, rfl⟩

/-- A countdown with a skip in its body; behind it a branch goes around a byte. -/
def countdownBeforeData : Program :=
  Draft.start 0x8000
    |>.label "Start" |>.zeroPage .ldx 0x10
    |>.label "Loop" |>.op .lda (.indexed (.address 0x20) .x .zeroPage) |>.atLabel .beq "Skip"
      |>.zeroPage .inc 0x11
    |>.label "Skip" |>.implied .dex |>.atLabel .bne "Loop" |>.zeroPage .lda 0x12
      |>.atLabel .bne "Done" |>.data [0x01]
    |>.label "Done" |>.implied .rts
    |>.program

/-- The branch around the byte is known, and there is nothing to run behind it. -/
theorem branch_isSome_countdownBeforeData :
    ∃ g rs r f, countdownBeforeData.HasRoutine {} g rs r ∧
      (r.decompile countdownBeforeData g rs {}).1 = .ok f ∧
      (Layout.ofRoutine g r).tree.1.structured = true ∧
      (Layout.ofRoutine g r).KeepsEdges (Layout.ofRoutine g r).arrangement ∧
      (Layout.ofRoutine g r).IsReachable 4 ∧ (g.block 4).isConditional = true ∧
      (g.block 4).branch.isSome = true ∧ (g.block 4).fallThrough = none ∧
      ∃ start stop, (start, 4) ∈ (Build.ofProgram countdownBeforeData).starts ∧
        Covers countdownBeforeData countdownBeforeData.slots start (g.block 4).code stop ∧
        ∀ slot, countdownBeforeData.slots[stop]? = some slot →
          ¬ RunsBehind countdownBeforeData countdownBeforeData.slots stop slot := by
  have hroutine : countdownBeforeData.HasRoutine {} countdownBeforeData.graph
      countdownBeforeData.routines
      countdownBeforeData.first := ⟨[0], rfl, rfl, by decide, rfl, List.mem_cons_self⟩
  obtain ⟨f, hf⟩ := countdownBeforeData.exists_first (by decide +kernel)
  have hkept : countdownBeforeData.layout.KeepsEdges countdownBeforeData.layout.arrangement := by
    decide +kernel
  have hreachable : countdownBeforeData.layout.IsReachable 4 :=
    Layout.isReachable_iff.2 (by decide +kernel)
  have hcond : (countdownBeforeData.graph.block 4).isConditional = true := by decide +kernel
  have hfall : (countdownBeforeData.graph.block 4).fallThrough = none := by decide +kernel
  obtain ⟨hbranch, start, stop, hstart, hcovers, hiff⟩ :=
    branch_isSome_of_decompile hroutine hf (fun _ => hkept) hreachable hcond
  refine ⟨_, _, _, f, hroutine, hf, by decide +kernel, hkept, hreachable, hcond, hbranch, hfall,
    start, stop, hstart, hcovers, fun slot hslot hruns => ?_⟩
  have hsome := hiff.2 ⟨slot, hslot, hruns⟩
  rw [hfall] at hsome
  cases hsome

def branchOverByteText : String :=
  "  .org $8000\nStart:\n  LDA $10\n  BEQ Done\n  .db $01\nDone:\n  RTS\n"

def branchOverByte : Program :=
  Draft.start 0x8000
    |>.label "Start" |>.line .empty |>.zeroPage .lda 0x10 |>.atLabel .beq "Done" |>.data [0x01]
    |>.label "Done" |>.line .empty |>.implied .rts
    |>.program

/-- Two arms that leave for `Done` from inside, each past a conditional of its own; the branch at
`Done` leads nowhere. -/
def branchBehindArms : Program :=
  Draft.start 0x8000
    |>.label "Start" |>.zeroPage .lda 0x10 |>.atLabel .beq "Right" |>.zeroPage .lda 0x11
      |>.atLabel .beq "LMark" |>.zeroPage .lda 0x12 |>.atLabel .beq "Done"
    |>.label "LMark" |>.zeroPage .inc 0x20 |>.implied .rts
    |>.label "Right" |>.zeroPage .lda 0x13 |>.atLabel .beq "RMark" |>.zeroPage .lda 0x14
      |>.atLabel .beq "Done"
    |>.label "RMark" |>.zeroPage .inc 0x21 |>.implied .rts
    |>.label "Done" |>.zeroPage .lda 0x15 |>.atLabel .beq "Nowhere" |>.implied .rts
    |>.program

/-- A function has code although a branch in it has no way on behind it, and another one although a
branch that its entry reaches leads nowhere: its tree loses the edges to the block. -/
theorem generated_with_lost_exits :
    (Listing.read branchOverByteText = .ok branchOverByte ∧
      ∃ g rs r f, branchOverByte.HasRoutine {} g rs r ∧
        (r.decompile branchOverByte g rs {}).1 = .ok f ∧ (Layout.ofRoutine g r).IsReachable 0 ∧
        (g.block 0).isConditional = true ∧ (g.block 0).fallThrough = none) ∧
      ∃ g rs r f, branchBehindArms.HasRoutine {} g rs r ∧
        (r.decompile branchBehindArms g rs {}).1 = .ok f ∧ (Layout.ofRoutine g r).IsReachable 7 ∧
        (g.block 7).isConditional = true ∧ (g.block 7).branch = none := by
  refine ⟨⟨by decide +kernel, ?_⟩, ?_⟩
  · obtain ⟨f, hf⟩ := branchOverByte.exists_first (by decide +kernel)
    exact ⟨_, _, _, f, ⟨[0], rfl, rfl, by decide, rfl, List.mem_cons_self⟩, hf,
      Layout.isReachable_iff.2 (by decide +kernel), by decide +kernel, by decide +kernel⟩
  · obtain ⟨f, hf⟩ := branchBehindArms.exists_first (by decide +kernel)
    exact ⟨_, _, _, f, ⟨[0], rfl, rfl, by decide, rfl, List.mem_cons_self⟩, hf,
      Layout.isReachable_iff.2 (by decide +kernel), by decide +kernel, by decide +kernel⟩

end Lift6502
