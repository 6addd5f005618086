import Lift6502.Proofs.Flow.Closed

/-!
# Edges are kept in both directions

Every step that builds the graph of a program keeps predecessors and exits in agreement, so the
check of such a graph never fails.
-/

namespace Lift6502

namespace Graph

variable {g : Graph} {b k s t : BlockId} {kind : ExitKind}

def Agrees (g : Graph) : Prop :=
  ∀ b t, b ∈ g.predecessors t ↔ (g.block b).fallThrough = some t ∨ (g.block b).branch = some t

theorem agrees_iff :
    g.Agrees ↔ ∀ b t, b ∈ g.predecessors t ↔ ∃ kind, (g.block b).exit? kind = some t := by
  simp only [Agrees, Block.exists_exit?_iff]

theorem Agrees.mem_predecessors (h : g.Agrees) :
    b ∈ g.predecessors t ↔ ∃ kind, (g.block b).exit? kind = some t :=
  agrees_iff.1 h b t

theorem not_mem_predecessors_of_not_lt (h : ¬ t < g.size) : b ∉ g.predecessors t := by
  rw [predecessors, block_eq_default h]
  exact BlockSet.not_mem_empty b

theorem Agrees.disagreement? (h : g.Agrees) (b : BlockId) : g.disagreement? b = none := by
  have hexits : (g.successors b).find? (fun s => !(g.predecessors s).contains b) = none := by
    refine List.find?_eq_none.2 fun s hs => ?_
    have hmem : b ∈ g.predecessors s := h.mem_predecessors.2 (Block.mem_successors_iff.1 hs)
    simpa using hmem
  have hentered : (g.predecessors b).toList.find? (fun p => !(g.successors p).contains b) =
      none := by
    refine List.find?_eq_none.2 fun p hp => ?_
    have hmem : b ∈ g.successors p := Block.mem_successors_iff.2 (h.mem_predecessors.1 hp)
    simpa using hmem
  rw [Graph.disagreement?, hexits]
  simp only [hentered]

theorem verify_eq_ok_iff : g.verify = .ok () ↔ g.Agrees := by
  constructor
  · intro h
    exact agrees_iff.2 fun _ _ => (mem_predecessors_iff h).trans Block.mem_successors_iff
  · intro h
    unfold verify
    rw [List.findSome?_eq_none_iff.2 fun b _ => h.disagreement? b]

/-! ## Adding an edge -/

theorem predecessors_modify (f : BlockSet → BlockSet) (hk : k < g.size) :
    (g.modify k fun block => { block with enteredFrom := f block.enteredFrom }).predecessors t =
      if t = k then f (g.predecessors t) else g.predecessors t := by
  unfold predecessors
  by_cases htk : t = k
  · rw [if_pos htk, htk, block_modify_self _ hk]
  · rw [if_neg htk, block_modify_of_ne _ (Ne.symm htk)]

/-- What is recorded after an edge has been added. The former target forgets the source unless it is
still one of its successors. -/
theorem mem_predecessors_addEdge (h : g.Agrees) (ht : t < g.size) :
    b ∈ (g.addEdge s t kind).predecessors k ↔
      (k = t ∧ b = s) ∨ (b ∈ g.predecessors k ∧
        ¬ (b = s ∧ (g.block s).exit? kind = some k ∧
          k ≠ t ∧ k ∉ (g.modify s (·.withExit kind t)).successors s)) := by
  let g1 := g.modify s (·.withExit kind t)
  have hentered : ∀ j, g1.predecessors j = g.predecessors j := fun j =>
    map_block_modify Block.enteredFrom fun block => by cases kind <;> rfl
  have hsize : g1.size = g.size := size_modify _
  -- The graph in which the former target has forgotten the source, if it has to.
  have hforgotten : ∀ g2 : Graph, g2.size = g.size →
      (∀ j, b ∈ g2.predecessors j ↔ b ∈ g.predecessors j ∧
        ¬ (b = s ∧ (g.block s).exit? kind = some j ∧ j ≠ t ∧ j ∉ g1.successors s)) →
      (b ∈ (g2.modify t fun block =>
          { block with enteredFrom := block.enteredFrom.insert s }).predecessors k ↔
        (k = t ∧ b = s) ∨ (b ∈ g.predecessors k ∧
          ¬ (b = s ∧ (g.block s).exit? kind = some k ∧ k ≠ t ∧ k ∉ g1.successors s))) := by
    intro g2 hsize2 hg2
    rw [predecessors_modify (·.insert s) (by rwa [hsize2])]
    by_cases hkt : k = t
    · rw [if_pos hkt, BlockSet.mem_insert, hg2]
      simp [hkt]
    · rw [if_neg hkt, hg2]
      simp [hkt]
  unfold addEdge
  simp only
  split
  · next old hformer =>
    by_cases hdrop : old ≠ t ∧ old ∉ g1.successors s
    · rw [if_pos hdrop]
      -- The former target recorded the source, so it is a block of the graph.
      have hold : old < g1.size := by
        by_contra hold
        rw [hsize] at hold
        exact not_mem_predecessors_of_not_lt hold (h.mem_predecessors.2 ⟨kind, hformer⟩)
      refine hforgotten _ ((size_modify _).trans hsize) fun j => ?_
      rw [predecessors_modify (·.erase s) hold, hentered, hformer]
      by_cases hj : j = old
      · subst hj
        rw [if_pos rfl, BlockSet.mem_erase]
        simp [hdrop]
      · rw [if_neg hj]
        simp [Ne.symm hj]
    · rw [if_neg hdrop]
      refine hforgotten g1 hsize fun j => ?_
      rw [hentered, hformer]
      constructor
      · intro hb
        refine ⟨hb, ?_⟩
        rintro ⟨-, hj, hkept⟩
        cases hj
        exact hdrop hkept
      · exact And.left
  · next hformer =>
    refine hforgotten g1 hsize fun j => ?_
    rw [hentered, hformer]
    simp

theorem exists_exit_addEdge (hs : s < g.size) :
    (∃ other, ((g.addEdge s t kind).block b).exit? other = some k) ↔
      (k = t ∧ b = s) ∨ ∃ other, (s ≠ b ∨ kind ≠ other) ∧ (g.block b).exit? other = some k := by
  constructor
  · rintro ⟨other, hexit⟩
    by_cases hother : s ≠ b ∨ kind ≠ other
    · rw [exit?_addEdge_of_ne hother] at hexit
      exact .inr ⟨other, hother, hexit⟩
    · -- This is the exit that was set.
      rw [not_or, not_not, not_not] at hother
      obtain ⟨rfl, rfl⟩ := hother
      rw [exit?_addEdge_self _ hs] at hexit
      exact .inl ⟨(Option.some.inj hexit).symm, rfl⟩
  · rintro (⟨rfl, rfl⟩ | ⟨other, hother, hexit⟩)
    · exact ⟨kind, exit?_addEdge_self kind hs⟩
    · refine ⟨other, ?_⟩
      rw [exit?_addEdge_of_ne hother]
      exact hexit

theorem Agrees.addEdge (h : g.Agrees) (hs : s < g.size) (ht : t < g.size) (kind : ExitKind) :
    (g.addEdge s t kind).Agrees := by
  rw [agrees_iff]
  intro b k
  rw [mem_predecessors_addEdge h ht, exists_exit_addEdge hs, h.mem_predecessors]
  -- Among the successors of the source are the new target and what the other exit leads to.
  have hkept : k ∈ (g.modify s (·.withExit kind t)).successors s ↔
      k = t ∨ ∃ other, kind ≠ other ∧ (g.block s).exit? other = some k := by
    rw [successors, block_modify_self _ hs, Block.mem_successors_iff]
    constructor
    · rintro ⟨other, hexit⟩
      by_cases hother : kind = other
      · subst hother
        rw [Block.exit?_withExit_self] at hexit
        exact .inl (Option.some.inj hexit).symm
      · rw [Block.exit?_withExit_of_ne _ hother] at hexit
        exact .inr ⟨other, hother, hexit⟩
    · rintro (rfl | ⟨other, hother, hexit⟩)
      · exact ⟨kind, Block.exit?_withExit_self _ kind⟩
      · refine ⟨other, ?_⟩
        rw [Block.exit?_withExit_of_ne _ hother]
        exact hexit
  by_cases hnew : k = t ∧ b = s
  · simp [hnew]
  apply or_congr_right
  constructor
  · rintro ⟨⟨other, hexit⟩, hstays⟩
    by_cases hother : s ≠ b ∨ kind ≠ other
    · exact ⟨other, hother, hexit⟩
    · -- The exit was replaced: its former target is kept because of the other exit.
      rw [not_or, not_not, not_not] at hother
      obtain ⟨rfl, rfl⟩ := hother
      have hkt : k ≠ t := fun hkt => hnew ⟨hkt, rfl⟩
      have hmem : k ∈ (g.modify s (·.withExit kind t)).successors s := by
        by_contra hmem
        exact hstays ⟨rfl, hexit, hkt, hmem⟩
      obtain ⟨other, hother, hexit'⟩ := (hkept.1 hmem).resolve_left hkt
      exact ⟨other, .inr hother, hexit'⟩
  · rintro ⟨other, hother, hexit⟩
    refine ⟨⟨other, hexit⟩, ?_⟩
    rintro ⟨rfl, -, -, hlost⟩
    exact hlost (hkept.2 (.inr ⟨other, hother.resolve_left (not_not_intro rfl), hexit⟩))

/-! ## A sequence of edges -/

structure NewEdge where
  source : BlockId
  target : BlockId
  kind : ExitKind
  deriving DecidableEq, Repr

def addEdges (g : Graph) (edges : List NewEdge) : Graph :=
  edges.foldl (fun g e => g.addEdge e.source e.target e.kind) g

theorem Agrees.addEdges (h : g.Agrees) {edges : List NewEdge}
    (hedges : ∀ e ∈ edges, e.source < g.size ∧ e.target < g.size) : (g.addEdges edges).Agrees := by
  induction edges generalizing g with
  | nil => exact h
  | cons e rest ih =>
    obtain ⟨hs, ht⟩ := hedges e List.mem_cons_self
    refine ih (h.addEdge hs ht e.kind) fun e' he' => ?_
    rw [size_addEdge]
    exact hedges e' (List.mem_cons_of_mem e he')

/-! ## Other changes to a graph -/

theorem Agrees.of_block_eq {g' : Graph} (h : g.Agrees) (hblock : ∀ k, g'.block k = g.block k) :
    g'.Agrees := by
  intro b t
  rw [predecessors, hblock, hblock]
  exact h b t

theorem Agrees.modify (h : g.Agrees) {f : Block → Block}
    (hf : ∀ block, (f block).fallThrough = block.fallThrough ∧ (f block).branch = block.branch ∧
      (f block).enteredFrom = block.enteredFrom) : (g.modify k f).Agrees := by
  intro b t
  have hentered : (g.modify k f).predecessors t = g.predecessors t :=
    map_block_modify Block.enteredFrom fun block => (hf block).2.2
  have hfall : ((g.modify k f).block b).fallThrough = (g.block b).fallThrough :=
    map_block_modify Block.fallThrough fun block => (hf block).1
  have hbranch : ((g.modify k f).block b).branch = (g.block b).branch :=
    map_block_modify Block.branch fun block => (hf block).2.1
  rw [hentered, hfall, hbranch]
  exact h b t

theorem Agrees.push (h : g.Agrees) {block : Block} (hfall : block.fallThrough = none)
    (hbranch : block.branch = none) (hentered : block.enteredFrom = ∅) : (g.push block).Agrees := by
  -- Beyond the end of the graph there was an empty block, which has the same edges.
  have hedges : ∀ k, (((g.push block).block k).fallThrough = (g.block k).fallThrough ∧
      ((g.push block).block k).branch = (g.block k).branch) ∧
      (g.push block).predecessors k = g.predecessors k := by
    intro k
    unfold predecessors
    rcases Nat.lt_trichotomy k g.size with hk | rfl | hk
    · rw [block_push_of_lt block hk]
      exact ⟨⟨rfl, rfl⟩, rfl⟩
    · rw [block_push_self, block_eq_default (Nat.lt_irrefl _), hfall, hbranch, hentered]
      exact ⟨⟨rfl, rfl⟩, rfl⟩
    · have hbeyond : ¬ k < (g.push block).size := by
        rw [size_push]
        exact Nat.not_lt_of_le hk
      rw [block_eq_default hbeyond, block_eq_default (Nat.not_lt_of_gt hk)]
      exact ⟨⟨rfl, rfl⟩, rfl⟩
  intro b t
  rw [(hedges b).1.1, (hedges b).1.2, (hedges t).2]
  exact h b t

end Graph

/-! ## Building the graph of a program -/

namespace Build

variable {p : Program} {b : Build} {k : BlockId} {n : Nat}

section

variable (h : b.graph.Agrees)

include h

theorem agrees_append (k : BlockId) (n : Nat) (i : Instruction) :
    (b.append k n i).graph.Agrees := by
  rw [append_eq]
  exact h.modify fun _ => ⟨rfl, rfl, rfl⟩

theorem agrees_copyOn (k : BlockId) (n : Nat) (rest : List Slot) :
    (copyOn k n rest b).graph.Agrees := by
  induction rest generalizing n b with
  | nil => exact h
  | cons slot rest ih =>
    rw [copyOn]
    split
    · exact h
    · split
      · next i _ =>
        dsimp only
        split
        · exact agrees_append h k n i
        · exact ih (agrees_append h k n i) (n + 1)
      · exact h

theorem agrees_fallIntoData (k : BlockId) (n : Nat) (slot : Slot) (bytes : List UInt8)
    (below : List Slot) : (b.fallIntoData p k n slot bytes below).graph.Agrees := by
  unfold fallIntoData
  split
  · exact h
  · apply agrees_copyOn
    exact h.modify fun _ => ⟨rfl, rfl, rfl⟩

theorem agrees_openBlock (n : Nat) (slot : Slot) : (b.openBlock n slot).2.graph.Agrees := by
  have hpushed : (b.graph.push (blockAt slot)).Agrees := h.push rfl rfl rfl
  exact hpushed.of_block_eq fun _ => rfl

section

variable (hcurrent : ∀ k, b.current = some k → k < b.graph.size) (n : Nat) (slot : Slot)

include hcurrent

theorem agrees_enter : ((b.openBlock n slot).2.fallInto b.graph.size).graph.Agrees := by
  have hopened := agrees_openBlock h n slot
  have hsize : (b.openBlock n slot).2.graph.size = b.graph.size + 1 :=
    Graph.size_push (blockAt slot)
  unfold fallInto
  split
  · next k hk =>
    have hlt : k < b.graph.size := hcurrent k hk
    apply hopened.addEdge
    · rw [hsize]
      exact Nat.lt_succ_of_lt hlt
    · rw [hsize]
      exact Nat.lt_succ_self _
  · exact hopened

theorem agrees_addSlot (below : List Slot) : (b.addSlot p n slot below).graph.Agrees := by
  have htakes : ∀ {k d}, Takes b n slot k d → d.graph.Agrees := by
    intro k d htakes
    cases htakes with
    | same => exact h
    | new => exact agrees_enter h hcurrent n slot
  have hadds := adds_addSlot p b n slot below
  generalize b.addSlot p n slot below = c at hadds ⊢
  cases hadds with
  | code _ takes => exact agrees_append (htakes takes) _ n _
  | data _ takes => exact agrees_fallIntoData (htakes takes) _ n slot _ below
  | skips => exact h
  | finish => exact agrees_enter h hcurrent n slot

end

end

/-- Each slot keeps the directions in agreement; the current block is one of the graph by
`Pieces.addSlot`. -/
theorem agrees_read (p : Program) : (read p).graph.Agrees := by
  have hempty : ({} : Build).graph.Agrees := by
    intro b t
    have hdefault : ∀ k, ({} : Graph).block k = default := fun k =>
      Graph.block_eq_default (Nat.not_lt_zero k)
    rw [Graph.predecessors, hdefault, hdefault]
    constructor
    · intro hb
      exact absurd hb (BlockSet.not_mem_empty b)
    · rintro (hb | hb) <;> cases hb
  refine (read_invariant p (I := fun n b => b.graph.Agrees ∧
    Pieces p p.slots (b.current.map (·, n)) b) ⟨hempty, Pieces.empty⟩ fun n b slot hslot h => ?_).1
  obtain ⟨h, hpieces⟩ := h
  refine ⟨agrees_addSlot h (fun k hk => ?_) n slot _, hpieces.addSlot hslot⟩
  exact hpieces.working k n (by rw [hk]; rfl)

theorem agrees_settleExits {exits : List PendingExit} (h : b.graph.Agrees)
    (hsource : ∀ e ∈ exits, e.source < b.graph.size)
    (htarget : ∀ e ∈ exits, ∀ t, b.destination? p p.slots e = some t → t < b.graph.size) :
    (exits.foldl (settleExit p p.slots) b).graph.Agrees := by
  induction exits generalizing b with
  | nil => exact h
  | cons e rest ih =>
    have hsame : SameBlocks b (settleExit p p.slots b e) := sameBlocks_settleExit b e
    refine ih ?_ (fun e' he' => ?_) fun e' he' t ht => ?_
    · cases hdest : b.destination? p p.slots e with
      | none =>
        rw [graph_settleExit_of_none b e hdest]
        exact h
      | some t =>
        rw [settleExit_eq b e hdest]
        exact h.addEdge (hsource e List.mem_cons_self) (htarget e List.mem_cons_self t hdest) e.kind
    · rw [hsame.size]
      exact hsource e' (List.mem_cons_of_mem e he')
    · rw [hsame.destination?] at ht
      rw [hsame.size]
      exact htarget e' (List.mem_cons_of_mem e he') t ht

theorem agrees_settleCalls (calls : List PendingCall) (h : b.graph.Agrees) :
    (calls.foldl (settleCall p p.slots) b).graph.Agrees := by
  induction calls generalizing b with
  | nil => exact h
  | cons call rest ih =>
    apply ih
    unfold settleCall
    split
    · exact h.modify fun _ => ⟨rfl, rfl, rfl⟩
    · exact h

theorem lt_size_of_destination? {e : PendingExit} {t : BlockId}
    (h : (read p).destination? p p.slots e = some t) : t < (read p).graph.size := by
  rw [← (sameBlocks_ofProgram p).size]
  unfold destination? at h
  split at h
  · exact lt_size_of_start (mem_of_lookup h)
  · exact lt_size_of_locate? h

theorem agrees_ofProgram (p : Program) : (ofProgram p).graph.Agrees := by
  have hexits : ((read p).exits.foldl (settleExit p p.slots) (read p)).graph.Agrees :=
    agrees_settleExits (agrees_read p) (pieces_read p).exit_source
      fun _ _ _ ht => lt_size_of_destination? ht
  exact agrees_settleCalls _ hexits

end Build

/-- The edges of a program stay bidirectional. Its blocks can always be built, a block is recorded
as a predecessor exactly where one of its exits leads, and this also holds, together with the check,
after any edges have been added between its blocks. -/
theorem edges_stay_bidirectional (p : Program) :
    ∃ g, (Graph.ofProgram p).1 = .ok g ∧
      ∀ edges : List Graph.NewEdge, (∀ e ∈ edges, e.source < g.size ∧ e.target < g.size) →
        (∀ b t, b ∈ ((g.addEdges edges).block t).enteredFrom ↔
          ((g.addEdges edges).block b).fallThrough = some t ∨
            ((g.addEdges edges).block b).branch = some t) ∧
        (g.addEdges edges).verify = .ok () := by
  have h := Build.agrees_ofProgram p
  refine ⟨(Build.ofProgram p).graph, ?_, fun edges hedges => ?_⟩
  · unfold Graph.ofProgram
    simp only [Graph.verify_eq_ok_iff.2 h]
  · have hadded := h.addEdges hedges
    exact ⟨hadded, Graph.verify_eq_ok_iff.2 hadded⟩

/-- Both exits of the first block are led back to itself, one of them twice, and one is taken away
again: the block stays its own predecessor. -/
theorem edges_stay_bidirectional_waiting :
    ∃ g, (Graph.ofProgram waiting).1 = .ok g ∧ g.size = 3 ∧
      (g.addEdges [⟨0, 0, .branch⟩, ⟨0, 0, .fallThrough⟩, ⟨0, 0, .branch⟩, ⟨0, 1, .branch⟩]).verify
        = .ok () ∧
      0 ∈ ((g.addEdges [⟨0, 0, .branch⟩, ⟨0, 0, .fallThrough⟩, ⟨0, 0, .branch⟩,
        ⟨0, 1, .branch⟩]).block 0).enteredFrom := by
  obtain ⟨g, hg, hadded⟩ := edges_stay_bidirectional waiting
  cases graph_eq_of_ofProgram hg
  have hsize : (Build.ofProgram waiting).graph.size = 3 := by decide +kernel
  obtain ⟨hagrees, hverify⟩ := hadded
    [⟨0, 0, .branch⟩, ⟨0, 0, .fallThrough⟩, ⟨0, 0, .branch⟩, ⟨0, 1, .branch⟩] (by
      rw [hsize]
      decide)
  refine ⟨_, hg, hsize, hverify, (hagrees 0 0).2 (.inl ?_)⟩
  decide +kernel

end Lift6502
