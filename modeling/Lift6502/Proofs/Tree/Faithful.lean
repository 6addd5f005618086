import Lift6502.Asm.Draft
import Lift6502.Flow.Build
import Lift6502.Proofs.Routine.Partition
import Lift6502.Proofs.Tree.Following
import Lift6502.Proofs.Tree.Trace

/-!
# Arranged trees run the blocks that the exits lead to

The tree of a routine takes the same course as the exits of its blocks, if no edge resumes a
construct other than the innermost one around it.
-/

namespace Lift6502

namespace Layout

variable {l : Layout} {g : Graph} {r : Routine} {ε σ : Type}

def arrangement (l : Layout) : Arrangement := ((l.sequence l.depth {} l.routine.entry).run.run {}).2

theorem yields_of_structured (h : l.tree.1.structured = true) :
    Yields (l.sequence l.depth {} l.routine.entry) {} l.tree.1.nodes l.arrangement := by
  unfold tree at h ⊢
  split at h
  · cases h
  · next hedge =>
    split at h
    · next nodes s hrun =>
      have hs : l.arrangement = s := by rw [arrangement, hrun]
      rw [hs]
      simp only
      exact hrun
    · cases h

theorem tree_eq_dispatch (h : l.tree.1.structured = false) :
    l.tree.1 = ControlTree.dispatch l.graph l.routine.entry l.dominators := by
  unfold Layout.tree at h ⊢
  split at h
  · rfl
  · split at h
    · cases h
    · rfl

def keepsEdge? (l : Layout) (v : Scope × BlockId) : Bool :=
  (match (l.view v.1 v.2).1 with
    | .stop => v.1.stops.head? == some v.2
    | _ => true) &&
  (match (l.view v.1 v.2).2 with
    | some header =>
        ((v.1.enclosing.find? fun c => c.label = l.graph.name header).map (·.header)) == some header
    | none => true)

theorem keepsEdge?_iff {v : Scope × BlockId} : l.keepsEdge? v = true ↔ l.KeepsEdge v := by
  rw [keepsEdge?, Bool.and_eq_true]
  constructor
  · rintro ⟨hstop, hjump⟩
    refine ⟨fun hv => ?_, fun header hheader => ?_⟩
    · simpa [hv] using hstop
    · simpa [hheader] using hjump
  · rintro ⟨hstop, hjump⟩
    constructor
    · split
      · next hv => simpa using hstop hv
      · rfl
    · split
      · next header hheader => simpa using hjump header hheader
      · rfl

instance (l : Layout) (v : Scope × BlockId) : Decidable (l.KeepsEdge v) :=
  decidable_of_iff _ keepsEdge?_iff

instance (l : Layout) (s : Arrangement) : Decidable (l.KeepsEdges s) :=
  inferInstanceAs (Decidable (∀ v ∈ s.viewed, l.KeepsEdge v))

def BranchesHaveExits (l : Layout) : Prop :=
  ∀ b, l.IsReachable b → (l.graph.block b).isConditional = true →
    (l.graph.block b).branch.isSome = true ∧ (l.graph.block b).fallThrough.isSome = true

theorem isReachable_iff {b : BlockId} :
    (ofRoutine g r).IsReachable b ↔ b ∈ (ofRoutine g r).dominators.order :=
  Dominators.mem_order.symm

instance (g : Graph) (r : Routine) : Decidable (ofRoutine g r).BranchesHaveExits :=
  decidable_of_iff (∀ b ∈ (ofRoutine g r).dominators.order, (g.block b).isConditional = true →
      (g.block b).branch.isSome = true ∧ (g.block b).fallThrough.isSome = true)
    (by simp only [BranchesHaveExits, isReachable_iff]; rfl)

/-- The nodes of a structured tree lead where the exits of the blocks lead, if all
edges are kept. -/
theorem follows_of_structured {M : BlockMachine ε σ}
    (hM : EndsAtExits g M) (htakes : (ofRoutine g r).TakesExits M) (hentry : r.entry ∈ r.blocks)
    (hstructured : (ofRoutine g r).tree.1.structured = true)
    (hkept : (ofRoutine g r).KeepsEdges (ofRoutine g r).arrangement) :
    (ofRoutine g r).AllShaped (ofRoutine g r).tree.1.nodes ∧
      ((ofRoutine g r).paths M).Follows [] (ofRoutine g r).arrangement.labelled
        (ofRoutine g r).tree.1.nodes r.entry none := by
  have hrooted := rooted_ofRoutine (g := g) hentry
  have hstart : (ofRoutine g r).IsReachable r.entry := .refl (by simp)
  have hyields := yields_of_structured hstructured
  have hscope : (ofRoutine g r).ScopeOk {} := ⟨by simp, by simp⟩
  exact ⟨(shapes_sequence hrooted _ _ _ _ _ _ hyields hstart).1,
    (faithful_sequence hrooted hM htakes _ _ _ _ _ _ hyields).2 hstart hscope hkept⟩

theorem takesExits_of_branchesHaveExits (M : BlockMachine ε σ) (hentry : r.entry ∈ r.blocks)
    (h : (ofRoutine g r).BranchesHaveExits) : (ofRoutine g r).TakesExits M :=
  (regular_ofRoutine hentry fun b hb hcond => ⟨Option.isSome_iff_exists.1 (h b hb hcond).1,
    Option.isSome_iff_exists.1 (h b hb hcond).2⟩).takesExits

end Layout

/-- A structured tree takes the course that the exits lead along, whatever the outcomes are, and
neither ever goes astray, if all edges are kept. -/
theorem structured_course_eq {g : Graph} (roots : List BlockId) {r : Routine}
    (hr : r ∈ (Routines.ofGraph g roots).1.all) (hexits : (Layout.ofRoutine g r).BranchesHaveExits)
    (hstructured : (Layout.ofRoutine g r).tree.1.structured = true)
    (hkept : (Layout.ofRoutine g r).KeepsEdges (Layout.ofRoutine g r).arrangement)
    (outcomes : Nat → Bool) (limit : Nat) :
    (Layout.ofRoutine g r).tree.1.course g outcomes limit = g.course r outcomes limit ∧
      g.course r outcomes limit ≠ .astray := by
  have hentry := (Routines.separate_ofGraph g roots).entry_mem r hr
  obtain ⟨hshape, hfollows⟩ := Layout.follows_of_structured (M := g.tracer outcomes limit)
    Graph.endsAtExits_tracer (Layout.takesExits_of_branchesHaveExits _ hentry hexits) hentry
      hstructured hkept
  exact ⟨Layout.course_eq_of_follows hshape hfollows, g.course_ne_astray r outcomes limit⟩

/-- The graph of a program, whose check never fails. -/
abbrev Program.graph (p : Program) : Graph := (Build.ofProgram p).graph

abbrev Program.routines (p : Program) : Routines := (Routines.ofGraph p.graph [0]).1

abbrev Program.first (p : Program) : Routine := p.routines.all.head!

abbrev Program.layout (p : Program) : Layout := Layout.ofRoutine p.graph p.first

/-- A countdown that marks each pass for which a byte is set. -/
def markingCountdown : Program :=
  Draft.start 0x8000
    |>.label "Start" |>.zeroPage .ldx 0x10
    |>.label "Loop" |>.op .lda (.indexed (.address 0x20) .x .zeroPage) |>.atLabel .beq "Skip"
      |>.zeroPage .inc 0x11
    |>.label "Skip" |>.implied .dex |>.atLabel .bne "Loop" |>.implied .rts
    |>.program

/-- Two passes through the loop, the second one with a mark. -/
theorem structured_course_markingCountdown :
    ∃ g r, (Graph.ofProgram markingCountdown).1 = .ok g ∧ r ∈ (Routines.ofGraph g [0]).1.all ∧
      (Layout.ofRoutine g r).BranchesHaveExits ∧
      (Layout.ofRoutine g r).tree.1.structured = true ∧
      (Layout.ofRoutine g r).KeepsEdges (Layout.ofRoutine g r).arrangement ∧
      (Layout.ofRoutine g r).tree.1.course g (fun n => n < 2) 20 =
        .left [0, 1, 3, 1, 2, 3, 4] none := by
  have hexits : markingCountdown.layout.BranchesHaveExits := by decide +kernel
  have hstructured : markingCountdown.layout.tree.1.structured = true := by decide +kernel
  have hkept : markingCountdown.layout.KeepsEdges markingCountdown.layout.arrangement := by
    decide +kernel
  refine ⟨_, _, rfl, List.mem_cons_self, hexits, hstructured, hkept,
    (structured_course_eq [0] List.mem_cons_self hexits hstructured hkept _ _).1.trans ?_⟩
  decide +kernel

/-- A test inside a conditional that leads past where the conditional goes on. -/
def nestedSkips : Program :=
  Draft.start 0x8000
    |>.label "Start" |>.zeroPage .lda 0x10 |>.atLabel .beq "Done" |>.zeroPage .lda 0x11
      |>.atLabel .beq "Mark" |>.zeroPage .lda 0x12 |>.atLabel .beq "Done"
    |>.label "Mark" |>.zeroPage .inc 0x20
    |>.label "Done" |>.implied .rts
    |>.program

/-- The tree of a structured routine can run a block that the exits lead past. -/
theorem nestedSkips_course_differs :
    ∃ g r, (Graph.ofProgram nestedSkips).1 = .ok g ∧ r ∈ (Routines.ofGraph g [0]).1.all ∧
      (Layout.ofRoutine g r).BranchesHaveExits ∧
      (Layout.ofRoutine g r).tree.1.structured = true ∧
      (Layout.ofRoutine g r).tree.1.course g (fun n => n == 2) 5 = .left [0, 1, 2, 3, 4] none ∧
      g.course r (fun n => n == 2) 5 = .left [0, 1, 2, 4] none := by
  refine ⟨nestedSkips.graph, _, rfl, List.mem_cons_self, ?_, ?_, ?_, ?_⟩
  all_goals decide +kernel

/-! ## Every block that can be reached is run -/

/-- Takes a way, given as the block that is run and those ahead of it, and breaks off in the last
one. Where a branch has one exit only, it takes that. -/
def Graph.walker (g : Graph) : BlockMachine (Option BlockId) (List BlockId) where
  run b way :=
    match way with
    | _ :: t :: ahead => if t ∈ g.successors b then .ok (.on (t :: ahead)) else .error (some b)
    | _ => .error (some b)
  taken b way :=
    (g.block b).branch.isSome && ((g.block b).fallThrough.isNone || (g.block b).branch == way.head?)
  limit := none

namespace Graph

variable {g : Graph} {b t : BlockId} {way way' : List BlockId}

theorem walker_run_on (h : g.walker.run b way = .ok (.on way')) :
    (∃ c t ahead, way = c :: t :: ahead ∧ way' = t :: ahead) ∧ g.successors b ≠ [] := by
  simp only [walker] at h
  split at h
  · next c t ahead =>
    split at h
    · next ht =>
      cases h
      exact ⟨⟨c, t, ahead, rfl, rfl⟩, List.ne_nil_of_mem ht⟩
    · cases h
  · cases h

theorem walker_run_error {c : BlockId} (h : g.walker.run b way = .error (some c)) : c = b := by
  simp only [walker] at h
  split at h
  · split at h
    · cases h
    · cases h
      rfl
  · cases h
    rfl

theorem endsAtExits_walker : Layout.EndsAtExits g g.walker :=
  fun _ _ _ h => (walker_run_on h).2

theorem bounded_walker (g : Graph) : g.walker.Bounded List.length where
  on_lt b way way' h := by
    obtain ⟨⟨c, t, ahead, rfl, rfl⟩, -⟩ := walker_run_on h
    exact Nat.lt_succ_self _
  ne_limit b way h := by
    simp only [walker] at h
    split at h
    · split at h <;> cases h
    · cases h

theorem successors_of_exitAfter_walker (h : g.exitAfter g.walker b way = none) :
    g.successors b = [] := by
  unfold exitAfter walker at h
  rw [successors, Block.successors]
  cases hfall : (g.block b).fallThrough with
  | none => cases hbranch : (g.block b).branch <;> simp_all
  | some fall =>
    cases hbranch : (g.block b).branch with
    | none => simp_all
    | some taken =>
      simp only [hfall, hbranch] at h
      split at h
      · split at h <;> cases h
      · cases h

theorem exitAfter_walker (ht : t ∈ g.successors b)
    (hone : ∀ taken fall, (g.block b).branch = some taken → (g.block b).fallThrough = some fall →
      (g.block b).isConditional = true) (ahead : List BlockId) :
    g.exitAfter g.walker b (t :: ahead) = some t := by
  rw [successors, Block.successors] at ht
  unfold exitAfter walker
  cases hfall : (g.block b).fallThrough with
  | none => cases hbranch : (g.block b).branch <;> simp_all
  | some fall =>
    cases hbranch : (g.block b).branch with
    | none => simp_all
    | some taken =>
      -- Of two exits the one is taken, the other is not.
      have hcond := hone taken fall hbranch hfall
      rw [hfall, hbranch] at ht
      simp only [hcond, if_true]
      grind

theorem exists_follow_walker {members : BlockSet} {a : BlockId}
    (hone : ∀ b taken fall, (g.block b).branch = some taken → (g.block b).fallThrough = some fall →
      (g.block b).isConditional = true) (h : WayTo (g.successorsIn members) [] a b) :
    ∃ n ahead, g.follow g.walker members n a (a :: ahead) = .error (some b) := by
  -- Induction on the way from its start; what is ahead of a block is the state there.
  induction h with
  | refl => exact ⟨1, [], rfl⟩
  | @step a t b _ edge _ ih =>
    obtain ⟨n, ahead, hrest⟩ := ih
    obtain ⟨ht, hin⟩ := mem_successorsIn.1 edge
    have hrun : g.walker.run a (a :: t :: ahead) = .ok (.on (t :: ahead)) := if_pos ht
    refine ⟨n + 1, t :: ahead, ?_⟩
    rw [follow, hrun]
    simp only [exitAfter_walker ht (hone a), if_pos hin, hrest]

end Graph

namespace Layout

variable {g : Graph} {r : Routine}

theorem exists_run_to (hentry : r.entry ∈ r.blocks)
    (hone : ∀ b taken fall, (g.block b).branch = some taken → (g.block b).fallThrough = some fall →
      (g.block b).isConditional = true) (hstructured : (ofRoutine g r).tree.1.structured = true)
    (hkept : (ofRoutine g r).KeepsEdges (ofRoutine g r).arrangement) {b : BlockId}
    (hb : (ofRoutine g r).IsReachable b) :
    ∃ fuel way, ControlNode.runAll g.walker fuel 0 (ofRoutine g r).tree.1.nodes way =
      .error (some b) := by
  obtain ⟨hshape, hfollows⟩ := follows_of_structured Graph.endsAtExits_walker
    (fun _ _ _ h => Graph.successors_of_exitAfter_walker h) hentry hstructured hkept
  obtain ⟨n, ahead, hway⟩ := Graph.exists_follow_walker hone hb
  exact ⟨_, r.entry :: ahead, runAll_eq_of_finishes (Graph.bounded_walker g) hshape hfollows
    (Nat.lt_succ_self _) (by simp [Graph.walker]) ⟨n, hway⟩ 0⟩

end Layout

end Lift6502
