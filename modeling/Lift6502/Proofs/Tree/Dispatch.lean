import Lift6502.Proofs.Tree.Faithful
import Lift6502.Proofs.Tree.Machine

/-!
# Dispatch loops run the blocks that the exits lead to

A pass of a dispatch loop runs the arm of the next block, which then names the block that the exits
lead to.
-/

namespace Lift6502

open ControlNode

variable {ε σ : Type} {n : ControlNode}

def Graph.dispatchArm (g : Graph) (b : BlockId) : ControlNode :=
  .cond (.dispatch b) (.block b :: dispatchExit g b) [] none

/-- The exits of a block are what its last instruction chooses from. -/
def Block.HasBothExits (b : Block) : Prop :=
  b.isConditional = true → b.branch.isSome = true ∧ b.fallThrough.isSome = true

theorem ControlNode.mem_listDescendants {nodes : List ControlNode} :
    n ∈ listDescendants nodes ↔ ∃ m ∈ nodes, n ∈ m.descendants := by
  induction nodes with
  | nil => simp [listDescendants]
  | cons m rest ih => simp [listDescendants, ih]

namespace Graph

variable {g : Graph} {M : BlockMachine ε σ} {members : BlockSet} {fuel : Nat} {b next : BlockId}
  {order : List BlockId} {s : σ}

theorem isSome_exitAfter (hexits : (g.block b).HasBothExits) (hsome : g.successors b ≠ []) (s : σ) :
    (g.exitAfter M b s).isSome = true := by
  unfold exitAfter
  rw [successors, Block.successors] at hsome
  simp only
  split
  · next hcond =>
    split
    · exact (hexits hcond).1
    · exact (hexits hcond).2
  · rcases hfall : (g.block b).fallThrough with _ | fall <;>
      rcases hbranch : (g.block b).branch with _ | taken <;> simp_all

theorem runAll_dispatchExit (hexits : (g.block b).HasBothExits) {t : BlockId}
    (h : g.exitAfter M b s = some t) :
    runAll M fuel next (dispatchExit g b) s = .ok (.away t, s) := by
  unfold exitAfter at h
  unfold dispatchExit
  simp only at h ⊢
  rcases hbranch : (g.block b).branch with _ | taken <;>
    rcases hfall : (g.block b).fallThrough with _ | fall <;>
    rw [hbranch, hfall] at h <;> simp only
  · split at h <;> simp at h
  · -- Without a branch the block is no conditional one.
    have hcond : (g.block b).isConditional = false := by
      by_contra hcond
      simpa [hbranch] using (hexits (by simpa using hcond)).1
    have ht : fall = t := by simpa [hcond] using h
    simp [Block.successors, hbranch, hfall, ht, runAll, run]
  · have hcond : (g.block b).isConditional = false := by
      by_contra hcond
      simpa [hfall] using (hexits (by simpa using hcond)).2
    have ht : taken = t := by simpa [hcond] using h
    simp [Block.successors, hbranch, hfall, ht, runAll, run]
  · by_cases hchooses : taken ≠ fall ∧ (g.block b).isConditional = true
    · rw [if_pos hchooses]
      rw [if_pos hchooses.2] at h
      cases htaken : M.taken b s <;> simp [htaken] at h <;>
        simp [runAll, run, Condition.holds, htaken, h]
    · rw [if_neg hchooses]
      have ht : fall = t := by grind
      simp [runAll, run, ht]

theorem runAll_arm (hM : Layout.EndsAtExits g M) (hexits : (g.block b).HasBothExits) :
    runAll M fuel next (.block b :: dispatchExit g b) s =
      match M.run b s with
      | .error e => .error e
      | .ok (.finished s) => .ok (.finished, s)
      | .ok (.on s) =>
        match g.exitAfter M b s with
        | none => .ok (.finished, s)
        | some t => .ok (.away t, s) := by
  rw [runAll, run]
  rcases hrun : M.run b s with e | (s' | s')
  · rfl
  · obtain ⟨t, ht⟩ :=
      Option.isSome_iff_exists.1 (isSome_exitAfter (M := M) hexits (hM b s s' hrun) s')
    simp only [ht]
    exact runAll_dispatchExit hexits ht
  · rfl

theorem runAll_arms_of_not_mem (h : next ∉ order) (s : σ) :
    runAll M fuel next (order.map g.dispatchArm) s = .ok (.onward, s) := by
  induction order with
  | nil => rfl
  | cons b rest ih =>
    rw [List.mem_cons, not_or] at h
    have hholds : (b == next) = false := by simpa using Ne.symm h.1
    rw [List.map_cons, runAll, dispatchArm, run, Condition.holds, hholds]
    exact ih h.2

theorem runAll_arms (hnodup : order.Nodup) (h : next ∈ order) (s : σ) :
    runAll M fuel next (order.map g.dispatchArm) s =
      runAll M fuel next (.block next :: dispatchExit g next) s := by
  induction order with
  | nil => cases h
  | cons b rest ih =>
    obtain ⟨hb, hrest⟩ := List.nodup_cons.1 hnodup
    rw [List.map_cons, runAll, dispatchArm, run, Condition.holds]
    by_cases heq : b = next
    · subst heq
      rw [beq_self_eq_true, if_pos rfl]
      rcases runAll M fuel b (.block b :: dispatchExit g b) s with e | ⟨way, s'⟩
      · rfl
      · cases way with
        | onward => exact runAll_arms_of_not_mem hb s'
        | breakLoop | continueLoop | finished | away => rfl
    · have hholds : (b == next) = false := by simpa using heq
      rw [hholds]
      exact ih hrest ((List.mem_cons.1 h).resolve_left (Ne.symm heq))

/-! ## All passes -/

/-- A dispatch loop with an arm for each block that can be reached runs along the exits. The
induction is on the passes: each of them runs one block. -/
theorem runArms_eq_follow (hM : Layout.EndsAtExits g M) (hnodup : order.Nodup)
    (hexits : ∀ b ∈ order, (g.block b).HasBothExits)
    (hclosed : ∀ b ∈ order, ∀ t ∈ g.successors b, t ∈ members → t ∈ order)
    (passes : Nat) (h : next ∈ order) (s : σ) :
    runArms M fuel members (order.map g.dispatchArm) passes next s =
      g.follow M members passes next s := by
  induction passes generalizing next s with
  | zero => rfl
  | succ passes ih =>
    rw [runArms, follow, runAll_arms hnodup h, runAll_arm hM (hexits next h)]
    rcases hrun : M.run next s with e | (s' | s')
    · rfl
    · rcases hexit : g.exitAfter M next s' with _ | t
      · simp only [hexit]
      · simp only [hexit]
        split
        · next hin => exact ih (hclosed next h t (Layout.exitAfter_mem_successors hexit) hin) s'
        · rfl
    · rfl

end Graph

/-! ## Dispatch loops of routines -/

/-- The course of a run through a tree that is one dispatch loop. -/
def ControlTree.dispatchCourse (t : ControlTree) (g : Graph) (r : Routine) (outcomes : Nat → Bool)
    (limit : Nat) : Course :=
  match t.nodes with
  | [.loop _ _ _ arms _ _] =>
    .ofResult (runArms (g.tracer outcomes limit) (limit + 1) r.blocks arms (limit + 1) r.entry {})
  | _ => .astray

namespace Layout

def dispatchTree (l : Layout) : ControlTree :=
  ControlTree.dispatch l.graph l.routine.entry l.dominators

variable {l : Layout} {b t : BlockId}

theorem nodes_dispatchTree : l.dispatchTree.nodes =
    [.loop .infinite l.routine.entry none (l.dominators.order.map l.graph.dispatchArm)
      (some dispatchLabel) none] := rfl

theorem mem_descendants_dispatchTree : n ∈ l.dispatchTree.descendants ↔
    n ∈ l.dispatchTree.nodes ∨ ∃ b ∈ l.dominators.order,
      n ∈ (l.graph.dispatchArm b).descendants := by
  rw [ControlTree.descendants, nodes_dispatchTree]
  simp [mem_listDescendants, descendants]

theorem mem_successors_of_goto (h : .goto t ∈ (l.graph.dispatchArm b).descendants) :
    t ∈ l.graph.successors b := by
  have hexit : .goto t ∈ listDescendants (dispatchExit l.graph b) := by
    simpa [Graph.dispatchArm, descendants, listDescendants] using h
  unfold dispatchExit at hexit
  rw [Graph.successors]
  simp only at hexit
  split at hexit
  · next taken fall hbranch hfall =>
    rw [Block.successors, hbranch, hfall]
    split at hexit
    · simp [listDescendants, descendants] at hexit
      grind
    · simp [listDescendants, descendants] at hexit
      grind
  · cases hhead : (l.graph.block b).successors.head? with
    | none => simp [hhead, listDescendants] at hexit
    | some c =>
      simp [hhead, listDescendants, descendants] at hexit
      exact hexit ▸ List.mem_of_mem_head? hhead

theorem arm_of_goto
    (hclosed : ∀ b ∈ l.dominators.order, ∀ t ∈ l.graph.successors b, t ∈ l.routine.blocks → t ∈
      l.dominators.order) (hin : t ∈ l.routine.blocks) (h : .goto t ∈ l.dispatchTree.descendants) :
    l.graph.dispatchArm t ∈ l.dispatchTree.descendants := by
  rcases mem_descendants_dispatchTree.1 h with hloop | ⟨b, hb, hgoto⟩
  · simp [nodes_dispatchTree] at hloop
  · have ht := hclosed b hb t (mem_successors_of_goto hgoto) hin
    exact mem_descendants_dispatchTree.2 (.inr ⟨t, ht, by simp [Graph.dispatchArm, descendants]⟩)

section

variable {g : Graph} {r : Routine}

theorem mem_order_of_successor (hb : b ∈ (ofRoutine g r).dominators.order) (ht : t ∈ g.successors b)
    (hin : t ∈ r.blocks) : t ∈ (ofRoutine g r).dominators.order :=
  isReachable_iff.1 (isReachable_of_successor (isReachable_iff.2 hb) ht hin)

theorem runArms_order {M : BlockMachine ε σ} (hM : EndsAtExits g M)
    (hexits : (ofRoutine g r).BranchesHaveExits) (fuel passes : Nat) (s : σ) :
    runArms M fuel r.blocks ((ofRoutine g r).dominators.order.map g.dispatchArm) passes r.entry s =
      g.follow M r.blocks passes r.entry s :=
  Graph.runArms_eq_follow hM Dominators.nodup_order (fun b hb => hexits b (isReachable_iff.2 hb))
    (fun _ hb _ => mem_order_of_successor hb) passes (isReachable_iff.1 (.refl (by simp))) s

end

end Layout

/-- A dispatch loop takes the course that the exits lead along, whatever the outcomes are, and
neither ever goes astray; every block of the routine that it names has an arm. -/
theorem dispatch_course_eq {g : Graph} (roots : List BlockId) {r : Routine}
    (hr : r ∈ (Routines.ofGraph g roots).1.all)
    (hexits : (Layout.ofRoutine g r).BranchesHaveExits) (outcomes : Nat → Bool) (limit : Nat) :
    (Layout.ofRoutine g r).dispatchTree.dispatchCourse g r outcomes limit =
        g.course r outcomes limit ∧
      g.course r outcomes limit ≠ .astray ∧
      ∀ t ∈ r.blocks, .goto t ∈ (Layout.ofRoutine g r).dispatchTree.descendants →
        g.dispatchArm t ∈ (Layout.ofRoutine g r).dispatchTree.descendants := by
  have hentry := (Routines.separate_ofGraph g roots).entry_mem r hr
  refine ⟨?_, g.course_ne_astray r outcomes limit, fun t hin hgoto => ?_⟩
  · exact congrArg Course.ofResult (Layout.runArms_order Graph.endsAtExits_tracer hexits _ _ _)
  · exact Layout.arm_of_goto (fun _ hb _ => Layout.mem_order_of_successor hb) hin hgoto

/-- A loop that can be entered at either of its two halves. -/
def twoWayEntry : Program :=
  Draft.start 0x8000
    |>.label "Start" |>.zeroPage .lda 0x10 |>.atLabel .beq "Second"
    |>.label "First" |>.zeroPage .dec 0x11
    |>.label "Second" |>.zeroPage .dec 0x12 |>.atLabel .bne "First" |>.implied .rts
    |>.program

/-- The loop is entered in the middle and left after the second pass. -/
theorem dispatch_course_twoWayEntry :
    ∃ g r, (Graph.ofProgram twoWayEntry).1 = .ok g ∧ r ∈ (Routines.ofGraph g [0]).1.all ∧
      (Layout.ofRoutine g r).BranchesHaveExits ∧
      (Layout.ofRoutine g r).tree.1.structured = false ∧
      (Layout.ofRoutine g r).dispatchTree.dispatchCourse g r (fun n => n < 2) 20 =
        .left [0, 2, 1, 2, 3] none := by
  have hexits : twoWayEntry.layout.BranchesHaveExits := by decide +kernel
  refine ⟨_, _, rfl, List.mem_cons_self, hexits, by decide +kernel,
    (dispatch_course_eq [0] List.mem_cons_self hexits _ _).1.trans ?_⟩
  decide +kernel

end Lift6502
