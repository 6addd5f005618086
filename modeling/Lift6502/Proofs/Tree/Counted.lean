import Lift6502.Proofs.Tree.Dispatch
import Lift6502.Proofs.Tree.Monotone

/-!
# Trees get as far as the exits lead

Where the exits lead to an end, the tree of a routine gets there too if its loops may take as many
passes as there are blocks on the way. A machine that counts the blocks shows this.
-/

namespace Lift6502

variable {ε σ : Type} {g : Graph} {M : BlockMachine ε σ} {members : BlockSet}

namespace BlockMachine

/-- The machine with a number of blocks that it may still run. What breaks it off, if not the limit
of a loop, does not matter. -/
def counted (M : BlockMachine ε σ) : BlockMachine Bool (σ × Nat) where
  run b s :=
    match s.2, M.run b s.1 with
    | n + 1, .ok e => .ok (e.map (·, n))
    | _, _ => .error false
  taken b s := M.taken b s.1
  limit := true

theorem counted_run {b : BlockId} {s : σ × Nat} {e : BlockEnd (σ × Nat)}
    (h : M.counted.run b s = .ok e) : M.run b s.1 = .ok (e.map Prod.fst) ∧ e.state.2 < s.2 := by
  obtain ⟨s, n⟩ := s
  unfold counted at h
  simp only at h
  split at h
  · next n e₁ hrun =>
    cases h
    rw [hrun]
    cases e₁ <;> exact ⟨rfl, Nat.lt_succ_self n⟩
  · cases h

theorem bounded_counted (M : BlockMachine ε σ) : M.counted.Bounded Prod.snd where
  on_lt _ _ _ h := (counted_run h).2
  ne_limit b s h := by
    unfold counted at h
    simp only at h
    split at h <;> cases h

theorem counted_le (M : BlockMachine ε σ) : M.counted.Le Prod.fst M :=
  ⟨fun h => (counted_run h).1, fun _ _ => rfl⟩

end BlockMachine

theorem Graph.follow_counted {n : Nat} {b : BlockId} {s : σ} {x : Way × σ}
    (h : g.follow M members n b s = .ok x) :
    ∃ k, g.follow M.counted members n b (s, n) = .ok (x.1, x.2, k) := by
  induction n generalizing b s with
  | zero => cases h
  | succ n ih =>
    rw [follow] at h
    rw [follow]
    rcases hrun : M.run b s with e | (s₁ | s₁) <;> rw [hrun] at h
    · cases h
    · have hcounted : M.counted.run b (s, n + 1) = .ok (.on (s₁, n)) := by
        simp only [BlockMachine.counted, hrun, BlockEnd.map]
      have hexit : g.exitAfter M.counted b (s₁, n) = g.exitAfter M b s₁ := rfl
      simp only [hcounted, hexit] at h ⊢
      rcases hnext : g.exitAfter M b s₁ with _ | t <;> simp only [hnext] at h ⊢
      · cases h
        exact ⟨n, rfl⟩
      · split at h
        · next hin =>
          rw [if_pos hin]
          exact ih h
        · next hout =>
          rw [if_neg hout]
          cases h
          exact ⟨n, rfl⟩
    · cases h
      exact ⟨n, by simp only [BlockMachine.counted, hrun, BlockEnd.map]⟩

/-- Every branch has both exits, and a structured tree keeps all edges. -/
def Layout.IsFaithful (l : Layout) : Prop :=
  l.BranchesHaveExits ∧ (l.tree.1.structured = true → l.KeepsEdges l.arrangement)

namespace Setting

variable {S : Setting} {call : TreeCall} {r : Routine} {fuel n depth : Nat} {core core' : Core}
  {block : Block}

theorem successors_ne_nil {index : Nat} {code : List Instruction}
    (h : S.runCode call block index code core = .ok (.on core')) : block.successors ≠ [] := by
  induction code generalizing index core with
  | nil =>
    rw [runCode] at h
    split at h
    · cases h
    · next hsome => simpa using hsome
  | cons i rest ih =>
    rw [runCode] at h
    split at h
    · cases h
    · split at h
      · cases h
      · split at h
        · cases h
        · exact ih h
    · split at h
      · cases h
      · exact ih h

theorem endsAtExits_machine : Layout.EndsAtExits S.graph (S.machine call) :=
  fun _ _ _ h => successors_ne_nil h

theorem runTree_of_follow (hentry : r.entry ∈ r.blocks)
    (hfaithful : (Layout.ofRoutine S.graph r).IsFaithful) {x : Way × Core}
    (h : S.graph.follow (S.machine call) r.blocks n r.entry core = .ok x) :
    S.runTree call (n + 1) r (Layout.ofRoutine S.graph r).tree.1 core = .ok x := by
  obtain ⟨hexits, hkept⟩ := hfaithful
  unfold runTree
  split
  · next hstructured =>
    have hends : Layout.EndsAtExits S.graph (S.machine call).counted :=
      fun b s s' hrun => endsAtExits_machine b s.1 s'.1 (BlockMachine.counted_run hrun).1
    obtain ⟨hshape, hfollows⟩ := Layout.follows_of_structured hends
      (Layout.takesExits_of_branchesHaveExits _ hentry hexits) hentry hstructured
      (hkept hstructured)
    obtain ⟨k, hcounted⟩ := Graph.follow_counted h
    have hrun := Layout.runAll_eq_of_finishes (BlockMachine.bounded_counted _) hshape hfollows
      (s := (core, n)) (Nat.lt_succ_self n) (by simp) ⟨n, hcounted⟩ r.entry
    exact ControlNode.runAll_mono (S.machine call).counted_le (Nat.le_refl _) _ hrun
  · next hstructured =>
    rw [Layout.tree_eq_dispatch (by simpa using hstructured)]
    refine (Layout.runArms_order endsAtExits_machine hexits _ _ core).trans ?_
    rw [Graph.follow_mono (Nat.le_succ n) (by simp [h]), h]

/-- Runs a routine like `run`, but along the exits of its blocks, of which at most `fuel` are run
before it ends. -/
def follow (S : Setting) (fuel : Nat) : Nat → Routine → Core → Except Stop Core
  | 0, _, _ => .error .depth
  | depth + 1, r, c =>
    S.outcome (S.follow fuel depth)
      (S.graph.follow (S.machine (S.follow fuel depth)) r.blocks fuel r.entry c)

theorem run_of_follow (hentry : ∀ q ∈ S.routines.all, q.entry ∈ q.blocks)
    (hfaithful : ∀ q ∈ S.routines.all, (Layout.ofRoutine S.graph q).IsFaithful)
    (hr : r ∈ S.routines.all) (h : S.follow n depth r core = .ok core') :
    S.run (n + 1) depth r core = .ok core' := by
  induction depth generalizing r core core' with
  | zero => cases h
  | succ depth ih =>
    have henter : S.enter (S.follow n depth) (n + 1) r core = .ok core' := by
      rw [follow] at h
      rcases hblocks : S.graph.follow (S.machine (S.follow n depth)) r.blocks n r.entry core with
        e | x <;> rw [hblocks] at h
      · cases h
      · rw [enter, runTree_of_follow (hentry r hr) (hfaithful r hr) hblocks]
        exact h
    -- What is called ends in the tree as it does along the exits.
    exact (Le.refl S).enter
      (fun hcallee hcall => ih (List.mem_of_find?_eq_some hcallee) hcall) (Nat.le_refl _) henter

end Setting

end Lift6502
