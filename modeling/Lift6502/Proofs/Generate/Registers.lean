import Lift6502.Proofs.Generate.Expectations
import Lift6502.Proofs.Generate.Written
import Lift6502.Proofs.Routine.Clobbers
import Lift6502.Proofs.Tree.Dispatch

/-!
# What running a routine leaves alone

A run of a routine's tree keeps what the blocks that the entry reaches keep, and in particular every
register that the routine does not clobber.
-/

namespace Lift6502

open ControlNode

def Routine.reach (r : Routine) (g : Graph) : Surroundings where
  graph := g
  runs := Routines.Reaches g r
  away := fun t => ∃ b, Routines.Reaches g r b ∧ t ∈ g.successors b

section

variable {ε σ : Type} {M : BlockMachine ε σ} {K : σ → σ → Prop} {u : Surroundings} {fuel : Nat}
  {next : BlockId}

structure KeptIn (M : BlockMachine ε σ) (K : σ → σ → Prop) (u : Surroundings) : Prop where
  refl : ∀ s, K s s
  trans : ∀ {s t u}, K s t → K t u → K s u
  block : ∀ b, u.runs b → ∀ {s e}, M.run b s = .ok e → K s e.state

theorem KeptIn.runNodes (h : KeptIn M K u) {around : List LoopContext}
    {nodes : List ControlNode} (hwell : u.AllWellFormed around nodes) {s : σ} {r : Way × σ}
    (hrun : runAll M fuel next nodes s = .ok r) : Obeys K u around s r :=
  Kept.runNodes nodes ⟨h.refl, h.trans, fun b hb =>
    h.block b (runs_of_mem_blocksRun nodes hwell hb)⟩ hwell hrun

theorem KeptIn.runArms (h : KeptIn M K u) {order : List BlockId} (hnodup : order.Nodup)
    (horder : ∀ b ∈ order, u.runs b ∧ ∀ t ∈ u.graph.successors b, u.away t) {members : BlockSet}
    {passes : Nat} {s : σ} {r : Way × σ}
    (hrun : runArms M fuel members (order.map u.graph.dispatchArm) passes next s = .ok r) :
    Obeys K u [] s r := by
  induction passes generalizing next s with
  | zero => cases hrun
  | succ passes ih =>
    rw [ControlNode.runArms] at hrun
    -- One arm runs, that of the next block; if there is none, the pass does nothing.
    by_cases hnext : next ∈ order
    · rw [Graph.runAll_arms hnodup hnext] at hrun
      have hwell :=
        Surroundings.allWellFormed_dispatchArm (horder next hnext).1 (horder next hnext).2
      rcases harm : runAll M fuel next (.block next :: dispatchExit u.graph next) s with
        e | ⟨way1, s1⟩ <;> rw [harm] at hrun
      · cases hrun
      have hobeys := h.runNodes hwell harm
      cases way1 with
      | onward => exact (ih hrun).imp_left (h.trans hobeys.1)
      | away t =>
        simp only at hrun
        split at hrun
        · exact (ih hrun).imp_left (h.trans hobeys.1)
        · cases hrun
          exact hobeys
      | finished | continueLoop | breakLoop =>
        cases hrun
        exact hobeys
    · rw [Graph.runAll_arms_of_not_mem hnext] at hrun
      exact ih hrun

end

namespace Program.HasRoutine

variable {p : Program} {o : Options} {g : Graph} {rs : Routines} {r : Routine} {S : Setting}
  {call : TreeCall} {fuel : Nat} {core core' : Core} {way : Way}

variable (h : p.HasRoutine o g rs r)

include h

/-- A run of a routine's tree keeps what the blocks keep that the entry reaches, and control leaves
it along an edge of one of them. -/
theorem keptIn_runTree {K : Core → Core → Prop} (hkept : KeptIn (S.machine call) K (r.reach g))
    (hrun : S.runTree call fuel r (Layout.ofRoutine g r).tree.1 core = .ok (way, core')) :
    K core core' ∧ way.FitsIn (r.reach g) [] := by
  unfold Setting.runTree at hrun
  split at hrun
  · next hstructured =>
    have hwell : (r.reach g).AllWellFormed [] (Layout.ofRoutine g r).tree.1.nodes :=
      h.standard.wellFormed_tree (fun b t hb ht _ => ⟨b, hb, ht⟩) hstructured
    exact hkept.runNodes hwell hrun
  · next hstructured =>
    have htree := Layout.tree_eq_dispatch (l := Layout.ofRoutine g r) (by simpa using hstructured)
    rw [htree] at hrun
    refine hkept.runArms Dominators.nodup_order (fun b hb => ?_) hrun
    have hreach := h.standard.mem_order.1 hb
    exact ⟨hreach, fun t ht => ⟨b, hreach, ht⟩⟩

theorem clobber : Routines.Clobber g rs Routine.clobbers := by
  obtain ⟨roots, -, -, -, rfl, -⟩ := h
  exact Routines.clobber_ofGraph g roots

theorem of_mem {q : Routine} (hq : q ∈ rs.all) : p.HasRoutine o g rs q := by
  obtain ⟨roots, hg, hroots, hne, hrs, -⟩ := h
  exact ⟨roots, hg, hroots, hne, hrs, hq⟩

theorem of_atEntry? {entry : BlockId} {callee : Routine}
    (hcallee : rs.atEntry? entry = some callee) : p.HasRoutine o g rs callee :=
  h.of_mem (List.mem_of_find?_eq_some hcallee)

theorem spares (hroutines : S.routines = rs) {q : Register} (hq : q ∉ r.clobbers) {b : BlockId}
    (hb : Routines.Reaches g r b) {k : Nat} {i : Instruction} (hi : (g.block b).code[k]? = some i) :
    S.Spares (g.block b) (.register q) k i := by
  -- What a call clobbers is counted for its routine, besides what the instruction writes itself.
  refine ⟨fun hmem => ?_, fun _ callee hcallee q' hq' hclobbers => ?_⟩
  · exact hq (h.clobber.writes r h.mem_all b hb i (List.mem_of_getElem? hi) q hmem)
  · cases hq'
    rw [hroutines] at hcallee
    have hk := (List.getElem?_eq_some_iff.1 hi).1
    exact hq (h.clobber.calls r h.mem_all b hb k hk callee hcallee q hclobbers)

theorem register_enter (hgraph : S.graph = g) (hroutines : S.routines = rs)
    (hwork : S.work? = p.codeWork?) (hcall : KeepsRegisters rs call) {q : Register}
    (hq : q ∉ r.clobbers) (hrun : S.enter call fuel r core = .ok core') :
    core'.cpu.register q = core.cpu.register q := by
  subst hgraph
  have hkept : KeptIn (S.machine call)
      (fun c c' => c'.cpu.value (.register q) = c.cpu.value (.register q)) (r.reach S.graph) := by
    refine ⟨fun _ => rfl, fun h h' => h'.trans h, fun b hb c e hblock => ?_⟩
    refine Setting.value_runCode hwork (by rw [hroutines]; exact hcall) (fun k i hi => ?_) hblock
    rw [Nat.zero_add]
    exact h.spares hroutines hq hb hi
  unfold Setting.enter at hrun
  rcases htree : S.runTree call fuel r (Layout.ofRoutine S.graph r).tree.1 core with
    e | ⟨way, core1⟩ <;> rw [htree] at hrun
  · cases hrun
  obtain ⟨hvalue, hfits⟩ := h.keptIn_runTree hkept htree
  have hregister : core1.cpu.register q = core.cpu.register q := UInt8.toUInt32_inj.1 hvalue
  rw [← hregister]
  -- What takes over along an edge clobbers no more than the routine itself.
  cases way with
  | onward | finished =>
    cases hrun
    rfl
  | breakLoop | continueLoop => cases hrun
  | away t =>
    unfold Setting.outcome Setting.finish at hrun
    simp only [hroutines] at hrun
    rcases hcallee : rs.atEntry? t with _ | callee <;> simp only [hcallee] at hrun
    · cases hrun
    obtain ⟨b, hb, ht⟩ := hfits
    exact hcall hcallee hrun q fun hclobbers =>
      hq (h.clobber.exits h.separate h.mem_all hb ht hcallee hclobbers)

end Program.HasRoutine

theorem Program.HasRoutine.keepsRegisters_run {p : Program} {o : Options} {g : Graph}
    {rs : Routines} {r : Routine} (h : p.HasRoutine o g rs r) (fuel depth : Nat) :
    KeepsRegisters rs (Setting.run ⟨g, rs, p.codeWork?⟩ fuel depth) := by
  -- Induction on the depth: the routines that are called keep their registers.
  induction depth with
  | zero =>
    intro entry callee core core' hcallee hrun
    cases hrun
  | succ depth ih =>
    intro entry callee core core' hcallee hrun q hq
    exact (h.of_atEntry? hcallee).register_enter rfl rfl rfl ih hq hrun

end Lift6502
