import Lift6502.Proofs.Generate.Failures
import Lift6502.Proofs.Generate.Pass

/-!
# Whatever a tree runs has been generated

The generator passes over nodes behind which no state goes on, and no run of the tree gets to them.
-/

namespace Lift6502

open Gen Generator ControlNode
open Evaluator (isFor)

variable {ε σ : Type} {M : BlockMachine ε σ} {c : Generator} {r : Except ε (Way × σ)}
  {p p' : Progress} {label : Option String}

def Generator.Generates (c : Generator) (b : BlockId) : Prop :=
  ∃ s p flow p', Yields (c.block b s) p flow p'

def HasBreak (label : Option String) (frames : List Frame) : Prop :=
  ∃ k f, jumpPosition? label frames = some k ∧ frames[k]? = some f ∧ f.breaks ≠ []

/-- What a run of some nodes has come to is known from their generation, which left a
flow and frames. -/
def Accounts (c : Generator) (M : BlockMachine ε σ) (flow : Option SymbolicState)
    (frames : List Frame) :
    Except ε (Way × σ) → Prop
  | .error e => e = M.limit ∨ ∃ b s, c.Generates b ∧ M.run b s = .error e
  | .ok (.onward, _) => flow.isSome = true
  | .ok (.breakLoop label, _) => HasBreak label frames
  | .ok (.continueLoop _, _) | .ok (.finished, _) | .ok (.away _, _) => True

theorem HasBreak.toLater (h : HasBreak label p.frames)
    (hlater : p.Later p') : HasBreak label p'.frames := by
  obtain ⟨k, f, hk, hf, hbreaks⟩ := h
  have hlt : k < p'.frames.length := by
    rw [hlater.length]
    exact (List.getElem?_eq_some_iff.1 hf).1
  have hf' := List.getElem?_eq_getElem hlt
  refine ⟨k, _, (jumpPosition?_eq_of_later hlater label).trans hk, hf', fun hnil => ?_⟩
  have hmore := (hlater.frame k f _ hf hf').breaks
  rw [hnil, List.prefix_nil] at hmore
  exact hbreaks hmore

theorem hasBreak_cons {f : Frame} {rest : List Frame} {target : Option String} :
    HasBreak target (f :: rest) ↔ if isFor f.label target then f.breaks ≠ [] else HasBreak target rest := by
  unfold HasBreak
  rw [jumpPosition?_cons]
  split
  · constructor
    · rintro ⟨k, g, hk, hg, hbreaks⟩
      cases hk
      cases hg
      exact hbreaks
    · exact fun hbreaks => ⟨0, f, rfl, rfl, hbreaks⟩
  · constructor
    · rintro ⟨k, g, hk, hg, hbreaks⟩
      obtain ⟨j, hj, rfl⟩ := Option.map_eq_some_iff.1 hk
      exact ⟨j, g, hj, hg, hbreaks⟩
    · rintro ⟨j, g, hj, hg, hbreaks⟩
      exact ⟨j + 1, g, by rw [hj]; rfl, hg, hbreaks⟩

theorem Accounts.toLater {flow : Option SymbolicState}
    (h : Accounts c M flow p.frames r) (hlater : p.Later p') : Accounts c M flow p'.frames r := by
  rcases r with e | ⟨way, s⟩
  · exact h
  · cases way with
    | breakLoop label => exact HasBreak.toLater h hlater
    | onward | continueLoop | finished | away => exact h

theorem Accounts.flow {flow flow' : Option SymbolicState} {frames : List Frame}
    (h : Accounts c M flow frames r) (hflow : flow.isSome = true → flow'.isSome = true) :
    Accounts c M flow' frames r := by
  rcases r with e | ⟨way, s⟩
  · exact h
  · cases way with
    | onward => exact hflow h
    | breakLoop | continueLoop | finished | away => exact h

namespace Generator

variable {s : SymbolicState} {p p' : Progress} {flow : Option SymbolicState} {condition : Condition}

theorem hasBreak_leaveLoop (hy : Yields (c.leaveLoop label s) p flow p') :
    HasBreak label p'.frames := by
  obtain ⟨k, p1, hposition, hy1⟩ := hy.of_bind
  obtain ⟨hk, rfl⟩ := yields_framePosition.1 hposition
  obtain ⟨_, p2, hrecord, hy2⟩ := hy1.of_bind
  obtain ⟨-, rfl⟩ := yields_emit_pure.1 hy2
  have hlt := Stage.jumpPosition?_lt hk
  obtain ⟨p4, hassign, rfl⟩ := (yields_recordBreak (List.getElem?_eq_getElem hlt)).1 hrecord
  have hframes : p4.frames = p1.frames := (yields_assignFollow hassign).2.2.1
  refine ⟨k, { p1.frames[k] with breaks := p1.frames[k].breaks ++ [s] }, ?_, ?_, by simp⟩
  · exact (jumpPosition?_eq_of_later ((steady_recordBreak k s).grows hrecord).toLater label).trans
      hk
  · show (p4.frames.set k _)[k]? = _
    rw [hframes, List.getElem?_set_self hlt]

theorem yields_conditional {join : Option BlockId} {thenBranch elseBranch : PathGen}
    (he : ∀ s, Steady (elseBranch s))
    (hy : Yields (c.conditional condition thenBranch elseBranch join s) p flow p') :
    ∃ p1 thenFlow p2 p3 elseFlow p4, Yields (thenBranch s) p1 thenFlow p2 ∧ p2.Later p' ∧
      Yields (elseBranch s) p3 elseFlow p4 ∧ p4.Later p' ∧
      flow.isSome = (thenFlow.isSome || elseFlow.isSome) := by
  unfold conditional at hy
  obtain ⟨test, p1, -, hy1⟩ := hy.of_bind
  obtain ⟨⟨thenFlow, thenOut⟩, q2, hcaptured, hy2⟩ := hy1.of_bind
  obtain ⟨⟨elseFlow, elseOut⟩, q4, hcaptured', hy3⟩ := hy2.of_bind
  obtain ⟨⟨joined, onThen, onElse⟩, q5, hjoin, hy4⟩ := hy3.of_bind
  obtain ⟨_, hemit, rfl⟩ := Yields.bind_pure_iff.1 hy4
  have hgrows := grows_capture (he s) hcaptured'
  obtain ⟨p2, hthen, rfl, rfl⟩ := yields_capture.1 hcaptured
  obtain ⟨p4, helse, rfl, rfl⟩ := yields_capture.1 hcaptured'
  have hlast := ((threads_steady.join False.elim False.elim _).grows hjoin).trans
    ((composable_steady.emitConditional _ _ _).grows hemit)
  refine ⟨_, thenFlow, p2, _, elseFlow, p4, hthen, ?_, helse, ?_, ?_⟩
  · exact (p2.later_out _).trans (hgrows.trans hlast).toLater
  · exact (p4.later_out _).trans hlast.toLater
  · unfold Generator.join at hjoin
    split at hjoin
    · obtain ⟨_, _, -, hpure⟩ := hjoin.of_bind
      cases hpure.of_pure.1
      rfl
    all_goals
      cases hjoin.of_pure.1
      rfl

section Passes

variable {task : LoopTask} {phis : Carriers}

theorem yields_passBody {u : Unit} (hy : Yields (passBody task s) p u p') :
    ∃ bodyFlow q, Yields (task.body s) p bodyFlow q ∧ q.Later p' := by
  obtain ⟨bodyFlow, q, hbody, hrest⟩ := hy.of_bind
  refine ⟨bodyFlow, q, hbody, ?_⟩
  cases bodyFlow with
  | none =>
    obtain ⟨-, rfl⟩ := hrest.of_pure
    exact .refl _
  | some s => exact ((steady_jumpToHeader 0 s).grows hrest).toLater

theorem yields_testedPass {tested : Option (Expression × SymbolicState)}
    (hy : Yields (c.testedPass task condition phis s) p tested p') :
    ∃ bodyFlow q, Yields (task.body s) p bodyFlow q ∧ q.Later p' ∧
      (bodyFlow.isSome = true → tested.isSome = true) := by
  obtain ⟨bodyFlow, q, hbody, hrest⟩ := hy.of_bind
  refine ⟨bodyFlow, q, hbody, ?_⟩
  cases bodyFlow with
  | none =>
    obtain ⟨rfl, rfl⟩ := hrest.of_pure
    exact ⟨.refl _, id⟩
  | some s =>
    obtain ⟨_, hend, rfl⟩ := Yields.map_iff.1 hrest
    exact ⟨((nestable_steady.passEnd c condition phis s).grows hend).toLater, fun _ => rfl⟩

/-- The statement of a loop is made from its body. A test at the end of the body is the way out,
unless the end is never reached; a test at the start is always one. -/
theorem yields_emitLoop {entry : SymbolicState}
    (hy : Yields (c.emitLoop task phis entry) p flow p') :
    ∃ s q bodyFlow q', Yields (task.body s) q bodyFlow q' ∧ q'.Later p' ∧
      (task.kind = .postTest → bodyFlow.isSome = true → flow.isSome = true) ∧
      (task.kind = .preTest → c.Generates task.header ∧ flow.isSome = true) := by
  unfold emitLoop at hy
  split at hy
  · next condition hkind _ =>
    obtain ⟨tested, body, q2, hpass, rfl, hy1⟩ := yields_capture_bind.1 hy
    obtain ⟨bodyFlow, q', hbody, hlater, htested⟩ := yields_testedPass hpass
    have hpre : task.kind = .preTest → c.Generates task.header ∧ flow.isSome = true := by
      rw [hkind]
      exact fun h => absurd h (by decide)
    cases tested with
    | none =>
      obtain ⟨rfl, rfl⟩ := yields_emit_pure.1 hy1
      exact ⟨_, _, bodyFlow, q', hbody, hlater.trans (q2.later_out _), fun _ => htested, hpre⟩
    | some r =>
      obtain ⟨rfl, rfl⟩ := yields_emit_pure.1 hy1
      exact ⟨_, _, bodyFlow, q', hbody, hlater.trans (q2.later_out _), fun _ _ => rfl, hpre⟩
  · next condition hkind _ =>
    obtain ⟨tested, header, q2, hheader, rfl, hy1⟩ := yields_capture_bind.1 hy
    cases tested with
    | none => exact absurd hy1 Yields.not_throw
    | some tested =>
      obtain ⟨test, q3, -, hy2⟩ := hy1.of_bind
      obtain ⟨_, body, q5, hpass, rfl, hy3⟩ := yields_capture_bind.1 hy2
      obtain ⟨rfl, rfl⟩ := yields_emit_pure.1 hy3
      obtain ⟨bodyFlow, q', hbody, hlater⟩ := yields_passBody hpass
      refine ⟨tested, _, bodyFlow, q', hbody, hlater.trans (q5.later_out _), ?_, fun _ => ?_⟩
      · rw [hkind]
        exact fun h => absurd h (by decide)
      · exact ⟨⟨entry, _, some tested, q2, hheader⟩, rfl⟩
  · next hkind =>
    obtain ⟨_, body, q2, hpass, rfl, hy1⟩ := yields_capture_bind.1 hy
    obtain ⟨rfl, rfl⟩ := yields_emit_pure.1 hy1
    obtain ⟨bodyFlow, q', hbody, hlater⟩ := yields_passBody hpass
    rw [hkind]
    exact ⟨entry, _, bodyFlow, q', hbody, hlater.trans (q2.later_out _), fun h =>
      absurd h (by decide), fun h => absurd h (by decide)⟩
  · exact absurd hy Yields.not_throw
  · exact absurd hy Yields.not_throw

/-- A loop is what one attempt at it has given. The frame of the loop is dropped behind it; what it
has noted, or a test, is a way out of the loop. -/
theorem yields_loop_body (hbody : ∀ s, Steady (task.body s))
    (hy : Yields (c.loop task s) p flow p') :
    ∃ s q bodyFlow q' p2 f rest, Yields (task.body s) q bodyFlow q' ∧ q'.Later p2 ∧
      p2.frames = f :: rest ∧ p'.frames = rest ∧ f.label = task.label ∧
      (f.breaks ≠ [] → flow.isSome = true) ∧
      (task.kind = .postTest → bodyFlow.isSome = true → flow.isSome = true) ∧
      (task.kind = .preTest → c.Generates task.header ∧ flow.isSome = true) := by
  obtain ⟨journal, widened, follow, a, q, last, hattempt, -, -, -, hafter⟩ :=
    exists_attempt hbody hy
  obtain ⟨phis, entry, p1, p2, f, rest, -, hloop, hframes, -, -, hbreaks, rfl⟩ :=
    yields_attempt hbody hattempt
  obtain ⟨rfl, htest, hleads⟩ := yields_afterLoop hafter
  obtain ⟨s', q, bodyFlow, q', hrun, hlater, hpost, hpre⟩ := yields_emitLoop hloop
  have hexit : a.testExit.isSome = true → flow.isSome = true := by
    intro hsome
    obtain ⟨exit, hexit⟩ := Option.isSome_iff_exists.1 hsome
    rw [(htest exit hexit).1]
    rfl
  have hframe : (task.frame s phis follow).Grows f :=
    ((nestable_steady.emitLoop c hbody phis entry).grows hloop).frame 0 _ f rfl
    (by rw [hframes]; rfl)
  refine ⟨s', q, bodyFlow, q', p2, f, rest, hrun, hlater, hframes, rfl, hframe.label, fun hne => ?_,
    fun hkind hsome => hexit (hpost hkind hsome), fun hkind =>
      ⟨(hpre hkind).1, hexit (hpre hkind).2⟩⟩
  obtain ⟨state, others, heq⟩ := List.exists_cons_of_ne_nil (hbreaks ▸ hne)
  obtain ⟨s', hs', -⟩ := hleads state (by rw [heq]; exact List.mem_cons_self)
  rw [hs']
  rfl

end Passes

end Generator

def PassAccounts (c : Generator) (M : BlockMachine ε σ) (flow : Option SymbolicState)
    (frames : List Frame) : Except ε (σ ⊕ (Way × σ)) → Prop
  | .error e => e = M.limit ∨ ∃ b s, c.Generates b ∧ M.run b s = .error e
  | .ok (.inl _) => True
  | .ok (.inr r) => Accounts c M flow frames (.ok r)

section Runs

variable {flow bodyFlow : Option SymbolicState} {frames : List Frame} {f : Frame} {again : σ → Bool}
  {kind : LoopKind}

theorem accounts_runPasses {pass : σ → Except ε (σ ⊕ (Way × σ))}
    (hpass : ∀ s, PassAccounts c M flow frames (pass s)) (fuel : Nat) (s : σ) :
    Accounts c M flow frames (runPasses M.limit pass fuel s) := by
  induction fuel generalizing s with
  | zero => exact .inl rfl
  | succ fuel ih =>
    have h := hpass s
    rw [runPasses]
    rcases hp : pass s with e | (s' | r)
    · rw [hp] at h
      exact h
    · exact ih s'
    · rw [hp] at h
      exact h

theorem passAccounts_afterBody
    (hbody : Accounts c M bodyFlow (f :: frames) r) (hbreaks : f.breaks ≠ [] → flow.isSome = true)
    (htest : kind = .postTest → bodyFlow.isSome = true → flow.isSome = true) :
    PassAccounts c M flow frames (r.map (afterBody kind again f.label)) := by
  rcases r with e | ⟨way, s⟩
  · exact hbody
  · cases way with
    | onward =>
      show PassAccounts c M flow frames (.ok (afterBody kind again f.label (.onward, s)))
      rw [afterBody]
      split
      · next hends => exact htest hends.1 hbody
      · trivial
    | continueLoop target =>
      show PassAccounts c M flow frames
          (.ok (afterBody kind again f.label (.continueLoop target, s)))
      rw [afterBody]
      split <;> trivial
    | breakLoop target =>
      show PassAccounts c M flow frames (.ok (afterBody kind again f.label (.breakLoop target, s)))
      have hnoted := hasBreak_cons.1 hbody
      rw [afterBody]
      split at hnoted
      · next hfor =>
        rw [if_pos hfor]
        exact hbreaks hnoted
      · next hfor =>
        rw [if_neg hfor]
        exact hnoted
    | finished | away => trivial

theorem passAccounts_pass {header : BlockId}
    {body : σ → Except ε (Way × σ)} (hbody : ∀ s, Accounts c M bodyFlow (f :: frames) (body s))
    (hbreaks : f.breaks ≠ [] → flow.isSome = true)
    (hpost : kind = .postTest → bodyFlow.isSome = true → flow.isSome = true)
    (hpre : kind = .preTest → c.Generates header ∧ flow.isSome = true) (s : σ) :
    PassAccounts c M flow frames (ControlNode.pass M kind header again f.label body s) := by
  cases kind with
  | postTest | infinite => exact passAccounts_afterBody (hbody s) hbreaks hpost
  | preTest =>
    obtain ⟨hheader, hexit⟩ := hpre rfl
    rw [ControlNode.pass]
    rcases hrun : M.run header s with e | (s' | s')
    · exact .inr ⟨header, s, hheader, hrun⟩
    · simp only
      split
      · exact passAccounts_afterBody (hbody s') hbreaks hpost
      · exact hexit
    · trivial

end Runs

mutual

theorem accounts_node (hM : Layout.EndsAtExits c.graph M) (hreturns : c.graph.ReturnsAtEnds)
    (fuel : Nat) (next : BlockId) :
    ∀ (n : ControlNode) {s : SymbolicState} {p p' : Progress} {flow : Option SymbolicState},
      Yields (c.node n s) p flow p' → ∀ state : σ,
        Accounts c M flow p'.frames (run M fuel next n state)
  | .block b, s, p, p', flow, hy, state => by
    rw [node] at hy
    rw [run]
    rcases hrun : M.run b state with e | (state' | state')
    · exact .inr ⟨b, state, ⟨s, p, flow, p', hy⟩, hrun⟩
    · have hsuccessors := hM b state state' hrun
      exact Option.isSome_iff_ne_none.2 (block_goes_on (hreturns b hsuccessors) hsuccessors hy)
    · trivial
  | .cond condition thenBranch elseBranch join, s, p, p', flow, hy, state => by
    rw [node] at hy
    obtain ⟨p1, thenFlow, p2, p3, elseFlow, p4, hthen, hlater, helse, hlater', hflow⟩ :=
      yields_conditional (c.steady_nodes elseBranch) hy
    rw [run]
    split
    · refine ((accounts_nodes hM hreturns fuel next thenBranch hthen state).toLater hlater).flow ?_
      rw [hflow]
      exact fun h => by rw [h, Bool.true_or]
    · refine ((accounts_nodes hM hreturns fuel next elseBranch helse state).toLater hlater').flow ?_
      rw [hflow]
      exact fun h => by rw [h, Bool.or_true]
  | .loop kind header condition body label follow, s, p, p', flow, hy, state => by
    rw [node] at hy
    obtain ⟨s', q, bodyFlow, q', p2, f, rest, hbody, hlater, hframes, hrest, hlabel, hbreaks, hpost,
      hpre⟩ := yields_loop_body (c.steady_nodes body) hy
    -- Every pass runs the body that was generated in the attempt that is kept.
    have haccounts : ∀ state, Accounts c M bodyFlow (f :: rest) (runAll M fuel next body state) :=
      fun state => hframes ▸ (accounts_nodes hM hreturns fuel next body hbody state).toLater hlater
    rw [run, hrest]
    have hlabel : f.label = label := hlabel
    subst hlabel
    exact accounts_runPasses (passAccounts_pass haccounts hbreaks hpost hpre) fuel state
  | .goto _, _, _, _, _, _, _ => trivial
  | .breakLoop _, _, _, _, _, hy, _ => by
    rw [node] at hy
    exact hasBreak_leaveLoop hy
  | .continueLoop _, _, _, _, _, _, _ => trivial

theorem accounts_nodes (hM : Layout.EndsAtExits c.graph M) (hreturns : c.graph.ReturnsAtEnds)
    (fuel : Nat) (next : BlockId) :
    ∀ (nodes : List ControlNode) {s : SymbolicState} {p p' : Progress}
      {flow : Option SymbolicState},
      Yields (c.nodes nodes s) p flow p' → ∀ state : σ,
        Accounts c M flow p'.frames (runAll M fuel next nodes state)
  | [], _, _, _, _, hy, _ => by
    rw [nodes] at hy
    obtain ⟨rfl, -⟩ := hy.of_pure
    rfl
  | n :: rest, s, p, p', flow, hy, state => by
    rw [nodes] at hy
    obtain ⟨between, p1, hfirst, hrest⟩ := hy.of_bind
    have hn := accounts_node hM hreturns fuel next n hfirst state
    have hlater : p1.Later p' := by
      cases between with
      | none =>
        obtain ⟨-, rfl⟩ := hrest.of_pure
        exact .refl _
      | some s => exact ((c.steady_nodes rest s).grows hrest).toLater
    rw [runAll]
    rcases hrun : run M fuel next n state with e | ⟨way, state'⟩ <;> rw [hrun] at hn
    · exact hn
    · cases way with
      | onward =>
        -- Control goes on, so the nodes behind have been generated, too.
        obtain ⟨s', rfl⟩ := Option.isSome_iff_exists.1 hn
        exact accounts_nodes hM hreturns fuel next rest hrest state'
      | breakLoop label => exact HasBreak.toLater hn hlater
      | continueLoop | finished | away => trivial

end

theorem generates_of_runAll (hM : Layout.EndsAtExits c.graph M) (hreturns : c.graph.ReturnsAtEnds)
    {nodes : List ControlNode} {s : SymbolicState} {flow : Option SymbolicState}
    (hy : Yields (c.nodes nodes s) p flow p') {fuel : Nat} {next : BlockId} {state : σ} {e : ε}
    (he : e ≠ M.limit) (hrun : runAll M fuel next nodes state = .error e) :
    ∃ b state, c.Generates b ∧ M.run b state = .error e := by
  have haccounts := accounts_nodes hM hreturns fuel next nodes hy state
  rw [hrun] at haccounts
  exact haccounts.resolve_left he

end Lift6502
