import Lift6502.Proofs.Generate.Expectations
import Lift6502.Proofs.Generate.Nodes
import Lift6502.Proofs.Tree.Dispatch
import Mathlib.Algebra.Group.Nat.Defs

/-!
# Code for whole routines

The body of a function runs like the tree of its routine. Between two passes of a dispatch loop the
values of the locations are in their variables (`Stage.AtArm`).
-/

namespace Lift6502

open Expression Gen Generator ControlNode Progress
open Evaluator (isFor)

theorem framesOk_nil {p : Progress} (h : p.frames = []) : FramesOk [] p := by
  refine ⟨by rw [h]; rfl, fun i hi => absurd hi List.not_mem_nil, fun k f i hf => ?_,
    fun k f i hf => ?_⟩
  · rw [h] at hf
    cases hf
  · rw [h] at hf
    cases hf

theorem followFresh_nil {p : Progress} (h : p.frames = []) (i : Issue) :
    FollowFresh p.frames i := by
  rw [h]
  exact fun f hf => absurd hf List.not_mem_nil

variable {arms : List ControlNode}

theorem ControlNode.runArms_of_leaves {ε σ : Type} {M : BlockMachine ε σ} {fuel passes : Nat}
    {members : BlockSet} {next : BlockId} {s s' : σ} {way : Way}
    (h : runAll M fuel next arms s = .ok (way, s')) (hway : way ≠ .onward)
    (hout : ∀ t ∈ members, way ≠ .away t) :
    runArms M fuel members arms (passes + 1) next s = .ok (way, s') := by
  rw [runArms, h]
  cases way with
  | onward => exact absurd rfl hway
  | away t => exact if_neg fun ht => hout t ht rfl
  | finished | continueLoop | breakLoop => rfl

namespace Stage

variable {S : Stage} {bases : Bases} {p p' : Progress} {σ σ' : Scene} {flow : Option SymbolicState}
  {r : CodeRun} {entry : SymbolicState} {plan : DispatchPlan}
  {core core' : Core} {b next : BlockId} {t : TreeRun} {body : List (List Statement)}
  {code : List Statement} {c : Generator}

/-! ## Outside all loops -/

/-- Control that leaves a tree outside all loops goes to a block of a dispatch loop, or it ends
the routine. -/
theorem MirrorsWay.at_top {way : Way} (h : S.MirrorsWay bases p σ flow p' (way, core) r)
    (hway : way ≠ .onward) (hframes : p.frames = []) : (∃ t ∈ S.generator.routine.blocks,
      way = .away t ∧ ∃ σ', r = .ok (.continueLoop (some dispatchLabel), σ') ∧ S.AtArm t core σ') ∨
    (∀ t ∈ S.generator.routine.blocks, way ≠ .away t) ∧
      S.Ends (S.setting.finish S.call (way, core)) r := by
  -- Outside all loops no jump has a position.
  have hnone : ∀ {label k}, jumpPosition? label p.frames ≠ some k := by
    intro label k hk
    have hlt := jumpPosition?_lt hk
    rw [hframes] at hlt
    cases hlt
  cases way with
  | onward => exact absurd rfl hway
  | finished => exact .inr ⟨fun _ _ => nofun, h⟩
  | away t =>
    by_cases ht : t ∈ S.generator.routine.blocks
    · exact .inl ⟨t, ht, rfl, (mirrorsWay_away_of_mem ht).1 h⟩
    · refine .inr ⟨fun u hu heq => ?_, (mirrorsWay_away_of_not_mem ht).1 h⟩
      cases heq
      exact ht hu
  | continueLoop label =>
    obtain ⟨k, -, -, -, hk, -⟩ := h
    exact absurd hk hnone
  | breakLoop label =>
    obtain ⟨k, -, -, -, hk, -⟩ := h
    exact absurd hk hnone

theorem ends_structuredBody (hstructured : S.generator.dispatch = none) (hcalls : S.CallsMirror)
    (next : BlockId) {u : Surroundings} {t : ControlTree} (hwell : u.AllWellFormed [] t.nodes)
    {u' : Unit} (hy : Yields (S.generator.structuredBody t entry) p u' p') (hframes : p.frames = [])
    (hm : Matches issue core S.base entry p σ) :
    S.Ends (S.setting.outcome S.call (S.runNodes next t.nodes core))
      (S.host.run (p.emitted p') σ) := by
  obtain ⟨flow, p1, hnodes, hret⟩ := hy.of_bind
  have hgrows := (S.generator.steady_nodes t.nodes entry).grows hnodes
  have hmirrors :=
    sound_nodes hstructured hcalls next t.nodes hwell [] entry core p σ flow p1 hnodes
    (framesOk_nil hframes) (followFresh_nil hframes _) (by rw [hframes]; rfl) hm
  have hrest : p1.out.toList <+: p'.out.toList := by
    cases flow with
    | none =>
      obtain ⟨-, rfl⟩ := hret.of_pure
      exact List.prefix_refl _
    | some s => exact ((threads_steady.ret False.elim _).grows hret).out
  -- A tree that control leaves at its end returns there; otherwise the return is not reached.
  rw [emitted_trans hgrows.out hrest]
  rcases hrun : S.runNodes next t.nodes core with e | ⟨way, core1⟩ <;> rw [hrun] at hmirrors
  · obtain ⟨e', he', hr⟩ := hmirrors
    refine ⟨e', he', ?_⟩
    rw [Host.run_append_of_ne_normal (fun σ' => by simp [hr]), hr]
  by_cases hway : way = .onward
  · subst hway
    obtain ⟨s1, σ1, rfl, hr, hm1, -⟩ := hmirrors
    rw [Host.run_append_of_normal hr]
    exact returns_ret hret hm1
  · have hmirrors : S.MirrorsWay _ p σ flow p1 (way, core1) _ := hmirrors
    rw [Host.run_append_of_ne_normal (hmirrors.ne_normal hway)]
    rcases hmirrors.at_top hway hframes with ⟨t, -, -, σ', -, hat⟩ | ⟨-, hends⟩
    -- Only a dispatch loop has arms to jump to.
    · have hplanned := hat.planned
      rw [hstructured] at hplanned
      cases hplanned
    · exact hends

theorem sound_gotoOnly (hcalls : S.CallsMirror) (hplan : S.PlanOk) {labels : List (Option String)}
    (target : BlockId) :
    S.Sound labels (S.generator.nodes [.goto target]) (S.runNodes next [.goto target]) :=
  Sound.cons (sound_goto hcalls hplan target) (sound_nil next)

theorem sound_arm (hcalls : S.CallsMirror) (hplan : S.PlanOk) (labels : List (Option String))
    (b next : BlockId) : S.Sound labels
    (S.generator.nodes (.block b :: dispatchExit S.generator.graph b))
      (S.runNodes next (.block b :: dispatchExit S.generator.graph b)) := by
  refine (sound_blockNode hcalls b next).cons ?_
  unfold dispatchExit
  simp only
  split
  · next taken fall _ _ =>
    split
    · exact ((sound_gotoOnly hcalls hplan taken).condNode (sound_gotoOnly hcalls hplan fall) b true
        none).cons (sound_nil next)
    · exact sound_gotoOnly hcalls hplan fall
  -- A block without successors has returned, so that its arm has no jump.
  · cases (S.generator.graph.block b).successors.head? with
    | none => exact sound_nil next
    | some t => exact sound_gotoOnly hcalls hplan t

theorem AtArm.matches (h : S.AtArm b core σ) (hplan : S.generator.dispatch = some plan)
    (hissued : ∀ l, (plan.carriers.get l).IsIssued p.issue) :
    Matches issue core S.base (S.generator.stateAtArm plan b) p σ := by
  refine ⟨⟨fun l => ?_, h.stack⟩, h.memory⟩
  unfold stateAtArm
  rw [SymbolicState.get, PerLocation.get_ofFn]
  split
  · next hl =>
    exact Binding.holds_ofVariable
      (Environment.known_eq_some (hissued l) (h.carrier plan hplan l hl))
  · exact Binding.holds_unresolved _

theorem AtArm.hasValue_test (h : S.AtArm next core σ) (b : BlockId) (hb : b < 2 ^ 32)
    (hnext : next < 2 ^ 32) :
    (mkBinary .eq (.var .dispatch) (.literal (UInt32.ofNat b))).HasValue σ.env.get?
      (b == next).toUInt32 := by
  have hvalue := HasValue.mkBinary .eq (by rintro (h | h) <;> cases h) (.var h.next)
    (.literal (UInt32.ofNat b))
  -- Numbers that fit in a word are the same if the words are.
  have heq : (UInt32.ofNat next == UInt32.ofNat b) = (b == next) := by
    rw [Bool.eq_iff_iff, beq_iff_eq, beq_iff_eq]
    constructor
    · intro heq
      have hnat := congrArg UInt32.toNat heq
      rw [UInt32.toNat_ofNat_of_lt' hb, UInt32.toNat_ofNat_of_lt' hnext] at hnat
      exact hnat.symm
    · rintro rfl
      rfl
  rw [← heq]
  exact hvalue

theorem Mirrors.ne_normal (h : S.Mirrors bases p σ none p' t r) (σ' : Scene) :
    r ≠ .ok (.normal, σ') := by
  rcases t with e | ⟨way, core⟩
  · obtain ⟨e', -, rfl⟩ := h
    nofun
  by_cases hway : way = .onward
  · subst hway
    obtain ⟨s, σ', hs, -⟩ := h
    cases hs
  · exact MirrorsWay.ne_normal h hway σ'

theorem Mirrors.andThen_eq (h : S.Mirrors bases p σ none p' t r)
    (rest : Core → TreeRun) : andThen t rest = t := by
  rcases t with e | ⟨way, core⟩
  · rfl
  cases way with
  | onward =>
    obtain ⟨s, σ', hs, -⟩ := h
    cases hs
  | finished | away | continueLoop | breakLoop => rfl

/-- A pass of a dispatch loop, in the tree and in code: no arm runs, or control leaves
through one. -/
def PassesArms (S : Stage) (core : Core) (σ : Scene) (t : TreeRun) (r : CodeRun) : Prop :=
  t = .ok (.onward, core) ∧ r = .ok (.normal, σ) ∨
    ∃ p p', p.frames = [] ∧ S.Mirrors [] p σ none p' t r

theorem passesArms (hcalls : S.CallsMirror) (hplan : S.generator.dispatch = some plan)
    (hok : S.PlanOk) {order : List BlockId} (hsize : ∀ b ∈ order, b < 2 ^ 32)
    (hy : Yields ((order.map S.generator.graph.dispatchArm).mapM
      (S.generator.dispatchArm plan entry)) p body p') (hframes : p.frames = [])
    (hissued : ∀ l, (plan.carriers.get l).IsIssued p.issue) (hnext : next < 2 ^ 32)
    (hat : S.AtArm next core σ) :
    S.PassesArms core σ (S.runNodes next (order.map S.generator.graph.dispatchArm) core)
      (S.host.run body.flatten σ) := by
  -- Induction on the arms: those before the one of the next block do nothing.
  induction order generalizing p body with
  | nil =>
    rw [List.map_nil, List.mapM_nil] at hy
    obtain ⟨rfl, -⟩ := hy.of_pure
    exact .inl ⟨rfl, rfl⟩
  | cons b rest ih =>
    rw [List.map_cons, List.mapM_cons] at hy
    obtain ⟨code, p1, harm, hy1⟩ := hy.of_bind
    obtain ⟨later, hrest, rfl⟩ := Yields.bind_pure_iff.1 hy1
    obtain ⟨flow, text, q, hnodes, htext, hy2⟩ := yields_capture_bind.1 harm
    obtain rfl : flow = none := dispatchArm_ends hnodes
    obtain ⟨test, p4, htest, hpure⟩ := hy2.of_bind
    obtain ⟨rfl, rfl⟩ := htest.of_pure
    obtain ⟨rfl, rfl⟩ := hpure.of_pure
    have hgrows := (S.generator.steady_nodes _ _).grows hnodes
    have hframes' : q.frames = [] :=
      List.eq_nil_of_length_eq_zero (by rw [hgrows.length, hframes]; rfl)
    have hlater := ih (fun c hc => hsize c (List.mem_cons_of_mem b hc)) hrest hframes'
      fun l => (hissued l).mono hgrows.issue
    have hcond := run_cond (H := S.host) text []
      (hat.hasValue_test b (hsize b List.mem_cons_self) hnext).hasTruth
    rw [List.map_cons, S.runNodes_cons, List.flatten_cons, Graph.dispatchArm, run,
      Condition.holds]
    by_cases heq : b = next
    · -- The arm of the next block; control does not come to the arms behind it.
      subst heq
      have hmirrors := sound_arm hcalls hok [] b b [] _ core { p with out := #[] } σ none q hnodes
        (framesOk_nil hframes) (followFresh_nil hframes _) (by rw [hframes]; rfl)
        (hat.matches hplan hissued)
      rw [emitted_of_empty rfl htext] at hmirrors
      rw [beq_self_eq_true, if_pos rfl] at hcond ⊢
      refine .inr ⟨{ p with out := #[] }, q, hframes, ?_⟩
      rw [Host.run_append_of_ne_normal (fun σ' => by rw [hcond]; exact hmirrors.ne_normal σ'),
        hcond]
      have hthen := hmirrors.andThen_eq (S.runNodes b (rest.map S.generator.graph.dispatchArm))
      exact hthen ▸ hmirrors
    · have hholds : (b == next) = false := by simpa using heq
      rw [hholds] at hcond ⊢
      rw [Host.run_append_of_normal hcond]
      exact hlater

/-! ## Dispatch loops -/

theorem ends_runArms (hsize : ∀ b ∈ S.generator.routine.blocks, b < 2 ^ 32)
    (hpass : ∀ {next core σ}, next < 2 ^ 32 → S.AtArm next core σ →
      S.PassesArms core σ (S.runNodes next arms core) (S.host.run code σ))
    (passes : Nat) (hnext : next < 2 ^ 32) (hat : S.AtArm next core σ) : S.Ends
      (S.setting.outcome S.call (runArms S.machine S.host.fuel
        S.generator.routine.blocks arms passes next core)) (runPasses (.stepLimit S.host.fuel)
        (Statement.pass S.host.function .forever (some dispatchLabel) (S.host.run code)) passes
        σ) := by
  -- Induction on the passes; between two of them the next block has its values.
  induction passes generalizing next core σ with
  | zero => exact ⟨_, rfl, rfl⟩
  | succ passes ih =>
    rw [runPasses]
    unfold Statement.pass
    rcases hpass hnext hat with ⟨ht, hr⟩ | ⟨p, p', hframes, hmirrors⟩
    · have ht : runAll S.machine S.host.fuel next arms core = .ok (.onward, core) := ht
      rw [runArms, ht, hr]
      exact ih hnext hat
    · unfold runNodes at hmirrors
      rcases hrun : runAll S.machine S.host.fuel next arms core with
        e | ⟨way, core'⟩ <;> rw [hrun] at hmirrors
      · obtain ⟨e', he', hr⟩ := hmirrors
        rw [runArms, hrun, hr]
        exact ⟨e', he', rfl⟩
      have hway : way ≠ .onward := by
        rintro rfl
        obtain ⟨s, σ', hs, -⟩ := hmirrors
        cases hs
      rcases MirrorsWay.at_top hmirrors hway hframes with ⟨t, ht, rfl, σ', hr, hat'⟩ | ⟨hout, hends⟩
      · rw [runArms, hrun, hr]
        simp only [if_pos ht]
        exact ih (hsize t ht) hat'
      · rw [runArms_of_leaves hrun hway hout, Setting.outcome]
        rcases hfinish : S.setting.finish S.call (way, core') with e | core'' <;>
          rw [hfinish] at hends
        · obtain ⟨e', he', hr⟩ := hends
          rw [hr]
          exact ⟨e', he', rfl⟩
        · obtain ⟨hstack, σ', hr, hmemory⟩ := hends
          rw [hr]
          exact ⟨hstack, σ', rfl, hmemory⟩

theorem yields_carryAll {carriers : PerLocation Variable} (hy : Yields carryAll p carriers p') :
    (∃ last, p.merges ≤ last ∧ p' = { p with merges := last }) ∧
      ∀ l, ∃ id, carriers.get l = .merge l id ∧ id ≤ p'.merges := by
  -- The locations that are not left have their variables.
  have hfold := Yields.foldlM_invariant (I := fun left (c : PerLocation Variable) q =>
    (∃ last, p.merges ≤ last ∧ q = { p with merges := last }) ∧
      ∀ l, l ∉ left → ∃ id, c.get l = .merge l id ∧ id ≤ q.merges) ?_
    ⟨⟨p.merges, Nat.le_refl _, rfl⟩, fun l hl => absurd (Location.mem_all l) hl⟩ hy
  · exact ⟨hfold.1, fun l => hfold.2 l List.not_mem_nil⟩
  · rintro l rest c q c' q' ⟨⟨last, hlast, rfl⟩, hc⟩ hstep
    obtain ⟨v, hnew, rfl⟩ := Yields.bind_pure_iff.1 hstep
    obtain ⟨rfl, rfl⟩ := yields_newMerge.1 hnew
    refine ⟨⟨last + 1, Nat.le_succ_of_le hlast, rfl⟩, fun k hk => ?_⟩
    rw [PerLocation.get_set]
    by_cases hkl : k = l
    · rw [if_pos hkl, hkl]
      exact ⟨last + 1, rfl, Nat.le_refl _⟩
    · rw [if_neg hkl]
      obtain ⟨id, hid, hle⟩ := hc k (by simp [hkl, hk])
      exact ⟨id, hid, Nat.le_succ_of_le hle⟩

theorem out_dispatchArm {arm : ControlNode}
    (hy : Yields (c.dispatchArm plan entry arm) p code p') : p'.out = p.out := by
  unfold dispatchArm at hy
  split at hy
  · obtain ⟨flow, text, q, -, -, hy1⟩ := yields_capture_bind.1 hy
    cases flow with
    | some s => exact absurd hy1 Yields.not_throw
    | none =>
      obtain ⟨test, p2, htest, hpure⟩ := hy1.of_bind
      obtain ⟨-, rfl⟩ := htest.of_pure
      obtain ⟨-, rfl⟩ := hpure.of_pure
      rfl
  · obtain ⟨-, rfl⟩ := hy.of_pure
    rfl

theorem out_dispatchArms
    (hy : Yields (arms.mapM (c.dispatchArm plan entry)) p body p') : p'.out = p.out := by
  induction arms generalizing p p' body with
  | nil =>
    rw [List.mapM_nil] at hy
    rw [hy.of_pure.2]
  | cons arm rest ih =>
    rw [List.mapM_cons] at hy
    obtain ⟨code, p1, harm, hy1⟩ := hy.of_bind
    obtain ⟨later, p2, hrest, hpure⟩ := hy1.of_bind
    rw [hpure.of_pure.2, ih hrest, out_dispatchArm harm]

theorem ends_dispatchLoop (hcalls : S.CallsMirror) {d : Dominators}
    (hsize : ∀ b ∈ S.generator.routine.blocks, b < 2 ^ 32)
    (hentry : S.generator.routine.entry ∈ S.generator.routine.blocks)
    (horder : ∀ b ∈ d.order, b ∈ S.generator.routine.blocks) {top : BlockId} {u : Unit}
    (hy : Yields (S.generator.dispatchLoop (.dispatch S.generator.graph top d) entry) p u p')
    (hframes : p.frames = []) (hm : Matches issue core S.base entry p σ) :
    S.Ends (S.setting.outcome S.call
      (runArms S.machine S.host.fuel S.generator.routine.blocks
        (d.order.map S.generator.graph.dispatchArm) S.host.fuel S.generator.routine.entry core))
      (S.host.run (p.emitted p') σ) := by
  obtain ⟨carriers, p1, hcarry, hy1⟩ := hy.of_bind
  obtain ⟨⟨last, hlast, rfl⟩, hcarriers⟩ := yields_carryAll hcarry
  obtain ⟨_, p2, hsettle, hy2⟩ := hy1.of_bind
  obtain ⟨body, p3, harms, hemit⟩ := hy2.of_bind
  obtain rfl := yields_emit.1 hemit
  -- From here on the generator has a plan.
  let plan : DispatchPlan := ⟨carriers, S.generator.certainlySet⟩
  let S' : Stage := { S with generator := { S.generator with dispatch := some plan } }
  have hok : S'.PlanOk := by
    intro plan' hplan' l
    cases hplan'
    obtain ⟨id, hid, -⟩ := hcarriers l
    exact ⟨id, hid⟩
  have hm' : Matches issue core S'.base entry { p with merges := last } σ :=
    hm.of_issue ⟨Nat.le_refl _, hlast, id⟩
  obtain ⟨σ1, hrun, hat⟩ := run_settleFor (S := S') hok hsettle hm'
  have hsettled :=
    (threads_steady.settleFor False.elim False.elim _ fun _ => trivial).grows hsettle
  have hframes2 : p2.frames = [] :=
    List.eq_nil_of_length_eq_zero (by rw [hsettled.length, hframes]; rfl)
  have hissued : ∀ l, (plan.carriers.get l).IsIssued p2.issue := by
    intro l
    obtain ⟨id, hid, hle⟩ := hcarriers l
    refine Variable.IsIssued.mono ?_ hsettled.issue
    rw [hid]
    exact hle
  have hends := ends_runArms (S := S') hsize
    (fun hnext hat => passesArms (S := S') hcalls rfl hok (fun b hb => hsize b (horder b hb)) harms
      hframes2 hissued hnext hat) S.host.fuel (hsize _ hentry) hat
  have hemitted : p.emitted
      { p3 with out := p3.out.push (.loop .forever (some dispatchLabel) body.flatten) } =
      emitted { p with merges := last } p2 ++
        [.loop .forever (some dispatchLabel) body.flatten] := by
    have hpushed : emitted p2
        { p3 with out := p3.out.push (.loop .forever (some dispatchLabel) body.flatten) } = _ :=
      emitted_push (by rw [out_dispatchArms harms])
    rw [← hpushed]
    exact emitted_trans hsettled.out
      (prefix_push (by rw [out_dispatchArms harms]))
  rw [hemitted, Host.run_append_of_normal hrun, Host.run_singleton, Statement.run]
  exact hends

end Stage

/-- The generator for a routine, as decompiling with some options makes it. -/
def Routine.generator (r : Routine) (p : Program) (g : Graph) (rs : Routines) (o : Options) :
    Generator :=
  { program := p, graph := g, routines := rs, routine := r, maxInline := o.maxInlineExpression }

theorem Program.HasRoutine.ends_body {p : Program} {o : Options} {g : Graph} {rs : Routines}
    {r : Routine} (h : p.HasRoutine o g rs r) (hsize : ∀ b ∈ r.blocks, b < 2 ^ 32) {S : Stage}
    (hgenerator : S.generator = r.generator p g rs o) (hcalls : S.CallsMirror) {u : Unit}
    {p' : Progress} (hy : Yields (S.generator.body (Layout.ofRoutine g r).tree.1) {} u p')
    {core : Core} {σ : Scene} (hm : Matches issue core S.base (.entry r.inputs) {} σ) :
    S.Ends (S.setting.outcome S.call
      (S.setting.runTree S.call S.host.fuel r (Layout.ofRoutine g r).tree.1 core))
      (S.host.run p'.out.toList σ) := by
  obtain ⟨_, p1, hbody, hy1⟩ := hy.of_bind
  obtain rfl := Yields.modify_iff.1 (Yields.get_bind_iff.1 hy1)
  have hroutine : S.generator.routine = r := by rw [hgenerator]; rfl
  have hemitted : p1.out.toList = emitted {} p1 := (emitted_of_empty rfl rfl).symm
  show S.Ends _ (S.host.run p1.out.toList σ)
  rw [hemitted]
  rw [← hroutine] at hm
  unfold Setting.runTree
  split at hbody
  · next hstructured =>
    rw [if_pos hstructured]
    exact Stage.ends_structuredBody (by rw [hgenerator]; rfl) hcalls r.entry
      (h.standard.wellFormed_tree (fun b t hb ht hout => h.away hb ht hout) hstructured)
      hbody rfl hm
  · next hstructured =>
    rw [if_neg hstructured]
    have htree := Layout.tree_eq_dispatch (l := Layout.ofRoutine g r) (by simpa using hstructured)
    have hgraph : S.generator.graph = g := by rw [hgenerator]; rfl
    rw [htree] at hbody ⊢
    have hends := Stage.ends_dispatchLoop (S := S) hcalls (d := (Layout.ofRoutine g r).dominators)
      (by rw [hroutine]; exact hsize) (by rw [hroutine]; exact h.standard.entry_mem)
      (fun b hb => by rw [hroutine]; exact h.standard.mem_blocks (h.standard.mem_order.1 hb))
      (by rw [hgraph]; exact hbody) rfl hm
    rw [hroutine, hgraph] at hends
    exact hends

end Lift6502
