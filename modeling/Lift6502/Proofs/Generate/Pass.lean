import Lift6502.Proofs.Generate.Attempt
import Lift6502.Proofs.Generate.Written

/-!
# Passes of a loop

Each pass of a loop in the tree has a pass of the loop in code. What holds at the top of every pass
is `LoopRun.Top`. -/

namespace Lift6502

open Expression Gen Generator Environment
open Evaluator (isFor)
open Statement (endOfPass)

variable {b : Binding} {l : Location} {H : Host} {base : List UInt8} {p p' : Progress}

/-- A pass in the tree and one in code: both come to the top of the loop again, or both end it. -/
def PassesAlike (top : Core → Scene → Prop) (ends : TreeRun → CodeRun → Prop) :
    TreePass → CodePass → Prop
  | .ok (.inl core), x => ∃ σ, x = .ok (.inl σ) ∧ top core σ
  | .ok (.inr w), x => ∃ r, x = r.map .inr ∧ ends (.ok w) r
  | .error e, x => ∃ r, x = r.map .inr ∧ ends (.error e) r

variable {core : Core} {s : SymbolicState} {σ : Scene}

theorem runPasses_alike {top : Core → Scene → Prop} {ends : TreeRun → CodeRun → Prop} {fuel : Nat}
    {pass : Core → TreePass} {codePass : Scene → CodePass}
    (hlimit : ends (.error .limit) (.error (.stepLimit fuel)))
    (hpass : ∀ core σ, top core σ → PassesAlike top ends (pass core) (codePass σ)) (passes : Nat)
    (h : top core σ) :
    ends (runPasses .limit pass passes core) (runPasses (.stepLimit fuel) codePass passes σ) := by
  -- Induction on the passes that are left; `top` is the invariant between them.
  induction passes generalizing core σ with
  | zero => exact hlimit
  | succ passes ih =>
    have hfirst := hpass core σ h
    rw [runPasses, runPasses]
    rcases hcore : pass core with e | (core' | w) <;> rw [hcore] at hfirst
    · obtain ⟨r, hr, hends⟩ := hfirst
      rw [hr]
      rcases r with e' | r <;> exact hends
    · obtain ⟨σ', hσ', htop⟩ := hfirst
      rw [hσ']
      exact ih htop
    · obtain ⟨r, hr, hends⟩ := hfirst
      rw [hr]
      rcases r with e' | r <;> exact hends

theorem jumpPosition?_cons (target : Option String) (f : Frame) (frames : List Frame) :
    jumpPosition? target (f :: frames) =
      if isFor f.label target then some 0 else (jumpPosition? target frames).map (· + 1) := by
  unfold jumpPosition?
  cases target with
  | none => rfl
  | some name =>
    -- A jump with a name skips every loop of another name.
    simp only [List.findIdx?_cons, isFor, Option.isNone_some, Bool.false_or]
    by_cases h : f.label = some name
    · simp [h]
    · have h' : ¬ some name = f.label := fun heq => h heq.symm
      simp [h, h']

/-! ## The end of a pass that is tested there -/

theorem Binding.Holds.spared {known known' : Known} {w : UInt32}
    {vs : List Variable} (h : b.Holds known l w) (hb : b.mentionsOneOf vs = false)
    (hk : ∀ v, v ∉ vs → ∀ x, known v = some x → known' v = some x) : b.Holds known' l w := by
  intro e he
  -- The value depends only on the variables that the binding reads.
  refine (h e he).congr fun v hv => hk v fun hvs => ?_
  cases b with
  | literal value =>
    cases he
    by_cases hflag : l.isFlag = true <;> simp [hflag, reads] at hv
  | expr e' =>
    cases he
    exact not_mem_reads_of_mentionsOneOf hb hv hvs
  | unresolved origin => cases he

/-- While the state after the test is computed: the carried locations are in their variables, and
what the others hold mentions none of these, except for those that are `left`. -/
structure Exiting (phis : Carriers) (s : SymbolicState) (core : Core) (base : List UInt8)
    (left : List Location) (after : SymbolicState) (p : Progress) (σ : Scene) : Prop where
  matched : Matches Progress.issue core base s p σ
  stack : after.stack = s.stack
  location : ∀ l, (∃ v, phis.get l = some v ∧ after.get l = .ofVariable v) ∨
    (after.get l).Holds (σ.env.known p.issue) l (core.cpu.value l) ∧
      (l ∈ left ∧ after.get l = s.get l ∨ (after.get l).mentionsOneOf phis.carried = false)

namespace Exiting

variable {phis : Carriers} {s after : SymbolicState} {core : Core} {base : List UInt8}
  {left : List Location} {p p' : Progress} {σ σ' : Scene} {l : Location}

theorem set (h : Exiting phis s core base (l :: left) after p σ)
    (hb : (∃ v, phis.get l = some v ∧ b = .ofVariable v) ∨
      b.Holds (σ.env.known p.issue) l (core.cpu.value l) ∧ b.mentionsOneOf phis.carried = false) :
    Exiting phis s core base left (after.set l b) p σ := by
  refine ⟨h.matched, h.stack, fun k => ?_⟩
  rw [SymbolicState.get_set]
  by_cases hk : k = l
  · rw [if_pos hk, hk]
    exact hb.imp id (And.imp_right .inr)
  · rw [if_neg hk]
    refine (h.location k).imp id (And.imp_right (Or.imp_left (And.imp_left fun hmem => ?_)))
    exact (List.mem_cons.1 hmem).resolve_left hk

theorem keep (h : Exiting phis s core base (l :: left) after p σ)
    (hb : (s.get l).mentionsOneOf phis.carried = false) :
    Exiting phis s core base left after p σ := by
  refine ⟨h.matched, h.stack, fun k => ?_⟩
  refine (h.location k).imp id (And.imp_right fun hk => ?_)
  rcases hk with ⟨hmem, hsame⟩ | hk
  · rcases List.mem_cons.1 hmem with rfl | hmem
    · rw [hsame]
      exact .inr hb
    · exact .inl ⟨hmem, hsame⟩
  · exact .inr hk

theorem mono (h : Exiting phis s core base left after p σ)
    (hmove : Moves Progress.issue H p p' σ σ') (hmemory : σ'.memory = σ.memory) :
    Exiting phis s core base left after p' σ' :=
  ⟨h.matched.mono hmove hmemory, h.stack, fun l =>
    (h.location l).imp id (And.imp_left fun hb => hb.mono hmove.known_le)⟩

end Exiting

theorem performs_stateAfterTest {phis : Carriers} (hm : Matches Progress.issue core base s p σ)
    (hphis : ∀ v ∈ phis.carried, ∀ id, v ≠ .temp id) :
    Performs Progress.issue H (stateAfterTest phis s) p σ (Exiting phis s core base []) := by
  -- At the start all locations are left, and each holds what it holds at the test.
  have hstart : Exiting phis s core base Location.all s p σ :=
    ⟨hm, rfl, fun l => .inr ⟨hm.describes.location l, .inl ⟨Location.mem_all l, rfl⟩⟩⟩
  refine Performs.foldlM (fun l left after p1 σ1 h => ?_) hstart
  split
  · next phi hphi => exact .pure (h.set (.inl ⟨phi, hphi, rfl⟩))
  · next value hphi hvalue =>
    split
    -- The value mentions a variable of the loop, which the jump back overwrites: it is kept apart.
    · intro after' p2 hy
      obtain ⟨e, hkeep, rfl⟩ := Yields.bind_pure_iff.1 hy
      obtain ⟨σ2, hmove, hmemory, he⟩ := performs_keepInTemp (H := H) Progress.issue
        ((h.matched.describes.hasValue hvalue).eval_known H.function) e p2 hkeep
      refine ⟨σ2, hmove, (h.mono hmove hmemory).set (.inr ⟨?_, ?_⟩)⟩
      · exact Binding.holds_ofExpression (core.cpu.fits_value l) he
      · have hspared := mentionsOneOf_of_keepInTemp hkeep hphis
        cases e with
        | literal | bool => exact List.any_eq_false.2 fun _ _ => Bool.false_ne_true
        | var | memory | binary | unary => exact hspared
    · next hspared => exact .pure (h.keep (by simpa using hspared))
  · next hphi hvalue =>
    refine .pure (h.keep ?_)
    unfold SymbolicState.expression? at hvalue
    cases hb : s.get l with
    | literal | expr =>
      rw [hb] at hvalue
      cases hvalue
    | unresolved origin => exact List.any_eq_false.2 fun _ _ => Bool.false_ne_true

/-! ## A loop that is kept -/

/-- The code of a loop, from the point before it to the one behind it, with the processor and the
variables before it. -/
structure LoopRun where
  bases : Bases
  before : Progress
  scene : Scene
  core : Core
  state : SymbolicState
  task : LoopTask
  phis : Carriers
  entry : SymbolicState
  start : Progress
  done : Progress
  frame : Frame
  after : Progress
  flow : Option SymbolicState

variable {condition : Condition}

theorem yields_condition {c : Generator} {e : Expression}
    (hy : Yields (c.condition condition s) p e p') : p' = p := by
  unfold Generator.condition at hy
  split at hy
  · dsimp only at hy
    split at hy
    · exact absurd hy Yields.not_throw
    · obtain ⟨value, p1, hread, hpure⟩ := hy.of_bind
      rw [hpure.of_pure.2, (Yields.ofExcept_iff.1 hread).2]
  · exact hy.of_pure.2

theorem Host.pass_testedBefore (H : Host) (test : Expression) (label : Option String)
    (header body : List Statement) :
    ∃ t code, emitLoop.testedBefore test label header body = .loop t label code ∧
      (∀ σ, endOfPass H.function t σ = .ok (.inl σ)) ∧
      (∀ {σ σ1} {b : Bool}, H.run header σ = .ok (.normal, σ1) →
        test.HasTruth σ1.env.get? b → Statement.pass H.function t label (H.run code) σ =
          if b then H.run body σ1 >>= Statement.afterBody H.function t label
          else .ok (.inr (.normal, σ1))) ∧ ∀ {σ}, (∀ σ1, H.run header σ ≠ .ok (.normal, σ1)) →
        Statement.pass H.function t label (H.run code) σ =
          H.run header σ >>= Statement.afterBody H.function t label := by
  unfold emitLoop.testedBefore
  split
  · next hempty =>
    obtain rfl : header = [] := by simpa using hempty
    -- Nothing belongs to the test: it stands in the head of the loop.
    refine ⟨.whileTrue test, body, rfl, fun _ => rfl, fun {σ σ1 b} hrun htruth => ?_,
      fun {σ} hne => absurd rfl (hne σ)⟩
    cases hrun
    obtain ⟨w, hvalue, hw⟩ := htruth
    unfold Statement.pass Scene.value
    simp only [hvalue.eval H.function]
    simp only [Bind.bind, Except.bind, beq_zero_of_bne_zero hw]
    cases b <;> rfl
  · refine ⟨.forever, _, rfl, fun _ => rfl, fun {σ σ1 b} hrun htruth => ?_, fun {σ} hne => ?_⟩
    · have hcond : .cond test.mkNot [.breakLoop none] [] :: body =
          [.cond test.mkNot [.breakLoop none] []] ++ body := rfl
      have hchosen := Stage.run_cond (H := H) [.breakLoop none] [] htruth.mkNot
      unfold Statement.pass
      simp only
      rw [Host.run_append_of_normal hrun, hcond]
      cases b with
      | true => rw [Host.run_append_of_normal hchosen, if_pos rfl]
      | false =>
        rw [Host.run_append_of_ne_normal (fun σ' => by rw [hchosen]; nofun), hchosen]
        rfl
    · unfold Statement.pass
      simp only
      rw [Host.run_append_of_ne_normal hne]

namespace LoopRun

variable {S : Stage} {R : LoopRun}

/-- The code was generated in order, and nothing that the loop carries was lost. -/
structure Valid (S : Stage) (R : LoopRun) : Prop where
  structured : S.generator.dispatch = none
  matched : Matches Progress.issue R.core S.base R.state R.before R.scene
  outer : FramesOk R.bases R.before
  inner : FramesOk (R.before.issue :: R.bases) R.start
  issue : R.before.issue.Le R.start.issue
  labels : R.start.frames.map Frame.label = R.task.label :: R.before.frames.map Frame.label
  later : R.start.Later R.done
  finished : R.done.frames = R.frame :: R.after.frames
  fresh : FollowFresh R.start.frames R.done.issue
  issue_after : R.done.issue.Le R.after.issue
  phis : R.frame.phis = R.phis
  stack : R.frame.stack = R.state.stack
  carried : ∀ l v, R.phis.get l = some v → l ∉ R.frame.widened
  entry_stack : R.entry.stack = R.state.stack
  location : ∀ l, (∃ v, R.phis.get l = some v ∧ R.entry.get l = .ofVariable v) ∨
    (∃ origin, R.entry.get l = .unresolved origin) ∨
      l ∉ R.task.modified ∧ R.entry.get l = R.state.get l
  breaks : ∀ s ∈ R.frame.breaks, ∃ s', R.flow = some s' ∧ ∀ known core base,
    s.Describes known core base → (∀ l v, (R.frame.follow.getD .empty).get l = some v →
      known v = some (core.cpu.value l)) → s'.Describes known core base
  follow : ∀ l v, (R.frame.follow.getD .empty).get l = some v → v.IsIssued R.after.issue

structure Top (S : Stage) (R : LoopRun) (core : Core) (σ : Scene) : Prop where
  keeps : R.scene.env.Keeps R.before.issue σ.env
  memory : σ.memory = core.cpu.memory
  stack : StackDescribes (σ.env.known R.before.issue) S.base R.state.stack core.stack
  phi : ∀ l v, R.phis.get l = some v → σ.env.get? v = some (core.cpu.value l)
  other : ∀ l, l ∉ R.task.modified → core.cpu.value l = R.core.cpu.value l

/-- The code of the body runs like the body, which changes only what it may. It does not jump back
to the top of a loop that is tested at its end. -/
structure Body (S : Stage) (R : LoopRun) (run : Core → TreeRun) : Prop where
  steady : ∀ s, Steady (R.task.body s)
  sound : S.Sound (R.task.label :: R.before.frames.map Frame.label) R.task.body run
  other : ∀ {core way core'}, run core = .ok (way, core') → ∀ l, l ∉ R.task.modified →
    core'.cpu.value l = core.cpu.value l
  back : ∀ {core target core'}, run core = .ok (.continueLoop target, core') →
    isFor R.task.label target = true → R.task.kind ≠ .postTest

structure Within (S : Stage) (R : LoopRun) (core : Core) (s : SymbolicState) (q : Progress)
    (σ : Scene) : Prop where
  later : R.start.Later q
  matched : Matches Progress.issue core S.base s q σ
  keeps : R.scene.env.Keeps R.before.issue σ.env
  other : ∀ l, l ∉ R.task.modified → core.cpu.value l = R.core.cpu.value l

def again (S : Stage) (R : LoopRun) (next : BlockId) (core : Core) : Bool :=
  R.task.condition.all (Condition.holds S.machine next core)

theorem again_eq (h : R.task.condition = some condition) (next : BlockId) (core : Core) :
    R.again S next core = condition.holds S.machine next core := by
  rw [again, h, Option.all_some]

def pass (S : Stage) (R : LoopRun) (next : BlockId) (run : Core → TreeRun) : Core → TreePass :=
  ControlNode.pass S.machine R.task.kind R.task.header (R.again S next) R.task.label run

def Ends (S : Stage) (R : LoopRun) : TreeRun → CodeRun → Prop :=
  S.Mirrors R.bases R.before R.scene R.flow R.after

/-- The passes and the code of the loop end alike. -/
def EndsFrom (S : Stage) (R : LoopRun) (next : BlockId) (run : Core → TreeRun) (core : Core)
    (σ : Scene) : Prop :=
  R.Ends S (runPasses .limit (R.pass S next run) S.host.fuel core)
    (S.host.run (R.start.emitted R.done) σ)

theorem ends_limit (S : Stage) (R : LoopRun) :
    R.Ends S (.error .limit) (.error (.stepLimit S.host.fuel)) :=
  ⟨_, rfl, rfl⟩

theorem ends_of_passes {test : LoopTest} {body : List Statement} {pass : Core → TreePass}
    (hdone : R.done.out = R.start.out.push (.loop test R.task.label body))
    (hpass : ∀ core σ, R.Top S core σ →
      PassesAlike (R.Top S) (R.Ends S) (pass core)
      (Statement.pass S.host.function test R.task.label (S.host.run body) σ))
    (htop : R.Top S core σ) :
    R.Ends S (runPasses .limit pass S.host.fuel core) (S.host.run (R.start.emitted R.done) σ) := by
  rw [Progress.emitted_push hdone, Host.run_singleton, Statement.run]
  exact runPasses_alike (ends_limit S R) hpass S.host.fuel htop

namespace Valid

variable {S : Stage} {R : LoopRun} {core core' : Core} {σ σ' : Scene} {q q' : Progress}
  {test : LoopTest} {run : Core → TreeRun} {s : SymbolicState}
  {exit fl : Option SymbolicState} {b : BlockId} {taken : Bool} {f : Frame} (hR : R.Valid S)
  {u : Unit}

include hR

theorem exists_own_frame (hq : R.start.Later q) (hq' : q.Later R.done) :
    ∃ f, q.frames[0]? = some f ∧ f.Grows R.frame := by
  -- The loop's own frame is the innermost one.
  have hlength : 0 < q.frames.length := by
    rw [hq.length]
    have hlabels := congrArg List.length hR.labels
    rw [List.length_map, List.length_cons] at hlabels
    omega
  refine ⟨_, List.getElem?_eq_getElem hlength,
    hq'.frame 0 _ R.frame (List.getElem?_eq_getElem hlength) ?_⟩
  rw [hR.finished]
  rfl

theorem phi_issued {v : Variable} (hv : R.phis.get l = some v) :
    (∃ id, v = .merge l id) ∧ v.IsIssued R.start.issue := by
  obtain ⟨f, hf, hgrows⟩ := hR.exists_own_frame (.refl _) hR.later
  obtain ⟨hmerge, -, hissued⟩ := hR.inner.phi 0 f _ hf rfl l v (by rw [← hgrows.phis, hR.phis, hv])
  exact ⟨hmerge, hissued⟩

theorem matches_top (h : R.Top S core σ) :
    Matches Progress.issue core S.base R.entry R.start σ := by
  refine ⟨⟨fun l => ?_, ?_⟩, h.memory⟩
  -- A location is carried by the loop, is not known, or is not changed by it.
  · rcases hR.location l with ⟨v, hv, hentry⟩ | ⟨origin, hentry⟩ | ⟨hl, hentry⟩
    · rw [hentry]
      obtain ⟨-, hissued⟩ := hR.phi_issued hv
      exact Binding.holds_ofVariable (known_eq_some hissued (h.phi l v hv))
    · rw [hentry]
      exact Binding.holds_unresolved origin
    · rw [hentry, h.other l hl]
      exact (hR.matched.describes.location l).mono (h.keeps.known_le hR.issue)
  · rw [hR.entry_stack]
    exact h.stack.mono (Environment.Keeps.refl.known_le hR.issue)

theorem within_top (h : R.Top S core σ) : R.Within S core R.entry { R.start with out := #[] } σ :=
  have hstart := R.start.later_out #[]
  ⟨hstart, (hR.matches_top h).of_issue hstart.issue, h.keeps, h.other⟩

theorem top_of_header (hat : S.AtHeader R.before.issue R.scene f core' σ') (hf : f.Grows R.frame)
    (hother : ∀ l, l ∉ R.task.modified → core'.cpu.value l = R.core.cpu.value l) :
    R.Top S core' σ' := by
  refine ⟨hat.keeps, hat.memory, ?_, fun l v hv => ?_, hother⟩
  · have hstack := hat.stack
    rwa [← hf.stack, hR.stack] at hstack
  · refine hat.phi l v (by rw [← hf.phis, hR.phis, hv]) fun hl => ?_
    exact hR.carried l v hv (hf.widened l hl)

theorem jumpPosition? (hq : R.start.Later q) (target : Option String) :
    Generator.jumpPosition? target q.frames = if isFor R.task.label target then some 0
      else (Generator.jumpPosition? target R.before.frames).map (· + 1) := by
  -- Only the labels decide, so the own frame may be any frame with the label of the loop.
  have hlabels : q.frames.map Frame.label =
      (({ (default : Frame) with label := R.task.label } : Frame) :: R.before.frames).map
      Frame.label := by
    rw [hq.labels, hR.labels, List.map_cons]
  rw [jumpPosition?_congr hlabels, jumpPosition?_cons]

theorem exists_outer_frame (hq : q.Later R.done) {k : Nat}
    (hf : q.frames[k + 1]? = some f) : ∃ f', R.after.frames[k]? = some f' ∧ f.Grows f' := by
  obtain ⟨f', hf', hgrows⟩ := Stage.grown_frame hq hf
  rw [hR.finished] at hf'
  exact ⟨f', hf', hgrows⟩

theorem mirrors_of_break (hq : q.Later R.done) (hat : S.AtBreak R.before.issue R.scene f q core' σ')
    (hf : f.Grows R.frame) : R.Ends S (.ok (.onward, core')) (.ok (.normal, σ')) := by
  obtain ⟨s, hs, hmatches⟩ := hat.state
  obtain ⟨s', hflow, hleads⟩ := hR.breaks s (hf.breaks.subset hs)
  have hmatches := hmatches.of_issue (hq.issue.trans hR.issue_after)
  refine ⟨s', σ', hflow, rfl, ⟨hleads _ _ _ hmatches.describes fun l v hv => ?_, hmatches.memory⟩,
    hat.keeps⟩
  refine known_eq_some (hR.follow l v hv) (hat.follow l v ?_)
  rw [← hf.follow]
  exact hv

theorem alike_of_jump (hq : R.start.Later q) (hq' : q'.Later R.done) (hgrows : q.Later q')
    (hkeeps : R.scene.env.Keeps R.before.issue σ.env) {way : Way} {r : CodeRun}
    (h : S.MirrorsWay (R.before.issue :: R.bases) q σ fl q' (way, core') r) (hway : way ≠ .onward)
    (hother : ∀ l, l ∉ R.task.modified → core'.cpu.value l = R.core.cpu.value l) {kind : LoopKind}
    {again : Core → Bool}
    (htest : ∀ target, way = .continueLoop target → isFor R.task.label target = true → ∀ σ,
      endOfPass S.host.function test σ = .ok (.inl σ)) :
    PassesAlike (R.Top S) (R.Ends S)
      (.ok (ControlNode.afterBody kind again R.task.label (way, core')))
      (r >>= Statement.afterBody S.host.function test R.task.label) := by
  have hown : ∀ f, q'.frames[0]? = some f → f.Grows R.frame := by
    intro f hf
    obtain ⟨f', hf', hgrows⟩ := hR.exists_own_frame (hq.trans hgrows) hq'
    rw [hf] at hf'
    cases hf'
    exact hgrows
  have hbase : ∀ {k : Nat} {i : Issue}, R.bases[k]? = some i → R.scene.env.Keeps i σ.env :=
    fun hi => hkeeps.mono (hR.outer.le _ (List.mem_of_getElem? hi))
  cases way with
  | onward => exact absurd rfl hway
  | finished =>
    obtain ⟨hstack, σ', rfl, hmemory⟩ := h
    exact ⟨.ok (.returned _, σ'), rfl, hstack, σ', rfl, hmemory⟩
  | away t =>
    by_cases ht : t ∈ S.generator.routine.blocks
    -- Without a dispatch loop there is no jump to a block of the routine.
    · obtain ⟨σ', -, hat⟩ := (Stage.mirrorsWay_away_of_mem ht).1 h
      have hplanned := hat.planned
      rw [hR.structured] at hplanned
      cases hplanned
    · have hends := (Stage.mirrorsWay_away_of_not_mem ht).1 h
      refine ⟨r, ?_, hends.mirrors ht⟩
      rcases hfinish : S.setting.finish S.call (.away t, core') with e | core'' <;>
        rw [hfinish] at hends
      · obtain ⟨e', -, rfl⟩ := hends
        rfl
      · obtain ⟨-, σ', rfl, -⟩ := hends
        rfl
  | continueLoop target =>
    obtain ⟨k, f, i, σ', hk, hf, hi, rfl, hat⟩ := h
    rw [hR.jumpPosition? hq] at hk
    by_cases hfor : isFor R.task.label target = true
    -- A jump to the top of this loop: one more pass.
    · rw [if_pos hfor] at hk
      cases hk
      cases hi
      rw [ControlNode.afterBody, if_pos hfor]
      refine ⟨σ', ?_, hR.top_of_header (hat.of_keeps hkeeps) (hown f hf) hother⟩
      show Statement.afterBody _ _ _ (.continueLoop target, σ') = _
      rw [Statement.afterBody, if_pos hfor, htest target rfl hfor]
    -- A jump to the top of a loop around this one goes on there.
    · rw [if_neg hfor, Option.map_eq_some_iff] at hk
      obtain ⟨k, hk, rfl⟩ := hk
      obtain ⟨f', hf', hgrows'⟩ := hR.exists_outer_frame hq' hf
      rw [ControlNode.afterBody, if_neg hfor]
      refine ⟨.ok (.continueLoop target, σ'), ?_, k, f', i, σ', hk, hf', hi, rfl, ?_⟩
      · show Statement.afterBody _ _ _ (.continueLoop target, σ') = _
        rw [Statement.afterBody, if_neg hfor]
        rfl
      · exact (hat.of_keeps (hbase hi)).of_grows hgrows'
  | breakLoop target =>
    obtain ⟨k, f, i, σ', hk, hf, hi, rfl, hat⟩ := h
    rw [hR.jumpPosition? hq] at hk
    rw [ControlNode.afterBody]
    show PassesAlike _ _ _ (Statement.afterBody S.host.function test R.task.label
        (.breakLoop target, σ'))
    rw [Statement.afterBody]
    by_cases hfor : isFor R.task.label target = true
    · rw [if_pos hfor] at hk
      cases hk
      cases hi
      rw [if_pos hfor, if_pos hfor]
      exact ⟨.ok (.normal, σ'), rfl, hR.mirrors_of_break hq' (hat.of_keeps hkeeps) (hown f hf)⟩
    · rw [if_neg hfor, Option.map_eq_some_iff] at hk
      obtain ⟨k, hk, rfl⟩ := hk
      obtain ⟨f', hf', hgrows'⟩ := hR.exists_outer_frame hq' hf
      rw [if_neg hfor, if_neg hfor]
      refine ⟨.ok (.breakLoop target, σ'), rfl, k, f', i, σ', hk, hf', hi, rfl, ?_⟩
      exact (hat.of_keeps (hbase hi)).of_grows hgrows' (hq'.issue.trans hR.issue_after)

/-- A pass goes as its body does; what is left to compare is the code behind the body. -/
theorem alike_of_body (hbody : R.Body S run) {q1 : Progress} (hy : Yields (R.task.body s) q fl q1)
    (hrest : q1.Grows q') (hq' : q'.Later R.done) (h : R.Within S core s q σ) (again : Core → Bool)
    (htest : R.task.kind ≠ .postTest → ∀ σ, endOfPass S.host.function test σ = .ok (.inl σ))
    (honward : ∀ core1 s1 σ1, fl = some s1 → R.Within S core1 s1 q1 σ1 →
      PassesAlike (R.Top S) (R.Ends S)
      (.ok (ControlNode.afterBody R.task.kind again R.task.label (.onward, core1)))
      (S.host.run (q1.emitted q') σ1 >>= Statement.afterBody S.host.function test R.task.label)) :
    PassesAlike (R.Top S) (R.Ends S)
      ((run core).map (ControlNode.afterBody R.task.kind again R.task.label))
      (S.host.run (q.emitted q') σ >>= Statement.afterBody S.host.function test R.task.label) := by
  have hgrows := (hbody.steady s).grows hy
  have hend := hrest.toLater.trans hq'
  have hmirrors := hbody.sound _ s core q σ fl q1 hy (hR.inner.mono h.later)
    ((hR.fresh.mono hend.issue).of_later h.later) (h.later.labels.trans hR.labels) h.matched
  -- The code of the pass is that of the body and what comes behind it.
  rw [Progress.emitted_trans hgrows.out hrest.out]
  rcases hrun : run core with e | ⟨way, core1⟩ <;> rw [hrun] at hmirrors
  · obtain ⟨e', he', hr⟩ := hmirrors
    rw [Host.run_append_of_ne_normal (fun σ' => by simp [hr]), hr]
    exact ⟨.error e', rfl, e', he', rfl⟩
  have hother1 : ∀ l, l ∉ R.task.modified → core1.cpu.value l = R.core.cpu.value l :=
    fun l hl => (hbody.other hrun l hl).trans (h.other l hl)
  by_cases hway : way = .onward
  · subst hway
    obtain ⟨s1, σ1, hs1, hr, hm1, hkeeps1⟩ := hmirrors
    rw [Host.run_append_of_normal hr]
    exact honward core1 s1 σ1 hs1 ⟨h.later.trans hgrows.toLater, hm1,
      h.keeps.trans hkeeps1 (hR.issue.trans h.later.issue), hother1⟩
  -- Control leaves the body early, so that what comes behind it does not run.
  · have hmirrors : S.MirrorsWay _ q σ fl q1 (way, core1) _ := hmirrors
    rw [Host.run_append_of_ne_normal (hmirrors.ne_normal hway)]
    refine hR.alike_of_jump h.later hend hgrows.toLater h.keeps hmirrors hway hother1
      fun target hback hfor => ?_
    subst hback
    exact htest (hbody.back hrun hfor)

theorem run_jumpBack (hy : Yields (jumpToHeader 0 s) q u q')
    (hq' : q'.Later R.done) (h : R.Within S core s q σ) :
    ∃ σ', S.host.run (q.emitted q') σ = .ok (.normal, σ') ∧ R.Top S core σ' ∧
      s.stack = R.state.stack ∧
      ∀ v, v.IsIssued q.issue → v ∉ R.phis.carried → σ'.env.get? v = σ.env.get? v := by
  have hgrows := ((steady_jumpToHeader 0 s).grows hy).toLater
  obtain ⟨f, hf, hfinal⟩ := hR.exists_own_frame h.later (hgrows.trans hq')
  obtain ⟨f', σ', hf', hrun, hat, hspared⟩ :=
    Stage.run_jumpToHeader hy hf rfl (hR.inner.mono h.later) h.matched
  -- The jump may widen the frame, but only by locations that the loop does not carry.
  obtain ⟨f'', hf'', hfinal'⟩ := hR.exists_own_frame (h.later.trans hgrows) hq'
  rw [hf'] at hf''
  cases hf''
  refine ⟨σ', hrun, hR.top_of_header (hat.of_keeps h.keeps) hfinal' h.other, ?_, ?_⟩
  · rw [((yields_jumpToHeader hf).1 hy).1, ← hfinal.stack, hR.stack]
  · rwa [← hfinal.phis, hR.phis] at hspared

theorem alike_passBody (hbody : R.Body S run) (hkind : R.task.kind ≠ .postTest)
    (hy : Yields (passBody R.task s) q u q') (hq' : q'.Later R.done) (h : R.Within S core s q σ)
    (again : Core → Bool) (htest : ∀ σ, endOfPass S.host.function test σ = .ok (.inl σ)) :
    PassesAlike (R.Top S) (R.Ends S)
      ((run core).map (ControlNode.afterBody R.task.kind again R.task.label))
      (S.host.run (q.emitted q') σ >>= Statement.afterBody S.host.function test R.task.label) := by
  obtain ⟨fl, q1, hyBody, hyRest⟩ := hy.of_bind
  cases fl with
  | none =>
    obtain ⟨-, rfl⟩ := hyRest.of_pure
    exact hR.alike_of_body hbody hyBody (.refl q') hq' h again (fun _ => htest)
      fun _ _ _ hs1 => nomatch hs1
  | some s1 =>
    have hrest := (steady_jumpToHeader 0 s1).grows hyRest
    refine hR.alike_of_body hbody hyBody hrest hq' h again (fun _ => htest) ?_
    rintro core1 s2 σ1 hs2 h1
    cases hs2
    obtain ⟨σ', hrun, htop, -, -⟩ := hR.run_jumpBack hyRest hq' h1
    rw [hrun, ControlNode.afterBody, if_neg fun hpost => hkind hpost.1]
    exact ⟨σ', htest σ', htop⟩

/-! ## The end of a pass -/

theorem carried_ne_temp : ∀ v ∈ R.phis.carried, ∀ id, v ≠ .temp id := by
  intro v hv id
  obtain ⟨l, hl⟩ := Carriers.mem_carried.1 hv
  obtain ⟨⟨n, rfl⟩, -⟩ := hR.phi_issued hl
  nofun

/-- At the end of a pass the test has its value, and both the top of the next pass and the state
after the test describe the processor. -/
theorem run_passEnd {exit : SymbolicState} {test : Expression} (next : BlockId)
    (hy : Yields (S.generator.passEnd (.branch b taken) R.phis s) q (test, exit) q')
    (hq' : q'.Later R.done) (h : R.Within S core s q σ) :
    ∃ σ', S.host.run (q.emitted q') σ = .ok (.normal, σ') ∧ R.Top S core σ' ∧
      Matches Progress.issue core S.base exit q' σ' ∧ test.HasTruth (σ'.env.known q'.issue)
        ((Condition.branch b taken).holds S.machine next core) := by
  have hphis := hR.carried_ne_temp
  obtain ⟨test0, p0, hcondition, hy1⟩ := hy.of_bind
  obtain ⟨rfl, w, hvalue, hw⟩ := Stage.hasTruth_condition (S := S) next hcondition h.matched
  obtain ⟨test1, p1, hkeep, hy2⟩ := hy1.of_bind
  obtain ⟨σ1, hmove1, ⟨hmemory1, hvalue1⟩, hspared1, -⟩ :=
    performs_keepApart (H := S.host) hvalue hphis test1 p1 hkeep
  obtain ⟨after, p2, hafter, hy3⟩ := hy2.of_bind
  obtain ⟨σ2, hmove2, hexiting⟩ :=
    performs_stateAfterTest (H := S.host) (h.matched.mono hmove1 hmemory1) hphis after p2 hafter
  obtain ⟨_, hjump, hresult⟩ := Yields.bind_pure_iff.1 hy3
  cases hresult
  -- First the test and the state after it are put into temporaries, then the jump assigns.
  have hmove := hmove1.trans hmove2
  have hgrows := (steady_jumpToHeader 0 s).grows hjump
  obtain ⟨σ', hrun, htop, hstack, hspared⟩ :=
    hR.run_jumpBack hjump hq' ⟨h.later.trans hmove.more.grows.toLater,
    hexiting.matched, h.keeps.trans hmove.keeps (hR.issue.trans h.later.issue), h.other⟩
  have hissue : R.start.issue.Le q'.issue :=
    h.later.issue.trans (hmove.more.issue.trans hgrows.issue)
  -- The jump overwrites only what the loop carries.
  have hknown : ∀ v, v ∉ R.phis.carried → ∀ x, σ2.env.known p2.issue v = some x →
      σ'.env.known q'.issue v = some x := by
    intro v hv x hx
    have hissued : v.IsIssued p2.issue := isIssued_of_known (by rw [hx]; rfl)
    refine known_eq_some (hissued.mono hgrows.issue) ?_
    rw [hspared v hissued hv]
    exact σ2.env.known_le _ v x hx
  refine ⟨σ', ?_, htop, ⟨⟨fun l => ?_, ?_⟩, htop.memory⟩, ?_⟩
  · rw [Progress.emitted_trans hmove.more.out hgrows.out, Host.run_append_of_normal hmove.run]
    exact hrun
  · rcases hexiting.location l with ⟨v, hv, hvar⟩ | ⟨hholds, ⟨hmem, -⟩ | hapart⟩
    · rw [hvar]
      have hissued := (hR.phi_issued hv).2.mono hissue
      exact Binding.holds_ofVariable (known_eq_some hissued (htop.phi l v hv))
    · exact absurd hmem List.not_mem_nil
    · exact hholds.spared hapart hknown
  · rw [hexiting.stack, hstack]
    exact htop.stack.mono (Environment.Keeps.refl.known_le (hR.issue.trans hissue))
  · refine ⟨w, (hvalue1.mono hmove2.known_le).congr fun v hv => ?_, hw⟩
    exact hknown v (not_mem_reads_of_mentionsOneOf hspared1 hv)

/-! ## The three kinds of loop -/

variable (hbody : R.Body S run) (next : BlockId)
  (hy : Yields (S.generator.emitLoop R.task R.phis R.entry) R.start exit R.done)
  (htop : R.Top S core σ)

include hbody hy htop

theorem ends_infinite (hkind : R.task.kind = .infinite) : R.EndsFrom S next run core σ := by
  unfold emitLoop at hy
  simp only [hkind] at hy
  obtain ⟨⟨⟩, body, q, hpass, htext, hy1⟩ := yields_capture_bind.1 hy
  obtain ⟨-, hdone⟩ := yields_emit_pure.1 hy1
  refine ends_of_passes (by rw [hdone]) (fun core σ h => ?_) htop
  have hend : q.Later R.done := hdone ▸ q.later_out _
  have hforever : ∀ σ, endOfPass S.host.function .forever σ = .ok (.inl σ) := fun _ => rfl
  have halike := hR.alike_passBody hbody (by rw [hkind]; decide) hpass hend (hR.within_top h)
    (R.again S next) hforever
  rw [Progress.emitted_of_empty rfl htext] at halike
  unfold LoopRun.pass ControlNode.pass Statement.pass
  rw [hkind] at halike ⊢
  exact halike

variable (hcondition : R.task.condition = some (.branch b taken))
  (hexit : ∀ s, exit = some s → R.flow = some s)

include hcondition hexit

theorem ends_preTest (hcalls : S.CallsMirror) (hkind : R.task.kind = .preTest)
    (hheader : ∀ l, l ∉ R.task.modified → l ∉ S.generator.writtenBy R.task.header) :
    R.EndsFrom S next run core σ := by
  unfold emitLoop at hy
  simp only [hkind, hcondition] at hy
  obtain ⟨flow, header, q, hblock, hheaderText, hy1⟩ := yields_capture_bind.1 hy
  cases flow with
  | none => exact absurd hy1 Yields.not_throw
  | some tested =>
  obtain ⟨test, p2, htest, hy2⟩ := hy1.of_bind
  obtain rfl := yields_condition htest
  obtain ⟨⟨⟩, body, q', hpass, hbodyText, hy3⟩ := yields_capture_bind.1 hy2
  obtain ⟨rfl, hdone⟩ := yields_emit_pure.1 hy3
  -- The form of the loop depends on whether the header has code of its own.
  obtain ⟨loopTest, code, hstatement, hagain, hnormal, hother⟩ :=
    S.host.pass_testedBefore test R.task.label header body
  rw [hstatement] at hdone
  refine ends_of_passes (by rw [hdone]) (fun core σ h => ?_) htop
  have hstart := hR.within_top h
  have hq : R.start.Later q :=
    hstart.later.trans ((steady_block S.generator R.entry R.task.header).grows hblock).toLater
  have hq1 : q.Later { q with out := #[] } := q.later_out #[]
  have hq' := ((nestable_steady.passBody hbody.steady tested).grows hpass).toLater
  have hend : q'.Later R.done := hdone ▸ q'.later_out _
  have hmirrors := Stage.mirrors_block hcalls hblock (hR.inner.mono hstart.later) hstart.matched
  rw [Progress.emitted_of_empty rfl hheaderText] at hmirrors
  have hkept : ∀ {e : BlockEnd Core}, S.machine.run R.task.header core = .ok e →
      ∀ l, l ∉ R.task.modified → e.state.cpu.value l = R.core.cpu.value l := fun hrun l hl =>
    (Stage.value_runBlock hcalls hrun (hheader l hl)).trans (h.other l hl)
  unfold LoopRun.pass ControlNode.pass
  simp only [hkind]
  -- The header breaks off, goes on to the test, or returns.
  rcases hrun : S.machine.run R.task.header core with e | (core1 | core1) <;> rw [hrun] at hmirrors
  · obtain ⟨e', he', hr⟩ := hmirrors
    rw [hother (fun σ1 h => by rw [hr] at h; cases h), hr]
    exact ⟨.error e', rfl, e', he', rfl⟩
  · obtain ⟨s1, σ1, hs1, hr, hm1, hkeeps1⟩ := hmirrors
    cases hs1
    obtain ⟨-, htruth⟩ := Stage.hasTruth_condition (S := S) next htest (hm1.of_issue (.refl _))
    rw [hnormal hr (htruth.mono (σ1.env.known_le _))]
    simp only [again_eq hcondition]
    have hkeeps := h.keeps.trans hkeeps1 hR.issue
    cases (Condition.branch b taken).holds S.machine next core1 with
    | true =>
      have halike := hR.alike_passBody hbody (by rw [hkind]; decide) hpass hend
        ⟨hq.trans hq1, hm1.of_issue hq1.issue, hkeeps, hkept hrun⟩ (R.again S next) hagain
      rw [Progress.emitted_of_empty rfl hbodyText, hkind] at halike
      exact halike
    | false =>
      refine ⟨.ok (.normal, σ1), rfl, tested, σ1, hexit tested rfl, rfl, ?_, hkeeps⟩
      exact hm1.of_issue (hq1.issue.trans (hq'.issue.trans (hend.issue.trans hR.issue_after)))
  · obtain ⟨hstack, σ1, hr, hmemory⟩ := hmirrors
    rw [hother (fun σ1 h => by rw [hr] at h; cases h), hr]
    exact ⟨.ok (.returned _, σ1), rfl, hstack, σ1, rfl, hmemory⟩

theorem ends_postTest (hkind : R.task.kind = .postTest) : R.EndsFrom S next run core σ := by
  unfold emitLoop at hy
  simp only [hkind, hcondition] at hy
  obtain ⟨tested, code, q', hpass, htext, hy1⟩ := yields_capture_bind.1 hy
  obtain ⟨flow, q, hyBody, hyRest⟩ := hpass.of_bind
  have hloop : ∀ core : Core, R.pass S next run core =
      (run core).map (ControlNode.afterBody R.task.kind (R.again S next) R.task.label) := by
    intro core
    unfold LoopRun.pass ControlNode.pass
    rw [hkind]
  -- There is no jump back to a loop that is tested at its end.
  have hpost : ∀ {P : Prop}, R.task.kind ≠ .postTest → P := fun hne => absurd hkind hne
  cases flow with
  | none =>
    -- Control never gets to the test.
    obtain ⟨rfl, rfl⟩ := hyRest.of_pure
    obtain ⟨-, hdone⟩ := yields_emit_pure.1 hy1
    refine ends_of_passes (by rw [hdone]) (fun core σ h => ?_) htop
    have hend : q'.Later R.done := hdone ▸ q'.later_out _
    have halike := hR.alike_of_body hbody hyBody (.refl q') hend (hR.within_top h) (R.again S next)
      (hpost : _ → ∀ σ, endOfPass S.host.function .forever σ = .ok (.inl σ))
      fun _ _ _ hs1 => nomatch hs1
    rw [Progress.emitted_of_empty rfl htext] at halike
    rw [hloop]
    exact halike
  | some s =>
    obtain ⟨⟨test, after⟩, hyEnd, hresult⟩ := Yields.map_iff.1 hyRest
    cases hresult
    obtain ⟨rfl, hdone⟩ := yields_emit_pure.1 hy1
    refine ends_of_passes (by rw [hdone]) (fun core σ h => ?_) htop
    have hend : q'.Later R.done := hdone ▸ q'.later_out _
    have halike :=
      hR.alike_of_body hbody hyBody ((nestable_steady.passEnd _ _ _ s).grows hyEnd) hend
      (hR.within_top h) (R.again S next)
      (hpost : _ → ∀ σ, endOfPass S.host.function (.doWhile test) σ = .ok (.inl σ)) ?_
    · rw [Progress.emitted_of_empty rfl htext] at halike
      rw [hloop]
      exact halike
    rintro core1 s1 σ1 hs1 h1
    cases hs1
    obtain ⟨σ', hrun, htop', hm', w, hvalue, hw⟩ := hR.run_passEnd next hyEnd hend h1
    have hpassEnd : endOfPass S.host.function (.doWhile test) σ' =
        if (Condition.branch b taken).holds S.machine next core1 then .ok (.inl σ')
        else .ok (.inr (.normal, σ')) := by
      unfold endOfPass Scene.value
      simp only [hvalue.eval_known S.host.function, Bind.bind, Except.bind,
        beq_zero_of_bne_zero hw]
      cases (Condition.branch b taken).holds S.machine next core1 <;> rfl
    have hafter : S.host.run (q.emitted q') σ1 >>=
        Statement.afterBody S.host.function (.doWhile test) R.task.label =
        endOfPass S.host.function (.doWhile test) σ' := by
      rw [hrun]
      rfl
    rw [hafter, hpassEnd, ControlNode.afterBody, hkind, again_eq hcondition]
    simp only [true_and]
    cases (Condition.branch b taken).holds S.machine next core1 with
    | true => exact ⟨σ', rfl, htop'⟩
    | false =>
      refine ⟨.ok (.normal, σ'), rfl, after, σ', hexit after rfl, rfl, ?_, htop'.keeps⟩
      exact hm'.of_issue (hend.issue.trans hR.issue_after)

omit hcondition in
theorem ends (hcalls : S.CallsMirror)
    (htest : R.task.kind ≠ .infinite → ∃ b taken, R.task.condition = some (.branch b taken))
    (hheader : ∀ l, l ∉ R.task.modified → l ∉ S.generator.writtenBy R.task.header) :
    R.EndsFrom S next run core σ := by
  cases hkind : R.task.kind with
  | infinite => exact hR.ends_infinite hbody next hy htop hkind
  | preTest =>
    obtain ⟨b, taken, hcondition⟩ := htest (by rw [hkind]; nofun)
    exact hR.ends_preTest hbody next hy htop hcondition hexit hcalls hkind hheader
  | postTest =>
    obtain ⟨b, taken, hcondition⟩ := htest (by rw [hkind]; nofun)
    exact hR.ends_postTest hbody next hy htop hcondition hexit hkind

end Valid

end LoopRun

end Lift6502
