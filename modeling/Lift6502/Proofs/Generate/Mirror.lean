import Lift6502.Proofs.Generate.Instruction
import Lift6502.Proofs.Generate.Rounds
import Lift6502.Proofs.Tree.Machine

/-!
# Code that runs like a tree

`Stage.Mirrors` compares how nodes of a tree run with how their code runs.
-/

namespace Lift6502

open Gen Generator Progress

variable {i : Issue} {f' : Frame} {σ : Scene}

/-- A run of a tree and one of code break off for the same reason; some routines may lack code. -/
def Stop.Mirrors (fuel : Nat) (lacks : String → Prop) : Stop → EvalError → Prop
  | .limit, e => e = .stepLimit fuel
  | .depth, e => e = .callDepth
  | .missing name, e => lacks name ∧ e = .unknownFunction name
  | .stuck, _ => False

def Routine.results (r : Routine) (core : Core) : RegisterValues :=
  .ofFn fun q => if q ∈ r.outputs then some (core.cpu.register q).toUInt32 else none

theorem Routine.get_results_of_mem (r : Routine) (core : Core) {q : Register} (hq : q ∈ r.outputs) :
    (r.results core).get q = some (core.cpu.register q).toUInt32 := by
  rw [Routine.results, PerRegister.get_ofFn, if_pos hq]

/-- A routine whose code is compared with its tree: how each of them runs calls, which routines lack
code, and what lies on the stack when the routine starts. -/
structure Stage where
  generator : Generator
  host : Host
  call : TreeCall
  lacks : String → Prop
  base : List UInt8

/-- How a loop was when its generation started: the variables in use then. -/
abbrev Bases := List Issue

namespace Stage

def setting (S : Stage) : Setting where
  graph := S.generator.graph
  routines := S.generator.routines
  work? := S.generator.program.codeWork?

def machine (S : Stage) : BlockMachine Stop Core := S.setting.machine S.call

def runNodes (S : Stage) (next : BlockId) (nodes : List ControlNode) (core : Core) : TreeRun :=
  ControlNode.runAll S.machine S.host.fuel next nodes core

def Returns (S : Stage) (core : Core) (r : CodeRun) : Prop :=
  core.stack = S.base ∧ ∃ σ', r = .ok (.returned (S.generator.routine.results core), σ') ∧
    σ'.memory = core.cpu.memory

/-- The code ends like a routine, with a return or by breaking off. -/
def Ends (S : Stage) : Except Stop Core → CodeRun → Prop
  | .error e, r => ∃ e', e.Mirrors S.host.fuel S.lacks e' ∧ r = .error e'
  | .ok core, r => S.Returns core r

/-- A jump to the header of a loop: the variables of the loop hold the values of their locations. -/
structure AtHeader (S : Stage) (i : Issue) (σ : Scene) (f : Frame) (core : Core) (σ' : Scene) :
    Prop where
  keeps : σ.env.Keeps i σ'.env
  memory : σ'.memory = core.cpu.memory
  stack : StackDescribes (σ'.env.known i) S.base f.stack core.stack
  phi : ∀ l v, f.phis.get l = some v → l ∉ f.widened → σ'.env.get? v = some (core.cpu.value l)

/-- A break: a state that was recorded describes the processor, and the variables of the loop's
result hold the values of their locations. -/
structure AtBreak (S : Stage) (i : Issue) (σ : Scene) (f : Frame) (p' : Progress) (core : Core)
    (σ' : Scene) : Prop where
  keeps : σ.env.Keeps i σ'.env
  state : ∃ s ∈ f.breaks, Matches issue core S.base s p' σ'
  follow : ∀ l v, (f.follow.getD .empty).get l = some v → σ'.env.get? v = some (core.cpu.value l)

structure AtArm (S : Stage) (target : BlockId) (core : Core) (σ' : Scene) : Prop where
  planned : S.generator.dispatch.isSome = true
  memory : σ'.memory = core.cpu.memory
  stack : core.stack = S.base
  next : σ'.env.get? .dispatch = some (UInt32.ofNat target)
  carrier : ∀ plan, S.generator.dispatch = some plan →
    ∀ l ∈ (plan.defined.lookup target).getD ∅,
      σ'.env.get? (plan.carriers.get l) = some (core.cpu.value l)

/-- Where the code is when control has gone a way in the tree. -/
def MirrorsWay (S : Stage) (bases : Bases) (p : Progress) (σ : Scene) (flow : Option SymbolicState)
    (p' : Progress) : Way × Core → CodeRun → Prop
  | (.onward, core), r => ∃ s' σ', flow = some s' ∧ r = .ok (.normal, σ') ∧
      Matches issue core S.base s' p' σ' ∧ σ.env.Keeps p.issue σ'.env
  | (.finished, core), r => S.Returns core r
  | (.away t, core), r =>
    if t ∈ S.generator.routine.blocks then
      ∃ σ', r = .ok (.continueLoop (some dispatchLabel), σ') ∧ S.AtArm t core σ'
    else S.Ends (S.setting.finish S.call (.away t, core)) r
  | (.continueLoop label, core), r => ∃ k f i σ', jumpPosition? label p.frames = some k ∧
      p'.frames[k]? = some f ∧ bases[k]? = some i ∧ r = .ok (.continueLoop label, σ') ∧
      S.AtHeader i σ f core σ'
  | (.breakLoop label, core), r => ∃ k f i σ', jumpPosition? label p.frames = some k ∧
      p'.frames[k]? = some f ∧ bases[k]? = some i ∧ r = .ok (.breakLoop label, σ') ∧
      S.AtBreak i σ f p' core σ'

def Mirrors (S : Stage) (bases : Bases) (p : Progress) (σ : Scene) (flow : Option SymbolicState)
    (p' : Progress) : TreeRun → CodeRun → Prop
  | .error e, r => ∃ e', e.Mirrors S.host.fuel S.lacks e' ∧ r = .error e'
  | .ok way, r => S.MirrorsWay bases p σ flow p' way r

end Stage

def StackEntry.ReadsIssued (i : Issue) : StackEntry → Prop
  | .byte b => ∀ e, b = .expr e → ∀ v ∈ e.reads, v.IsIssued i
  | .status flags => ∀ f e, flags.get f = .expr e → ∀ v ∈ e.reads, v.IsIssued i

/-- The loops around a point: each started when fewer variables were in use, and the variables that
it carries were taken since. -/
structure FramesOk (bases : Bases) (p : Progress) : Prop where
  length : bases.length = p.frames.length
  le : ∀ i ∈ bases, i.Le p.issue
  phi : ∀ (k : Nat) f i, p.frames[k]? = some f → bases[k]? = some i → ∀ l v, f.phis.get l = some v →
    (∃ id, v = .merge l id) ∧ ¬ v.IsIssued i ∧ v.IsIssued p.issue
  stack : ∀ (k : Nat) f i, p.frames[k]? = some f → bases[k]? = some i →
    ∀ entry ∈ f.stack, entry.ReadsIssued i

def FollowFresh (frames : List Frame) (i : Issue) : Prop :=
  ∀ f ∈ frames, ∀ l v, (f.follow.getD .empty).get l = some v →
    (∃ id, v = .merge l id) ∧ ¬ v.IsIssued i

/-! ## Going on -/

section

variable {p p' p'' : Progress} {bases : Bases}

theorem Progress.Later.labels (h : p.Later p') :
    p'.frames.map Frame.label = p.frames.map Frame.label := by
  refine List.ext_getElem? fun k => ?_
  rw [List.getElem?_map, List.getElem?_map]
  rcases hf : p.frames[k]? with _ | f
  · rw [List.getElem?_eq_none_iff, ← h.length] at hf
    rw [List.getElem?_eq_none hf]
  · have hk : k < p'.frames.length := by
      rw [h.length]
      exact (List.getElem?_eq_some_iff.1 hf).1
    rw [List.getElem?_eq_getElem hk]
    exact congrArg some (h.frame k f _ hf (List.getElem?_eq_getElem hk)).label

theorem jumpPosition?_eq_of_later (h : p.Later p') (label : Option String) :
    jumpPosition? label p'.frames = jumpPosition? label p.frames :=
  jumpPosition?_congr h.labels label

theorem FramesOk.mono (h : FramesOk bases p) (hp : p.Later p') : FramesOk bases p' := by
  have hback : ∀ (k : Nat) f', p'.frames[k]? = some f' →
      ∃ f, p.frames[k]? = some f ∧ f.Grows f' := by
    intro k f' hf'
    have hk : k < p.frames.length := by
      rw [← hp.length]
      exact (List.getElem?_eq_some_iff.1 hf').1
    exact ⟨_, List.getElem?_eq_getElem hk, hp.frame k _ f' (List.getElem?_eq_getElem hk) hf'⟩
  refine ⟨h.length.trans hp.length.symm, fun i hi => (h.le i hi).trans hp.issue,
    fun k f' i hf' hi l v hv => ?_, fun k f' i hf' hi => ?_⟩
  · obtain ⟨f, hf, hgrows⟩ := hback k f' hf'
    rw [hgrows.phis] at hv
    obtain ⟨hmerge, hnew, hissued⟩ := h.phi k f i hf hi l v hv
    exact ⟨hmerge, hnew, hissued.mono hp.issue⟩
  · obtain ⟨f, hf, hgrows⟩ := hback k f' hf'
    rw [hgrows.stack]
    exact h.stack k f i hf hi

theorem FollowFresh.mono {frames : List Frame} {j : Issue} (h : FollowFresh frames j)
    (hij : i.Le j) : FollowFresh frames i :=
  fun f hf l v hv => ⟨(h f hf l v hv).1, fun hi => (h f hf l v hv).2 (hi.mono hij)⟩

theorem FollowFresh.of_later (h : FollowFresh p.frames i) (hp : p.Later p') :
    FollowFresh p'.frames i := by
  intro f' hf' l v hv
  obtain ⟨k, hk, hget⟩ := List.mem_iff_getElem.1 hf'
  have hk' : k < p.frames.length := by
    rw [← hp.length]
    exact hk
  have hgrows := hp.frame k _ f' (List.getElem?_eq_getElem hk')
    (by rw [List.getElem?_eq_getElem hk, hget])
  rw [hgrows.follow] at hv
  exact h _ (List.getElem_mem hk') l v hv

end

namespace Stage

variable {S : Stage} {p' : Progress} {σ σ1 σ' : Scene} {i : Issue} {f : Frame} {core : Core}

theorem AtHeader.of_keeps (h : S.AtHeader i σ1 f core σ') (hkeeps : σ.env.Keeps i σ1.env) :
    S.AtHeader i σ f core σ' :=
  ⟨hkeeps.trans h.keeps (.refl i), h.memory, h.stack, h.phi⟩

theorem AtBreak.of_keeps (h : S.AtBreak i σ1 f p' core σ') (hkeeps : σ.env.Keeps i σ1.env) :
    S.AtBreak i σ f p' core σ' :=
  ⟨hkeeps.trans h.keeps (.refl i), h.state, h.follow⟩

theorem AtHeader.of_grows (h : S.AtHeader i σ f core σ') (hf : f.Grows f') :
    S.AtHeader i σ f' core σ' := by
  refine ⟨h.keeps, h.memory, ?_, fun l v hv hl => ?_⟩
  · rw [hf.stack]
    exact h.stack
  · rw [hf.phis] at hv
    exact h.phi l v hv fun hl' => hl (hf.widened l hl')

end Stage

theorem Matches.of_issue {core : Core} {base : List UInt8} {s : SymbolicState} {p p' : Progress}
    (h : Matches issue core base s p σ) (hp : p.issue.Le p'.issue) :
    Matches issue core base s p' σ :=
  ⟨h.describes.mono (Environment.Keeps.refl.known_le hp), h.memory⟩

namespace Stage

variable {S : Stage} {bases : Bases} {p p1 p' p'' : Progress} {σ σ1 : Scene} {core : Core}
  {r : CodeRun} {t : BlockId} {flow : Option SymbolicState} {f : Frame}
  {σ' : Scene} {way : Way}

theorem AtBreak.of_grows (h : S.AtBreak i σ f p' core σ')
    (hf : f.Grows f') (hp : p'.issue.Le p''.issue) : S.AtBreak i σ f' p'' core σ' := by
  obtain ⟨s, hs, hmatches⟩ := h.state
  refine ⟨h.keeps, ⟨s, hf.breaks.subset hs, hmatches.of_issue hp⟩, fun l v hv => ?_⟩
  rw [hf.follow] at hv
  exact h.follow l v hv

theorem grown_frame (hp : p'.Later p'') {k : Nat} (hf : p'.frames[k]? = some f) :
    ∃ f', p''.frames[k]? = some f' ∧ f.Grows f' := by
  have hk : k < p''.frames.length := by
    rw [hp.length]
    exact (List.getElem?_eq_some_iff.1 hf).1
  exact ⟨_, List.getElem?_eq_getElem hk, hp.frame k f _ hf (List.getElem?_eq_getElem hk)⟩

theorem MirrorsWay.go_on (h : S.MirrorsWay bases p σ flow p' (way, core) r)
    (hway : way ≠ .onward) (hp : p'.Later p'') (flow' : Option SymbolicState) :
    S.MirrorsWay bases p σ flow' p'' (way, core) r := by
  cases way with
  | onward => exact absurd rfl hway
  | finished => exact h
  | away t => exact h
  | continueLoop label =>
    obtain ⟨k, f, i, σ', hk, hf, hi, hr, hat⟩ := h
    obtain ⟨f', hf', hgrows⟩ := grown_frame hp hf
    exact ⟨k, f', i, σ', hk, hf', hi, hr, hat.of_grows hgrows⟩
  | breakLoop label =>
    obtain ⟨k, f, i, σ', hk, hf, hi, hr, hat⟩ := h
    obtain ⟨f', hf', hgrows⟩ := grown_frame hp hf
    exact ⟨k, f', i, σ', hk, hf', hi, hr, hat.of_grows hgrows hp.issue⟩

theorem Mirrors.go_on {t : TreeRun} (h : S.Mirrors bases p σ flow p' t r)
    (hp : p'.Later p'') : S.Mirrors bases p σ flow p'' t r := by
  rcases t with e | ⟨way, core⟩
  · exact h
  by_cases hway : way = .onward
  · subst hway
    obtain ⟨s', σ', hs', hr, hmatches, hkeeps⟩ := h
    exact ⟨s', σ', hs', hr, hmatches.of_issue hp.issue, hkeeps⟩
  · exact MirrorsWay.go_on h hway hp flow

theorem Mirrors.of_later {t : TreeRun} (h : S.Mirrors bases p1 σ1 flow p' t r)
    (hok : FramesOk bases p) (hp : p.Later p1) (hkeeps : σ.env.Keeps p.issue σ1.env) :
    S.Mirrors bases p σ flow p' t r := by
  rcases t with e | ⟨way, core⟩
  · exact h
  have hbase : ∀ {k : Nat} {i : Issue}, bases[k]? = some i → σ.env.Keeps i σ1.env := fun hi =>
    hkeeps.mono (hok.le _ (List.mem_of_getElem? hi))
  cases way with
  | onward =>
    obtain ⟨s', σ', hs', hr, hmatches, hkeeps'⟩ := h
    exact ⟨s', σ', hs', hr, hmatches, hkeeps.trans hkeeps' hp.issue⟩
  | finished => exact h
  | away t => exact h
  | continueLoop label =>
    obtain ⟨k, f, i, σ', hk, hf, hi, hr, hat⟩ := h
    rw [jumpPosition?_eq_of_later hp] at hk
    exact ⟨k, f, i, σ', hk, hf, hi, hr, hat.of_keeps (hbase hi)⟩
  | breakLoop label =>
    obtain ⟨k, f, i, σ', hk, hf, hi, hr, hat⟩ := h
    rw [jumpPosition?_eq_of_later hp] at hk
    exact ⟨k, f, i, σ', hk, hf, hi, hr, hat.of_keeps (hbase hi)⟩

theorem mirrorsWay_away_of_mem (ht : t ∈ S.generator.routine.blocks) :
    S.MirrorsWay bases p σ flow p' (.away t, core) r ↔
      ∃ σ', r = .ok (.continueLoop (some dispatchLabel), σ') ∧ S.AtArm t core σ' := by
  rw [MirrorsWay, if_pos ht]

theorem mirrorsWay_away_of_not_mem (ht : t ∉ S.generator.routine.blocks) :
    S.MirrorsWay bases p σ flow p' (.away t, core) r ↔
      S.Ends (S.setting.finish S.call (.away t, core)) r := by
  rw [MirrorsWay, if_neg ht]

theorem AtArm.mirrors (h : S.AtArm t core σ') (ht : t ∈ S.generator.routine.blocks) :
    S.Mirrors bases p σ flow p' (.ok (.away t, core))
      (.ok (.continueLoop (some dispatchLabel), σ')) := by
  rw [Mirrors, mirrorsWay_away_of_mem ht]
  exact ⟨σ', rfl, h⟩

theorem Ends.mirrors (h : S.Ends (S.setting.finish S.call (.away t, core)) r)
    (ht : t ∉ S.generator.routine.blocks) :
    S.Mirrors bases p σ flow p' (.ok (.away t, core)) r := by
  rw [Mirrors, mirrorsWay_away_of_not_mem ht]
  exact h

theorem Ends.ne_normal {t : Except Stop Core} (h : S.Ends t r) (σ' : Scene) :
    r ≠ .ok (.normal, σ') := by
  rintro rfl
  cases t with
  | error e =>
    obtain ⟨e', -, hr⟩ := h
    cases hr
  | ok core =>
    obtain ⟨-, σ'', hr, -⟩ := h
    cases hr

theorem MirrorsWay.ne_normal (h : S.MirrorsWay bases p σ flow p' (way, core) r)
    (hway : way ≠ .onward) (σ' : Scene) : r ≠ .ok (.normal, σ') := by
  rintro rfl
  cases way with
  | onward => exact hway rfl
  | finished =>
    obtain ⟨-, σ'', hr, -⟩ := h
    cases hr
  | away t =>
    by_cases ht : t ∈ S.generator.routine.blocks
    · obtain ⟨σ'', hr, -⟩ := (mirrorsWay_away_of_mem ht).1 h
      cases hr
    · exact ((mirrorsWay_away_of_not_mem ht).1 h).ne_normal σ' rfl
  | continueLoop label =>
    obtain ⟨k, f, i, σ'', -, -, -, hr, -⟩ := h
    cases hr
  | breakLoop label =>
    obtain ⟨k, f, i, σ'', -, -, -, hr, -⟩ := h
    cases hr

end Stage

theorem Host.run_append_of_ne_normal {H : Host} {l k : List Statement}
    (h : ∀ σ', H.run l σ ≠ .ok (.normal, σ')) : H.run (l ++ k) σ = H.run l σ := by
  unfold run at *
  rw [Statement.runAll_append]
  split
  · next heq => rw [heq]
  · next σ' heq => exact absurd heq (h σ')
  · next heq => rw [heq]

namespace Stage

variable {S : Stage} {bases : Bases} {p p1 p' : Progress} {σ : Scene}
  {flow1 flow : Option SymbolicState} {rest : Core → TreeRun}

/-- Nodes and those behind them, which run if control gets there. -/
def andThen (t : TreeRun) (rest : Core → TreeRun) : TreeRun :=
  match t with
  | .error e => .error e
  | .ok (.onward, core) => rest core
  | .ok r => .ok r

theorem andThen_ok (t : TreeRun) : andThen t (fun core => .ok (.onward, core)) = t := by
  rcases t with e | ⟨way, core⟩
  · rfl
  · cases way <;> rfl

theorem runNodes_cons (S : Stage) (next : BlockId) (n : ControlNode) (rest : List ControlNode)
    (core : Core) : S.runNodes next (n :: rest) core =
      andThen (n.run S.machine S.host.fuel next core) (S.runNodes next rest) := by
  rw [runNodes, ControlNode.runAll]
  rcases n.run S.machine S.host.fuel next core with e | ⟨way, core'⟩
  · rfl
  · cases way <;> rfl

theorem Mirrors.bind {t : TreeRun} {out out' : List Statement}
    (h : S.Mirrors bases p σ flow1 p1 t (S.host.run out σ)) (hp' : p1.Later p')
    (hrest : ∀ s1 core1 σ1, flow1 = some s1 → Matches issue core1 S.base s1 p1 σ1 →
      σ.env.Keeps p.issue σ1.env → S.Mirrors bases p σ flow p' (rest core1) (S.host.run out' σ1)) :
    S.Mirrors bases p σ flow p' (andThen t rest) (S.host.run (out ++ out') σ) := by
  rcases t with e | ⟨way, core⟩
  · obtain ⟨e', he', hr⟩ := h
    refine ⟨e', he', ?_⟩
    rw [Host.run_append_of_ne_normal (fun σ' => by simp [hr]), hr]
  by_cases hway : way = .onward
  · subst hway
    obtain ⟨s1, σ1, hs1, hr, hmatches, hkeeps⟩ := h
    rw [Host.run_append_of_normal hr]
    exact hrest s1 core σ1 hs1 hmatches hkeeps
  · have h : S.MirrorsWay bases p σ flow1 p1 (way, core) _ := h
    have hne := h.ne_normal hway
    rw [Host.run_append_of_ne_normal hne]
    cases way with
    | onward => exact absurd rfl hway
    | finished | away | continueLoop | breakLoop => exact h.go_on hway hp' flow

theorem Mirrors.append {t : TreeRun}
    (h : S.Mirrors bases p σ flow1 p1 t (S.host.run (p.emitted p1) σ)) (hok : FramesOk bases p)
    (hp1 : p.Grows p1) (hp' : p1.Grows p')
    (hrest : ∀ s1 core1 σ1, flow1 = some s1 → Matches issue core1 S.base s1 p1 σ1 →
      S.Mirrors bases p1 σ1 flow p' (rest core1) (S.host.run (p1.emitted p') σ1)) :
    S.Mirrors bases p σ flow p' (andThen t rest) (S.host.run (p.emitted p') σ) := by
  rw [emitted_trans hp1.out hp'.out]
  exact h.bind hp'.toLater fun s1 core1 σ1 hs1 hm1 hkeeps =>
    (hrest s1 core1 σ1 hs1 hm1).of_later hok hp1.toLater hkeeps

theorem Mirrors.of_moves {σ1 : Scene} {t : TreeRun}
    (hmove : Moves issue S.host p p1 σ σ1) (hok : FramesOk bases p) (hp' : p1.Grows p')
    (h : S.Mirrors bases p1 σ1 flow p' t (S.host.run (p1.emitted p') σ1)) :
    S.Mirrors bases p σ flow p' t (S.host.run (p.emitted p') σ) := by
  rw [emitted_trans hmove.more.out hp'.out, Host.run_append_of_normal hmove.run]
  exact h.of_later hok hmove.more.grows.toLater hmove.keeps

/-- A generator emits code that runs like part of a tree, wherever it starts: in loops with some
labels, and in a state that describes the processor. -/
def Sound (S : Stage) (labels : List (Option String)) (m : PathGen) (t : Core → TreeRun) : Prop :=
  ∀ bases s core p σ flow p', Yields (m s) p flow p' → FramesOk bases p →
    FollowFresh p.frames p'.issue → p.frames.map Frame.label = labels →
    Matches issue core S.base s p σ →
    S.Mirrors bases p σ flow p' (t core) (S.host.run (p.emitted p') σ)

end Stage

end Lift6502
