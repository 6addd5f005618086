import Lift6502.Proofs.Generate.Pass

/-!
# Code for nodes

By induction on a tree, its code runs like the tree.
-/

namespace Lift6502

open Expression Gen Generator ControlNode
open Evaluator (isFor)

variable {env : Environment}

theorem Expression.HasValue.readsIssued {i : Issue} {e : Expression} {w : UInt32}
    (h : e.HasValue (env.known i) w) : ∀ v ∈ e.reads, v.IsIssued i :=
  fun v hv => Environment.isIssued_of_known (h.isSome_of_mem_reads v hv)

theorem StackDescribes.readsIssued {i : Issue} {base bytes : List UInt8}
    {entries : List StackEntry} (h : StackDescribes (env.known i) base entries bytes) :
    ∀ entry ∈ entries, entry.ReadsIssued i := by
  induction entries generalizing bytes with
  | nil => exact fun entry hentry => absurd hentry List.not_mem_nil
  | cons first rest ih =>
    obtain ⟨byte, later, rfl, hfirst, hrest⟩ := h.of_cons
    intro entry hentry
    rcases List.mem_cons.1 hentry with rfl | hentry
    · cases entry with
      | byte b =>
        rintro e rfl
        exact (hfirst e rfl).readsIssued
      | status flags =>
        intro f e he
        exact (hfirst f e (by rw [he]; rfl)).readsIssued
    · exact ih hrest entry hentry

namespace Stage

variable {S : Stage} {labels : List (Option String)} {bases : Bases} {p p' : Progress} {σ : Scene}
  {s : SymbolicState} {core : Core} {next : BlockId}

theorem framesOk_cons (hok : FramesOk bases p) (hissue : p.issue.Le p'.issue)
    (hframes : p'.frames = p.frames) {f : Frame} (hm : Matches Progress.issue core S.base s p σ)
    (hstack : f.stack = s.stack) (hphi : ∀ l v, f.phis.get l = some v →
      (∃ id, v = .merge l id) ∧ ¬ v.IsIssued p.issue ∧ v.IsIssued p'.issue) :
    FramesOk (p.issue :: bases) { p' with frames := f :: p'.frames } := by
  refine ⟨?_, fun i hi => ?_, fun k f' i hf' hi l v hv => ?_, fun k f' i hf' hi => ?_⟩
  · rw [List.length_cons, List.length_cons, hframes, hok.length]
  · rcases List.mem_cons.1 hi with rfl | hi
    · exact hissue
    · exact (hok.le i hi).trans hissue
  -- The new frame is in front; the others are as before.
  · cases k with
    | zero =>
      cases hf'
      cases hi
      exact hphi l v hv
    | succ k =>
      have hf' : p.frames[k]? = some f' := by rw [← hframes]; exact hf'
      obtain ⟨hmerge, hnew, hissued⟩ := hok.phi k f' i hf' hi l v hv
      exact ⟨hmerge, hnew, hissued.mono hissue⟩
  · cases k with
    | zero =>
      cases hf'
      cases hi
      rw [hstack]
      exact hm.describes.stack.readsIssued
    | succ k => exact hok.stack k f' i (by rw [← hframes]; exact hf') hi

theorem sound_loop (hstructured : S.generator.dispatch = none) (hcalls : S.CallsMirror)
    (task : LoopTask) {run : Core → TreeRun}
    (hsteady : ∀ s, Steady (task.body s)) (hsound : S.Sound (task.label :: labels) task.body run)
    (hother : ∀ {core way core'}, run core = .ok (way, core') → ∀ l, l ∉ task.modified →
      core'.cpu.value l = core.cpu.value l)
    (hback : ∀ {core target core'}, run core = .ok (.continueLoop target, core') →
      isFor task.label target = true → task.kind ≠ .postTest)
    (htest : task.kind ≠ .infinite → ∃ b taken, task.condition = some (.branch b taken))
    (hheader : ∀ l, l ∉ task.modified → l ∉ S.generator.writtenBy task.header) (next : BlockId) :
    S.Sound labels (S.generator.loop task) fun core =>
      runPasses .limit (pass S.machine task.kind task.header
        (fun core => task.condition.all (Condition.holds S.machine next core)) task.label run)
        S.host.fuel core := by
  intro bases s core p σ flow p' hy hok hfresh hlabels hm
  -- Of all attempts only the last one counts: it loses no location that it carries.
  obtain ⟨journal, widened, follow, a, q, last, hattempt, hkept, hlast, hfollow, hafter⟩ :=
    exists_attempt hsteady hy
  obtain ⟨phis, entry, p1, p2, f, rest, henter, hloop, hframes, htext, hwidened, hbreaks, rfl⟩ :=
    yields_attempt hsteady hattempt
  obtain ⟨rfl, hexit, hleads⟩ := yields_afterLoop hafter
  -- The code before the loop puts the carried locations into their variables.
  let begin : Progress := { p with journal, out := #[] }
  obtain ⟨σ1, hmove, hentering⟩ := performs_enterLoop (H := S.host) (p := begin)
    (hm.of_issue (.refl _)) (phis, entry) p1 henter
  have hgrows := (nestable_steady.emitLoop S.generator hsteady phis entry).grows hloop
  have hframe : (task.frame s phis follow).Grows f := hgrows.frame 0 _ f rfl (by rw [hframes]; rfl)
  -- From here on the loop is one that is kept, with everything that is known about it.
  let R : LoopRun :=
    { bases, before := p, scene := σ, core, state := s, task, phis, entry
      start := { p1 with frames := task.frame s phis follow :: p1.frames }
      done := p2, frame := f
      after := { p2 with frames := rest, merges := last, out := p.out ++ a.statements.toArray }
      flow }
  have hlabel : p1.frames = p.frames := hmove.more.frames
  have hafterIssue : p2.issue.Le R.after.issue := ⟨Nat.le_refl _, hlast, id⟩
  have hR : R.Valid S := by
    refine
      { structured := hstructured
        matched := hm
        outer := hok
        inner := framesOk_cons hok hentering.issue hlabel hm rfl fun l v hv => ?_
        issue := hentering.issue
        labels := ?_
        later := hgrows.toLater
        finished := hframes
        fresh := ?_
        issue_after := hafterIssue
        phis := hframe.phis
        stack := hframe.stack
        carried := fun l v hv hl => ?_
        entry_stack := hentering.stack
        location := fun l => ?_
        breaks := ?_
        follow := ?_ }
    · obtain ⟨hmerge, hnew, hissued, -⟩ := hentering.phi l v hv
      exact ⟨hmerge, hnew, hissued⟩
    · show task.label :: p1.frames.map Frame.label = _
      rw [hlabel]
    · intro f' hf' l v hv
      rcases List.mem_cons.1 hf' with rfl | hf'
      · obtain ⟨hmerge, hnew, -⟩ := hfollow l v hv
        exact ⟨hmerge, hnew⟩
      · exact hfresh.mono hafterIssue f' (by rw [← hlabel]; exact hf') l v hv
    -- A carried location that is lost would have led to one more attempt.
    · obtain ⟨-, -, -, hnot, -⟩ := hentering.phi l v hv
      exact hnot (hkept l (by rw [hwidened]; exact hl))
    · rcases hentering.location l with hcarried | hlost | ⟨hmem, hsame⟩
      · exact .inl hcarried
      · exact .inr (.inl hlost)
      · exact .inr (.inr ⟨hmem.resolve_left List.not_mem_nil, hsame⟩)
    · intro s' hs'
      have hown : f.follow = follow := hframe.follow
      rw [hown]
      exact hleads s' (by rw [hbreaks]; exact hs')
    · intro l v hv
      have hown : f.follow = follow := hframe.follow
      rw [hown] at hv
      exact (hfollow l v hv).2.2
  have hbody : R.Body S run := ⟨hsteady, by rw [hlabels]; exact hsound, hother, hback⟩
  -- The first pass starts with the values from before the loop.
  have htop : R.Top S core σ1 :=
    ⟨hentering.keeps, hentering.memory.trans hm.memory,
      hm.describes.stack.mono (hentering.keeps.known_le (.refl _)),
      fun l v hv => (hentering.phi l v hv).2.2.2.2, fun _ _ => rfl⟩
  have hends := hR.ends hbody next hloop htop (fun s' hs' => (hexit s' hs').1) hcalls htest hheader
  -- What is emitted is the code before the loop and the loop.
  have hemitted : p.emitted R.after = begin.emitted p1 ++ R.start.emitted p2 := by
    have hout : begin.emitted p2 = begin.emitted p1 ++ R.start.emitted p2 :=
      Progress.emitted_trans hmove.more.out hgrows.out
    rw [← hout, Progress.emitted_of_empty rfl htext]
    exact Progress.emitted_eq (by simp [R])
  show S.Mirrors bases p σ flow R.after _ (S.host.run (p.emitted R.after) σ)
  rw [hemitted, Host.run_append_of_normal hmove.run]
  exact hends

theorem sound_nil (next : BlockId) :
    S.Sound labels (S.generator.nodes []) (S.runNodes next []) := by
  intro bases s core p σ flow p' hy hok _ _ hm
  rw [Generator.nodes] at hy
  obtain ⟨rfl, rfl⟩ := hy.of_pure
  rw [runNodes, runAll, Progress.emitted_self]
  exact ⟨s, σ, rfl, rfl, hm, .refl⟩

theorem Sound.cons {n : ControlNode} {rest : List ControlNode}
    (hn : S.Sound labels (S.generator.node n) (run S.machine S.host.fuel next n))
    (hrest : S.Sound labels (S.generator.nodes rest) (S.runNodes next rest)) :
    S.Sound labels (S.generator.nodes (n :: rest)) (S.runNodes next (n :: rest)) := by
  intro bases s core p σ flow p' hy hok hfresh hlabels hm
  rw [Generator.nodes] at hy
  obtain ⟨flow1, p1, hfirst, hy1⟩ := hy.of_bind
  have hp1 := (S.generator.steady_node n s).grows hfirst
  -- The breaks that come later must not assign what the node uses, hence the bound on the numbers.
  have hmirrors := fun hle =>
    hn bases s core p σ flow1 p1 hfirst hok (hfresh.mono hle) hlabels hm
  rw [S.runNodes_cons]
  cases flow1 with
  | none =>
    obtain ⟨rfl, rfl⟩ := hy1.of_pure
    exact (hmirrors (.refl _)).append hok hp1 (.refl _) fun _ _ _ hs1 => nomatch hs1
  | some s1 =>
    have hp' := (S.generator.steady_nodes rest s1).grows hy1
    refine (hmirrors hp'.issue).append hok hp1 hp' fun s2 core1 σ1 hs2 hm1 => ?_
    cases hs2
    exact hrest bases s1 core1 p1 σ1 flow p' hy1 (hok.mono hp1.toLater)
      (hfresh.of_later hp1.toLater) (hp1.toLater.labels.trans hlabels) hm1

theorem sound_blockNode (hcalls : S.CallsMirror) (b next : BlockId) :
    S.Sound labels (S.generator.node (.block b))
      (run S.machine S.host.fuel next (.block b)) := by
  have hrun : run S.machine S.host.fuel next (.block b) =
      fun core => wayOf (S.machine.run b core) := funext (S.run_block next b)
  rw [hrun]
  exact sound_block hcalls b

theorem Sound.condNode {t e : List ControlNode}
    (ht : S.Sound labels (S.generator.nodes t) (S.runNodes next t))
    (he : S.Sound labels (S.generator.nodes e) (S.runNodes next e)) (b : BlockId) (taken : Bool)
    (join : Option BlockId) : S.Sound labels (S.generator.node (.cond (.branch b taken) t e join))
      (run S.machine S.host.fuel next (.cond (.branch b taken) t e join)) := by
  have hrun : run S.machine S.host.fuel next (.cond (.branch b taken) t e join) =
      fun core => if (Condition.branch b taken).holds S.machine next core
        then S.runNodes next t core else S.runNodes next e core := by
    funext core
    rw [run]
    rfl
  rw [hrun]
  exact ht.conditional he (S.generator.steady_nodes t) (S.generator.steady_nodes e) b taken
    join next

mutual

theorem sound_node (hstructured : S.generator.dispatch = none) (hcalls : S.CallsMirror)
    (next : BlockId) {u : Surroundings} (n : ControlNode) {around : List LoopContext}
    (h : u.WellFormed around n) : S.Sound (around.map LoopContext.label) (S.generator.node n)
      (run S.machine S.host.fuel next n) := by
  cases n with
  | block b => exact sound_blockNode hcalls b next
  | cond condition t e join =>
    cases condition with
    | dispatch b => exact absurd h.1 id
    | branch b taken =>
      exact (sound_nodes hstructured hcalls next t h.2.1).condNode
        (sound_nodes hstructured hcalls next e h.2.2) b taken join
  | loop kind header condition body label follow =>
    have hbody := sound_nodes hstructured hcalls next body h.2.2
    have hwritten : ∀ l, l ∉ S.generator.modifiedBy header body →
        ∀ b, b = header ∨ b ∈ blocksRun body → l ∉ S.generator.writtenBy b :=
      fun l hl b hb => not_mem_writtenBy hl hb
    have hrun : run S.machine S.host.fuel next
        (.loop kind header condition body label follow) = fun core =>
          runPasses .limit (pass S.machine kind header
            (fun core => condition.all (Condition.holds S.machine next core)) label
            (S.runNodes next body)) S.host.fuel core := by
      funext core
      rw [run]
      rfl
    rw [hrun]
    let task : LoopTask :=
      { kind, header, name := S.generator.graph.name header, condition, label
        modified := S.generator.modifiedBy header body, body := S.generator.nodes body }
    refine sound_loop hstructured hcalls task (S.generator.steady_nodes body) hbody
      ?_ ?_ ?_ ?_ next
    · intro core way core' hrun l hl
      exact value_runNodes hcalls h.2.2 hrun fun b hb => hwritten l hl b (.inr hb)
    · intro core target core' hrun hfor
      obtain ⟨c, hc, hkind⟩ := fitsIn_runAll h.2.2 hrun
      rw [LoopContext.named?_cons, if_pos hfor] at hc
      cases hc
      exact hkind
    · intro hkind
      cases kind with
      | infinite => exact absurd rfl hkind
      | preTest =>
        obtain ⟨sense, hcondition, -⟩ := h.2.1
        exact ⟨header, sense, hcondition⟩
      | postTest =>
        obtain ⟨test, hcondition, htests⟩ := h.2.1
        cases test with
        | dispatch b => exact absurd htests id
        | branch b taken => exact ⟨b, taken, hcondition⟩
    · exact fun l hl => hwritten l hl header (.inl rfl)
  | goto b => exact sound_goto hcalls (fun plan hplan => by rw [hstructured] at hplan; cases hplan) b
  | breakLoop label => exact sound_leaveLoop label
  | continueLoop label => exact sound_resumeLoop label

theorem sound_nodes (hstructured : S.generator.dispatch = none) (hcalls : S.CallsMirror)
    (next : BlockId) {u : Surroundings} (nodes : List ControlNode) {around : List LoopContext}
    (h : u.AllWellFormed around nodes) :
    S.Sound (around.map LoopContext.label) (S.generator.nodes nodes) (S.runNodes next nodes) := by
  cases nodes with
  | nil => exact sound_nil next
  | cons n rest =>
    exact (sound_node hstructured hcalls next n h.1).cons
      (sound_nodes hstructured hcalls next rest h.2)

end

end Stage

end Lift6502
