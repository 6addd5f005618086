import Lift6502.Proofs.Generate.Assignments
import Lift6502.Proofs.Generate.Defined
import Lift6502.Proofs.Generate.Notes

/-!
# Attempts leave no trace

A loop that is generated several times counts as if only the attempt that is kept had been made.
`Issues` lists the numbers of the variables that a run takes to carry locations; none is listed
twice.
-/

namespace Lift6502

open Gen Variable Carriers

variable {ids : List Nat} {flow : Option SymbolicState} {s : SymbolicState} {round : Round}
  {c : Generator} {n : Nat}

def Variable.merge? : Variable → Option Nat
  | .merge _ id => some id
  | _ => none

/-- The numbers that are issued in a run. Of the attempts at a loop only the one that is
kept counts. -/
inductive Issues : ∀ {α : Type}, Gen α → Progress → α → Progress → List Nat → Prop
  | quiet {α : Type} {m : Gen α} {p p' : Progress} {a : α}
      (keeps : ∀ p a p', Yields m p a p' → p'.merges = p.merges) (run : Yields m p a p') :
      Issues m p a p' []
  | newMerge (l : Location) (p : Progress) :
      Issues (newMerge l) p (.merge l (p.merges + 1)) { p with merges := p.merges + 1 }
        [p.merges + 1]
  | bind {α β : Type} {m : Gen α} {f : α → Gen β} {p p' p'' : Progress} {a : α} {b : β}
      {ids ids' : List Nat} (first : Issues m p a p' ids) (rest : Issues (f a) p' b p'' ids') :
      Issues (m >>= f) p b p'' (ids ++ ids')
  | loop {c : Generator} {kind : LoopKind} {header : BlockId} {condition : Option Condition}
      {body : List ControlNode} {label : Option String} {s : SymbolicState} {p p' last : Progress}
      {flow : Option SymbolicState} {n : Nat} {round : Generator.Round} {a : Generator.Attempt}
      {ids : List Nat} (run : Yields (c.loop (c.loopTask kind header condition body label) s) p
        flow p')
      (concludes : c.Concludes (c.loopTask kind header condition body label) s p (.first p) n
        (.kept round a last))
      (attempt : Issues (c.attempt (c.loopTask kind header condition body label) s round.widened
        round.follow) { p with journal := round.journal } a last ids) :
      Issues (c.loop (c.loopTask kind header condition body label) s) p flow p'
        (ids ++ (round.follow.getD .empty).carried.filterMap merge?)

structure Between (lo hi : Nat) (ids : List Nat) : Prop where
  le : lo ≤ hi
  nodup : ids.Nodup
  bounds : ∀ id ∈ ids, lo < id ∧ id ≤ hi

theorem Between.append {lo mid hi : Nat} {ids' : List Nat} (h : Between lo mid ids)
    (h' : Between mid hi ids') : Between lo hi (ids ++ ids') := by
  refine ⟨Nat.le_trans h.le h'.le, List.nodup_append.2 ⟨h.nodup, h'.nodup, fun i hi j hj heq => ?_⟩,
    fun i hi => ?_⟩
  · have hlow := h.bounds i hi
    have hhigh := h'.bounds j hj
    omega
  · have hle := h.le
    have hle' := h'.le
    rcases List.mem_append.1 hi with hi | hi
    · have hlow := h.bounds i hi
      omega
    · have hhigh := h'.bounds i hi
      omega

namespace Generator

variable {plan : Carriers} {p p' last : Progress} {task : LoopTask} {a : Attempt}
  {breaks : List SymbolicState}

/-! ## The variables that breaks assign -/

theorem nodup_locations : Location.all.Nodup := by
  decide

theorem carried_merge? (plan : Carriers) : plan.carried.filterMap merge? =
    Location.all.filterMap fun l => (plan.get l).bind merge? := by
  unfold carried toList
  rw [List.filterMap_map, List.filterMap_filterMap]
  congr 1
  funext l
  cases plan.get l <;> rfl

def Apart (plan : Carriers) : Prop :=
  ∀ l k id, (plan.get l).bind merge? = some id →
    (plan.get k).bind merge? = some id → l = k

theorem nodup_carried (h : Apart plan) : (plan.carried.filterMap merge?).Nodup := by
  rw [carried_merge?]
  exact nodup_locations.filterMap h

theorem apart_set (h : Apart plan) {last : Nat}
    (hle : ∀ l id, (plan.get l).bind merge? = some id → id ≤ last) (l : Location) :
    Apart (plan.set l (some (.merge l (last + 1)))) := by
  -- The number of the new variable is above all others.
  have hnew : ∀ k id, k ≠ l →
      ((plan.set l (some (.merge l (last + 1)))).get k).bind merge? = some id →
      (plan.get k).bind merge? = some id := by
    intro k id hk hid
    rwa [get_set, if_neg hk] at hid
  have hold : ∀ id, ((plan.set l (some (.merge l (last + 1)))).get l).bind merge? =
      some id → id = last + 1 := by
    intro id hid
    rw [get_set, if_pos rfl] at hid
    cases hid
    rfl
  intro j k id hj hk
  by_cases hjl : j = l <;> by_cases hkl : k = l
  · rw [hjl, hkl]
  · subst hjl
    have hlow := hle k id (hnew k id hkl hk)
    have hhigh := hold id hj
    omega
  · subst hkl
    have hlow := hle j id (hnew j id hjl hj)
    have hhigh := hold id hk
    omega
  · exact h j k id (hnew j id hjl hj) (hnew k id hkl hk)

theorem apart_empty : Apart .empty := by
  intro l k id hl
  rw [get_empty] at hl
  cases hl

theorem apart_of_breakCarriers (hy : Yields (breakCarriers breaks) p plan p') : Apart plan := by
  unfold breakCarriers at hy
  split at hy
  · obtain ⟨rfl, -⟩ := hy.of_pure
    exact apart_empty
  refine (Yields.foldlM_invariant (I := fun _ plan q => Apart plan ∧
    ∀ l id, (plan.get l).bind merge? = some id → id ≤ q.merges) ?_ ⟨apart_empty, ?_⟩ hy).1
  · intro l _ plan q plan' q' hplan hstep
    dsimp only at hstep
    split at hstep
    · obtain ⟨v, q1, hnew, hpure⟩ := hstep.of_bind
      obtain ⟨rfl, rfl⟩ := yields_newMerge.1 hnew
      obtain ⟨rfl, rfl⟩ := hpure.of_pure
      refine ⟨apart_set hplan.1 hplan.2 l, fun k id hid => ?_⟩
      rw [get_set] at hid
      split at hid
      · cases hid
        exact Nat.le_refl _
      · exact Nat.le_succ_of_le (hplan.2 k id hid)
    · obtain ⟨rfl, rfl⟩ := hstep.of_pure
      exact hplan
  · intro l id hid
    rw [get_empty] at hid
    cases hid

theorem between_breakCarriers (hy : Yields (breakCarriers breaks) p plan p') :
    Between p.merges p'.merges (plan.carried.filterMap merge?) := by
  obtain ⟨⟨last, hlast, rfl⟩, hnumbers⟩ := yields_breakCarriers hy
  refine ⟨hlast, nodup_carried (apart_of_breakCarriers hy), fun id hid => ?_⟩
  rw [carried_merge?] at hid
  obtain ⟨l, -, hl⟩ := List.mem_filterMap.1 hid
  obtain ⟨v, hv, hid⟩ := Option.bind_eq_some_iff.1 hl
  obtain ⟨id', rfl, hbounds⟩ := hnumbers l v hv
  cases hid
  exact hbounds

/-! ## The attempt that is kept -/

theorem yields_of_kept (h : (LoopResult.kept round a last).run task = (.ok flow, p')) :
    p' = { reserve last round.reserved with out := last.out ++ a.statements.toArray } :=
  (yields_afterLoop h).1

/-- The numbers of the variables that the breaks of the kept attempt assign are behind those that
the attempt takes. -/
theorem between_of_kept (hbody : ∀ s, Steady (task.body s))
    (h : Concludes c task s p (.first p) n (.kept round a last)) :
    Between last.merges (max last.merges round.reserved)
      ((round.follow.getD .empty).carried.filterMap merge?) := by
  rcases hfollow : round.follow with _ | follow
  · exact ⟨Nat.le_max_left _ _, nodup_carried apart_empty, fun id hid => nomatch hid⟩
  obtain ⟨breaks, q, reserved, q', hplan, hreserved, hmerges⟩ := h.exists_plan hbody hfollow
  have hbetween := between_breakCarriers hplan
  refine ⟨Nat.le_max_left _ _, hbetween.nodup, fun id hid => ?_⟩
  obtain ⟨hlow, hhigh⟩ := hbetween.bounds id hid
  have hlow : max q.merges reserved < id := hlow
  omega

end Generator

theorem Issues.between {α : Type} {m : Gen α} {p p' : Progress} {a : α} (h : Issues m p a p' ids) :
    Between p.merges p'.merges ids := by
  induction h with
  | quiet hkeeps hrun =>
    rw [hkeeps _ _ _ hrun]
    exact ⟨Nat.le_refl _, List.nodup_nil, fun id hid => nomatch hid⟩
  | newMerge l p =>
    refine ⟨Nat.le_succ _, List.pairwise_singleton _ _, fun id hid => ?_⟩
    rw [List.mem_singleton.1 hid]
    exact ⟨Nat.lt_succ_self _, Nat.le_refl _⟩
  | bind _ _ ih ih' => exact ih.append ih'
  | @loop c kind header condition body label s p p' last flow n round a ids hrun hconcludes _ ih =>
    have hsteady : ∀ s, Steady (c.nodes body s) := fun s => c.steady_nodes body s
    have hlast := Generator.yields_of_kept ((hconcludes.run_loop hsteady).symm.trans hrun)
    rw [hlast]
    -- The variables of the breaks were planned before this attempt, but their numbers are behind
    -- it.
    exact ih.append (Generator.between_of_kept hsteady hconcludes)

/-! ## Every run has its numbers -/

def Logged {α : Type} (m : Gen α) : Prop := ∀ p a p', Yields m p a p' → ∃ ids, Issues m p a p' ids

namespace Logged

variable {α β : Type}

theorem quiet {m : Gen α} (h : ∀ p a p', Yields m p a p' → p'.merges = p.merges) : Logged m :=
  fun _ _ _ hy => ⟨[], .quiet h hy⟩

theorem pure (a : α) : Logged (pure a) := by
  refine .quiet fun p b p' hy => ?_
  rw [hy.of_pure.2]

theorem throw (e : GenerationError) : Logged (throw e : Gen α) :=
  fun _ _ _ hy => absurd hy Yields.not_throw

theorem bind {m : Gen α} {f : α → Gen β} (hm : Logged m) (hf : ∀ a, Logged (f a)) :
    Logged (m >>= f) := by
  intro p b p'' hy
  obtain ⟨a, p', hfirst, hrest⟩ := hy.of_bind
  obtain ⟨ids, hids⟩ := hm p a p' hfirst
  obtain ⟨ids', hids'⟩ := hf a p' b p'' hrest
  exact ⟨ids ++ ids', hids.bind hids'⟩

theorem get : Logged get := by
  refine .quiet fun p a p' hy => ?_
  rw [(Yields.get_iff.1 hy).2]

theorem modify {g : Progress → Progress} (h : ∀ p, (g p).merges = p.merges) :
    Logged (modify g) := by
  refine .quiet fun p a p' hy => ?_
  rw [Yields.modify_iff.1 hy, h p]

theorem capture {g : Gen α} (hg : Logged g) : Logged (Gen.capture g) :=
  .bind .get fun _ => .bind (.modify fun _ => rfl) fun _ => .bind hg fun _ => .bind .get fun _ =>
    .bind (.modify fun _ => rfl) fun _ => .pure _

end Logged

theorem Gen.composable_logged : Composable (fun _ => True) @Logged where
  pure := .pure
  throw := fun _ => .throw _
  bind := .bind
  emit := fun _ => .modify fun _ => rfl
  newTemp := .quiet fun p v p' hy => by rw [(yields_newTemp.1 hy).2]
  newMerge := fun l p v p' hy => by
    obtain ⟨rfl, rfl⟩ := yields_newMerge.1 hy
    exact ⟨_, .newMerge l p⟩
  unbound := fun _ _ _ => trivial
  stackMismatch := fun _ _ _ => trivial

namespace Generator

variable {c : Generator} {s : SymbolicState} {task : LoopTask} {p p' : Progress}

theorem logged_framePosition (label : Option String) : Logged (c.framePosition label) :=
  .quiet fun p k p' hy => by rw [(yields_framePosition.1 hy).2]

theorem logged_jumpToHeader (k : Nat) (s : SymbolicState) : Logged (jumpToHeader k s) := by
  refine .bind .get fun p => ?_
  split
  · exact .pure ()
  · refine Composable.ite (fun _ => .throw _) fun _ => ?_
    exact .bind (.modify fun _ => rfl) fun _ => composable_logged.threads.assignAtOnce False.elim

theorem logged_recordBreak (k : Nat) (s : SymbolicState) : Logged (recordBreak k s) := by
  refine .bind .get fun p => ?_
  split
  · exact .pure ()
  · next f _ =>
    have hassign : Logged (assignFollow f s) :=
      composable_logged.threads.assignFollow False.elim False.elim
    exact .bind hassign fun _ => .modify fun _ => rfl

theorem nestable_logged : Nestable @Logged fun _ _ => True :=
  composable_logged.nestable .capture (fun _ => logged_framePosition) logged_jumpToHeader
    logged_recordBreak

theorem logged_attempt (hbody : ∀ s, Logged (task.body s)) (s : SymbolicState)
    (widened : LocationSet) (follow : Option Carriers) :
    Logged (c.attempt task s widened follow) := by
  refine .bind (Logged.capture (.bind (composable_logged.threads.enterLoop False.elim task widened)
    fun r => ?_)) fun _ => .pure _
  exact .bind (.modify fun _ => rfl) fun _ =>
    .bind (nestable_logged.emitLoop c hbody r.1 r.2) fun _ => .bind .get fun _ =>
    .bind (.modify fun _ => rfl) fun _ => .pure _

theorem throughLoops_logged : ThroughLoops @Logged := by
  intro c kind header condition body label hbody s p flow p' hrun
  obtain ⟨n, round, a, last, hconcludes, -⟩ := exists_kept (fun s => c.steady_nodes body s) hrun
  have hattempt : Logged (c.attempt (c.loopTask kind header condition body label) s round.widened
      round.follow) :=
    logged_attempt hbody s round.widened round.follow
  obtain ⟨ids, hids⟩ := hattempt _ a last hconcludes.attempt_of_kept.1
  exact ⟨_, .loop hrun hconcludes hids⟩

theorem logged_nodes (c : Generator) (nodes : List ControlNode) (s : SymbolicState) :
    Logged (c.nodes nodes s) :=
  nestable_logged.nodes c throughLoops_logged nodes s

theorem logged_dispatchArm (plan : DispatchPlan) (entry : SymbolicState) (n : ControlNode) :
    Logged (c.dispatchArm plan entry n) := by
  unfold dispatchArm
  split
  · refine .bind (.capture (c.logged_nodes _ _)) fun r => ?_
    obtain ⟨_ | flow, body⟩ := r
    · exact .bind (nestable_logged.anyCondition c _ _) fun _ => .pure _
    · exact .throw _
  · exact .pure []

theorem logged_structuredBody (t : ControlTree) (entry : SymbolicState) :
    Logged (c.structuredBody t entry) := by
  refine .bind (c.logged_nodes _ _) fun flow => ?_
  split
  · exact composable_logged.threads.ret False.elim _
  · exact .pure ()

theorem logged_dispatchLoop (t : ControlTree) (entry : SymbolicState) :
    Logged (c.dispatchLoop t entry) := by
  unfold dispatchLoop
  split
  · refine .bind composable_logged.threads.carryAll fun carriers => ?_
    refine .bind (composable_logged.threads.settleFor False.elim False.elim _ fun _ => trivial)
      fun _ => ?_
    exact .bind (composable_logged.mapM _ fun n _ => logged_dispatchArm _ _ n) fun _ =>
      composable_logged.emit _
  · exact .throw _

theorem logged_body (t : ControlTree) : Logged (c.body t) := by
  refine .bind (Composable.ite (fun _ => ?_) fun _ => ?_) fun _ => .bind .get fun _ =>
    .modify fun _ => rfl
  · exact logged_structuredBody t _
  · exact logged_dispatchLoop t _

/-! ## What is left of the attempts -/

/-- The loops of a point have noted what they had noted before, and behind it what those of
`fresh` have. -/
structure NotesBehind (p fresh p' : Progress) : Prop where
  length : p'.frames.length = p.frames.length
  frame : ∀ (k : Nat) f f', p.frames[k]? = some f → p'.frames[k]? = some f' → ∃ g,
    fresh.frames[k]? = some g ∧
    f'.breaks = f.breaks ++ g.breaks ∧ ∀ l, l ∈ f'.widened ↔ l ∈ f.widened ∨ l ∈ g.widened

theorem notesBehind_after {fresh : Progress} (hlength : fresh.frames.length = p.frames.length)
    (hframes : p'.frames = (fresh.after p.frames).frames) : NotesBehind p fresh p' := by
  constructor
  · rw [hframes, Progress.length_after hlength, hlength]
  · intro k f f' hf hf'
    obtain ⟨g, hg⟩ := exists_before hlength.symm hf
    rw [hframes, Progress.getElem?_after hg hf] at hf'
    cases hf'
    exact ⟨g, hg, rfl, fun l => LocationSet.mem_union⟩

/-- All that is left of the attempts at a loop is one of them: its statements are added, and the
loops around have noted what it notes if they have noted nothing before. -/
structure LeavesOne (c : Generator) (task : LoopTask) (s : SymbolicState) (p p' : Progress)
    (round : Round) (a : Attempt) : Prop where
  statements : p'.out.toList = p.out.toList ++ a.statements
  notes : ∃ fresh, Yields (c.attempt task s round.widened round.follow)
    { p.unnoted with journal := round.journal } a fresh ∧ NotesBehind p fresh p'

theorem leavesOne_of_kept (hsteady : ∀ s, Steady (task.body s)) (hblind : ∀ s, Blind (task.body s))
    {last : Progress} {a : Attempt} (h : Concludes c task s p (.first p) n (.kept round a last))
    (hy : Yields (c.loop task s) p flow p') : LeavesOne c task s p p' round a := by
  obtain rfl := yields_of_kept ((h.run_loop hsteady).symm.trans hy)
  have hattempt := h.attempt_of_kept.1
  constructor
  · obtain ⟨-, -, -, p2, -, rest, -, -, -, -, -, -, hlast⟩ := yields_attempt hsteady hattempt
    have hout : last.out = p.out := by rw [hlast]
    show (last.out ++ a.statements.toArray).toList = _
    rw [hout, Array.toList_append]
  · -- The same attempt is made where the loops around have noted nothing.
    let start : Progress := { p.unnoted with journal := round.journal }
    have hstart : start.after p.frames = { p with journal := round.journal } :=
      congrArg (fun q : Progress => { q with journal := round.journal }) p.unnoted_after
    have hlength : start.frames.length = p.frames.length := List.length_map _
    rw [← hstart] at hattempt
    obtain ⟨fresh, hfresh, hframes, rfl⟩ :=
      blind_attempt hblind s round.widened round.follow start p.frames hlength a last hattempt
    exact ⟨fresh, hfresh, notesBehind_after hframes rfl⟩

/-- Generation of loops comes to an end and leaves no trace of attempts that are given up. The
attempts at any loop come to an end within two for each location and two more, and generating the
loop gives what they come to. If the loop is generated, its code is that of one attempt, and the
loops around have noted, behind what they had noted before, what this attempt notes and nothing
else. The rounds that prepare a dispatch loop come to rest. In a whole routine no two variables that
carry locations get the same number. -/
theorem loops_leave_no_trace (c : Generator) :
    (∀ kind header condition body label follow s p, ∃ n result,
      n ≤ 2 * (Location.all.length + 1) ∧
      c.Concludes (c.loopTask kind header condition body label) s p (.first p) n result ∧
      (c.node (.loop kind header condition body label follow) s).run.run p =
        result.run (c.loopTask kind header condition body label) ∧
      ∀ flow p', Yields (c.node (.loop kind header condition body label follow) s) p flow p' →
        ∃ round a last, result = .kept round a last ∧
          LeavesOne c (c.loopTask kind header condition body label) s p p' round a) ∧
    ComesToRest c.defineRound (c.routine.blocks.toList.map fun b => (b, LocationSet.full))
      c.certainlySet ∧
    ∀ t f, (c.generate t).1 = .ok f → ∃ p, Yields (c.body t) {} () p ∧
      (∃ ids, Issues (c.body t) {} () p ids) ∧ ∀ ids, Issues (c.body t) {} () p ids →
      ids.Nodup := by
  refine ⟨?_, c.comesToRest_certainlySet, ?_⟩
  · intro kind header condition body label follow s p
    obtain ⟨n, result, hconcludes⟩ :
        ∃ n result, Concludes c (c.loopTask kind header condition body label) s p (.first p) n
          result :=
      exists_concludes _
    have hsteady : ∀ s, Steady (c.nodes body s) := fun s => c.steady_nodes body s
    have hrun := hconcludes.run_loop hsteady
    refine ⟨n, result, Round.bound_first p ▸ hconcludes.le_bound, hconcludes, hrun,
      fun flow p' hy => ?_⟩
    cases result with
    | failed e last =>
      have hresult : (Except.error e, last) = (Except.ok flow, p') := hrun.symm.trans hy
      cases hresult
    | kept round a last =>
      exact ⟨round, a, last, rfl, leavesOne_of_kept hsteady
        (fun s => c.blind_nodes body s) hconcludes hy⟩
  · intro t f h
    unfold generate at h
    split at h
    · next p hrun =>
      exact ⟨p, hrun, logged_body t {} () p hrun, fun ids hids => hids.between.nodup⟩
    · cases h

end Generator

namespace countedScan

def escape : List ControlNode :=
  [.block 2, .cond (.branch 2 true) [.breakLoop (some "Outer")] [] none,
    .block 3, .cond (.branch 3 true) [.continueLoop none] [.breakLoop none] none]

def entry : SymbolicState :=
  ((SymbolicState.entry ∅).set .y (.literal 0)).set .c (.ofExpression (.bool false))

def around : Progress where
  frames :=
    [{ label := some "Outer", header := "Outer", phis := .empty, stack := [], breaks := [entry] }]

def innerTask : Generator.LoopTask := generator.loopTask .infinite 2 none escape none

def inner : Gen (Option SymbolicState) :=
  generator.node (.loop .infinite 2 none escape none (some 4)) entry

end countedScan

open countedScan

/-- The inner loop is generated three times, and nine numbers are taken in all. With an exit that
leaves both loops it is generated twice, as the carry is lost at first, and the outer loop notes one
break behind its own. -/
theorem countedScan_leaves_no_trace :
    (∃ f p ids, (generator.generate tree).1 = .ok f ∧
      Issues (generator.body tree) {} () p ids ∧ ids.Nodup ∧ p.merges = 9) ∧
    ∃ n round a last flow p',
      generator.Concludes innerTask entry around (.first around) n (.kept round a last) ∧
      Yields inner around flow p' ∧ p'.journal.length = 1 ∧
      p'.frames.map (·.breaks.length) = [2] ∧
      generator.LeavesOne innerTask entry around p' round a := by
  constructor
  · have hmerges : ((generator.body tree).run.run {}).2.merges = 9 := by decide +kernel
    have hok : (generator.generate tree).1.isOk = true := by decide +kernel
    cases h : (generator.generate tree).1 with
    | error e =>
      rw [h] at hok
      cases hok
    | ok f =>
      obtain ⟨p, hrun, ⟨ids, hids⟩, hnodup⟩ := (Generator.loops_leave_no_trace _).2.2 _ f h
      refine ⟨f, p, ids, rfl, hids, hnodup ids hids, ?_⟩
      unfold Yields at hrun
      exact (congrArg (fun r => r.2.merges) hrun).symm.trans hmerges
  · have hrun : (inner.run.run around).1.isOk = true ∧
        (inner.run.run around).2.journal.length = 1 ∧
        (inner.run.run around).2.frames.map (·.breaks.length) = [2] := by
      decide +kernel
    obtain ⟨hok, hjournal, hbreaks⟩ := hrun
    obtain ⟨n, result, -, hconcludes, -, hleaves⟩ := (Generator.loops_leave_no_trace generator).1
      .infinite 2 none escape none (some 4) entry around
    rcases h : inner.run.run around with ⟨e | flow, p'⟩
    · rw [h] at hok
      cases hok
    · obtain ⟨round, a, last, rfl, hone⟩ := hleaves flow p' h
      rw [h] at hjournal hbreaks
      exact ⟨n, round, a, last, flow, p', hconcludes, h, hjournal, hbreaks, hone⟩

end Lift6502
