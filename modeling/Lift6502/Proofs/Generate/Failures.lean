import Lift6502.Proofs.Generate.Rounds
import Lift6502.Proofs.Tree.Nesting

/-!
# Why generation fails

A failure is for a value or the stack, or for one of the instructions in the tree. A generator is
`Safe` if it fails only for the code and keeps what is known about the loops around it.
-/

namespace Lift6502

open Fails

/-- The failure is for a value or the stack, or for one of the instructions. -/
def GenerationError.ArisesFrom (code : Instruction → Prop) : GenerationError → Prop
  | .unbound .. | .stackMismatch .. | .stackUnderflow .. => True
  | .unsupported _ text | .unresolvedTarget _ text => ∃ i, code i ∧ text = i.text

/-- The generator fails only for the code, and the loops around it stay as they are known to be. -/
structure Safe (code : Instruction → Prop) (inv : List Frame → Prop) {α : Type} (m : Gen α) :
    Prop where
  keeps : ∀ {p a p'}, inv p.frames → Yields m p a p' → inv p'.frames
  fails : ∀ {p e}, inv p.frames → Fails m p e → e.ArisesFrom code

variable {code : Instruction → Prop} {inv : List Frame → Prop} {α β : Type} {e : GenerationError}

namespace Safe

theorem pure (a : α) : Safe code inv (pure a : Gen α) := by
  refine ⟨fun hp hy => ?_, fun _ hf => absurd hf not_pure⟩
  obtain ⟨-, rfl⟩ := hy.of_pure
  exact hp

theorem throw (he : e.ArisesFrom code) : Safe code inv (throw e : Gen α) := by
  refine ⟨fun _ hy => absurd hy Yields.not_throw, fun _ hf => ?_⟩
  rw [throw_iff.1 hf]
  exact he

variable {f : α → Gen β}

theorem bind_of {m : Gen α} (hm : Safe code inv m)
    (hf : ∀ p a p', inv p.frames → Yields m p a p' → Safe code inv (f a)) :
    Safe code inv (m >>= f) := by
  refine ⟨fun {p b p'} hp hy => ?_, fun {p e} hp hfails => ?_⟩
  · obtain ⟨a, p1, hy1, hy2⟩ := hy.of_bind
    exact (hf p a p1 hp hy1).keeps (hm.keeps hp hy1) hy2
  · rcases bind_iff.1 hfails with hfirst | ⟨a, p1, hy1, hrest⟩
    · exact hm.fails hp hfirst
    · exact (hf p a p1 hp hy1).fails (hm.keeps hp hy1) hrest

theorem bind {m : Gen α} (hm : Safe code inv m) (hf : ∀ a, Safe code inv (f a)) :
    Safe code inv (m >>= f) := hm.bind_of fun _ a _ _ _ => hf a

theorem get : Safe code inv (get : Gen Progress) := by
  refine ⟨fun hp hy => ?_, fun _ hf => absurd hf not_get⟩
  obtain ⟨-, rfl⟩ := Yields.get_iff.1 hy
  exact hp

theorem modify {f : Progress → Progress} (hf : ∀ p, inv p.frames → inv (f p).frames) :
    Safe code inv (modify f : Gen Unit) := by
  refine ⟨fun {p _ _} hp hy => ?_, fun _ hfails => absurd hfails not_modify⟩
  rw [Yields.modify_iff.1 hy]
  exact hf p hp

end Safe

theorem composable_safe : Composable (GenerationError.ArisesFrom code) (@Safe code inv) where
  pure := .pure
  throw := .throw
  bind := .bind
  emit := fun _ => .modify fun _ hp => hp
  newTemp := by
    refine ⟨fun hp hy => ?_, fun _ hf => absurd hf not_modifyGet⟩
    obtain ⟨-, rfl⟩ := yields_newTemp.1 hy
    exact hp
  newMerge := by
    refine fun l => ⟨fun hp hy => ?_, fun _ hf => absurd hf not_modifyGet⟩
    obtain ⟨-, rfl⟩ := yields_newMerge.1 hy
    exact hp
  unbound := fun _ _ _ => trivial
  stackMismatch := fun _ _ _ => trivial

theorem threads_safe : Threads False (GenerationError.ArisesFrom code) fun m _ => Safe code inv m :=
  composable_safe.threads

theorem Safe.note (e : Entry) : Safe code inv (Gen.note e) := .modify fun _ hp => hp

theorem Fails.of_capture {g : Gen α} {p : Progress}
    (h : Fails (Gen.capture g) p e) : Fails g { p with out := #[] } e := by
  have hinner := modify_bind_iff.1 (get_bind_iff.1 h)
  rcases bind_iff.1 hinner with hg | ⟨_, _, -, hrest⟩
  · exact hg
  -- What is left only takes what was emitted.
  · exact absurd (modify_bind_iff.1 (get_bind_iff.1 hrest)) not_pure

theorem Safe.capture {g : Gen α} (hg : Safe code inv g) : Safe code inv (Gen.capture g) :=
  .bind .get fun _ => .bind (.modify fun _ hp => hp) fun _ => .bind hg fun _ =>
    .bind .get fun _ => .bind (.modify fun _ hp => hp) fun _ => .pure _

/-! ## The loops around -/

/-- The loops that are being generated are the ones around the node: they have the same labels, and
there are no breaks out of a loop that ends by its own test. -/
def Inside (around : List LoopContext) (frames : List Frame) : Prop :=
  List.Forall₂ (fun f k => f.label = k.label ∧ (k.kind.isTested = true → f.breaks = [])) frames
    around

namespace Inside

variable {around : List LoopContext} {frames : List Frame} {f f' : Frame} {k : LoopContext}
  {position : Nat}

theorem set (h : Inside around frames) (hf : frames[position]? = some f)
    (hlabel : f'.label = f.label)
    (hbreaks : ∀ k, around[position]? = some k → k.kind.isTested = true → f.breaks = [] →
      f'.breaks = []) : Inside around (frames.set position f') := by
  induction h generalizing position with
  | nil => exact .nil
  | @cons g k frames around hg hrest ih =>
    cases position with
    | zero =>
      cases hf
      refine .cons ⟨hlabel.trans hg.1, fun hk => ?_⟩ hrest
      exact hbreaks k rfl hk (hg.2 hk)
    | succ position => exact .cons hg (ih hf hbreaks)

theorem exists_position (h : Inside around frames) {label : Option String}
    (hk : LoopContext.named? label around = some k) :
    ∃ position, Generator.jumpPosition? label frames = some position ∧
      around[position]? = some k := by
  cases label with
  | none =>
    cases h with
    | nil => cases hk
    | cons hg hrest => exact ⟨0, rfl, hk⟩
  | some name =>
    have hfind : around.find? (fun c => c.label == some name) = some k := hk
    show ∃ position, frames.findIdx? (fun f => f.label == some name) = some position ∧ _
    clear hk
    induction h with
    | nil => cases hfind
    | @cons g c frames around hg hrest ih =>
      rw [List.findIdx?_cons, hg.1]
      rw [List.find?_cons] at hfind
      cases hc : c.label == some name with
      | true =>
        rw [hc] at hfind
        exact ⟨0, rfl, hfind⟩
      | false =>
        rw [hc] at hfind
        obtain ⟨position, hposition, hat⟩ := ih hfind
        exact ⟨position + 1, by simp [hposition], hat⟩

end Inside

namespace Generator

open Gen

variable {c : Generator} {around : List LoopContext} {label : Option String} {s : SymbolicState}
  {k : LoopContext} {condition : Condition}

theorem safe_jumpToHeader (position : Nat) (s : SymbolicState) :
    Safe code (Inside around) (jumpToHeader position s) := by
  have hnoted : ∀ {p : Progress} {f : Frame}, Inside around p.frames →
      p.frames[position]? = some f →
      Inside around (p.frames.set position
        { f with widened := f.widened.union (lostAt f.phis s) }) :=
    fun hp hf => hp.set hf rfl fun _ _ _ h => h
  have hassign : ∀ assignments, Safe code (Inside around) (assignAtOnce assignments) :=
    fun _ => threads_safe.assignAtOnce False.elim
  refine ⟨fun {p u p'} hp hy => ?_, fun {p e} hp hfails => ?_⟩
  · rcases hf : p.frames[position]? with _ | f
    · rw [yields_jumpToHeader_none hf hy]
      exact hp
    · exact (hassign _).keeps (hnoted hp hf) ((yields_jumpToHeader hf).1 hy).2
  · unfold jumpToHeader at hfails
    have hrest := get_bind_iff.1 hfails
    split at hrest
    · exact absurd hrest not_pure
    · next f hf =>
      split at hrest
      · rw [throw_iff.1 hrest]
        trivial
      · exact (hassign _).fails (hnoted hp hf) (modify_bind_iff.1 hrest)

theorem safe_recordBreak {position : Nat} (hk : around[position]? = some k)
    (htested : k.kind.isTested = false) (s : SymbolicState) :
    Safe code (Inside around) (recordBreak position s) := by
  have hassign : ∀ f, Safe code (Inside around) (assignFollow f s) := fun f =>
    threads_safe.assignFollow False.elim False.elim
  refine ⟨fun {p u p'} hp hy => ?_, fun {p e} hp hfails => ?_⟩
  · rcases hf : p.frames[position]? with _ | f
    · rw [yields_recordBreak_none hf hy]
      exact hp
    · obtain ⟨p1, hfollow, rfl⟩ := (yields_recordBreak hf).1 hy
      have hframes := (yields_assignFollow hfollow).2.2.1
      refine Inside.set (f := f) ((hassign f).keeps hp hfollow) (by rw [hframes]; exact hf) rfl ?_
      intro k' hk' htested'
      rw [hk] at hk'
      cases hk'
      rw [htested] at htested'
      cases htested'
  · unfold recordBreak at hfails
    have hrest := get_bind_iff.1 hfails
    split at hrest
    · exact absurd hrest not_pure
    · next f hf =>
      rcases bind_iff.1 hrest with hfollow | ⟨_, _, _, hmodify⟩
      · exact (hassign f).fails hp hfollow
      · exact absurd hmodify not_modify

section

variable (hk : LoopContext.named? label around = some k)

include hk

theorem safe_framePosition_bind {f : Nat → Gen α}
    (hf : ∀ position, around[position]? = some k → Safe code (Inside around) (f position)) :
    Safe code (Inside around) (c.framePosition label >>= f) := by
  refine Safe.bind_of ⟨fun hp hy => ?_, fun {p e} hp hfails => ?_⟩ fun p position p' hp hy => ?_
  · obtain ⟨-, rfl⟩ := yields_framePosition.1 hy
    exact hp
  · obtain ⟨position, hposition, -⟩ := hp.exists_position hk
    have hyields : Yields (c.framePosition label) p position p :=
      yields_framePosition.2 ⟨hposition, rfl⟩
    unfold Fails at hfails
    unfold Yields at hyields
    rw [hyields] at hfails
    cases hfails
  · obtain ⟨position', hposition', hat⟩ := hp.exists_position hk
    rw [(yields_framePosition.1 hy).1] at hposition'
    cases hposition'
    exact hf position hat

theorem safe_resumeLoop (s : SymbolicState) : Safe code (Inside around) (c.resumeLoop label s) := by
  refine safe_framePosition_bind hk fun position _ =>
    .bind (safe_jumpToHeader position s) fun _ => ?_
  exact .bind (composable_safe.emit _) fun _ => .pure none

theorem safe_leaveLoop (htested : k.kind.isTested = false) (s : SymbolicState) :
    Safe code (Inside around) (c.leaveLoop label s) := by
  refine safe_framePosition_bind hk fun position hat => ?_
  refine .bind (safe_recordBreak hat htested s) fun _ => ?_
  exact .bind (composable_safe.emit _) fun _ => .pure none

end

/-! ## Blocks and tests -/

/-- The surroundings of a tree suit the generator: the blocks in the tree hold the code, and control
leaves the tree for a block of a dispatch loop or for another routine. -/
structure Serves (c : Generator) (u : Surroundings) (code : Instruction → Prop) : Prop where
  graph : u.graph = c.graph
  code : ∀ b, u.runs b → ∀ i ∈ (c.graph.block b).code, code i
  inside : ∀ t, u.away t → t ∈ c.routine.blocks → c.dispatch ≠ none
  outside : ∀ t, u.away t → t ∉ c.routine.blocks → c.routines.atEntry? t ≠ none

variable {u : Surroundings} {p p' : Progress} {flow : Option SymbolicState}

theorem safe_block (hc : c.Serves u code) {b : BlockId} (hb : u.runs b) (s : SymbolicState) :
    Safe code inv (c.block b s) := by
  refine threads_safe.block False.elim b fun index i hi => ?_
  have hi' := hc.code b hb i hi
  exact ⟨⟨i, hi', rfl⟩, ⟨i, hi', rfl⟩, trivial⟩

theorem safe_condition (hc : c.Serves u code) (h : u.TestsCondition condition) (s : SymbolicState) :
    Safe code inv (c.condition condition s) := by
  refine threads_safe.condition False.elim condition fun b taken heq hnone => ?_
  subst heq
  have hcond : (c.graph.block b).isConditional = true := hc.graph ▸ h.2
  unfold Block.isConditional at hcond
  split at hcond
  · next i hi =>
    rw [hi] at hnone
    exact absurd hnone (Option.isSome_iff_ne_none.1 hcond)
  · cases hcond

theorem opcode_eq_rts {site : Site} (hy : Yields (c.instruction site s) p none p') :
    site.instruction.opcode = .rts := by
  unfold instruction at hy
  cases hopcode : site.instruction.opcode <;> simp only [hopcode] at hy
  case rts => rfl
  case brk | rti | tsx | txs => exact absurd hy Yields.not_throw
  case clc | sec | clv | cld | sed | cli | sei | nop | pha | php => cases hy.of_pure.1
  case jmp =>
    split at hy
    · exact absurd hy Yields.not_throw
    · obtain ⟨_, -, h⟩ := Yields.map_iff.1 hy
      cases h
  all_goals
    obtain ⟨_, -, h⟩ := Yields.map_iff.1 hy
    cases h

theorem opcode_ne_rts {i : Instruction} (h : i.worksOnRegisters = true) : i.opcode ≠ .rts := by
  intro hrts
  rw [Instruction.worksOnRegisters, hrts] at h
  simp [Opcode.isConditionalBranch, Opcode.branchCondition?] at h

theorem instructions_goes_on {name : String} {block : Block} {index : Nat} {code : List Instruction}
    (hcode : ∀ i ∈ code, i.opcode ≠ .rts)
    (hy : Yields (c.instructions name block index code s) p flow p') : flow ≠ none := by
  induction code generalizing index s p with
  | nil =>
    obtain ⟨rfl, -⟩ := hy.of_pure
    simp
  | cons i rest ih =>
    unfold instructions at hy
    obtain ⟨_, p1, -, hy1⟩ := hy.of_bind
    obtain ⟨next, p2, hfirst, hy2⟩ := hy1.of_bind
    cases next with
    | none => exact absurd (opcode_eq_rts hfirst) (hcode i List.mem_cons_self)
    | some s => exact ih (fun j hj => hcode j (List.mem_cons_of_mem i hj)) hy2

theorem block_goes_on {b : BlockId} (hcode : ∀ i ∈ (c.graph.block b).code, i.opcode ≠ .rts)
    (hsuccessors : (c.graph.block b).successors ≠ []) (hy : Yields (c.block b s) p flow p') :
    flow ≠ none := by
  unfold Generator.block at hy
  obtain ⟨next, p1, hcodeRun, hy⟩ := hy.of_bind
  cases next with
  | none => exact absurd rfl (instructions_goes_on hcode hcodeRun)
  | some s =>
    simp only [List.isEmpty_iff] at hy
    rw [if_neg hsuccessors] at hy
    obtain ⟨rfl, -⟩ := hy.of_pure
    simp

variable {task : LoopTask} {outer : List LoopContext}

def LoopTask.context (task : LoopTask) : LoopContext := ⟨task.label, task.kind⟩

theorem inside_frame (hp : Inside around p.frames) (s : SymbolicState) (phis : Carriers)
    (follow : Option Carriers) :
    Inside (task.context :: around)
      { p with frames := task.frame s phis follow :: p.frames }.frames :=
  .cons ⟨rfl, fun _ => rfl⟩ hp

theorem safe_passBody (hbody : ∀ s, Safe code (Inside around) (task.body s)) (s : SymbolicState) :
    Safe code (Inside around) (passBody task s) := by
  refine .bind (hbody s) fun flow => ?_
  split
  · exact .pure ()
  · exact safe_jumpToHeader 0 _

theorem safe_testedPass (hc : c.Serves u code) (hcondition : u.TestsCondition condition)
    (hbody : ∀ s, Safe code (Inside around) (task.body s)) (phis : Carriers) (s : SymbolicState) :
    Safe code (Inside around) (c.testedPass task condition phis s) := by
  refine .bind (hbody s) fun flow => ?_
  split
  · exact .pure none
  · refine composable_safe.map (.bind (safe_condition hc hcondition _) fun test => ?_) some
    refine .bind (Composable.ite (fun _ => threads_safe.keepInTemp False.elim) fun _ =>
      .pure _) fun test => ?_
    refine .bind (threads_safe.stateAfterTest False.elim phis) fun exit => ?_
    exact .bind (safe_jumpToHeader 0 _) fun _ => .pure _

theorem safe_emitLoop (hc : c.Serves u code) (hheader : u.runs task.header)
    (htest : u.TestsLoop task.header task.kind task.condition)
    (hbody : ∀ s, Safe code (Inside around) (task.body s)) (phis : Carriers)
    (entry : SymbolicState) :
    Safe code (Inside around) (c.emitLoop task phis entry) := by
  unfold emitLoop
  split
  · next condition hkind hcondition =>
    rw [hkind, hcondition] at htest
    obtain ⟨_, hsome, htests⟩ := htest
    cases hsome
    refine .bind (safe_testedPass hc htests hbody phis entry).capture fun r => ?_
    obtain ⟨_ | ⟨test, exit⟩, body⟩ := r
    · exact .bind (composable_safe.emit _) fun _ => .pure none
    · exact .bind (composable_safe.emit _) fun _ => .pure _
  · next condition hkind hcondition =>
    rw [hkind, hcondition] at htest
    obtain ⟨sense, hsome, htests, hsuccessors, hcode⟩ := htest
    have htested : u.TestsCondition condition := by
      cases hsome
      exact htests
    rw [hc.graph] at hsuccessors hcode
    refine .bind_of (safe_block hc hheader entry).capture fun p r p' _ hy => ?_
    obtain ⟨flow, header⟩ := r
    obtain ⟨p1, hblock, -, -⟩ := yields_capture.1 hy
    cases flow with
    | none =>
      have hreturns := fun i hi => opcode_ne_rts (List.all_eq_true.1 hcode i hi)
      exact absurd rfl (block_goes_on hreturns hsuccessors hblock)
    | some tested =>
      refine .bind (safe_condition hc htested tested) fun test => ?_
      refine .bind (safe_passBody hbody tested).capture fun r => ?_
      exact .bind (composable_safe.emit _) fun _ => .pure _
  · refine .bind (safe_passBody hbody entry).capture fun r => ?_
    exact .bind (composable_safe.emit _) fun _ => .pure none
  · next hkind hcondition =>
    rw [hkind, hcondition] at htest
    obtain ⟨_, hsome, -⟩ := htest
    cases hsome
  · next hkind hcondition =>
    rw [hkind, hcondition] at htest
    obtain ⟨_, hsome, -⟩ := htest
    cases hsome

theorem testExit_eq_none (hkind : task.kind.isTested = false) {phis : Carriers}
    {entry : SymbolicState} {exit : Option SymbolicState}
    (hy : Yields (c.emitLoop task phis entry) p exit p') : exit = none := by
  unfold emitLoop at hy
  split at hy
  · next h _ => rw [h] at hkind; cases hkind
  · next h _ => rw [h] at hkind; cases hkind
  · obtain ⟨_, _, -, hy⟩ := hy.of_bind
    obtain ⟨_, _, -, hy⟩ := hy.of_bind
    exact hy.of_pure.1
  · exact absurd hy Yields.not_throw
  · exact absurd hy Yields.not_throw

section Attempts

variable (hsteady : ∀ s, Steady (task.body s)) {widened : LocationSet} {follow : Option Carriers}
  (hemit : ∀ phis entry, Safe code (Inside (task.context :: around)) (c.emitLoop task phis entry))

include hsteady hemit

theorem exists_frame_of_attempt (hp : Inside around p.frames) {a : Attempt}
    (hy : Yields (c.attempt task s widened follow) p a p') :
    ∃ f, Inside (task.context :: around) (f :: p'.frames) ∧ a.breaks = f.breaks ∧
      (task.kind.isTested = false → a.testExit = none) := by
  obtain ⟨phis, entry, p1, p2, f, rest, henter, hloop, hframes, -, -, hbreaks, rfl⟩ :=
    yields_attempt hsteady hy
  have hstart : Inside around { p with out := #[] }.frames := hp
  have hsafe : Safe code (Inside around) (enterLoop task s widened) :=
    threads_safe.enterLoop False.elim task widened
  have hinside :=
    (hemit phis entry).keeps (inside_frame (hsafe.keeps hstart henter) s phis follow) hloop
  rw [hframes] at hinside
  exact ⟨f, hinside, hbreaks, fun hkind => testExit_eq_none hkind hloop⟩

theorem breaks_eq_nil (hp : Inside around p.frames) {a : Attempt}
    (hy : Yields (c.attempt task s widened follow) p a p') (hexit : a.testExit.isSome = true) :
    a.breaks = [] := by
  obtain ⟨f, hinside, hbreaks, hkind⟩ := exists_frame_of_attempt hsteady hemit hp hy
  cases htested : task.kind.isTested with
  | false =>
    rw [hkind htested] at hexit
    cases hexit
  | true =>
    cases hinside with
    | cons hfirst _ => rw [hbreaks, hfirst.2 htested]

theorem safe_attempt (s : SymbolicState) (widened : LocationSet) (follow : Option Carriers) :
    Safe code (Inside around) (c.attempt task s widened follow) := by
  refine ⟨fun {p a p'} hp hy => ?_, fun {p e} hp hfails => ?_⟩
  · obtain ⟨f, hinside, -⟩ := exists_frame_of_attempt hsteady hemit hp hy
    cases hinside with
    | cons _ hrest => exact hrest
  · have henter : Safe code (Inside around) (enterLoop task s widened) :=
      threads_safe.enterLoop False.elim task widened
    have hstart : Inside around { p with out := #[] }.frames := hp
    unfold attempt at hfails
    rcases bind_iff.1 hfails with hcapture | ⟨_, _, -, hpure⟩
    · rcases bind_iff.1 hcapture.of_capture with hfirst | ⟨⟨phis, entry⟩, p1, hentered, hrest⟩
      · exact henter.fails hstart hfirst
      rcases bind_iff.1 (modify_bind_iff.1 hrest) with hloop | ⟨_, _, -, hrest⟩
      · exact (hemit phis entry).fails (inside_frame (henter.keeps hstart hentered) s phis follow)
          hloop
      · exact absurd (modify_bind_iff.1 (get_bind_iff.1 hrest)) not_pure
    · exact absurd hpure not_pure

theorem safe_kept {r : Round} {a : Attempt} {last : Progress} {n : Nat}
    (hp : Inside around p.frames) (h : Concludes c task s p (.first p) n (.kept r a last)) :
    Inside around last.frames ∧ Safe code (Inside around) (afterLoop task.name a r.follow) := by
  have hattempt := h.attempt_of_kept.1
  have hstart : Inside around { p with journal := r.journal }.frames := hp
  refine ⟨(safe_attempt hsteady hemit s r.widened r.follow).keeps hstart hattempt,
    threads_safe.afterLoop _ False.elim False.elim r.follow fun hexit hbreaks => ?_⟩
  exact absurd (breaks_eq_nil hsteady hemit hstart hattempt hexit) hbreaks

theorem safe_loop (s : SymbolicState) : Safe code (Inside around) (c.loop task s) := by
  refine ⟨fun {p flow p'} hp hy => ?_, fun {p e} hp hfails => ?_⟩
  · obtain ⟨n, r, a, last, h, hafter⟩ := exists_kept hsteady hy
    obtain ⟨hlast, hsafe⟩ := safe_kept hsteady hemit hp h
    exact hsafe.keeps (p := { reserve last r.reserved with out := _ }) hlast hafter
  · obtain ⟨n, result, h⟩ : ∃ n result, Concludes c task s p (.first p) n result :=
      exists_concludes _
    unfold Fails at hfails
    rw [h.run_loop hsteady] at hfails
    cases result with
    | failed e' last =>
      cases hfails
      obtain ⟨r, hattempt⟩ := h.attempt_of_failed
      exact (safe_attempt hsteady hemit s r.widened r.follow).fails
        (p := { p with journal := r.journal }) hp (congrArg Prod.fst hattempt)
    | kept r a last =>
      obtain ⟨hlast, hsafe⟩ := safe_kept hsteady hemit hp h
      exact hsafe.fails (p := { reserve last r.reserved with out := _ }) hlast hfails

end Attempts

theorem safe_goto (hc : c.Serves u code) {target : BlockId} (htarget : u.away target)
    (s : SymbolicState) : Safe code inv (c.goto target s) :=
  threads_safe.goto False.elim False.elim target
    (fun hin hnone => absurd hnone (hc.inside target htarget hin))
    fun hout hnone => absurd hnone (hc.outside target htarget hout)

theorem safe_conditional (hc : c.Serves u code) (hcondition : u.TestsCondition condition)
    {thenBranch elseBranch : PathGen} (ht : ∀ s, Safe code inv (thenBranch s))
    (he : ∀ s, Safe code inv (elseBranch s)) (join : Option BlockId) (s : SymbolicState) :
    Safe code inv (c.conditional condition thenBranch elseBranch join s) := by
  refine .bind (safe_condition hc hcondition s) fun test => ?_
  refine .bind (ht s).capture fun t => .bind (he s).capture fun e => ?_
  exact .bind (threads_safe.join False.elim False.elim _) fun _ =>
    .bind (composable_safe.emitConditional ..) fun _ => .pure _

mutual

theorem safe_node (hc : c.Serves u code) (around : List LoopContext) (n : ControlNode)
    (h : u.WellFormed around n) (s : SymbolicState) : Safe code (Inside around) (c.node n s) := by
  cases n with
  | block b => exact safe_block hc h s
  | cond condition t e join =>
    exact safe_conditional hc h.1 (fun s => safe_nodes hc around t h.2.1 s)
      (fun s => safe_nodes hc around e h.2.2 s) join s
  | loop kind header condition body label follow =>
    obtain ⟨hheader, htest, hbody⟩ := h
    refine safe_loop (fun s => c.steady_nodes body s) (fun phis entry => ?_) s
    exact safe_emitLoop hc hheader htest (fun s => safe_nodes hc _ body hbody s) phis entry
  | goto b => exact safe_goto hc h s
  | breakLoop label =>
    obtain ⟨k, hk, htested⟩ := h
    exact safe_leaveLoop hk htested s
  | continueLoop label =>
    obtain ⟨k, hk, -⟩ := h
    exact safe_resumeLoop hk s

theorem safe_nodes (hc : c.Serves u code) (around : List LoopContext) (nodes : List ControlNode)
    (h : u.AllWellFormed around nodes) (s : SymbolicState) :
    Safe code (Inside around) (c.nodes nodes s) := by
  cases nodes with
  | nil => exact .pure _
  | cons n rest =>
    rw [Generator.nodes]
    refine .bind (safe_node hc around n h.1 s) fun flow => ?_
    split
    · exact safe_nodes hc around rest h.2 _
    · exact .pure none

end

end Generator

end Lift6502
