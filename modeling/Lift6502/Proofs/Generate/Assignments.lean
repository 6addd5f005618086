import Lift6502.Proofs.Generate.Body

/-!
# Temporaries are assigned once

Only the attempt that is kept is emitted, so in the code of a routine every temporary is set once,
and memory is read only into temporaries.
-/

namespace Lift6502

open Expression Statement

variable {e : GenerationError} {s : Statement} {p : Progress}

structure Frame.Proper (f : Frame) : Prop where
  phis : f.phis.Lasting
  follow : ∀ plan, f.follow = some plan → plan.Lasting
  breaks : ∀ s ∈ f.breaks, s.Plain

def Progress.Proper (p : Progress) : Prop := ∀ f ∈ p.frames, f.Proper

structure Progress.Adds (p p' : Progress) : Prop where
  out : ∃ added, p'.out.toList = p.out.toList ++ added ∧ Fresh p.temps p'.temps added
  temps : p.temps ≤ p'.temps

namespace Progress

variable {p p' p'' : Progress}

theorem Adds.of_same (hout : p'.out = p.out) (htemps : p.temps ≤ p'.temps) : p.Adds p' :=
  ⟨⟨[], by rw [hout, List.append_nil], fresh_nil _ _⟩, htemps⟩

theorem Adds.trans (h : p.Adds p') (h' : p'.Adds p'') : p.Adds p'' := by
  obtain ⟨added, hout, hfresh⟩ := h.out
  obtain ⟨more, hout', hfresh'⟩ := h'.out
  refine ⟨⟨added ++ more, ?_, hfresh.append hfresh' h.temps h'.temps⟩,
    Nat.le_trans h.temps h'.temps⟩
  rw [hout', hout, List.append_assoc]

end Progress

/-- A generator that emits fresh statements and gives what satisfies `P`. -/
def Tidy {α : Type} (m : Gen α) (P : α → Prop) : Prop :=
  ∀ p a p', p.Proper → Yields m p a p' → p.Adds p' ∧ p'.Proper ∧ P a

namespace Tidy

variable {α β : Type} {P : α → Prop} {Q : β → Prop} {f : α → Gen β}

theorem pure {a : α} (h : P a) : Tidy (pure a) P := by
  intro p b p' hp hy
  obtain ⟨rfl, rfl⟩ := hy.of_pure
  exact ⟨.of_same rfl (Nat.le_refl _), hp, h⟩

theorem throw : Tidy (throw e : Gen α) P :=
  fun _ _ _ _ hy => absurd hy Yields.not_throw

theorem bind {m : Gen α} (hm : Tidy m P) (hf : ∀ a, P a → Tidy (f a) Q) : Tidy (m >>= f) Q := by
  intro p b p' hp hy
  obtain ⟨a, p1, hfirst, hrest⟩ := hy.of_bind
  obtain ⟨hadds, hp1, ha⟩ := hm p a p1 hp hfirst
  obtain ⟨hadds', hp', hb⟩ := hf a ha p1 b p' hp1 hrest
  exact ⟨hadds.trans hadds', hp', hb⟩

end Tidy

namespace Gen

variable {e : Expression} {registers : List Register}

theorem tidy_emit (h : ∀ n, Fresh n n [s]) : Tidy (emit s) fun _ => True := by
  intro p u p' hp hy
  obtain rfl := yields_emit.1 hy
  exact ⟨⟨⟨[s], Array.toList_push, h _⟩, Nat.le_refl _⟩, hp, trivial⟩

theorem tidy_newMerge (l : Location) : Tidy (newMerge l) fun v => v.temp? = none := by
  intro p v p' hp hy
  obtain ⟨rfl, rfl⟩ := yields_newMerge.1 hy
  exact ⟨.of_same rfl (Nat.le_refl _), hp, rfl⟩

theorem tidy_keepInTemp
    (he : e.readsMemory = false ∨ ∃ address, e = .memory address ∧ address.readsMemory = false) :
    Tidy (keepInTemp e) (·.readsMemory = false) := by
  intro p e' p' hp hy
  obtain ⟨rfl, rfl⟩ := yields_keepInTemp.1 hy
  refine ⟨⟨⟨[.assign (.temp (p.temps + 1)) e], Array.toList_push, ?_⟩, Nat.le_succ _⟩, hp, rfl⟩
  refine fresh_leaf rfl rfl (List.pairwise_singleton _ _) (fun id hid => ?_) ?_
  · rw [List.mem_singleton.1 hid]
    exact ⟨Nat.lt_succ_self _, Nat.le_refl _⟩
  · rcases he with he | ⟨address, rfl, haddress⟩
    · refine .inl fun e' he' => ?_
      rw [List.mem_singleton.1 he']
      exact he
    · exact .inr ⟨_, address, rfl, haddress⟩

theorem yields_results {p' : Progress} {results : List (Register × Variable)}
    (hy : Yields (registers.mapM fun r => do return (r, ← newTemp) : Gen _) p results p') :
    p'.out = p.out ∧ p'.frames = p.frames ∧ p.temps ≤ p'.temps ∧ ∃ ids : List Nat,
      (results.map (·.2)).filterMap Variable.temp? = ids ∧ ids.Nodup ∧
        ∀ id ∈ ids, p.temps < id ∧ id ≤ p'.temps := by
  induction registers generalizing p results with
  | nil =>
    obtain ⟨rfl, rfl⟩ := hy.of_pure
    exact ⟨rfl, rfl, Nat.le_refl _, [], rfl, List.nodup_nil, fun _ h => absurd h List.not_mem_nil⟩
  | cons r rest ih =>
    rw [List.mapM_cons] at hy
    obtain ⟨result, p1, hfirst, hy⟩ := hy.of_bind
    obtain ⟨v, p2, hv, hpure⟩ := hfirst.of_bind
    obtain ⟨rfl, rfl⟩ := yields_newTemp.1 hv
    obtain ⟨rfl, rfl⟩ := hpure.of_pure
    obtain ⟨later, hrest, rfl⟩ := Yields.bind_pure_iff.1 hy
    obtain ⟨hout, hframes, htemps, ids, hids, hnodup, hrange⟩ := ih hrest
    -- The other results are numbered from the first one on.
    have hle : p.temps + 1 ≤ p'.temps := htemps
    refine ⟨hout, hframes, by omega, (p.temps + 1) :: ids, ?_, ?_, ?_⟩
    · simp [Variable.temp?, hids]
    · refine List.nodup_cons.2 ⟨fun hmem => ?_, hnodup⟩
      exact Nat.lt_irrefl _ (hrange _ hmem).1
    · refine List.forall_mem_cons.2 ⟨by omega, fun id hid => ?_⟩
      have hbound : p.temps + 1 < id ∧ id ≤ p'.temps := hrange id hid
      omega

theorem tidy_call {α : Type} {P : α → Prop} {name : String}
    {arguments : List (Register × Expression)} {f : List (Register × Variable) → α}
    (harguments : ∀ x ∈ arguments, x.2.readsMemory = false) (hf : ∀ results, P (f results)) :
    Tidy (do
      let results ← registers.mapM fun r => return (r, ← newTemp)
      emit (.call name arguments results)
      return f results) P := by
  intro p a p' hp hy
  obtain ⟨results, p1, hresults, hy⟩ := hy.of_bind
  obtain ⟨rfl, rfl⟩ := yields_emit_pure.1 hy
  obtain ⟨hout, hframes, htemps, ids, hids, hnodup, hrange⟩ := yields_results hresults
  refine ⟨⟨⟨[.call name arguments results], ?_, ?_⟩, htemps⟩, fun f hf => hp f (hframes ▸ hf),
    hf results⟩
  · rw [Array.toList_push, hout]
  · refine fresh_leaf rfl hids hnodup hrange (.inl fun e he => ?_)
    obtain ⟨argument, hargument, rfl⟩ := List.mem_map.1 he
    exact harguments argument hargument

theorem threads_tidy : Threads True (fun _ => True) @Tidy where
  pure := fun ha => .pure (ha trivial)
  throw := fun _ => .throw
  bind := fun hm hf => hm.bind fun a ha => hf a fun _ => ha
  emit := fun hs => tidy_emit (hs trivial)
  keepInTemp := fun he => tidy_keepInTemp (he trivial)
  newMerge := tidy_newMerge
  call := fun harguments hf => tidy_call (harguments trivial) (hf trivial)
  unbound := fun _ _ _ => trivial
  stackMismatch := fun _ _ _ => trivial

end Gen

/-! ## Captured statements -/

/-- What the generator emits may set the temporaries from `lo` on, of which those up to
`hi` are taken. -/
def Holding {α : Type} (lo hi : Nat) (m : Gen α) (P : α → Prop) : Prop :=
  ∀ p a p', p.Proper → p.temps = hi → Yields m p a p' →
    (∃ added, p'.out.toList = p.out.toList ++ added ∧ Fresh lo p'.temps added) ∧
      hi ≤ p'.temps ∧ p'.Proper ∧ P a

namespace Holding

variable {α β : Type} {lo hi : Nat} {P : α → Prop} {Q : β → Prop}

theorem tidy {m : Gen α} (h : ∀ n, Holding n n m P) : Tidy m P := by
  intro p a p' hp hy
  obtain ⟨hout, htemps, hp', ha⟩ := h p.temps p a p' hp rfl hy
  exact ⟨⟨hout, htemps⟩, hp', ha⟩

theorem throw : Holding lo hi (throw e : Gen α) P :=
  fun _ _ _ _ _ hy => absurd hy Yields.not_throw

theorem quiet {m : Gen α} {f : α → Gen β} (hm : Tidy m P)
    (hquiet : ∀ p a p', Yields m p a p' → p'.out = p.out ∧ p'.temps = p.temps)
    (hf : ∀ a, P a → Holding lo hi (f a) Q) : Holding lo hi (m >>= f) Q := by
  intro p b p' hp hhi hy
  obtain ⟨a, p1, hfirst, hrest⟩ := hy.of_bind
  obtain ⟨hout, htemps⟩ := hquiet p a p1 hfirst
  obtain ⟨-, hp1, ha⟩ := hm p a p1 hp hfirst
  rw [← hout]
  exact hf a ha p1 b p' hp1 (htemps.trans hhi) hrest

theorem capture {g : Gen α} {f : α × List Statement → Gen β} (hg : Tidy g P)
    (hf : ∀ a statements hi', P a → hi ≤ hi' → Fresh hi hi' statements →
      Holding lo hi' (f (a, statements)) Q) : Holding lo hi (Gen.capture g >>= f) Q := by
  rintro p b p' hp rfl hy
  obtain ⟨a, statements, p2, hinner, rfl, hrest⟩ := Gen.yields_capture_bind.1 hy
  obtain ⟨⟨⟨added, hout, hfresh⟩, htemps⟩, hp2, ha⟩ := hg { p with out := #[] } a p2 hp hinner
  obtain rfl : p2.out.toList = added := hout
  -- The output is put back, but the counter goes on behind the captured statements.
  obtain ⟨hresult, hle, hp', hb⟩ :=
    hf a _ p2.temps ha htemps hfresh { p2 with out := p.out } b p' hp2 rfl hrest
  exact ⟨hresult, Nat.le_trans htemps hle, hp', hb⟩

theorem emit {a : α} (hs : Fresh lo hi [s]) (ha : P a) :
    Holding lo hi (Gen.emit s >>= fun _ => Pure.pure a) P := by
  rintro p b p' hp rfl hy
  obtain ⟨rfl, rfl⟩ := yields_emit_pure.1 hy
  exact ⟨⟨[s], Array.toList_push, hs⟩, Nat.le_refl _, hp, ha⟩

end Holding

theorem Progress.Proper.set (hp : p.Proper) {f : Frame} (hf : f.Proper) (k : Nat) :
    Progress.Proper { p with frames := p.frames.set k f } := by
  intro f' hf'
  rcases List.mem_or_eq_of_mem_set hf' with hf' | rfl
  · exact hp f' hf'
  · exact hf

/-! ## Where paths meet -/

namespace Generator

open Gen

variable {c : Generator} {s : SymbolicState} {task : LoopTask} {p p' : Progress}
  {flow : Option SymbolicState} {follow : Option Carriers} {widened : LocationSet}
  {entry : SymbolicState} {test : Expression} {lo mid hi : Nat}

theorem tidy_condition (hs : s.Plain) (condition : Condition) :
    Tidy (c.condition condition s) (·.readsMemory = false) :=
  threads_tidy.condition (fun _ => hs) condition fun _ _ _ _ => trivial

theorem tidy_block (hs : s.Plain) (b : BlockId) : Tidy (c.block b s) PlainFlow :=
  threads_tidy.block (fun _ => hs) b fun _ _ _ => ⟨trivial, trivial, trivial⟩

theorem quiet_condition (c : Generator) (condition : Condition) (s : SymbolicState) (p : Progress)
    (e : Expression) (p' : Progress) (hy : Yields (c.condition condition s) p e p') :
    p'.out = p.out ∧ p'.temps = p.temps := by
  rw [yields_condition hy]
  exact ⟨rfl, rfl⟩

theorem quiet_join (left right : Option SymbolicState) (block : String) (p : Progress)
    (r : Option SymbolicState × List Statement × List Statement) (p' : Progress)
    (hy : Yields (Generator.join left right block) p r p') :
    p'.out = p.out ∧ p'.temps = p.temps := by
  -- What the assignments do in a run does not matter here.
  obtain ⟨⟨last, -, rfl⟩, -⟩ := yields_join (H := ⟨0, Evaluator.callUntimed [] 0 0, ""⟩) hy
  exact ⟨rfl, rfl⟩

theorem holding_emitConditional {t e : List Statement} (ht : Fresh lo mid t) (he : Fresh mid hi e)
    (hlo : lo ≤ mid) (hhi : mid ≤ hi) (htest : test.readsMemory = false) (hflow : PlainFlow flow) :
    Holding lo hi (emitConditional test t e >>= fun _ => pure flow) PlainFlow := by
  unfold emitConditional
  split
  · rintro p b p' hp rfl hy
    obtain ⟨rfl, rfl⟩ := hy.of_pure
    exact ⟨⟨[], by rw [List.append_nil], fresh_nil _ _⟩, Nat.le_refl _, hp, hflow⟩
  · exact .emit ((fresh_cond he (fresh_nil hi hi) hhi (Nat.le_refl hi) (by simp [htest])).mono hlo
      (Nat.le_refl hi)) hflow
  · exact .emit (fresh_cond ht he hlo hhi htest) hflow

theorem tidy_conditional {thenBranch elseBranch : PathGen}
    (ht : ∀ s, s.Plain → Tidy (thenBranch s) PlainFlow)
    (he : ∀ s, s.Plain → Tidy (elseBranch s) PlainFlow) (condition : Condition)
    (join : Option BlockId) (hs : s.Plain) :
    Tidy (c.conditional condition thenBranch elseBranch join s) PlainFlow := by
  unfold conditional
  refine (tidy_condition hs condition).bind fun test htest => Holding.tidy fun n => ?_
  refine .capture (ht s hs) fun thenFlow thenOut mid hthen hmid hthenOut => ?_
  refine .capture (he s hs) fun elseFlow elseOut hi helse hhi helseOut => ?_
  refine .quiet (threads_tidy.join (fun _ => hthen) (fun _ => helse) _) (quiet_join _ _ _)
    fun r hr => ?_
  refine holding_emitConditional ?_ ?_ hmid hhi htest hr.1
  · exact hthenOut.append (hr.2 mid).1 hmid (Nat.le_refl mid)
  · exact helseOut.append (hr.2 hi).2 hhi (Nat.le_refl hi)

/-! ## Jumps -/

theorem tidy_framePosition (c : Generator) (label : Option String) :
    Tidy (c.framePosition label) fun _ => True := by
  intro p k p' hp hy
  obtain ⟨-, rfl⟩ := yields_framePosition.1 hy
  exact ⟨.of_same rfl (Nat.le_refl _), hp, trivial⟩

theorem tidy_jumpToHeader (k : Nat) (hs : s.Plain) : Tidy (jumpToHeader k s) fun _ => True := by
  intro p u p' hp hy
  rcases hf : p.frames[k]? with _ | f
  · rw [yields_jumpToHeader_none hf hy]
    exact ⟨.of_same rfl (Nat.le_refl _), hp, trivial⟩
  · obtain ⟨-, hassign⟩ := (yields_jumpToHeader hf).1 hy
    have hproper := hp f (List.mem_of_getElem? hf)
    let noted : Frame := { f with widened := f.widened.union (lostAt f.phis s) }
    have hnoted : noted.Proper := ⟨hproper.phis, hproper.follow, hproper.breaks⟩
    have hassignments : ∀ a ∈ headerAssignments f.phis s, a.1.temp? = none ∧
        a.2.readsMemory = false := by
      intro a ha
      obtain ⟨⟨l, phi⟩, hphi, ha⟩ := List.mem_filterMap.1 ha
      obtain ⟨value, hvalue, ha⟩ := Option.bind_eq_some_iff.1 ha
      split at ha
      · cases ha
      · cases ha
        exact ⟨hproper.phis l phi (Carriers.mem_toList.1 hphi), hs.expression? hvalue⟩
    obtain ⟨hadds, hp', -⟩ :=
      threads_tidy.assignAtOnce (fun _ => hassignments) _ u p' (hp.set hnoted k) hassign
    exact ⟨⟨hadds.out, hadds.temps⟩, hp', trivial⟩

theorem tidy_resumeLoop (c : Generator) (label : Option String) (hs : s.Plain) :
    Tidy (c.resumeLoop label s) PlainFlow := by
  refine (tidy_framePosition c label).bind fun k _ => (tidy_jumpToHeader k hs).bind fun _ _ => ?_
  refine (tidy_emit fun _ => fresh_flat rfl rfl ?_).bind fun _ _ => .pure plainFlow_none
  exact fun _ h => absurd h List.not_mem_nil

theorem tidy_recordBreak (k : Nat) (hs : s.Plain) : Tidy (recordBreak k s) fun _ => True := by
  intro p u p' hp hy
  rcases hf : p.frames[k]? with _ | f
  · rw [yields_recordBreak_none hf hy]
    exact ⟨.of_same rfl (Nat.le_refl _), hp, trivial⟩
  · obtain ⟨p1, hassign, rfl⟩ := (yields_recordBreak hf).1 hy
    have hproper := hp f (List.mem_of_getElem? hf)
    have hfollow : Tidy (assignFollow f s) fun _ => True :=
      threads_tidy.assignFollow (fun _ => hs) fun _ => hproper.follow
    obtain ⟨hadds, hp1, -⟩ := hfollow p () p1 hp hassign
    let noted : Frame := { f with breaks := f.breaks ++ [s] }
    have hnoted : noted.Proper := by
      refine ⟨hproper.phis, hproper.follow, fun s' hs' => ?_⟩
      rcases List.mem_append.1 hs' with hs' | hs'
      · exact hproper.breaks s' hs'
      · rw [List.mem_singleton.1 hs']
        exact hs
    exact ⟨⟨hadds.out, hadds.temps⟩, hp1.set hnoted k, trivial⟩

theorem tidy_leaveLoop (c : Generator) (label : Option String) (hs : s.Plain) :
    Tidy (c.leaveLoop label s) PlainFlow := by
  refine (tidy_framePosition c label).bind fun k _ => (tidy_recordBreak k hs).bind fun _ _ => ?_
  refine (tidy_emit fun _ => fresh_flat rfl rfl ?_).bind fun _ _ => .pure plainFlow_none
  exact fun _ h => absurd h List.not_mem_nil

/-! ## Loops -/

theorem tidy_passEnd (condition : Condition) (phis : Carriers) (hs : s.Plain) :
    Tidy (c.passEnd condition phis s) fun r => r.1.readsMemory = false ∧ r.2.Plain := by
  unfold passEnd
  refine (tidy_condition hs condition).bind fun test htest => ?_
  refine (threads_tidy.keepIf _ fun _ => htest).bind fun test htest => ?_
  refine (threads_tidy.stateAfterTest (fun _ => hs) phis).bind fun exit hexit => ?_
  exact (tidy_jumpToHeader 0 hs).bind fun _ _ => .pure ⟨htest, hexit⟩

section

variable {task : LoopTask} (hbody : ∀ s, s.Plain → Tidy (task.body s) PlainFlow)

include hbody

theorem tidy_passBody (hs : s.Plain) : Tidy (passBody task s) fun _ => True := by
  refine (hbody s hs).bind fun flow hflow => ?_
  split
  · exact .pure trivial
  · exact tidy_jumpToHeader 0 (hflow _ rfl)

theorem tidy_testedPass (condition : Condition) (phis : Carriers) (hs : s.Plain) :
    Tidy (c.testedPass task condition phis s) fun r =>
      ∀ x, r = some x → x.1.readsMemory = false ∧ x.2.Plain := by
  refine (hbody s hs).bind fun flow hflow => ?_
  split
  · exact .pure fun x hx => by cases hx
  · exact threads_tidy.map (tidy_passEnd condition phis (hflow _ rfl)) fun r hr ht x hx => by
      cases hx; exact hr ht

theorem tidy_emitLoop (phis : Carriers) (hs : s.Plain) :
    Tidy (c.emitLoop task phis s) PlainFlow := by
  have hforever : ∀ e, LoopTest.forever.condition? = some e → e.readsMemory = false :=
    fun e he => by cases he
  unfold emitLoop
  split
  · refine Holding.tidy fun n =>
      .capture (tidy_testedPass hbody _ phis hs) fun tested body hi htested hhi h => ?_
    cases tested with
    | none => exact .emit (fresh_loop h hforever) plainFlow_none
    | some tested =>
      obtain ⟨htest, hexit⟩ := htested tested rfl
      refine .emit (fresh_loop h fun e he => ?_) (plainFlow_some hexit)
      cases he
      exact htest
  · refine Holding.tidy fun n =>
      .capture (tidy_block hs _) fun tested header mid htested hmid hheader => ?_
    cases tested with
    | none => exact .throw
    | some tested =>
      have hstate : tested.Plain := htested _ rfl
      refine .quiet (tidy_condition hstate _) (quiet_condition _ _ _) fun test htest => ?_
      refine .capture (tidy_passBody hbody hstate) fun _ body hi _ hhi h => ?_
      exact .emit (fresh_testedBefore hheader h hmid hhi htest) (plainFlow_some hstate)
  · refine Holding.tidy fun n => .capture (tidy_passBody hbody hs) fun _ body hi _ hhi h => ?_
    exact .emit (fresh_loop h hforever) plainFlow_none
  · exact .throw
  · exact .throw

end

structure Attempt.Proper (lo hi : Nat) (a : Attempt) : Prop where
  statements : Fresh lo hi a.statements
  breaks : ∀ s ∈ a.breaks, s.Plain
  testExit : PlainFlow a.testExit

theorem proper_of_attempt (hsteady : ∀ s, Steady (task.body s))
    (hbody : ∀ s, s.Plain → Tidy (task.body s) PlainFlow) (hs : s.Plain)
    (hfollow : ∀ plan, follow = some plan → plan.Lasting) {a : Attempt}
    (hp : p.Proper) (hy : Yields (c.attempt task s widened follow) p a p') :
    a.Proper p.temps p'.temps ∧ p'.out = p.out ∧ p.temps ≤ p'.temps ∧ p'.Proper := by
  obtain ⟨phis, entry, p1, p2, f, rest, henter, hloop, hframes, hstatements, -, hbreaks, rfl⟩ :=
    yields_attempt hsteady hy
  obtain ⟨hadds, hp1, hphis, hentry⟩ :=
    threads_tidy.enterLoop (fun _ => hs) task widened { p with out := #[] } _ p1 hp henter
  have hinside : Progress.Proper { p1 with frames := task.frame s phis follow :: p1.frames } := by
    refine List.forall_mem_cons.2 ⟨⟨hphis, hfollow, fun _ h => absurd h List.not_mem_nil⟩, hp1⟩
  obtain ⟨hadds', hp2, hexit⟩ := tidy_emitLoop hbody phis hentry _ _ p2 hinside hloop
  have hall : Progress.Adds { p with out := #[] } p2 := hadds.trans ⟨hadds'.out, hadds'.temps⟩
  obtain ⟨added, hout, hfresh⟩ := hall.out
  have hproper : f.Proper ∧ ∀ f ∈ rest, f.Proper := List.forall_mem_cons.1 (hframes ▸ hp2)
  refine ⟨⟨?_, ?_, hexit⟩, rfl, hall.temps, hproper.2⟩
  · rw [hstatements, hout]
    exact hfresh
  · rw [hbreaks]
    exact hproper.1.breaks

/-- The attempts that are given up leave nothing behind, and the plan for the breaks takes
no temporary. -/
theorem tidy_loop (hsteady : ∀ s, Steady (task.body s))
    (hbody : ∀ s, s.Plain → Tidy (task.body s) PlainFlow) (hs : s.Plain) :
    Tidy (c.loop task s) PlainFlow := by
  intro p flow p' hp hy
  obtain ⟨n, r, a, last, h, hafter⟩ := exists_kept hsteady hy
  have hfollow : ∀ plan, r.follow = some plan → plan.Lasting := by
    intro plan hplan l v hv
    obtain ⟨breaks, q, reserved, q', hyields, -⟩ := h.exists_plan hsteady hplan
    obtain ⟨id, rfl, -⟩ := (yields_breakCarriers hyields).2 l v hv
    rfl
  obtain ⟨ha, hout, htemps, hlast⟩ := proper_of_attempt hsteady hbody hs hfollow
    (p := { p with journal := r.journal }) hp h.attempt_of_kept.1
  obtain ⟨hadds, hp', hflow⟩ := threads_tidy.afterLoop task.name (fun _ => ha.breaks)
    (fun _ => ha.testExit) r.follow (fun _ _ => trivial)
    { reserve last r.reserved with out := last.out ++ a.statements.toArray } flow p' hlast hafter
  have hkept : p.Adds { reserve last r.reserved with out := last.out ++ a.statements.toArray } :=
    ⟨⟨a.statements, by simp [hout], ha.statements⟩, htemps⟩
  exact ⟨hkept.trans hadds, hp', hflow⟩

/-! ## Trees -/

mutual

theorem tidy_node (hc : c.Lasting) (n : ControlNode) (s : SymbolicState) (hs : s.Plain) :
    Tidy (c.node n s) PlainFlow := by
  cases n with
  | block b => exact tidy_block hs b
  | cond condition t e join =>
    exact tidy_conditional (tidy_nodes hc t) (tidy_nodes hc e) condition join hs
  | loop kind header condition body label follow =>
    exact tidy_loop (c.steady_nodes body) (tidy_nodes hc body) hs
  | goto b => exact threads_tidy.goto (fun _ => hs) (fun _ => hc) b (fun _ _ => trivial) fun _ _ =>
    trivial
  | breakLoop label => exact tidy_leaveLoop c label hs
  | continueLoop label => exact tidy_resumeLoop c label hs

theorem tidy_nodes (hc : c.Lasting) (nodes : List ControlNode) (s : SymbolicState) (hs : s.Plain) :
    Tidy (c.nodes nodes s) PlainFlow := by
  cases nodes with
  | nil => exact .pure (plainFlow_some hs)
  | cons n rest =>
    rw [Generator.nodes]
    refine (tidy_node hc n s hs).bind fun flow hflow => ?_
    split
    · next s' => exact tidy_nodes hc rest s' (hflow s' rfl)
    · exact .pure plainFlow_none

end

theorem plain_stateAtArm (c : Generator) (plan : DispatchPlan) (b : BlockId) :
    (c.stateAtArm plan b).Plain := by
  refine ⟨fun l => ?_, fun _ h => absurd h List.not_mem_nil⟩
  rw [SymbolicState.get, stateAtArm, PerLocation.get_ofFn]
  split
  · exact Binding.plain_ofVariable _
  · exact Binding.plain_unresolved _

theorem fresh_dispatchArm (hc : c.Lasting) (plan : DispatchPlan)
    (hentry : entry.Plain) {arm : ControlNode} {statements : List Statement} (hp : p.Proper)
    (hy : Yields (c.dispatchArm plan entry arm) p statements p') :
    Fresh p.temps p'.temps statements ∧ p'.out = p.out ∧ p.temps ≤ p'.temps ∧ p'.Proper := by
  unfold dispatchArm at hy
  split at hy
  · next b thenBranch _ _ =>
    obtain ⟨flow, body, p2, hinner, rfl, hy⟩ := yields_capture_bind.1 hy
    obtain ⟨⟨⟨added, hout, hfresh⟩, htemps⟩, hp2, -⟩ :=
      tidy_nodes hc thenBranch _ (plain_stateAtArm c plan b) { p with out := #[] } _ p2 hp hinner
    obtain rfl : p2.out.toList = added := hout
    dsimp only at hy
    split at hy
    · exact absurd hy Yields.not_throw
    · obtain ⟨test, p3, htest, hpure⟩ := hy.of_bind
      obtain ⟨-, -, hplain⟩ := tidy_condition hentry _ { p2 with out := p.out } test p3 hp2 htest
      obtain rfl := yields_condition htest
      obtain ⟨rfl, rfl⟩ := hpure.of_pure
      exact ⟨fresh_cond hfresh (fresh_nil _ _) htemps (Nat.le_refl _) hplain, rfl, htemps, hp2⟩
  · obtain ⟨rfl, rfl⟩ := hy.of_pure
    exact ⟨fresh_nil _ _, rfl, Nat.le_refl _, hp⟩

theorem fresh_dispatchArms (hc : c.Lasting) (plan : DispatchPlan)
    (hentry : entry.Plain) {arms : List ControlNode} {body : List (List Statement)} (hp : p.Proper)
    (hy : Yields (arms.mapM (c.dispatchArm plan entry)) p body p') :
    Fresh p.temps p'.temps body.flatten ∧ p'.out = p.out ∧ p.temps ≤ p'.temps ∧ p'.Proper := by
  induction arms generalizing p body with
  | nil =>
    obtain ⟨rfl, rfl⟩ := hy.of_pure
    exact ⟨fresh_nil _ _, rfl, Nat.le_refl _, hp⟩
  | cons arm rest ih =>
    rw [List.mapM_cons] at hy
    obtain ⟨first, p1, hfirst, hy⟩ := hy.of_bind
    obtain ⟨others, hothers, rfl⟩ := Yields.bind_pure_iff.1 hy
    obtain ⟨hfresh, hout, htemps, hp1⟩ := fresh_dispatchArm hc plan hentry hp hfirst
    obtain ⟨hfresh', hout', htemps', hp'⟩ := ih hp1 hothers
    exact ⟨hfresh.append hfresh' htemps htemps', hout'.trans hout, Nat.le_trans htemps htemps', hp'⟩

theorem tidy_dispatchLoop (t : ControlTree) (hs : s.Plain) :
    Tidy (c.dispatchLoop t s) fun _ => True := by
  unfold dispatchLoop
  split
  · next kind header condition arms label follow =>
    have hcarry : Tidy carryAll fun carriers => ∀ l, (carriers.get l).temp? = none := by
      intro p carriers p' hp hy
      obtain ⟨⟨last, -, rfl⟩, hmerge⟩ := Stage.yields_carryAll hy
      refine ⟨.of_same rfl (Nat.le_refl _), hp, fun l => ?_⟩
      obtain ⟨id, hid, -⟩ := hmerge l
      rw [hid]
      rfl
    refine hcarry.bind fun carriers hcarriers => ?_
    have hc : Lasting { c with dispatch := some ⟨carriers, c.certainlySet⟩ } := by
      intro plan hplan
      cases hplan
      exact hcarriers
    refine (threads_tidy.settleFor (fun _ => hs) (fun _ => hc) _ fun _ => trivial).bind
      fun _ _ p u p' hp hy => ?_
    obtain ⟨body, p1, harms, hemit⟩ := hy.of_bind
    obtain ⟨hfresh, hout, htemps, hp1⟩ := fresh_dispatchArms hc _ hs hp harms
    obtain rfl := yields_emit.1 hemit
    refine ⟨⟨⟨_, by rw [Array.toList_push, hout], fresh_loop hfresh fun e he => ?_⟩, htemps⟩, hp1,
      trivial⟩
    cases he
  · exact .throw

theorem tidy_body (hc : c.dispatch = none) (t : ControlTree) : Tidy (c.body t) fun _ => True := by
  have hlasting : c.Lasting := fun plan hplan => by rw [hc] at hplan; cases hplan
  have hentry := SymbolicState.plain_entry c.routine.inputs
  have hcode : Tidy (if t.structured then c.structuredBody t (.entry c.routine.inputs) else
      c.dispatchLoop t (.entry c.routine.inputs) : Gen Unit) fun _ => True := by
    split
    · refine (tidy_nodes hlasting t.nodes _ hentry).bind fun flow hflow => ?_
      split
      · exact threads_tidy.ret (fun _ => hflow _ rfl) _
      · exact .pure trivial
    · exact tidy_dispatchLoop t hentry
  unfold Generator.body
  refine hcode.bind fun _ _ p u p' hp hy => ?_
  obtain rfl := Yields.modify_iff.1 (Yields.get_bind_iff.1 hy)
  exact ⟨.of_same rfl (Nat.le_refl _), hp, trivial⟩

/-- In the code of a routine, whatever its tree, every temporary is set at most once. Memory is read
only by assignments of a byte to a temporary: no condition, store, return, argument or other
assignment reads it, and no address does. -/
theorem generate_assigns_once {c : Generator} (hc : c.dispatch = none) {t : ControlTree}
    {f : FunctionDef} (h : (c.generate t).1 = .ok f) :
    (listTemps f.body).Nodup ∧ ∀ s ∈ listDescendants f.body, s.LoadsIntoTemp := by
  unfold generate at h
  split at h
  · next p hrun =>
    obtain ⟨⟨⟨added, hout, hfresh⟩, -⟩, -⟩ :=
      tidy_body hc t {} () p (fun f hf => absurd hf List.not_mem_nil) hrun
    cases h
    obtain rfl : p.out.toList = added := hout
    exact ⟨hfresh.nodup, hfresh.loads⟩
  · cases h

end Generator

/-- A loop in a loop. The inner one is generated three times: once it has lost the carry in a call,
and once more its breaks do not agree. -/
def countedScan : Program :=
  Draft.start 0x8000
    |>.label "Start" |>.immediate .ldx 3
    |>.label "Outer" |>.immediate .ldy 0 |>.implied .clc
    |>.label "Inner" |>.op .lda (.indirectIndexed (.address 0x10)) |>.atLabel .beq "Next"
      |>.atLabel .jsr "Count" |>.implied .iny |>.atLabel .bne "Inner"
    |>.label "Next" |>.op .sty (.indexed (.address 0x20) .x .zeroPage) |>.implied .dex
      |>.atLabel .bne "Outer" |>.implied .rts
    |>.label "Count" |>.zeroPage .inc 0x12 |>.implied .rts
    |>.program

namespace countedScan

def generator : Generator :=
  countedScan.first.generator countedScan countedScan.graph countedScan.routines {}

def tree : ControlTree := countedScan.layout.tree.1

end countedScan

open countedScan

theorem countedScan_assigns_once : ∃ f, (generator.generate tree).1 = .ok f ∧
    listTemps f.body = [1, 2, 3, 4, 5, 6, 7, 8] ∧ (listTemps f.body).Nodup ∧
    ∀ s ∈ listDescendants f.body, s.LoadsIntoTemp := by
  have htemps : ((generator.generate tree).1.toOption.map fun f => listTemps f.body) =
      some [1, 2, 3, 4, 5, 6, 7, 8] := by decide +kernel
  obtain ⟨f, hf, htemps⟩ := Option.map_eq_some_iff.1 htemps
  have h : (generator.generate tree).1 = .ok f := by
    cases hresult : (generator.generate tree).1 with
    | error e =>
      rw [hresult] at hf
      cases hf
    | ok f' =>
      rw [hresult] at hf
      cases hf
      rfl
  exact ⟨f, h, htemps, Generator.generate_assigns_once rfl h⟩

end Lift6502
