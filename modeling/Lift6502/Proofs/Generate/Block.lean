import Lift6502.Proofs.Generate.Mirror

/-!
# Calls, returns and blocks

The code for a block runs like the block, if the host's rule for calls mirrors the tree's
(`Stage.CallsMirror`).
-/

namespace Lift6502

open Expression Gen Generator Progress RegisterSet

variable {results : List (Register × Variable)} {values : List (Register × Expression)}
  {block : String}

namespace Scene

theorem registerValues_eq (function : String) {σ : Scene} {i : Issue} (value : Register → UInt32)
    (h : ∀ a ∈ values, a.2.HasValue (σ.env.known i) (value a.1)) (before : RegisterValues) :
    ∃ after, σ.registerValues function before values = .ok after ∧
      ∀ r, after.get r = if r ∈ values.map (·.1) then some (value r) else before.get r := by
  induction values generalizing before with
  | nil => exact ⟨before, rfl, fun r => rfl⟩
  | cons a rest ih =>
    obtain ⟨after, hafter, hget⟩ := ih (fun b hb => h b (List.mem_cons_of_mem a hb))
      (before.set a.1 (some (value a.1)))
    refine ⟨after, ?_, fun r => ?_⟩
    · show (do
        let w ← σ.value function a.2
        σ.registerValues function (before.set a.1 (some w)) rest) = _
      unfold Scene.value
      rw [(h a List.mem_cons_self).eval_known]
      exact hafter
    · rw [hget, PerRegister.get_set]
      by_cases hrest : r ∈ rest.map (·.1)
      · rw [if_pos hrest, if_pos (by rw [List.map_cons]; exact List.mem_cons_of_mem _ hrest)]
      · rw [if_neg hrest]
        by_cases hr : r = a.1
        · rw [if_pos hr, if_pos (by rw [List.map_cons, hr]; exact List.mem_cons_self), hr]
        · rw [if_neg hr, if_neg (by rw [List.map_cons, List.mem_cons, not_or]; exact ⟨hr, hrest⟩)]

theorem takeResults_eq (callee : String) {returned : RegisterValues} (value : Register → UInt32)
    {σ : Scene} (h : ∀ a ∈ results, returned.get a.1 = some (value a.1))
    (hnodup : (results.map (·.2)).Nodup) :
    ∃ σ', takeResults callee returned σ results = .ok σ' ∧ σ'.memory = σ.memory ∧
      (∀ a ∈ results, σ'.env.get? a.2 = some (value a.1)) ∧
      ∀ v, v ∉ results.map (·.2) → σ'.env.get? v = σ.env.get? v := by
  induction results generalizing σ with
  | nil => exact ⟨σ, rfl, rfl, fun a ha => absurd ha List.not_mem_nil, fun v _ => rfl⟩
  | cons a rest ih =>
    rw [List.map_cons, List.nodup_cons] at hnodup
    obtain ⟨σ', hσ', hmemory, hresults, hothers⟩ :=
      ih (σ := σ.assign a.2 (value a.1)) (fun b hb => h b (List.mem_cons_of_mem a hb)) hnodup.2
    refine ⟨σ', ?_, hmemory, fun b hb => ?_, fun v hv => ?_⟩
    · rw [takeResults, h a List.mem_cons_self]
      exact hσ'
    · rcases List.mem_cons.1 hb with rfl | hb
      · rw [hothers b.2 hnodup.1]
        show (σ.env.set _ _).get? _ = _
        rw [Environment.get?_set, if_pos rfl]
      · exact hresults b hb
    · rw [List.map_cons, List.mem_cons, not_or] at hv
      rw [hothers v hv.2]
      show (σ.env.set _ _).get? _ = _
      rw [Environment.get?_set, if_neg hv.1]

end Scene

namespace Generator

variable {p p' : Progress} {s : SymbolicState} {rs : List Register}

theorem yields_readAll {α β : Type} {key : α → β} {location : α → Location}
    {as : List α} {values : List (β × Expression)}
    (hy : Yields (as.mapM fun a => do return (key a, ← Gen.read s (location a) block)) p values p') :
    p' = p ∧ values.map (·.1) = as.map key ∧
      (∀ value ∈ values, ∃ a ∈ as, value.1 = key a ∧ s.expression? (location a) = some value.2) ∧
      ∀ a ∈ as, ∃ e, (key a, e) ∈ values ∧ s.expression? (location a) = some e := by
  induction as generalizing values with
  | nil =>
    rw [List.mapM_nil] at hy
    obtain ⟨rfl, rfl⟩ := hy.of_pure
    exact ⟨rfl, rfl, fun a ha => absurd ha List.not_mem_nil, fun a ha => absurd ha List.not_mem_nil⟩
  | cons a rest ih =>
    rw [List.mapM_cons] at hy
    obtain ⟨value, p1, hfirst, hy1⟩ := hy.of_bind
    obtain ⟨e, p2, hread, hpair⟩ := hfirst.of_bind
    obtain ⟨he, rfl⟩ := Yields.ofExcept_iff.1 hread
    obtain ⟨rfl, rfl⟩ := hpair.of_pure
    obtain ⟨later, hrest, rfl⟩ := Yields.bind_pure_iff.1 hy1
    obtain ⟨rfl, hkeys, hvalues, hall⟩ := ih hrest
    have he : s.expression? (location a) = some e := by
      unfold SymbolicState.read at he
      split at he
      · next e' he' =>
        cases he
        exact he'
      · cases he
    refine ⟨rfl, by rw [List.map_cons, List.map_cons, hkeys], fun value hvalue => ?_,
      fun b hb => ?_⟩
    · rcases List.mem_cons.1 hvalue with rfl | hvalue
      · exact ⟨a, List.mem_cons_self, rfl, he⟩
      · obtain ⟨b, hb, hkey⟩ := hvalues value hvalue
        exact ⟨b, List.mem_cons_of_mem a hb, hkey⟩
    · rcases List.mem_cons.1 hb with rfl | hb
      · exact ⟨e, List.mem_cons_self, he⟩
      · obtain ⟨e', hmem, he'⟩ := hall b hb
        exact ⟨e', List.mem_cons_of_mem _ hmem, he'⟩

theorem yields_readRegisters
    (hy : Yields (rs.mapM fun r => do return (r, ← Gen.read s (.register r) block)) p values p') :
    p' = p ∧ values.map (·.1) = rs ∧ ∀ a ∈ values, s.expression? (.register a.1) = some a.2 := by
  obtain ⟨hp, hkeys, hvalues, -⟩ := yields_readAll hy
  refine ⟨hp, by rw [hkeys, List.map_id'], fun a ha => ?_⟩
  obtain ⟨r, -, hkey, hvalue⟩ := hvalues a ha
  rw [hkey]
  exact hvalue

theorem yields_resultTemps (hy : Yields (rs.mapM fun r => do return (r, ← newTemp)) p results p') :
    ∃ last, p.temps ≤ last ∧ p' = { p with temps := last } ∧ results.map (·.1) = rs ∧
      (results.map (·.2)).Nodup ∧
      ∀ a ∈ results, ∃ id, a.2 = .temp id ∧ p.temps < id ∧ id ≤ last := by
  induction rs generalizing p results with
  | nil =>
    rw [List.mapM_nil] at hy
    obtain ⟨rfl, rfl⟩ := hy.of_pure
    exact ⟨_, Nat.le_refl _, rfl, rfl, List.nodup_nil, fun a ha => absurd ha List.not_mem_nil⟩
  | cons r rest ih =>
    rw [List.mapM_cons] at hy
    obtain ⟨a, p1, hfirst, hy1⟩ := hy.of_bind
    obtain ⟨v, p2, hnew, hpair⟩ := hfirst.of_bind
    obtain ⟨rfl, rfl⟩ := yields_newTemp.1 hnew
    obtain ⟨rfl, rfl⟩ := hpair.of_pure
    obtain ⟨later, hrest, rfl⟩ := Yields.bind_pure_iff.1 hy1
    obtain ⟨last, hle, hp', hregisters, hnodup, htemps⟩ := ih hrest
    have hle : p.temps + 1 ≤ last := hle
    refine ⟨last, by omega, hp', by rw [List.map_cons, hregisters], ?_, fun b hb => ?_⟩
    · rw [List.map_cons, List.nodup_cons]
      refine ⟨fun hmem => ?_, hnodup⟩
      obtain ⟨b, hb, hvariable⟩ := List.mem_map.1 hmem
      obtain ⟨id, hid, hlt, -⟩ := htemps b hb
      rw [hid] at hvariable
      have hlt : p.temps + 1 < id := hlt
      have hid : id = p.temps + 1 := Variable.temp.inj hvariable
      omega
    · rcases List.mem_cons.1 hb with rfl | hb
      · exact ⟨p.temps + 1, rfl, Nat.lt_succ_self _, hle⟩
      · obtain ⟨id, hid, hlt, hle'⟩ := htemps b hb
        have hlt : p.temps + 1 < id := hlt
        exact ⟨id, hid, by omega, hle'⟩

end Generator

namespace Stage

variable {S : Stage} {bases : Bases} {p p1 p' : Progress} {σ : Scene} {s s' : SymbolicState}
  {callee : Routine} {flow : Option SymbolicState} {core : Core}

/-- What a routine does for its caller in the tree and in code. -/
def CallMirrors (S : Stage) (callee : Routine) (core : Core) (passed : RegisterValues) :
    Except Stop Core → Prop
  | .error e => ∃ e', e.Mirrors S.host.fuel S.lacks e' ∧
      S.host.caller callee.name passed core.cpu.memory = .error e'
  | .ok core' => core'.stack = core.stack ∧
      (∀ r, r ∉ callee.clobbers → core'.cpu.register r = core.cpu.register r) ∧
      S.host.caller callee.name passed core.cpu.memory =
        .ok (callee.results core', core'.cpu.memory)

def CallsMirror (S : Stage) : Prop :=
  ∀ entry callee core passed, S.generator.routines.atEntry? entry = some callee →
    (∀ r ∈ callee.inputs, passed.get r = some (core.cpu.register r).toUInt32) →
    S.CallMirrors callee core passed (S.call callee core)

def CallRuns (S : Stage) (p p' : Progress) (σ : Scene) (s' : SymbolicState) : Except Stop Core →
    Prop
  | .error e => ∃ e', e.Mirrors S.host.fuel S.lacks e' ∧ S.host.run (p.emitted p') σ = .error e'
  | .ok core' =>
    ∃ σ', Moves issue S.host p p' σ σ' ∧ Matches issue core' S.base s' p' σ'

theorem run_call {arguments : List (Register × Expression)} {H : Host} :
    H.run [.call callee.name arguments results] σ =
      match σ.call H.caller H.function callee.name arguments results with
      | .error e => .error e
      | .ok σ' => .ok (.normal, σ') := by
  rw [Host.run_singleton, Statement.run]
  rcases σ.call H.caller H.function callee.name arguments results with e | σ' <;> rfl

theorem describes_after_call {core' : Core} {known known' : Known} {base : List UInt8}
    (hk : known.Le known') (hd : s.Describes known core base) (hstack : core'.stack = core.stack)
    (hclobbers : ∀ r, r ∉ callee.clobbers → core'.cpu.register r = core.cpu.register r)
    (hregisters : results.map (·.1) = callee.outputs.toList)
    (hresults : ∀ a ∈ results, known' a.2 = some (core'.cpu.register a.1).toUInt32) (why : String)
    (why' : String) :
    (s.setAll (results.map (fun (r, v) => (Location.register r, Binding.ofVariable v)) ++
      (callee.clobbers.diff callee.outputs).toList.map (fun r =>
        (Location.register r, Binding.unresolved why)) ++
      Location.flags.map fun l => (l, Binding.unresolved why'))).Describes known' core' base := by
  refine (hd.mono hk).update (SymbolicState.stack_setAll _ _) hstack fun l => ?_
  rcases SymbolicState.get_setAll_cases s (results.map (fun (r, v) =>
      (Location.register r, Binding.ofVariable v)) ++
    (callee.clobbers.diff callee.outputs).toList.map (fun r =>
      (Location.register r, Binding.unresolved why)) ++
    Location.flags.map fun l => (l, Binding.unresolved why')) l with hl | ⟨hnot, hl⟩
  · refine .inl ?_
    rw [List.mem_append, List.mem_append] at hl
    rcases hl with (hl | hl) | hl
    · obtain ⟨a, ha, hpair⟩ := List.mem_map.1 hl
      obtain ⟨hlocation, hbinding⟩ := Prod.mk.inj hpair
      rw [← hbinding, ← hlocation]
      exact Binding.holds_ofVariable (hresults a ha)
    · obtain ⟨r, -, hpair⟩ := List.mem_map.1 hl
      rw [← (Prod.mk.inj hpair).2]
      exact Binding.holds_unresolved _
    · obtain ⟨k, -, hpair⟩ := List.mem_map.1 hl
      rw [← (Prod.mk.inj hpair).2]
      exact Binding.holds_unresolved _
  · -- Only a register that the callee does not write is left.
    refine .inr ⟨hl, ?_⟩
    rcases l with r | f
    · refine congrArg UInt8.toUInt32 (hclobbers r fun hr => ?_)
      by_cases hout : r ∈ callee.outputs
      · have hmem : r ∈ results.map (·.1) := by
          rw [hregisters]
          exact mem_toList.2 hout
        obtain ⟨a, ha, rfl⟩ := List.mem_map.1 hmem
        exact hnot (.ofVariable a.2) (List.mem_append_left _ (List.mem_append_left _
          (List.mem_map.2 ⟨a, ha, rfl⟩)))
      · exact hnot _ (List.mem_append_left _ (List.mem_append_right _
          (List.mem_map.2 ⟨r, mem_toList.2 (mem_diff.2 ⟨hr, hout⟩), rfl⟩)))
    · exact absurd (List.mem_append_right _ (List.mem_map.2
        ⟨Location.flag f, List.mem_map.2 ⟨f, Flag.mem_all f, rfl⟩, rfl⟩)) (hnot _)

theorem callRuns_call (hcalls : S.CallsMirror) {entry : BlockId}
    (hcallee : S.generator.routines.atEntry? entry = some callee)
    (hy : Yields (Generator.call callee s block) p s' p') (hm : Matches issue core S.base s p σ) :
    S.CallRuns p p' σ s' (S.call callee core) := by
  unfold Generator.call at hy
  obtain ⟨arguments, p1, harguments, hy1⟩ := hy.of_bind
  obtain ⟨rfl, hinputs, hvalues⟩ := yields_readRegisters harguments
  obtain ⟨results, p2, hresults, hy2⟩ := hy1.of_bind
  obtain ⟨last, hle, rfl, hregisters, hnodup, htemps⟩ := yields_resultTemps hresults
  obtain ⟨_, p3, hemit, hy3⟩ := hy2.of_bind
  obtain rfl := yields_emit.1 hemit
  obtain ⟨rfl, rfl⟩ := hy3.of_pure
  obtain ⟨passed, hpassed, hget⟩ := Scene.registerValues_eq S.host.function
    (fun r => (core.cpu.register r).toUInt32)
    (fun a ha => hm.describes.hasValue (hvalues a ha)) .none
  have hcall := hcalls entry callee core passed hcallee fun r hr => by
    rw [hget, if_pos (by rw [hinputs]; exact mem_toList.2 hr)]
  have hscene : σ.call S.host.caller S.host.function callee.name arguments results =
      (S.host.caller callee.name passed core.cpu.memory).bind fun r =>
        Scene.takeResults callee.name r.1 { σ with memory := r.2 } results := by
    unfold Scene.call
    rw [hpassed, ← hm.memory]
    rfl
  unfold CallRuns
  rw [emitted_push rfl, run_call, hscene]
  rcases hcallee' : S.call callee core with e | core' <;> rw [hcallee'] at hcall
  · obtain ⟨e', he', hcaller⟩ := hcall
    refine ⟨e', he', ?_⟩
    rw [hcaller]
    rfl
  · obtain ⟨hstack, hclobbers, hcaller⟩ := hcall
    obtain ⟨σ', hσ', hmemory, htaken, hothers⟩ := Scene.takeResults_eq callee.name
      (fun r => (core'.cpu.register r).toUInt32) (σ := { σ with memory := core'.cpu.memory })
      (fun a ha => callee.get_results_of_mem core' (mem_toList.1
        (by rw [← hregisters]; exact List.mem_map_of_mem ha))) hnodup
    have hmove : Moves issue S.host p1 { p1 with
        temps := last, out := p1.out.push (.call callee.name arguments results) } σ σ' := by
      refine ⟨⟨prefix_push rfl, rfl, hle, Nat.le_refl _, id⟩, ?_, fun v hv => ?_⟩
      · rw [emitted_push rfl, run_call, hscene, hcaller]
        show (match Scene.takeResults callee.name (callee.results core') _ results with
          | .error e => _ | .ok σ' => _) = _
        rw [hσ']
      · refine hothers v fun hmem => ?_
        obtain ⟨a, ha, rfl⟩ := List.mem_map.1 hmem
        obtain ⟨id, hid, hlt, -⟩ := htemps a ha
        rw [hid] at hv
        have hv : id ≤ p1.temps := hv
        omega
    refine ⟨σ', hmove, describes_after_call hmove.known_le hm.describes hstack hclobbers hregisters
      (fun a ha => ?_) _ _, hmemory⟩
    obtain ⟨id, hid, -, hle'⟩ := htemps a ha
    refine Environment.known_eq_some ?_ (htaken a ha)
    rw [hid]
    exact hle'

theorem returns_ret {u : Unit} (hy : Yields (S.generator.ret s block) p u p')
    (hm : Matches issue core S.base s p σ) : S.Returns core (S.host.run (p.emitted p') σ) := by
  unfold Generator.ret at hy
  split at hy
  · exact absurd hy Yields.not_throw
  · next hdepth =>
    obtain ⟨values, p1, hvalues, hemit⟩ := hy.of_bind
    obtain ⟨rfl, houtputs, hread⟩ := yields_readRegisters hvalues
    obtain rfl := yields_emit.1 hemit
    have hempty : s.stack = [] :=
      List.eq_nil_of_length_eq_zero (by simpa [SymbolicState.depth] using hdepth)
    have hstack := hm.describes.stack
    rw [hempty] at hstack
    obtain ⟨returned, hreturned, hget⟩ := Scene.registerValues_eq S.host.function
      (fun r => (core.cpu.register r).toUInt32)
      (fun a ha => hm.describes.hasValue (hread a ha)) .none
    have hresults : returned = S.generator.routine.results core := by
      refine PerRegister.ext fun q => ?_
      rw [hget, houtputs, Routine.results, PerRegister.get_ofFn]
      simp only [mem_toList]
      cases q <;> rfl
    refine ⟨hstack, σ, ?_, hm.memory⟩
    rw [emitted_push rfl, Host.run_singleton, Statement.run, hreturned, hresults]
    rfl

def wayOf : Except Stop (BlockEnd Core) → TreeRun
  | .error e => .error e
  | .ok (.on core) => .ok (.onward, core)
  | .ok (.finished core) => .ok (.finished, core)

theorem Returns.mirrors {r : CodeRun} (h : S.Returns core r) :
    S.Mirrors bases p σ flow p' (.ok (.finished, core)) r := h

def blockEnd (c : Generator) (name : String) (block : Block) :
    Option SymbolicState → Gen (Option SymbolicState)
  | none => return none
  | some s => if block.successors.isEmpty then do
      c.ret s name
      return none
    else return some s

theorem block_eq (c : Generator) (b : BlockId) (s : SymbolicState) :
    c.block b s = c.instructions (c.graph.name b) (c.graph.block b) 0 (c.graph.block b).code s >>=
      blockEnd c (c.graph.name b) (c.graph.block b) := by
  unfold Generator.block
  congr 1

theorem steady_blockEnd (c : Generator) (name : String) (block : Block)
    (flow : Option SymbolicState) : Steady (blockEnd c name block flow) := by
  unfold blockEnd
  split
  · exact .pure none
  · refine Composable.ite (fun _ => ?_) fun _ => .pure _
    exact .bind (threads_steady.ret False.elim _) fun _ => .pure none

theorem performs_noteHidden (H : Host) (block : Block) (index : Nat) (p : Progress) (σ : Scene) :
    Performs issue H (noteHidden block index) p σ fun _ p' σ' => σ' = σ ∧
      p'.issue = p.issue := by
  unfold noteHidden
  split
  · refine performs_emit σ ?_ .refl ⟨rfl, rfl⟩
    rw [Host.run_singleton]
    rfl
  · exact .pure ⟨rfl, rfl⟩

theorem mirrors_code (hcalls : S.CallsMirror) {name : String} {block : Block} {index : Nat}
    {code : List Instruction} {flow1 : Option SymbolicState}
    (hy : Yields (S.generator.instructions name block index code s) p flow1 p1)
    (hend : Yields (blockEnd S.generator name block flow1) p1 flow p') (hok : FramesOk bases p)
    (hm : Matches issue core S.base s p σ) :
    S.Mirrors bases p σ flow p' (wayOf (S.setting.runCode S.call block index code core))
      (S.host.run (p.emitted p') σ) := by
  induction code generalizing index s p σ core with
  | nil =>
    obtain ⟨rfl, rfl⟩ := hy.of_pure
    rw [Setting.runCode]
    rw [blockEnd] at hend
    split at hend
    · next hempty =>
      obtain ⟨_, hret, rfl⟩ := Yields.bind_pure_iff.1 hend
      rw [if_pos hempty]
      exact (returns_ret hret hm).mirrors
    · next hnonempty =>
      obtain ⟨rfl, rfl⟩ := hend.of_pure
      rw [if_neg hnonempty, emitted_self]
      exact ⟨s, σ, rfl, rfl, hm, .refl⟩
  | cons i rest ih =>
    unfold Generator.instructions at hy
    obtain ⟨_, p2, hnote, hy1⟩ := hy.of_bind
    obtain ⟨σ2, hmove, rfl, hissue⟩ := performs_noteHidden S.host block index p σ _ p2 hnote
    have hm2 : Matches issue core S.base s p2 σ2 :=
      hm.of_issue (by rw [hissue]; exact .refl _)
    obtain ⟨flow2, p3, hinstruction, hy2⟩ := hy1.of_bind
    have hrest : p3.Grows p' := by
      refine Progress.Grows.trans ?_ ((steady_blockEnd _ _ _ _).grows hend)
      split at hy2
      · exact (threads_steady.instructions False.elim _ _ _ _ fun _ _ _ =>
          ⟨trivial, trivial, trivial⟩).grows hy2
      · exact (Steady.pure none).grows hy2
    have hp3 := (threads_steady.instruction False.elim ⟨trivial, trivial, trivial⟩).grows
      hinstruction
    refine Mirrors.of_moves hmove hok (hp3.trans hrest) ?_
    have hok2 := hok.mono hmove.more.grows.toLater
    have hok3 := hok2.mono hp3.toLater
    by_cases hrts : i.opcode = .rts
    · -- A return ends the block, whatever stands behind it.
      rw [Setting.runCode, hrts]
      simp only [Generator.instruction, hrts] at hinstruction
      obtain ⟨_, hret, rfl⟩ := Yields.bind_pure_iff.1 hinstruction
      obtain ⟨rfl, rfl⟩ := hy2.of_pure
      obtain ⟨rfl, rfl⟩ := hend.of_pure
      exact (returns_ret hret hm2).mirrors
    by_cases hjsr : i.opcode = .jsr
    · rw [Setting.runCode, hjsr]
      simp only [Generator.instruction, hjsr] at hinstruction
      obtain ⟨s3, hcall, rfl⟩ := Yields.map_iff.1 hinstruction
      unfold callRoutine at hcall
      split at hcall
      · next callee hcallee =>
        obtain ⟨entry, -, hentry⟩ := Option.bind_eq_some_iff.1 hcallee
        have hruns := callRuns_call hcalls hentry hcall hm2
        have hcallee' : (block.callAt? index).bind S.setting.routines.atEntry? = some callee :=
          hcallee
        simp only [hcallee']
        rcases hresult : S.call callee core with e | core3 <;> rw [hresult] at hruns
        · obtain ⟨e', he', hrun⟩ := hruns
          refine ⟨e', he', ?_⟩
          rw [emitted_trans hp3.out hrest.out,
            Host.run_append_of_ne_normal (fun σ' h => by rw [hrun] at h; cases h), hrun]
        · obtain ⟨σ3, hmove3, hm3⟩ := hruns
          exact .of_moves hmove3 hok2 hrest (ih hy2 hok3 hm3)
      · exact absurd hcall Yields.not_throw
    · obtain ⟨σ3, hmove3, s3, rfl, core3, hstep, hm3⟩ :=
        performs_instruction hm2.describes hm2.memory hjsr hrts flow2 p3 hinstruction
      have hstep' : core.step (S.setting.work? i core.cpu) i.opcode = some core3 := hstep
      rw [Setting.runCode_cons hjsr hrts, hstep']
      exact .of_moves hmove3 hok2 hrest (ih hy2 hok3 hm3)

theorem mirrors_block (hcalls : S.CallsMirror) {b : BlockId}
    (hy : Yields (S.generator.block b s) p flow p') (hok : FramesOk bases p)
    (hm : Matches issue core S.base s p σ) :
    S.Mirrors bases p σ flow p' (wayOf (S.machine.run b core)) (S.host.run (p.emitted p') σ) := by
  rw [block_eq] at hy
  obtain ⟨flow1, p1, hcode, hend⟩ := hy.of_bind
  exact mirrors_code hcalls hcode hend hok hm

theorem run_block (S : Stage) (next b : BlockId) (core : Core) :
    ControlNode.run S.machine S.host.fuel next (.block b) core = wayOf (S.machine.run b core) := by
  rw [ControlNode.run]
  rcases S.machine.run b core with e | (core' | core') <;> rfl

end Stage

end Lift6502
