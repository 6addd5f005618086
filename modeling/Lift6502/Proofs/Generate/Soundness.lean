import Lift6502.Proofs.Generate.Addressing
import Lift6502.Proofs.Generate.Functions
import Lift6502.Proofs.Tree.Counted

/-!
# Decompiled code is sound

A call of a decompiled function returns what the tree of its routine leaves in the outputs and in
memory, or reaches a limit or a routine without code.
-/

namespace Lift6502

open Evaluator

variable {d : Decompilation} {arguments : PerRegister (Option UInt8)} {q : Register} {rs : Routines}
  {p : Program} {g : Graph} {o : Options} {r : Routine}

/-- The results of a routine are bytes, so that a call from outside gives all of them. -/
theorem Evaluator.outputs_results (name : String) (r : Routine) (core : Core) :
    outputs name (r.results core) =
      .ok (r.outputs.toList.map fun q => (q, core.cpu.register q)) := by
  have hvalues : (Register.all.filterMap fun q => ((r.results core).get q).map fun value =>
      (q, value)) = r.outputs.toList.map fun q => (q, (core.cpu.register q).toUInt32) := by
    unfold RegisterSet.toList Routine.results
    simp only [PerRegister.get_ofFn, RegisterSet.mem_iff]
    -- The members are listed in the order of the registers, as the outputs are.
    induction Register.all with
    | nil => rfl
    | cons q rest ih =>
      rw [List.filterMap_cons, List.filter_cons]
      cases r.outputs.get q <;> simpa using ih
  have hbyte : ∀ byte : UInt8, byte.toUInt32 ≤ 0xff ∧ byte.toUInt32.toUInt8 = byte := by
    apply forall_byte
    decide +kernel
  unfold outputs
  rw [hvalues]
  induction r.outputs.toList with
  | nil => rfl
  | cons q rest ih =>
    rw [List.map_cons, List.mapM_cons, ih]
    simp only [if_pos (hbyte _).1, (hbyte _).2]
    rfl

theorem Evaluator.get_argumentWords {byte : UInt8}
    (h : arguments.get q = some byte) : (argumentWords arguments).get q = some byte.toUInt32 := by
  unfold argumentWords
  rw [PerRegister.get_ofFn, h]
  rfl

def Core.given (arguments : PerRegister (Option UInt8)) (memory : Memory addressCount) : Core where
  cpu :=
    { a := (arguments.get .a).getD 0, x := (arguments.get .x).getD 0,
      y := (arguments.get .y).getD 0, memory }

theorem Core.get_of_given (memory : Memory addressCount) (h : (arguments.get q).isSome = true) :
    arguments.get q = some ((Core.given arguments memory).cpu.register q) := by
  have hregister : (Core.given arguments memory).cpu.register q = (arguments.get q).getD 0 := by
    cases q <;> rfl
  obtain ⟨byte, hbyte⟩ := Option.isSome_iff_exists.1 h
  rw [hregister, hbyte]
  rfl

/-- Why a call of a decompiled function may break off: a limit, or a routine without code. -/
def Decompilation.BreaksOff (d : Decompilation) (limit : Nat) (e : EvalError) : Prop :=
  e = .stepLimit limit ∨ e = .callDepth ∨ ∃ failure ∈ d.failures,
    e = .unknownFunction failure.routine

theorem Decompilation.nodup_names (hfailures : d.failures = [])
    (hnames : (d.functions.map (·.name)).Nodup) : d.names.Nodup := by
  unfold Decompilation.names
  rw [hfailures, List.map_nil, List.append_nil]
  exact hnames

theorem Decompilation.BreaksOff.of_complete {limit : Nat} {e : EvalError} (h : d.BreaksOff limit e)
    (hfailures : d.failures = []) : e = .stepLimit limit ∨ e = .callDepth := by
  rcases h with rfl | rfl | ⟨failure, hmem, -⟩
  · exact .inl rfl
  · exact .inr rfl
  · rw [hfailures] at hmem
    cases hmem

theorem Routines.exists_failure (hr : r ∈ rs.all) (hcode : r.hasCode p g rs o = false) :
    ∃ failure ∈ (rs.decompile p g o).1.failures, failure.routine = r.name := by
  unfold Routine.hasCode at hcode
  rcases hresult : (r.decompile p g rs o).1 with e | f <;> rw [hresult] at hcode
  · refine ⟨⟨r.name, e⟩, List.mem_filterMap.2 ⟨_, List.mem_map.2 ⟨r, hr, rfl⟩, ?_⟩, rfl⟩
    simp only [hresult]
  · cases hcode

theorem Program.exists_routine (hd : (p.decompile o).1 = .ok d)
    {f : FunctionDef} (hf : f ∈ d.functions) :
    ∃ g rs r, p.HasRoutine o g rs r ∧ d = (rs.decompile p g o).1 ∧
      (r.decompile p g rs o).1 = .ok f := by
  unfold Program.decompile at hd
  split at hd
  · cases hd
  · next g _ hgraph =>
    split at hd
    · cases hd
    · cases hd
      cases hf
    · next roots hne hroots =>
      cases hd
      obtain ⟨r, hr, hcode⟩ := Routines.exists_of_mem_functions hf
      exact ⟨g, _, r, ⟨roots, by rw [hgraph], hroots, fun hnil => hne hnil, rfl, hr⟩, rfl, hcode⟩

namespace Program.HasRoutine

variable (h : p.HasRoutine o g rs r) {core : Core}

include h

theorem atEntry?_entry : rs.atEntry? r.entry = some r := by
  rcases hfind : rs.atEntry? r.entry with _ | q
  · have hother := List.find?_eq_none.1 hfind r h.mem_all
    simp at hother
  · have hentry : q.entry = r.entry := by simpa using List.find?_some hfind
    by_contra hne
    have hout := h.separate.not_mem_blocks h.mem_all (List.mem_of_find?_eq_some hfind)
      fun heq => hne (congrArg some heq)
    exact hout (hentry ▸ h.standard.entry_mem)

theorem decompile_eq : (p.decompile o).1 = .ok (rs.decompile p g o).1 := by
  obtain ⟨roots, hg, hroots, hne, rfl, -⟩ := h
  unfold Program.decompile
  rcases hgraph : Graph.ofProgram p with ⟨_ | g', journal⟩ <;> rw [hgraph] at hg <;> cases hg
  simp only [hroots]

theorem callMirrors (hlines : p.lines.length < 2 ^ 32) (hnames : (rs.decompile p g o).1.names.Nodup)
    (harguments : ∀ q ∈ r.inputs, arguments.get q = some (core.cpu.register q)) (fuel : Nat) :
    (r.stage p g rs o fuel maxCallDepth []).CallMirrors r core (argumentWords arguments)
      ((r.stage p g rs o fuel maxCallDepth []).call r core) :=
  h.callsMirror hlines hnames fuel maxCallDepth r [] r.entry r core _ h.atEntry?_entry fun q hq =>
    get_argumentWords (harguments q hq)

theorem call_cases (hlines : p.lines.length < 2 ^ 32) (hnames : (rs.decompile p g o).1.names.Nodup)
    (harguments : ∀ q ∈ r.inputs, arguments.get q = some (core.cpu.register q)) (limit : Nat) :
    (∃ e, (rs.decompile p g o).1.BreaksOff limit e ∧
      (Evaluator.call ⟨(rs.decompile p g o).1.functions, limit⟩ r.name arguments
        core.cpu.memory).1 =
        .error e) ∨ ∃ core' steps, (p.trees g rs).run (limit + 1) maxCallDepth r core = .ok core' ∧
      Evaluator.call ⟨(rs.decompile p g o).1.functions, limit⟩ r.name arguments core.cpu.memory =
        (.ok (r.outputs.toList.map fun q => (q, core'.cpu.register q)), steps,
          core'.cpu.memory) := by
  have hmirrors := h.callMirrors hlines hnames harguments (limit + 1)
  -- The call runs out of steps, returns, or fails; the last two the tree decides.
  rcases Evaluator.call_cases (rs.decompile p g o).1.functions r.name arguments core.cpu.memory
    limit with
    hlimit | ⟨values, memory', steps, huntimed, hcall⟩ | ⟨e, huntimed, hne, hcall⟩
  · exact .inl ⟨_, .inl rfl, hlimit⟩
  · rcases hrun : (r.stage p g rs o (limit + 1) maxCallDepth []).call r core with e | core' <;>
      rw [hrun] at hmirrors
    · obtain ⟨e', -, hcaller⟩ := hmirrors
      exact nomatch huntimed.symm.trans hcaller
    · obtain ⟨-, -, hcaller⟩ := hmirrors
      have heq := huntimed.symm.trans hcaller
      cases heq
      have hcoded : p.runCoded g rs o (limit + 1) maxCallDepth r core = .ok core' := hrun
      refine .inr ⟨core', steps, Setting.run_of_runCoded hcoded, ?_⟩
      rw [hcall, outputs_results]
  · rcases hrun : (r.stage p g rs o (limit + 1) maxCallDepth []).call r core with e' | core' <;>
      rw [hrun] at hmirrors
    · obtain ⟨e'', hstop, hcaller⟩ := hmirrors
      cases huntimed.symm.trans hcaller
      refine .inl ⟨e, ?_, hcall⟩
      -- A run of the tree that breaks off says why the call does.
      cases e' with
      | limit => exact absurd hstop hne
      | depth => exact .inr (.inl hstop)
      | stuck => exact hstop.elim
      | missing name =>
        obtain ⟨⟨q, hq, hcode, hname⟩, rfl⟩ := hstop
        obtain ⟨failure, hfailure, hroutine⟩ := Routines.exists_failure hq hcode
        exact .inr (.inr ⟨failure, hfailure, by rw [hroutine, hname]⟩)
    · obtain ⟨-, -, hcaller⟩ := hmirrors
      exact nomatch huntimed.symm.trans hcaller

theorem exists_function (hfailures : (rs.decompile p g o).1.failures = []) :
    ∃ f, (r.decompile p g rs o).1 = .ok f := by
  rcases hresult : (r.decompile p g rs o).1 with e | f
  · obtain ⟨failure, hmem, -⟩ :=
      Routines.exists_failure h.mem_all (Routine.hasCode_of_error hresult)
    rw [hfailures] at hmem
    cases hmem
  · exact ⟨f, rfl⟩

theorem le_trees (haddressed : p.isAddressed = true) :
    Setting.Le { graph := g, routines := rs, work? := p.work? } (p.trees g rs) := by
  obtain ⟨roots, hg, -⟩ := h
  exact ⟨rfl, rfl, fun b i hi c w hw =>
    Program.codeWork?_of_work? (Program.isAddressed_block haddressed hg b i hi) hw⟩

theorem exists_steps (hlines : p.lines.length < 2 ^ 32)
    (hnames : (rs.decompile p g o).1.names.Nodup)
    (hfailures : (rs.decompile p g o).1.failures = []) {core' : Core}
    (harguments : ∀ q ∈ r.inputs, arguments.get q = some (core.cpu.register q)) {fuel : Nat}
    (hrun : (p.trees g rs).run fuel maxCallDepth r core = .ok core') : ∃ steps, ∀ limit,
    steps ≤ limit →
      Evaluator.call ⟨(rs.decompile p g o).1.functions, limit⟩ r.name arguments core.cpu.memory =
        (.ok (r.outputs.toList.map fun q => (q, core'.cpu.register q)), steps,
          core'.cpu.memory) := by
  have hmirrors := h.callMirrors hlines hnames harguments fuel
  have hcoded : ∀ q ∈ rs.all, q.hasCode p g rs o = true := by
    intro q hq
    obtain ⟨f, hf⟩ := (h.of_mem hq).exists_function hfailures
    exact Routine.hasCode_of_ok hf
  -- Nothing is missing, so that the run of the tree is one of routines with code.
  have hcall : (r.stage p g rs o fuel maxCallDepth []).call r core = .ok core' :=
    Setting.runCoded_of_run hcoded h.mem_all hrun
  rw [hcall] at hmirrors
  obtain ⟨-, -, hcaller⟩ := hmirrors
  obtain ⟨steps, hsteps⟩ := call_of_untimed hcaller nofun
  refine ⟨steps, fun limit hle => ?_⟩
  have hcall := hsteps limit
  rw [if_pos hle] at hcall
  rw [hcall, outputs_results]

end Program.HasRoutine

/-- A decompilation without failures never goes wrong: a call that gives every input a byte
returns a byte for every output, or it breaks off because it takes too many steps or nests
calls too deep. -/
theorem call_returns_or_limited (p : Program) (o : Options) (d : Decompilation)
    (hlines : p.lines.length < 2 ^ 32) (hd : (p.decompile o).1 = .ok d)
    (hfailures : d.failures = []) (hnames : (d.functions.map (·.name)).Nodup) (f : FunctionDef)
    (hf : f ∈ d.functions) (arguments : PerRegister (Option UInt8))
    (harguments : ∀ q ∈ f.inputs, (arguments.get q).isSome = true) (memory : Memory addressCount)
    (limit : Nat) :
    (∃ values steps memory', Evaluator.call ⟨d.functions, limit⟩ f.name arguments memory =
      (.ok values, steps, memory') ∧ values.map (·.1) = f.outputs) ∨
    (Evaluator.call ⟨d.functions, limit⟩ f.name arguments memory).1 = .error (.stepLimit limit) ∨
    (Evaluator.call ⟨d.functions, limit⟩ f.name arguments memory).1 = .error .callDepth := by
  obtain ⟨g, rs, r, hr, rfl, hcode⟩ := Program.exists_routine hd hf
  obtain ⟨hname, hinputs, houtputs, -⟩ := Routine.yields_of_decompile hcode
  have hcore : ∀ q ∈ r.inputs,
      arguments.get q = some ((Core.given arguments memory).cpu.register q) :=
    fun q hq => Core.get_of_given memory (harguments q (hinputs ▸ RegisterSet.mem_toList.2 hq))
  rw [hname]
  rcases hr.call_cases hlines (Decompilation.nodup_names hfailures hnames) hcore limit with
    ⟨e, hbreaks, hcall⟩ | ⟨core', steps, -, hcall⟩
  · rcases hbreaks.of_complete hfailures with rfl | rfl
    · exact .inr (.inl hcall)
    · exact .inr (.inr hcall)
  · refine .inl ⟨_, steps, _, hcall, ?_⟩
    rw [houtputs, List.map_map]
    exact List.map_id _

/-- A countdown that doubles a byte and adds one in every pass, through a routine that also takes
over at the end. -/
def doublingCountdown : Program :=
  Draft.start 0x8000
    |>.label "Start" |>.immediate .ldx 3
    |>.label "Loop" |>.atLabel .jsr "Double" |>.implied .clc |>.immediate .adc 1 |>.implied .dex
      |>.atLabel .bne "Loop" |>.implied .pha |>.zeroPage .sta 0x10 |>.implied .pla
      |>.atLabel .jmp "Double"
    |>.label "Double" |>.op .asl (.accumulator) |>.implied .rts
    |>.program

namespace doublingCountdown

def code : Decompilation :=
  (doublingCountdown.routines.decompile doublingCountdown doublingCountdown.graph {}).1

def atStart : Core := ⟨{ a := 5, y := 7, memory := .replicate addressCount 0 }, []⟩

theorem hasRoutine : doublingCountdown.HasRoutine {} doublingCountdown.graph
    doublingCountdown.routines doublingCountdown.first :=
  ⟨[0], rfl, rfl, by decide, rfl, List.mem_cons_self⟩

theorem decompile_eq : (doublingCountdown.decompile {}).1 = .ok code := hasRoutine.decompile_eq

theorem failures_eq : code.failures = [] := by decide +kernel

theorem nodup_names : (code.functions.map (·.name)).Nodup := by decide +kernel

end doublingCountdown

open doublingCountdown

/-- The countdown returns or is limited, also with a memory that it does not expect. -/
theorem doublingCountdown_returns_or_limited :
    (∃ f ∈ code.functions, f.name = "Start" ∧ f.inputs = [.a] ∧
      ((∃ values steps memory', Evaluator.call ⟨code.functions, 30⟩ f.name ⟨some 200, none, none⟩
        (.replicate addressCount 9) = (.ok values, steps, memory') ∧
        values.map (·.1) = f.outputs) ∨
      (Evaluator.call ⟨code.functions, 30⟩ f.name ⟨some 200, none, none⟩
        (.replicate addressCount 9)).1 = .error (.stepLimit 30) ∨
      (Evaluator.call ⟨code.functions, 30⟩ f.name ⟨some 200, none, none⟩
        (.replicate addressCount 9)).1 = .error .callDepth)) := by
  have hfind : (code.functions.head?.map fun f => (f.name, f.inputs)) = some ("Start", [.a]) := by
    decide +kernel
  obtain ⟨f, hhead, hvalues⟩ := Option.map_eq_some_iff.1 hfind
  obtain ⟨hname, hinputs⟩ := Prod.mk.inj hvalues
  have hf : f ∈ code.functions := List.mem_of_mem_head? hhead
  refine ⟨f, hf, hname, hinputs, ?_⟩
  refine call_returns_or_limited doublingCountdown {} code (by decide) decompile_eq failures_eq
    nodup_names f hf ⟨some 200, none, none⟩ (fun q hq => ?_) (.replicate addressCount 9) 30
  rw [hinputs, List.mem_singleton] at hq
  rw [hq]
  rfl

/-- Decompiled code is sound. If the tree of a routine runs to its end on the processor, then its
function, called with what the registers hold, returns what the run leaves in the outputs and in
memory, unless it reaches a limit; and it does return if it may take enough steps and calls are not
nested too deep. The run leaves alone every register that the routine does not clobber. -/
theorem function_runs_like_tree (p : Program) (o : Options) (d : Decompilation)
    (hlines : p.lines.length < 2 ^ 32) (haddressed : p.isAddressed = true)
    (hd : (p.decompile o).1 = .ok d) (hfailures : d.failures = [])
    (hnames : (d.functions.map (·.name)).Nodup) (g : Graph) (rs : Routines) (r : Routine)
    (hr : p.HasRoutine o g rs r) (fuel depth : Nat) (core core' : Core)
    (hrun : Setting.run { graph := g, routines := rs, work? := p.work? } fuel depth r core =
      .ok core') :
    (∃ f ∈ d.functions, f.name = r.name ∧ f.inputs = r.inputs.toList ∧
      f.outputs = r.outputs.toList) ∧
    (∀ arguments : PerRegister (Option UInt8),
      (∀ q ∈ r.inputs, arguments.get q = some (core.cpu.register q)) →
      (∀ limit,
        (Evaluator.call ⟨d.functions, limit⟩ r.name arguments core.cpu.memory).1 =
          .error (.stepLimit limit) ∨
        (Evaluator.call ⟨d.functions, limit⟩ r.name arguments core.cpu.memory).1 =
          .error .callDepth ∨
        ∃ steps, Evaluator.call ⟨d.functions, limit⟩ r.name arguments core.cpu.memory =
          (.ok (r.outputs.toList.map fun q => (q, core'.cpu.register q)), steps,
            core'.cpu.memory)) ∧
      (depth ≤ maxCallDepth → ∃ steps, ∀ limit, steps ≤ limit →
        Evaluator.call ⟨d.functions, limit⟩ r.name arguments core.cpu.memory =
          (.ok (r.outputs.toList.map fun q => (q, core'.cpu.register q)), steps,
            core'.cpu.memory))) ∧
    ∀ q, q ∉ r.clobbers → core'.cpu.register q = core.cpu.register q := by
  cases hr.decompile_eq.symm.trans hd
  have hall := Decompilation.nodup_names hfailures hnames
  have hle := hr.le_trees haddressed
  refine ⟨?_, fun arguments harguments => ⟨fun limit => ?_, fun hdepth => ?_⟩, fun q hq => ?_⟩
  · obtain ⟨f, hf⟩ := hr.exists_function hfailures
    obtain ⟨hname, hinputs, houtputs, -⟩ := Routine.yields_of_decompile hf
    exact ⟨f, Routines.mem_functions_of_decompile hr.mem_all hf, hname, hinputs, houtputs⟩
  · rcases hr.call_cases hlines hall harguments limit with
      ⟨e, hbreaks, hcall⟩ | ⟨core₁, steps, hrun₁, hcall⟩
    · rcases hbreaks.of_complete hfailures with rfl | rfl
      · exact .inl hcall
      · exact .inr (.inl hcall)
    · -- With enough of both, the two runs of the tree are one.
      have hlong :=
        hle.run (Nat.le_max_left fuel (limit + 1)) (Nat.le_max_left depth maxCallDepth) hrun
      have hlong₁ := (Setting.Le.refl _).run (Nat.le_max_right fuel (limit + 1))
        (Nat.le_max_right depth maxCallDepth) hrun₁
      cases hlong.symm.trans hlong₁
      exact .inr (.inr ⟨steps, hcall⟩)
  · exact hr.exists_steps hlines hall hfailures harguments
      (hle.run (Nat.le_refl fuel) hdepth hrun)
  · exact hr.keepsRegisters_run fuel depth hr.atEntry?_entry
      (hle.run (Nat.le_refl fuel) (Nat.le_refl depth) hrun) q hq

/-- The countdown takes 5 to 94 in three passes and a last doubling, and leaves `Y` alone. -/
theorem doublingCountdown_runs_like_tree :
    ∃ core', Setting.run ⟨doublingCountdown.graph, doublingCountdown.routines,
        doublingCountdown.work?⟩ 8 4 doublingCountdown.first atStart = .ok core' ∧
      core'.cpu.a = 94 ∧ core'.cpu.x = 0 ∧ core'.cpu.y = 7 ∧
      (doublingCountdown.decompile {}).1 = .ok code ∧
      ∃ steps, ∀ limit, steps ≤ limit →
        Evaluator.call ⟨code.functions, limit⟩ "Start" ⟨some 5, none, none⟩
          (.replicate addressCount 0) = (.ok [(.a, 94), (.x, 0)], steps, core'.cpu.memory) := by
  have hends : ((Setting.run ⟨doublingCountdown.graph, doublingCountdown.routines,
      doublingCountdown.work?⟩ 8 4 doublingCountdown.first atStart).toOption.map
        fun c => (c.cpu.a, c.cpu.x)) = some (94, 0) := by decide +kernel
  rcases hrun : Setting.run ⟨doublingCountdown.graph, doublingCountdown.routines,
      doublingCountdown.work?⟩ 8 4 doublingCountdown.first atStart with e | core' <;>
    rw [hrun] at hends
  · cases hends
  obtain ⟨ha, hx⟩ := Prod.mk.inj (Option.some.inj hends)
  obtain ⟨-, hcall, hkept⟩ := function_runs_like_tree doublingCountdown {} code (by decide)
    (by decide) decompile_eq failures_eq nodup_names doublingCountdown.graph
    doublingCountdown.routines doublingCountdown.first hasRoutine 8 4 atStart core' hrun
  have hinputs : ∀ q ∈ doublingCountdown.first.inputs,
      (⟨some 5, none, none⟩ : PerRegister _).get q = some (atStart.cpu.register q) := by
    intro q hq
    cases q with
    | a => rfl
    | x => exact absurd hq (by decide +kernel)
    | y => exact absurd hq (by decide +kernel)
  have hclobbers : Register.y ∉ doublingCountdown.first.clobbers := by decide +kernel
  have hname : doublingCountdown.first.name = "Start" := by decide +kernel
  have houtputs : doublingCountdown.first.outputs.toList = [.a, .x] := by decide +kernel
  have hvalues : [.a, .x].map (fun q => (q, core'.cpu.register q)) =
      [(Register.a, 94), (.x, 0)] := by
    simp [Cpu.register, ha, hx]
  obtain ⟨steps, hsteps⟩ := (hcall ⟨some 5, none, none⟩ hinputs).2 (by decide)
  refine ⟨core', rfl, ha, hx, hkept .y hclobbers, decompile_eq, steps, fun limit hle => ?_⟩
  have hresults := hsteps limit hle
  rw [hname, houtputs, hvalues] at hresults
  exact hresults

/-- Decompiled code runs like the blocks, where the trees of all routines are faithful. If the
blocks run along their exits to the end of a routine, its function, called with what the registers
hold, returns what they leave in the outputs and in memory, given enough steps, and they leave
alone every register that the routine does not clobber. -/
theorem function_runs_like_blocks (hlines : p.lines.length < 2 ^ 32)
    (haddressed : p.isAddressed = true) (hd : (p.decompile o).1 = .ok d)
    (hfailures : d.failures = []) (hnames : (d.functions.map (·.name)).Nodup)
    (hr : p.HasRoutine o g rs r) (hfaithful : ∀ q ∈ rs.all, (Layout.ofRoutine g q).IsFaithful)
    {blocks depth : Nat} (hdepth : depth ≤ maxCallDepth) {core core' : Core}
    (hrun : Setting.follow ⟨g, rs, p.work?⟩ blocks depth r core = .ok core')
    (harguments : ∀ q ∈ r.inputs, arguments.get q = some (core.cpu.register q)) :
    (∃ steps, ∀ limit, steps ≤ limit →
      Evaluator.call ⟨d.functions, limit⟩ r.name arguments core.cpu.memory =
        (.ok (r.outputs.toList.map fun q => (q, core'.cpu.register q)), steps, core'.cpu.memory)) ∧
    ∀ q, q ∉ r.clobbers → core'.cpu.register q = core.cpu.register q := by
  cases hr.decompile_eq.symm.trans hd
  have htree : (p.trees g rs).run (blocks + 1) maxCallDepth r core = .ok core' :=
    (hr.le_trees haddressed).run (Nat.le_refl _) hdepth
      (Setting.run_of_follow hr.separate.entry_mem hfaithful hr.mem_all hrun)
  exact ⟨hr.exists_steps hlines (Decompilation.nodup_names hfailures hnames) hfailures harguments
      htree,
    fun q => hr.keepsRegisters_run _ _ hr.atEntry?_entry htree q⟩

/-- The trees of the countdown are faithful, and its blocks run to the end. -/
example :
    (∀ q ∈ doublingCountdown.routines.all,
      (Layout.ofRoutine doublingCountdown.graph q).BranchesHaveExits ∧
        (Layout.ofRoutine doublingCountdown.graph q).KeepsEdges
          (Layout.ofRoutine doublingCountdown.graph q).arrangement) ∧
      ((Setting.follow ⟨doublingCountdown.graph, doublingCountdown.routines,
        doublingCountdown.work?⟩ 5 2 doublingCountdown.first atStart).toOption.map (·.cpu.a)) =
          some 94 := by
  decide +kernel

end Lift6502
