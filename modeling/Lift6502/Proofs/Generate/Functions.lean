import Lift6502.Proofs.Generate.Body
import Lift6502.Proofs.Generate.Registers
import Lift6502.Proofs.Run.Timed
import Lift6502.Proofs.Tree.Monotone

/-!
# Functions run like routines

By induction on how deep calls may be nested, every function does for its caller what the tree of
its routine does.
-/

namespace Lift6502

open Evaluator Routine

def Decompilation.names (d : Decompilation) : List String :=
  d.functions.map (·.name) ++ d.failures.map (·.routine)

def Routine.hasCode (r : Routine) (p : Program) (g : Graph) (rs : Routines) (o : Options) : Bool :=
  (r.decompile p g rs o).1.toOption.isSome

variable {f : FunctionDef}

section

variable {r : Routine} {p : Program} {g : Graph} {rs : Routines} {o : Options}

theorem Routine.hasCode_of_ok (h : (r.decompile p g rs o).1 = .ok f) :
    r.hasCode p g rs o = true := by
  unfold hasCode
  rw [h]
  rfl

theorem Routine.hasCode_of_error {e : GenerationError} (h : (r.decompile p g rs o).1 = .error e) :
    r.hasCode p g rs o = false := by
  unfold hasCode
  rw [h]
  rfl

theorem Routine.yields_of_decompile (h : (r.decompile p g rs o).1 = .ok f) :
    f.name = r.name ∧ f.inputs = r.inputs.toList ∧ f.outputs = r.outputs.toList ∧
      ∃ p', Yields ((r.generator p g rs o).body (Layout.ofRoutine g r).tree.1) {} () p' ∧
        f.body = p'.out.toList := by
  have hgenerate : ((r.generator p g rs o).generate (Layout.ofRoutine g r).tree.1).1 = .ok f := h
  unfold Generator.generate at hgenerate
  split at hgenerate
  · next p' hrun =>
    cases hgenerate
    exact ⟨rfl, rfl, rfl, p', hrun, rfl⟩
  · cases hgenerate

end

namespace Routines

variable {rs : Routines} {p : Program} {g : Graph} {o : Options} {r : Routine}

theorem exists_of_mem_functions (h : f ∈ (rs.decompile p g o).1.functions) :
    ∃ r ∈ rs.all, (r.decompile p g rs o).1 = .ok f := by
  obtain ⟨r, hr, hcode⟩ : ∃ r ∈ rs.all, (r.decompile p g rs o).1.toOption = some f := by
    unfold Routines.decompile at h
    simpa using h
  refine ⟨r, hr, ?_⟩
  rcases hresult : (r.decompile p g rs o).1 with e | f' <;> rw [hresult] at hcode <;> cases hcode
  rfl

theorem mem_functions_of_decompile (hr : r ∈ rs.all)
    (h : (r.decompile p g rs o).1 = .ok f) : f ∈ (rs.decompile p g o).1.functions := by
  refine List.mem_filterMap.2 ⟨_, List.mem_map.2 ⟨r, hr, rfl⟩, ?_⟩
  simp only [h]
  rfl

theorem perm_names (rs : Routines) (p : Program) (g : Graph) (o : Options) :
    (rs.decompile p g o).1.names.Perm (rs.all.map name) := by
  unfold Decompilation.names Routines.decompile
  simp only [List.filterMap_map]
  induction rs.all with
  | nil => exact .nil
  | cons r rest ih =>
    rcases hresult : (r.decompile p g rs o).1 with e | f
    · simp only [List.filterMap_cons, Function.comp_apply, hresult, Except.toOption, List.map_cons]
      exact List.perm_middle.trans (ih.cons r.name)
    · simp only [List.filterMap_cons, Function.comp_apply, hresult, Except.toOption, List.map_cons,
        List.cons_append, (yields_of_decompile hresult).1]
      exact ih.cons r.name

theorem function?_decompile (hnames : (rs.decompile p g o).1.names.Nodup) (hr : r ∈ rs.all)
    (limit : Nat) :
    Evaluator.function? ⟨(rs.decompile p g o).1.functions, limit⟩ r.name =
      (r.decompile p g rs o).1.toOption := by
  have hnodup := (perm_names rs p g o).nodup_iff.1 hnames
  -- Only the code of the routine has its name.
  have hunique : ∀ f ∈ (rs.decompile p g o).1.functions, f.name = r.name →
      (r.decompile p g rs o).1.toOption = some f := by
    intro f hf hname
    obtain ⟨q, hq, hcode⟩ := exists_of_mem_functions hf
    have heq : q = r := List.inj_on_of_nodup_map hnodup hq hr
      ((yields_of_decompile hcode).1.symm.trans hname)
    rw [← heq, hcode]
    rfl
  show (rs.decompile p g o).1.functions.reverse.find? (fun f => f.name = r.name) = _
  rcases hfind : (rs.decompile p g o).1.functions.reverse.find?
    (fun f => f.name = r.name) with _ | f
  · rcases hresult : (r.decompile p g rs o).1 with e | f
    · exact hfind
    · have hmem := mem_functions_of_decompile hr hresult
      have hother := List.find?_eq_none.1 hfind f (List.mem_reverse.2 hmem)
      exact absurd (decide_eq_true (yields_of_decompile hresult).1) hother
  · have hname : f.name = r.name := by simpa using List.find?_some hfind
    have hmem := List.mem_reverse.1 (List.mem_of_find?_eq_some hfind)
    exact hfind.trans (hunique f hmem hname).symm

end Routines

/-! ## The start of a function -/

theorem Evaluator.inputs_eq (name : String) {arguments : RegisterValues} (value : Register → UInt32)
    {rs : List Register} (h : ∀ r ∈ rs, arguments.get r = some (value r)) (env : Environment) :
    ∃ env', inputs name arguments env rs = .ok env' ∧
      ∀ r, env'.get? (.input r) = if r ∈ rs then some (value r) else env.get? (.input r) := by
  induction rs generalizing env with
  | nil => exact ⟨env, rfl, fun r => rfl⟩
  | cons q rest ih =>
    obtain ⟨env', henv, hget⟩ := ih (fun r hr => h r (List.mem_cons_of_mem q hr))
      (env.set (.input q) (value q))
    refine ⟨env', ?_, fun r => ?_⟩
    · rw [inputs, h q List.mem_cons_self]
      exact henv
    · rw [hget, Environment.get?_set]
      by_cases hrest : r ∈ rest
      · rw [if_pos hrest, if_pos (List.mem_cons_of_mem q hrest)]
      · rw [if_neg hrest]
        by_cases hr : r = q
        · rw [if_pos (by rw [hr]), if_pos (by rw [hr]; exact List.mem_cons_self), hr]
        · rw [if_neg (fun heq => hr (Variable.input.inj heq)),
            if_neg (fun hmem => (List.mem_cons.1 hmem).elim hr hrest)]

theorem matches_entry {inputs : RegisterSet} {core : Core} {env : Environment}
    (h : ∀ r ∈ inputs, env.get? (.input r) = some (core.cpu.register r).toUInt32) :
    Matches Progress.issue core core.stack (.entry inputs) {} ⟨env, core.cpu.memory⟩ := by
  refine ⟨⟨fun l => ?_, rfl⟩, rfl⟩
  unfold SymbolicState.entry SymbolicState.get
  rw [PerLocation.get_ofFn]
  cases l with
  | flag f => exact Binding.holds_unresolved _
  | register r =>
    by_cases hr : r ∈ inputs
    · simp only [if_pos hr]
      exact Binding.holds_ofVariable (h r hr)
    · simp only [if_neg hr]
      exact Binding.holds_unresolved _

def Program.trees (p : Program) (g : Graph) (rs : Routines) : Setting := ⟨g, rs, p.codeWork?⟩

def Program.runCoded (p : Program) (g : Graph) (rs : Routines) (o : Options) (fuel depth : Nat) :
    Routine → Core → Except Stop Core :=
  (p.trees g rs).runCoded (fun q => q.hasCode p g rs o) fuel depth

section

variable {p : Program} {g : Graph} {rs : Routines} {o : Options} {r : Routine} {fuel depth : Nat}
  {core : Core}

theorem Program.runCoded_of_missing (h : r.hasCode p g rs o = false) :
    p.runCoded g rs o fuel depth r core = .error (.missing r.name) := by
  unfold Program.runCoded
  cases depth <;> rw [Setting.runCoded, h] <;> rfl

theorem Program.runCoded_zero (h : r.hasCode p g rs o = true) :
    p.runCoded g rs o fuel 0 r core = .error .depth := by
  unfold Program.runCoded
  rw [Setting.runCoded, h]
  rfl

theorem Program.runCoded_succ (h : r.hasCode p g rs o = true) :
    p.runCoded g rs o fuel (depth + 1) r core =
      (p.trees g rs).enter (p.runCoded g rs o fuel depth) fuel r core := by
  unfold Program.runCoded
  rw [Setting.runCoded, if_pos h]

end

/-- A routine inside which `depth` more calls may be nested, as a tree and as a function. -/
def Routine.stage (r : Routine) (p : Program) (g : Graph) (rs : Routines) (o : Options)
    (fuel depth : Nat) (base : List UInt8) : Stage where
  generator := r.generator p g rs o
  host := ⟨fuel, callUntimed (rs.decompile p g o).1.functions fuel depth, r.name⟩
  call := p.runCoded g rs o fuel depth
  lacks := fun name => ∃ q ∈ rs.all, q.hasCode p g rs o = false ∧ q.name = name
  base := base

namespace Program.HasRoutine

variable {p : Program} {o : Options} {g : Graph} {rs : Routines} {r caller : Routine} {fuel : Nat}
  {core : Core} {passed : RegisterValues} {base : List UInt8}

variable (h : p.HasRoutine o g rs r)

include h

theorem lt_of_mem_blocks (hsize : p.lines.length < 2 ^ 32) {b : BlockId} (hb : b ∈ r.blocks) :
    b < 2 ^ 32 := by
  obtain ⟨roots, hg, hroots, hne, rfl, hr⟩ := h
  cases graph_eq_of_ofProgram hg
  have hclosed :=
    Routines.closed_ofGraph (Build.isClosed_ofProgram p) hne (Options.lt_size_of_roots hroots)
  have hbound : b < (Build.ofProgram p).graph.size := hclosed.bounded r hr b hb
  exact Nat.lt_of_lt_of_le hbound ((Build.size_ofProgram_le p).trans hsize)

section

variable (hnames : (rs.decompile p g o).1.names.Nodup)

include hnames

theorem function?_eq (limit : Nat) :
    Evaluator.function? ⟨(rs.decompile p g o).1.functions, limit⟩ r.name =
      (r.decompile p g rs o).1.toOption :=
  Routines.function?_decompile hnames h.mem_all limit

theorem callMirrors_missing (hcode : r.hasCode p g rs o = false) {depth : Nat} :
    (caller.stage p g rs o fuel depth base).CallMirrors r core passed
      (p.runCoded g rs o fuel depth r core) := by
  have hfunction : Evaluator.function? ⟨(rs.decompile p g o).1.functions, fuel⟩ r.name = none := by
    rw [h.function?_eq hnames]
    exact Option.isNone_iff_eq_none.1 (Option.isSome_eq_false_iff.1 hcode)
  have hlacks : ∃ q ∈ rs.all, q.hasCode p g rs o = false ∧ q.name = r.name :=
    ⟨r, h.mem_all, hcode, rfl⟩
  rw [Program.runCoded_of_missing hcode]
  refine ⟨_, ⟨hlacks, rfl⟩, ?_⟩
  show callUntimed _ _ _ _ _ _ = _
  -- The name is looked up before the depth is checked.
  cases depth <;> rw [callUntimed, hfunction]

theorem callMirrors_zero (hf : (r.decompile p g rs o).1 = .ok f) :
    (caller.stage p g rs o fuel 0 base).CallMirrors r core passed
    (p.runCoded g rs o fuel 0 r core) := by
  rw [Program.runCoded_zero (hasCode_of_ok hf)]
  refine ⟨_, rfl, ?_⟩
  show callUntimed _ _ _ _ _ _ = _
  rw [callUntimed, h.function?_eq hnames, hf]
  rfl

end

theorem callMirrors_enter (hsize : p.lines.length < 2 ^ 32)
    (hnames : (rs.decompile p g o).1.names.Nodup) (hf : (r.decompile p g rs o).1 = .ok f)
    {depth : Nat} (hcalls : (r.stage p g rs o fuel depth core.stack).CallsMirror)
    (hpassed : ∀ q ∈ r.inputs, passed.get q = some (core.cpu.register q).toUInt32) :
    (caller.stage p g rs o fuel (depth + 1) base).CallMirrors r core passed
      (p.runCoded g rs o fuel (depth + 1) r core) := by
  obtain ⟨-, hinputs, -, p', hyields, hbody⟩ := yields_of_decompile hf
  obtain ⟨env, henv, hget⟩ := inputs_eq r.name (fun q => (core.cpu.register q).toUInt32)
    (fun q hq => hpassed q (RegisterSet.mem_toList.1 (hinputs ▸ hq))) {}
  have hmatches : Matches Progress.issue core core.stack (.entry r.inputs) {}
      ⟨env, core.cpu.memory⟩ :=
    matches_entry fun q hq => by rw [hget, hinputs, if_pos (RegisterSet.mem_toList.2 hq)]
  -- The body of the function ends like the tree, which starts on the stack of the caller.
  have hends := h.ends_body (fun b hb => h.lt_of_mem_blocks hsize hb)
    (S := r.stage p g rs o fuel depth core.stack) rfl hcalls hyields hmatches
  rw [← hbody] at hends
  have hends : (r.stage p g rs o fuel depth core.stack).Ends
      (p.runCoded g rs o fuel (depth + 1) r core)
      ((r.stage p g rs o fuel depth core.stack).host.run f.body ⟨env, core.cpu.memory⟩) := by
    rw [Program.runCoded_succ (hasCode_of_ok hf)]
    exact hends
  -- What the function gives back is what its body comes to.
  obtain ⟨finish, hcaller, hfinish⟩ : ∃ finish : Control × Scene →
      Except EvalError (RegisterValues × Memory addressCount),
      callUntimed (rs.decompile p g o).1.functions fuel (depth + 1) r.name passed core.cpu.memory =
        ((r.stage p g rs o fuel depth core.stack).host.run f.body ⟨env, core.cpu.memory⟩ >>=
          finish) ∧
      ∀ values s, finish (.returned values, s) = .ok (values, s.memory) := by
    rw [callUntimed, h.function?_eq hnames, hf]
    show ∃ finish, (inputs r.name passed {} f.inputs >>= _) = _ ∧ _
    rw [henv]
    exact ⟨_, rfl, fun values s => rfl⟩
  rcases hrun : p.runCoded g rs o fuel (depth + 1) r core with e | core' <;> rw [hrun] at hends
  · obtain ⟨e', he', hr⟩ := hends
    refine ⟨e', he', ?_⟩
    show callUntimed _ _ _ _ _ _ = _
    rw [hcaller, hr]
    rfl
  · obtain ⟨hstack, σ', hr, hmemory⟩ := hends
    -- The run is one of the trees, whatever has code.
    have hkept : ∀ q, q ∉ r.clobbers → core'.cpu.register q = core.cpu.register q := fun q hq =>
      h.register_enter (S := p.trees g rs) rfl rfl rfl (h.keepsRegisters_run fuel depth) hq
        (Setting.run_of_runCoded hrun)
    refine ⟨hstack, hkept, ?_⟩
    show callUntimed _ _ _ _ _ _ = _
    rw [hcaller, hr, ← hmemory]
    exact hfinish _ _

theorem callsMirror (hsize : p.lines.length < 2 ^ 32) (hnames : (rs.decompile p g o).1.names.Nodup)
    (fuel depth : Nat) (caller : Routine) (base : List UInt8) :
    (caller.stage p g rs o fuel depth base).CallsMirror := by
  -- Induction on the depth: a function may call what is known to be right one level below.
  induction depth generalizing caller base with
  | zero =>
    intro entry callee core passed hcallee _
    have hroutine := h.of_atEntry? hcallee
    rcases hf : (callee.decompile p g rs o).1 with e | f
    · exact hroutine.callMirrors_missing hnames (hasCode_of_error hf)
    · exact hroutine.callMirrors_zero hnames hf
  | succ depth ih =>
    intro entry callee core passed hcallee hpassed
    have hroutine := h.of_atEntry? hcallee
    rcases hf : (callee.decompile p g rs o).1 with e | f
    · exact hroutine.callMirrors_missing hnames (hasCode_of_error hf)
    · exact hroutine.callMirrors_enter hsize hnames hf (ih callee core.stack) hpassed

end Program.HasRoutine

end Lift6502
