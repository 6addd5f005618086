import Lift6502.Proofs.Generate.Soundness

/-!
# The inlining threshold

The threshold does not change what a function does, but values pushed on two paths are compared as
they are written, so it can decide whether a routine has code.
-/

namespace Lift6502

open Evaluator

theorem Program.decompile_threshold {p : Program} {o : Options} (m n : Nat) {d : Decompilation}
    (h : (p.decompile { o with maxInlineExpression := m }).1 = .ok d) :
    (d = {} ∧ (p.decompile { o with maxInlineExpression := n }).1 = .ok {}) ∨
    ∃ g rs, (∀ r ∈ rs.all, p.HasRoutine { o with maxInlineExpression := m } g rs r ∧
        p.HasRoutine { o with maxInlineExpression := n } g rs r) ∧
      d = (rs.decompile p g { o with maxInlineExpression := m }).1 ∧
      (p.decompile { o with maxInlineExpression := n }).1 =
        .ok (rs.decompile p g { o with maxInlineExpression := n }).1 := by
  -- The roots do not depend on the threshold, and neither does the graph.
  have hroots : ∀ k g, Options.roots { o with maxInlineExpression := k } g = o.roots g :=
    fun _ _ => rfl
  unfold Program.decompile at h ⊢
  split at h
  · cases h
  · next g _ hgraph =>
    simp only [hroots] at h ⊢
    split at h
    · cases h
    · next hnil =>
      cases h
      exact .inl ⟨rfl, rfl⟩
    · next roots hne heq =>
      cases h
      have hroutine : ∀ k, ∀ r ∈ (Routines.ofGraph g roots).1.all,
          p.HasRoutine { o with maxInlineExpression := k } g (Routines.ofGraph g roots).1 r :=
        fun k r hr => ⟨roots, by rw [hgraph], heq, fun hnil => hne hnil, rfl, hr⟩
      exact .inr ⟨g, _, fun r hr => ⟨hroutine m r hr, hroutine n r hr⟩, rfl, rfl⟩

theorem calls_agree {p : Program} {o1 o2 : Options} {g : Graph} {rs : Routines} {r : Routine}
    (hlines : p.lines.length < 2 ^ 32) (h1 : p.HasRoutine o1 g rs r) (h2 : p.HasRoutine o2 g rs r)
    (hnames1 : (rs.decompile p g o1).1.names.Nodup) (hnames2 : (rs.decompile p g o2).1.names.Nodup)
    {arguments : PerRegister (Option UInt8)}
    (harguments : ∀ q ∈ r.inputs, (arguments.get q).isSome = true) (memory : Memory addressCount)
    (limit1 limit2 : Nat) :
    (∃ e, (rs.decompile p g o1).1.BreaksOff limit1 e ∧
      (Evaluator.call ⟨(rs.decompile p g o1).1.functions, limit1⟩ r.name arguments memory).1 =
        .error e) ∨
    (∃ e, (rs.decompile p g o2).1.BreaksOff limit2 e ∧
      (Evaluator.call ⟨(rs.decompile p g o2).1.functions, limit2⟩ r.name arguments memory).1 =
        .error e) ∨
    ∃ values memory',
      (∃ steps, Evaluator.call ⟨(rs.decompile p g o1).1.functions, limit1⟩ r.name arguments memory =
        (.ok values, steps, memory')) ∧
      ∃ steps, Evaluator.call ⟨(rs.decompile p g o2).1.functions, limit2⟩ r.name arguments memory =
        (.ok values, steps, memory') := by
  have hcore : ∀ q ∈ r.inputs,
      arguments.get q = some ((Core.given arguments memory).cpu.register q) :=
    fun q hq => Core.get_of_given memory (harguments q hq)
  rcases h1.call_cases hlines hnames1 hcore limit1 with hbreaks | ⟨core1, steps1, hrun1, hcall1⟩
  · exact .inl hbreaks
  rcases h2.call_cases hlines hnames2 hcore limit2 with hbreaks | ⟨core2, steps2, hrun2, hcall2⟩
  · exact .inr (.inl hbreaks)
  -- Both functions run like the one tree.
  have hlong1 := (Setting.Le.refl _).run (Nat.le_max_left (limit1 + 1) (limit2 + 1))
    (Nat.le_refl maxCallDepth) hrun1
  have hlong2 := (Setting.Le.refl _).run (Nat.le_max_right (limit1 + 1) (limit2 + 1))
    (Nat.le_refl maxCallDepth) hrun2
  cases hlong1.symm.trans hlong2
  exact .inr (.inr ⟨_, _, ⟨steps1, hcall1⟩, steps2, hcall2⟩)

/-- The threshold does not change what functions do. With another threshold a program still has the
same routines; and a function that both times has code takes the same inputs, gives the same
outputs, and for the same arguments and memory both versions return the same values and leave the
same memory, unless one of them reaches a limit or a routine that has no code. -/
theorem threshold_keeps_meaning (p : Program) (o : Options) (m n : Nat) (d : Decompilation)
    (hlines : p.lines.length < 2 ^ 32)
    (hd : (p.decompile { o with maxInlineExpression := m }).1 = .ok d) (hnames : d.names.Nodup) :
    ∃ d', (p.decompile { o with maxInlineExpression := n }).1 = .ok d' ∧ d'.names.Perm d.names ∧
      ∀ f ∈ d.functions, ∀ f' ∈ d'.functions, f'.name = f.name →
        f'.inputs = f.inputs ∧ f'.outputs = f.outputs ∧
        ∀ arguments : PerRegister (Option UInt8),
          (∀ q ∈ f.inputs, (arguments.get q).isSome = true) →
        ∀ (memory : Memory addressCount) (limit limit' : Nat),
          (∃ e, d.BreaksOff limit e ∧
            (Evaluator.call ⟨d.functions, limit⟩ f.name arguments memory).1 = .error e) ∨
          (∃ e, d'.BreaksOff limit' e ∧
            (Evaluator.call ⟨d'.functions, limit'⟩ f.name arguments memory).1 = .error e) ∨
          ∃ values memory',
            (∃ steps, Evaluator.call ⟨d.functions, limit⟩ f.name arguments memory =
              (.ok values, steps, memory')) ∧
            ∃ steps, Evaluator.call ⟨d'.functions, limit'⟩ f.name arguments memory =
              (.ok values, steps, memory') := by
  rcases Program.decompile_threshold m n hd with ⟨rfl, hd'⟩ | ⟨g, rs, hroutines, rfl, hd'⟩
  · exact ⟨{}, hd', .refl _, fun f hf => absurd hf List.not_mem_nil⟩
  have hperm := (Routines.perm_names rs p g { o with maxInlineExpression := n }).trans
    (Routines.perm_names rs p g { o with maxInlineExpression := m }).symm
  refine ⟨_, hd', hperm, fun f hf f' hf' hname => ?_⟩
  obtain ⟨r, hr, hcode⟩ := Routines.exists_of_mem_functions hf
  obtain ⟨r', hr', hcode'⟩ := Routines.exists_of_mem_functions hf'
  obtain ⟨hnamed, hinputs, houtputs, -⟩ := Routine.yields_of_decompile hcode
  obtain ⟨hnamed', hinputs', houtputs', -⟩ := Routine.yields_of_decompile hcode'
  -- The name says which routine it is.
  have hnodup := (Routines.perm_names rs p g { o with maxInlineExpression := m }).nodup_iff.1 hnames
  obtain rfl : r' = r := List.inj_on_of_nodup_map hnodup hr' hr (by rw [← hnamed', ← hnamed, hname])
  refine ⟨by rw [hinputs, hinputs'], by rw [houtputs, houtputs'],
    fun arguments harguments memory limit limit' => ?_⟩
  rw [hnamed]
  exact calls_agree hlines (hroutines r' hr).1 (hroutines r' hr).2 hnames (hperm.nodup_iff.2 hnames)
    (fun q hq => harguments q (hinputs ▸ RegisterSet.mem_toList.2 hq)) memory limit limit'

namespace doublingCountdown

def stepwise : Decompilation :=
  (doublingCountdown.routines.decompile doublingCountdown doublingCountdown.graph
  { maxInlineExpression := 0 }).1

theorem decompile_stepwise : (doublingCountdown.decompile { maxInlineExpression := 0 }).1 =
    .ok stepwise :=
  Program.HasRoutine.decompile_eq hasRoutine

end doublingCountdown

open doublingCountdown

/-- The countdown with a temporary for every value: a longer text, and the same meaning. -/
theorem doublingCountdown_threshold :
    ∃ f ∈ code.functions, ∃ f' ∈ stepwise.functions,
      f.name = "Start" ∧ f'.name = "Start" ∧ f.statements.length < f'.statements.length ∧
      f'.inputs = f.inputs ∧ f'.outputs = f.outputs ∧
      ((∃ e, code.BreaksOff 50 e ∧
          (Evaluator.call ⟨code.functions, 50⟩ f.name ⟨some 5, none, none⟩
            (.replicate addressCount 0)).1 = .error e) ∨
        (∃ e, stepwise.BreaksOff 90 e ∧
          (Evaluator.call ⟨stepwise.functions, 90⟩ f.name ⟨some 5, none, none⟩
            (.replicate addressCount 0)).1 = .error e) ∨
        ∃ values memory',
          (∃ steps, Evaluator.call ⟨code.functions, 50⟩ f.name ⟨some 5, none, none⟩
            (.replicate addressCount 0) = (.ok values, steps, memory')) ∧
          ∃ steps, Evaluator.call ⟨stepwise.functions, 90⟩ f.name ⟨some 5, none, none⟩
            (.replicate addressCount 0) = (.ok values, steps, memory')) := by
  have hnames : code.names.Nodup := by decide +kernel
  obtain ⟨d', hd', -, hsame⟩ := threshold_keeps_meaning doublingCountdown {} 12 0 code
    (by decide) decompile_eq hnames
  obtain rfl : stepwise = d' := Except.ok.inj (decompile_stepwise.symm.trans hd')
  have hshort : (code.functions.head?.map fun f => (f.name, f.inputs, f.statements.length)) =
      some ("Start", [.a], 17) := by decide +kernel
  have hlong : (stepwise.functions.head?.map fun f => (f.name, f.statements.length)) =
      some ("Start", 24) := by decide +kernel
  obtain ⟨f, hf, hshape⟩ := Option.map_eq_some_iff.1 hshort
  obtain ⟨f', hf', hshape'⟩ := Option.map_eq_some_iff.1 hlong
  rw [Prod.mk.injEq, Prod.mk.injEq] at hshape
  rw [Prod.mk.injEq] at hshape'
  obtain ⟨hname, hinputs, hcount⟩ := hshape
  obtain ⟨hname', hcount'⟩ := hshape'
  have hmem := List.mem_of_mem_head? hf
  have hmem' := List.mem_of_mem_head? hf'
  obtain ⟨hsameInputs, houtputs, hcalls⟩ := hsame f hmem f' hmem' (hname'.trans hname.symm)
  refine ⟨f, hmem, f', hmem', hname, hname', by omega, hsameInputs, houtputs, ?_⟩
  refine hcalls ⟨some 5, none, none⟩ (fun q hq => ?_) (.replicate addressCount 0) 50 90
  rw [hinputs, List.mem_singleton] at hq
  rw [hq]
  rfl

/-- A loop that pulls a byte and pushes it again, with the same value as before it. -/
def pushedAgain : Program :=
  Draft.start 0x8000
    |>.label "Start" |>.implied .txa |>.immediate .and 0x0f |>.implied .pha
    |>.label "Loop" |>.implied .pla |>.implied .txa |>.immediate .and 0x0f |>.implied .pha
      |>.implied .dey |>.atLabel .bne "Loop" |>.implied .pla |>.implied .rts
    |>.program

namespace pushedAgain

def code (n : Nat) : Decompilation :=
  (pushedAgain.routines.decompile pushedAgain pushedAgain.graph { maxInlineExpression := n }).1

theorem decompile_eq (n : Nat) :
    (pushedAgain.decompile { maxInlineExpression := n }).1 = .ok (code n) := by
  have hroutine : pushedAgain.HasRoutine { maxInlineExpression := n } pushedAgain.graph
      pushedAgain.routines pushedAgain.first := ⟨[0], rfl, rfl, by decide, rfl, List.mem_cons_self⟩
  exact hroutine.decompile_eq

end pushedAgain

/-- With a threshold of 3 the value stays an expression, which is the same on both ways to the loop;
with a threshold of 1 it has two temporaries, and the routine has no code. -/
theorem pushedAgain_depends_on_threshold :
    ∃ d d', (pushedAgain.decompile { maxInlineExpression := 3 }).1 = .ok d ∧
      (pushedAgain.decompile { maxInlineExpression := 1 }).1 = .ok d' ∧
      d.functions.map (·.name) = ["Start"] ∧ d.failures = [] ∧
      d'.functions.map (·.name) = [] ∧ d'.failures.map (·.routine) = ["Start"] := by
  have hlarge : (pushedAgain.code 3).functions.map (·.name) = ["Start"] ∧
      (pushedAgain.code 3).failures = [] := by
    decide +kernel
  have hsmall : (pushedAgain.code 1).functions.map (·.name) = [] ∧
      (pushedAgain.code 1).failures.map (·.routine) = ["Start"] := by decide +kernel
  exact ⟨_, _, pushedAgain.decompile_eq 3, pushedAgain.decompile_eq 1, hlarge.1, hlarge.2, hsmall⟩

end Lift6502
