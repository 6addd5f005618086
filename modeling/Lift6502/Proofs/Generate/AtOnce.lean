import Lift6502.Proofs.Generate.Simulation

/-!
# Assignments at once

Every variable gets the value that its right side had before all of the assignments, also where
variables are exchanged.
-/

namespace Lift6502

open Expression Gen

variable (p : Progress) (assignments : List (Variable × Expression))

theorem exists_yields_go (assigned : List Variable) :
    ∃ pending p', Yields (assignAtOnce.go assigned assignments) p pending p' := by
  induction assignments generalizing assigned p with
  | nil => exact ⟨[], p, rfl⟩
  | cons a rest ih =>
    unfold assignAtOnce.go
    have hvalue : ∃ e p', Yields (if a.2.mentionsOneOf assigned then keepInTemp a.2 else pure a.2) p e p' := by
      split
      · exact ⟨_, _, yields_keepInTemp.2 ⟨rfl, rfl⟩⟩
      · exact ⟨_, _, rfl⟩
    obtain ⟨e, p1, hvalue⟩ := hvalue
    obtain ⟨later, p2, hlater⟩ := ih p1 (assigned ++ [a.1])
    exact ⟨_, _, Yields.bind_iff.2 ⟨e, p1, hvalue, Yields.bind_pure_iff.2 ⟨later, hlater, rfl⟩⟩⟩

theorem exists_yields_assignAtOnce : ∃ p', Yields (assignAtOnce assignments) p () p' := by
  obtain ⟨pending, p1, hgo⟩ := exists_yields_go p assignments []
  exact ⟨_, Yields.bind_iff.2 ⟨pending, p1, hgo, yields_emitAll.2 rfl⟩⟩

/-- Assignments at once to different variables, none of them a temporary, are emitted as statements
that run. Each variable then has the value that its right side had before, and besides these
variables and new temporaries none has changed. -/
theorem assignAtOnce_simultaneous (functions : List FunctionDef) (depth : Nat) (function : String)
    (σ : Scene) (hdistinct : (assignments.map (·.1)).Nodup)
    (htargets : ∀ a ∈ assignments, ∀ id, a.1 ≠ .temp id)
    (hvalues : ∀ a ∈ assignments, ∃ w, a.2.StandsFor function σ p.temps w) :
    ∃ emitted p' env',
      Yields (assignAtOnce assignments) p () p' ∧ p'.out.toList = p.out.toList ++ emitted ∧
      (∃ cost, ∀ limit steps, steps + cost ≤ limit →
        (Evaluator.execAll { functions, limit } (Evaluator.invoke { functions, limit } depth)
          function emitted).run.run ⟨σ.env, σ.memory, steps⟩ =
            (.ok .normal, ⟨env', σ.memory, steps + cost⟩)) ∧
      (∀ a ∈ assignments, ∀ w, a.2.eval function σ.env σ.memory = .ok w → env'.get? a.1 = some w) ∧
      ∀ v ∉ assignments.map (·.1), (∀ id, v = .temp id → id ≤ p.temps ∨ p'.temps < id) →
        env'.get? v = σ.env.get? v := by
  -- No two right sides are for one variable, so each variable has one value to come.
  have hvalue : ∀ v, ∃ w, ∀ a ∈ assignments, a.1 = v → a.2.StandsFor function σ p.temps w := by
    intro v
    by_cases hv : ∃ a ∈ assignments, a.1 = v
    · obtain ⟨a, ha, rfl⟩ := hv
      obtain ⟨w, hw⟩ := hvalues a ha
      exact ⟨w, fun b hb hab => by rwa [List.inj_on_of_nodup_map hdistinct hb ha hab]⟩
    · exact ⟨0, fun a ha hav => absurd ⟨a, ha, hav⟩ hv⟩
  choose value hvalue using hvalue
  obtain ⟨p', hy⟩ := exists_yields_assignAtOnce p assignments
  obtain ⟨hmore, ⟨env', memory'⟩, hrun, rfl, hnew, hold, hlater⟩ :=
    run_assignAtOnce Progress.untouched
    (H := ⟨0, Evaluator.callUntimed functions 0 depth, function⟩)
    (fun a ha => ⟨htargets a ha, standsFor_iff.1 (hvalue a.1 a ha rfl)⟩) hy
  refine ⟨p.emitted p', p', env', hy, Progress.out_eq_append_emitted hmore.out,
    exists_cost_execAll hrun, ?_, ?_⟩
  · intro a ha w hw
    rw [hnew a.1 (List.mem_map_of_mem ha)]
    exact congrArg some (Except.ok.inj ((hvalue a.1 a ha rfl).value.symm.trans hw))
  · intro v hv htemp
    by_cases hlate : ∃ id, v = .temp id ∧ p'.temps < id
    · obtain ⟨id, rfl, hid⟩ := hlate
      exact hlater id hid
    · refine hold v (isIssued_untouched.2 fun id hid => ?_) hv
      exact (htemp id hid).resolve_right fun hafter => hlate ⟨id, hid, hafter⟩

def exchange : List (Variable × Expression) :=
  [(.merge .a 1, .var (.merge .x 2)), (.merge .x 2, .var (.merge .a 1))]

def exchangeScene : Scene :=
  ⟨(({} : Environment).set (.merge .a 1) 10).set (.merge .x 2) 20, Memory.zero addressCount⟩

theorem assignAtOnce_exchange :
    (exchange.map (·.1)).Nodup ∧ (∀ a ∈ exchange, ∀ id, a.1 ≠ .temp id) ∧
    (∀ a ∈ exchange, ∃ w, a.2.StandsFor "swap" exchangeScene 4 w) ∧
    ∃ p' env', Yields (assignAtOnce exchange) { temps := 4 } () p' ∧
      (∃ cost, ∀ limit steps, steps + cost ≤ limit →
        (Evaluator.execAll ⟨[], limit⟩ (Evaluator.invoke ⟨[], limit⟩ 0) "swap"
          p'.out.toList).run.run
          (exchangeScene.at steps) = (.ok .normal, ⟨env', exchangeScene.memory, steps + cost⟩)) ∧
      env'.get? (.merge .a 1) = some 20 ∧ env'.get? (.merge .x 2) = some 10 := by
  have ha : (Expression.var (.merge .a 1)).eval "swap" exchangeScene.env exchangeScene.memory =
      .ok 10 := by
    simp [eval, exchangeScene, Environment.get?_set]
  have hx : (Expression.var (.merge .x 2)).eval "swap" exchangeScene.env exchangeScene.memory =
      .ok 20 := by
    simp [eval, exchangeScene, Environment.get?_set]
  have hdistinct : (exchange.map (·.1)).Nodup := by decide
  have htargets : ∀ a ∈ exchange, ∀ id, a.1 ≠ .temp id := by simp [exchange]
  have hvalues : ∀ a ∈ exchange, ∃ w, a.2.StandsFor "swap" exchangeScene 4 w := by
    simp only [exchange, List.forall_mem_cons]
    exact ⟨⟨20, rfl, by simp [reads], hx⟩, ⟨10, rfl, by simp [reads], ha⟩, by simp⟩
  obtain ⟨emitted, p', env', hy, hout, hrun, hnew, -⟩ :=
    assignAtOnce_simultaneous { temps := 4 } exchange [] 0 "swap" exchangeScene hdistinct
      htargets hvalues
  obtain rfl : p'.out.toList = emitted := hout
  exact ⟨hdistinct, htargets, hvalues, p', env', hy, hrun,
    hnew _ List.mem_cons_self 20 hx, hnew _ (List.mem_cons_of_mem _ List.mem_cons_self) 10 ha⟩

end Lift6502
