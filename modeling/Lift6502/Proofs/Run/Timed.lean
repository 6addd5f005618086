import Lift6502.Proofs.Run.Untimed

/-!
# Counting steps

A run that counts steps does what the one that does not count them does, as far as its limit allows
(`Agrees`).
-/

namespace Lift6502

open Evaluator

variable {α β : Type} {fuel : Nat} {s : Scene} {untimed : Scene → CodeRun}
  {m : Nat → Run addressCount α} {body : Nat → Run addressCount Control}
  {functions : List FunctionDef}

def Scene.at (s : Scene) (steps : Nat) : Machine addressCount := ⟨s.env, s.memory, steps⟩

/-- How a run that is at `steps` ends if it ends with `r` when steps are not counted. Nothing is
said about a loop that takes all of its passes. -/
def Shows (fuel steps : Nat) (run : Except EvalError α × Machine addressCount) :
    Except EvalError (α × Scene) → Prop
  | .ok (a, s') => run = (.ok a, s'.at steps)
  | .error e => run.1 = .error e ∨ e = .stepLimit fuel

/-- A run that costs some steps. If the limit does not allow them, it is reached. -/
def Costs (fuel cost limit steps : Nat) (m : Run addressCount α) (s : Scene)
    (r : Except EvalError (α × Scene)) : Prop :=
  if steps + cost ≤ limit then Shows fuel (steps + cost) (m.run.run (s.at steps)) r
  else (m.run.run (s.at steps)).1 = .error (.stepLimit limit)

/-- What a computation comes to under a limit, if it comes to `r` when steps are not counted.
That costs at least one step for every pass of a loop. -/
def Agrees (fuel : Nat) (m : Nat → Run addressCount α) (s : Scene)
    (r : Except EvalError (α × Scene)) : Prop :=
  ∃ cost, (r = .error (.stepLimit fuel) → fuel ≤ cost) ∧ ∀ limit steps, steps ≤ limit →
    Costs fuel cost limit steps (m limit) s r

namespace Costs

variable {cost limit steps : Nat} {m : Run addressCount α} {k : α → Run addressCount β}

theorem pure (a : α) (h : steps ≤ limit) : Costs fuel 0 limit steps (pure a) s (.ok (a, s)) := by
  rw [Costs, Nat.add_zero, if_pos h]
  rfl

theorem bind_error {e : EvalError} (h : Costs fuel cost limit steps m s (.error e)) :
    Costs fuel cost limit steps (m >>= k) s (.error e) := by
  unfold Costs at h ⊢
  split at h
  · next hcost =>
    rw [if_pos hcost]
    exact h.imp_left (run_bind_error · _)
  · next hcost =>
    rw [if_neg hcost]
    exact run_bind_error h _

theorem bind_ok {a : α} {s' : Scene} {r : Except EvalError (β × Scene)} {n : Nat}
    (h : Costs fuel cost limit steps m s (.ok (a, s')))
    (hk : steps + cost ≤ limit → Costs fuel n limit (steps + cost) (k a) s' r) :
    Costs fuel (cost + n) limit steps (m >>= k) s r := by
  unfold Costs at h hk ⊢
  split at h
  · next hcost =>
    rw [run_bind, show _ = _ from h, ← Nat.add_assoc]
    exact hk hcost
  · rw [if_neg (by omega)]
    exact run_bind_error h _

end Costs

namespace Agrees

theorem pure (a : α) : Agrees fuel (fun _ => pure a) s (.ok (a, s)) :=
  ⟨0, nofun, fun _ _ h => .pure a h⟩

theorem throw {e : EvalError} (he : e ≠ .stepLimit fuel) :
    Agrees fuel (fun _ => (throw e : Run addressCount α)) s (.error e) :=
  ⟨0, fun h => absurd (Except.error.inj h) he,
    fun limit steps h => by rw [Costs, if_pos (by omega)]; exact .inl rfl⟩

variable {k : Nat → α → Run addressCount β} {r : Except EvalError (α × Scene)}

theorem bind {f : α × Scene → Except EvalError (β × Scene)} (hm : Agrees fuel m s r)
    (hk : ∀ a s', r = .ok (a, s') → Agrees fuel (fun limit => k limit a) s' (f (a, s'))) :
    Agrees fuel (fun limit => m limit >>= k limit) s (r >>= f) := by
  obtain ⟨cost, hfuel, hm⟩ := hm
  rcases r with e | ⟨a, s1⟩
  · exact ⟨cost, fun he => hfuel (by cases he; rfl), fun limit steps hle =>
      (hm limit steps hle).bind_error⟩
  · obtain ⟨cost', hfuel', hk⟩ := hk a s1 rfl
    exact ⟨cost + cost', fun he => Nat.le_add_left_of_le (hfuel' he), fun limit steps hle =>
      (hm limit steps hle).bind_ok (hk limit _)⟩

theorem bindOk {a : α} {s' : Scene} {r : Except EvalError (β × Scene)}
    (hm : Agrees fuel m s (.ok (a, s'))) (hk : Agrees fuel (fun limit => k limit a) s' r) :
    Agrees fuel (fun limit => m limit >>= k limit) s r :=
  hm.bind (f := fun _ => r) fun _ _ h => by cases h; exact hk

theorem congr {m m' : Nat → Run addressCount α} (h : Agrees fuel m s r)
    (hm : ∀ limit steps, (m' limit).run.run (s.at steps) = (m limit).run.run (s.at steps)) :
    Agrees fuel m' s r := by
  obtain ⟨cost, hfuel, h⟩ := h
  refine ⟨cost, hfuel, fun limit steps hle => ?_⟩
  rw [Costs, hm]
  exact h limit steps hle

theorem ofExcept {m : Run addressCount α}
    (hm : ∀ steps, m.run.run (s.at steps) =
      match r with
      | .ok (a, s') => (.ok a, s'.at steps)
      | .error e => (.error e, s.at steps))
    (he : r ≠ .error (.stepLimit fuel)) : Agrees fuel (fun _ => m) s r := by
  refine ⟨0, fun h => absurd h he, fun limit steps h => ?_⟩
  rw [Costs, if_pos (by omega), hm]
  rcases r with e | ⟨a, s'⟩
  · exact .inl rfl
  · rfl

theorem bindValue {m : Run addressCount α} {x : Except EvalError α}
    {f : α → Except EvalError (β × Scene)}
    (hm : ∀ steps, m.run.run (s.at steps) = (x, s.at steps)) (hx : x ≠ .error (.stepLimit fuel))
    (hk : ∀ a, x = .ok a → Agrees fuel (fun limit => k limit a) s (f a)) :
    Agrees fuel (fun limit => m >>= k limit) s (x >>= f) := by
  have h : Agrees fuel (fun _ => m) s (x.map fun a => (a, s)) := by
    refine ofExcept (fun steps => ?_) ?_
    · rw [hm]
      cases x <;> rfl
    · cases x with
      | error e => exact fun h => hx (by cases h; rfl)
      | ok a => exact nofun
  cases x with
  | error e => exact bind (f := fun p => f p.1) h fun _ _ h => by cases h
  | ok a =>
    refine bind (f := fun p => f p.1) h fun a' s' h => ?_
    cases h
    exact hk a rfl

end Agrees

/-! ## What does not count steps -/

theorem Expression.eval_ne_stepLimit {n : Nat} (function : String) (env : Environment)
    (memory : Memory n) (limit : Nat) (e : Expression) :
    e.eval function env memory ≠ .error (.stepLimit limit) := by
  induction e with
  | literal | bool => exact nofun
  | var v =>
    rw [Expression.eval]
    split <;> exact nofun
  | memory address ih =>
    rw [Expression.eval]
    cases ha : address.eval function env memory with
    | error e => exact fun h => ih (ha.trans h)
    | ok address =>
      simp only [bind, Except.bind]
      split <;> exact nofun
  | unary op operand ih =>
    rw [Expression.eval]
    cases ho : operand.eval function env memory with
    | error e => exact fun h => ih (ho.trans h)
    | ok value => exact nofun
  | binary op lhs rhs ihl ihr =>
    rw [Expression.eval]
    cases hl : lhs.eval function env memory with
    | error e => exact fun h => ihl (hl.trans h)
    | ok l =>
      cases hr : rhs.eval function env memory with
      | error e => exact fun h => ihr (hr.trans h)
      | ok r => exact nofun

theorem run_value (function : String) (e : Expression) (s : Scene) (steps : Nat) :
    (value function e : Run addressCount UInt32).run.run (s.at steps) =
      (s.value function e, s.at steps) := by
  show (MonadExcept.ofExcept (e.eval function s.env s.memory) : Run addressCount UInt32).run.run
    (s.at steps) = _
  unfold Scene.value
  cases e.eval function s.env s.memory <;> rfl

theorem Scene.value_ne_stepLimit (s : Scene) (function : String) (e : Expression) (limit : Nat) :
    s.value function e ≠ .error (.stepLimit limit) :=
  e.eval_ne_stepLimit function s.env s.memory limit

theorem run_registerValues (function : String) (s : Scene) (steps : Nat)
    (values : List (Register × Expression)) :
    (registerValues function values : Run addressCount _).run.run (s.at steps) =
      (s.registerValues function .none values, s.at steps) := by
  unfold registerValues
  generalize RegisterValues.none = known
  induction values generalizing known with
  | nil => rfl
  | cons value rest ih =>
    obtain ⟨r, e⟩ := value
    rw [List.foldlM_cons, run_bind, run_bind, run_value, Scene.registerValues]
    cases s.value function e with
    | error e => rfl
    | ok w => exact ih (known.set r (some w))

theorem Scene.registerValues_ne_stepLimit (function : String) (s : Scene) (limit : Nat)
    (known : RegisterValues) (values : List (Register × Expression)) :
    s.registerValues function known values ≠ .error (.stepLimit limit) := by
  induction values generalizing known with
  | nil => exact nofun
  | cons value rest ih =>
    obtain ⟨r, e⟩ := value
    rw [Scene.registerValues]
    cases h : s.value function e with
    | error e =>
      intro h'
      injection h' with he
      exact s.value_ne_stepLimit function _ limit (by rw [h, he])
    | ok w => exact ih (known.set r (some w))

theorem agrees_assign (v : Variable) (w : UInt32) :
    Agrees fuel (fun _ => assign v w) s (.ok ((), s.assign v w)) :=
  .ofExcept (fun _ => rfl) nofun

theorem agrees_setEnv (env : Environment) :
    Agrees fuel (fun _ => modify fun m => { m with env }) s (.ok ((), { s with env })) :=
  .ofExcept (fun _ => rfl) nofun

theorem map_bind {γ : Type} (x : Except EvalError α) (f : α → Except EvalError β) (g : β → γ) :
    (x >>= f).map g = x >>= fun a => (f a).map g := by
  cases x <;> rfl

theorem agrees_store (function : String) (address value : Expression) :
    Agrees fuel (fun _ => store function address value) s
      ((s.store function address value).map fun s' => ((), s')) := by
  unfold store Scene.store
  rw [map_bind]
  refine .bindValue (run_value function address s) (s.value_ne_stepLimit function address fuel)
    fun a _ => ?_
  by_cases inside : a.toNat < addressCount
  · simp only [dif_pos inside]
    rw [map_bind]
    refine .bindValue (run_value function value s) (s.value_ne_stepLimit function value fuel)
      fun w _ => ?_
    by_cases hbyte : 0xff < w
    · simp only [if_pos hbyte]
      exact .throw nofun
    · simp only [if_neg hbyte]
      exact .ofExcept (fun _ => rfl) nofun
  · simp only [dif_neg inside]
    exact .throw nofun

theorem agrees_takeResults (callee : String) (returned : RegisterValues)
    (results : List (Register × Variable)) :
    Agrees fuel (fun _ => takeResults callee returned results) s
      ((s.takeResults callee returned results).map fun s' => ((), s')) := by
  induction results generalizing s with
  | nil => exact .pure ()
  | cons result rest ih =>
    obtain ⟨r, v⟩ := result
    unfold takeResults Scene.takeResults
    cases returned.get r with
    | none => exact .throw nofun
    | some w =>
      exact .bindOk (agrees_assign v w) ih

/-! ## Loops -/

def passResult : Scene ⊕ (Control × Scene) → Option Control × Scene
  | .inl s => (none, s)
  | .inr (control, s) => (some control, s)

theorem run_fails (function : String) (condition : Expression) (s : Scene) (steps : Nat) :
    (fails function condition : Run addressCount Bool).run.run (s.at steps) =
      ((s.value function condition).map (· == 0), s.at steps) := by
  unfold fails
  rw [run_bind, run_value]
  cases s.value function condition <;> rfl

theorem Agrees.test (function : String) (condition : Expression) {m k : Nat → Run addressCount α}
    {x y : Except EvalError (α × Scene)} (hm : Agrees fuel m s x) (hk : Agrees fuel k s y) :
    Agrees fuel (fun limit => fails function condition >>= fun b => if b then m limit else k limit) s
      (s.value function condition >>= fun w => if w == 0 then x else y) := by
  have h : ∀ r : Except EvalError UInt32, (r >>= fun w => if w == 0 then x else y) =
      r.map (· == 0) >>= fun b => if b then x else y := by
    intro r
    cases r <;> rfl
  rw [h]
  refine .bindValue (run_fails function condition s) ?_ fun b _ => ?_
  · cases hv : s.value function condition with
    | error e =>
      intro h
      injection h with he
      exact s.value_ne_stepLimit function condition fuel (by rw [hv, he])
    | ok w => exact nofun
  · cases b
    · exact hk
    · exact hm

theorem agrees_endOfPass (function : String) (test : LoopTest) :
    Agrees fuel (fun _ => endOfPass function test) s
      ((Statement.endOfPass function test s).map passResult) := by
  cases test with
  | whileTrue | forever => exact .pure none
  | doWhile condition =>
    rw [Statement.endOfPass, map_bind]
    simp only [apply_ite (Except.map passResult)]
    exact .test function condition (.pure (some Control.normal)) (.pure none)

theorem agrees_afterBody (function : String) (test : LoopTest) (label : Option String)
    (control : Control) :
    Agrees fuel (fun _ => afterBody function test label control) s
      ((Statement.afterBody function test label (control, s)).map passResult) := by
  cases control with
  | normal => exact agrees_endOfPass function test
  | returned | breakLoop => exact .pure _
  | continueLoop target =>
    simp only [Statement.afterBody, afterBody]
    by_cases h : isFor label target
    · simp only [h, if_true]
      exact agrees_endOfPass function test
    · simp only [h]
      exact .pure _

section

variable (functions : List FunctionDef)

theorem agrees_pass (function : String) (test : LoopTest) (label : Option String)
    (hbody : ∀ s, Agrees fuel body s (untimed s)) :
    ∃ inner : Nat → Run addressCount (Option Control),
      (∀ limit, pass { functions, limit } function test label (body limit) =
        (tick { functions, limit } >>= fun _ => inner limit)) ∧
      ∀ s, Agrees fuel inner s ((Statement.pass function test label untimed s).map passResult) := by
  have hafter : ∀ s, Agrees fuel (fun limit => body limit >>= afterBody function test label) s
      ((untimed s >>= Statement.afterBody function test label).map passResult) := by
    intro s
    rw [map_bind]
    exact .bind (hbody s) fun control s' _ => agrees_afterBody function test label control
  cases test with
  | forever | doWhile => exact ⟨_, fun _ => rfl, hafter⟩
  | whileTrue condition =>
    refine ⟨fun limit => fails function condition >>= fun b =>
      if b then pure (some .normal)
      else body limit >>= afterBody function (.whileTrue condition) label, fun limit => rfl,
      fun s => ?_⟩
    rw [Statement.pass, map_bind]
    simp only [apply_ite (Except.map passResult)]
    exact .test function condition (.pure (some Control.normal)) (hafter s)

theorem run_tick (s : Scene) (limit steps : Nat) :
    (tick { functions, limit } : Run addressCount Unit).run.run (s.at steps) =
      (if limit < steps + 1 then .error (.stepLimit limit) else .ok (), s.at (steps + 1)) := by
  show (if limit < steps + 1 then throw (.stepLimit limit) else pure () :
    Run addressCount Unit).run.run (s.at (steps + 1)) = _
  split <;> rfl

theorem agrees_tick :
    Agrees fuel (fun limit => tick { functions, limit }) s (.ok ((), s)) := by
  refine ⟨1, nofun, fun limit steps _ => ?_⟩
  rw [Costs, run_tick]
  by_cases h : steps + 1 ≤ limit
  · rw [if_pos h, if_neg (by omega)]
    rfl
  · rw [if_neg h, if_pos (by omega)]

theorem Agrees.afterTick {r : Except EvalError (α × Scene)} (h : Agrees fuel m s r) :
    ∃ cost, (r = .error (.stepLimit fuel) → fuel ≤ cost) ∧ ∀ limit steps, steps ≤ limit →
      Costs fuel (cost + 1) limit steps
        (tick { functions, limit } >>= fun _ => m limit) s r := by
  obtain ⟨cost, hfuel, h⟩ := h
  refine ⟨cost, hfuel, fun limit steps _ => ?_⟩
  rw [Costs, run_bind, run_tick]
  by_cases hlimit : limit < steps + 1
  · rw [if_neg (by omega), if_pos hlimit]
  · rw [if_neg hlimit, show steps + (cost + 1) = steps + 1 + cost by omega]
    exact h limit (steps + 1) (by omega)

end

/-- The passes of a loop. Every pass is a step, so a run with more passes left than steps is not
cut off before it reaches its limit. -/
theorem agrees_repeatPass {timed inner : Nat → Run addressCount (Option Control)}
    {untimed : Scene → CodePass}
    (htimed : ∀ limit, timed limit = (tick { functions, limit } >>= fun _ => inner limit))
    (hinner : ∀ s, Agrees fuel inner s ((untimed s).map passResult)) (k : Nat) (s : Scene) :
    ∃ cost, (runPasses (.stepLimit fuel) untimed k s = .error (.stepLimit fuel) → fuel ≤ cost ∨
      k ≤ cost) ∧ ∀ limit steps passes, steps ≤ limit → limit < steps + passes →
        Costs fuel cost limit steps (repeatPass { functions, limit } (timed limit) passes) s
          (runPasses (.stepLimit fuel) untimed k s) := by
  induction k generalizing s with
  | zero =>
    refine ⟨0, fun _ => .inr (Nat.zero_le _), fun limit steps passes hle _ => ?_⟩
    rw [Costs, if_pos (by omega)]
    exact .inr rfl
  | succ k ih =>
    rw [runPasses]
    obtain ⟨cost, hfuel, hcost⟩ := (hinner s).afterTick functions
    simp only [← htimed] at hcost
    rcases hs : untimed s with e | (s1 | ⟨control, s1⟩) <;> rw [hs] at hfuel hcost
    · -- The pass fails.
      refine ⟨cost + 1, fun he => .inl (Nat.le_succ_of_le (hfuel (by cases he; rfl))),
        fun limit steps passes hle hpasses => ?_⟩
      obtain ⟨passes, rfl⟩ : ∃ n, passes = n + 1 := ⟨passes - 1, by omega⟩
      exact (hcost limit steps hle).bind_error
    · -- Another pass follows.
      obtain ⟨cost', hfuel', hrest⟩ := ih s1
      refine ⟨cost + 1 + cost', fun he => (hfuel' he).imp (by omega) (by omega),
        fun limit steps passes hle hpasses => ?_⟩
      obtain ⟨passes, rfl⟩ : ∃ n, passes = n + 1 := ⟨passes - 1, by omega⟩
      exact (hcost limit steps hle).bind_ok fun h => hrest limit _ passes h (by omega)
    · -- The pass ends the loop.
      refine ⟨cost + 1, nofun, fun limit steps passes hle hpasses => ?_⟩
      obtain ⟨passes, rfl⟩ : ∃ n, passes = n + 1 := ⟨passes - 1, by omega⟩
      exact (hcost limit steps hle).bind_ok (n := 0) (.pure control)

theorem agrees_loop {function : String} {test : LoopTest} {label : Option String}
    (hbody : ∀ s, Agrees fuel body s (untimed s)) :
    Agrees fuel
      (fun limit => repeatPass { functions, limit }
        (pass { functions, limit } function test label (body limit)) (limit + 1)) s
      (runPasses (.stepLimit fuel) (Statement.pass function test label untimed) fuel s) := by
  obtain ⟨inner, htimed, hinner⟩ := agrees_pass functions function test label hbody
  obtain ⟨cost, hfuel, h⟩ := agrees_repeatPass htimed hinner fuel s
  exact ⟨cost, fun he => (hfuel he).elim id id, fun limit steps hle =>
    h limit steps (limit + 1) hle (by omega)⟩

/-! ## Statements and calls -/

/-- A rule for calls that counts steps against one that does not: the caller keeps its variables. -/
def AgreesCall (fuel : Nat) (invoke : Nat → Invoker addressCount) (caller : Caller) : Prop :=
  ∀ name arguments s, Agrees fuel (fun limit => invoke limit name arguments) s
    ((caller name arguments s.memory).map fun (values, memory) => (values, { s with memory }))

section

variable {functions : List FunctionDef} {invoke : Nat → Invoker addressCount} {caller : Caller}
  (function : String)

theorem agrees_call (hcall : AgreesCall fuel invoke caller) (callee : String)
    (arguments : List (Register × Expression)) (results : List (Register × Variable)) :
    Agrees fuel
      (fun limit => registerValues function arguments >>= fun passed =>
        invoke limit callee passed >>= fun returned => takeResults callee returned results) s
      ((s.call caller function callee arguments results).map fun s' => ((), s')) := by
  unfold Scene.call
  rw [map_bind]
  refine .bindValue (fun steps => run_registerValues function s steps arguments)
    (s.registerValues_ne_stepLimit function fuel .none arguments) fun passed _ => ?_
  rw [map_bind]
  have h := hcall callee passed s
  rcases hr : caller callee passed s.memory with e | ⟨returned, memory⟩ <;> rw [hr] at h
  · exact h.bind (f := fun _ => .error e) fun _ _ h => by cases h
  · refine h.bind (f := fun p => (p.2.takeResults callee p.1 results).map fun s' => ((), s'))
      fun returned s' h => ?_
    cases h
    exact agrees_takeResults callee _ results

mutual

theorem agrees_exec (hcall : AgreesCall fuel invoke caller) :
    ∀ (statement : Statement) (s : Scene),
      Agrees fuel (fun limit => exec { functions, limit } (invoke limit) function
        statement) s (statement.run fuel caller function s)
  | .assign v e, s => by
    unfold exec Statement.run
    refine .bindValue (run_value function e s) (s.value_ne_stepLimit function e fuel) fun w _ => ?_
    exact .bindOk (agrees_assign v w) (.pure _)
  | .store address e, s => by
    unfold exec Statement.run
    have h := (@agrees_store fuel s function address e).bind
      (k := fun _ _ => pure Control.normal) (f := fun p => .ok (.normal, p.2)) fun _ _ _ => .pure _
    cases hs : s.store function address e with
    | error e => rw [hs] at h; exact h
    | ok s' => rw [hs] at h; exact h
  | .cond condition thenBranch elseBranch, s => by
    unfold exec Statement.run
    refine .bindValue (run_value function condition s)
      (s.value_ne_stepLimit function condition fuel) fun w _ => ?_
    cases w != 0
    · exact agrees_execAll hcall elseBranch s
    · exact agrees_execAll hcall thenBranch s
  | .loop test label body, s => by
    unfold exec Statement.run
    exact agrees_loop (agrees_execAll hcall body)
  | .breakLoop label, s => by
    unfold exec Statement.run
    exact .pure _
  | .continueLoop label, s => by
    unfold exec Statement.run
    exact .pure _
  | .ret values, s => by
    unfold exec Statement.run
    exact .bindValue (fun steps => run_registerValues function s steps values)
      (s.registerValues_ne_stepLimit function fuel .none values) fun _ _ => .pure _
  | .call callee arguments results, s => by
    unfold exec Statement.run
    have h := (agrees_call (s := s) function hcall callee arguments results).bind
      (k := fun _ _ => pure Control.normal) (f := fun p => .ok (.normal, p.2)) fun _ _ _ => .pure _
    simp only [bind_assoc] at h
    cases hs : s.call caller function callee arguments results with
    | error e => rw [hs] at h; exact h
    | ok s' => rw [hs] at h; exact h
  | .note _, s => by
    unfold exec Statement.run
    exact .pure _

theorem agrees_execAll (hcall : AgreesCall fuel invoke caller) :
    ∀ (statements : List Statement) (s : Scene),
      Agrees fuel
        (fun limit => execAll { functions, limit } (invoke limit) function statements)
        s (Statement.runAll fuel caller function statements s)
  | [], s => by
    unfold execAll Statement.runAll
    exact .pure _
  | statement :: rest, s => by
    unfold execAll Statement.runAll
    refine .bindOk (agrees_tick functions) ?_
    have h := (agrees_exec hcall statement s).bind
      (k := fun limit control =>
        match control with
        | .normal => execAll { functions, limit } (invoke limit) function rest
        | control => return control)
      (f := fun p =>
        match p with
        | (Control.normal, s) => Statement.runAll fuel caller function rest s
        | r => .ok r)
      fun control s' _ => by
        cases control with
        | normal => exact agrees_execAll hcall rest s'
        | breakLoop | continueLoop | returned => exact .pure _
    cases hs : statement.run fuel caller function s with
    | error e => rw [hs] at h; exact h
    | ok r =>
      rw [hs] at h
      obtain ⟨control, s1⟩ := r
      cases control <;> exact h

end

end

theorem inputs_ne_stepLimit (name : String) (arguments : RegisterValues) (limit : Nat)
    (registers : List Register) (env : Environment) :
    inputs name arguments env registers ≠ .error (.stepLimit limit) := by
  induction registers generalizing env with
  | nil => exact nofun
  | cons r rest ih =>
    unfold inputs
    cases arguments.get r with
    | none => exact nofun
    | some value => exact ih (env.set (.input r) value)

def givenBack (name : String) : Control → Run addressCount RegisterValues
  | .returned values => return values
  | .normal => throw (.noReturn name)
  | .breakLoop label | .continueLoop label => throw (.strayJump name label)

theorem agreesCall_invoke (functions : List FunctionDef) (fuel depth : Nat) :
    AgreesCall fuel (fun limit => invoke { functions, limit } depth)
      (callUntimed functions fuel depth) := by
  have hfind : ∀ limit name, function? { functions, limit } name =
      function? { functions, limit := fuel } name := fun _ _ => rfl
  induction depth with
  | zero =>
    intro name arguments s
    unfold callUntimed
    simp only [invoke, hfind]
    cases function? { functions, limit := fuel } name <;> exact .throw nofun
  | succ depth ih =>
    intro name arguments s
    unfold callUntimed
    simp only [invoke, hfind]
    cases function? { functions, limit := fuel } name with
    | none => exact .throw nofun
    | some f =>
      simp only []
      rw [map_bind]
      refine .bindValue (fun steps => ?_) (inputs_ne_stepLimit name arguments fuel f.inputs {})
        fun env _ => ?_
      · cases inputs name arguments {} f.inputs <;> rfl
      · -- The function runs on its own variables; then the caller gets its own back.
        rw [map_bind]
        refine .congr (m := fun limit =>
          (modify fun m => { m with env } : Run addressCount Unit) >>= fun _ =>
            execAll { functions, limit } (invoke { functions, limit } depth)
              name f.body >>= fun control =>
            (modify fun m => { m with env := s.env } : Run addressCount Unit) >>= fun _ =>
            givenBack name control)
          ?_ fun _ _ => rfl
        refine .bindOk (agrees_setEnv env) ?_
        refine .bind (agrees_execAll name ih f.body _) fun control s2 _ => ?_
        refine .bindOk (agrees_setEnv s.env) ?_
        cases control with
        | returned values => exact .pure values
        | normal | breakLoop | continueLoop => exact .throw nofun

/-! ## Calls from outside -/

namespace Evaluator

variable {functions : List FunctionDef} {name : String} {arguments : PerRegister (Option UInt8)}
  {memory : Memory addressCount}

theorem call_cases (functions : List FunctionDef) (name : String)
    (arguments : PerRegister (Option UInt8)) (memory : Memory addressCount) (limit : Nat) :
    (call { functions, limit } name arguments memory).1 = .error (.stepLimit limit) ∨
    (∃ values memory' steps, callUntimed functions (limit + 1) maxCallDepth name
        (argumentWords arguments) memory = .ok (values, memory') ∧
      call { functions, limit } name arguments memory =
        (outputs name values, steps, memory')) ∨
    ∃ e, callUntimed functions (limit + 1) maxCallDepth name (argumentWords arguments) memory =
        .error e ∧ e ≠ .stepLimit (limit + 1) ∧
      (call { functions, limit } name arguments memory).1 = .error e := by
  have h := agreesCall_invoke functions (limit + 1) maxCallDepth name (argumentWords arguments)
    ⟨{}, memory⟩
  dsimp only at h
  obtain ⟨cost, hfuel, h⟩ := h
  have h := h limit 0 (Nat.zero_le _)
  unfold Costs at h
  by_cases hcost : 0 + cost ≤ limit
  · rw [if_pos hcost] at h
    rcases hr : callUntimed functions (limit + 1) maxCallDepth name (argumentWords arguments) memory
      with e | ⟨values, memory'⟩ <;> rw [hr] at h hfuel
    · have he : e ≠ .stepLimit (limit + 1) := fun he => by
        have hle := hfuel (congrArg _ he)
        omega
      exact .inr (.inr ⟨e, rfl, he, call_of_invoke_error (h.resolve_right he)⟩)
    · exact .inr (.inl ⟨values, memory', 0 + cost, rfl, call_of_invoke_ok h⟩)
  · rw [if_neg hcost] at h
    exact .inl (call_of_invoke_error h)

/-- Only the limit keeps a call from what it comes to when steps are not counted. -/
theorem call_of_untimed {fuel : Nat} {r : Except EvalError (RegisterValues × Memory addressCount)}
    (h : callUntimed functions fuel maxCallDepth name (argumentWords arguments) memory = r)
    (hr : r ≠ .error (.stepLimit fuel)) :
    ∃ steps, ∀ limit,
      if steps ≤ limit then
        match r with
        | .ok (values, memory') => call { functions, limit } name arguments memory =
            (outputs name values, steps, memory')
        | .error e => (call { functions, limit } name arguments memory).1 = .error e
      else (call { functions, limit } name arguments memory).1 = .error (.stepLimit limit) := by
  have hagrees := agreesCall_invoke functions fuel maxCallDepth name (argumentWords arguments)
    ⟨{}, memory⟩
  dsimp only at hagrees
  rw [h] at hagrees
  obtain ⟨cost, -, hagrees⟩ := hagrees
  refine ⟨cost, fun limit => ?_⟩
  have hrun := hagrees limit 0 (Nat.zero_le _)
  rw [Costs, Nat.zero_add] at hrun
  by_cases hcost : cost ≤ limit
  · rw [if_pos hcost] at hrun ⊢
    rcases r with e | ⟨values, memory'⟩
    · exact call_of_invoke_error (hrun.resolve_right fun he => hr (congrArg _ he))
    · exact call_of_invoke_ok hrun
  · rw [if_neg hcost] at hrun ⊢
    exact call_of_invoke_error hrun

end Evaluator

end Lift6502
