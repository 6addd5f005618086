import Lift6502.Proofs.Run.Untimed
import Lift6502.Run.Runner

/-!
# Limits and earlier calls

A call that its limit does not cut off is the same under every larger limit, and after any earlier
calls. Both follow from `Tracks`.
-/

namespace Lift6502

open Evaluator

variable {n : Nat} {α β : Type} {cut : EvalError → Prop} {depth : Nat}
  {functions : List FunctionDef} {y : CountedRun n α} {x : Run n α}

theorem run_bind_counted (y : CountedRun n α) (k : α → CountedRun n β) (m : Machine n)
    (depth : Nat) : ((y >>= k).run.run m).run depth =
      match (y.run.run m).run depth with
      | ((.ok a, m'), depth') => ((k a).run.run m').run depth'
      | ((.error e, m'), depth') => ((.error e, m'), depth') := by
  show (ExceptT.bindCont k (y m depth).1.1) (y m depth).1.2 (y m depth).2 = _
  rcases h : y m depth with ⟨⟨e | a, m'⟩, depth'⟩
  · have h' : (y.run.run m).run depth = ((.error e, m'), depth') := h
    rw [h']
    rfl
  · have h' : (y.run.run m).run depth = ((.ok a, m'), depth') := h
    rw [h']
    rfl

/-- With `depth` calls open, `y` does what `x` does and leaves them open, unless `x` is cut off. -/
def Tracks (cut : EvalError → Prop) (depth : Nat) (x : Run n α) (y : CountedRun n α) : Prop :=
  ∀ m, (∃ e, cut e ∧ (x.run.run m).1 = .error e) ∨ (y.run.run m).run depth = (x.run.run m, depth)

namespace Tracks

theorem pure (a : α) : Tracks (n := n) cut depth (pure a) (pure a) := fun _ => .inr rfl

theorem throw (e : EvalError) : Tracks (n := n) (α := α) cut depth (throw e) (throw e) :=
  fun _ => .inr rfl

theorem modify (f : Machine n → Machine n) : Tracks cut depth (modify f) (modify f) :=
  fun _ => .inr rfl

theorem ofExcept (x : Except EvalError α) :
    Tracks (n := n) cut depth (MonadExcept.ofExcept x) (MonadExcept.ofExcept x) := by
  cases x with
  | error e => exact throw e
  | ok a => exact pure a

theorem bind {f : α → Run n β} {g : α → CountedRun n β} (hx : Tracks cut depth x y)
    (hf : ∀ a, Tracks cut depth (f a) (g a)) : Tracks cut depth (x >>= f) (y >>= g) := by
  intro m
  rcases hx m with ⟨e, he, hcut⟩ | hrun
  · exact .inl ⟨e, he, run_bind_error hcut f⟩
  · -- An error that does not cut off is the same in both runs.
    rw [run_bind_counted, run_bind, hrun]
    rcases x.run.run m with ⟨e | a, m'⟩
    · exact .inr rfl
    · exact hf a m'

theorem withMachine {f : Machine n → Run n α} {g : Machine n → CountedRun n α}
    (h : ∀ m, Tracks cut depth (f m) (g m)) : Tracks cut depth (get >>= f) (get >>= g) :=
  bind (fun _ => .inr rfl) h

theorem ite {c : Prop} [Decidable c] {x x' : Run n α} {y y' : CountedRun n α}
    (h : Tracks cut depth x y) (h' : Tracks cut depth x' y') :
    Tracks cut depth (if c then x else x') (if c then y else y') := by
  split
  · exact h
  · exact h'

end Tracks

theorem tracks_value (function : String) (e : Expression) :
    Tracks (n := n) cut depth (value function e) (value function e) :=
  .withMachine fun _ => .ofExcept _

theorem tracks_store (function : String) (address value : Expression) :
    Tracks (n := n) cut depth (store function address value) (store function address value) := by
  refine .bind (tracks_value function address) fun a => ?_
  by_cases inside : a.toNat < n
  · simp only [dif_pos inside]
    exact .bind (tracks_value function value) fun w =>
      .ite (.bind (.throw _) fun _ => .modify _) (.modify _)
  · simp only [dif_neg inside]
    exact .throw _

theorem tracks_registerValues (function : String) (values : List (Register × Expression)) :
    Tracks (n := n) cut depth (registerValues function values)
      (registerValues function values) := by
  unfold registerValues
  generalize RegisterValues.none = known
  induction values generalizing known with
  | nil => exact .pure known
  | cons value rest ih =>
    rw [List.foldlM_cons, List.foldlM_cons]
    exact .bind (.bind (tracks_value function value.2) fun _ => .pure _) ih

theorem tracks_takeResults (callee : String) (returned : RegisterValues)
    (results : List (Register × Variable)) :
    Tracks (n := n) cut depth (takeResults callee returned results)
      (takeResults callee returned results) := by
  induction results with
  | nil => exact .pure ()
  | cons result rest ih =>
    unfold takeResults
    cases returned.get result.1 with
    | none => exact .throw _
    | some w => exact .bind (.modify _) fun _ => ih

theorem tracks_fails (function : String) (condition : Expression) :
    Tracks (n := n) cut depth (fails function condition) (fails function condition) :=
  .bind (tracks_value function condition) fun _ => .pure _

theorem tracks_afterBody (function : String) (test : LoopTest) (label : Option String)
    (control : Control) :
    Tracks (n := n) cut depth (afterBody function test label control)
      (afterBody function test label control) := by
  have hend : Tracks (n := n) cut depth (endOfPass function test) (endOfPass function test) := by
    cases test with
    | whileTrue | forever => exact .pure _
    | doWhile condition =>
      exact .bind (tracks_fails function condition) fun _ => .ite (.pure _) (.pure _)
  cases control with
  | normal => exact hend
  | breakLoop | returned => exact .pure _
  | continueLoop target => exact .ite hend (.pure _)

section

variable {lo hi : Nat}

/-- The limits of the two runs: the same, or the first one smaller, and its end is what cuts off. -/
def Loosened (cut : EvalError → Prop) (lo hi : Nat) : Prop :=
  lo ≤ hi ∧ (lo = hi ∨ cut (.stepLimit lo))

theorem tracks_tick (h : Loosened cut lo hi) :
    Tracks (n := n) cut depth (tick ⟨functions, lo⟩) (tick ⟨functions, hi⟩) := by
  refine .bind (.modify _) fun _ => .withMachine fun m => ?_
  by_cases hlo : lo < m.steps
  · rw [if_pos hlo]
    rcases h.2 with rfl | hcut
    · rw [if_pos hlo]
      exact .throw _
    · exact fun _ => .inl ⟨_, hcut, rfl⟩
  · rw [if_neg hlo, if_neg (Nat.not_lt_of_le (Nat.le_trans (Nat.le_of_not_lt hlo) h.1))]
    exact .pure _

theorem tracks_pass (h : Loosened cut lo hi) (function : String) (test : LoopTest)
    (label : Option String) {x : Run n Control} {y : CountedRun n Control}
    (hbody : Tracks cut depth x y) :
    Tracks cut depth (pass ⟨functions, lo⟩ function test label x)
      (pass ⟨functions, hi⟩ function test label y) := by
  refine .bind (tracks_tick h) fun _ => ?_
  have hafter : Tracks cut depth (x >>= afterBody function test label)
      (y >>= afterBody function test label) := .bind hbody (tracks_afterBody function test label)
  cases test with
  | whileTrue condition =>
    exact .bind (tracks_fails function condition) fun _ => .ite (.pure _) hafter
  | doWhile | forever => exact hafter

theorem tracks_repeatPass (h : Loosened cut lo hi) {x : Run n (Option Control)}
    {y : CountedRun n (Option Control)} (hpass : Tracks cut depth x y) {k k' : Nat} (hle : k ≤ k')
    (heq : lo = hi → k = k') :
    Tracks cut depth (repeatPass ⟨functions, lo⟩ x k) (repeatPass ⟨functions, hi⟩ y k') := by
  induction k generalizing k' with
  | zero =>
    -- Passes that run out under the same limit run out in both runs.
    rcases h.2 with rfl | hcut
    · cases heq rfl
      exact .throw _
    · exact fun m => .inl ⟨_, hcut, rfl⟩
  | succ k ih =>
    obtain ⟨k', rfl⟩ : ∃ j, k' = j + 1 := ⟨k' - 1, by omega⟩
    refine .bind hpass fun result => ?_
    cases result with
    | some control => exact .pure control
    | none => exact ih (by omega) fun h => by have := heq h; omega

variable {invoke : Invoker n} {enter : String → RegisterValues → CountedRun n RegisterValues}
  (h : Loosened cut lo hi) (function : String)
include h

mutual

theorem tracks_exec
    (hcall : ∀ name arguments, Tracks cut depth (invoke name arguments) (enter name arguments)) :
    ∀ statement : Statement,
    Tracks cut depth (exec ⟨functions, lo⟩ invoke function statement)
      (exec ⟨functions, hi⟩ enter function statement)
  | .assign v e => by
    unfold exec
    exact .bind (tracks_value function e) fun w => .bind (.modify _) fun _ => .pure _
  | .store address e => by
    unfold exec
    exact .bind (tracks_store function address e) fun _ => .pure _
  | .cond condition thenBranch elseBranch => by
    unfold exec
    exact .bind (tracks_value function condition) fun _ =>
      .ite (tracks_execAll hcall thenBranch) (tracks_execAll hcall elseBranch)
  | .loop test label body => by
    unfold exec
    exact tracks_repeatPass h (tracks_pass h function test label (tracks_execAll hcall body))
      (Nat.succ_le_succ h.1) (congrArg Nat.succ)
  | .breakLoop label | .continueLoop label | .note _ => by
    unfold exec
    exact .pure _
  | .ret values => by
    unfold exec
    exact .bind (tracks_registerValues function values) fun _ => .pure _
  | .call callee arguments results => by
    unfold exec
    exact .bind (tracks_registerValues function arguments) fun passed =>
      .bind (hcall callee passed) fun returned =>
        .bind (tracks_takeResults callee returned results) fun _ => .pure _

theorem tracks_execAll
    (hcall : ∀ name arguments, Tracks cut depth (invoke name arguments) (enter name arguments)) :
    ∀ statements : List Statement,
    Tracks cut depth (execAll ⟨functions, lo⟩ invoke function statements)
      (execAll ⟨functions, hi⟩ enter function statements)
  | [] => by
    unfold execAll
    exact .pure _
  | statement :: rest => by
    unfold execAll
    refine .bind (tracks_tick h) fun _ => .bind (tracks_exec hcall statement) fun control => ?_
    cases control with
    | normal => exact tracks_execAll hcall rest
    | breakLoop | continueLoop | returned => exact .pure _

end

end

theorem Tracks.withDepth {g : Nat → CountedRun n α} (h : Tracks cut depth x (g depth)) :
    Tracks cut depth x (getThe Nat >>= g) :=
  fun m => h m

theorem Tracks.whileOpen (h : Tracks cut (depth + 1) x y) :
    Tracks cut depth x (Evaluator.whileOpen y) := by
  intro m
  rcases h m with hcut | hrun
  · exact .inl hcut
  · have hopen : ((Evaluator.whileOpen y).run.run m).run depth =
        (((MonadExcept.ofExcept ((y.run.run m).run (depth + 1)).1.1 : CountedRun n α).run.run
          ((y.run.run m).run (depth + 1)).1.2).run (((y.run.run m).run (depth + 1)).2 - 1)) := rfl
    rw [hopen, hrun]
    rcases x.run.run m with ⟨e | a, m'⟩ <;> exact .inr rfl

theorem tracks_enter {lo hi : Nat} (h : Loosened cut lo hi) {k fuel : Nat}
    (hdepth : depth + k = maxCallDepth) (hfuel : k ≤ fuel) (name : String)
    (arguments : RegisterValues) :
    Tracks (n := n) cut depth (invoke ⟨functions, lo⟩ k name arguments)
      (enter ⟨functions, hi⟩ fuel name arguments) := by
  have hfind : function? ⟨functions, hi⟩ name = function? ⟨functions, lo⟩ name := rfl
  -- One run stops nesting when `k` is used up, the other when enough calls are open.
  induction k generalizing depth fuel name arguments with
  | zero =>
    cases fuel with
    | zero =>
      simp only [invoke, enter, hfind]
      cases function? ⟨functions, lo⟩ name with
      | none => exact .throw _
      | some f => exact .throw _
    | succ fuel =>
      simp only [invoke, enter, hfind]
      cases function? ⟨functions, lo⟩ name with
      | none => exact .throw _
      | some f =>
        refine .withDepth ?_
        rw [if_pos (by omega)]
        exact fun _ => .inr rfl
  | succ k ih =>
    obtain ⟨fuel, rfl⟩ : ∃ j, fuel = j + 1 := ⟨fuel - 1, by omega⟩
    simp only [invoke, enter, hfind]
    cases function? ⟨functions, lo⟩ name with
    | none => exact .throw _
    | some f =>
      refine .withDepth ?_
      rw [if_neg (by omega)]
      refine .bind (.ofExcept _) fun env => .withMachine fun m => .bind (.modify _) fun _ => ?_
      have hcall := fun name arguments =>
        ih (by omega : depth + 1 + k = _) (by omega : k ≤ fuel) name arguments rfl
      refine .bind (tracks_execAll h name hcall f.body).whileOpen fun control =>
        .bind (.modify _) fun _ => ?_
      cases control with
      | returned values => exact .pure values
      | normal | breakLoop | continueLoop => exact .throw _

/-- With no call open, counting the open calls changes nothing. -/
theorem run_enter (ev : Evaluator) (name : String) (arguments : RegisterValues) (m : Machine n) :
    ((ev.enter maxCallDepth name arguments).run.run m).run 0 =
      ((ev.invoke maxCallDepth name arguments).run.run m, 0) := by
  have h : Tracks (n := n) (fun _ => False) 0 (ev.invoke maxCallDepth name arguments)
      (ev.enter maxCallDepth name arguments) :=
    tracks_enter ⟨Nat.le_refl _, .inl rfl⟩ (Nat.zero_add _) (Nat.le_refl _) name arguments
  exact (h m).resolve_left fun ⟨_, hcut, _⟩ => hcut

theorem run_invoke_loosened {lo hi : Nat} (hle : lo ≤ hi) (name : String)
    (arguments : RegisterValues) (m : Machine n)
    (hne : ((invoke ⟨functions, lo⟩ maxCallDepth name arguments).run.run m).1 ≠ .error
      (.stepLimit lo)) :
    (invoke ⟨functions, hi⟩ maxCallDepth name arguments).run.run m =
      (invoke ⟨functions, lo⟩ maxCallDepth name arguments).run.run m := by
  have hloosened : Loosened (· = .stepLimit lo) lo hi := ⟨hle, .inr rfl⟩
  have h : Tracks (n := n) (· = .stepLimit lo) 0 (invoke ⟨functions, lo⟩ maxCallDepth name
      arguments) (enter ⟨functions, hi⟩ maxCallDepth name arguments) :=
    tracks_enter hloosened (Nat.zero_add _) (Nat.le_refl _) name arguments
  rcases h m with ⟨e, rfl, he⟩ | hrun
  · exact absurd he hne
  · rw [run_enter] at hrun
    exact congrArg Prod.fst hrun

/-- A call with no call open does what a call on the memory does, and leaves none open. -/
theorem Runner.call_eq (ev : Evaluator) {r : Runner n} (hr : r.depth = 0) (name : String)
    (arguments : PerRegister (Option UInt8)) : r.call ev name arguments =
      ((ev.call name arguments r.memory).1,
        ⟨(ev.call name arguments r.memory).2.2, (ev.call name arguments r.memory).2.1, 0⟩) := by
  rw [Runner.call, hr, run_enter, Evaluator.call]
  rcases (ev.invoke maxCallDepth name _).run.run { memory := r.memory } with ⟨e | values, m⟩ <;> rfl

theorem Runner.depth_callAll (ev : Evaluator) (calls : List (String × PerRegister (Option UInt8)))
    {r : Runner n} (hr : r.depth = 0) : (r.callAll ev calls).depth = 0 := by
  induction calls generalizing r with
  | nil => exact hr
  | cons c rest ih => exact ih (congrArg (·.2.depth) (Runner.call_eq ev hr c.1 c.2))

/-- The limit matters only when it is reached, and earlier calls only by the memory
that they leave. -/
theorem call_unaffected (functions : List FunctionDef) (memory : Memory n) (name : String)
    (arguments : PerRegister (Option UInt8)) :
    (∀ lo hi, lo ≤ hi →
      (Evaluator.call ⟨functions, lo⟩ name arguments memory).1 ≠ .error (.stepLimit lo) →
      Evaluator.call ⟨functions, hi⟩ name arguments memory =
        Evaluator.call ⟨functions, lo⟩ name arguments memory) ∧
    ∀ limit calls, ∀ r, r = Runner.callAll ⟨functions, limit⟩ { memory } calls →
      r.call ⟨functions, limit⟩ name arguments =
        Runner.call ⟨functions, limit⟩ { memory := r.memory } name arguments ∧
      ∀ outcome steps memory', Evaluator.call ⟨functions, limit⟩ name arguments r.memory =
          (outcome, steps, memory') →
        r.call ⟨functions, limit⟩ name arguments = (outcome, { memory := memory', steps }) := by
  constructor
  · intro lo hi hle hne
    rw [call, call, run_invoke_loosened hle]
    exact fun h => hne (call_of_invoke_error h)
  · intro limit calls r hr
    have hclosed : r.depth = 0 := hr ▸ Runner.depth_callAll _ calls rfl
    have hcall := Runner.call_eq ⟨functions, limit⟩ hclosed name arguments
    have hfresh :=
      Runner.call_eq ⟨functions, limit⟩ (r := { memory := r.memory }) rfl name arguments
    refine ⟨hcall.trans hfresh.symm, fun outcome steps memory' h => ?_⟩
    rw [hcall, h]

/-- `count` calls `bump` until the first byte is 2, and `spin` calls it until the steps run out. -/
def counting : List FunctionDef :=
  let first : Expression := .memory (.literal 0)
  let body := [.call "bump" [] []]
  [⟨"bump", [], [], [.store (.literal 0) (.binary .add first (.literal 1)), .ret []], true⟩,
    ⟨"count", [], [], [.loop (.whileTrue (.binary .lt first (.literal 2))) none body, .ret []],
      true⟩,
    ⟨"spin", [], [], [.loop .forever none body], true⟩]

/-- Twelve steps are as good as twenty, and a call of `spin` that fails inside `bump` leaves one
byte to count. -/
theorem counting_unaffected :
    call ⟨counting, 12⟩ "count" (.ofFn fun _ => none) (Memory.zero 1) = (.ok [], 11, ⟨#[2], rfl⟩) ∧
    call ⟨counting, 20⟩ "count" (.ofFn fun _ => none) (Memory.zero 1) = (.ok [], 11, ⟨#[2], rfl⟩) ∧
    (Runner.callAll ⟨counting, 7⟩ { memory := Memory.zero 1 } [("spin", .ofFn fun _ => none)]).call
      ⟨counting, 7⟩ "count" (.ofFn fun _ => none) =
      (.ok [], { memory := ⟨#[2], rfl⟩, steps := 7 }) := by
  obtain ⟨hlimit, hreuse⟩ := call_unaffected counting (Memory.zero 1) "count" (.ofFn fun _ => none)
  have hspin : (Runner.callAll ⟨counting, 7⟩ { memory := Memory.zero 1 }
      [("spin", .ofFn fun _ => none)]).memory = ⟨#[1], rfl⟩ := rfl
  refine ⟨rfl, (hlimit 12 20 (by decide) ?_).trans rfl, (hreuse 7 _ _ rfl).2 _ _ _ ?_⟩
  · exact fun h => nomatch (show Except.ok [] = _ from h)
  · rw [hspin]
    rfl

end Lift6502
