import Lift6502.Proofs.Generate.Steady
import Mathlib.Data.List.Basic

/-!
# The attempts at a loop

`Concludes` says how the attempts end when nobody counts them; the number that `Generator.loop`
allows is never used up. What is known of a loop is read off this derivation.
-/

namespace Lift6502

theorem Yields.run_bind {ε σ α β : Type} {m : Fallible ε σ α} {f : α → Fallible ε σ β} {s s' : σ}
    {a : α} (h : Yields m s a s') : (m >>= f).run.run s = (f a).run.run s' := by
  unfold Yields at h
  rw [Lift6502.run_bind, h]

theorem run_modify_bind {ε σ β : Type} (f : σ → σ) (g : Unit → Fallible ε σ β) (s : σ) :
    (modify f >>= g).run.run s = (g ()).run.run (f s) :=
  Yields.run_bind (Yields.modify_iff.2 rfl)

namespace Generator

open Gen

theorem length_lt_length_union {s t : LocationSet} (h : s.subset t = false) :
    t.toList.length < (t.union s).toList.length := by
  have hmore : ∀ l, t.get l = true → (t.union s).get l = true := fun l hl =>
    LocationSet.mem_iff.1 (LocationSet.mem_union.2 (.inl hl))
  have hsub : t.toList.Sublist (t.union s).toList := List.monotone_filter_right _ hmore
  refine Nat.lt_of_le_of_ne hsub.length_le fun heq => ?_
  have hsame : t.toList = (t.union s).toList := hsub.eq_of_length heq
  obtain ⟨l, hl, hnew⟩ := List.all_eq_false.1 h
  have hin : s.get l = true ∧ t.get l = false := by simpa using hnew
  have hunion : l ∈ (t.union s).toList :=
    List.mem_filter.2 ⟨hl, LocationSet.mem_iff.1 (LocationSet.mem_union.2 (.inr hin.1))⟩
  rw [← hsame] at hunion
  have hold := (List.mem_filter.1 hunion).2
  rw [hin.2] at hold
  cases hold

structure Round where
  widened : LocationSet := ∅
  follow : Option Carriers := none
  /-- The numbers up to this one are taken, whether or not the attempt takes them. -/
  reserved : Nat
  journal : Journal

variable {a : Attempt}

namespace Round

def first (start : Progress) : Round := { reserved := start.merges, journal := start.journal }

def lose (r : Round) (name : String) (a : Attempt) (p : Progress) : Round where
  widened := r.widened.union a.widened
  reserved := r.reserved
  journal := p.journal ++ [.debug ("[codegen] loop " ++ name ++
    ": no single value around the loop for " ++ a.widened.journalText)]

def plan (r : Round) (follow : Carriers) (p : Progress) : Round :=
  { r with follow := some follow, reserved := p.merges, journal := p.journal }

/-- A bound on the attempts from here on: a location can be lost only once, and after each loss the
breaks can be planned for only once. -/
def bound (r : Round) : Nat :=
  2 * (Location.all.length - r.widened.toList.length) + if r.follow.isNone then 2 else 1

theorem bound_pos (r : Round) : 0 < r.bound := by
  unfold bound
  split <;> omega

theorem bound_lose {r : Round} (h : a.widened.subset r.widened = false) (name : String)
    (p : Progress) : (r.lose name a p).bound < r.bound := by
  have hmore : r.widened.toList.length < (r.widened.union a.widened).toList.length :=
    length_lt_length_union h
  have hmost : (r.widened.union a.widened).toList.length ≤ Location.all.length :=
    List.length_filter_le _ _
  show 2 * (_ - (r.widened.union a.widened).toList.length) + 2 < _
  unfold bound
  split <;> omega

theorem bound_plan {r : Round} (h : r.follow = none) (follow : Carriers) (p : Progress) :
    (r.plan follow p).bound < r.bound := by
  show 2 * (_ - r.widened.toList.length) + 1 < _
  unfold bound
  rw [h]
  show _ < _ + 2
  omega

theorem bound_first (start : Progress) : (first start).bound = 2 * (Location.all.length + 1) := by
  show 2 * (_ - (∅ : LocationSet).toList.length) + 2 = _
  decide

end Round

inductive LoopResult where
  | failed (e : GenerationError) (last : Progress)
  /-- The code of an attempt is kept; the round says what it started with. -/
  | kept (round : Round) (a : Attempt) (last : Progress)

def LoopResult.run (task : LoopTask) :
    LoopResult → Except GenerationError (Option SymbolicState) × Progress
  | .failed e last => (.error e, last)
  | .kept round a last => (afterLoop task.name a round.follow).run.run
      { reserve last round.reserved with out := last.out ++ a.statements.toArray }

section Attempts

variable (c : Generator) (task : LoopTask) (s : SymbolicState) (start : Progress)
  {p p' q : Progress} {n : Nat} {flow : Option SymbolicState}

/-- The attempts at a loop, from a round on, come to an end after a number of them. -/
inductive Concludes : Round → Nat → LoopResult → Prop
  | fails {r : Round} {e : GenerationError} {p : Progress}
      (fails : (c.attempt task s r.widened r.follow).run.run { start with journal := r.journal } =
        (.error e, p)) : Concludes r 1 (.failed e p)
  | loses {r : Round} {a : Attempt} {p : Progress} {n : Nat} {result : LoopResult}
      (attempt : Yields (c.attempt task s r.widened r.follow)
        { start with journal := r.journal } a p)
      (loses : a.widened.subset r.widened = false)
      (rest : Concludes (r.lose task.name a p) n result) :
      Concludes r (n + 1) result
  | plans {r : Round} {a : Attempt} {p q : Progress} {follow : Carriers} {n : Nat}
    {result : LoopResult}
      (attempt : Yields (c.attempt task s r.widened r.follow)
        { start with journal := r.journal } a p)
      (keeps : a.widened.subset r.widened = true) (unplanned : r.follow = none)
      (plan : Yields (breakCarriers a.breaks) (reserve p r.reserved) follow q)
      (disagree : follow.isEmpty = false) (rest : Concludes (r.plan follow q) n result) :
      Concludes r (n + 1) result
  | keeps {r : Round} {a : Attempt} {p : Progress} {follow : Carriers}
      (attempt : Yields (c.attempt task s r.widened r.follow)
        { start with journal := r.journal } a p)
      (keeps : a.widened.subset r.widened = true)
      (agree : Yields (planFor a r.follow) (reserve p r.reserved) follow (reserve p r.reserved))
      (nothing : follow.isEmpty = true) : Concludes r 1 (.kept r a p)

variable {c task s start}

theorem exists_yields_foldlM {α β : Type} {f : β → α → Gen β} {I : β → Progress → Prop}
    (hstep : ∀ b a p, I b p → ∃ b' p', Yields (f b a) p b' p' ∧ I b' p') {l : List α} {b : β}
    (h : I b p) : ∃ b' p', Yields (l.foldlM f b) p b' p' ∧ I b' p' := by
  induction l generalizing b p with
  | nil => exact ⟨b, p, rfl, h⟩
  | cons a rest ih =>
    obtain ⟨b1, p1, hfirst, h1⟩ := hstep b a p h
    obtain ⟨b', p', hrest, h'⟩ := ih h1
    refine ⟨b', p', ?_, h'⟩
    rw [List.foldlM_cons]
    exact Yields.bind_iff.2 ⟨b1, p1, hfirst, hrest⟩

theorem exists_plan (breaks : List SymbolicState) (p : Progress) :
    ∃ follow q, Yields (breakCarriers breaks) p follow q ∧ (follow.isEmpty = true → q = p) := by
  unfold breakCarriers
  split
  · exact ⟨.empty, p, rfl, fun _ => rfl⟩
  -- A number is taken only for a location that then has a variable, and keeps it.
  refine exists_yields_foldlM (I := fun (plan : Carriers) q => plan.isEmpty = true → q = p)
    (fun plan l q hplan => ?_) fun _ => rfl
  dsimp only
  split
  · let plan' : Carriers := plan.set l (some (.merge l (q.merges + 1)))
    refine ⟨plan', { q with merges := q.merges + 1 }, ?_, fun hempty => ?_⟩
    · exact Yields.bind_iff.2 ⟨_, _, yields_newMerge.2 ⟨rfl, rfl⟩, rfl⟩
    · have hget : plan'.get l = some (.merge l (q.merges + 1)) := by
        rw [Carriers.get_set, if_pos rfl]
      have hmem := Carriers.mem_toList.2 hget
      rw [List.isEmpty_iff.1 hempty] at hmem
      cases hmem
  · exact ⟨plan, q, rfl, hplan⟩

theorem exists_concludes (r : Round) : ∃ n result, Concludes c task s start r n result := by
  -- Induction on the bound, which every attempt that is not the last lowers.
  induction hbound : r.bound using Nat.strongRecOn generalizing r with
  | ind bound ih =>
  rcases hrun : (c.attempt task s r.widened r.follow).run.run
    { start with journal := r.journal } with
    ⟨e | a, p⟩
  · exact ⟨1, _, .fails hrun⟩
  cases hwidened : a.widened.subset r.widened with
  | false =>
    have hless := Round.bound_lose hwidened task.name p
    obtain ⟨n, result, hrest⟩ := ih _ (hbound ▸ hless) (r.lose task.name a p) rfl
    exact ⟨n + 1, result, .loses hrun hwidened hrest⟩
  | true =>
    cases hfollow : r.follow with
    | some carriers =>
      refine ⟨1, _, .keeps hrun hwidened ?_ (rfl : Carriers.empty.isEmpty = true)⟩
      unfold planFor
      rw [hfollow]
      exact rfl
    | none =>
      obtain ⟨follow, q, hplan, hsame⟩ := exists_plan a.breaks (reserve p r.reserved)
      cases hempty : follow.isEmpty with
      | false =>
        have hless := Round.bound_plan hfollow follow q
        obtain ⟨n, result, hrest⟩ := ih _ (hbound ▸ hless) (r.plan follow q) rfl
        exact ⟨n + 1, result, .plans hrun hwidened hfollow hplan hempty hrest⟩
      | true =>
        rw [hsame hempty] at hplan
        refine ⟨1, _, .keeps hrun hwidened ?_ hempty⟩
        unfold planFor
        rw [hfollow]
        exact hplan

variable {r : Round} {result : LoopResult}

theorem Concludes.le_bound (h : Concludes c task s start r n result) : n ≤ r.bound := by
  induction h with
  | @fails r | @keeps r => exact r.bound_pos
  | @loses r a p _ _ _ hlost _ ih =>
    have hless := Round.bound_lose hlost task.name p
    omega
  | @plans r _ _ q follow _ _ _ _ hunplanned _ _ _ ih =>
    have hless := Round.bound_plan hunplanned follow q
    omega

theorem Concludes.attempt_of_kept {r' : Round} {last : Progress}
    (h : Concludes c task s start r n (.kept r' a last)) :
    Yields (c.attempt task s r'.widened r'.follow) { start with journal := r'.journal } a last ∧
      a.widened.subset r'.widened = true := by
  generalize hresult : LoopResult.kept r' a last = result at h
  induction h with
  | fails => cases hresult
  | loses _ _ _ ih => exact ih hresult
  | plans _ _ _ _ _ _ ih => exact ih hresult
  | keeps hattempt hkept =>
    cases hresult
    exact ⟨hattempt, hkept⟩

theorem Concludes.attempt_of_failed {e : GenerationError} {last : Progress}
    (h : Concludes c task s start r n (.failed e last)) :
    ∃ r' : Round, (c.attempt task s r'.widened r'.follow).run.run
      { start with journal := r'.journal } = (.error e, last) := by
  generalize hresult : LoopResult.failed e last = result at h
  induction h with
  | @fails r _ _ hfails =>
    cases hresult
    exact ⟨r, hfails⟩
  | loses _ _ _ ih => exact ih hresult
  | plans _ _ _ _ _ _ ih => exact ih hresult
  | keeps => cases hresult

/-- After one attempt, either a location is lost and all starts again, or the attempt is taken, or
it is made again with variables for its breaks. -/
theorem run_attempts_succ {rounds : Nat} {widened : LocationSet} {follow : Option Carriers}
    {reserved : Nat} {q : Progress} (hp : p.Returns start)
    (h : Yields (c.attempt task s widened follow) { start with journal := p.journal } a q) :
    (c.attempts task s start (rounds + 1) widened follow reserved).run.run p =
      (if !a.widened.subset widened then do
          note (.debug ("[codegen] loop " ++ task.name ++
            ": no single value around the loop for " ++ a.widened.journalText))
          c.attempts task s start rounds (widened.union a.widened) none reserved
        else do
          let plan ← planFor a follow
          if plan.isEmpty then
            emitAll a.statements
            afterLoop task.name a follow
          else c.attempts task s start rounds widened (some plan) (← get).merges :
        Gen (Option SymbolicState)).run.run (reserve q reserved) := by
  rw [attempts, run_modify_bind, hp, h.run_bind, run_modify_bind]
  rfl

/-- What a round that plans for the breaks knows: an attempt without the plan, behind which
it was made. -/
def Planned (c : Generator) (task : LoopTask) (s : SymbolicState) (start : Progress) (r : Round)
    (follow : Carriers) : Prop :=
  ∃ journal a q reserved q', Yields (c.attempt task s r.widened none) { start with journal } a q ∧
    Yields (breakCarriers a.breaks) (reserve q reserved) follow q' ∧ q'.merges = r.reserved

theorem Concludes.planned {r' : Round} {last : Progress}
    (h : Concludes c task s start r n (.kept r' a last))
    (hr : ∀ follow, r.follow = some follow → Planned c task s start r follow) :
    ∀ follow, r'.follow = some follow → Planned c task s start r' follow := by
  generalize hresult : LoopResult.kept r' a last = result at h
  induction h with
  | fails => cases hresult
  | loses _ _ _ ih => exact ih (fun _ hfollow => nomatch hfollow) hresult
  | @plans r a p q follow _ _ hattempt _ hunplanned hplan _ _ ih =>
    refine ih (fun follow' hfollow => ?_) hresult
    cases hfollow
    rw [hunplanned] at hattempt
    exact ⟨r.journal, a, p, r.reserved, q, hattempt, hplan, rfl⟩
  | keeps =>
    cases hresult
    exact hr

theorem Progress.Alike.reserve (hq : p.Alike q) (reserved : Nat) :
    (reserve p reserved).Alike (reserve q reserved) :=
  ⟨hq.temps, congrArg (max · reserved) hq.merges, hq.frames⟩

section

variable (hbody : ∀ s, Steady (task.body s))
include hbody

theorem Concludes.run_attempts (h : Concludes c task s start r n result) {rounds : Nat}
    (hrounds : n ≤ rounds) (hp : p.Returns start) (hjournal : p.journal = r.journal) :
    (c.attempts task s start rounds r.widened r.follow r.reserved).run.run p = result.run task := by
  induction h generalizing rounds p with
  | fails hfails =>
    obtain ⟨rounds, rfl⟩ := Nat.exists_eq_add_of_le' hrounds
    rw [← hjournal] at hfails
    rw [attempts, run_modify_bind, hp, run_bind, hfails]
    rfl
  | loses hattempt hlost _ ih =>
    obtain ⟨rounds, rfl⟩ := Nat.exists_eq_succ_of_ne_zero (by omega : rounds ≠ 0)
    rw [← hjournal] at hattempt
    rw [run_attempts_succ hp hattempt, if_pos (by rw [hlost]; rfl)]
    unfold note
    rw [run_modify_bind]
    exact ih (by omega) ((returns_attempt hbody hattempt).note _ _) rfl
  | plans hattempt hkept hunplanned hplan hdisagree _ ih =>
    obtain ⟨rounds, rfl⟩ := Nat.exists_eq_succ_of_ne_zero (by omega : rounds ≠ 0)
    rw [← hjournal] at hattempt
    rw [run_attempts_succ hp hattempt, if_neg (by rw [hkept]; decide)]
    have hq := returns_attempt hbody hattempt
    unfold planFor
    rw [hunplanned, if_neg (by decide), hplan.run_bind, if_neg (by rw [hdisagree]; decide),
      Yields.run_bind (Yields.get_iff.2 ⟨rfl, rfl⟩)]
    obtain ⟨⟨last, -, rfl⟩, -⟩ := yields_breakCarriers hplan
    exact ih (by omega) hq rfl
  | keeps hattempt hkept hagree hnothing =>
    obtain ⟨rounds, rfl⟩ := Nat.exists_eq_add_of_le' hrounds
    rw [← hjournal] at hattempt
    rw [run_attempts_succ hp hattempt, if_neg (by rw [hkept]; decide), hagree.run_bind,
      if_pos hnothing]
    exact Yields.run_bind (yields_emitAll.2 rfl : Yields (emitAll _) _ () _)

theorem Concludes.run_loop (h : Concludes c task s p (.first p) n result) :
    (c.loop task s).run.run p = result.run task := by
  unfold loop
  rw [Yields.run_bind (Yields.get_iff.2 ⟨rfl, rfl⟩)]
  exact h.run_attempts hbody (Round.bound_first p ▸ h.le_bound) (.refl p) rfl

theorem exists_kept (hy : Yields (c.loop task s) p flow p') :
    ∃ n r a last, Concludes c task s p (.first p) n (.kept r a last) ∧
      Yields (afterLoop task.name a r.follow)
      { reserve last r.reserved with out := last.out ++ a.statements.toArray } flow p' := by
  obtain ⟨n, result, h⟩ : ∃ n result, Concludes c task s p (.first p) n result := exists_concludes _
  have hresult : result.run task = (.ok flow, p') := (h.run_loop hbody).symm.trans hy
  cases result with
  | failed e last => cases hresult
  | kept r a last => exact ⟨n, r, a, last, h, hresult⟩

/-- The variables that the breaks of the kept attempt assign were taken behind an attempt without
them, which had come to the same number. -/
theorem Concludes.exists_plan {last : Progress} {follow : Carriers}
    (h : Concludes c task s p (.first p) n (.kept r a last)) (hfollow : r.follow = some follow) :
    ∃ breaks q reserved q', Yields (breakCarriers breaks) (reserve q reserved) follow q' ∧
      q'.merges = r.reserved ∧ q.merges = last.merges := by
  obtain ⟨journal, b, q, reserved, q', hattempt, hplan, hreserved⟩ :=
    h.planned (fun _ hnone => nomatch hnone) follow hfollow
  have halike : Progress.Alike { p with journal } { p with journal := r.journal } := ⟨rfl, rfl, rfl⟩
  have hsame := (parallel_attempt hbody halike hattempt h.attempt_of_kept.1).2.2.2
  exact ⟨b.breaks, q, reserved, q', hplan, hreserved, hsame.merges.symm⟩

theorem Concludes.parallel {start' last last' : Progress}
    (hstart : start.Alike start') {r₁ r₂ : Round} {b : Attempt} {journal : Journal} {n' : Nat}
    (h : Concludes c task s start r n (.kept r₁ a last))
    (h' : Concludes c task s start' { r with journal } n' (.kept r₂ b last')) :
    r₂.follow = r₁.follow ∧ r₂.reserved = r₁.reserved ∧ b.breaks = a.breaks ∧
      b.testExit = a.testExit ∧ last.Alike last' := by
  have hattempts : ∀ {r : Round} {journal : Journal} {a b : Attempt} {p q : Progress},
      Yields (c.attempt task s r.widened r.follow) { start with journal := r.journal } a p →
      Yields (c.attempt task s r.widened r.follow) { start' with journal } b q →
      b.widened = a.widened ∧ b.breaks = a.breaks ∧ b.testExit = a.testExit ∧ p.Alike q :=
    parallel_attempt hbody ⟨hstart.temps, hstart.merges, hstart.frames⟩
  generalize hresult : LoopResult.kept r₁ a last = result at h
  induction h generalizing journal n' with
  | fails => cases hresult
  | loses hattempt hlost _ ih =>
    cases h' with
    | loses hattempt' _ hrest =>
      rw [Round.lose, (hattempts hattempt hattempt').1] at hrest
      exact ih hrest hresult
    | plans hattempt' hkept | keeps hattempt' hkept =>
      rw [(hattempts hattempt hattempt').1, hlost] at hkept
      cases hkept
  | plans hattempt hkept hunplanned hplan hdisagree _ ih =>
    cases h' with
    | loses hattempt' hlost =>
      rw [(hattempts hattempt hattempt').1, hkept] at hlost
      cases hlost
    | plans hattempt' _ _ hplan' _ hrest =>
      obtain ⟨-, hbreaks, -, hq⟩ := hattempts hattempt hattempt'
      rw [hbreaks] at hplan'
      obtain ⟨rfl, hq'⟩ := (threads_steady.breakCarriers _).parallel _ _ _ _ _ _
        (Progress.Alike.reserve hq _) hplan hplan'
      rw [Round.plan, hq'.merges] at hrest
      exact ih hrest hresult
    | keeps hattempt' _ hagree hnothing =>
      obtain ⟨-, hbreaks, -, hq⟩ := hattempts hattempt hattempt'
      unfold planFor at hagree
      rw [hunplanned, if_neg (by decide), hbreaks] at hagree
      obtain ⟨rfl, -⟩ := (threads_steady.breakCarriers _).parallel _ _ _ _ _ _
        (Progress.Alike.reserve hq _) hplan hagree
      rw [hdisagree] at hnothing
      cases hnothing
  | keeps hattempt hkept hagree hnothing =>
    cases hresult
    cases h' with
    | loses hattempt' hlost =>
      rw [(hattempts hattempt hattempt').1, hkept] at hlost
      cases hlost
    | plans hattempt' _ hunplanned hplan hdisagree =>
      obtain ⟨-, hbreaks, -, hq⟩ := hattempts hattempt hattempt'
      unfold planFor at hagree
      rw [hunplanned, if_neg (by decide), ← hbreaks] at hagree
      obtain ⟨rfl, -⟩ := (threads_steady.breakCarriers _).parallel _ _ _ _ _ _
        (Progress.Alike.reserve hq _) hagree hplan
      rw [hdisagree] at hnothing
      cases hnothing
    | keeps hattempt' => exact ⟨rfl, rfl, (hattempts hattempt hattempt').2⟩

end

theorem steady_loop (c : Generator) (hbody : ∀ s, Steady (task.body s)) (s : SymbolicState) :
    Steady (c.loop task s) := by
  refine ⟨fun {p flow p'} hy => ?_, fun p flow p' q flow' q' hq hy hy' => ?_⟩
  · obtain ⟨n, r, a, last, h, hafter⟩ := exists_kept hbody hy
    have hattempted := grows_attempt hbody h.attempt_of_kept.1
    have hkept : p.Grows
        { reserve last r.reserved with out := last.out ++ a.statements.toArray } := by
      refine ⟨⟨hattempted.issue.trans ⟨Nat.le_refl _, Nat.le_max_left _ _, id⟩, hattempted.length,
        hattempted.frame⟩, ?_⟩
      rw [Array.toList_append]
      exact hattempted.out.trans (List.prefix_append _ _)
    exact hkept.trans ((threads_steady.afterLoop _ False.elim False.elim _ fun _ _ =>
      trivial).grows hafter)
  · obtain ⟨n, r, a, last, h, hafter⟩ := exists_kept hbody hy
    obtain ⟨n', r', b, last', h', hafter'⟩ := exists_kept hbody hy'
    have hround : Round.first q = { Round.first p with journal := q.journal } := by
      unfold Round.first
      rw [hq.merges]
    rw [hround] at h'
    obtain ⟨hfollow, hreserved, hbreaks, hexit, hlast⟩ := h.parallel hbody hq h'
    have hafterLoop : afterLoop task.name b r'.follow = afterLoop task.name a r.follow := by
      unfold afterLoop
      rw [hbreaks, hexit, hfollow]
    rw [hafterLoop, hreserved] at hafter'
    have hemitted : Progress.Alike
        { reserve last r.reserved with out := last.out ++ a.statements.toArray }
        { reserve last' r.reserved with out := last'.out ++ b.statements.toArray } :=
      ⟨hlast.temps, congrArg (max · r.reserved) hlast.merges, hlast.frames⟩
    exact (threads_steady.afterLoop _ False.elim False.elim _ fun _ _ =>
      trivial).parallel _ _ _ _ _ _ hemitted hafter hafter'

end Attempts

theorem throughLoops_steady : ThroughLoops @Steady := fun c _ _ _ _ _ hbody => c.steady_loop hbody

theorem steady_node (c : Generator) (n : ControlNode) (s : SymbolicState) : Steady (c.node n s) :=
  nestable_steady.node c throughLoops_steady n s

theorem steady_nodes (c : Generator) (nodes : List ControlNode) (s : SymbolicState) :
    Steady (c.nodes nodes s) :=
  nestable_steady.nodes c throughLoops_steady nodes s

end Generator

end Lift6502
