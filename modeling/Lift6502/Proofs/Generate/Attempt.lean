import Lift6502.Proofs.Generate.Join
import Lift6502.Proofs.Generate.Jump

/-!
# What a loop starts and ends with

In the attempt that is kept no carried location is lost, what its breaks assign is taken by no other
code, and each break leads to the state after the loop.
-/

namespace Lift6502

open Expression Gen Generator

variable {H : Host} {p p' : Progress} {σ : Scene} {s : SymbolicState} {core : Core}
  {base : List UInt8} {flow : Option SymbolicState} {follow : Option Carriers}
  {widened : LocationSet}
  {task : LoopTask}

theorem Performs.foldlM {α β : Type} {f : β → α → Gen β} {I : List α → β → Progress → Scene → Prop}
    (hstep : ∀ a rest b p σ, I (a :: rest) b p σ → Performs Progress.issue H (f b a) p σ (I rest))
    {l : List α} {b : β} (h : I l b p σ) : Performs Progress.issue H (l.foldlM f b) p σ (I []) := by
  -- Induction on what is left; the invariant for it is handed from step to step.
  induction l generalizing b p σ with
  | nil => exact .pure h
  | cons a rest ih =>
    rw [List.foldlM_cons]
    exact .bind (hstep a rest b p σ h) fun _ _ _ _ h' => ih h'

/-- While a loop is entered: some locations have their variables, some have lost their value, and
the others are `left` or are not changed by the loop. -/
structure Entering (task : LoopTask) (s : SymbolicState) (widened : LocationSet) (cpu : Cpu)
    (p : Progress) (σ : Scene) (left : List Location) (r : Carriers × SymbolicState) (p' : Progress)
    (σ' : Scene) : Prop where
  keeps : σ.env.Keeps p.issue σ'.env
  issue : p.issue.Le p'.issue
  memory : σ'.memory = σ.memory
  stack : r.2.stack = s.stack
  phi : ∀ l v, r.1.get l = some v → (∃ id, v = .merge l id) ∧ ¬ v.IsIssued p.issue ∧
    v.IsIssued p'.issue ∧ l ∉ widened ∧ σ'.env.get? v = some (cpu.value l)
  location : ∀ l, (∃ v, r.1.get l = some v ∧ r.2.get l = .ofVariable v) ∨
    (∃ origin, r.2.get l = .unresolved origin) ∨
      (l ∈ left ∨ l ∉ task.modified) ∧ r.2.get l = s.get l

namespace Entering

variable {task : LoopTask} {widened : LocationSet} {cpu : Cpu} {σ' : Scene} {l : Location}
  {left : List Location} {r : Carriers × SymbolicState}

theorem lose (h : Entering task s widened cpu p σ (l :: left) r p' σ') :
    Entering task s widened cpu p σ left (r.1, enterLoop.lose task r.2 l) p' σ' := by
  refine ⟨h.keeps, h.issue, h.memory, h.stack, h.phi, fun k => ?_⟩
  unfold enterLoop.lose
  by_cases hk : k = l
  · rw [SymbolicState.get_set, if_pos hk]
    exact .inr (.inl ⟨_, rfl⟩)
  · rw [SymbolicState.get_set, if_neg hk]
    refine (h.location k).imp id (Or.imp id (And.imp_left (Or.imp_left fun hmem => ?_)))
    exact (List.mem_cons.1 hmem).resolve_left hk

theorem carry (h : Entering task s widened cpu p σ (l :: left) r p' σ') (hl : l ∉ widened) :
    Entering task s widened cpu p σ left (r.1.set l (some (.merge l (p'.merges + 1))),
        r.2.set l (.ofVariable (.merge l (p'.merges + 1))))
      { p' with merges := p'.merges + 1 } (σ'.assign (.merge l (p'.merges + 1)) (cpu.value l)) := by
  -- The number is new, so that no variable in use changes.
  have hnew := not_isIssued_newMerge p' l
  have hkeeps : σ'.env.Keeps p'.issue (σ'.assign (.merge l (p'.merges + 1)) (cpu.value l)).env :=
    Environment.keeps_set hnew _
  have hissue : p'.issue.Le (Progress.issue { p' with merges := p'.merges + 1 }) :=
    ⟨Nat.le_refl _, Nat.le_succ _, id⟩
  refine ⟨h.keeps.trans hkeeps h.issue, h.issue.trans hissue, h.memory, h.stack,
    fun k v hv => ?_, fun k => ?_⟩
  · rw [Carriers.get_set] at hv
    by_cases hk : k = l
    · rw [if_pos hk] at hv
      cases hv
      refine ⟨⟨_, by rw [hk]⟩, fun hold => hnew (hold.mono h.issue), Nat.le_refl (p'.merges + 1),
        by rw [hk]; exact hl, ?_⟩
      show (σ'.env.set _ _).get? _ = _
      rw [Environment.get?_set, if_pos rfl, hk]
    · rw [if_neg hk] at hv
      obtain ⟨hmerge, hbefore, hissued, hcarried, hvalue⟩ := h.phi k v hv
      exact ⟨hmerge, hbefore, hissued.mono hissue, hcarried, by rw [hkeeps v hissued, hvalue]⟩
  · by_cases hk : k = l
    · refine .inl ⟨.merge l (p'.merges + 1), ?_, ?_⟩
      · rw [Carriers.get_set, if_pos hk]
      · rw [SymbolicState.get_set, if_pos hk]
    · rw [Carriers.get_set, if_neg hk, SymbolicState.get_set, if_neg hk]
      refine (h.location k).imp id (Or.imp id (And.imp_left (Or.imp_left fun hmem => ?_)))
      exact (List.mem_cons.1 hmem).resolve_left hk

end Entering

theorem performs_enterLoop (hm : Matches Progress.issue core base s p σ) :
    Performs Progress.issue H (enterLoop task s widened) p σ
      (Entering task s widened core.cpu p σ []) := by
  have hstart : Entering task s widened core.cpu p σ task.modified.toList (Carriers.empty, s)
      p σ := by
    refine ⟨.refl, .refl _, rfl, rfl, fun l v hv => ?_, fun l => .inr (.inr ⟨?_, rfl⟩)⟩
    · rw [Carriers.get_empty] at hv
      cases hv
    · rw [LocationSet.mem_toList]
      exact Decidable.em _
  refine Performs.foldlM (fun l left r p1 σ1 h => ?_) hstart
  simp only
  split
  · next value hvalue =>
    split
    -- A location that an earlier attempt has widened is not carried.
    · exact .pure h.lose
    · next hl =>
      intro r' p3 hy
      obtain ⟨v, p2, hnew, hy⟩ := hy.of_bind
      obtain ⟨rfl, rfl⟩ := yields_newMerge.1 hnew
      obtain ⟨_, _, hemit, hpure⟩ := hy.of_bind
      obtain rfl := yields_emit.1 hemit
      obtain ⟨rfl, rfl⟩ := hpure.of_pure
      have heval : value.eval H.function σ1.env σ1.memory = .ok (core.cpu.value l) :=
        ((hm.describes.hasValue hvalue).mono (h.keeps.known_le h.issue)).eval_known H.function
      have hcarry := h.carry hl
      refine ⟨σ1.assign (.merge l (p1.merges + 1)) (core.cpu.value l), ⟨⟨?_, rfl, ?_⟩, ?_, ?_⟩,
        ⟨hcarry.keeps, hcarry.issue, hcarry.memory, hcarry.stack, hcarry.phi, hcarry.location⟩⟩
      · exact Progress.prefix_push rfl
      · exact ⟨Nat.le_refl _, Nat.le_succ _, id⟩
      · rw [Progress.emitted_push rfl]
        exact Host.run_assign heval
      · exact Environment.keeps_set (not_isIssued_newMerge p1 l) _
  · exact .pure h.lose

/-! ## Behind a loop -/

theorem yields_afterLoop {name : String} {a : Attempt}
    (hy : Yields (afterLoop name a follow) p flow p') :
    p' = p ∧ (∀ exit, a.testExit = some exit → flow = some exit ∧ a.breaks = []) ∧
      ∀ s ∈ a.breaks, ∃ s', flow = some s' ∧ ∀ known core base, s.Describes known core base →
        (∀ l v, (follow.getD .empty).get l = some v → known v = some (core.cpu.value l)) →
        s'.Describes known core base := by
  unfold afterLoop at hy
  split at hy
  · next exit hexit hbreaks =>
    obtain ⟨rfl, rfl⟩ := hy.of_pure
    rw [hexit, hbreaks]
    exact ⟨rfl, fun e he => ⟨he, rfl⟩, fun s hs => absurd hs List.not_mem_nil⟩
  · exact absurd hy Yields.not_throw
  · next hexit hbreaks =>
    obtain ⟨rfl, rfl⟩ := hy.of_pure
    rw [hexit, hbreaks]
    exact ⟨rfl, (fun e he => nomatch he), fun s hs => absurd hs List.not_mem_nil⟩
  · next first others hexit hbreaks =>
    obtain ⟨stack, p1, hjoin, hpure⟩ := hy.of_bind
    obtain ⟨hstack, rfl⟩ := Yields.ofExcept_iff.1 hjoin
    obtain ⟨rfl, rfl⟩ := hpure.of_pure
    rw [hexit, hbreaks]
    refine ⟨rfl, (fun e he => nomatch he), fun s hs =>
      ⟨_, rfl, fun known core base hd hfollow => ?_⟩⟩
    refine ⟨fun l => ?_, hd.stack.join hstack hs⟩
    rw [SymbolicState.get, PerLocation.get_ofFn]
    split
    · next v hv => exact Binding.holds_ofVariable (hfollow l v hv)
    · split
      · next hall =>
        -- The breaks agree, so the first of them has the value as well.
        have hsame : s.get l = first.get l := by
          rcases List.mem_cons.1 hs with rfl | hs
          · rfl
          · simpa using List.all_eq_true.1 hall s hs
        have hlocation := hd.location l
        rw [hsame] at hlocation
        exact hlocation
      · exact Binding.holds_unresolved _

/-! ## The last attempt -/

/-- The variables that the breaks of an attempt assign: they are not in use in its code, and in
use behind it. -/
def FollowBetween (follow : Option Carriers) (i j : Issue) : Prop :=
  ∀ l v, (follow.getD .empty).get l = some v →
    (∃ id, v = .merge l id) ∧ ¬ v.IsIssued i ∧ v.IsIssued j

theorem exists_attempt {c : Generator} (hbody : ∀ s, Steady (task.body s))
    (hy : Yields (c.loop task s) p flow p') :
    ∃ journal widened follow a q last,
      Yields (c.attempt task s widened follow) { p with journal } a q ∧
      (∀ l ∈ a.widened, l ∈ widened) ∧ q.merges ≤ last ∧
      FollowBetween follow q.issue { q.issue with merges := last } ∧
      Yields (afterLoop task.name a follow)
        { q with merges := last, out := q.out ++ a.statements.toArray } flow p' := by
  obtain ⟨n, r, a, q, h, hafter⟩ := exists_kept hbody hy
  obtain ⟨hattempt, hkept⟩ := h.attempt_of_kept
  refine ⟨r.journal, r.widened, r.follow, a, q, max q.merges r.reserved, hattempt,
    LocationSet.subset_iff.1 hkept, Nat.le_max_left _ _, fun l v hv => ?_, hafter⟩
  cases hfollow : r.follow with
  | none =>
    rw [hfollow, Option.getD_none, Carriers.get_empty] at hv
    cases hv
  | some follow =>
    obtain ⟨breaks, q0, reserved, q1, hplan, hreserved, hmerges⟩ := h.exists_plan hbody hfollow
    rw [hfollow] at hv
    obtain ⟨id, rfl, hlow, hhigh⟩ := (yields_breakCarriers hplan).2 l v hv
    have hlow : max q0.merges reserved < id := hlow
    refine ⟨⟨id, rfl⟩, ?_, ?_⟩
    · show ¬ id ≤ q.merges
      omega
    · show id ≤ max q.merges r.reserved
      omega

end Lift6502
