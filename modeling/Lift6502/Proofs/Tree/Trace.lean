import Lift6502.Proofs.Flow.Dominance
import Lift6502.Proofs.Tree.Shape

/-!
# The blocks that a run executes

A run is given the outcome of each conditional branch in advance and records the blocks that it
executes.
-/

namespace Lift6502

open ControlNode (runAll)

variable {ε σ : Type} {r : Except ε (Way × σ)} {M : BlockMachine ε σ} {fuel : Nat} {left : σ → Nat}
  {s : σ}

/-- Every block that a machine executes uses up some of what is `left`. -/
structure BlockMachine.Bounded (M : BlockMachine ε σ) (left : σ → Nat) : Prop where
  on_lt : ∀ b s s', M.run b s = .ok (.on s') → left s' < left s
  ne_limit : ∀ b s, M.run b s ≠ .error M.limit

namespace ControlNode

def IsProductive : ControlNode → Prop
  | .loop kind _ _ body _ _ => kind = .preTest ∨ startsWithBlock body = true
  | _ => True

/-- A result that used up at least `used`, unless the routine is over, and is not for
want of passes. -/
def UsesUp (M : BlockMachine ε σ) (left : σ → Nat) (used : Nat) (s : σ) :
    Except ε (Way × σ) → Prop
  | .error e => e ≠ M.limit
  | .ok (.finished, _) => True
  | .ok (_, s') => left s' + used ≤ left s

variable {M : BlockMachine ε σ} {left : σ → Nat} {fuel used : Nat} {next : BlockId}

theorem UsesUp.weaken {s s1 : σ} (h : UsesUp M left 0 s1 r)
    (hle : left s1 + used ≤ left s) : UsesUp M left used s r := by
  rcases r with e | ⟨way, s'⟩
  · exact h
  · cases way with
    | finished => trivial
    | onward | breakLoop | continueLoop | away =>
      simp only [UsesUp] at h ⊢
      omega

def PassUsesUp (M : BlockMachine ε σ) (left : σ → Nat) (s : σ) :
    Except ε (σ ⊕ (Way × σ)) → Prop
  | .error e => e ≠ M.limit
  | .ok (.inl s') => left s' < left s
  | .ok (.inr r) => UsesUp M left 0 s (.ok r)

theorem passUsesUp_afterBody {kind : LoopKind} {again : σ → Bool} {label : Option String}
    (h : UsesUp M left 1 s r) : PassUsesUp M left s (r.map (afterBody kind again label)) := by
  rcases r with e | ⟨way, s'⟩
  · exact h
  · cases way with
    | finished => trivial
    | away => exact Nat.le_of_lt h
    | onward =>
      simp only [Except.map, afterBody]
      split
      · exact Nat.le_of_lt h
      · exact h
    | continueLoop =>
      simp only [Except.map, afterBody]
      split
      · exact h
      · exact Nat.le_of_lt h
    | breakLoop =>
      simp only [Except.map, afterBody]
      split <;> exact Nat.le_of_lt h

theorem usesUp_runPasses {pass : σ → Except ε (σ ⊕ (Way × σ))}
    (hpass : ∀ s, left s < fuel → PassUsesUp M left s (pass s)) (passes : Nat) (s : σ)
    (hfuel : left s < fuel) (hpasses : left s < passes) :
    UsesUp M left 0 s (runPasses M.limit pass passes s) := by
  induction passes generalizing s with
  | zero => omega
  | succ passes ih =>
    have h := hpass s hfuel
    rw [runPasses]
    rcases hp : pass s with e | (s' | r) <;> rw [hp] at h
    · exact h
    · have hless : left s' < left s := h
      exact (ih s' (by omega) (by omega)).weaken (by omega)
    · exact h

theorem usesUp_block (hM : M.Bounded left) (b : BlockId) (rest : List ControlNode) (s : σ)
    (hrest : ∀ s', left s' < left s → UsesUp M left 0 s' (runAll M fuel next rest s')) :
    UsesUp M left 1 s (runAll M fuel next (.block b :: rest) s) := by
  rw [runAll, run]
  rcases h : M.run b s with e | (s' | s')
  · intro heq
    exact hM.ne_limit b s (heq ▸ h)
  · have hless := hM.on_lt b s s' h
    exact (hrest s' hless).weaken hless
  · trivial

mutual

theorem usesUp_run (hM : M.Bounded left) :
    ∀ (n : ControlNode) (s : σ), (∀ m ∈ n.descendants, m.IsProductive) → left s < fuel →
      UsesUp M left 0 s (run M fuel next n s)
  | .block b, s, _, _ => by
    rw [run]
    rcases h : M.run b s with e | (s' | s')
    · intro heq
      exact hM.ne_limit b s (heq ▸ h)
    · exact Nat.le_of_lt (hM.on_lt b s s' h)
    · trivial
  | .cond c thenBranch elseBranch join, s, hn, hs => by
    have hmem : ∀ m ∈ listDescendants thenBranch ++ listDescendants elseBranch, m.IsProductive :=
      fun m hm => hn m (List.mem_cons_of_mem _ hm)
    rw [run]
    split
    · exact usesUp_runAll hM thenBranch s (fun m hm => hmem m (List.mem_append_left _ hm)) hs
    · exact usesUp_runAll hM elseBranch s (fun m hm => hmem m (List.mem_append_right _ hm)) hs
  | .loop kind header condition body label follow, s, hn, hs => by
    have hbody : ∀ m ∈ listDescendants body, m.IsProductive :=
      fun m hm => hn m (List.mem_cons_of_mem _ hm)
    have hproductive : kind = .preTest ∨ startsWithBlock body = true :=
      hn (.loop kind header condition body label follow) List.mem_cons_self
    rw [run]
    refine usesUp_runPasses (fun s hs => ?_) fuel s hs hs
    have hrun := fun s hs => usesUp_runAll hM body s hbody hs
    have hstart : startsWithBlock body = true →
        UsesUp M left 1 s (runAll M fuel next body s) := fun hstarts =>
      match body, hstarts with
      | .block b :: rest, _ => by
        refine usesUp_block hM b rest s fun s' hs' => ?_
        exact usesUp_runAll hM rest s' (fun m hm => hbody m (List.mem_cons_of_mem _ hm)) (by omega)
    cases kind with
    | preTest =>
      rw [ControlNode.pass]
      rcases hh : M.run header s with e | (s1 | s1)
      · intro heq
        exact hM.ne_limit header s (heq ▸ hh)
      · have hless := hM.on_lt header s s1 hh
        simp only
        split
        · exact passUsesUp_afterBody ((hrun s1 (by omega)).weaken hless)
        · exact Nat.le_of_lt hless
      · trivial
    | postTest | infinite =>
      exact passUsesUp_afterBody (hstart (hproductive.resolve_left (by simp)))
  | .goto b, s, _, _ => Nat.le_refl _
  | .breakLoop label, s, _, _ => Nat.le_refl _
  | .continueLoop label, s, _, _ => Nat.le_refl _

theorem usesUp_runAll (hM : M.Bounded left) :
    ∀ (nodes : List ControlNode) (s : σ), (∀ m ∈ listDescendants nodes, m.IsProductive) →
      left s < fuel → UsesUp M left 0 s (runAll M fuel next nodes s)
  | [], s, _, _ => Nat.le_refl _
  | n :: rest, s, hn, hs => by
    have hfirst := usesUp_run hM n s (fun m hm => hn m (List.mem_append_left _ hm)) hs
    rw [runAll]
    rcases hr : run M fuel next n s with e | ⟨way, s'⟩ <;> rw [hr] at hfirst
    · exact hfirst
    · cases way with
      | onward =>
        have hle : left s' + 0 ≤ left s := hfirst
        exact (usesUp_runAll hM rest s' (fun m hm => hn m (List.mem_append_right _ hm))
          (by omega)).weaken hle
      | finished | breakLoop | continueLoop | away => exact hfirst

end

end ControlNode

structure Trace where
  ran : List BlockId := []
  used : Nat := 0
  /-- The outcome of the branch at the last execution of each block. -/
  outcome : BlockId → Bool := fun _ => false

inductive TraceStop where
  /-- It has executed as many blocks as it may. -/
  | full (ran : List BlockId)
  /-- A loop has taken as many passes as it may. -/
  | passes
  deriving DecidableEq, Repr

/-- The execution of one block. A conditional branch uses the next outcome. -/
def Trace.execute (s : Trace) (g : Graph) (outcomes : Nat → Bool) (b : BlockId) : Trace :=
  if (g.block b).isConditional then
    { ran := s.ran ++ [b], used := s.used + 1
      outcome := fun c => if c = b then outcomes s.used else s.outcome c }
  else { s with ran := s.ran ++ [b] }

/-- Blocks are recorded, at most `limit` of them; one without exits ends the routine. -/
def Graph.tracer (g : Graph) (outcomes : Nat → Bool) (limit : Nat) :
    BlockMachine TraceStop Trace where
  run b s :=
    if limit ≤ s.ran.length then .error (.full s.ran)
    else
      let s := s.execute g outcomes b
      .ok (if (g.successors b).isEmpty then .finished s else .on s)
  taken b s := s.outcome b
  limit := .passes

inductive Course where
  /-- It is cut off after these blocks. -/
  | cut (ran : List BlockId)
  /-- It leaves the routine after these blocks, perhaps for the entry of another one. -/
  | left (ran : List BlockId) (target : Option BlockId)
  /-- It does not know where to go. -/
  | astray
  deriving DecidableEq, Repr

def Course.ofResult : Except TraceStop (Way × Trace) → Course
  | .error (.full ran) => .cut ran
  | .error .passes => .astray
  | .ok (.onward, s) | .ok (.finished, s) => .left s.ran none
  | .ok (.away target, s) => .left s.ran (some target)
  | .ok (.breakLoop _, _) | .ok (.continueLoop _, _) => .astray

def ControlTree.course (t : ControlTree) (g : Graph) (outcomes : Nat → Bool) (limit : Nat) :
    Course :=
  .ofResult (runAll (g.tracer outcomes limit) (limit + 1) 0 t.nodes {})

def Graph.course (g : Graph) (r : Routine) (outcomes : Nat → Bool) (limit : Nat) : Course :=
  .ofResult (g.follow (g.tracer outcomes limit) r.blocks (limit + 1) r.entry {})

namespace Graph

variable {g : Graph} {outcomes : Nat → Bool} {limit : Nat} {b : BlockId} {members : BlockSet}

theorem length_execute (s : Trace) (b : BlockId) :
    (s.execute g outcomes b).ran.length = s.ran.length + 1 := by
  unfold Trace.execute
  split <;> simp

theorem tracer_run_on {s s' : Trace} (h : (g.tracer outcomes limit).run b s = .ok (.on s')) :
    s.ran.length < limit ∧ g.successors b ≠ [] ∧ s' = s.execute g outcomes b := by
  simp only [tracer] at h
  split at h
  · cases h
  · next hlen =>
    split at h
    · cases h
    · next hsucc =>
      cases h
      exact ⟨by omega, by simpa using hsucc, rfl⟩

theorem endsAtExits_tracer : Layout.EndsAtExits g (g.tracer outcomes limit) :=
  fun _ _ _ h => (tracer_run_on h).2.1

theorem bounded_tracer (g : Graph) (outcomes : Nat → Bool) (limit : Nat) :
    (g.tracer outcomes limit).Bounded fun s => limit - s.ran.length where
  on_lt b s s' h := by
    obtain ⟨hlen, -, rfl⟩ := tracer_run_on h
    rw [length_execute]
    omega
  ne_limit b s h := by
    simp only [tracer] at h
    split at h <;> cases h

theorem follow_ne_limit (hM : M.Bounded left)
    (hfuel : left s < fuel) : g.follow M members fuel b s ≠ .error M.limit := by
  induction fuel generalizing b s with
  | zero => omega
  | succ fuel ih =>
    rw [follow]
    rcases hrun : M.run b s with e | (s1 | s1)
    · intro heq
      cases heq
      exact hM.ne_limit b s hrun
    · have hless := hM.on_lt b s s1 hrun
      rcases hexit : g.exitAfter M b s1 with _ | t
      · simp [hexit]
      · simp only [hexit]
        split
        · exact ih (by omega)
        · simp
    · simp

theorem follow_ok {s s' : σ} {way : Way}
    (h : g.follow M members fuel b s = .ok (way, s')) : way = .finished ∨ ∃ t, way = .away t := by
  induction fuel generalizing b s with
  | zero => cases h
  | succ fuel ih =>
    rw [follow] at h
    split at h
    · cases h
    · cases h
      exact .inl rfl
    · split at h
      · cases h
        exact .inl rfl
      · split at h
        · exact ih h
        · cases h
          exact .inr ⟨_, rfl⟩

theorem course_ne_astray (g : Graph) (r : Routine) (outcomes : Nat → Bool) (limit : Nat) :
    g.course r outcomes limit ≠ .astray := by
  have hne : g.follow (g.tracer outcomes limit) r.blocks (limit + 1) r.entry {} ≠
      .error TraceStop.passes := follow_ne_limit (bounded_tracer g outcomes limit) (by simp)
  rw [course]
  rcases hf : g.follow (g.tracer outcomes limit) r.blocks (limit + 1) r.entry {} with e | ⟨way, s⟩
  · cases e with
    | full => simp [Course.ofResult]
    | passes => exact absurd hf hne
  · rcases follow_ok hf with rfl | ⟨t, rfl⟩ <;> simp [Course.ofResult]

end Graph

theorem Paths.Finishes.unique {P : Paths ε σ} {b : BlockId} {r r' : Except ε (Way × σ)}
    (h : P.Finishes b s r) (h' : P.Finishes b s r') (hne : r ≠ .error P.machine.limit)
    (hne' : r' ≠ .error P.machine.limit) : r = r' := by
  obtain ⟨n, rfl⟩ := h
  obtain ⟨m, rfl⟩ := h'
  rcases Nat.le_total n m with hle | hle
  · exact (Graph.follow_mono hle hne).symm
  · exact Graph.follow_mono hle hne'

namespace Layout

open Paths

variable {l : Layout} {nodes : List ControlNode} {named : BlockSet}

theorem rooted_ofRoutine {g : Graph} {r : Routine} (hentry : r.entry ∈ r.blocks) :
    (ofRoutine g r).Rooted where
  entry_mem := hentry
  order _ hb := Dominators.mem_order.1 hb
  loops _ hloop := ⟨LoopForest.header_mem_body hloop, fun _ hb =>
    Dominators.mem_order.1 (LoopForest.mem_order_of_mem_latches hloop hb)⟩

theorem regular_ofRoutine {g : Graph} {r : Routine} (hentry : r.entry ∈ r.blocks)
    (hexits : ∀ b, (ofRoutine g r).IsReachable b → (g.block b).isConditional = true →
      (∃ taken, (g.block b).branch = some taken) ∧ ∃ fall, (g.block b).fallThrough = some fall) :
    (ofRoutine g r).Regular where
  toRooted := rooted_ofRoutine hentry
  exits := hexits

theorem isProductive_of_hasShape {n : ControlNode} (h : l.HasShape n) : n.IsProductive := by
  cases n with
  | loop kind header c body label follow =>
    cases kind with
    | preTest => exact .inl rfl
    | postTest => exact .inr h.2.1
    | infinite => exact .inr h.2.2
  | block | cond | goto | breakLoop | continueLoop => trivial

theorem runAll_eq_of_finishes (hM : M.Bounded left) (hshape : l.AllShaped nodes)
    (h : (l.paths M).Follows [] named nodes l.routine.entry none) (hfuel : left s < fuel)
    (hne : r ≠ .error M.limit) (hr : (l.paths M).Finishes l.routine.entry s r) (next : BlockId) :
    runAll M fuel next nodes s = r := by
  have hleads : (l.paths M).Leads [] named l.routine.entry s none
      (runAll M fuel next nodes s) := h fuel next s
  have huses : ControlNode.UsesUp M left 0 s (runAll M fuel next nodes s) :=
    ControlNode.usesUp_runAll hM nodes s (fun m hm => isProductive_of_hasShape (hshape m hm)) hfuel
  generalize runAll M fuel next nodes s = result at hleads huses ⊢
  rcases result with e | ⟨way, s'⟩
  · have hlimit : e ≠ M.limit := huses
    exact (hleads.resolve_left hlimit).unique hr (fun heq => hlimit (Except.error.inj heq)) hne
  · cases way with
    | onward =>
      obtain ⟨b, hb, -⟩ := hleads
      cases hb
    | continueLoop label =>
      obtain ⟨c, hc, -⟩ := hleads
      cases label with
      | none => cases hc
      | some name => cases hc.1
    | breakLoop label =>
      obtain ⟨c, b, hc, -⟩ := hleads
      cases label with
      | none => cases hc
      | some name => cases hc.1
    | finished => exact hleads.unique hr (by simp) hne
    | away target => exact hleads.unique hr (by simp) hne

theorem course_eq_of_follows {outcomes : Nat → Bool} {limit : Nat} (hshape : l.AllShaped nodes)
    (h : (l.paths (l.graph.tracer outcomes limit)).Follows [] named nodes l.routine.entry none) :
    Course.ofResult (runAll (l.graph.tracer outcomes limit) (limit + 1) 0 nodes {}) =
      l.graph.course l.routine outcomes limit := by
  have hfuel : limit - ({} : Trace).ran.length < limit + 1 := by simp
  have hbounded := Graph.bounded_tracer l.graph outcomes limit
  exact congrArg Course.ofResult (runAll_eq_of_finishes hbounded hshape h hfuel
    (Graph.follow_ne_limit hbounded hfuel) ⟨limit + 1, rfl⟩ 0)

end Layout

end Lift6502
