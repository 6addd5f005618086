import Lift6502.Proofs.Tree.Run

/-!
# Trees that follow the exits of blocks

`Follows` relates nodes of a tree to the block graph: whatever a run of the nodes does, the exits
lead there too.
-/

namespace Lift6502

open ControlNode
open Evaluator (isFor)

/-- A graph with a meaning of its blocks, and the blocks of one routine. -/
structure Paths (ε σ : Type) where
  graph : Graph
  machine : BlockMachine ε σ
  members : BlockSet

namespace Paths

variable {ε σ : Type} {P : Paths ε σ} {b : BlockId} {l : LoopScope} {more : BlockSet}
  {body : List ControlNode} {follow : Option BlockId} {r : Except ε (Way × σ)} {c t f : BlockId}
  {s1 s : σ} {next : Option BlockId}

/-- The exits lead from the start of a block to the start of another one, inside the routine. -/
inductive Reaches (P : Paths ε σ) : BlockId → σ → BlockId → σ → Prop where
  | refl {b : BlockId} {s : σ} : Reaches P b s b s
  | step {b t c : BlockId} {s s₁ s₂ : σ} (ran : P.machine.run b s = .ok (.on s₁))
      (exit : P.graph.exitAfter P.machine b s₁ = some t) (inside : t ∈ P.members)
      (rest : Reaches P t s₁ c s₂) : Reaches P b s c s₂

def Finishes (P : Paths ε σ) (b : BlockId) (s : σ) (r : Except ε (Way × σ)) : Prop :=
  ∃ n, P.graph.follow P.machine P.members n b s = r

theorem Reaches.trans {d : BlockId} {s2 s3 : σ} (h1 : P.Reaches b s1 c s2)
    (h2 : P.Reaches c s2 d s3) : P.Reaches b s1 d s3 := by
  induction h1 with
  | refl => exact h2
  | step ran exit inside _ ih => exact .step ran exit inside (ih h2)

theorem Finishes.step
    (ran : P.machine.run b s = .ok (.on s1)) (exit : P.graph.exitAfter P.machine b s1 = some t)
    (inside : t ∈ P.members) (h : P.Finishes t s1 r) : P.Finishes b s r := by
  obtain ⟨n, hn⟩ := h
  refine ⟨n + 1, ?_⟩
  rw [Graph.follow, ran]
  simp only [exit, if_pos inside, hn]

theorem Reaches.finishes {s' : σ} (h : P.Reaches b s c s')
    (hr : P.Finishes c s' r) : P.Finishes b s r := by
  induction h with
  | refl => exact hr
  | step ran exit inside _ ih => exact (ih hr).step ran exit inside

/-- A jump with a label, or without one, is for a loop: the innermost one, or the innermost one of
that name, which then has to be among the `named` loops. -/
def IsTarget (named : BlockSet) (enclosing : List LoopScope) (label : Option String)
    (l : LoopScope) : Prop :=
  match label with
  | none => enclosing.head? = some l
  | some name => enclosing.find? (fun l => l.label = name) = some l ∧ l.header ∈ named

/-- The exits lead from a block to where a run of some nodes ended. Behind the nodes control is
at `resume`. -/
def Leads (P : Paths ε σ) (enclosing : List LoopScope) (named : BlockSet) (start : BlockId) (s : σ)
    (resume : Option BlockId) : Except ε (Way × σ) → Prop
  | .error e => e = P.machine.limit ∨ P.Finishes start s (.error e)
  | .ok (.onward, s') => ∃ b, resume = some b ∧ P.Reaches start s b s'
  | .ok (.continueLoop label, s') =>
    ∃ l, IsTarget named enclosing label l ∧ P.Reaches start s l.header s'
  | .ok (.breakLoop label, s') =>
    ∃ l b, IsTarget named enclosing label l ∧ l.follow = some b ∧ P.Reaches start s b s'
  | .ok (.finished, s') => P.Finishes start s (.ok (.finished, s'))
  | .ok (.away t, s') => P.Finishes start s (.ok (.away t, s'))

/-- Every run of the nodes goes where the exits lead from `start`. -/
def Follows (P : Paths ε σ) (enclosing : List LoopScope) (named : BlockSet)
    (nodes : List ControlNode) (start : BlockId) (resume : Option BlockId) : Prop :=
  ∀ fuel next s, P.Leads enclosing named start s resume (runAll P.machine fuel next nodes s)

/-- The nodes go on along an edge to `target`, which may lead out of the routine. -/
def FollowsTo (P : Paths ε σ) (enclosing : List LoopScope) (named : BlockSet)
    (nodes : List ControlNode) (target : BlockId) (resume : Option BlockId) : Prop :=
  (target ∈ P.members ∧ P.Follows enclosing named nodes target resume) ∨
    (target ∉ P.members ∧
      ∀ fuel next s, runAll P.machine fuel next nodes s = .ok (.away target, s))

variable {enclosing : List LoopScope} {named : BlockSet} {nodes rest : List ControlNode}
variable {start target : BlockId} {resume : Option BlockId} {label : Option String} {s : σ}

section

variable (sub : ∀ b ∈ named, b ∈ more)

include sub

theorem IsTarget.mono (h : IsTarget named enclosing label l) : IsTarget more enclosing label l := by
  cases label with
  | none => exact h
  | some name => exact ⟨h.1, sub _ h.2⟩

theorem Leads.mono (h : P.Leads enclosing named start s resume r) :
    P.Leads enclosing more start s resume r := by
  rcases r with e | ⟨way, s'⟩
  · exact h
  · cases way with
    | continueLoop label =>
      obtain ⟨l, hl, hr⟩ := h
      exact ⟨l, hl.mono sub, hr⟩
    | breakLoop label =>
      obtain ⟨l, b, hl, hf, hr⟩ := h
      exact ⟨l, b, hl.mono sub, hf, hr⟩
    | onward | finished | away => exact h

theorem Follows.mono (h : P.Follows enclosing named nodes start resume) :
    P.Follows enclosing more nodes start resume :=
  fun fuel next s => (h fuel next s).mono sub

theorem FollowsTo.mono (h : P.FollowsTo enclosing named nodes target resume) :
    P.FollowsTo enclosing more nodes target resume := by
  rcases h with ⟨hin, h⟩ | h
  · exact .inl ⟨hin, h.mono sub⟩
  · exact .inr h

end

theorem Leads.prepend (h1 : P.Reaches start s b s1)
    (h : P.Leads enclosing named b s1 resume r) : P.Leads enclosing named start s resume r := by
  rcases r with e | ⟨way, s'⟩
  · exact h.imp_right h1.finishes
  · cases way with
    | onward =>
      obtain ⟨c, hc, hr⟩ := h
      exact ⟨c, hc, h1.trans hr⟩
    | continueLoop label =>
      obtain ⟨l, hl, hr⟩ := h
      exact ⟨l, hl, h1.trans hr⟩
    | breakLoop label =>
      obtain ⟨l, c, hl, hf, hr⟩ := h
      exact ⟨l, c, hl, hf, h1.trans hr⟩
    | finished | away => exact h1.finishes h

/-! ## Nodes one after the other -/

theorem Follows.append (h : P.Follows enclosing named nodes start next)
    (hrest : ∀ b, next = some b → P.Follows enclosing named rest b resume) :
    P.Follows enclosing named (nodes ++ rest) start resume := by
  intro fuel next s
  have hrun := h fuel next s
  rw [runAll_append]
  rcases hr : runAll P.machine fuel next nodes s with e | ⟨way, s'⟩
  · rw [hr] at hrun
    exact hrun
  · rw [hr] at hrun
    cases way with
    | onward =>
      obtain ⟨c, hc, hreach⟩ := hrun
      exact (hrest c hc fuel next s').prepend hreach
    | breakLoop | continueLoop | finished | away => exact hrun

theorem FollowsTo.append (h : P.FollowsTo enclosing named nodes target next)
    (hrest : ∀ b, next = some b → P.Follows enclosing named rest b resume) :
    P.FollowsTo enclosing named (nodes ++ rest) target resume := by
  rcases h with ⟨hin, h⟩ | ⟨hout, h⟩
  · exact .inl ⟨hin, h.append hrest⟩
  · refine .inr ⟨hout, fun fuel next s => ?_⟩
    rw [runAll_append, h]

theorem FollowsTo.of_none (h : P.FollowsTo enclosing named nodes target none) :
    P.FollowsTo enclosing named nodes target resume := by
  have h' : P.FollowsTo enclosing named (nodes ++ []) target resume :=
    h.append fun _ hb => by cases hb
  rwa [List.append_nil] at h'

theorem FollowsTo.follows (h : P.FollowsTo enclosing named nodes target resume)
    (inside : target ∈ P.members) : P.Follows enclosing named nodes target resume := by
  rcases h with ⟨-, h⟩ | ⟨hout, -⟩
  · exact h
  · exact absurd inside hout

/-! ## Single nodes -/

theorem follows_nil : P.Follows enclosing named [] start (some start) :=
  fun _ _ _ => ⟨start, rfl, .refl⟩

theorem followsTo_goto (outside : target ∉ P.members) :
    P.FollowsTo enclosing named [.goto target] target resume :=
  .inr ⟨outside, fun _ _ _ => rfl⟩

theorem follows_continue (h : IsTarget named enclosing label l) (hl : l.header = target) :
    P.Follows enclosing named [.continueLoop label] target resume :=
  fun _ _ _ => ⟨l, h, hl ▸ .refl⟩

theorem follows_break (h : IsTarget named enclosing label l) (hl : l.follow = some target) :
    P.Follows enclosing named [.breakLoop label] target resume :=
  fun _ _ _ => ⟨l, target, h, hl, .refl⟩

theorem follows_block
    (h : ∀ s s', P.machine.run b s = .ok (.on s') → ∃ t, P.graph.exitAfter P.machine b s' = some t ∧
      ∀ fuel next, (t ∈ P.members ∧
      P.Leads enclosing named t s' resume (runAll P.machine fuel next nodes s')) ∨
      (t ∉ P.members ∧ runAll P.machine fuel next nodes s' = .ok (.away t, s'))) :
    P.Follows enclosing named (.block b :: nodes) b resume := by
  intro fuel next s
  rw [runAll, run]
  rcases hrun : P.machine.run b s with e | (s' | s')
  · right
    exact ⟨1, by rw [Graph.follow, hrun]⟩
  · obtain ⟨t, hexit, ht⟩ := h s s' hrun
    rcases ht fuel next with ⟨hin, hlead⟩ | ⟨hout, haway⟩
    · exact hlead.prepend (.step hrun hexit hin .refl)
    · simp only [haway]
      refine ⟨1, ?_⟩
      rw [Graph.follow, hrun]
      simp only [hexit, if_neg hout]
  · exact ⟨1, by rw [Graph.follow, hrun]⟩

theorem follows_block_exit (hexit : ∀ s, P.graph.exitAfter P.machine b s = some target)
    (h : P.FollowsTo enclosing named nodes target resume) :
    P.Follows enclosing named (.block b :: nodes) b resume := by
  refine follows_block fun s s' _ => ⟨target, hexit s', fun fuel next => ?_⟩
  rcases h with ⟨hin, h⟩ | ⟨hout, h⟩
  · exact .inl ⟨hin, h fuel next s'⟩
  · exact .inr ⟨hout, h fuel next s'⟩

theorem follows_block_cond {taken fall : BlockId} {sense : Bool} {join : Option BlockId}
    {onSense offSense : List ControlNode} (hcond : (P.graph.block b).isConditional = true)
    (htaken : (P.graph.block b).branch = some taken)
    (hfall : (P.graph.block b).fallThrough = some fall)
    (hon : P.FollowsTo enclosing named (onSense ++ rest) (if sense then taken else fall) resume)
    (hoff : P.FollowsTo enclosing named (offSense ++ rest) (if sense then fall else taken) resume) :
    P.Follows enclosing named
      (.block b :: .cond (.branch b sense) onSense offSense join :: rest) b resume := by
  have hrun : ∀ fuel next s, runAll P.machine fuel next
      (.cond (.branch b sense) onSense offSense join :: rest) s =
        runAll P.machine fuel next
          (if P.machine.taken b s = sense then onSense ++ rest else offSense ++ rest) s := by
    intro fuel next s
    rw [runAll, run, Condition.holds]
    by_cases h : P.machine.taken b s = sense
    · simp only [h, beq_self_eq_true, if_true, runAll_append]
    · have hb : (P.machine.taken b s == sense) = false := by simpa using h
      simp only [hb, if_neg h, runAll_append, Bool.false_eq_true, if_false]
  refine follows_block fun s s' _ => ?_
  by_cases h : P.machine.taken b s' = sense
  · refine ⟨if sense then taken else fall, ?_, fun fuel next => ?_⟩
    · rw [Graph.exitAfter, if_pos hcond, htaken, hfall, h]
      cases sense <;> rfl
    · rw [hrun, if_pos h]
      rcases hon with ⟨hin, hon⟩ | ⟨hout, hon⟩
      · exact .inl ⟨hin, hon fuel next s'⟩
      · exact .inr ⟨hout, hon fuel next s'⟩
  · have hs : P.machine.taken b s' = !sense := by
      cases sense <;> cases ht : P.machine.taken b s' <;> simp_all
    refine ⟨if sense then fall else taken, ?_, fun fuel next => ?_⟩
    · rw [Graph.exitAfter, if_pos hcond, htaken, hfall, hs]
      cases sense <;> rfl
    · rw [hrun, if_neg h]
      rcases hoff with ⟨hin, hoff⟩ | ⟨hout, hoff⟩
      · exact .inl ⟨hin, hoff fuel next s'⟩
      · exact .inr ⟨hout, hoff fuel next s'⟩

/-- What a pass of the loop `inner` may do: get back to the header, or end the loop. -/
def PassLeads (P : Paths ε σ) (enclosing : List LoopScope) (named : BlockSet) (inner : LoopScope)
    (s : σ) : Except ε (σ ⊕ (Way × σ)) → Prop
  | .error e => e = P.machine.limit ∨ P.Finishes inner.header s (.error e)
  | .ok (.inl s') => P.Reaches inner.header s inner.header s'
  | .ok (.inr r) => P.Leads enclosing named inner.header s inner.follow (.ok r)

variable {inner : LoopScope} {label : Option String} {kind : LoopKind}
  {condition : Option Condition} {again : σ → Bool}

theorem leads_runPasses {pass : σ → Except ε (σ ⊕ (Way × σ))}
    (hpass : ∀ s, P.PassLeads enclosing named inner s (pass s)) (fuel : Nat) (s : σ) :
    P.Leads enclosing named inner.header s inner.follow
      (runPasses P.machine.limit pass fuel s) := by
  induction fuel generalizing s with
  | zero => exact .inl rfl
  | succ fuel ih =>
    have h := hpass s
    rw [runPasses]
    rcases hp : pass s with e | (s' | r)
    · rw [hp] at h
      exact h
    · rw [hp] at h
      exact (ih s').prepend h
    · rw [hp] at h
      exact h

theorem follows_loop
    (h : ∀ fuel next s, P.PassLeads enclosing named inner s
      (pass P.machine kind inner.header (fun s => condition.all (Condition.holds P.machine next s))
      label (runAll P.machine fuel next body) s)) :
    P.Follows enclosing named [.loop kind inner.header condition body label follow] inner.header
      inner.follow := by
  intro fuel next s
  have hloop := leads_runPasses (h fuel next) fuel s
  rw [runAll, run]
  rcases hr : runPasses P.machine.limit (pass P.machine kind inner.header
    (fun s => condition.all (Condition.holds P.machine next s)) label
      (runAll P.machine fuel next body)) fuel s with e | ⟨way, s'⟩
  · rw [hr] at hloop
    exact hloop
  · rw [hr] at hloop
    cases way with
    | onward => exact hloop
    | breakLoop | continueLoop | finished | away => exact hloop

def labelOf (named : BlockSet) (inner : LoopScope) : Option String :=
  if inner.header ∈ named then some inner.label else none

theorem IsTarget.of_not_isFor (h : IsTarget named (inner :: enclosing) label l)
    (hfor : isFor (labelOf named inner) label = false) : IsTarget named enclosing label l := by
  cases label with
  | none => simp [isFor] at hfor
  | some name =>
    obtain ⟨hfind, hnamed⟩ := h
    by_cases hname : inner.label = name
    · have hl : l = inner := by simpa [hname] using hfind.symm
      subst hl
      simp [isFor, labelOf, hnamed, hname] at hfor
    · refine ⟨?_, hnamed⟩
      simpa [hname] using hfind

theorem IsTarget.of_isFor (h : IsTarget named (inner :: enclosing) label l)
    (hfor : isFor (labelOf named inner) label = true) : l = inner := by
  cases label with
  | none => exact (Option.some.inj h).symm
  | some name =>
    have hname : inner.label = name := by
      by_cases hn : inner.header ∈ named
      · have h' : some name = some inner.label := by simpa [isFor, labelOf, hn] using hfor
        exact (Option.some.inj h').symm
      · simp [isFor, labelOf, hn] at hfor
    simpa [hname] using h.1.symm

theorem passLeads_afterBody (h : P.Leads (inner :: enclosing) named inner.header s none r) :
    P.PassLeads enclosing named inner s (r.map (afterBody kind again (labelOf named inner))) := by
  rcases r with e | ⟨way, s'⟩
  · exact h
  · cases way with
    | onward =>
      obtain ⟨b, hb, -⟩ := h
      cases hb
    | continueLoop label =>
      obtain ⟨l, hl, hr⟩ := h
      by_cases hfor : isFor (labelOf named inner) label = true
      · have hinner := hl.of_isFor hfor
        subst hinner
        have heq : afterBody kind again (labelOf named l) (.continueLoop label, s') = .inl s' := by
          rw [afterBody, if_pos hfor]
        rw [Except.map, heq]
        exact hr
      · have hl' := hl.of_not_isFor (by simpa using hfor)
        have heq : afterBody kind again (labelOf named inner) (.continueLoop label, s') =
            .inr (.continueLoop label, s') := by
          rw [afterBody, if_neg hfor]
        rw [Except.map, heq]
        exact ⟨l, hl', hr⟩
    | breakLoop label =>
      obtain ⟨l, b, hl, hf, hr⟩ := h
      by_cases hfor : isFor (labelOf named inner) label = true
      · have hinner := hl.of_isFor hfor
        subst hinner
        have heq : afterBody kind again (labelOf named l) (.breakLoop label, s') =
            .inr (.onward, s') := by
          rw [afterBody, if_pos hfor]
        rw [Except.map, heq]
        exact ⟨b, hf, hr⟩
      · have hl' := hl.of_not_isFor (by simpa using hfor)
        have heq : afterBody kind again (labelOf named inner) (.breakLoop label, s') =
            .inr (.breakLoop label, s') := by
          rw [afterBody, if_neg hfor]
        rw [Except.map, heq]
        exact ⟨l, b, hl', hf, hr⟩
    | finished | away => exact h

/-- A last jump back to the header can be left out: the loop goes on there anyway. -/
theorem map_afterBody_withoutFinalContinue {M : BlockMachine ε σ} {fuel : Nat} {next : BlockId}
    (hkind : kind ≠ .postTest) (body : List ControlNode) :
    (runAll M fuel next (Layout.withoutFinalContinue body) s).map (afterBody kind again label) =
      (runAll M fuel next body s).map (afterBody kind again label) := by
  unfold Layout.withoutFinalContinue
  split
  · next hlast =>
    have hbody : body.dropLast ++ [.continueLoop none] = body := by
      obtain ⟨front, rfl⟩ := List.getLast?_eq_some_iff.1 hlast
      rw [List.dropLast_concat]
    have hrun : runAll M fuel next body s =
        runAll M fuel next (body.dropLast ++ [.continueLoop none]) s := by rw [hbody]
    rw [hrun, runAll_append]
    rcases runAll M fuel next body.dropLast s with e | ⟨way, s'⟩
    · rfl
    · cases way with
      | onward => simp [runAll, run, Except.map, afterBody, isFor, hkind]
      | breakLoop | continueLoop | finished | away => rfl
  · rfl

theorem follows_infinite (h : P.Follows (inner :: enclosing) named body inner.header none) :
    P.Follows enclosing named
      [.loop .infinite inner.header condition (Layout.withoutFinalContinue body)
        (labelOf named inner) follow] inner.header inner.follow := by
  refine follows_loop fun fuel next s => ?_
  rw [ControlNode.pass, map_afterBody_withoutFinalContinue (by decide)]
  exact passLeads_afterBody (h fuel next s)

def HasExits (P : Paths ε σ) (b t u : BlockId) : Prop :=
  (P.graph.block b).isConditional = true ∧ t ≠ u ∧
    (((P.graph.block b).branch = some t ∧ (P.graph.block b).fallThrough = some u) ∨
      ((P.graph.block b).branch = some u ∧ (P.graph.block b).fallThrough = some t))

theorem HasExits.exitAfter {u : BlockId} (h : P.HasExits b t u) (next : BlockId) (s : σ) :
    P.graph.exitAfter P.machine b s =
      if (Condition.branch b ((P.graph.block b).branch == some t)).holds P.machine next s
      then some t else some u := by
  obtain ⟨hcond, hne, ⟨hb, hf⟩ | ⟨hb, hf⟩⟩ := h
  · rw [Graph.exitAfter, if_pos hcond, hb, hf, Condition.holds]
    cases P.machine.taken b s <;> simp
  · have hneg : (some u == some t) = false := by simpa using Ne.symm hne
    rw [Graph.exitAfter, if_pos hcond, hb, hf, Condition.holds, hneg]
    cases P.machine.taken b s <;> simp

theorem follows_postTest {latch : BlockId} {before : List ControlNode}
    (hbefore : P.Follows (inner :: enclosing) named before inner.header (some latch))
    (hexits : P.HasExits latch inner.header f) (hfollow : inner.follow = some f)
    (hheader : inner.header ∈ P.members) (hf : f ∈ P.members) : P.Follows enclosing named
      [.loop .postTest inner.header
        (some (.branch latch ((P.graph.block latch).branch == some inner.header)))
        (before ++ [.block latch]) (labelOf named inner) follow] inner.header inner.follow := by
  refine follows_loop fun fuel next s => ?_
  have hrun := hbefore fuel next s
  rw [ControlNode.pass, runAll_append]
  rcases hr : runAll P.machine fuel next before s with e | ⟨way, s1⟩
  · rw [hr] at hrun
    exact hrun
  · rw [hr] at hrun
    cases way with
    | onward =>
      obtain ⟨b, hb, hreach⟩ := hrun
      cases hb
      simp only [runAll, run]
      rcases hl : P.machine.run latch s1 with e | (s2 | s2)
      · exact .inr (hreach.finishes ⟨1, by rw [Graph.follow, hl]⟩)
      · have hexit := hexits.exitAfter next s2
        by_cases hagain : (Condition.branch latch
            ((P.graph.block latch).branch == some inner.header)).holds P.machine next s2 = true
        · rw [if_pos hagain] at hexit
          simp only [Except.map, afterBody, Option.all_some, hagain, and_false, if_false,
            Bool.true_eq_false]
          exact hreach.trans (.step hl hexit hheader .refl)
        · rw [if_neg hagain] at hexit
          simp only [Except.map, afterBody, Option.all_some, hagain, and_self, if_true]
          exact ⟨f, hfollow, hreach.trans (.step hl hexit hf .refl)⟩
      · exact hreach.finishes ⟨1, by rw [Graph.follow, hl]⟩
    | breakLoop | continueLoop | finished | away => exact passLeads_afterBody hrun

theorem follows_preTest {inside : BlockId}
    (hbody : P.FollowsTo (inner :: enclosing) named body inside none)
    (hexits : P.HasExits inner.header inside f) (hfollow : inner.follow = some f)
    (hf : f ∈ P.members) :
    P.Follows enclosing named [.loop .preTest inner.header
        (some (.branch inner.header ((P.graph.block inner.header).branch == some inside)))
        (Layout.withoutFinalContinue body) (labelOf named inner) follow] inner.header
          inner.follow := by
  refine follows_loop fun fuel next s => ?_
  rw [ControlNode.pass]
  rcases hh : P.machine.run inner.header s with e | (s1 | s1)
  · exact .inr ⟨1, by rw [Graph.follow, hh]⟩
  · have hexit := hexits.exitAfter next s1
    simp only [Option.all_some]
    by_cases hagain : (Condition.branch inner.header
        ((P.graph.block inner.header).branch == some inside)).holds P.machine next s1 = true
    · rw [if_pos hagain] at hexit
      rw [if_pos hagain, map_afterBody_withoutFinalContinue (by decide)]
      rcases hbody with ⟨hin, hbody⟩ | ⟨hout, haway⟩
      · exact passLeads_afterBody ((hbody fuel next s1).prepend (.step hh hexit hin .refl))
      · rw [haway]
        refine ⟨1, ?_⟩
        rw [Graph.follow, hh]
        simp only [hexit, if_neg hout]
    · rw [if_neg hagain] at hexit
      rw [if_neg hagain]
      exact ⟨f, hfollow, .step hh hexit hf .refl⟩
  · exact ⟨1, by rw [Graph.follow, hh]⟩

end Paths

end Lift6502
