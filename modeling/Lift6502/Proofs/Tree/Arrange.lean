import Lift6502.Proofs.Flow.Walk
import Lift6502.Proofs.Tree.Paths
import Lift6502.Proofs.Yields

/-!
# Arranging the blocks of a routine

The node that stands for an edge leads to where the edge leads, with two exceptions that
`Layout.KeepsEdges` excludes: an edge that is taken for one that resumes a construct although
control does not go on there, and a jump to a loop whose name an inner loop has, too.
-/

namespace Lift6502

open ControlNode BlockSet

def Layout.IsReachable (l : Layout) (b : BlockId) : Prop :=
  WayTo (l.graph.successorsIn l.routine.blocks) [] l.routine.entry b

/-- The node that stands for an edge leads to where the edge leads: an edge that resumes a construct
resumes the innermost one, and a loop that is named is the innermost one of its name. -/
structure Layout.KeepsEdge (l : Layout) (v : Scope × BlockId) : Prop where
  stop : (l.view v.1 v.2).1 = .stop → v.1.stops.head? = some v.2
  jump : ∀ header, (l.view v.1 v.2).2 = some header →
    (v.1.enclosing.find? fun c => c.label = l.graph.name header).map (·.header) = some header

def Layout.KeepsEdges (l : Layout) (s : Arrangement) : Prop := ∀ v ∈ s.viewed, l.KeepsEdge v

namespace Arrangement

structure Grows (s s' : Arrangement) : Prop where
  placed : ∀ b ∈ s.placed, b ∈ s'.placed
  labelled : ∀ b ∈ s.labelled, b ∈ s'.labelled
  viewed : ∀ v ∈ s.viewed, v ∈ s'.viewed

theorem Grows.refl (s : Arrangement) : s.Grows s := ⟨fun _ h => h, fun _ h => h, fun _ h => h⟩

theorem Grows.trans {s1 s2 s3 : Arrangement} (h1 : s1.Grows s2) (h2 : s2.Grows s3) : s1.Grows s3 :=
  ⟨fun b h => h2.placed b (h1.placed b h), fun b h => h2.labelled b (h1.labelled b h),
    fun v h => h2.viewed v (h1.viewed v h)⟩

end Arrangement

namespace Layout

open Arrangement

variable {l : Layout} {scope : Scope} {s s' : Arrangement} {u : Unit} {target : BlockId}
  {b : BlockId} {node : ControlNode}

/-! ## Steps of arranging -/

theorem yields_place (h : Yields (l.place b) s u s') :
    b ∉ s.placed ∧ s' = { s with placed := s.placed.insert b } := by
  unfold place at h
  have hrest := Yields.get_bind_iff.1 h
  by_cases hb : b ∈ s.placed
  · simp only [contains_iff, if_pos hb] at hrest
    obtain ⟨_, _, hthrow, -⟩ := hrest.of_bind
    exact absurd hthrow Yields.not_throw
  · simp only [contains_iff, if_neg hb] at hrest
    exact ⟨hb, Yields.modify_iff.1 hrest⟩

/-! ## How edges are viewed -/

theorem jumpTo?_eq_some {outer : Bool} {scopes : List LoopScope}
    {header : BlockId} (h : jumpTo? target outer scopes = some (node, header)) :
    ∃ before c after, scopes = before ++ c :: after ∧ header = c.header ∧
      (let label := if outer || !before.isEmpty then some c.label else none
       (node = .continueLoop label ∧ c.header = target) ∨
         (node = .breakLoop label ∧ c.follow = some target)) := by
  induction scopes generalizing outer with
  | nil => simp [jumpTo?] at h
  | cons c rest ih =>
    rw [jumpTo?] at h
    by_cases hheader : c.header = target
    · simp only [if_pos hheader, Option.some.injEq, Prod.mk.injEq] at h
      exact ⟨[], c, rest, rfl, h.2.symm, .inl ⟨by simpa using h.1.symm, hheader⟩⟩
    · rw [if_neg hheader] at h
      by_cases hfollow : c.follow = some target
      · simp only [if_pos hfollow, Option.some.injEq, Prod.mk.injEq] at h
        exact ⟨[], c, rest, rfl, h.2.symm, .inr ⟨by simpa using h.1.symm, hfollow⟩⟩
      · rw [if_neg hfollow] at h
        obtain ⟨before, d, after, hsplit, hd, hnode⟩ := ih h
        refine ⟨c :: before, d, after, by rw [hsplit]; rfl, hd, ?_⟩
        simpa using hnode

/-- The loops around a position are different, and they are called after their headers. -/
structure ScopeOk (l : Layout) (scope : Scope) : Prop where
  label_eq : ∀ c ∈ scope.enclosing, c.label = l.graph.name c.header
  nodup : (scope.enclosing.map (·.header)).Nodup

theorem ScopeOk.with_stops (h : l.ScopeOk scope) (stops : List BlockId) :
    l.ScopeOk { scope with stops } :=
  ⟨h.label_eq, h.nodup⟩

theorem ScopeOk.find?_label (h : l.ScopeOk scope) {c : LoopScope} (hc : c ∈ scope.enclosing)
    (hkept : l.KeepsEdge (scope, target)) (hnamed : (l.view scope target).2 = some c.header) :
    scope.enclosing.find? (fun d => d.label = c.label) = some c := by
  have hfind := hkept.jump c.header hnamed
  rw [← h.label_eq c hc] at hfind
  obtain ⟨d, hd, hheader⟩ := Option.map_eq_some_iff.1 hfind
  have hsame : d = c := List.inj_on_of_nodup_map h.nodup (List.mem_of_find?_eq_some hd) hc hheader
  rw [hd, hsame]

theorem view_cases (l : Layout) (scope : Scope) (target : BlockId) :
    (target ∉ l.routine.blocks ∧ l.view scope target = (.jump (.goto target), none)) ∨
      (target ∈ l.routine.blocks ∧
        ((∃ node header, jumpTo? target false scope.enclosing = some (node, header) ∧
            (l.view scope target).1 = .jump node ∧
            (node ≠ .breakLoop none → node ≠ .continueLoop none →
              (l.view scope target).2 = some header)) ∨
          ((l.view scope target).1 = .stop ∧ target ∈ scope.stops) ∨
          (l.view scope target).1 = .onward ∨ (l.view scope target).1 = .exit)) := by
  by_cases hin : target ∈ l.routine.blocks
  · refine .inr ⟨hin, ?_⟩
    have hc : (!l.routine.blocks.contains target) = false := by simpa using hin
    simp only [view, hc, Bool.false_eq_true, if_false]
    split
    · next hjump => exact .inl ⟨_, _, hjump, rfl, fun h => absurd rfl h⟩
    · next hjump => exact .inl ⟨_, _, hjump, rfl, fun _ h => absurd rfl h⟩
    · next hjump => exact .inl ⟨_, _, hjump, rfl, fun _ _ => rfl⟩
    · refine .inr ?_
      split
      · next hstop => exact .inl ⟨rfl, by simpa using hstop⟩
      · refine .inr ?_
        split
        · split
          · exact .inl rfl
          · exact .inr rfl
        · exact .inl rfl
  · refine .inl ⟨hin, ?_⟩
    have hc : (!l.routine.blocks.contains target) = true := by simp [contains, hin]
    simp only [view, hc, if_true]

theorem jump_of_view (h : (l.view scope target).1 = .jump node) :
    target ∉ l.routine.blocks ∧ node = .goto target ∨ target ∈ l.routine.blocks ∧
      ∃ header, jumpTo? target false scope.enclosing = some (node, header) ∧
        (node ≠ .breakLoop none → node ≠ .continueLoop none →
          (l.view scope target).2 = some header) := by
  rcases l.view_cases scope target with
    ⟨hout, heq⟩ | ⟨hin, ⟨_, header, hjump, heq, hname⟩ | ⟨heq, -⟩ | heq | heq⟩ <;>
    rw [heq] at h <;> cases h
  · exact .inl ⟨hout, rfl⟩
  · exact .inr ⟨hin, header, hjump, hname⟩

theorem mem_blocks_of_view (scope : Scope) (h : ∀ node, (l.view scope target).1 ≠ .jump node) :
    target ∈ l.routine.blocks := by
  rcases l.view_cases scope target with ⟨-, hview⟩ | ⟨hin, -⟩
  · exact absurd (congrArg Prod.fst hview) (h _)
  · exact hin

def paths {ε σ : Type} (l : Layout) (M : BlockMachine ε σ) : Paths ε σ where
  graph := l.graph
  machine := M
  members := l.routine.blocks

section Follows

variable {ε σ : Type} {M : BlockMachine ε σ} {named : BlockSet} {target : BlockId}

open Paths

variable {b t taken fall latch : BlockId} {g : Graph} {arm : List ControlNode} {loop : NaturalLoop}
  {follow : Option BlockId} {accepted : BlockId → BlockId → Bool} {j : BlockId}

def EndsAtExits (g : Graph) (M : BlockMachine ε σ) : Prop :=
  ∀ b s s', M.run b s = .ok (.on s') → g.successors b ≠ []

/-- Control leaves a block that can be reached by one of its exits, if it has any. -/
def TakesExits (l : Layout) (M : BlockMachine ε σ) : Prop :=
  ∀ b, l.IsReachable b → ∀ s, l.graph.exitAfter M b s = none → l.graph.successors b = []

/-- What is asked of a routine: it contains its entry, and its dominators and loops are about
reachable blocks. -/
structure Rooted (l : Layout) : Prop where
  entry_mem : l.routine.entry ∈ l.routine.blocks
  order : ∀ b ∈ l.dominators.order, l.IsReachable b
  loops : ∀ loop ∈ l.loops.loops, loop.header ∈ loop.body ∧ ∀ b ∈ loop.latches, l.IsReachable b

/-- Besides, a conditional branch has both exits. -/
structure Regular (l : Layout) : Prop extends l.Rooted where
  exits : ∀ b, l.IsReachable b → (l.graph.block b).isConditional = true →
    (∃ taken, (l.graph.block b).branch = some taken) ∧
      ∃ fall, (l.graph.block b).fallThrough = some fall

theorem mem_blocks_of_isReachable (hl : l.Rooted) (h : l.IsReachable b) : b ∈ l.routine.blocks :=
  WayTo.mem_members h hl.entry_mem

theorem isReachable_of_successor (h : l.IsReachable b) (hedge : t ∈ l.graph.successors b)
    (hin : t ∈ l.routine.blocks) : l.IsReachable t :=
  h.tail (Graph.mem_successorsIn.2 ⟨hedge, hin⟩) (by simp)

theorem meetingPoint?_cases
    (h : meetingPoint? l.graph l.dominators accepted b taken fall = some j) :
    j = fall ∨ j = taken ∨ j ∈ l.dominators.order ∧ l.dominators.immediate? j = some b ∧ j ≠ taken ∧
      reaches l.graph accepted taken j b = true := by
  unfold meetingPoint? at h
  simp only at h
  split at h
  · exact .inl (Option.some.inj h).symm
  · split at h
    · exact .inr (.inl (Option.some.inj h).symm)
    · have hfound := List.find?_some h
      simp only [Bool.and_eq_true, bne_iff_ne, ne_eq, decide_eq_true_eq] at hfound
      exact .inr (.inr ⟨List.mem_of_find?_eq_some h, hfound.1.1.2, hfound.1.1.1.1, hfound.1.2⟩)

theorem meetingPoint?_reachable (hl : l.Rooted)
    (htaken : l.IsReachable taken) (hfall : l.IsReachable fall)
    (h : meetingPoint? l.graph l.dominators accepted b taken fall = some j) : l.IsReachable j := by
  rcases meetingPoint?_cases h with rfl | rfl | ⟨hj, -⟩
  · exact hfall
  · exact htaken
  · exact hl.order j hj

theorem mem_successors_of_exits (htaken : (g.block b).branch = some taken)
    (hfall : (g.block b).fallThrough = some fall) :
    taken ∈ g.successors b ∧ fall ∈ g.successors b := by
  rw [Graph.successors, Block.successors, htaken, hfall]
  by_cases h : fall = taken <;> simp [h]

theorem exitAfter_mem_successors {s : σ} (h : g.exitAfter M b s = some t) : t ∈ g.successors b := by
  unfold Graph.exitAfter at h
  rw [Graph.successors, Block.successors]
  rcases hfall : (g.block b).fallThrough with _ | fall <;>
    rcases hbranch : (g.block b).branch with _ | taken <;>
    simp only [hfall, hbranch] at h ⊢ <;> grind

theorem Regular.takesExits (hl : l.Regular) : l.TakesExits M := by
  intro b hb s hnone
  rw [Graph.exitAfter] at hnone
  rw [Graph.successors, Block.successors]
  by_cases hcond : (l.graph.block b).isConditional = true
  · obtain ⟨⟨taken, hbranch⟩, fall, hfall⟩ := hl.exits b hb hcond
    rw [if_pos hcond, hbranch, hfall] at hnone
    split at hnone <;> cases hnone
  · rw [if_neg hcond, Option.or_eq_none_iff] at hnone
    rw [hnone.1, hnone.2]

theorem followOf?_eq_some {d : Dominators} {members : BlockSet} {f : BlockId}
    (h : followOf? g d loop members = some f) :
    f ∈ d.order ∧ f ∈ members ∧ f ∈ (loop.exitEdges g).map (·.2) := by
  have hfold : ∀ step : Option BlockId → BlockId → Option BlockId, (∀ b, step none b = some b) →
      (∀ best b, step (some best) b = some b ∨ step (some best) b = some best) →
      ∀ (candidates : List BlockId) (best : Option BlockId),
      candidates.foldl step best = some f → best = some f ∨ f ∈ candidates := by
    intro step hnone hsome candidates
    induction candidates with
    | nil => exact fun best hbest => .inl hbest
    | cons c rest ih =>
      intro best hbest
      rcases ih _ hbest with hc | hrest
      · cases best with
        | none =>
          cases (hnone c).symm.trans hc
          exact .inr List.mem_cons_self
        | some b =>
          rcases hsome b c with hnew | hold
          · cases hnew.symm.trans hc
            exact .inr List.mem_cons_self
          · exact .inl (hold.symm.trans hc)
      · exact .inr (List.mem_cons_of_mem c hrest)
  unfold followOf? at h
  rcases hfold _ (by intro b; rfl) (by intro best b; dsimp only; split <;> simp) _ none h
    with hnone | hmem
  · cases hnone
  · obtain ⟨horder, hkeep⟩ := List.mem_filter.1 hmem
    simp only [Bool.and_eq_true, contains_iff, List.contains_iff_mem] at hkeep
    exact ⟨horder, hkeep.1, hkeep.2⟩

theorem mem_exitEdges :
    (b, t) ∈ loop.exitEdges g ↔ b ∈ loop.body ∧ t ∈ g.successors b ∧ t ∉ loop.body := by
  simp only [NaturalLoop.exitEdges, NaturalLoop.edgesOut, List.mem_flatMap, List.mem_map,
    List.mem_filter, Prod.mk.injEq]
  constructor
  · rintro ⟨b', hb, t', ⟨ht, hout⟩, rfl, rfl⟩
    exact ⟨hb, ht, by simpa [contains] using hout⟩
  · rintro ⟨hb, ht, hout⟩
    exact ⟨b, hb, t, ⟨ht, by simpa [contains] using hout⟩, rfl, rfl⟩

theorem loopForm_postTest_spec (h : l.loopForm loop follow = .postTest latch) :
    (∃ inner, l.loops.innermost? latch = some inner ∧ inner.header = loop.header) ∧
      ∃ f, follow = some f ∧ loop.exitEdges l.graph = [(latch, f)] ∧ loop.latches.toList = [latch] ∧
        (l.graph.block latch).isConditional = true ∧
        ∀ t, t ∈ l.graph.successors latch ↔ t = loop.header ∨ t = f := by
  unfold loopForm at h
  split at h
  · next f source target hexits =>
    simp only [ne_eq, ite_not] at h
    split at h
    · next htarget =>
      subst htarget
      split at h
      · next latch' howned =>
        cases h
        split at howned
        · next latch'' hlatches =>
          simp only [Option.ite_none_right_eq_some, Bool.and_eq_true, beq_iff_eq,
            Option.any_eq_true, Option.some.injEq] at howned
          obtain ⟨⟨⟨⟨hinner, hcond⟩, hsource⟩, hsucc⟩, rfl⟩ := howned
          subst hsource
          refine ⟨hinner, target, rfl, hexits, hlatches, hcond, fun t => ?_⟩
          have hmem : t ∈ ofList (l.graph.successors source) ↔
              t ∈ ofList [loop.header, target] := by rw [Graph.successors, hsucc]
          simpa using hmem
        · cases howned
      · split at h
        · split at h <;> cases h
        · cases h
    · cases h
  · cases h

theorem loopForm_eq_postTest (h : l.loopForm loop follow = .postTest latch) :
    ∃ f, follow = some f ∧ loop.exitEdges l.graph = [(latch, f)] ∧ loop.latches.toList = [latch] ∧
      (l.graph.block latch).isConditional = true ∧
      ∀ t, t ∈ l.graph.successors latch ↔ t = loop.header ∨ t = f :=
  (loopForm_postTest_spec h).2

theorem isReachable_latch (hl : l.Rooted) (hloop : loop ∈ l.loops.loops)
    (h : l.loopForm loop follow = .postTest latch) : l.IsReachable latch := by
  obtain ⟨-, -, -, hlatches, -, -⟩ := loopForm_eq_postTest h
  apply (hl.loops loop hloop).2
  rw [mem_iff, hlatches]
  exact List.mem_singleton_self latch

theorem loopForm_eq_preTest {inside : BlockId} (h : l.loopForm loop follow = .preTest inside) :
    ∃ f, follow = some f ∧ loop.exitEdges l.graph = [(loop.header, f)] ∧
      (l.graph.block loop.header).isConditional = true ∧
      (l.graph.block loop.header).successors.length = 2 ∧
      (l.graph.block loop.header).code.all Instruction.worksOnRegisters = true ∧
      inside ∈ l.graph.successors loop.header ∧ inside ∈ loop.body := by
  unfold loopForm at h
  split at h
  · next f source target hexits =>
    simp only [ne_eq, ite_not] at h
    split at h
    · next htarget =>
      subst htarget
      split at h
      · cases h
      · split at h
        · next htest =>
          simp only [Bool.and_eq_true, beq_iff_eq] at htest
          obtain ⟨⟨⟨hlength, hcond⟩, rfl⟩, hcode⟩ := htest
          split at h
          · next b hfind =>
            cases h
            have hin : loop.contains inside = true := List.find?_some hfind
            refine ⟨target, rfl, hexits, hcond, hlength, hcode, List.mem_of_find?_eq_some hfind, ?_⟩
            exact contains_iff.1 hin
          · cases h
        · cases h
    · cases h
  · cases h

end Follows

end Layout

end Lift6502
