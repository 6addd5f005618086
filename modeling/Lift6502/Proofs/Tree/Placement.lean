import Lift6502.Proofs.Flow.Closed
import Lift6502.Proofs.Flow.Loops
import Lift6502.Proofs.Tree.Derivation

/-!
# Where blocks are placed

When a block is placed, everything that dominates it has been placed. When a path is finished, every
exit on it leads to a placed block, to where a construct around goes on, or out of the routine.
-/

namespace Lift6502

open ControlNode Arrangement

namespace Layout

variable {l : Layout} {scope : Scope} {s s' s1 : Arrangement} {a b t x taken fall : BlockId}
  {next : Option BlockId} {loop inner outer : NaturalLoop} {scope' : Scope} {s2 : Arrangement}
  {start entry : BlockId} {nodes : List ControlNode} {task : Task}

/-- A layout as it is made for a routine of a program: what is known about the routine was computed
from a graph that passed its check, and only a conditional branch has two exits. -/
structure Standard (l : Layout) : Prop where
  dominators_eq : l.dominators = Dominators.ofGraph l.graph l.routine.entry l.routine.blocks
  loops_eq : l.loops = LoopForest.ofGraph l.graph l.dominators
  verified : l.graph.verify = .ok ()
  entry_mem : l.routine.entry ∈ l.routine.blocks
  conditional : ∀ b taken fall, (l.graph.block b).branch = some taken →
    (l.graph.block b).fallThrough = some fall → (l.graph.block b).isConditional = true

theorem standard_ofRoutine {p : Program} {g : Graph} (hg : (Graph.ofProgram p).1 = .ok g)
    {roots : List BlockId} {r : Routine} (hr : r ∈ (Routines.ofGraph g roots).1.all) :
    (ofRoutine g r).Standard := by
  refine ⟨rfl, rfl, Graph.verify_of_ofProgram hg,
    (Routines.separate_ofGraph g roots).entry_mem r hr, ?_⟩
  intro b taken fall htaken hfall
  cases graph_eq_of_ofProgram hg
  exact Build.isConditional_of_exits htaken (Option.isSome_of_eq_some hfall)

def Dom (l : Layout) (a b : BlockId) : Prop :=
  Dominates (l.graph.successorsIn l.routine.blocks) l.routine.entry a b

namespace Standard

variable (hl : l.Standard)

include hl

theorem mem_order : b ∈ l.dominators.order ↔ l.IsReachable b := by
  rw [hl.dominators_eq]
  exact Dominators.mem_order

theorem mem_blocks (h : l.IsReachable b) : b ∈ l.routine.blocks :=
  WayTo.mem_members h hl.entry_mem

section

variable (h : loop ∈ l.loops.loops)

include h

theorem mem_loops : loop ∈ (LoopForest.ofGraph l.graph
      (Dominators.ofGraph l.graph l.routine.entry l.routine.blocks)).loops := by
  rw [hl.loops_eq, hl.dominators_eq] at h
  exact h

theorem header_reachable : l.IsReachable loop.header := LoopForest.header_reached (hl.mem_loops h)

theorem dom_of_mem_body (hx : x ∈ loop.body) : l.Dom loop.header x :=
  LoopForest.dominates_of_mem_body hl.verified hl.entry_mem (hl.mem_loops h) hx

theorem header_mem_body : loop.header ∈ loop.body :=
  LoopForest.header_mem_body (hl.mem_loops h)

theorem mem_latches (hb : b ∈ loop.body)
    (hedge : loop.header ∈ l.graph.successors b) : b ∈ loop.latches := by
  have hdom := hl.dom_of_mem_body h hb
  rw [(LoopForest.mem_ofGraph (hl.mem_loops h)).2]
  exact LoopForest.mem_latchesOf.2 ⟨Dominators.mem_order.2 hdom.1, hedge,
    Dominators.dominates_iff.2 hdom⟩

theorem dom_header (hx : x ∈ loop.body) (ha : l.Dom a x) (hout : a ∉ loop.body) :
    l.Dom a loop.header := by
  refine ⟨hl.header_reachable h, fun hway => ha.2 (hway.trans ?_)⟩
  exact LoopForest.way_around hl.verified hl.entry_mem (hl.mem_loops h) hx hout

end

theorem body_subset (hinner : inner ∈ l.loops.loops) (houter : outer ∈ l.loops.loops)
    (hin : inner.header ∈ outer.body) (hne : inner.header ≠ outer.header) (hx : x ∈ inner.body) :
    x ∈ outer.body :=
  LoopForest.body_subset hl.verified hl.entry_mem (hl.mem_loops hinner) (hl.mem_loops houter)
    hin hne hx

theorem dom_of_edge (hb : l.IsReachable b) (hedge : t ∈ l.graph.successors b) (ht : l.IsReachable t)
    (ha : l.Dom a t) (hne : a ≠ t) : l.Dom a b :=
  ha.of_edge hne hb (Graph.mem_successorsIn.2 ⟨hedge, hl.mem_blocks ht⟩)

theorem follow_spec (hfollow : (l.scopeOf loop).follow = some t) :
    l.IsReachable t ∧ t ∉ loop.body ∧ ∃ x ∈ loop.body, t ∈ l.graph.successors x := by
  obtain ⟨horder, -, hedges⟩ := followOf?_eq_some hfollow
  obtain ⟨⟨x, t'⟩, hedge, rfl⟩ := List.mem_map.1 hedges
  obtain ⟨hx, hsucc, hout⟩ := mem_exitEdges.1 hedge
  exact ⟨hl.mem_order.1 horder, hout, x, hx, hsucc⟩

end Standard

/-! ## Loops around a position -/

structure Within (l : Layout) (inner outer : LoopScope) : Prop where
  header_ne : inner.header ≠ outer.header
  not_follow : outer.follow ≠ some inner.header
  not_dom : ¬ l.Dom inner.header outer.header

structure Encloses (l : Layout) (scopes : List LoopScope) : Prop where
  loops : ∀ c ∈ scopes, ∃ loop ∈ l.loops.loops, c = l.scopeOf loop
  within : scopes.Pairwise l.Within

theorem Within.header_not_mem (hl : l.Standard) (hinner : inner ∈ l.loops.loops)
    (h : l.Within (l.scopeOf inner) (l.scopeOf outer)) : outer.header ∉ inner.body :=
  fun hmem => h.not_dom (hl.dom_of_mem_body hinner hmem)

theorem Within.follow_not_mem (hl : l.Standard) (hinner : inner ∈ l.loops.loops)
    (houter : outer ∈ l.loops.loops) (h : l.Within (l.scopeOf inner) (l.scopeOf outer))
    (hfollow : (l.scopeOf outer).follow = some t) : t ∉ inner.body := by
  intro hmem
  obtain ⟨hreach, hout, x, hx, hedge⟩ := hl.follow_spec hfollow
  by_cases hin : inner.header ∈ outer.body
  · exact hout (hl.body_subset hinner houter hin h.header_ne hmem)
  · -- The inner header would dominate the exit of the outer loop, and so its header.
    have hne : inner.header ≠ t := by
      rintro rfl
      exact h.not_follow hfollow
    have hreach' : l.IsReachable x := (hl.dom_of_mem_body houter hx).1
    have hdom := hl.dom_of_edge hreach' hedge hreach (hl.dom_of_mem_body hinner hmem) hne
    exact h.not_dom (hl.dom_header houter hx hdom hin)

/-! ## What is placed -/

/-- Everything that dominates the block from above is placed. -/
def Above (l : Layout) (b : BlockId) (s : Arrangement) : Prop :=
  ∀ a, l.Dom a b → a ≠ b → a ∈ s.placed

def DomClosed (l : Layout) (s : Arrangement) : Prop :=
  ∀ u ∈ s.placed, ∀ a, l.Dom a u → a ∈ s.placed

theorem DomClosed.put (h : l.DomClosed s) (hb : l.Above b s) : l.DomClosed (s.put b) := by
  intro u hu a ha
  rw [mem_placed_put] at hu ⊢
  rcases hu with rfl | hu
  · by_cases heq : a = u
    · exact .inl heq
    · exact .inr (hb a ha heq)
  · exact .inr (h u hu a ha)

theorem reachable_above_of_edge (hl : l.Standard) (hs : l.DomClosed s) (hb : b ∈ s.placed)
    (hreach : l.IsReachable b) (hedge : t ∈ l.graph.successors b) (hin : t ∈ l.routine.blocks) :
    l.IsReachable t ∧ l.Above t s := by
  have ht := isReachable_of_successor hreach hedge hin
  exact ⟨ht, fun a ha hne => hs b hb a (hl.dom_of_edge hreach hedge ht ha hne)⟩

/-- Control that goes to a block is taken care of: the block is placed, a construct around goes on
there, or a loop around is repeated or left. -/
def Covered (scope : Scope) (s : Arrangement) (t : BlockId) : Prop :=
  t ∈ s.placed ∨ t ∈ scope.stops ∨ ∃ c ∈ scope.enclosing, c.header = t ∨ c.follow = some t

/-- The exits of all blocks that a run has placed are taken care of. -/
def Fills (l : Layout) (scope : Scope) (s s' : Arrangement) : Prop :=
  ∀ u ∈ s'.placed, u ∉ s.placed → ∀ t ∈ l.graph.successors u, t ∈ l.routine.blocks →
    Covered scope s' t

theorem Covered.mono (h : Covered scope s t)
    (hplaced : ∀ b ∈ s.placed, b ∈ s'.placed) (hstops : ∀ b ∈ scope.stops, Covered scope' s' b)
    (henclosing : scope'.enclosing = scope.enclosing) : Covered scope' s' t := by
  rcases h with h | h | h
  · exact .inl (hplaced t h)
  · exact hstops t h
  · exact .inr (.inr (henclosing ▸ h))

theorem Fills.mono (h : l.Fills scope s s') (hstops : ∀ b ∈ scope.stops, Covered scope' s' b)
    (henclosing : scope'.enclosing = scope.enclosing) : l.Fills scope' s s' :=
  fun u hu hnew t ht hin => (h u hu hnew t ht hin).mono (fun _ h => h) hstops henclosing

theorem Fills.trans (h : l.Fills scope s s1) (h' : l.Fills scope s1 s') (hgrows : s1.Grows s') :
    l.Fills scope s s' := by
  intro u hu hnew t ht hin
  by_cases hmid : u ∈ s1.placed
  · exact (h u hmid hnew t ht hin).mono hgrows.placed (fun _ hb => .inr (.inl hb)) rfl
  · exact h' u hu hmid t ht hin

theorem fills_of_placed_eq (h : s'.placed = s.placed) : l.Fills scope s s' :=
  fun _ hu hnew => absurd (h ▸ hu) hnew

theorem Fills.of_placed_eq (h : l.Fills scope s s') (h1 : s1.placed = s.placed)
    (h2 : s2.placed = s'.placed) : l.Fills scope s1 s2 := by
  intro u hu hnew t ht hin
  rw [h2] at hu
  rw [h1] at hnew
  exact (h u hu hnew t ht hin).mono (fun b hb => h2 ▸ hb) (fun _ hb => .inr (.inl hb)) rfl

theorem Fills.put (h : l.Fills scope s1 s') (h1 : s1.placed = s.placed.insert b)
    (hexits : ∀ t ∈ l.graph.successors b, t ∈ l.routine.blocks → Covered scope s' t) :
    l.Fills scope s s' := by
  intro u hu hnew t ht hin
  by_cases heq : u = b
  · subst heq
    exact hexits t ht hin
  · refine h u hu (fun hmem => ?_) t ht hin
    rw [h1, BlockSet.mem_insert] at hmem
    exact hmem.elim heq hnew

theorem body_placed (hl : l.Standard) (hloop : loop ∈ l.loops.loops) {stops : List BlockId}
    (hscope : l.Encloses (l.inside scope loop stops).enclosing)
    (hfills : l.Fills (l.inside scope loop stops) s s') (hs : l.DomClosed s)
    (hfresh : loop.header ∉ s.placed) (hheader : loop.header ∈ s'.placed)
    (houter : ∀ c ∈ scope.enclosing, c.header ∈ s'.placed)
    (hstops : ∀ u ∈ stops, ∀ v ∈ l.graph.successors u, v ∈ loop.body → v = loop.header)
    (hx : x ∈ loop.body) : x ∈ s'.placed ∨ x ∈ stops := by
  refine LoopForest.body_induction hl.verified hl.entry_mem (hl.mem_loops hloop)
    (s := fun x => x ∈ s'.placed ∨ x ∈ stops) (.inl hheader)
    (fun u v hu hplaced hedge hv hne => ?_) hx
  obtain ⟨hedge, hin⟩ := Graph.mem_successorsIn.1 hedge
  rcases hplaced with hplaced | hstop
  · -- A block of the body cannot have been placed before the header that dominates it.
    have hnew : u ∉ s.placed := fun hold => hfresh (hs u hold _ (hl.dom_of_mem_body hloop hu))
    rcases hfills u hplaced hnew v hedge hin with hv' | hv' | ⟨c, hc, hto⟩
    · exact .inl hv'
    · exact .inr hv'
    · rcases List.mem_cons.1 hc with rfl | hc'
      · rcases hto with hto | hto
        · exact absurd hto.symm hne
        · exact absurd hv (hl.follow_spec hto).2.1
      · obtain ⟨outer, houter', rfl⟩ := hscope.loops c hc
        have hwithin := (List.pairwise_cons.1 hscope.within).1 _ hc'
        rcases hto with rfl | hto
        · exact .inl (houter _ hc')
        · exact absurd hv (hwithin.follow_not_mem hl hloop houter' hto)
  · exact absurd (hstops u hstop v hedge hv) hne

/-! ## Views -/

theorem jumpTo?_eq_none {outer : Bool} {scopes : List LoopScope}
    (h : jumpTo? t outer scopes = none) : ∀ c ∈ scopes, c.header ≠ t ∧ c.follow ≠ some t := by
  induction scopes generalizing outer with
  | nil => simp
  | cons c rest ih =>
    rw [jumpTo?] at h
    by_cases hheader : c.header = t
    · rw [if_pos hheader] at h
      cases h
    · by_cases hfollow : c.follow = some t
      · rw [if_neg hheader, if_pos hfollow] at h
        cases h
      · rw [if_neg hheader, if_neg hfollow] at h
        intro d hd
        rcases List.mem_cons.1 hd with rfl | hd
        · exact ⟨hheader, hfollow⟩
        · exact ih h d hd

theorem enters_of_view (h : (l.view scope t).1 = .onward ∨ (l.view scope t).1 = .exit) :
    t ∈ l.routine.blocks ∧ ∀ c ∈ scope.enclosing, c.header ≠ t ∧ c.follow ≠ some t := by
  rcases l.view_cases scope t with ⟨-, hview⟩ | ⟨hin, -⟩
  · rw [hview] at h
    rcases h with h | h <;> cases h
  · have hnone : jumpTo? t false scope.enclosing = none := by
      by_contra hjump
      obtain ⟨⟨node, header⟩, hjump⟩ := Option.ne_none_iff_exists'.1 hjump
      have hc : (!l.routine.blocks.contains t) = false := by simpa using hin
      simp only [view, hc, Bool.false_eq_true, if_false, hjump] at h
      split at h
      · rcases h with h | h <;> cases h
      · rcases h with h | h <;> cases h
      · rcases h with h | h <;> cases h
      · next hnone => cases hnone
    exact ⟨hin, jumpTo?_eq_none hnone⟩

theorem covered_of_view (s : Arrangement)
    (h : (l.view scope t).1 = .stop ∨ ∃ node, (l.view scope t).1 = .jump node)
    (ht : t ∈ l.routine.blocks) : Covered scope s t := by
  rcases l.view_cases scope t with
    ⟨hout, -⟩ | ⟨-, ⟨node, header, hjump, -⟩ | ⟨-, hstop⟩ | hview | hview⟩
  · exact absurd ht hout
  · obtain ⟨before, c, after, hsplit, -, hto⟩ := jumpTo?_eq_some hjump
    refine .inr (.inr ⟨c, by simp [hsplit], ?_⟩)
    exact hto.imp (·.2) (·.2)
  · exact .inr (.inl hstop)
  · rw [hview] at h
    rcases h with h | ⟨_, h⟩ <;> cases h
  · rw [hview] at h
    rcases h with h | ⟨_, h⟩ <;> cases h

/-! ## Runs -/

def Task.targets : Task → List BlockId
  | .path .. | .first .. => []
  | .arm _ target => [target]
  | .branch _ _ taken fall => [taken, fall]

def Task.Ready (l : Layout) (s : Arrangement) : Task → Prop
  | .path scope start | .first scope start =>
    l.IsReachable start ∧ l.Above start s ∧ ∀ c ∈ scope.enclosing, c.follow ≠ some start ∧
      (c.header ∈ s.placed ∨ c.header = start)
  | .arm scope target =>
    (target ∈ l.routine.blocks → l.IsReachable target ∧ l.Above target s) ∧
      ∀ c ∈ scope.enclosing, c.header ∈ s.placed
  | .branch scope b taken fall =>
    (b ∈ s.placed ∧ l.IsReachable b ∧ taken ∈ l.graph.successors b ∧ fall ∈ l.graph.successors b) ∧
      ∀ c ∈ scope.enclosing, c.header ∈ s.placed

structure Filled (l : Layout) (task : Task) (s : Arrangement) (next : Option BlockId)
    (s' : Arrangement) : Prop where
  fills : l.Fills { task.position with stops := next.toList ++ task.position.stops } s s'
  closed : l.DomClosed s'
  onto : ∀ n, next = some n → n ∈ l.routine.blocks → l.IsReachable n ∧ l.Above n s'
  targets : ∀ t ∈ task.targets, t ∈ l.routine.blocks →
    Covered { task.position with stops := next.toList ++ task.position.stops } s' t

theorem above_meetingPoint? (hl : l.Standard) {accepted : BlockId → BlockId → Bool} {j : BlockId}
    (hs : l.DomClosed s) (hb : b ∈ s.placed) (hreach : l.IsReachable b)
    (htaken : taken ∈ l.graph.successors b) (hfall : fall ∈ l.graph.successors b)
    (htaken' : taken ∈ l.routine.blocks) (hfall' : fall ∈ l.routine.blocks)
    (h : meetingPoint? l.graph l.dominators accepted b taken fall = some j) :
    l.IsReachable j ∧ l.Above j s := by
  rcases meetingPoint?_cases h with rfl | rfl | ⟨hj, hbelow, -⟩
  · exact reachable_above_of_edge hl hs hb hreach hfall hfall'
  · exact reachable_above_of_edge hl hs hb hreach htaken htaken'
  · refine ⟨hl.mem_order.1 hj, fun a ha hne => ?_⟩
    rw [hl.dominators_eq] at hbelow
    exact hs b hb a (Dominators.dominates_immediate hbelow ha hne)

theorem Fills.resume (h : l.Fills { scope with stops := next.toList ++ scope.stops } s s1)
    (h' : l.Fills scope s1 s') (hgrows : s1.Grows s')
    (hnext : ∀ n, next = some n → n ∈ l.routine.blocks → Covered scope s' n) :
    l.Fills scope s s' := by
  intro u hu hnew t ht hin
  by_cases hmid : u ∈ s1.placed
  · rcases h u hmid hnew t ht hin with hto | hto | hto
    · exact .inl (hgrows.placed t hto)
    · rcases List.mem_append.1 hto with hto | hto
      · exact hnext t (Option.mem_toList.1 hto) hin
      · exact .inr (.inl hto)
    · exact .inr (.inr hto)
  · exact h' u hu hmid t ht hin

theorem mem_successors_of_chooses (h : l.ChoosesBetween b taken fall) :
    t ∈ l.graph.successors b ↔ t = taken ∨ t = fall := by
  obtain ⟨hbranch, hfall, hne, -⟩ := h
  rw [Graph.successors, Block.successors, hbranch, hfall]
  simp only [if_neg (Ne.symm hne), List.mem_cons, List.not_mem_nil, or_false]
  exact or_comm

theorem headers_placed (hready : Task.Ready l s (.first scope start))
    (hkept : ∀ b ∈ s.placed, b ∈ s'.placed) (hstart : start ∈ s'.placed) :
    ∀ c ∈ scope.enclosing, c.header ∈ s'.placed := by
  intro c hc
  rcases (hready.2.2 c hc).2 with hheader | hheader
  · exact hkept _ hheader
  · rw [hheader]
    exact hstart

/-- The loops around a task are as they should be, and so is what is placed when it begins. -/
structure Begins (l : Layout) (task : Task) (s : Arrangement) : Prop where
  encloses : l.Encloses task.position.enclosing
  closed : l.DomClosed s
  ready : task.Ready l s

theorem begins_entry (l : Layout) : l.Begins (.path {} l.routine.entry) {} := by
  refine ⟨⟨by simp [Task.position], .nil⟩, fun u hu => absurd hu (BlockSet.not_mem_empty u),
    .refl (by simp), fun a ha hne => ?_, by simp⟩
  -- Nothing but the entry itself dominates the entry.
  exact absurd (.refl (by simpa using Ne.symm hne)) ha.2

namespace Begins

theorem front (h : l.Begins (.path scope start) s) : l.Begins (.first scope start) s :=
  ⟨h.encloses, h.closed, h.ready⟩

theorem back (h : l.Begins (.path scope start) s)
    (front : l.Arranged (.first scope start) s nodes (some t) s1)
    (hfirst : l.Filled (.first scope start) s (some t) s1) : l.Begins (.arm scope t) s1 :=
  ⟨h.encloses, hfirst.closed, hfirst.onto t rfl,
    headers_placed h.ready front.grows.placed (front.fresh rfl).2⟩

theorem path (h : l.Begins (.arm scope t) s)
    (hview : (l.view scope t).1 = .onward ∨ (l.view scope t).1 = .exit) (stops : List BlockId) :
    l.Begins (.path { scope with stops } t) (s.look l scope t) := by
  obtain ⟨hin, hnot⟩ := enters_of_view hview
  obtain ⟨htarget, hheaders⟩ := h.ready
  exact ⟨h.encloses, h.closed, (htarget hin).1, (htarget hin).2,
    fun c hc => ⟨(hnot c hc).2, .inl (hheaders c hc)⟩⟩

theorem branch (h : l.Begins (.first scope b) s) (hexits : l.ChoosesBetween b taken fall) :
    l.Begins (.branch scope b taken fall) (s.put b) :=
  ⟨h.encloses, h.closed.put h.ready.2.1,
    ⟨by simp, h.ready.1, (mem_successors_of_chooses hexits).2 (.inl rfl),
    (mem_successors_of_chooses hexits).2 (.inr rfl)⟩,
    headers_placed h.ready (s.grows_put b).placed (by simp)⟩

variable (hl : l.Standard)

include hl

theorem later (h : l.Begins (.branch scope b taken fall) s) (ht : t = taken ∨ t = fall)
    (hkept : ∀ x ∈ s.placed, x ∈ s1.placed) (hclosed : l.DomClosed s1) (stops : List BlockId) :
    l.Begins (.arm { scope with stops } t) s1 := by
  obtain ⟨⟨hb, hreach, htaken, hfall⟩, hheaders⟩ := h.ready
  have hedge : t ∈ l.graph.successors b := by
    rcases ht with rfl | rfl
    · exact htaken
    · exact hfall
  exact ⟨h.encloses, hclosed, fun hin => reachable_above_of_edge hl hclosed (hkept b hb) hreach
    hedge hin, fun c hc => hkept _ (hheaders c hc)⟩

theorem arm (h : l.Begins (.branch scope b taken fall) s) (ht : t = taken ∨ t = fall)
    (stops : List BlockId) :
    l.Begins (.arm { scope with stops } t) ((s.look l scope taken).look l scope fall) := by
  have hnow := h.later hl ht (fun _ hx => hx) h.closed stops
  exact ⟨hnow.encloses, hnow.closed, hnow.ready⟩

variable (h : l.Begins (.first scope loop.header) s) (hloop : loop ∈ l.loops.loops)
  (hnew : ∀ c ∈ scope.enclosing, c.header ≠ loop.header) (hfresh : loop.header ∉ s.placed)

include h hloop hnew hfresh

theorem inside (stops : List BlockId) (message : String) :
    l.Begins (.path (l.inside scope loop stops) loop.header) (s.say message) := by
  refine ⟨⟨fun c hc => ?_, List.pairwise_cons.2 ⟨fun c hc => ⟨(hnew c hc).symm, ?_, fun hdom => ?_⟩,
    h.encloses.within⟩⟩, h.closed, h.ready.1, h.ready.2.1, fun c hc => ?_⟩
  · rcases List.mem_cons.1 hc with rfl | hc
    · exact ⟨loop, hloop, rfl⟩
    · exact h.encloses.loops c hc
  · exact (h.ready.2.2 c hc).1
  · -- The outer header is placed, and so would be what dominates it.
    have houter : c.header ∈ s.placed := (h.ready.2.2 c hc).2.resolve_right (hnew c hc)
    exact hfresh (h.closed c.header houter _ hdom)
  · rcases List.mem_cons.1 hc with rfl | hc
    · exact ⟨fun hfollow => (hl.follow_spec hfollow).2.1 (hl.header_mem_body hloop), .inr rfl⟩
    · exact h.ready.2.2 c hc

theorem preTest (hform : l.formOf loop = .preTest entry) (message : String) :
    l.Begins (.arm (l.inside scope loop []) entry) ((s.say message).put loop.header) := by
  have hinside := h.inside hl hloop hnew hfresh [] message
  have hclosed := hinside.closed.put h.ready.2.1
  obtain ⟨-, -, -, -, -, -, hentry, -⟩ := loopForm_eq_preTest hform
  exact ⟨hinside.encloses, hclosed,
    fun hin => reachable_above_of_edge hl hclosed (by simp) h.ready.1 hentry hin,
    headers_placed hinside.ready (grows_put ..).placed (by simp)⟩

end Begins

theorem filled_loop (hl : l.Standard) (hloop : loop ∈ l.loops.loops)
    (hscope : l.Encloses (l.inside scope loop []).enclosing) (hs : l.DomClosed s)
    (hfills : l.Fills (l.inside scope loop []) s s') (hclosed : l.DomClosed s')
    (hfresh : loop.header ∉ s.placed) (hheader : loop.header ∈ s'.placed)
    (houter : ∀ c ∈ scope.enclosing, c.header ∈ s'.placed) :
    l.Filled (.first scope loop.header) s (l.scopeOf loop).follow s' := by
  have hbody : ∀ x ∈ loop.body, x ∈ s'.placed := by
    intro x hx
    have hplaced := body_placed hl hloop hscope hfills hs hfresh hheader houter (by simp) hx
    exact hplaced.resolve_right List.not_mem_nil
  refine ⟨fun u hu hnew t ht hin => ?_, hclosed, fun n hn _ => ?_, by simp [Task.targets]⟩
  · rcases hfills u hu hnew t ht hin with hto | hto | ⟨c, hc, hto⟩
    · exact .inl hto
    · exact absurd hto List.not_mem_nil
    · rcases List.mem_cons.1 hc with rfl | hc
      · rcases hto with rfl | hto
        · exact .inl hheader
        · exact .inr (.inl (List.mem_append_left _ (Option.mem_toList.2 hto)))
      · exact .inr (.inr ⟨c, hc, hto⟩)
  · obtain ⟨hreach, -, x, hx, hedge⟩ := hl.follow_spec hn
    refine ⟨hreach, fun a ha hne => ?_⟩
    have hreach' : l.IsReachable x := (hl.dom_of_mem_body hloop hx).1
    have hdom : l.Dom a x := hl.dom_of_edge hreach' hedge hreach ha hne
    exact hclosed x (hbody x hx) a hdom

theorem head?_of_single (hl : l.Standard) (hsingle : ∀ taken fall, ¬ l.ChoosesBetween b taken fall)
    (ht : t ∈ l.graph.successors b) : (l.graph.successors b).head? = some t := by
  have hcond := hl.conditional b
  unfold ChoosesBetween at hsingle
  rw [Graph.successors, Block.successors] at ht ⊢
  cases hfall : (l.graph.block b).fallThrough with
  | none =>
    cases hbranch : (l.graph.block b).branch with
    | none => simp [hfall, hbranch] at ht
    | some taken =>
      simp only [hfall, hbranch, List.mem_singleton] at ht
      simp [ht]
  | some fall =>
    cases hbranch : (l.graph.block b).branch with
    | none =>
      simp only [hfall, hbranch, List.mem_singleton] at ht
      simp [ht]
    | some taken =>
      have hsame : fall = taken := by
        by_contra hne
        exact hsingle taken fall ⟨hbranch, hfall, Ne.symm hne, hcond taken fall hbranch hfall⟩
      simp only [hfall, hbranch, hsame, if_true, List.mem_singleton] at ht
      simp [ht, hsame]

theorem successors_of_preTest (hform : l.formOf loop = .preTest entry)
    (ht : t ∈ l.graph.successors loop.header) : t = entry ∨ (l.scopeOf loop).follow = some t := by
  obtain ⟨f, hf, hexits, -, hlength, -, hentry, hin⟩ := loopForm_eq_preTest hform
  have hout := (mem_exitEdges.1 (hexits ▸ List.mem_singleton_self _)).2
  have hne : entry ≠ f := fun heq => hout.2 (heq ▸ hin)
  rw [hf]
  have hlist : ∃ p q, l.graph.successors loop.header = [p, q] := List.length_eq_two.1 hlength
  obtain ⟨p, q, hpq⟩ := hlist
  rw [hpq] at ht hentry
  have hfq := hout.1
  rw [hpq] at hfq
  simp only [List.mem_cons, List.not_mem_nil, or_false] at ht hentry hfq
  grind

theorem Filled.withOther (hl : l.Standard) {other : BlockId}
    (h : l.Filled (.arm scope t) s1 none s') (hs : s1.placed = s.placed) (hb : b ∈ s'.placed)
    (hreach : l.IsReachable b) (hedge : other ∈ l.graph.successors b)
    (hother : (l.view scope other).1 = .stop ∧ next = none ∨
      (l.view scope other).1 = .onward ∧ next = some other)
    (htargets : ∀ u ∈ Task.targets (.branch scope b taken fall), u = t ∨ u = other) :
    l.Filled (.branch scope b taken fall) s next s' := by
  have hstops : ∀ u, Covered scope s' u →
      Covered { scope with stops := next.toList ++ scope.stops } s' u :=
    fun u hu => hu.mono (fun _ h => h) (fun _ hv => .inr (.inl (List.mem_append_right _ hv))) rfl
  refine ⟨fun u hu hnew v hv hin => hstops v ?_, h.closed, fun n hn hin => ?_, fun u hu hin => ?_⟩
  · exact h.fills u hu (hs ▸ hnew) v hv hin
  · rcases hother with ⟨-, hnone⟩ | ⟨-, hsome⟩
    · rw [hnone] at hn
      cases hn
    · rw [hsome] at hn
      cases hn
      exact reachable_above_of_edge hl h.closed hb hreach hedge hin
  · rcases htargets u hu with rfl | rfl
    · exact hstops u (h.targets u (List.mem_singleton_self u) hin)
    · rcases hother with ⟨hstop, -⟩ | ⟨-, hsome⟩
      · exact hstops u (covered_of_view s' (.inl hstop) hin)
      · exact .inr (.inl (List.mem_append_left _ (Option.mem_toList.2 hsome)))

theorem Filled.both
    (htaken : l.Filled (.arm { scope with stops := next.toList ++ scope.stops } taken) s none s1)
    (hfall : l.Filled (.arm { scope with stops := next.toList ++ scope.stops } fall) s1 none s')
    (hgrows : s1.Grows s')
    (honto : ∀ n, next = some n → n ∈ l.routine.blocks → l.IsReachable n ∧ l.Above n s') :
    l.Filled (.branch scope b taken fall) s next s' := by
  refine ⟨htaken.fills.trans hfall.fills hgrows, hfall.closed, honto, fun t ht hin => ?_⟩
  rcases List.mem_cons.1 ht with rfl | ht
  · exact (htaken.targets _ (List.mem_singleton_self _) hin).mono hgrows.placed
      (fun b hb => .inr (.inl hb)) rfl
  · rw [List.mem_singleton.1 ht] at hin ⊢
    exact hfall.targets _ (List.mem_singleton_self _) hin

theorem Filled.of_placed_eq (h : l.Filled task s next s')
    (h1 : s1.placed = s.placed) (h2 : s2.placed = s'.placed) : l.Filled task s1 next s2 := by
  obtain ⟨hfills, hclosed, honto, htargets⟩ := h
  refine ⟨hfills.of_placed_eq h1 h2, ?_, ?_, fun t ht hin => ?_⟩
  · rwa [DomClosed, h2]
  · simpa only [Above, h2] using honto
  · simpa only [Covered, h2] using htargets t ht hin

/-- What a task has done when it ends. The induction is on its derivation: what stands first gets
everything above the rest placed, and a loop its whole body. -/
theorem Arranged.filled (hl : l.Standard) (h : l.Arranged task s nodes next s')
    (hbegins : l.Begins task s) : l.Filled task s next s' := by
  induction h with
  | ends _ ih =>
    have hfirst := ih hbegins.front
    exact ⟨hfirst.fills, hfirst.closed, by simp, by simp [Task.targets]⟩
  | goesOn front back ih1 ih2 =>
    have hfirst := ih1 hbegins.front
    have hrest := ih2 (hbegins.back front hfirst)
    refine ⟨?_, hrest.closed, by simp, by simp [Task.targets]⟩
    refine hfirst.fills.resume hrest.fills back.grows fun n hn hin => ?_
    cases hn
    exact hrest.targets _ (List.mem_singleton_self _) hin
  | onward view path ih =>
    have hpath := ih (hbegins.path (.inl view) _)
    refine ⟨hpath.fills.of_placed_eq rfl rfl, hpath.closed, by simp, fun t ht _ => ?_⟩
    rw [List.mem_singleton.1 ht]
    exact .inl (path.fresh rfl).2
  | exit view path ih =>
    have hpath := ih (hbegins.path (.inr view) _)
    refine ⟨?_, hpath.closed, by simp, fun t ht _ => ?_⟩
    · exact (hpath.fills.of_placed_eq rfl rfl).mono (fun b hb => absurd hb List.not_mem_nil) rfl
    · rw [List.mem_singleton.1 ht]
      exact .inl (path.fresh rfl).2
  | stop view =>
    refine ⟨fills_of_placed_eq rfl, hbegins.closed, by simp, fun t ht hin => ?_⟩
    rw [List.mem_singleton.1 ht] at hin ⊢
    exact covered_of_view _ (.inl view) hin
  | jump view =>
    refine ⟨fills_of_placed_eq rfl, hbegins.closed, by simp, fun t ht hin => ?_⟩
    rw [List.mem_singleton.1 ht] at hin ⊢
    exact covered_of_view _ (.inr ⟨_, view⟩) hin
  | @plain scope start s _ fresh single =>
    have hclosed := hbegins.closed.put hbegins.ready.2.1
    refine ⟨?_, hclosed, fun n hn hin => ?_, by simp [Task.targets]⟩
    · refine Fills.put (b := start) (fills_of_placed_eq rfl) rfl fun t ht _ => ?_
      rw [head?_of_single hl single ht]
      exact .inr (.inl List.mem_cons_self)
    · exact reachable_above_of_edge hl hclosed (by simp) hbegins.ready.1
        (List.mem_of_mem_head? hn) hin
  | @chooses scope start taken fall s nodes next s' _ fresh exits branch ih =>
    have hbranch := ih (hbegins.branch exits)
    refine ⟨?_, hbranch.closed, hbranch.onto, by simp [Task.targets]⟩
    refine Fills.put hbranch.fills rfl fun t ht hin => hbranch.targets t ?_ hin
    simpa [Task.targets] using (mem_successors_of_chooses exits).1 ht
  | @infinite scope loop s body s' mem new form path ih =>
    obtain ⟨hfresh, hheader⟩ := path.fresh rfl
    have hinside := hbegins.inside hl mem new hfresh [] (l.loopNote loop)
    have hpath := ih hinside
    exact filled_loop hl mem hinside.encloses hbegins.closed (hpath.fills.of_placed_eq rfl rfl)
      hpath.closed hfresh hheader (headers_placed hbegins.ready path.grows.placed hheader)
  | @preTest scope loop entry s body s' mem new form fresh arm ih =>
    have hinside := hbegins.preTest hl mem new fresh form (l.loopNote loop)
    have harm := ih hinside
    have hfills : l.Fills (l.inside scope loop []) s s' := by
      refine Fills.put harm.fills rfl fun t ht hin => ?_
      rcases successors_of_preTest form ht with rfl | hfollow
      · exact harm.targets _ (List.mem_singleton_self _) hin
      · exact .inr (.inr ⟨_, List.mem_cons_self, .inr hfollow⟩)
    have hheader : loop.header ∈ s'.placed := arm.grows.placed _ (by simp)
    exact filled_loop hl mem hinside.encloses hbegins.closed hfills harm.closed fresh hheader
      (headers_placed hbegins.ready (fun b hb => arm.grows.placed b (by simp [hb])) hheader)
  | @postTest scope loop latch s before s' mem new form apart path fresh ih =>
    obtain ⟨hfresh, hheader⟩ := path.fresh rfl
    have hinside := hbegins.inside hl mem new hfresh [latch] (l.loopNote loop)
    have hpath := ih hinside
    have hheaders := headers_placed hbegins.ready path.grows.placed hheader
    obtain ⟨f, hf, hexits, -, -, hsucc⟩ := loopForm_eq_postTest form
    obtain ⟨hlatch, -, hout⟩ := mem_exitEdges.1 (hexits ▸ List.mem_singleton_self (latch, f))
    have hfills : l.Fills (l.inside scope loop [latch]) s s' := hpath.fills.of_placed_eq rfl rfl
    -- The latch is the last block of the body, so what dominates it is placed.
    have habove : l.Above latch s' := by
      intro a ha hne
      by_cases hin : a ∈ loop.body
      · have hplaced :=
          body_placed hl mem hinside.encloses hfills hbegins.closed hfresh hheader hheaders
          (fun u hu v hv hvin => by
            rw [List.mem_singleton.1 hu] at hv
            refine ((hsucc v).1 hv).resolve_right fun hvf => hout (hvf ▸ hvin)) hin
        exact hplaced.resolve_right (by simpa using hne)
      · exact hpath.closed _ hheader a (hl.dom_header mem hlatch ha hin)
    have hfills' : l.Fills (l.inside scope loop []) s (s'.put latch) := by
      intro u hu hnew t ht hin
      rcases mem_placed_put.1 hu with rfl | hu
      · rcases (hsucc t).1 ht with rfl | rfl
        · exact .inl (mem_placed_put.2 (.inr hheader))
        · exact .inr (.inr ⟨_, List.mem_cons_self, .inr hf⟩)
      · refine (hfills u hu hnew t ht hin).mono (fun b hb => mem_placed_put.2 (.inr hb))
          (fun b hb => .inl (mem_placed_put.2 (.inl (List.mem_singleton.1 hb)))) rfl
    exact filled_loop hl mem hinside.encloses hbegins.closed hfills'
      (hpath.closed.put habove) hfresh (mem_placed_put.2 (.inr hheader))
      (fun c hc => mem_placed_put.2 (.inr (hheaders c hc)))
  | @selfLoop scope loop s mem new form fresh =>
    have hinside := hbegins.inside hl mem new fresh [] (l.loopNote loop)
    obtain ⟨f, hf, -, -, -, hsucc⟩ := loopForm_eq_postTest form
    have hfills : l.Fills (l.inside scope loop []) s
        ((s.say (l.loopNote loop)).put loop.header) := by
      refine Fills.put (b := loop.header) (fills_of_placed_eq rfl) rfl fun t ht _ => ?_
      rcases (hsucc t).1 ht with rfl | rfl
      · exact .inl (by simp)
      · exact .inr (.inr ⟨_, List.mem_cons_self, .inr hf⟩)
    exact filled_loop hl mem hinside.encloses hbegins.closed hfills
      (hinside.closed.put hbegins.ready.2.1) fresh
      (by simp) (headers_placed hbegins.ready (s.grows_put loop.header).placed (by simp))
  | @meets scope b taken fall s join takenArm s1 fallArm s' node takenView fallView join_eq takenRun
      fallRun node_eq ih1 ih2 =>
    have htaken := ih1 (hbegins.arm hl (.inl rfl) _)
    have hfall := ih2 (hbegins.later hl (.inr rfl) takenRun.grows.placed htaken.closed _)
    obtain ⟨⟨hb, hreach, hexit, hexit'⟩, -⟩ := hbegins.ready
    refine (htaken.both hfall fallRun.grows fun n hn _ => ?_).of_placed_eq rfl rfl
    exact above_meetingPoint? hl hfall.closed (fallRun.grows.placed b (takenRun.grows.placed b hb))
      hreach hexit
      hexit' (enters_of_view (.inl takenView)).1 (enters_of_view (.inl fallView)).1
        (join_eq.trans hn)
  | resumes takenView fallView =>
    refine ⟨fills_of_placed_eq rfl, hbegins.closed, by simp, fun t ht hin => ?_⟩
    rcases List.mem_cons.1 ht with rfl | ht
    · exact covered_of_view _ (.inl takenView) hin
    · rw [List.mem_singleton.1 ht] at hin ⊢
      exact covered_of_view _ (.inl fallView) hin
  | onTaken other _ run ih =>
    have harm := ih (hbegins.arm hl (.inl rfl) _)
    obtain ⟨⟨hb, hreach, -, hfall⟩, -⟩ := hbegins.ready
    exact harm.withOther hl rfl (run.grows.placed _ hb) hreach hfall other (by simp [Task.targets])
  | onFall other _ run ih =>
    have harm := ih (hbegins.arm hl (.inr rfl) _)
    obtain ⟨⟨hb, hreach, htaken, -⟩, -⟩ := hbegins.ready
    exact harm.withOther hl rfl (run.grows.placed _ hb) hreach htaken other (by simp [Task.targets])
  | parts takenRun fallRun ih1 ih2 =>
    have htaken := ih1 (hbegins.arm hl (.inl rfl) _)
    have hfall := ih2 (hbegins.later hl (.inr rfl) takenRun.grows.placed htaken.closed _)
    exact .of_placed_eq (.both htaken hfall fallRun.grows (by simp)) rfl rfl

end Layout

end Lift6502
