import Lift6502.Proofs.Flow.Forest
import Lift6502.Proofs.Tree.Derivation

/-!
# Arranging comes to an end

Every call that arranges something places a new block, or fails; only the header of a loop is come
to twice. So a limit of two calls for each block is never noticed.
-/

namespace Lift6502

theorem WayTo.around {next : BlockId → List BlockId} {a b c : BlockId} (h : WayTo next [] a b)
    (hend : b ≠ c) (hexits : next c = []) : WayTo next [c] a b := by
  induction h with
  | refl => exact .refl fun heq => hend (List.mem_singleton.1 heq)
  | step _ edge _ ih =>
    refine .step (fun heq => ?_) edge (ih hend)
    rw [List.mem_singleton.1 heq, hexits] at edge
    exact absurd edge List.not_mem_nil

namespace Layout

variable {l : Layout} {scope : Scope} {s s' : Arrangement} {α β : Type} {start target : BlockId}

def unplaced (l : Layout) (s : Arrangement) : Nat :=
  ((Finset.range l.graph.size).filter (· ∉ s.placed)).card

theorem unplaced_le (h : ∀ b ∈ s.placed, b ∈ s'.placed) : l.unplaced s' ≤ l.unplaced s := by
  refine Finset.card_le_card fun b hb => ?_
  obtain ⟨hsize, hnot⟩ := Finset.mem_filter.1 hb
  exact Finset.mem_filter.2 ⟨hsize, fun hplaced => hnot (h b hplaced)⟩

theorem unplaced_lt (h : ∀ b ∈ s.placed, b ∈ s'.placed) {b : BlockId} (hsize : b < l.graph.size)
    (hold : b ∉ s.placed) (hnew : b ∈ s'.placed) : l.unplaced s' < l.unplaced s := by
  refine Finset.card_lt_card ⟨fun c hc => ?_, fun hback => ?_⟩
  · obtain ⟨hsize, hnot⟩ := Finset.mem_filter.1 hc
    exact Finset.mem_filter.2 ⟨hsize, fun hplaced => hnot (h c hplaced)⟩
  · have hmem := hback (Finset.mem_filter.2 ⟨Finset.mem_range.2 hsize, hold⟩)
    exact (Finset.mem_filter.1 hmem).2 hnew

theorem unplaced_le_size (l : Layout) (s : Arrangement) : l.unplaced s ≤ l.graph.size := by
  refine (Finset.card_filter_le _ _).trans ?_
  rw [Finset.card_range]

theorem unplaced_put_lt {b : BlockId} (hsize : b < l.graph.size) (hold : b ∉ s.placed) :
    l.unplaced (s.put b) < l.unplaced s :=
  unplaced_lt (s.grows_put b).placed hsize hold (by simp)

/-! ## Computations that end alike -/

/-- Two computations end alike: with the same result and in the same state. What was placed stays
placed, and a failure is about a block that would be placed twice. -/
structure Alike (l : Layout) (m m' : Arranging α) (s : Arrangement) : Prop where
  same : m'.run.run s = m.run.run s
  placed : ∀ b ∈ s.placed, b ∈ (m.run.run s).2.placed
  fails : ∀ e, Fails m s e → ∃ b ∈ (m.run.run s).2.placed, e = .placedTwice (l.graph.name b)

namespace Alike

theorem of_yields {m : Arranging α} {a : α} (h : Yields m s a s') (hgrows : s.Grows s') :
    l.Alike m m s := by
  have hrun : m.run.run s = (.ok a, s') := h
  refine ⟨rfl, fun b hb => ?_, fun e he => ?_⟩
  · rw [hrun]
    exact hgrows.placed b hb
  · rw [Fails, hrun] at he
    cases he

theorem pure (a : α) : l.Alike (Pure.pure a) (Pure.pure a) s :=
  of_yields (rfl) (.refl s)

theorem place (l : Layout) (s : Arrangement) (b : BlockId) : l.Alike (l.place b) (l.place b) s := by
  by_cases hb : b ∈ s.placed
  · have hrun : (l.place b).run.run s = (.error (.placedTwice (l.graph.name b)), s) := by
      unfold Layout.place
      rw [run_bind, Yields.get_iff.2 ⟨rfl, rfl⟩]
      simp only [BlockSet.contains_iff, if_pos hb]
      rfl
    refine ⟨rfl, fun c hc => ?_, fun e he => ?_⟩
    · rw [hrun]
      exact hc
    · rw [Fails, hrun] at he
      rw [hrun]
      exact ⟨b, hb, (Except.error.inj he).symm⟩
  · have hrun : Yields (l.place b) s () (s.put b) := by
      refine Yields.bind_iff.2 ⟨s, s, Yields.get_iff.2 ⟨rfl, rfl⟩, ?_⟩
      simp only [BlockSet.contains_iff, if_neg hb]
      exact Yields.modify_iff.2 rfl
    exact of_yields hrun (s.grows_put b)

theorem bind {m m' : Arranging α} {f f' : α → Arranging β} (h : l.Alike m m' s)
    (hrest : ∀ a s', Yields m s a s' → l.Alike (f a) (f' a) s') :
    l.Alike (m >>= f) (m' >>= f') s := by
  have hsame := h.same
  have hplaced := h.placed
  have hfails := h.fails
  rcases hrun : m.run.run s with ⟨e | a, s'⟩
  · have hwhole : (m >>= f).run.run s = (.error e, s') := by rw [run_bind, hrun]
    rw [hrun] at hsame hplaced
    refine ⟨?_, ?_, fun e' he => ?_⟩
    · rw [hwhole, run_bind, hsame]
    · rw [hwhole]
      exact hplaced
    · rw [Fails, hwhole] at he
      cases he
      obtain ⟨b, hb, heq⟩ := hfails e (by rw [Fails, hrun])
      rw [hrun] at hb
      rw [hwhole]
      exact ⟨b, hb, heq⟩
  · have hrest := hrest a s' hrun
    have hwhole : (m >>= f).run.run s = (f a).run.run s' := by rw [run_bind, hrun]
    rw [hrun] at hsame hplaced
    refine ⟨?_, ?_, fun e he => ?_⟩
    · rw [hwhole, run_bind, hsame]
      exact hrest.same
    · intro b hb
      rw [hwhole]
      exact hrest.placed b (hplaced b hb)
    · rw [Fails, hwhole] at he
      rw [hwhole]
      exact hrest.fails e he

theorem note (message : String) : l.Alike (Layout.note message) (Layout.note message) s :=
  of_yields (a := ()) (yields_note_iff.2 rfl) (s.grows_say message)

theorem viewEdge (scope : Scope) (target : BlockId) :
    l.Alike (l.viewEdge scope target) (l.viewEdge scope target) s :=
  of_yields (yields_viewEdge_iff.2 ⟨rfl, rfl⟩) (s.grows_look l scope target)

end Alike

/-! ## Steps whose nested calls end alike

Each step is run with two rules for what is nested in it. -/

/-- Two rules end alike wherever fewer than `n` blocks are to be placed. -/
def AlikeBelow (l : Layout) (n : Nat) (sequence sequence' : Sequencer) : Prop :=
  ∀ scope start s, l.unplaced s < n → l.Alike (sequence scope start) (sequence' scope start) s

variable {n : Nat} {sequence sequence' : Sequencer} {loop : NaturalLoop}

namespace AlikeBelow

theorem arm (h : l.AlikeBelow n sequence sequence') (hs : l.unplaced s < n) (scope : Scope)
    (target : BlockId) :
    l.Alike (l.arm sequence scope target) (l.arm sequence' scope target) s := by
  refine (Alike.viewEdge scope target).bind fun v s1 hview => ?_
  obtain ⟨rfl, rfl⟩ := yields_viewEdge_iff.1 hview
  cases (l.view scope target).1 with
  | onward => exact h scope target _ hs
  | exit => exact h scope.unstopped target _ hs
  | stop => exact .pure _
  | jump node => exact .pure _

theorem of_placed (hs : l.unplaced s < n) (hgrows : ∀ b ∈ s.placed, b ∈ s'.placed) :
    l.unplaced s' < n :=
  Nat.lt_of_le_of_lt (unplaced_le hgrows) hs

variable (h : l.AlikeBelow n sequence sequence') (hs : l.unplaced s < n) (scope : Scope)

include h hs

theorem arm_bind (target : BlockId) {f f' : List ControlNode → Arranging α}
    (hrest : ∀ nodes s', l.unplaced s' < n → l.Alike (f nodes) (f' nodes) s') :
    l.Alike (l.arm sequence scope target >>= f) (l.arm sequence' scope target >>= f') s := by
  refine (h.arm hs scope target).bind fun nodes s' hrun => hrest nodes s' ?_
  have hplaced := (h.arm hs scope target).placed
  rw [show (l.arm sequence scope target).run.run s = (.ok nodes, s') from hrun] at hplaced
  exact of_placed hs hplaced

theorem arrangeIf (b taken fall : BlockId) :
    l.Alike (l.arrangeIf sequence scope b taken fall)
      (l.arrangeIf sequence' scope b taken fall) s := by
  refine h.arm_bind hs _ taken fun takenArm s1 hs1 => h.arm_bind hs1 _ fall fun fallArm s2 _ => ?_
  exact (Alike.note _).bind fun _ _ _ => .pure _

theorem arrangeBranch (b taken fall : BlockId) :
    l.Alike (l.arrangeBranch sequence scope b taken fall)
      (l.arrangeBranch sequence' scope b taken fall) s := by
  refine (Alike.viewEdge scope taken).bind fun takenView s1 htaken => ?_
  refine (Alike.viewEdge scope fall).bind fun fallView s2 hfall => ?_
  obtain ⟨-, rfl⟩ := yields_viewEdge_iff.1 htaken
  obtain ⟨-, rfl⟩ := yields_viewEdge_iff.1 hfall
  replace hs : l.unplaced ((s.look l scope taken).look l scope fall) < n := hs
  split
  · exact h.arrangeIf hs scope b taken fall
  · exact h.arm_bind hs scope taken fun _ _ _ => .pure _
  · exact h.arm_bind hs scope fall fun _ _ _ => .pure _
  · exact .pure _
  · split
    · exact h.arm_bind hs scope taken fun _ _ _ => .pure _
    · split
      · exact h.arm_bind hs scope fall fun _ _ _ => .pure _
      · exact h.arm_bind hs scope taken fun _ _ hs1 =>
          h.arm_bind hs1 scope fall fun _ _ _ => .pure _

end AlikeBelow

theorem alike_arrangeBlock
    (hbranch : ∀ taken fall, start ∉ s.placed → l.ChoosesBetween start taken fall →
      l.Alike (l.arrangeBranch sequence scope start taken fall)
      (l.arrangeBranch sequence' scope start taken fall) (s.put start)) :
    l.Alike (l.arrangeBlock sequence scope start) (l.arrangeBlock sequence' scope start) s := by
  refine (Alike.place l s start).bind fun _ s1 hplace => ?_
  obtain ⟨hfresh, rfl⟩ := yields_place hplace
  simp only
  split
  · next taken fall htaken hfall =>
    split
    · next hchooses =>
      exact (hbranch taken fall hfresh ⟨htaken, hfall, hchooses⟩).bind fun _ _ _ => .pure _
    · exact .pure _
  · exact .pure _

theorem alike_arrangeBody {header : BlockId} (form : LoopForm)
    (hpath : ∀ stops, l.Alike (sequence { scope with stops } header)
      (sequence' { scope with stops } header) s)
    (harm : ∀ target, header ∉ s.placed → l.Alike (l.arm sequence scope.unstopped target)
      (l.arm sequence' scope.unstopped target) (s.put header)) :
    l.Alike (l.arrangeBody sequence scope header form)
      (l.arrangeBody sequence' scope header form) s := by
  cases form with
  | infinite => exact (hpath []).bind fun _ _ _ => .pure _
  | preTest inside =>
    refine (Alike.place l s header).bind fun _ s1 hplace => ?_
    obtain ⟨hfresh, rfl⟩ := yields_place hplace
    exact (harm inside hfresh).bind fun _ _ _ => .pure _
  | postTest latch =>
    refine Alike.bind ?_ fun before s1 _ => (Alike.place l s1 latch).bind fun _ _ _ => .pure _
    split
    · exact .pure _
    · exact hpath [latch]

theorem alike_arrangeLoop
    (hbody : l.Alike (l.arrangeBody sequence (l.inside scope loop scope.stops) loop.header
      (l.formOf loop)) (l.arrangeBody sequence' (l.inside scope loop scope.stops) loop.header
      (l.formOf loop)) (s.say (l.loopNote loop))) :
    l.Alike (l.arrangeLoop sequence scope loop) (l.arrangeLoop sequence' scope loop) s := by
  refine (Alike.note _).bind fun _ s1 hnote => ?_
  obtain rfl : s1 = s.say (l.loopNote loop) := yields_note_iff.1 hnote
  refine hbody.bind fun _ s2 _ => ?_
  exact (Alike.of_yields (Yields.get_iff.2 ⟨rfl, rfl⟩) (.refl s2)).bind fun _ _ _ => .pure _

theorem alike_arrangeFirst (hblock : l.StandsAlone scope start →
      l.Alike (l.arrangeBlock sequence scope start) (l.arrangeBlock sequence' scope start) s)
    (hloop : ∀ loop ∈ l.loops.loops, loop.header = start → ¬ l.StandsAlone scope start →
      l.Alike (l.arrangeLoop sequence scope loop) (l.arrangeLoop sequence' scope loop) s) :
    l.Alike (l.arrangeFirst sequence scope start) (l.arrangeFirst sequence' scope start) s := by
  unfold arrangeFirst
  split
  · next hany =>
    obtain ⟨c, hc, heq⟩ := List.any_eq_true.1 hany
    exact hblock (.inr ⟨c, hc, by simpa using heq⟩)
  · next hany =>
    split
    · next loop hget =>
      have hheader : loop.header = start := by simpa using List.find?_some hget
      refine hloop loop (List.mem_of_find?_eq_some hget) hheader ?_
      rintro (hnone | ⟨c, hc, heq⟩)
      · rw [hget] at hnone
        cases hnone
      · exact hany (List.any_eq_true.2 ⟨c, hc, by simpa using heq⟩)
    · next hget => exact hblock (.inl hget)

namespace AlikeBelow

theorem put (hs : l.unplaced s < n) (b : BlockId) : l.unplaced (s.put b) < n :=
  of_placed hs (s.grows_put b).placed

variable (h : l.AlikeBelow n sequence sequence') (hs : l.unplaced s < n) (scope : Scope)

include h hs

theorem arrangeBlock (b : BlockId) :
    l.Alike (l.arrangeBlock sequence scope b) (l.arrangeBlock sequence' scope b) s :=
  alike_arrangeBlock fun taken fall _ _ => h.arrangeBranch (put hs b) scope b taken fall

theorem arrangeBody (header : BlockId) (form : LoopForm) :
    l.Alike (l.arrangeBody sequence scope header form)
      (l.arrangeBody sequence' scope header form) s :=
  alike_arrangeBody form (fun _ => h _ header s hs) fun target _ => h.arm (put hs header) _ target

theorem arrangeLoop (loop : NaturalLoop) :
    l.Alike (l.arrangeLoop sequence scope loop) (l.arrangeLoop sequence' scope loop) s :=
  alike_arrangeLoop (h.arrangeBody (s := s.say _) hs _ _ _)

theorem arrangeFirst (start : BlockId) :
    l.Alike (l.arrangeFirst sequence scope start) (l.arrangeFirst sequence' scope start) s :=
  alike_arrangeFirst (fun _ => h.arrangeBlock hs scope start) fun loop _ _ _ =>
    h.arrangeLoop hs scope loop

end AlikeBelow

/-! ## The depth that is needed -/

def HeadersInGraph (l : Layout) : Prop := ∀ loop ∈ l.loops.loops, loop.header < l.graph.size

theorem Arranged.lt_size (hl : l.HeadersInGraph) {next : BlockId} {nodes : List ControlNode}
    (h : l.Arranged (.first scope start) s nodes (some next) s') : start < l.graph.size := by
  generalize hnext : some next = next? at h
  cases h with
  | plain =>
    refine Graph.lt_size_of_successors_ne_nil fun hnil => ?_
    rw [hnil] at hnext
    cases hnext
  | chooses _ _ exits =>
    exact Graph.lt_size_of_successors_ne_nil
      (List.ne_nil_of_mem (mem_successors_of_exits exits.1 exits.2.1).1)
  | infinite mem | preTest mem | postTest mem | selfLoop mem => exact hl _ mem

/-- With two nested calls for each block that is still to be placed and two more, a greater limit
makes no difference; one more is enough for a block that stands alone. -/
theorem alike_sequence (hl : l.HeadersInGraph) {fuel fuel' : Nat} (hfuel : fuel ≤ fuel')
    (scope : Scope) (start : BlockId) (s : Arrangement)
    (hdeep : 2 * l.unplaced s + 2 ≤ fuel ∨ l.StandsAlone scope start ∧
      2 * l.unplaced s + 1 ≤ fuel) :
    l.Alike (l.sequence fuel scope start) (l.sequence fuel' scope start) s := by
  induction fuel generalizing fuel' scope start s with
  | zero => omega
  | succ fuel ih =>
    obtain ⟨fuel', rfl⟩ : ∃ n, fuel' = n + 1 := ⟨fuel' - 1, by omega⟩
    have hle : fuel ≤ fuel' := by omega
    -- Once the block at the start is placed, both limits leave room for all others.
    have hbelow : l.AlikeBelow (l.unplaced s) (l.sequence fuel) (l.sequence fuel') :=
      fun scope' start' s' hs' =>
      ih hle scope' start' s' (.inl (by omega))
    refine Alike.bind (alike_arrangeFirst (fun _ => ?_) fun loop hmem hheader hnot => ?_)
      fun first s1 hfirst => ?_
    · refine alike_arrangeBlock fun taken fall hfresh hexits =>
        hbelow.arrangeBranch ?_ scope start taken fall
      have hne := List.ne_nil_of_mem (mem_successors_of_exits hexits.1 hexits.2.1).1
      exact unplaced_put_lt (Graph.lt_size_of_successors_ne_nil hne) hfresh
    · -- The header is come to again inside its loop, where it stands alone.
      have hroom : 2 * l.unplaced s + 1 ≤ fuel := by
        rcases hdeep with hdeep | ⟨halone, -⟩
        · omega
        · exact absurd halone hnot
      refine alike_arrangeLoop (alike_arrangeBody _ (fun stops => ?_) fun target hfresh => ?_)
      · exact ih hle _ _ _ (.inr ⟨.inr ⟨l.scopeOf loop, List.mem_cons_self, rfl⟩, hroom⟩)
      · exact hbelow.arm (unplaced_put_lt (s := s.say (l.loopNote loop)) (hl loop hmem) hfresh)
          _ target
    · obtain ⟨nodes, next⟩ := first
      cases next with
      | none => exact .pure _
      | some next =>
        have harranged := (l.derives_sequence fuel).arrangeFirst hfirst
        have hnew := harranged.fresh rfl
        exact hbelow.arm_bind (unplaced_lt harranged.grows.placed (harranged.lt_size hl) hnew.1
          hnew.2) scope next fun _ _ _ => .pure _

/-! ## Every call places a block -/

/-- The computation places a block that had not been placed, or fails since a block would be
placed twice. -/
structure MovesOn (l : Layout) (m : Arranging α) (s : Arrangement) : Prop where
  placed : ∀ b ∈ s.placed, b ∈ (m.run.run s).2.placed
  new : ∀ a s', Yields m s a s' → ∃ b ∈ s'.placed, b ∉ s.placed
  fails : ∀ e, Fails m s e → ∃ b ∈ (m.run.run s).2.placed, e = .placedTwice (l.graph.name b)

/-- A call, for which the limit on what is nested in it is left open, comes to an end wherever it is
made: a limit of two calls for each block that is still to be placed, and two more, is not noticed,
and the call advances. -/
def Ends (l : Layout) (call : Sequencer → Arranging α) : Prop :=
  ∀ s, (∀ fuel, 2 * (l.unplaced s + 1) ≤ fuel →
      (call (l.sequence fuel)).run.run s = (call (l.sequence (2 * (l.unplaced s + 1)))).run.run s) ∧
    l.MovesOn (call (l.sequence (2 * (l.unplaced s + 1)))) s

theorem Ends.intro (hl : l.HeadersInGraph) {call : Sequencer → Arranging α}
    (halike : ∀ {n s sequence sequence'}, l.AlikeBelow n sequence sequence' → l.unplaced s < n →
      l.Alike (call sequence) (call sequence') s)
    (hnew : ∀ {sequence s a s'}, l.Derives sequence → Yields (call sequence) s a s' →
      ∃ b ∈ s'.placed, b ∉ s.placed) : l.Ends call := by
  intro s
  have hdeep : ∀ fuel, 2 * (l.unplaced s + 1) ≤ fuel →
      l.Alike (call (l.sequence (2 * (l.unplaced s + 1)))) (call (l.sequence fuel)) s := by
    intro fuel hfuel
    refine halike (fun scope start s' hs' => ?_) (Nat.lt_succ_self (l.unplaced s))
    exact alike_sequence hl hfuel scope start s' (.inl (by omega))
  have hends := hdeep _ (Nat.le_refl _)
  exact ⟨fun fuel hfuel => (hdeep fuel hfuel).same, hends.placed,
    fun _ _ => hnew (l.derives_sequence _), hends.fails⟩

theorem view_append_stops {more : List BlockId} (h : target ∉ more) :
    l.view { scope with stops := more ++ scope.stops } target = l.view scope target := by
  have hstops : (more ++ scope.stops).contains target = scope.stops.contains target := by simp [h]
  simp only [view, hstops]

section New

variable (hseq : l.Derives sequence) {nodes : List ControlNode} {start target header : BlockId}
  {first : List ControlNode × Option BlockId}

include hseq in
theorem new_of_path (h : Yields (sequence scope start) s nodes s') :
    ∃ b ∈ s'.placed, b ∉ s.placed :=
  have hnew := (hseq _ _ _ _ _ h).fresh rfl
  ⟨start, hnew.2, hnew.1⟩

include hseq in
theorem new_of_arm (hview : (l.view scope target).1 = .onward ∨ (l.view scope target).1 = .exit)
    (h : Yields (l.arm sequence scope target) s nodes s') :
    target ∈ s'.placed ∧ target ∉ s.placed := by
  cases hseq.arm h with
  | onward _ path | exit _ path => exact (path.fresh rfl).symm
  | stop view => rcases hview with hview | hview <;> rw [view] at hview <;> cases hview
  | jump view => rcases hview with hview | hview <;> rw [view] at hview <;> cases hview

include hseq in
theorem new_of_arrangeBlock (h : Yields (l.arrangeBlock sequence scope start) s first s') :
    ∃ b ∈ s'.placed, b ∉ s.placed := by
  obtain ⟨_, s1, hplace, h⟩ := h.of_bind
  obtain ⟨hfresh, rfl⟩ := yields_place hplace
  refine ⟨start, ?_, hfresh⟩
  have hmem : start ∈ (s.put start).placed := Arrangement.mem_placed_put.2 (.inl rfl)
  simp only at h
  split at h
  · split at h
    · obtain ⟨_, hrun, -⟩ := Yields.bind_pure_iff.1 h
      exact (hseq.arrangeBranch hrun).grows.placed _ hmem
    · obtain ⟨-, rfl⟩ := h.of_pure
      exact hmem
  · obtain ⟨-, rfl⟩ := h.of_pure
    exact hmem

include hseq in
theorem new_of_arrangeBody {form : LoopForm} {body : Option Condition × List ControlNode}
    (h : Yields (l.arrangeBody sequence scope header form) s body s') :
    ∃ b ∈ s'.placed, b ∉ s.placed := by
  cases form with
  | infinite =>
    obtain ⟨_, hrun, -⟩ := Yields.bind_pure_iff.1 h
    exact new_of_path hseq hrun
  | preTest inside =>
    obtain ⟨_, s1, hplace, h⟩ := h.of_bind
    obtain ⟨hfresh, rfl⟩ := yields_place hplace
    obtain ⟨_, hrun, -⟩ := Yields.bind_pure_iff.1 h
    exact ⟨header, (hseq.arm hrun).grows.placed _ (BlockSet.mem_insert.2 (.inl rfl)), hfresh⟩
  | postTest latch =>
    obtain ⟨before, s1, hbefore, h⟩ := h.of_bind
    obtain ⟨_, s2, hplace, h⟩ := h.of_bind
    obtain ⟨hfresh, rfl⟩ := yields_place hplace
    obtain ⟨-, rfl⟩ := h.of_pure
    -- The latch is new at the end, and so it was at the start.
    refine ⟨latch, BlockSet.mem_insert.2 (.inl rfl), fun hold => hfresh ?_⟩
    split at hbefore
    · obtain ⟨-, rfl⟩ := hbefore.of_pure
      exact hold
    · exact (hseq _ _ _ _ _ hbefore).grows.placed _ hold

include hseq in
theorem new_of_arrangeLoop (h : Yields (l.arrangeLoop sequence scope loop) s first s') :
    ∃ b ∈ s'.placed, b ∉ s.placed := by
  obtain ⟨_, s1, hnote, h⟩ := h.of_bind
  obtain rfl := yields_note_iff.1 hnote
  obtain ⟨_, s2, hbody, h⟩ := h.of_bind
  have hpure := Yields.get_bind_iff.1 h
  obtain ⟨-, rfl⟩ := hpure.of_pure
  exact new_of_arrangeBody (s := s.say _) hseq hbody

include hseq in
/-- At most one of two different arms is where they meet, and the other one goes on. -/
theorem new_of_arrangeIf {b taken fall : BlockId} (htaken : (l.view scope taken).1 = .onward)
    (hfall : (l.view scope fall).1 = .onward) (hne : taken ≠ fall)
    (h : Yields (l.arrangeIf sequence scope b taken fall) s first s') :
    ∃ b ∈ s'.placed, b ∉ s.placed := by
  obtain ⟨takenArm, s1, htakenRun, h⟩ := h.of_bind
  obtain ⟨fallArm, s2, hfallRun, h⟩ := h.of_bind
  obtain ⟨_, hnote, -⟩ := Yields.bind_pure_iff.1 h
  obtain rfl := yields_note_iff.1 hnote
  by_cases hjoin : taken ∈ (meetingPoint? l.graph l.dominators (l.isForward scope) b taken
    fall).toList
  · have hother : fall ∉ (meetingPoint? l.graph l.dominators (l.isForward scope) b taken
        fall).toList := by
      intro hboth
      rw [Option.mem_toList] at hjoin hboth
      rw [hjoin] at hboth
      exact hne (Option.some.inj hboth)
    have hnew :=
      new_of_arm hseq (.inl ((congrArg Prod.fst (view_append_stops hother)).trans hfall)) hfallRun
    exact ⟨fall, hnew.1, fun hold => hnew.2 ((hseq.arm htakenRun).grows.placed _ hold)⟩
  · have hnew :=
      new_of_arm hseq (.inl ((congrArg Prod.fst (view_append_stops hjoin)).trans htaken)) htakenRun
    exact ⟨taken, (hseq.arm hfallRun).grows.placed _ hnew.1, hnew.2⟩

end New

/-! ## Arranging a routine -/

theorem headersInGraph_ofRoutine (g : Graph) (r : Routine) : (ofRoutine g r).HeadersInGraph := by
  intro loop hmem
  obtain ⟨latch, hback⟩ := LoopForest.exists_loop_iff.1 ⟨loop, hmem, rfl⟩
  obtain ⟨hedge, hreached, hdominates⟩ := LoopForest.backEdge_iff.1 hback
  have hlatch : latch < g.size := Graph.lt_size_of_successors_ne_nil (List.ne_nil_of_mem hedge)
  by_contra hbeyond
  refine hdominates (hreached.around (fun heq => hbeyond (heq ▸ hlatch)) ?_)
  by_contra hexits
  exact hbeyond (Graph.lt_size_of_successorsIn_ne_nil hexits)

/-- Arranging a routine comes to an end, at every position and whatever has been placed. -/
structure ArrangingEnds (l : Layout) : Prop where
  path : ∀ scope start, l.Ends fun sequence => sequence scope start
  /-- One pass along a path: the block or the loop at a place. -/
  pass : ∀ scope start, l.Ends fun sequence => l.arrangeFirst sequence scope start
  block : ∀ scope b, l.Ends fun sequence => l.arrangeBlock sequence scope b
  /-- A conditional is arranged when both of its arms, which are different, go on. -/
  cond : ∀ scope b taken fall, (l.view scope taken).1 = .onward → (l.view scope fall).1 = .onward →
    taken ≠ fall → l.Ends fun sequence => l.arrangeIf sequence scope b taken fall
  loop : ∀ scope, ∀ loop ∈ l.loops.loops, l.Ends fun sequence => l.arrangeLoop sequence scope loop
  body : ∀ scope header form, l.Ends fun sequence => l.arrangeBody sequence scope header form
  /-- An edge leads on, or ends the path with at most one node and nothing nested. -/
  edge : ∀ scope target, (l.Ends fun sequence => l.arm sequence scope target) ∨
    ∃ node : Option ControlNode, ∀ sequence s,
      Yields (l.arm sequence scope target) s node.toList (s.look l scope target)
  /-- The limit that is set is not noticed. -/
  deepEnough : ∀ fuel, l.depth ≤ fuel →
    (l.sequence fuel {} l.routine.entry).run.run {} =
      (l.sequence l.depth {} l.routine.entry).run.run {}
  /-- There are two reasons for a dispatch loop, and no other one. -/
  tree : l.tree.1.structured = true ∨
    (retreatingEdge? l.graph l.dominators l.routine.blocks).isSome = true ∨
    ∃ b, Fails (l.sequence l.depth {} l.routine.entry) {} (.placedTwice (l.graph.name b))

theorem ends_path (hl : l.HeadersInGraph) (scope : Scope) (start : BlockId) :
    l.Ends fun sequence => sequence scope start :=
  .intro hl (fun h hs => h scope start _ hs) fun hseq h => new_of_path hseq h

theorem ends_arm (hl : l.HeadersInGraph)
    (hview : (l.view scope target).1 = .onward ∨ (l.view scope target).1 = .exit) :
    l.Ends fun sequence => l.arm sequence scope target :=
  .intro hl (fun h hs => h.arm hs scope target) fun hseq h => ⟨target, new_of_arm hseq hview h⟩

theorem yields_arm {node : Option ControlNode} (hview : (l.view scope target).1 =
    node.elim .stop .jump) (sequence : Sequencer) (s : Arrangement) :
    Yields (l.arm sequence scope target) s node.toList (s.look l scope target) := by
  refine Yields.bind_iff.2 ⟨_, _, yields_viewEdge_iff.2 ⟨rfl, rfl⟩, ?_⟩
  rw [hview]
  cases node <;> exact rfl

theorem arranging_ends (g : Graph) (r : Routine) : (ofRoutine g r).ArrangingEnds := by
  have hl := headersInGraph_ofRoutine g r
  generalize ofRoutine g r = l at hl
  have hdepth : 2 * (l.unplaced {} + 1) ≤ l.depth := by
    have hsize := l.unplaced_le_size {}
    unfold depth
    omega
  refine ⟨ends_path hl, fun scope start => ?_, fun scope b => ?_,
    fun scope b taken fall htaken hfall hne => ?_,
    fun scope loop _ => ?_, fun scope header form => ?_, fun scope target => ?_,
      fun fuel hfuel => ?_, ?_⟩
  · refine .intro hl (fun h hs => h.arrangeFirst hs scope start) fun hseq h => ?_
    have hnew := (hseq.arrangeFirst h).fresh rfl
    exact ⟨start, hnew.2, hnew.1⟩
  · exact .intro hl (fun h hs => h.arrangeBlock hs scope b) fun hseq h => new_of_arrangeBlock hseq h
  · exact .intro hl (fun h hs => h.arrangeIf hs scope b taken fall) fun hseq h =>
      new_of_arrangeIf hseq htaken hfall hne h
  · exact .intro hl (fun h hs => h.arrangeLoop hs scope loop) fun hseq h =>
      new_of_arrangeLoop hseq h
  · exact .intro hl (fun h hs => h.arrangeBody hs scope header form) fun hseq h =>
      new_of_arrangeBody hseq h
  · cases hview : (l.view scope target).1 with
    | onward => exact .inl (ends_arm hl (.inl hview))
    | exit => exact .inl (ends_arm hl (.inr hview))
    | stop => exact .inr ⟨none, yields_arm hview⟩
    | jump node => exact .inr ⟨some node, yields_arm hview⟩
  · have hends := (ends_path hl {} l.routine.entry {}).1
    rw [hends fuel (Nat.le_trans hdepth hfuel), hends l.depth hdepth]
  · have hends := ends_path hl {} l.routine.entry {}
    unfold Layout.tree
    simp only
    split
    · next hedge => exact .inr (.inl (by rw [hedge]; rfl))
    · split
      · exact .inl rfl
      · next hrun =>
        rw [hends.1 l.depth hdepth] at hrun
        obtain ⟨b, -, rfl⟩ := hends.2.fails _ (congrArg Prod.fst hrun)
        refine .inr (.inr ⟨b, ?_⟩)
        rw [Fails, hends.1 l.depth hdepth, hrun]

end Layout

end Lift6502
