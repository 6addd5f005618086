import Lift6502.Proofs.Tree.Shape

/-!
# Arranged routines follow the exits of their blocks

What stands behind the first nodes of a path is not known while they are arranged, so they are said
to follow the exits together with any nodes that do so from the next block on.
-/

namespace Lift6502

open ControlNode Paths

namespace Layout

variable {ε σ : Type} {M : BlockMachine ε σ} {l : Layout} {scope : Scope} {s s' : Arrangement}
  {b t taken fall target : BlockId} {named : BlockSet} {nodes arm : List ControlNode}
  {next join : Option BlockId} {loop : NaturalLoop} {takenArm fallArm : List ControlNode}
  {takenLeaves fallLeaves : Bool} {enclosing : List LoopScope} {resume : Option BlockId}
  {leaves : Bool}
  {node : ControlNode} {latch : BlockId} {P : Paths ε σ}

theorem KeepsEdges.of_grows (h : l.KeepsEdges s') (hgrows : s.Grows s') : l.KeepsEdges s :=
  fun v hv => h v (hgrows.viewed v hv)

theorem KeepsEdges.of_look (h : l.KeepsEdges s') (hgrows : (s.look l scope target).Grows s') :
    l.KeepsEdge (scope, target) :=
  h _ (hgrows.viewed _ (List.mem_append_right _ (List.mem_singleton_self _)))

theorem followsTo_jump (hs : l.ScopeOk scope)
    (hview : (l.view scope target).1 = .jump node) (hkept : l.KeepsEdge (scope, target)) :
    (l.paths M).FollowsTo scope.enclosing (s.look l scope target).labelled [node] target none := by
  rcases jump_of_view hview with ⟨hout, rfl⟩ | ⟨hin, header, hjump, hname⟩
  · exact followsTo_goto hout
  · obtain ⟨before, c, after, hsplit, rfl, hnode⟩ := jumpTo?_eq_some hjump
    have hc : c ∈ scope.enclosing := by
      rw [hsplit]
      exact List.mem_append_right _ List.mem_cons_self
    refine .inl ⟨hin, ?_⟩
    -- A jump without a label is for the innermost loop, and one with a label is for a named loop.
    have htarget : ∀ label : Option String,
        label = (if false || !before.isEmpty then some c.label else none) →
        (label ≠ none → (l.view scope target).2 = some c.header) →
        IsTarget (s.look l scope target).labelled scope.enclosing label c := by
      intro label hlabel hc'
      cases before with
      | nil =>
        subst hlabel
        show scope.enclosing.head? = some c
        rw [hsplit]
        rfl
      | cons d before =>
        subst hlabel
        have hview := hc' (by simp)
        exact ⟨hs.find?_label hc hkept hview, Arrangement.mem_labelled_look hview⟩
    rcases hnode with ⟨rfl, hto⟩ | ⟨rfl, hto⟩
    · refine follows_continue (htarget _ rfl fun hne => hname (by simp) fun h => hne ?_) hto
      simpa using h
    · refine follows_break (htarget _ rfl fun hne => hname (fun h => hne ?_) (by simp)) hto
      simpa using h

theorem followsTo_stop (hview : (l.view scope target).1 = .stop)
    (hkept : l.KeepsEdge (scope, target)) :
    (l.paths M).FollowsTo scope.enclosing named [] target scope.stops.head? := by
  have hhead : scope.stops.head? = some target := hkept.stop hview
  rw [hhead]
  exact .inl ⟨mem_blocks_of_view scope (by simp [hview]), follows_nil⟩

section

variable (h : P.FollowsTo enclosing named arm target (if leaves then none else resume))

include h

theorem followsTo_arm : P.FollowsTo enclosing named arm target resume := by
  cases leaves with
  | true => exact h.of_none
  | false => exact h

theorem followsTo_arm_nil : P.FollowsTo enclosing named (arm ++ []) target resume := by
  rw [List.append_nil]
  exact followsTo_arm h

end

/-! ## Blocks and conditionals -/

/-- Some nodes from `b` on, and what stands behind them for the block where the path goes on. -/
def Continues (l : Layout) (M : BlockMachine ε σ) (scope : Scope) (b : BlockId)
    (nodes : List ControlNode) (next : Option BlockId) (s : Arrangement) : Prop :=
  ∀ named rest, (∀ x ∈ s.labelled, x ∈ named) →
    (∀ n, next = some n →
      (l.paths M).FollowsTo scope.enclosing named rest n scope.stops.head?) →
    (next = none → rest = []) →
    (l.paths M).Follows scope.enclosing named (nodes ++ rest) b scope.stops.head?

theorem TakesExits.exitAfter_eq_head? (h : l.TakesExits M) {n : BlockId} (hb : l.IsReachable b)
    (hsingle : ∀ taken fall, ¬ l.ChoosesBetween b taken fall)
    (hn : (l.graph.successors b).head? = some n) (s : σ) : l.graph.exitAfter M b s = some n := by
  cases hexit : l.graph.exitAfter M b s with
  | none =>
    rw [h b hb s hexit] at hn
    cases hn
  | some t =>
    have ht : t ∈ l.graph.successors b := exitAfter_mem_successors hexit
    rw [Graph.exitAfter] at hexit
    rw [Graph.successors, Block.successors] at ht hn
    cases hfall : (l.graph.block b).fallThrough with
    | none => cases hbranch : (l.graph.block b).branch <;> simp_all
    | some fall =>
      cases hbranch : (l.graph.block b).branch with
      | none => simp_all
      | some taken =>
        have hone := hsingle taken fall
        simp only [ChoosesBetween, hfall, hbranch] at hone
        grind

theorem continues_block (hM : EndsAtExits l.graph M) (htakes : l.TakesExits M)
    (hb : l.IsReachable b) (hsingle : ∀ taken fall, ¬ l.ChoosesBetween b taken fall) :
    l.Continues M scope b [.block b] (l.graph.successors b).head? s := by
  intro named rest _ hrest _
  cases hnext : (l.graph.successors b).head? with
  | some n => exact follows_block_exit (htakes.exitAfter_eq_head? hb hsingle hnext) (hrest n hnext)
  | none =>
    refine follows_block fun s s' hrun => ?_
    exact absurd (List.head?_eq_none_iff.1 hnext) (hM b s s' hrun)

/-- Both arms go on where they meet, or else where the construct around them does. -/
theorem continues_meets (hl : l.Rooted) (hexits : l.ChoosesBetween b taken fall)
    (hjoin : ∀ j, join = some j → l.IsReachable j)
    (htaken : (l.paths M).FollowsTo scope.enclosing s.labelled takenArm taken
      (if takenLeaves then none else (join.toList ++ scope.stops).head?))
    (hfall : (l.paths M).FollowsTo scope.enclosing s.labelled fallArm fall
      (if fallLeaves then none else (join.toList ++ scope.stops).head?))
    (hnode : node = .cond (.branch b false) fallArm takenArm join ∨
      node = .cond (.branch b true) takenArm fallArm join) :
    l.Continues M scope b [.block b, node] join s := by
  intro named rest hsub hrest hnone
  have hmeets : ∀ {arm : List ControlNode} {target : BlockId} {leaves : Bool},
      (l.paths M).FollowsTo scope.enclosing s.labelled arm target
        (if leaves then none else (join.toList ++ scope.stops).head?) →
      (l.paths M).FollowsTo scope.enclosing named (arm ++ rest) target scope.stops.head? := by
    intro arm target leaves harm
    replace harm := harm.mono hsub
    cases leaves with
    | true => exact harm.append (by simp)
    | false =>
      cases join with
      | none =>
        rw [hnone rfl, List.append_nil]
        exact harm
      | some j =>
        refine harm.append fun b hb => ?_
        cases hb
        exact (hrest j rfl).follows (mem_blocks_of_isReachable hl (hjoin j rfl))
  obtain ⟨hbranch, hbelow, -, hcond⟩ := hexits
  rcases hnode with rfl | rfl
  · exact follows_block_cond hcond hbranch hbelow (hmeets hfall) (hmeets htaken)
  · exact follows_block_cond hcond hbranch hbelow (hmeets htaken) (hmeets hfall)

/-- The nodes of one edge stand in the arm of a conditional. The other edge goes on behind it, or
where the construct around it does. -/
theorem continues_arm (sense : Bool) (hexits : l.ChoosesBetween b taken fall)
    (harm : (l.paths M).FollowsTo scope.enclosing s.labelled arm (if sense then taken else fall)
      (if leaves then none else scope.stops.head?)) (haway : next = none ∨ leaves = true)
    (hkept : l.KeepsEdge (scope, if sense then fall else taken))
    (hother : (l.view scope (if sense then fall else taken)).1 = .stop ∧ next = none ∨
      (l.view scope (if sense then fall else taken)).1 = .onward ∧
        next = some (if sense then fall else taken)) :
    l.Continues M scope b [.block b, .cond (.branch b sense) arm [] join] next s := by
  intro named rest hsub hrest hnone
  refine follows_block_cond hexits.2.2.2 hexits.1 hexits.2.1 ?_ ?_
  · rcases haway with hnext | rfl
    · rw [hnone hnext]
      exact followsTo_arm_nil (harm.mono hsub)
    · exact (harm.mono hsub).append (by simp)
  · rcases hother with ⟨hview, hnext⟩ | ⟨-, hnext⟩
    · rw [hnone hnext]
      exact followsTo_stop hview hkept
    · exact hrest _ hnext

theorem continues_parts (hexits : l.ChoosesBetween b taken fall)
    (htaken : (l.paths M).FollowsTo scope.enclosing s.labelled takenArm taken
      (if takenLeaves then none else scope.stops.head?))
    (hfall : (l.paths M).FollowsTo scope.enclosing s.labelled fallArm fall
      (if fallLeaves then none else scope.stops.head?)) :
    l.Continues M scope b [.block b, .cond (.branch b true) takenArm fallArm none] none s := by
  intro named rest hsub _ hnone
  rw [hnone rfl]
  exact follows_block_cond hexits.2.2.2 hexits.1 hexits.2.1 (followsTo_arm_nil (htaken.mono hsub))
    (followsTo_arm_nil (hfall.mono hsub))

theorem hasExits_of_successors {u : BlockId} (hcond : (l.graph.block b).isConditional = true)
    (hne : t ≠ u) (ht : t ∈ l.graph.successors b) (hu : u ∈ l.graph.successors b) :
    (l.paths M).HasExits b t u := by
  refine ⟨hcond, hne, ?_⟩
  show ((l.graph.block b).branch = some t ∧ (l.graph.block b).fallThrough = some u) ∨
    ((l.graph.block b).branch = some u ∧ (l.graph.block b).fallThrough = some t)
  rw [Graph.successors, Block.successors] at ht hu
  -- Two different successors are the two exits.
  cases hbelow : (l.graph.block b).fallThrough with
  | none =>
    cases hbranch : (l.graph.block b).branch with
    | none => simp [hbelow, hbranch] at ht
    | some taken =>
      simp only [hbelow, hbranch, List.mem_singleton] at ht hu
      exact absurd (ht.trans hu.symm) hne
  | some fall =>
    cases hbranch : (l.graph.block b).branch with
    | none =>
      simp only [hbelow, hbranch, List.mem_singleton] at ht hu
      exact absurd (ht.trans hu.symm) hne
    | some taken => grind

theorem labelFor_eq (l : Layout) (loop : NaturalLoop) (s : Arrangement) :
    l.labelFor loop s = labelOf s.labelled (l.scopeOf loop) := by
  by_cases h : loop.header ∈ s.labelled <;> simp [labelFor, labelOf, scopeOf, h]

theorem isReachable_follow (hl : l.Rooted) (h : (l.scopeOf loop).follow = some t) :
    l.IsReachable t :=
  hl.order t (followOf?_eq_some h).1

theorem continues_loop (hl : l.Rooted)
    (h : (l.paths M).Follows scope.enclosing s.labelled nodes b (l.scopeOf loop).follow) :
    l.Continues M scope b nodes (l.scopeOf loop).follow s := by
  intro named rest hsub hrest _
  exact (h.mono hsub).append fun n hn =>
    (hrest n hn).follows (mem_blocks_of_isReachable hl (isReachable_follow hl hn))

theorem hasExits_of_postTest (hl : l.Rooted) (hmem : loop ∈ l.loops.loops)
    (hform : l.formOf loop = .postTest latch) :
    ∃ f, (l.scopeOf loop).follow = some f ∧ (l.paths M).HasExits latch loop.header f := by
  obtain ⟨f, hf, hexits, -, hcond, hsucc⟩ := loopForm_eq_postTest hform
  have hout : f ∉ loop.body := (mem_exitEdges.1 (hexits ▸ List.mem_singleton_self _)).2.2
  have hne : loop.header ≠ f := fun heq => hout (heq ▸ (hl.loops loop hmem).1)
  exact ⟨f, hf, hasExits_of_successors hcond hne ((hsucc _).2 (.inl rfl)) ((hsucc _).2 (.inr rfl))⟩

theorem hasExits_of_preTest {entry : BlockId} (hform : l.formOf loop = .preTest entry) :
    ∃ f, (l.scopeOf loop).follow = some f ∧ (l.paths M).HasExits loop.header entry f := by
  obtain ⟨f, hf, hexits, hcond, -, -, hsucc, hin⟩ := loopForm_eq_preTest hform
  have hout : f ∈ l.graph.successors loop.header ∧ f ∉ loop.body :=
    (mem_exitEdges.1 (hexits ▸ List.mem_singleton_self _)).2
  exact ⟨f, hf, hasExits_of_successors hcond (fun heq => hout.2 (heq ▸ hin)) hsucc hout.1⟩

theorem continues_postTest (hl : l.Rooted) (hmem : loop ∈ l.loops.loops)
    (hform : l.formOf loop = .postTest latch) (hheader : l.IsReachable loop.header)
    (h : (l.paths M).Follows (l.scopeOf loop :: scope.enclosing) s.labelled nodes loop.header
      (some latch)) :
    l.Continues M scope loop.header
      [.loop .postTest loop.header
        (some (.branch latch ((l.graph.block latch).branch == some loop.header)))
        (nodes ++ [.block latch]) (l.labelFor loop s) (l.scopeOf loop).follow]
      (l.scopeOf loop).follow s := by
  obtain ⟨f, hf, hexits⟩ := hasExits_of_postTest hl hmem hform
  rw [labelFor_eq]
  exact continues_loop hl (follows_postTest h hexits hf (mem_blocks_of_isReachable hl hheader)
    (mem_blocks_of_isReachable hl (isReachable_follow hl hf)))

theorem ScopeOk.inside (h : l.ScopeOk scope) (hnew : ∀ c ∈ scope.enclosing, c.header ≠ loop.header)
    (stops : List BlockId) : l.ScopeOk (l.inside scope loop stops) where
  label_eq := by
    intro c hc
    rcases List.mem_cons.1 hc with rfl | hc
    · rfl
    · exact h.label_eq c hc
  nodup := by
    refine List.nodup_cons.2 ⟨fun hmem => ?_, h.nodup⟩
    obtain ⟨c, hc, heq⟩ := List.mem_map.1 hmem
    exact hnew c hc heq

def Task.Followed (l : Layout) (M : BlockMachine ε σ) (nodes : List ControlNode)
    (next : Option BlockId) (s : Arrangement) : Task → Prop
  | .path scope start =>
    (l.paths M).Follows scope.enclosing s.labelled nodes start scope.stops.head?
  | .arm scope target =>
    (l.paths M).FollowsTo scope.enclosing s.labelled nodes target
      (if (l.view scope target).1.leaves then none else scope.stops.head?)
  | .first scope start => l.Continues M scope start nodes next s
  | .branch scope b taken fall =>
    l.ChoosesBetween b taken fall → l.Continues M scope b (.block b :: nodes) next s

theorem Arranged.followed (hl : l.Rooted) (hM : EndsAtExits l.graph M) (htakes : l.TakesExits M)
    {task : Task} (h : l.Arranged task s nodes next s') (hreached : task.Reached l)
    (hscope : l.ScopeOk task.position) (hkept : l.KeepsEdges s') :
    task.Followed l M nodes next s' := by
  induction h with
  | ends _ ih =>
    have hends := ih hreached hscope hkept _ [] (fun _ h => h) (by simp) fun _ => rfl
    rwa [List.append_nil] at hends
  | goesOn front back ih1 ih2 =>
    have hnext := (front.shaped hl hreached).2 _ rfl
    refine ih1 hreached hscope (hkept.of_grows back.grows) _ _ back.grows.labelled (fun n hn => ?_)
      (by simp)
    cases hn
    exact followsTo_arm (ih2 hnext hscope hkept)
  | onward view _ ih | exit view _ ih =>
    have hreach := IsEnd.isReachable_of_view hreached view nofun
    simp only [Task.Followed, view]
    exact .inl ⟨mem_blocks_of_isReachable hl hreach,
      ih hreach ⟨hscope.label_eq, hscope.nodup⟩ hkept⟩
  | stop view =>
    simp only [Task.Followed, view]
    exact followsTo_stop view (hkept.of_look (.refl _))
  | jump view =>
    simp only [Task.Followed, view]
    exact followsTo_jump hscope view (hkept.of_look (.refl _))
  | plain _ _ single => exact continues_block hM htakes hreached single
  | chooses _ _ exits _ ih =>
    obtain ⟨htaken, hfall⟩ := mem_successors_of_exits exits.1 exits.2.1
    exact ih ⟨hreached, .inr ⟨_, hreached, htaken⟩, .inr ⟨_, hreached, hfall⟩⟩ hscope hkept exits
  | infinite _ new _ _ ih =>
    rw [labelFor_eq]
    exact continues_loop hl (follows_infinite (ih hreached (hscope.inside new []) hkept))
  | preTest _ new form _ _ ih =>
    obtain ⟨-, -, -, -, -, -, hsucc, -⟩ := loopForm_eq_preTest form
    obtain ⟨f, hf, hexits⟩ := hasExits_of_preTest (M := M) form
    rw [labelFor_eq]
    have hbody := ih (.inr ⟨_, hreached, hsucc⟩) (hscope.inside new []) hkept
    exact continues_loop hl (follows_preTest (followsTo_arm hbody) hexits hf
      (mem_blocks_of_isReachable hl (isReachable_follow hl hf)))
  | postTest mem new form _ path _ ih =>
    exact continues_postTest hl mem form hreached (ih hreached (hscope.inside new _) hkept)
  | selfLoop mem _ form => exact continues_postTest hl mem form hreached follows_nil
  | @meets scope b taken fall s join takenArm s1 fallArm s' node takenView fallView join_eq
      _ fallRun node_eq ih1 ih2 =>
    intro exits
    obtain ⟨-, htaken, hfall⟩ := hreached
    have hreach : ∀ j, join = some j → l.IsReachable j := fun j hj =>
      meetingPoint?_reachable hl (htaken.isReachable_of_view takenView nofun)
        (hfall.isReachable_of_view fallView nofun) (join_eq.trans hj)
    have hinner := hscope.with_stops (join.toList ++ scope.stops)
    have hkept' : l.KeepsEdges s' := hkept
    have htakenArm :=
      (ih1 htaken hinner (hkept'.of_grows fallRun.grows)).mono fallRun.grows.labelled
    exact continues_meets hl exits hreach htakenArm (ih2 hfall hinner hkept') node_eq
  | resumes takenView fallView =>
    intro exits
    -- The two edges cannot both lead to where the innermost construct goes on.
    have htaken := (hkept.of_look (Arrangement.grows_look ..)).stop takenView
    have hfall := (hkept.of_look (.refl _)).stop fallView
    exact absurd (Option.some.inj (htaken.symm.trans hfall)) exits.2.2.1
  | onTaken other away run ih =>
    intro exits
    exact continues_arm true exits (ih hreached.2.1 hscope hkept) away
      (hkept.of_look run.grows) other
  | onFall other away run ih =>
    intro exits
    exact continues_arm false exits (ih hreached.2.2 hscope hkept) away
      (hkept.of_look ((Arrangement.grows_look ..).trans run.grows)) other
  | parts _ fallRun ih1 ih2 =>
    intro exits
    have htakenArm :=
      (ih1 hreached.2.1 hscope (hkept.of_grows fallRun.grows)).mono fallRun.grows.labelled
    exact continues_parts exits htakenArm (ih2 hreached.2.2 hscope hkept)

/-- A rule that arranges blocks so that its nodes follow the exits. -/
def Faithful (l : Layout) (M : BlockMachine ε σ) (sequence : Sequencer) : Prop :=
  ∀ scope start s nodes s', Yields (sequence scope start) s nodes s' → s.Grows s' ∧
    (l.IsReachable start → l.ScopeOk scope → l.KeepsEdges s' →
      (l.paths M).Follows scope.enclosing s'.labelled nodes start scope.stops.head?)

theorem faithful_sequence (hl : l.Rooted) (hM : EndsAtExits l.graph M)
    (htakes : l.TakesExits M) (fuel : Nat) : l.Faithful M (l.sequence fuel) := by
  intro scope start s nodes s' h
  have harranged := l.derives_sequence fuel _ _ _ _ _ h
  exact ⟨harranged.grows, harranged.followed hl hM htakes⟩

end Layout

end Lift6502
