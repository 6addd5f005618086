import Lift6502.Proofs.Tree.Derivation

/-!
# The nodes of an arranged tree

An arranged tree is made of blocks that the entry reaches. Each loop in it starts every pass with a
block.
-/

namespace Lift6502

namespace ControlNode

theorem listDescendants_append (l k : List ControlNode) :
    listDescendants (l ++ k) = listDescendants l ++ listDescendants k := by
  induction l with
  | nil => rfl
  | cons n rest ih => rw [List.cons_append, listDescendants, listDescendants, ih, List.append_assoc]

def startsWithBlock : List ControlNode → Bool
  | .block _ :: _ => true
  | _ => false

end ControlNode

namespace Layout

open ControlNode

variable {l : Layout} {scope : Scope} {s s' : Arrangement} {body : List ControlNode}
  {target : BlockId} {nodes : List ControlNode} {n : ControlNode}

def HasShape (l : Layout) : ControlNode → Prop
  | .block b => l.IsReachable b
  | .cond c _ _ _ => ∃ b sense, c = .branch b sense ∧ l.IsReachable b
  | .loop .infinite header c body _ _ =>
    l.IsReachable header ∧ c = none ∧ startsWithBlock body = true
  | .loop .preTest header c _ _ _ => l.IsReachable header ∧ ∃ sense, c = some (.branch header sense)
  | .loop .postTest header c body _ _ =>
    l.IsReachable header ∧ startsWithBlock body = true ∧
      ∃ latch sense before, c = some (.branch latch sense) ∧ l.IsReachable latch ∧
        body = before ++ [.block latch]
  | .goto t => t ∉ l.routine.blocks ∧ ∃ b, l.IsReachable b ∧ t ∈ l.graph.successors b
  | .breakLoop _ | .continueLoop _ => True

def AllShaped (l : Layout) (nodes : List ControlNode) : Prop :=
  ∀ n ∈ listDescendants nodes, l.HasShape n

theorem allShaped_nil : l.AllShaped [] := by simp [AllShaped, listDescendants]

theorem AllShaped.append {nodes rest : List ControlNode} (h1 : l.AllShaped nodes)
    (h2 : l.AllShaped rest) : l.AllShaped (nodes ++ rest) := by
  intro n hn
  rw [listDescendants_append] at hn
  rcases List.mem_append.1 hn with hn | hn
  · exact h1 n hn
  · exact h2 n hn

theorem AllShaped.cons {rest : List ControlNode} (h1 : l.AllShaped [n])
    (h2 : l.AllShaped rest) : l.AllShaped (n :: rest) :=
  h1.append h2

theorem AllShaped.dropLast (h : l.AllShaped nodes) : l.AllShaped nodes.dropLast := by
  intro n hn
  rcases List.eq_nil_or_concat nodes with rfl | ⟨front, last, rfl⟩
  · simp [listDescendants] at hn
  · rw [List.concat_eq_append, List.dropLast_concat] at hn
    rw [List.concat_eq_append] at h
    apply h n
    rw [listDescendants_append]
    exact List.mem_append_left _ hn

theorem allShaped_leaf (hleaf : n.descendants = [n]) (h : l.HasShape n) : l.AllShaped [n] := by
  intro m hm
  have hm' : m = n := by simpa [listDescendants, hleaf] using hm
  exact hm' ▸ h

theorem allShaped_block {b : BlockId} (h : l.IsReachable b) : l.AllShaped [.block b] :=
  allShaped_leaf rfl h

theorem allShaped_cond {c : Condition} {t e : List ControlNode} {join : Option BlockId}
    (h : l.HasShape (.cond c t e join)) (ht : l.AllShaped t) (he : l.AllShaped e) :
    l.AllShaped [.cond c t e join] := by
  intro n hn
  simp only [listDescendants, descendants, List.append_nil, List.mem_cons, List.mem_append] at hn
  rcases hn with rfl | hn | hn
  · exact h
  · exact ht n hn
  · exact he n hn

theorem allShaped_loop {kind : LoopKind} {header : BlockId} {c : Option Condition}
    {label : Option String} {follow : Option BlockId}
    (h : l.HasShape (.loop kind header c body label follow)) (hbody : l.AllShaped body) :
    l.AllShaped [.loop kind header c body label follow] := by
  intro n hn
  simp only [listDescendants, descendants, List.append_nil, List.mem_cons] at hn
  rcases hn with rfl | hn
  · exact h
  · exact hbody n hn

def IsEnd (l : Layout) (target : BlockId) : Prop :=
  l.IsReachable target ∨ ∃ b, l.IsReachable b ∧ target ∈ l.graph.successors b

theorem IsEnd.isReachable (h : l.IsEnd target) (hin : target ∈ l.routine.blocks) :
    l.IsReachable target := by
  rcases h with h | ⟨b, hb, hedge⟩
  · exact h
  · exact isReachable_of_successor hb hedge hin

theorem IsEnd.isReachable_of_view {v : EdgeView} (h : l.IsEnd target)
    (hview : (l.view scope target).1 = v) (hv : ∀ node, v ≠ .jump node) : l.IsReachable target :=
  h.isReachable (mem_blocks_of_view scope (hview ▸ hv))

def Task.Reached (l : Layout) : Task → Prop
  | .path _ start | .first _ start => l.IsReachable start
  | .arm _ target => l.IsEnd target
  | .branch _ b taken fall => l.IsReachable b ∧ l.IsEnd taken ∧ l.IsEnd fall

/-- A rule that arranges blocks into nodes that have their shape. At a header of an enclosing loop
they begin with the header. -/
def Shapes (l : Layout) (sequence : Sequencer) : Prop :=
  ∀ scope start s nodes s', Yields (sequence scope start) s nodes s' → l.IsReachable start →
    l.AllShaped nodes ∧
      (scope.enclosing.any (fun c => c.header == start) = true → startsWithBlock nodes = true)

theorem allShaped_jump (hl : l.Rooted) {node : ControlNode}
    (hview : (l.view scope target).1 = .jump node) (htarget : l.IsEnd target) :
    l.AllShaped [node] := by
  rcases jump_of_view hview with ⟨hout, rfl⟩ | ⟨-, header, hjump, -⟩
  · refine allShaped_leaf rfl ⟨hout, ?_⟩
    rcases htarget with hreach | hedge
    · exact absurd (mem_blocks_of_isReachable hl hreach) hout
    · exact hedge
  · obtain ⟨_, _, _, -, -, ⟨rfl, -⟩ | ⟨rfl, -⟩⟩ := jumpTo?_eq_some hjump
    · exact allShaped_leaf rfl trivial
    · exact allShaped_leaf rfl trivial

theorem allShaped_withoutFinalContinue (h : l.AllShaped body) :
    l.AllShaped (withoutFinalContinue body) := by
  unfold withoutFinalContinue
  split
  · exact h.dropLast
  · exact h

theorem startsWithBlock_append (rest : List ControlNode)
    (h : startsWithBlock nodes = true) : startsWithBlock (nodes ++ rest) = true := by
  match nodes, h with
  | .block _ :: _, _ => rfl

theorem startsWithBlock_withoutFinalContinue (h : startsWithBlock body = true) :
    startsWithBlock (withoutFinalContinue body) = true := by
  match body, h with
  | [.block b], _ => rfl
  | .block b :: n :: rest, _ =>
    unfold withoutFinalContinue
    split <;> rfl

variable {task : Task} {nodes : List ControlNode} {next : Option BlockId}

namespace Arranged

/-- A path that starts at the header of a loop around it starts with the header: the loop is not
begun again. -/
theorem starts_of_around {start : BlockId} (h : l.Arranged (.path scope start) s nodes next s')
    (haround : ∃ c ∈ scope.enclosing, c.header = start) : startsWithBlock nodes = true := by
  obtain ⟨c, hc, hheader⟩ := haround
  have hfirst : ∀ {s nodes next s'}, l.Arranged (.first scope start) s nodes next s' →
      startsWithBlock nodes = true := by
    intro s nodes next s' h
    cases h with
    | plain | chooses => rfl
    | infinite _ new | preTest _ new | postTest _ new | selfLoop _ new =>
      exact absurd hheader (new c hc)
  cases h with
  | ends front => exact hfirst front
  | goesOn front => exact startsWithBlock_append _ (hfirst front)

theorem shaped (hl : l.Rooted) (h : l.Arranged task s nodes next s') (hreached : task.Reached l) :
    l.AllShaped nodes ∧ ∀ n, next = some n → l.IsEnd n := by
  have hfollow : ∀ {loop : NaturalLoop} n, (l.scopeOf loop).follow = some n → l.IsEnd n :=
    fun n hn => .inl (hl.order n (followOf?_eq_some hn).1)
  induction h with
  | ends _ ih => exact ih hreached
  | goesOn _ _ ih1 ih2 =>
    obtain ⟨hfront, hnext⟩ := ih1 hreached
    exact ⟨hfront.append (ih2 (hnext _ rfl)).1, by simp⟩
  | onward view _ ih | exit view _ ih =>
    exact ih (IsEnd.isReachable_of_view hreached view nofun)
  | stop => exact ⟨allShaped_nil, by simp⟩
  | jump view => exact ⟨allShaped_jump hl view hreached, by simp⟩
  | plain =>
    exact ⟨allShaped_block hreached, fun n hn => .inr ⟨_, hreached, List.mem_of_mem_head? hn⟩⟩
  | chooses _ _ exits _ ih =>
    obtain ⟨htaken, hfall⟩ := mem_successors_of_exits exits.1 exits.2.1
    obtain ⟨hnodes, hnext⟩ := ih ⟨hreached, .inr ⟨_, hreached, htaken⟩, .inr ⟨_, hreached, hfall⟩⟩
    exact ⟨(allShaped_block hreached).cons hnodes, hnext⟩
  | infinite _ _ _ path ih =>
    have hstarts := path.starts_of_around ⟨_, List.mem_cons_self, rfl⟩
    exact ⟨allShaped_loop ⟨hreached, rfl, startsWithBlock_withoutFinalContinue hstarts⟩
      (allShaped_withoutFinalContinue (ih hreached).1), hfollow⟩
  | preTest _ _ form _ _ ih =>
    obtain ⟨-, -, -, -, -, -, hsucc, -⟩ := loopForm_eq_preTest form
    exact ⟨allShaped_loop ⟨hreached, _, rfl⟩
      (allShaped_withoutFinalContinue (ih (.inr ⟨_, hreached, hsucc⟩)).1), hfollow⟩
  | postTest mem _ form _ path _ ih =>
    have hlatch := isReachable_latch hl mem form
    have hstarts := path.starts_of_around ⟨_, List.mem_cons_self, rfl⟩
    exact ⟨allShaped_loop ⟨hreached, startsWithBlock_append _ hstarts, _, _, _, rfl, hlatch, rfl⟩
      ((ih hreached).1.append (allShaped_block hlatch)), hfollow⟩
  | selfLoop =>
    exact ⟨allShaped_loop ⟨hreached, rfl, _, _, [], rfl, hreached, rfl⟩ (allShaped_block hreached),
      hfollow⟩
  | meets takenView fallView join_eq _ _ node_eq ih1 ih2 =>
    obtain ⟨hb, htaken, hfall⟩ := hreached
    have ht := (ih1 htaken).1
    have hf := (ih2 hfall).1
    constructor
    · rcases node_eq with rfl | rfl
      · exact allShaped_cond ⟨_, _, rfl, hb⟩ hf ht
      · exact allShaped_cond ⟨_, _, rfl, hb⟩ ht hf
    · intro n hn
      exact .inl (meetingPoint?_reachable hl
        (htaken.isReachable_of_view takenView nofun) (hfall.isReachable_of_view fallView nofun)
        (join_eq.trans hn))
  | resumes => exact ⟨allShaped_nil, by simp⟩
  | onTaken other _ _ ih =>
    refine ⟨allShaped_cond ⟨_, _, rfl, hreached.1⟩ (ih hreached.2.1).1 allShaped_nil,
      fun n hn => ?_⟩
    rcases other with ⟨-, rfl⟩ | ⟨-, rfl⟩ <;> cases hn
    exact hreached.2.2
  | onFall other _ _ ih =>
    refine ⟨allShaped_cond ⟨_, _, rfl, hreached.1⟩ (ih hreached.2.2).1 allShaped_nil,
      fun n hn => ?_⟩
    rcases other with ⟨-, rfl⟩ | ⟨-, rfl⟩ <;> cases hn
    exact hreached.2.1
  | parts _ _ ih1 ih2 =>
    exact ⟨allShaped_cond ⟨_, _, rfl, hreached.1⟩ (ih1 hreached.2.1).1
      (ih2 hreached.2.2).1, by simp⟩

end Arranged

theorem shapes_sequence (hl : l.Rooted) (fuel : Nat) : l.Shapes (l.sequence fuel) := by
  intro scope start s nodes s' h hstart
  have harranged := l.derives_sequence fuel _ _ _ _ _ h
  refine ⟨(harranged.shaped hl hstart).1, fun hany => harranged.starts_of_around ?_⟩
  simpa using hany

end Layout

end Lift6502
