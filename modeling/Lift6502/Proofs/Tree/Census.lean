import Lift6502.Proofs.Tree.Dispatch
import Lift6502.Proofs.Tree.Laws

/-!
# Every block stands in the tree once

An arranged tree and a dispatch loop list the same blocks: those that the entry reaches inside the
routine, each of them once.
-/

namespace Lift6502

open ControlNode

/-- The block that a node runs itself, apart from the nodes inside it. -/
def ControlNode.standingBlock? : ControlNode → Option BlockId
  | .block b => some b
  | .loop .preTest header _ _ _ _ => some header
  | _ => none

def ControlNode.loopHeader? : ControlNode → Option BlockId
  | .loop _ header _ _ _ _ => some header
  | _ => none

def ControlNode.listed (own : ControlNode → Option BlockId) (nodes : List ControlNode) :
    List BlockId :=
  (listDescendants nodes).filterMap own

def ControlTree.standing (t : ControlTree) : List BlockId := listed standingBlock? t.nodes

def ControlTree.loopHeaders (t : ControlTree) : List BlockId := listed loopHeader? t.nodes

namespace ControlNode

variable {own : ControlNode → Option BlockId} {nodes rest t e body : List ControlNode}

@[simp] theorem listed_nil : listed own [] = [] := rfl

theorem listed_append : listed own (nodes ++ rest) = listed own nodes ++ listed own rest := by
  rw [listed, listDescendants_append, List.filterMap_append, listed, listed]

theorem listed_cons (n : ControlNode) :
    listed own (n :: rest) = n.descendants.filterMap own ++ listed own rest := by
  rw [listed, listDescendants, List.filterMap_append, listed]

theorem listed_cond {c : Condition} {join : Option BlockId} (h : own (.cond c t e join) = none) :
    listed own [.cond c t e join] = listed own (t ++ e) := by
  rw [listed_cons, descendants, List.filterMap_cons_none h, listed_nil, List.append_nil,
    ← listDescendants_append, listed]

theorem listed_loop (kind : LoopKind) (header : BlockId) (c : Option Condition)
    (label : Option String) (follow : Option BlockId) :
    listed own [.loop kind header c body label follow] =
      (own (.loop kind header c body label follow)).toList ++ listed own body := by
  rw [listed_cons, descendants, listed_nil, List.append_nil, listed]
  cases h : own (.loop kind header c body label follow) with
  | none => simp [List.filterMap_cons_none h]
  | some b => simp [List.filterMap_cons_some h]

theorem listed_withoutFinalContinue (h : own (.continueLoop none) = none) :
    listed own (Layout.withoutFinalContinue nodes) = listed own nodes := by
  unfold Layout.withoutFinalContinue
  split
  · next hlast =>
    obtain ⟨front, rfl⟩ := List.getLast?_eq_some_iff.1 hlast
    rw [List.dropLast_concat, listed_append, listed_cons, descendants]
    · simp [h]
    all_goals
      intros
      contradiction
  · rfl

end ControlNode

/-- The list has exactly the blocks with a property, each of them once. -/
structure Enumerates (bs : List BlockId) (P : BlockId → Prop) : Prop where
  nodup : bs.Nodup
  mem_iff : ∀ b, b ∈ bs ↔ P b

namespace Enumerates

variable {bs cs : List BlockId} {P Q : BlockId → Prop} {b : BlockId}

theorem congr (h : Enumerates bs P) (hPQ : ∀ b, P b ↔ Q b) : Enumerates bs Q :=
  ⟨h.nodup, fun b => (h.mem_iff b).trans (hPQ b)⟩

theorem nil (h : ∀ b, ¬ P b) : Enumerates [] P :=
  ⟨List.nodup_nil, fun b => iff_of_false List.not_mem_nil (h b)⟩

theorem single (h : ∀ c, P c ↔ c = b) : Enumerates [b] P :=
  ⟨List.nodup_singleton b, fun c => List.mem_singleton.trans (h c).symm⟩

theorem append (h : Enumerates bs P) (h' : Enumerates cs Q) (hdisjoint : ∀ b, P b → ¬ Q b) :
    Enumerates (bs ++ cs) fun b => P b ∨ Q b := by
  refine ⟨List.nodup_append.2 ⟨h.nodup, h'.nodup, fun b hb c hc heq => ?_⟩, fun b => ?_⟩
  · subst heq
    exact hdisjoint b ((h.mem_iff b).1 hb) ((h'.mem_iff b).1 hc)
  · rw [List.mem_append, h.mem_iff, h'.mem_iff]

theorem perm (h : Enumerates bs P) (hperm : bs.Perm cs) : Enumerates cs P :=
  ⟨hperm.nodup_iff.1 h.nodup, fun b => hperm.mem_iff.symm.trans (h.mem_iff b)⟩

end Enumerates

namespace Layout

variable {l : Layout} {scope : Scope} {around : List LoopScope} {s s1 s' : Arrangement}
  {nodes rest : List ControlNode} {b t : BlockId} {loop : NaturalLoop}

/-! ## What a run of the arrangement lists -/

def Placed (s s' : Arrangement) (b : BlockId) : Prop := b ∈ s'.placed ∧ b ∉ s.placed

/-- A loop starts with the block, and it is not around the position. -/
def Opens (l : Layout) (around : List LoopScope) (b : BlockId) : Prop :=
  l.loops.get? b ≠ none ∧ ∀ c ∈ around, c.header ≠ b

/-- The nodes list what was placed between two points, and the loops that start there. -/
structure Files (l : Layout) (around : List LoopScope) (s s' : Arrangement)
    (nodes : List ControlNode) : Prop where
  blocks : Enumerates (listed standingBlock? nodes) (Placed s s')
  headers : Enumerates (listed loopHeader? nodes) fun b => Placed s s' b ∧ l.Opens around b

theorem placed_iff_of_grows (h : s.Grows s1) (h' : s1.Grows s') :
    Placed s s' b ↔ Placed s s1 b ∨ Placed s1 s' b := by
  have hfirst := h.placed b
  have hlast := h'.placed b
  unfold Placed
  tauto

theorem placed_put (hb : b ∉ s.placed) : Placed s (s.put b) t ↔ t = b := by
  rw [Placed, Arrangement.mem_placed_put]
  constructor
  · rintro ⟨rfl | hold, hnew⟩
    · rfl
    · exact absurd hold hnew
  · rintro rfl
    exact ⟨.inl rfl, hb⟩

namespace Files

theorem nil (h : s'.placed = s.placed) : l.Files around s s' [] := by
  have hnone : ∀ b, ¬ Placed s s' b := fun b hb => hb.2 (h ▸ hb.1)
  exact ⟨.nil hnone, .nil fun b hb => hnone b hb.1⟩

theorem of_placed_eq {s2 s2' : Arrangement} (h : l.Files around s s' nodes)
    (hs : s2.placed = s.placed) (hs' : s2'.placed = s'.placed) : l.Files around s2 s2' nodes := by
  have hsame : ∀ b, Placed s s' b ↔ Placed s2 s2' b := fun b => by rw [Placed, Placed, hs, hs']
  exact ⟨h.blocks.congr hsame, h.headers.congr fun b => and_congr_left' (hsame b)⟩

theorem append (h : l.Files around s s1 nodes) (h' : l.Files around s1 s' rest)
    (hgrows : s.Grows s1) (hgrows' : s1.Grows s') : l.Files around s s' (nodes ++ rest) := by
  have hdisjoint : ∀ b, Placed s s1 b → ¬ Placed s1 s' b := fun b hb hb' => hb'.2 hb.1
  constructor
  · rw [listed_append]
    exact (h.blocks.append h'.blocks hdisjoint).congr fun b =>
      (placed_iff_of_grows hgrows hgrows').symm
  · rw [listed_append]
    refine (h.headers.append h'.headers fun b hb hb' => hdisjoint b hb.1 hb'.1).congr fun b => ?_
    rw [placed_iff_of_grows hgrows hgrows', or_and_right]

theorem swap (h : l.Files around s s' (nodes ++ rest)) : l.Files around s s' (rest ++ nodes) := by
  obtain ⟨hblocks, hheaders⟩ := h
  rw [listed_append] at hblocks hheaders
  exact ⟨by rw [listed_append]; exact hblocks.perm List.perm_append_comm,
    by rw [listed_append]; exact hheaders.perm List.perm_append_comm⟩

theorem cond (h : l.Files around s s' (nodes ++ rest)) (c : Condition) (join : Option BlockId) :
    l.Files around s s' [.cond c nodes rest join] :=
  ⟨by rw [listed_cond rfl]; exact h.blocks, by rw [listed_cond rfl]; exact h.headers⟩

theorem jump {node : ControlNode} (hview : (l.view scope t).1 = .jump node)
    (h : s'.placed = s.placed) : l.Files around s s' [node] := by
  have hnode : listed standingBlock? [node] = [] ∧ listed loopHeader? [node] = [] := by
    rcases jump_of_view hview with ⟨-, rfl⟩ | ⟨-, _, hjump, -⟩
    · exact ⟨rfl, rfl⟩
    · obtain ⟨_, _, _, -, -, ⟨rfl, -⟩ | ⟨rfl, -⟩⟩ := jumpTo?_eq_some hjump
      · exact ⟨rfl, rfl⟩
      · exact ⟨rfl, rfl⟩
  have hnil : l.Files around s s' [] := nil h
  exact ⟨hnode.1 ▸ hnil.blocks, hnode.2 ▸ hnil.headers⟩

theorem block (halone : l.StandsAlone scope b) (hb : b ∉ s.placed) :
    l.Files scope.enclosing s (s.put b) [.block b] := by
  refine ⟨.single fun c => placed_put hb, .nil fun c hc => ?_⟩
  obtain ⟨hplaced, hheader, hnew⟩ := hc
  rw [placed_put hb] at hplaced
  subst hplaced
  rcases halone with hnone | ⟨d, hd, heq⟩
  · exact hheader hnone
  · exact hnew d hd heq

end Files

theorem opens_header (hmem : loop ∈ l.loops.loops) (hnew : ∀ c ∈ around, c.header ≠ loop.header) :
    l.Opens around loop.header := by
  refine ⟨fun hnone => ?_, hnew⟩
  have hfound := List.find?_eq_none.1 hnone loop hmem
  simp at hfound

section

variable (hmem : loop ∈ l.loops.loops) (hnew : ∀ c ∈ scope.enclosing, c.header ≠ loop.header)
  (stops : List BlockId)

include hmem hnew

theorem opens_iff_inside :
    l.Opens scope.enclosing b ↔
      b = loop.header ∨ l.Opens (l.inside scope loop stops).enclosing b := by
  constructor
  · intro h
    by_cases heq : b = loop.header
    · exact .inl heq
    · refine .inr ⟨h.1, fun c hc => ?_⟩
      rcases List.mem_cons.1 hc with rfl | hc
      · exact Ne.symm heq
      · exact h.2 c hc
  · rintro (rfl | h)
    · exact opens_header hmem hnew
    · exact ⟨h.1, fun c hc => h.2 c (List.mem_cons_of_mem _ hc)⟩

theorem headers_loop {body : List ControlNode} (hplaced : Placed s s' loop.header)
    (hbody : Enumerates (listed loopHeader? body)
      fun b => Placed s s' b ∧ l.Opens (l.inside scope loop stops).enclosing b) (kind : LoopKind)
    (c : Option Condition) (label : Option String) (follow : Option BlockId) :
    Enumerates (listed loopHeader? [.loop kind loop.header c body label follow])
      fun b => Placed s s' b ∧ l.Opens scope.enclosing b := by
  rw [listed_loop]
  refine (Enumerates.append (.single (b := loop.header) fun _ => Iff.rfl) hbody ?_).congr
    fun b => ?_
  · rintro b rfl hb
    exact hb.2.2 _ List.mem_cons_self rfl
  · rw [opens_iff_inside hmem hnew stops]
    constructor
    · rintro (rfl | h)
      · exact ⟨hplaced, .inl rfl⟩
      · exact ⟨h.1, .inr h.2⟩
    · rintro ⟨hb, rfl | h⟩
      · exact .inl rfl
      · exact .inr ⟨hb, h⟩

end

theorem not_opens_latch (hl : l.Standard) (hmem : loop ∈ l.loops.loops)
    (hform : l.formOf loop = .postTest b) (hne : b ≠ loop.header) : ¬ l.Opens around b := by
  intro h
  obtain ⟨inner, hinner⟩ := Option.ne_none_iff_exists'.1 h.1
  obtain ⟨hmem', rfl⟩ := LoopForest.get?_eq_some hinner
  obtain ⟨f, -, hexits, -⟩ := loopForm_eq_postTest hform
  have hlatch := (mem_exitEdges.1 (hexits ▸ List.mem_singleton_self (inner.header, f))).1
  exact test_not_mem_inner hl hmem' hmem hlatch hne (.inl hform) (hl.header_mem_body hmem')

/-- Nodes list what was placed while they were arranged. The induction is on the derivation; a loop
lists its header and what is inside it. -/
theorem Arranged.files (hl : l.Standard) {task : Task} {next : Option BlockId}
    (h : l.Arranged task s nodes next s') : l.Files task.position.enclosing s s' nodes := by
  induction h with
  | ends _ ih => exact ih
  | goesOn front back ih1 ih2 => exact ih1.append ih2 front.grows back.grows
  | onward _ _ ih | exit _ _ ih => exact ih.of_placed_eq rfl rfl
  | stop => exact .nil rfl
  | jump view => exact .jump view rfl
  | plain alone fresh => exact .block alone fresh
  | @chooses scope start taken fall s nodes next s' alone fresh exits branch ih =>
    exact (Files.block alone fresh).append ih (s.grows_put start) branch.grows
  | @infinite scope loop s body s' mem new form path ih =>
    have hpath : l.Files (l.inside scope loop []).enclosing s s' body := ih.of_placed_eq rfl rfl
    refine ⟨?_, headers_loop mem new [] ?_ ?_ ..⟩
    · rw [listed_loop, listed_withoutFinalContinue rfl]
      exact hpath.blocks
    · exact (path.fresh rfl).symm
    · rw [listed_withoutFinalContinue rfl]
      exact hpath.headers
  | @preTest scope loop entry s body s' mem new form fresh arm ih =>
    have harm : l.Files (l.inside scope loop []).enclosing (s.put loop.header) s' body :=
      ih.of_placed_eq rfl rfl
    have hgrows : (s.put loop.header).Grows s' :=
      ⟨arm.grows.placed, arm.grows.labelled, arm.grows.viewed⟩
    have hplaced : ∀ b, Placed s s' b ↔ b = loop.header ∨ Placed (s.put loop.header) s' b :=
      fun b => by
      rw [placed_iff_of_grows (s.grows_put loop.header) hgrows, placed_put fresh]
    refine ⟨?_, headers_loop mem new [] ((hplaced _).2 (.inl rfl)) ?_ ..⟩
    · rw [listed_loop, listed_withoutFinalContinue rfl]
      refine (Enumerates.append (.single (b := loop.header) fun _ => Iff.rfl) harm.blocks ?_).congr
        fun b => (hplaced b).symm
      rintro b rfl hb
      exact hb.2 (by simp)
    · -- The header is placed here, but it does not open inside its own loop.
      rw [listed_withoutFinalContinue rfl]
      refine harm.headers.congr fun b => ?_
      rw [hplaced]
      refine ⟨fun hb => ⟨.inr hb.1, hb.2⟩, fun hb => ⟨hb.1.resolve_left ?_, hb.2⟩⟩
      rintro rfl
      exact hb.2.2 _ List.mem_cons_self rfl
  | @postTest scope loop latch s before s' mem new form apart path fresh ih =>
    have hpath : l.Files (l.inside scope loop [latch]).enclosing s s' before :=
      ih.of_placed_eq rfl rfl
    have hgrows : s.Grows s' := ⟨path.grows.placed, path.grows.labelled, path.grows.viewed⟩
    have hplaced : ∀ b, Placed s (s'.put latch) b ↔ Placed s s' b ∨ b = latch := fun b => by
      rw [placed_iff_of_grows hgrows (s'.grows_put latch), placed_put fresh]
    have hheader := (hplaced _).2 (.inl (path.fresh rfl).symm)
    refine ⟨?_, headers_loop mem new [latch] hheader ?_ ..⟩
    · rw [listed_loop, listed_append]
      refine (Enumerates.append hpath.blocks (.single (b := latch) fun _ => Iff.rfl) ?_).congr
        fun b => (hplaced b).symm
      rintro b hb rfl
      exact fresh hb.1
    · have hlast : listed loopHeader? [.block latch] = [] := rfl
      rw [listed_append, hlast, List.append_nil]
      refine hpath.headers.congr fun b => ?_
      rw [hplaced]
      refine ⟨fun hb => ⟨.inl hb.1, hb.2⟩, fun hb => ⟨hb.1.resolve_right ?_, hb.2⟩⟩
      rintro rfl
      exact not_opens_latch hl mem form apart hb.2
  | @selfLoop scope loop s mem new form fresh =>
    have hplaced : ∀ b, Placed s ((s.say (l.loopNote loop)).put loop.header) b ↔ b = loop.header :=
      fun b => placed_put fresh
    refine ⟨?_, headers_loop mem new [] ((hplaced _).2 rfl) ?_ ..⟩
    · exact .single hplaced
    · refine .nil fun b hb => ?_
      exact hb.2.2 _ List.mem_cons_self ((hplaced b).1 hb.1).symm
  | @meets scope b taken fall s join takenArm s1 fallArm s' node takenView fallView join_eq takenRun
      fallRun node_eq ih1 ih2 =>
    have harms : l.Files scope.enclosing s (s'.say (l.ifNote b join)) (takenArm ++ fallArm) :=
      (ih1.append ih2 takenRun.grows fallRun.grows).of_placed_eq rfl rfl
    rcases node_eq with rfl | rfl
    · exact harms.swap.cond ..
    · exact harms.cond ..
  | resumes => exact .nil rfl
  | onTaken _ _ _ ih | onFall _ _ _ ih =>
    refine Files.cond ?_ _ _
    rw [List.append_nil]
    exact ih.of_placed_eq rfl rfl
  | parts takenRun fallRun ih1 ih2 =>
    refine Files.cond ?_ _ _
    exact (ih1.append ih2 takenRun.grows fallRun.grows).of_placed_eq rfl rfl

/-! ## Whole trees -/

theorem Standard.placed_of_reachable (hl : l.Standard) (h : l.tree.1.structured = true)
    (hb : l.IsReachable b) : b ∈ l.arrangement.placed := by
  have hrun := l.derives_sequence l.depth _ _ _ _ _ (yields_of_structured h)
  have hfilled := hrun.filled hl l.begins_entry
  refine WayTo.mem_of_closed (s := fun b => b ∈ l.arrangement.placed) hb (hrun.fresh rfl).2
    fun u hu t ht _ => ?_
  obtain ⟨hedge, hin⟩ := Graph.mem_successorsIn.1 ht
  -- Nothing is around the whole tree, so an exit leads to a placed block.
  have hcovered := hfilled.fills u hu (BlockSet.not_mem_empty u) t hedge hin
  simpa [Covered, Task.position] using hcovered

theorem runs_of_allWellFormed {u : Surroundings} {context : List LoopContext}
    {nodes : List ControlNode} (h : u.AllWellFormed context nodes)
    (hb : b ∈ listed standingBlock? nodes) : u.runs b := by
  obtain ⟨n, hn, hown⟩ := List.mem_filterMap.1 hb
  refine runs_of_mem_blocksRun nodes h (List.mem_filterMap.2 ⟨n, hn, ?_⟩)
  cases n with
  | block => exact hown
  | loop kind => cases kind <;> first | exact hown | cases hown
  | cond | goto | breakLoop | continueLoop => cases hown

theorem Standard.files_tree (hl : l.Standard) (h : l.tree.1.structured = true) :
    Enumerates l.tree.1.standing l.IsReachable ∧
      Enumerates l.tree.1.loopHeaders fun b => ∃ loop ∈ l.loops.loops, loop.header = b := by
  have hrun := l.derives_sequence l.depth _ _ _ _ _ (yields_of_structured h)
  have hfiles := hrun.files hl
  have hformed := hl.wellFormed_tree (fun _ _ _ _ _ => trivial) h
  have hplaced : ∀ b, Placed {} l.arrangement b ↔ l.IsReachable b := by
    intro b
    constructor
    · exact fun hb => runs_of_allWellFormed hformed ((hfiles.blocks.mem_iff b).2 hb)
    · exact fun hb => ⟨hl.placed_of_reachable h hb, BlockSet.not_mem_empty b⟩
  refine ⟨hfiles.blocks.congr hplaced, hfiles.headers.congr fun b => ?_⟩
  rw [hplaced]
  constructor
  · rintro ⟨-, hopens, -⟩
    obtain ⟨loop, hloop⟩ := Option.ne_none_iff_exists'.1 hopens
    exact ⟨loop, LoopForest.get?_eq_some hloop⟩
  · rintro ⟨loop, hmem, rfl⟩
    exact ⟨hl.header_reachable hmem, opens_header hmem (by simp [Task.position])⟩

theorem listed_dispatchExit {own : ControlNode → Option BlockId} (g : Graph) (b : BlockId)
    (hcond : ∀ c t e join, own (.cond c t e join) = none) (hgoto : ∀ t, own (.goto t) = none) :
    listed own (dispatchExit g b) = [] := by
  have hjump : ∀ t, listed own [.goto t] = [] := fun t => List.filterMap_cons_none (hgoto t)
  unfold dispatchExit
  simp only
  split
  · split
    · rw [listed_cond (hcond _ _ _ _), listed_append, hjump, hjump, List.append_nil]
    · exact hjump _
  · cases (g.block b).successors.head? with
    | none => rfl
    | some t => exact hjump t

theorem listed_dispatchArms {own : ControlNode → Option BlockId} (g : Graph) (order : List BlockId)
    (hcond : ∀ c t e join, own (.cond c t e join) = none) (hgoto : ∀ t, own (.goto t) = none) :
    listed own (order.map g.dispatchArm) = order.filterMap fun b => own (.block b) := by
  induction order with
  | nil => rfl
  | cons b rest ih =>
    have harm : listed own [g.dispatchArm b] = [b].filterMap fun b => own (.block b) := by
      rw [Graph.dispatchArm, listed_cond (hcond _ _ _ _), List.append_nil, listed_cons,
        listed_dispatchExit _ _ hcond hgoto, List.append_nil]
      rfl
    rw [List.map_cons, ← List.singleton_append, listed_append, harm, ih, ← List.filterMap_append]
    rfl

theorem standing_dispatchTree : l.dispatchTree.standing = l.dominators.order := by
  rw [ControlTree.standing, nodes_dispatchTree, listed_loop,
    listed_dispatchArms _ _ (fun _ _ _ _ => rfl) fun _ => rfl]
  simp [standingBlock?]

theorem loopHeaders_dispatchTree : l.dispatchTree.loopHeaders = [l.routine.entry] := by
  rw [ControlTree.loopHeaders, nodes_dispatchTree, listed_loop,
    listed_dispatchArms _ _ (fun _ _ _ _ => rfl) fun _ => rfl]
  simp [loopHeader?]

end Layout

/-- The tree of a routine lists every block that the entry reaches inside the routine, once, and no
other one; and a structured tree has one loop for each natural loop, with its header. -/
theorem tree_lists_reachable {p : Program} {g : Graph} (hg : (Graph.ofProgram p).1 = .ok g)
    (roots : List BlockId) {r : Routine} (hr : r ∈ (Routines.ofGraph g roots).1.all) :
    Enumerates (Layout.ofRoutine g r).tree.1.standing (Layout.ofRoutine g r).IsReachable ∧
      ((Layout.ofRoutine g r).tree.1.structured = true →
        (Layout.ofRoutine g r).tree.1.loopHeaders.Nodup ∧
        (Layout.ofRoutine g r).tree.1.loopHeaders.Perm
          ((LoopForest.ofGraph g (Layout.ofRoutine g r).dominators).loops.map (·.header))) := by
  have hl : (Layout.ofRoutine g r).Standard := by
    refine ⟨rfl, rfl, Graph.verify_of_ofProgram hg,
      (Routines.separate_ofGraph g roots).entry_mem r hr, fun b taken fall htaken hfall => ?_⟩
    cases graph_eq_of_ofProgram hg
    exact Build.isConditional_of_exits htaken (Option.isSome_of_eq_some hfall)
  by_cases hstructured : (Layout.ofRoutine g r).tree.1.structured = true
  · obtain ⟨hblocks, hheaders⟩ := hl.files_tree hstructured
    refine ⟨hblocks, fun _ => ⟨hheaders.nodup, ?_⟩⟩
    refine (List.perm_ext_iff_of_nodup hheaders.nodup (LoopForest.nodup_headers g _)).2 fun b => ?_
    rw [hheaders.mem_iff, List.mem_map]
    rfl
  · refine ⟨?_, fun h => absurd h hstructured⟩
    rw [Layout.tree_eq_dispatch (Bool.eq_false_iff.2 hstructured)]
    exact Layout.standing_dispatchTree ▸
      ⟨Dominators.nodup_order, fun b => Layout.isReachable_iff.symm⟩

/-- A countdown inside a countdown: the inner one tests before each pass, the outer
one behind it. -/
def nestedCountdown : Program :=
  Draft.start 0x8000
    |>.label "Start" |>.immediate .ldx 3
    |>.label "Outer" |>.zeroPage .ldy 0x10
    |>.label "Inner" |>.immediate .cpy 0 |>.atLabel .beq "Next" |>.implied .dey
      |>.atLabel .jmp "Inner"
    |>.label "Next" |>.implied .dex |>.atLabel .bne "Outer" |>.implied .rts
    |>.program

/-- All six blocks of the nested countdown stand in its tree, the header of the inner loop as the
block that is run before its test, and there is one loop node for each of the two loops. -/
theorem tree_lists_nestedCountdown :
    ∃ g r, (Graph.ofProgram nestedCountdown).1 = .ok g ∧ r ∈ (Routines.ofGraph g [0]).1.all ∧
      (Layout.ofRoutine g r).tree.1.structured = true ∧
      (Layout.ofRoutine g r).tree.1.standing = [0, 1, 2, 3, 4, 5] ∧
      (∀ b, (Layout.ofRoutine g r).IsReachable b ↔ b ∈ [0, 1, 2, 3, 4, 5]) ∧
      (Layout.ofRoutine g r).tree.1.loopHeaders.Perm [1, 2] := by
  have hlisted : nestedCountdown.layout.tree.1.standing = [0, 1, 2, 3, 4, 5] := by decide +kernel
  obtain ⟨hblocks, hloops⟩ := tree_lists_reachable (p := nestedCountdown) rfl [0] List.mem_cons_self
  refine ⟨_, _, rfl, List.mem_cons_self, by decide +kernel, hlisted, fun b => ?_,
    (hloops (by decide +kernel)).2.trans (by decide +kernel)⟩
  exact (hblocks.mem_iff b).symm.trans (Iff.of_eq (congrArg (b ∈ ·) hlisted))

end Lift6502
