import Lift6502.Proofs.Flow.Forest
import Lift6502.Tree.Structure

/-!
# Reducible routines

No cycle is left without the edges back to dominators just when no edge goes back in reverse
postorder to a block that does not dominate its source.
-/

namespace Lift6502

open Dominators

/-- An edge between blocks that can be reached, less the edges back to a dominator. -/
structure Graph.ForwardEdge (g : Graph) (entry : BlockId) (members : BlockSet) (p h : BlockId) :
    Prop where
  reached : ∃ blocks, g.Path members entry p blocks
  edge : h ∈ g.successors p
  member : h ∈ members
  forward : ¬ g.BackEdge entry members p h

/-- No cycle is left without the edges back to dominators. -/
def Graph.Reducible (g : Graph) (entry : BlockId) (members : BlockSet) : Prop :=
  ∀ b, ¬ Relation.TransGen (g.ForwardEdge entry members) b b

namespace Dominators

variable {g : Graph} {entry : BlockId} {members : BlockSet} {a b p h : BlockId}

theorem forwardEdge_iff : g.ForwardEdge entry members p h ↔
    p ∈ (ofGraph g entry members).order ∧ h ∈ g.successorsIn members p ∧
      (ofGraph g entry members).dominates h p = false := by
  rw [mem_order, WayTo.nil_iff_exists_path, Graph.mem_successorsIn, ← Bool.not_eq_true,
    dominates_iff]
  constructor
  · rintro ⟨hreached, hedge, hmember, hforward⟩
    exact ⟨hreached, ⟨hedge, hmember⟩, fun hdom =>
      hforward (LoopForest.backEdge_iff.2 ⟨hedge, hdom⟩)⟩
  · rintro ⟨hreached, ⟨hedge, hmember⟩, hnot⟩
    exact ⟨hreached, hedge, hmember, fun hback => hnot (LoopForest.backEdge_iff.1 hback).2⟩

theorem index?_eq_some_iff {i : Nat} :
    (ofGraph g entry members).index? b = some i ↔ (ofGraph g entry members).order[i]? = some b := by
  rw [index?, List.findIdx?_eq_some_iff_getElem]
  constructor
  · rintro ⟨hi, hb, -⟩
    rw [List.getElem?_eq_getElem hi, eq_of_beq hb]
  · intro hb
    obtain ⟨hi, hget⟩ := List.getElem?_eq_some_iff.1 hb
    refine ⟨hi, by simp [hget], fun j hj hbeq => ?_⟩
    -- No block stands at two places.
    have hne := (List.pairwise_iff_getElem.1 nodup_order) j i (Nat.lt_trans hj hi) hi hj
    rw [hget] at hne
    exact hne (by simpa using hbeq)

theorem index?_lt_of_sublist (hab : [a, b].Sublist (ofGraph g entry members).order) :
    ∃ i j, (ofGraph g entry members).index? a = some i ∧
      (ofGraph g entry members).index? b = some j ∧ i < j := by
  have hpairs : (ofGraph g entry members).order.Pairwise fun a b =>
      ∃ i j, (ofGraph g entry members).index? a = some i ∧
        (ofGraph g entry members).index? b = some j ∧ i < j := by
    refine List.pairwise_iff_getElem.2 fun i j hi hj hlt => ⟨i, j, ?_, ?_, hlt⟩
    · exact index?_eq_some_iff.2 (List.getElem?_eq_getElem hi)
    · exact index?_eq_some_iff.2 (List.getElem?_eq_getElem hj)
  exact List.pairwise_iff_forall_sublist.1 hpairs hab

theorem exists_index? (hb : b ∈ (ofGraph g entry members).order) :
    ∃ i, (ofGraph g entry members).index? b = some i := by
  obtain ⟨i, hi⟩ := List.mem_iff_getElem?.1 hb
  exact ⟨i, index?_eq_some_iff.2 hi⟩

theorem mem_order_of_edge (hp : p ∈ (ofGraph g entry members).order)
    (hedge : h ∈ g.successorsIn members p) : h ∈ (ofGraph g entry members).order := by
  rw [mem_order] at hp ⊢
  exact hp.tail hedge List.not_mem_nil

theorem forwardEdge_of_ahead
    (hahead : Walk.Ahead (g.successorsIn members) (ofGraph g entry members).order a b) :
    g.ForwardEdge entry members a b := by
  obtain ⟨hedge, hsub⟩ := hahead
  refine forwardEdge_iff.2 ⟨hsub.subset List.mem_cons_self, hedge,
    Bool.eq_false_iff.2 fun hdom => ?_⟩
  exact (dominates_iff.1 hdom).2 (List.pairwise_iff_forall_sublist.1 pairwise_order hsub)

theorem returns_order (hp : p ∈ (ofGraph g entry members).order)
    (hedge : h ∈ g.successorsIn members p)
    (hback : ¬ [p, h].Sublist (ofGraph g entry members).order) :
    Relation.ReflTransGen (g.ForwardEdge entry members) h p := by
  rw [order_ofGraph] at hp hback
  have hreturn := (returns_reversePostorder (fun _ => Graph.lt_size_of_successorsIn_ne_nil) hp
    hedge).resolve_left hback
  rw [← order_ofGraph] at hreturn
  exact hreturn.lift id fun _ _ => forwardEdge_of_ahead

end Dominators

/-! ## Edges that go back -/

section

variable {g : Graph} {entry : BlockId} {members : BlockSet} {p h : BlockId}

theorem mem_of_retreatingEdge?
    (hsome : retreatingEdge? g (ofGraph g entry members) members = some (p, h)) :
    g.ForwardEdge entry members p h ∧
      ¬ [p, h].Sublist (ofGraph g entry members).order := by
  have hmem := List.mem_of_find?_eq_some hsome
  have htest := List.find?_some hsome
  simp only [Bool.and_eq_true, BlockSet.contains_iff, Bool.not_eq_true'] at htest
  obtain ⟨⟨hmember, hnot⟩, hindex⟩ := htest
  obtain ⟨b, hb, hpair⟩ := List.mem_flatMap.1 hmem
  obtain ⟨s, hs, heq⟩ := List.mem_map.1 hpair
  cases heq
  refine ⟨forwardEdge_iff.2 ⟨hb, Graph.mem_successorsIn.2 ⟨hs, hmember⟩, hnot⟩, ?_⟩
  intro hsub
  obtain ⟨i, j, hi, hj, hlt⟩ := index?_lt_of_sublist hsub
  rw [hi, hj] at hindex
  simp only [decide_eq_true_eq] at hindex
  omega

theorem index?_lt_of_forwardEdge
    (hnone : retreatingEdge? g (ofGraph g entry members) members = none)
    (hedge : g.ForwardEdge entry members p h) :
    ∃ i j, (ofGraph g entry members).index? p = some i ∧
      (ofGraph g entry members).index? h = some j ∧ i < j := by
  obtain ⟨hp, hsuccessor, hnot⟩ := forwardEdge_iff.1 hedge
  obtain ⟨i, hi⟩ := exists_index? hp
  obtain ⟨j, hj⟩ := exists_index? (mem_order_of_edge hp hsuccessor)
  refine ⟨i, j, hi, hj, Nat.lt_of_not_le fun hle => ?_⟩
  have hmem : (p, h) ∈ (ofGraph g entry members).order.flatMap
      (fun b => (g.successors b).map fun s => (b, s)) :=
    List.mem_flatMap.2 ⟨p, hp, List.mem_map_of_mem hedge.edge⟩
  have htest := List.find?_eq_none.1 hnone (p, h) hmem
  apply htest
  simp only [BlockSet.contains_iff.2 hedge.member, hnot, hi, hj, Bool.not_false, Bool.true_and,
    decide_eq_true_eq]
  exact hle

theorem retreatingEdge?_eq_none_iff_reducible :
    retreatingEdge? g (ofGraph g entry members) members = none ↔
      g.Reducible entry members := by
  constructor
  · intro hnone b hcycle
    -- The position grows along the cycle.
    have hgrows : ∀ {c}, Relation.TransGen (g.ForwardEdge entry members) b c →
        ∃ i j, (ofGraph g entry members).index? b = some i ∧
          (ofGraph g entry members).index? c = some j ∧ i < j := by
      intro c hpath
      induction hpath with
      | single hedge => exact index?_lt_of_forwardEdge hnone hedge
      | tail _ hedge ih =>
        obtain ⟨i, j, hi, hj, hlt⟩ := ih
        obtain ⟨j', k, hj', hk, hlt'⟩ := index?_lt_of_forwardEdge hnone hedge
        rw [hj] at hj'
        cases hj'
        exact ⟨i, k, hi, hk, Nat.lt_trans hlt hlt'⟩
    obtain ⟨i, j, hi, hj, hlt⟩ := hgrows hcycle
    rw [hi] at hj
    cases hj
    exact Nat.lt_irrefl _ hlt
  · intro hreducible
    cases hfound : retreatingEdge? g (ofGraph g entry members) members with
    | none => rfl
    | some found =>
      obtain ⟨p, h⟩ := found
      obtain ⟨hedge, hback⟩ := mem_of_retreatingEdge? hfound
      obtain ⟨hp, hsuccessor, -⟩ := forwardEdge_iff.1 hedge
      exact absurd (Relation.TransGen.tail' (returns_order hp hsuccessor hback) hedge)
        (hreducible h)

end

/-! ## The order of exits -/

namespace Graph

def SameEdges (g g' : Graph) : Prop := ∀ b t, t ∈ g.successors b ↔ t ∈ g'.successors b

namespace SameEdges

variable {g g' : Graph} {entry : BlockId} {members : BlockSet} {a b p h : BlockId}
  {blocks : List BlockId}

variable (hsame : g.SameEdges g')

include hsame

theorem symm : g'.SameEdges g := fun b t => (hsame b t).symm

theorem path (hpath : g.Path members a b blocks) : g'.Path members a b blocks := by
  induction hpath with
  | single a => exact .single a
  | cons edge member _ ih => exact .cons ((hsame _ _).1 edge) member ih

theorem backEdge (hback : g.BackEdge entry members p h) : g'.BackEdge entry members p h := by
  obtain ⟨⟨blocks, hpath⟩, hedge, hdominated⟩ := hback
  exact ⟨⟨blocks, hsame.path hpath⟩, (hsame p h).1 hedge,
    fun blocks hpath => hdominated blocks (hsame.symm.path hpath)⟩

theorem forwardEdge (hedge : g.ForwardEdge entry members p h) :
    g'.ForwardEdge entry members p h := by
  obtain ⟨⟨blocks, hpath⟩, hedge, hmember, hforward⟩ := hedge
  exact ⟨⟨blocks, hsame.path hpath⟩, (hsame p h).1 hedge, hmember,
    fun hback => hforward (hsame.symm.backEdge hback)⟩

theorem reducible (hreducible : g.Reducible entry members) : g'.Reducible entry members := by
  intro b hcycle
  exact hreducible b (hcycle.lift id fun _ _ => hsame.symm.forwardEdge)

end SameEdges

end Graph

/-! ## What becomes of a routine -/

namespace Layout

variable {l : Layout} {source target : BlockId}

def lowered (l : Layout) (source target : BlockId) : ControlTree × Journal :=
  (.dispatch l.graph l.routine.entry l.dominators,
    [.warn ("[reconstruct] " ++ l.routine.name ++ ": " ++
      ("irreducible edge " ++ l.graph.name source ++
      " -> " ++ l.graph.name target) ++ ", using dispatch loop")])

/-- The tree of the arranged blocks, or a dispatch loop after that has failed. -/
def arranged (l : Layout) : ControlTree × Journal :=
  match (l.sequence l.depth {} l.routine.entry).run.run {} with
  | (.ok nodes, s) => ({ nodes, structured := true }, s.journal)
  | (.error reason, s) =>
    (.dispatch l.graph l.routine.entry l.dominators,
      s.journal ++ [.warn ("[reconstruct] " ++ l.routine.name ++ ": " ++ reason.message ++
        ", using dispatch loop")])

theorem tree_eq_lowered
    (h : retreatingEdge? l.graph l.dominators l.routine.blocks = some (source, target)) :
    l.tree = l.lowered source target := by
  unfold tree lowered
  rw [h]

theorem tree_eq_arranged (h : retreatingEdge? l.graph l.dominators l.routine.blocks = none) :
    l.tree = l.arranged := by
  unfold tree arranged
  rcases (l.sequence l.depth {} l.routine.entry).run.run {} with ⟨_ | _, s⟩ <;> rw [h]

theorem message_ne_irreducible (reason : Unstructured) (edge : String) :
    reason.message ≠ "irreducible edge " ++ edge := by
  intro heq
  have hchars := congrArg String.toList heq
  cases reason with
  | placedTwice name => simp [Unstructured.message] at hchars
  | tooDeep => simp [Unstructured.message] at hchars

theorem arranged_ne_lowered (l : Layout) (source target : BlockId) :
    l.arranged ≠ l.lowered source target := by
  intro heq
  unfold arranged lowered at heq
  split at heq
  · have hstructured := congrArg (fun t => t.1.structured) heq
    cases hstructured
  · next reason s _ =>
    have hlast := congrArg (fun t => t.2.getLast?) heq
    simp only [List.getLast?_append, List.getLast?_singleton, Option.some_or,
      Option.some.injEq] at hlast
    have hmessage := congrArg Entry.message hlast
    simp only [Entry.warn, String.append_left_inj, String.append_right_inj] at hmessage
    rw [String.append_assoc, String.append_assoc] at hmessage
    exact message_ne_irreducible reason _ hmessage

theorem exists_tree_eq_lowered_iff : (∃ source target, l.tree = l.lowered source target) ↔
    retreatingEdge? l.graph l.dominators l.routine.blocks ≠ none := by
  constructor
  · rintro ⟨source, target, htree⟩ hnone
    rw [tree_eq_arranged hnone] at htree
    exact arranged_ne_lowered l source target htree
  · intro hsome
    obtain ⟨⟨source, target⟩, hfound⟩ := Option.ne_none_iff_exists'.1 hsome
    exact ⟨source, target, tree_eq_lowered hfound⟩

end Layout

/-- No edge is in the way of arranging exactly if no cycle is left without the edges back to
dominators, whatever the order of the exits. A routine becomes a dispatch loop at once exactly if it
is not reducible; otherwise its blocks are arranged. -/
theorem order_decides_reducible (g : Graph) :
    (∀ entry members, retreatingEdge? g (Dominators.ofGraph g entry members) members = none ↔
      g.Reducible entry members) ∧
    (∀ g' : Graph, g.SameEdges g' → ∀ entry members,
      retreatingEdge? g' (Dominators.ofGraph g' entry members) members = none ↔
        retreatingEdge? g (Dominators.ofGraph g entry members) members = none) ∧
    ∀ r : Routine,
      ((∃ source target, (Layout.ofRoutine g r).tree = (Layout.ofRoutine g r).lowered source
        target) ↔ ¬ g.Reducible r.entry r.blocks) ∧
      (g.Reducible r.entry r.blocks →
        (Layout.ofRoutine g r).tree = (Layout.ofRoutine g r).arranged) := by
  refine ⟨fun _ _ => retreatingEdge?_eq_none_iff_reducible, fun g' hsame entry members => ?_,
    fun r => ⟨?_, fun hreducible => ?_⟩⟩
  · rw [retreatingEdge?_eq_none_iff_reducible, retreatingEdge?_eq_none_iff_reducible]
    exact ⟨hsame.symm.reducible, hsame.reducible⟩
  · rw [Layout.exists_tree_eq_lowered_iff, ← retreatingEdge?_eq_none_iff_reducible]
    rfl
  · exact Layout.tree_eq_arranged (retreatingEdge?_eq_none_iff_reducible.2 hreducible)

/-- A loop that is entered at either of its two blocks, with the exits of the first block in the
given order. -/
def enteredTwice (first second : BlockId) : Graph where
  blocks := #[
    { label := some "Start", offset := 0, fallThrough := some first, branch := some second },
    { label := some "Left", offset := 2, fallThrough := some 2, enteredFrom := .ofList [0, 2] },
    { label := some "Right", offset := 4, branch := some 1, enteredFrom := .ofList [0, 1] }]
  entry := some 0

/-- Which edge of the loop goes back depends on the order, but one does in either order. -/
theorem order_decides_enteredTwice :
    (enteredTwice 1 2).SameEdges (enteredTwice 2 1) ∧
    retreatingEdge? (enteredTwice 2 1) (Dominators.ofGraph (enteredTwice 2 1) 0 (.range 3))
      (.range 3) = some (1, 2) ∧
    retreatingEdge? (enteredTwice 1 2) (Dominators.ofGraph (enteredTwice 1 2) 0 (.range 3))
      (.range 3) ≠ none ∧
    ¬ (enteredTwice 1 2).Reducible 0 (.range 3) := by
  have hsame : (enteredTwice 1 2).SameEdges (enteredTwice 2 1) := by
    intro b t
    rcases b with _ | _ | _ | b <;>
      simp [Graph.successors, Graph.block, enteredTwice, Block.successors, or_comm]
  obtain ⟨hdecides, horder, -⟩ := order_decides_reducible (enteredTwice 1 2)
  have hfound : retreatingEdge? (enteredTwice 2 1) (Dominators.ofGraph (enteredTwice 2 1) 0
      (.range 3)) (.range 3) = some (1, 2) := by decide +kernel
  have hother : retreatingEdge? (enteredTwice 1 2)
      (Dominators.ofGraph (enteredTwice 1 2) 0 (.range 3)) (.range 3) ≠ none := by
    intro hnone
    rw [← horder _ hsame, hfound] at hnone
    cases hnone
  exact ⟨hsame, hfound, hother, fun hreducible => hother ((hdecides 0 (.range 3)).2 hreducible)⟩

end Lift6502
