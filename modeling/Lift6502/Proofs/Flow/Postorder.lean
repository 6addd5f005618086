import Lift6502.Proofs.Flow.Walk
import Mathlib.Logic.Function.Iterate

/-!
# Depth-first order

A walk with a stack comes to an end with the order of `reversePostorder`. An edge back in this order
closes a cycle among the blocks that follow its target.
-/

namespace Lift6502

variable {size : Nat} {next : BlockId → List BlockId} {entry : BlockId}

namespace Walk

/-- A walk and the blocks on its way, innermost first, each with the exits that are left. -/
abbrev Stacked := List (BlockId × List BlockId) × Walk

/-- Tries one exit of the innermost block, or finishes the block. -/
def advance (next : BlockId → List BlockId) : Stacked → Stacked
  | ([], w) => ([], w)
  | ((b, []) :: rest, w) => (rest, { w with order := b :: w.order })
  | ((b, c :: exits) :: rest, w) =>
    if c ∈ w.seen then ((b, exits) :: rest, w)
    else ((c, next c) :: (b, exits) :: rest, { w with seen := c :: w.seen })

def Reaches (next : BlockId → List BlockId) (s s' : Stacked) : Prop :=
  ∃ n, (advance next)^[n] s = s'

theorem Reaches.trans {s s' s'' : Stacked} (h : Reaches next s s') (h' : Reaches next s' s'') :
    Reaches next s s'' := by
  obtain ⟨n, rfl⟩ := h
  obtain ⟨m, rfl⟩ := h'
  exact ⟨m + n, Function.iterate_add_apply _ m n s⟩

variable (hsize : ∀ b, next b ≠ [] → b < size) {fuel : Nat} (b : BlockId)
  (rest : List (BlockId × List BlockId))

include hsize

theorem reaches_visitAll
    (hvisit : ∀ c w rest, c ∉ w.seen → (unseen size w.seen).card < fuel →
      Reaches next ((c, next c) :: rest, { w with seen := c :: w.seen })
      (rest, visit next fuel c w)) (exits : List BlockId) (w : Walk)
    (hfuel : (unseen size w.seen).card < fuel) :
    Reaches next ((b, exits) :: rest, w) ((b, []) :: rest, visitAll next fuel exits w) := by
  induction exits generalizing w with
  | nil => exact ⟨0, rfl⟩
  | cons c exits ih =>
    obtain ⟨added, h⟩ := exists_adds_visit hsize fuel c w hfuel
    have hless : (unseen size (visit next fuel c w).seen).card ≤ (unseen size w.seen).card :=
      Finset.card_le_card (unseen_subset fun x hx => (h.mem_seen x).2 (.inr hx))
    refine Reaches.trans ?_ (ih (visit next fuel c w) (lt_of_le_of_lt hless hfuel))
    -- The first exit is skipped if it was seen, and put on the stack otherwise.
    have hfirst : advance next ((b, c :: exits) :: rest, w) = _ := advance.eq_3 ..
    by_cases hseen : c ∈ w.seen
    · rw [if_pos hseen] at hfirst
      have hvisited : visit next fuel c w = w := by cases fuel <;> simp [visit, hseen]
      rw [hvisited]
      exact ⟨1, hfirst⟩
    · rw [if_neg hseen] at hfirst
      exact Reaches.trans ⟨1, hfirst⟩ (hvisit c w _ hseen hfuel)

theorem reaches_visit (w : Walk) (hfree : b ∉ w.seen) (hfuel : (unseen size w.seen).card < fuel) :
    Reaches next ((b, next b) :: rest, { w with seen := b :: w.seen })
      (rest, visit next fuel b w) := by
  induction fuel generalizing b w rest with
  | zero => omega
  | succ fuel ih =>
    rw [visit, if_neg hfree]
    have hlast : ∀ w', Reaches next ((b, []) :: rest, w')
        (rest, { w' with order := b :: w'.order }) :=
      fun _ => ⟨1, rfl⟩
    refine Reaches.trans ?_ (hlast _)
    by_cases hempty : next b = []
    · rw [hempty]
      exact ⟨0, rfl⟩
    · refine reaches_visitAll hsize b rest (fun c w rest => ih c rest w) (next b) _ ?_
      exact lt_of_lt_of_le (card_unseen_cons_lt (hsize b hempty) hfree) (Nat.le_of_lt_succ hfuel)

end Walk

/-! ## The order -/

/-- What a depth-first order from `entry` is. -/
structure DepthFirst (next : BlockId → List BlockId) (entry : BlockId) (order : List BlockId) :
    Prop where
  nodup : order.Nodup
  mem_iff : ∀ b, b ∈ order ↔ Relation.ReflTransGen (fun a b => b ∈ next a) entry b
  entry_first : order.head? = some entry
  /-- From the target of an edge that does not go ahead there is a way to its source, on which no
  block is before the target. -/
  returns : ∀ before v after, order = before ++ v :: after →
    ∀ u ∈ v :: after, v ∈ next u → WayTo next before v u
  /-- Without cycles all edges go ahead. -/
  topological : (∀ b ∈ order, ¬ Relation.TransGen (fun a b => b ∈ next a) b b) →
    ∀ u ∈ order, ∀ v ∈ next u, [u, v].Sublist order

theorem wayTo_nil_iff {a b : BlockId} :
    WayTo next [] a b ↔ Relation.ReflTransGen (fun a b => b ∈ next a) a b := by
  constructor
  · intro h
    induction h with
    | refl => exact .refl
    | step _ edge _ ih => exact .head edge ih
  · intro h
    induction h with
    | refl => exact .refl List.not_mem_nil
    | tail _ edge ih => exact ih.tail edge List.not_mem_nil

section

variable {before after : List BlockId} {v a b : BlockId} (hnodup : (before ++ v :: after).Nodup)

include hnodup

theorem not_mem_before (ha : a ∈ v :: after) : a ∉ before :=
  fun hbefore => (List.nodup_append.1 hnodup).2.2 a hbefore a ha rfl

theorem mem_after_of_sublist (h : [a, b].Sublist (before ++ v :: after)) (ha : a ∈ v :: after) :
    b ∈ after := by
  obtain ⟨front, back, heq, hfront, hback⟩ := List.sublist_append_iff.1 h
  cases front with
  | cons c front =>
    obtain ⟨rfl, -⟩ := List.cons.inj heq
    exact absurd (hfront.subset List.mem_cons_self) (not_mem_before hnodup ha)
  | nil =>
    obtain rfl : [a, b] = back := heq
    cases hback with
    | cons _ hrest => exact hrest.subset (List.mem_cons_of_mem a List.mem_cons_self)
    | cons_cons _ hrest => exact hrest.subset List.mem_cons_self

end

theorem wayTo_of_ahead {before after : List BlockId} {v u : BlockId}
    (hnodup : (before ++ v :: after).Nodup)
    (h : Relation.ReflTransGen (Walk.Ahead next (before ++ v :: after)) v u) :
    u ∈ v :: after ∧ WayTo next before v u := by
  induction h with
  | refl => exact ⟨List.mem_cons_self, .refl (not_mem_before hnodup List.mem_cons_self)⟩
  | tail _ hstep ih =>
    have hmem := List.mem_cons_of_mem v (mem_after_of_sublist hnodup hstep.2 ih.1)
    exact ⟨hmem, ih.2.tail hstep.1 (not_mem_before hnodup hmem)⟩

/-- The walk with a stack comes to an end, with nothing left on the stack and the blocks in a
depth-first order. Only blocks below `size` lead on. -/
theorem depthFirst_reversePostorder (hsize : ∀ b, next b ≠ [] → b < size) (entry : BlockId) :
    (∃ n w, (Walk.advance next)^[n] ([(entry, next entry)], { seen := [entry] }) = ([], w) ∧
      w.order = reversePostorder size next entry) ∧
    DepthFirst next entry (reversePostorder size next entry) := by
  obtain ⟨n, hn⟩ :=
    Walk.reaches_visit hsize entry [] {} List.not_mem_nil (Walk.card_unseen_lt size [])
  have hadds := adds_reversePostorder hsize entry
  refine ⟨⟨n, _, hn, rfl⟩, hadds.nodup, fun b => ?_, ?_, ?_, ?_⟩
  · rw [mem_reversePostorder hsize, wayTo_nil_iff]
  · rw [reversePostorder, Walk.visit, if_neg List.not_mem_nil]
    rfl
  · intro before v after horder u hu hedge
    have hreturn := returns_reversePostorder hsize (horder ▸ List.mem_append_right before hu) hedge
    have hnodup := hadds.nodup
    rw [horder] at hnodup hreturn
    -- The edge does not go ahead, since the target would stand behind itself.
    rcases hreturn with hsub | hback
    · have hv : v ∉ after := (List.nodup_cons.1 (List.nodup_append.1 hnodup).2.1).1
      exact absurd (mem_after_of_sublist hnodup hsub hu) hv
    · exact (wayTo_of_ahead hnodup hback).2
  · intro hacyclic u hu v hedge
    refine (returns_reversePostorder hsize hu hedge).resolve_right fun hback => hacyclic u hu ?_
    exact .head' hedge (hback.lift id fun _ _ hstep => hstep.1)

/-- Two exits to one block, a loop of one block, and an edge between two branches. -/
def crossing : BlockId → List BlockId
  | 0 => [1, 2, 1]
  | 1 => [3, 1]
  | 2 => [3, 1]
  | 3 => [0, 4]
  | _ => []

theorem depthFirst_crossing :
    (∀ b, crossing b ≠ [] → b < 4) ∧ reversePostorder 4 crossing 0 = [0, 2, 1, 3, 4] ∧
      DepthFirst crossing 0 [0, 2, 1, 3, 4] := by
  have hsize : ∀ b, crossing b ≠ [] → b < 4 := by
    intro b hb
    by_contra hlarge
    obtain ⟨k, rfl⟩ := Nat.exists_eq_add_of_le (Nat.le_of_not_lt hlarge)
    rw [Nat.add_comm] at hb
    exact hb rfl
  have horder : reversePostorder 4 crossing 0 = [0, 2, 1, 3, 4] := by decide
  exact ⟨hsize, horder, horder ▸ (depthFirst_reversePostorder hsize 0).2⟩

end Lift6502
