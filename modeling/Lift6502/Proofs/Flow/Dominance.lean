import Lift6502.Proofs.Flow.Graph
import Lift6502.Flow.Loops

/-!
# The order of dominance

Dominance is a partial order in which the dominators of a block form a chain. A block dominates
another one exactly if it is on all paths to it from the entry.
-/

namespace Lift6502

namespace Dominators

variable {g : Graph} {entry : BlockId} {members : BlockSet} {b c : BlockId}

theorem order_ofGraph : (ofGraph g entry members).order =
    reversePostorder g.size (g.successorsIn members) entry := by
  simp only [order, ofGraph, List.map_map]
  exact List.map_id _

theorem mem_order : b ∈ (ofGraph g entry members).order ↔
    WayTo (g.successorsIn members) [] entry b := by
  rw [order_ofGraph]
  exact mem_reversePostorder (fun _ => Graph.lt_size_of_successorsIn_ne_nil) entry b

end Dominators

namespace LoopForest

variable {g : Graph} {d : Dominators} {b header : BlockId} {loop : NaturalLoop}

theorem mem_latchesOf : b ∈ latchesOf g d header ↔
    b ∈ d.order ∧ header ∈ g.successors b ∧ d.dominates header b = true := by
  simp [latchesOf]

variable (h : loop ∈ (ofGraph g d).loops)

include h

theorem mem_ofGraph :
    loop.header ∈ d.order ∧
      loop = NaturalLoop.ofLatches g d loop.header (latchesOf g d loop.header) := by
  obtain ⟨header, hheader, hloop⟩ := List.mem_filterMap.1 h
  simp only [Option.ite_none_left_eq_some, Option.some.injEq] at hloop
  obtain ⟨-, rfl⟩ := hloop
  exact ⟨BlockSet.mem_ofList.1 hheader, rfl⟩

theorem header_mem_body : loop.header ∈ loop.body := by
  rw [(mem_ofGraph h).2]
  simp [NaturalLoop.ofLatches, NaturalLoop.bodyOf]

theorem mem_order_of_mem_latches (hb : b ∈ loop.latches) : b ∈ d.order := by
  rw [(mem_ofGraph h).2] at hb
  exact (mem_latchesOf.1 hb).1

end LoopForest

namespace WayTo

variable {next : BlockId → List BlockId} {avoided : List BlockId} {a b c x y : BlockId}

theorem avoids_or_cut (h : WayTo next avoided a b) (x : BlockId) :
    WayTo next (x :: avoided) a b ∨ WayTo next avoided a x ∧ WayTo next avoided x b := by
  induction h with
  | @refl a free =>
    by_cases hx : a = x
    · subst hx
      exact .inr ⟨.refl free, .refl free⟩
    · exact .inl (.refl (by simp [hx, free]))
  | @step a d b free edge rest ih =>
    by_cases hx : a = x
    · subst hx
      exact .inr ⟨.refl free, .step free edge rest⟩
    · rcases ih with ih | ⟨hto, hfrom⟩
      · exact .inl (.step (by simp [hx, free]) edge ih)
      · exact .inr ⟨.step free edge hto, hfrom⟩

theorem avoids_or_last (h : WayTo next avoided a b) (x : BlockId) :
    WayTo next (x :: avoided) a b ∨ x = b ∨ ∃ d ∈ next x, WayTo next (x :: avoided) d b := by
  induction h with
  | @refl a free =>
    by_cases hx : a = x
    · exact .inr (.inl hx.symm)
    · exact .inl (.refl (by simp [hx, free]))
  | @step a d b free edge _ ih =>
    rcases ih with ih | ih
    · by_cases hx : a = x
      · subst hx
        exact .inr (.inr ⟨d, edge, ih⟩)
      · exact .inl (.step (by simp [hx, free]) edge ih)
    · exact .inr ih

theorem first_of_two (hne : x ≠ y) (h : WayTo next [] a y) :
    WayTo next [x] a y ∨ WayTo next [y] a x := by
  induction h with
  | refl _ => exact .inl (.refl (by simpa using hne.symm))
  | @step a d y _ edge _ ih =>
    by_cases hx : a = x
    · subst hx
      exact .inr (.refl (by simpa using hne))
    · by_cases hy : a = y
      · subst hy
        exact .inl (.refl (by simpa using hne.symm))
      · rcases ih hne with ih | ih
        · exact .inl (.step (by simpa using hx) edge ih)
        · exact .inr (.step (by simpa using hy) edge ih)

/-- A way avoids two blocks, or it visits one of them for the last time after the other. -/
theorem last_of_two (hne : x ≠ y) (h : WayTo next [] a b) :
    WayTo next [x, y] a b ∨ WayTo next [y] x b ∨ WayTo next [x] y b := by
  induction h with
  | @refl a _ =>
    by_cases hx : a = x
    · subst hx
      exact .inr (.inl (.refl (by simpa using hne)))
    · by_cases hy : a = y
      · subst hy
        exact .inr (.inr (.refl (by simpa using hne.symm)))
      · exact .inl (.refl (by simp [hx, hy]))
  | @step a d b _ edge _ ih =>
    rcases ih with ih | ih
    · by_cases hx : a = x
      · subst hx
        exact .inr (.inl (.step (by simpa using hne) edge (ih.mono (by simp))))
      · by_cases hy : a = y
        · subst hy
          exact .inr (.inr (.step (by simpa using hne.symm) edge (ih.mono (by simp))))
        · exact .inl (.step (by simp [hx, hy]) edge ih)
    · exact .inr ih

theorem exists_edge (h : WayTo next avoided a b) (hne : a ≠ b) : ∃ c, b ∈ next c := by
  induction h with
  | refl _ => exact absurd rfl hne
  | @step a d b _ edge _ ih =>
    by_cases hd : d = b
    · exact ⟨a, hd ▸ edge⟩
    · exact ih hd

end WayTo

/-- There is a way from `entry` to `b`, and every one passes through `a`. -/
def Dominates (next : BlockId → List BlockId) (entry a b : BlockId) : Prop :=
  WayTo next [] entry b ∧ ¬ WayTo next [a] entry b

namespace Dominates

variable {next : BlockId → List BlockId} {entry a b c : BlockId}

theorem refl (h : WayTo next [] entry b) : Dominates next entry b b :=
  ⟨h, fun hway => hway.end_free (List.mem_singleton_self b)⟩

theorem reached (h : Dominates next entry a b) : WayTo next [] entry a := by
  rcases h.1.avoids_or_cut a with havoid | ⟨hto, -⟩
  · exact absurd havoid h.2
  · exact hto

theorem antisymm (hab : Dominates next entry a b) (hba : Dominates next entry b a) : a = b := by
  by_contra hne
  rcases hab.1.first_of_two hne with hway | hway
  · exact hab.2 hway
  · exact hba.2 hway

theorem of_edge (h : Dominates next entry a c) (hne : a ≠ c) (hb : WayTo next [] entry b)
    (hedge : c ∈ next b) : Dominates next entry a b :=
  ⟨hb, fun hway => h.2 (hway.tail hedge (by simpa using hne.symm))⟩

theorem total (hac : Dominates next entry a c) (hbc : Dominates next entry b c) :
    Dominates next entry a b ∨ Dominates next entry b a := by
  by_cases hne : a = b
  · subst hne
    exact .inl (refl hac.reached)
  by_contra hnot
  have hab : WayTo next [a] entry b := by
    by_contra hway
    exact hnot (.inl ⟨hbc.reached, hway⟩)
  have hba : WayTo next [b] entry a := by
    by_contra hway
    exact hnot (.inr ⟨hac.reached, hway⟩)
  -- Whichever of the two comes last on a way, there is a way to it around the other one.
  rcases hac.1.last_of_two hne with hway | hway | hway
  · exact hac.2 (hway.mono (by simp))
  · exact hbc.2 (hba.trans hway)
  · exact hac.2 (hab.trans hway)

theorem eq_or_last (h : Dominates next entry a b) : a = b ∨ ∃ d ∈ next a, WayTo next [a] d b := by
  rcases h.1.avoids_or_last a with havoid | hlast
  · exact absurd havoid h.2
  · exact hlast

end Dominates

namespace Dominators

variable {g : Graph} {entry : BlockId} {members : BlockSet} {a b i : BlockId}

theorem lookup_map_self {α : Type} (f : BlockId → α) (l : List BlockId) (b : BlockId) :
    (l.map fun c => (c, f c)).lookup b = if b ∈ l then some (f b) else none := by
  induction l with
  | nil => rfl
  | cons c rest ih =>
    rw [List.map_cons, List.lookup_cons, ih]
    by_cases hb : b = c
    · simp [hb]
    · have hbeq : (b == c) = false := by simpa using hb
      simp [hbeq, hb]

theorem nodup_order : (ofGraph g entry members).order.Nodup := by
  rw [order_ofGraph]
  exact (pairwise_reversePostorder (fun _ => Graph.lt_size_of_successorsIn_ne_nil) entry).1

theorem pairwise_order : (ofGraph g entry members).order.Pairwise fun x y =>
    WayTo (g.successorsIn members) [y] entry x := by
  rw [order_ofGraph]
  exact (pairwise_reversePostorder (fun _ => Graph.lt_size_of_successorsIn_ne_nil) entry).2

theorem chain_eq (hb : b ∈ (ofGraph g entry members).order) :
    (ofGraph g entry members).chain b = (ofGraph g entry members).order.filter fun a =>
      !(reachableAvoiding g.size (g.successorsIn members) entry [a]).contains b := by
  rw [order_ofGraph] at hb ⊢
  rw [chain, ofGraph]
  simp only
  rw [lookup_map_self, if_pos hb, Option.getD_some, List.filter_map, List.map_map]
  exact List.map_id _

theorem mem_chain : a ∈ (ofGraph g entry members).chain b ↔
    Dominates (g.successorsIn members) entry a b := by
  have hreach : ∀ c, c ∈ (ofGraph g entry members).order ↔
      WayTo (g.successorsIn members) [] entry c := fun c => mem_order
  by_cases hb : b ∈ (ofGraph g entry members).order
  · rw [chain_eq hb, List.mem_filter]
    have hway : (!(reachableAvoiding g.size (g.successorsIn members) entry [a]).contains b) = true ↔
        ¬ WayTo (g.successorsIn members) [a] entry b := by
      rw [← mem_reachableAvoiding (fun _ => Graph.lt_size_of_successorsIn_ne_nil) entry [a] b]
      simp
    rw [hway]
    constructor
    · rintro ⟨-, hnot⟩
      exact ⟨(hreach b).1 hb, hnot⟩
    · intro hdom
      exact ⟨(hreach a).2 hdom.reached, hdom.2⟩
  · have hnone : (ofGraph g entry members).chain b = [] := by
      rw [order_ofGraph] at hb
      rw [chain, ofGraph]
      simp only
      rw [lookup_map_self, if_neg hb, Option.getD_none]
    rw [hnone]
    constructor
    · intro ha
      cases ha
    · intro hdom
      exact absurd ((hreach b).2 hdom.1) hb

theorem dominates_iff : (ofGraph g entry members).dominates a b = true ↔
    Dominates (g.successorsIn members) entry a b := by
  rw [dominates, List.contains_iff_mem, mem_chain]

theorem pairwise_chain : ((ofGraph g entry members).chain b).Pairwise fun x y =>
    ¬ Dominates (g.successorsIn members) entry y x := by
  by_cases hb : b ∈ (ofGraph g entry members).order
  · rw [chain_eq hb]
    exact (pairwise_order.imp fun hway hdom => hdom.2 hway).filter _
  · have hnil : (ofGraph g entry members).chain b = [] := by
      rw [List.eq_nil_iff_forall_not_mem]
      intro a ha
      exact hb (mem_order.2 (mem_chain.1 ha).1)
    rw [hnil]
    exact .nil

theorem mem_of_chain_eq {l : List BlockId} (h : (ofGraph g entry members).chain b = l) :
    a ∈ l ↔ Dominates (g.successorsIn members) entry a b := h ▸ mem_chain

theorem pairwise_of_chain_eq {l : List BlockId} (h : (ofGraph g entry members).chain b = l) :
    l.Pairwise fun x y => ¬ Dominates (g.successorsIn members) entry y x := h ▸ pairwise_chain

theorem exists_chain_eq (hi : (ofGraph g entry members).immediate? b = some i) :
    ∃ front, (ofGraph g entry members).chain b = front ++ [i, b] := by
  obtain ⟨front, hfront⟩ := List.getLast?_eq_some_iff.1 hi
  have hne : (ofGraph g entry members).chain b ≠ [] := by
    intro hnil
    rw [hnil] at hfront
    simp at hfront
  obtain ⟨last, hlast⟩ : ∃ last, (ofGraph g entry members).chain b = front ++ [i] ++ [last] :=
    ⟨_, by rw [← hfront, List.dropLast_concat_getLast hne]⟩
  have hdom := (mem_of_chain_eq (a := last) hlast).1 (by simp)
  have hself := (mem_of_chain_eq hlast).2 (.refl hdom.1)
  refine ⟨front, ?_⟩
  rcases List.mem_append.1 hself with hin | hin
  · -- Nothing stands behind the block, which is dominated by all of its chain.
    exact absurd hdom ((List.pairwise_append.1 (pairwise_of_chain_eq hlast)).2.2 b hin last
      (by simp))
  · rw [hlast, List.mem_singleton.1 hin]
    simp

theorem dominates_immediate (hi : (ofGraph g entry members).immediate? b = some i)
    (ha : Dominates (g.successorsIn members) entry a b) (hne : a ≠ b) :
    Dominates (g.successorsIn members) entry a i := by
  obtain ⟨front, hchain⟩ := exists_chain_eq hi
  have hib := (mem_of_chain_eq (a := i) hchain).1 (by simp)
  rcases List.mem_append.1 ((mem_of_chain_eq hchain).2 ha) with hin | hin
  · refine (ha.total hib).resolve_right ?_
    exact (List.pairwise_append.1 (pairwise_of_chain_eq hchain)).2.2 a hin i (by simp)
  · have hai : a = i := by simpa [hne] using hin
    rw [hai]
    exact .refl hib.reached

end Dominators

/-- A path in a graph along edges into `members`, with the blocks that it passes. -/
inductive Graph.Path (g : Graph) (members : BlockSet) :
  BlockId → BlockId → List BlockId → Prop where
  | single (a : BlockId) : Path g members a a [a]
  | cons {a b c : BlockId} {blocks : List BlockId} (edge : b ∈ g.successors a)
      (member : b ∈ members) (rest : Path g members b c blocks) : Path g members a c (a :: blocks)

theorem Graph.Path.ne_nil {g : Graph} {members : BlockSet} {a b : BlockId} {blocks : List BlockId}
    (h : g.Path members a b blocks) : blocks ≠ [] := by
  cases h <;> exact List.cons_ne_nil _ _

namespace WayTo

variable {g : Graph} {members : BlockSet} {avoided blocks : List BlockId} {a b : BlockId}

theorem of_path (h : g.Path members a b blocks) (hfree : ∀ x ∈ blocks, x ∉ avoided) :
    WayTo (g.successorsIn members) avoided a b := by
  induction h with
  | single a => exact .refl (hfree a List.mem_cons_self)
  | @cons a b c blocks edge member _ ih =>
    apply WayTo.step (hfree a List.mem_cons_self) (Graph.mem_successorsIn.2 ⟨edge, member⟩)
    exact ih fun x hx => hfree x (List.mem_cons_of_mem a hx)

theorem exists_path (h : WayTo (g.successorsIn members) avoided a b) :
    ∃ blocks, g.Path members a b blocks ∧ ∀ x ∈ blocks, x ∉ avoided := by
  induction h with
  | @refl a free =>
    refine ⟨[a], .single a, fun x hx => ?_⟩
    rw [List.mem_singleton.1 hx]
    exact free
  | @step a b c free edge _ ih =>
    obtain ⟨blocks, hpath, hfree⟩ := ih
    obtain ⟨hedge, hmember⟩ := Graph.mem_successorsIn.1 edge
    refine ⟨a :: blocks, .cons hedge hmember hpath, fun x hx => ?_⟩
    rcases List.mem_cons.1 hx with rfl | hx
    · exact free
    · exact hfree x hx

theorem nil_iff_exists_path :
    WayTo (g.successorsIn members) [] a b ↔ ∃ blocks, g.Path members a b blocks := by
  constructor
  · intro h
    obtain ⟨blocks, hpath, -⟩ := h.exists_path
    exact ⟨blocks, hpath⟩
  · rintro ⟨blocks, hpath⟩
    exact of_path hpath fun x _ => List.not_mem_nil

end WayTo

namespace Dominates

variable {g : Graph} {members : BlockSet} {entry a b : BlockId} {next : BlockId → List BlockId}

theorem iff_forall_path : Dominates (g.successorsIn members) entry a b ↔
    (∃ blocks, g.Path members entry b blocks) ∧ ∀ blocks, g.Path members entry b blocks →
    a ∈ blocks := by
  rw [Dominates, WayTo.nil_iff_exists_path]
  apply and_congr_right
  intro _
  constructor
  · intro hnot blocks hpath
    by_contra ha
    apply hnot
    apply WayTo.of_path hpath
    intro x hx hxa
    rw [List.mem_singleton] at hxa
    exact ha (hxa ▸ hx)
  · intro hall hway
    obtain ⟨blocks, hpath, hfree⟩ := hway.exists_path
    exact hfree a (hall blocks hpath) (List.mem_singleton_self a)

theorem entry_of_reached (h : WayTo next [] entry b) : Dominates next entry entry b :=
  ⟨h, fun hway => hway.start_free (List.mem_singleton_self entry)⟩

theorem eq_entry (h : Dominates next entry a entry) : a = entry := by
  by_contra hne
  apply h.2
  apply WayTo.refl
  intro hmem
  exact hne (List.mem_singleton.1 hmem).symm

end Dominates

namespace Dominators

variable {g : Graph} {entry : BlockId} {members : BlockSet} {a b i : BlockId}

theorem strict_immediate (hi : (ofGraph g entry members).immediate? b = some i) :
    Dominates (g.successorsIn members) entry i b ∧ i ≠ b := by
  obtain ⟨front, hchain⟩ := exists_chain_eq hi
  have hib : Dominates (g.successorsIn members) entry i b := by
    apply mem_chain.1
    rw [hchain]
    simp
  refine ⟨hib, ?_⟩
  rintro rfl
  -- A chain has no block twice, since a block that can be reached dominates itself.
  have hordered : ((ofGraph g entry members).chain i).Pairwise fun x y =>
      ¬ Dominates (g.successorsIn members) entry y x := pairwise_chain
  rw [hchain] at hordered
  have htwice := (List.pairwise_append.1 hordered).2.1
  exact (List.pairwise_cons.1 htwice).1 i (by simp) hib

theorem exists_immediate (ha : Dominates (g.successorsIn members) entry a b) (hne : a ≠ b) :
    ∃ i, (ofGraph g entry members).immediate? b = some i := by
  have hin : a ∈ (ofGraph g entry members).chain b := mem_chain.2 ha
  have hself : b ∈ (ofGraph g entry members).chain b := mem_chain.2 (.refl ha.1)
  -- A chain of one block has no room for two different ones.
  cases hchain : (ofGraph g entry members).chain b with
  | nil =>
    rw [hchain] at hin
    exact absurd hin List.not_mem_nil
  | cons x rest =>
    cases rest with
    | nil =>
      rw [hchain, List.mem_singleton] at hin hself
      exact absurd (hin.trans hself.symm) hne
    | cons y rest =>
      rw [immediate?, hchain]
      exact ⟨_, List.getLast?_eq_some_getLast (List.cons_ne_nil x (y :: rest).dropLast)⟩

theorem immediate_eq_some_iff : (ofGraph g entry members).immediate? b = some i ↔
    (Dominates (g.successorsIn members) entry i b ∧ i ≠ b) ∧
      ∀ a, Dominates (g.successorsIn members) entry a b → a ≠ b → a ≠ i →
        Dominates (g.successorsIn members) entry a i := by
  constructor
  · intro hi
    exact ⟨strict_immediate hi, fun a ha hne _ => dominates_immediate hi ha hne⟩
  · rintro ⟨⟨hib, hne⟩, hall⟩
    obtain ⟨j, hj⟩ := exists_immediate hib hne
    obtain ⟨hjb, hjne⟩ := strict_immediate hj
    by_cases hji : j = i
    · rw [← hji]
      exact hj
    · -- Each of the two would dominate the other one.
      have hdom : Dominates (g.successorsIn members) entry j i := hall j hjb hjne hji
      exact absurd (hdom.antisymm (dominates_immediate hj hib hne)) hji

theorem immediate_eq_none_iff : (ofGraph g entry members).immediate? b = none ↔
    b = entry ∨ ¬ WayTo (g.successorsIn members) [] entry b := by
  constructor
  · intro hnone
    by_contra hnot
    rw [not_or, not_not] at hnot
    obtain ⟨hne, hway⟩ := hnot
    obtain ⟨i, hi⟩ := exists_immediate (Dominates.entry_of_reached hway) (Ne.symm hne)
    rw [hnone] at hi
    cases hi
  · intro hb
    cases hi : (ofGraph g entry members).immediate? b with
    | none => rfl
    | some i =>
      obtain ⟨hib, hne⟩ := strict_immediate hi
      rcases hb with rfl | hb
      · exact absurd hib.eq_entry hne
      · exact absurd hib.1 hb

end Dominators

end Lift6502
