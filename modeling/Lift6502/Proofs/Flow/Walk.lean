import Lift6502.Flow.Graph
import Lift6502.Flow.Walk
import Mathlib.Data.Finset.Card

/-!
# What a walk visits

A walk from a block visits exactly the blocks at the ends of the ways that avoid what was seen
before.
-/

namespace Lift6502

variable {size : Nat} {next : BlockId → List BlockId} {members : BlockSet} {a b : BlockId}

/-- A way along `next` on which no block is in `avoided`. -/
inductive WayTo (next : BlockId → List BlockId) (avoided : List BlockId) :
  BlockId → BlockId → Prop where
  | refl {a : BlockId} (free : a ∉ avoided) : WayTo next avoided a a
  | step {a b c : BlockId} (free : a ∉ avoided) (edge : b ∈ next a)
      (rest : WayTo next avoided b c) : WayTo next avoided a c

namespace WayTo

variable {next : BlockId → List BlockId} {avoided : List BlockId} {a b c : BlockId}

theorem start_free (h : WayTo next avoided a b) : a ∉ avoided := by
  cases h with
  | refl free => exact free
  | step free _ _ => exact free

theorem end_free (h : WayTo next avoided a b) : b ∉ avoided := by
  induction h with
  | refl free => exact free
  | step _ _ _ ih => exact ih

theorem trans (h1 : WayTo next avoided a b) (h2 : WayTo next avoided b c) :
    WayTo next avoided a c := by
  induction h1 with
  | refl _ => exact h2
  | step free edge _ ih => exact .step free edge (ih h2)

theorem tail (h : WayTo next avoided a b) (edge : c ∈ next b) (free : c ∉ avoided) :
    WayTo next avoided a c :=
  h.trans (.step h.end_free edge (.refl free))

theorem mono {fewer : List BlockId} (sub : ∀ x ∈ fewer, x ∈ avoided)
    (h : WayTo next avoided a b) : WayTo next fewer a b := by
  induction h with
  | refl free => exact .refl fun hx => free (sub _ hx)
  | step free edge _ ih => exact .step (fun hx => free (sub _ hx)) edge ih

theorem mem_of_closed {s : BlockId → Prop} (h : WayTo next avoided a b) (ha : s a)
    (closed : ∀ x, s x → ∀ y ∈ next x, y ∉ avoided → s y) : s b := by
  induction h with
  | refl _ => exact ha
  | step _ edge rest ih => exact ih (closed _ ha _ edge rest.start_free)

end WayTo

namespace Walk

variable {b : BlockId} {starts : List BlockId} {w : Walk}

def unseen (size : Nat) (seen : List BlockId) : Finset Nat := (Finset.range size).filter (· ∉ seen)

theorem unseen_subset {seen more : List BlockId} (sub : ∀ x ∈ seen, x ∈ more) :
    unseen size more ⊆ unseen size seen := by
  intro x hx
  simp only [unseen, Finset.mem_filter] at hx ⊢
  exact ⟨hx.1, fun h => hx.2 (sub x h)⟩

theorem card_unseen_cons_lt {seen : List BlockId} (hb : b < size) (free : b ∉ seen) :
    (unseen size (b :: seen)).card < (unseen size seen).card := by
  apply Finset.card_lt_card
  refine ⟨unseen_subset fun x hx => List.mem_cons_of_mem b hx, fun hsub => ?_⟩
  have hmem : b ∈ unseen size seen := by
    simp only [unseen, Finset.mem_filter, Finset.mem_range]
    exact ⟨hb, free⟩
  have hmem' := hsub hmem
  simp only [unseen, Finset.mem_filter] at hmem'
  exact hmem'.2 List.mem_cons_self

def Ahead (next : BlockId → List BlockId) (order : List BlockId) (a b : BlockId) : Prop :=
  b ∈ next a ∧ [a, b].Sublist order

theorem Ahead.mono {order more : List BlockId}
    (hsub : order.Sublist more) (h : Relation.ReflTransGen (Ahead next order) a b) :
    Relation.ReflTransGen (Ahead next more) a b :=
  h.lift id fun _ _ hstep => ⟨hstep.1, hstep.2.trans hsub⟩

/-- What a walk from `starts` adds to `w`: the blocks `added`, in front of the order. -/
structure Adds (next : BlockId → List BlockId) (starts : List BlockId) (w w' : Walk)
    (added : List BlockId) : Prop where
  order_eq : w'.order = added ++ w.order
  mem_seen : ∀ x, x ∈ w'.seen ↔ x ∈ added ∨ x ∈ w.seen
  fresh : ∀ x ∈ added, x ∉ w.seen
  nodup : added.Nodup
  closed : ∀ x ∈ added, ∀ y ∈ next x, y ∈ w'.seen
  started : ∀ b ∈ starts, b ∈ w'.seen
  sound : ∀ x ∈ added, ∃ b ∈ starts, WayTo next w.seen b x
  /-- A block stands before another one only if there is a way to it that avoids the other. -/
  ordered : added.Pairwise fun x y => ∃ b ∈ starts, WayTo next (y :: w.seen) b x
  /-- A start that has been added leads to each block along edges that go ahead. -/
  climbs : ∀ x ∈ added, ∃ b ∈ starts, b ∈ added ∧ Relation.ReflTransGen (Ahead next added) b x
  /-- Where an edge does not go ahead, edges that do lead back from its end to its source. -/
  returns : ∀ x ∈ added, ∀ y ∈ added, y ∈ next x →
    [x, y].Sublist added ∨ Relation.ReflTransGen (Ahead next added) y x

variable {next : BlockId → List BlockId} {size : Nat}

theorem Adds.seen (h : ∀ b ∈ starts, b ∈ w.seen) : Adds next starts w w [] where
  order_eq := rfl
  mem_seen := by simp
  fresh := by simp
  nodup := List.nodup_nil
  closed := by simp
  started := h
  sound := by simp
  ordered := .nil
  climbs := by simp
  returns := by simp

theorem Adds.trans {later : List BlockId} {w0 w1 w2 : Walk} {added1 added2 : List BlockId}
    (h1 : Adds next starts w0 w1 added1) (h2 : Adds next later w1 w2 added2) :
    Adds next (starts ++ later) w0 w2 (added2 ++ added1) where
  order_eq := by rw [h2.order_eq, h1.order_eq, List.append_assoc]
  mem_seen := by
    intro x
    rw [h2.mem_seen, h1.mem_seen, List.mem_append, or_assoc]
  fresh := by
    intro x hx
    rcases List.mem_append.1 hx with hx | hx
    · exact fun h => h2.fresh x hx ((h1.mem_seen x).2 (.inr h))
    · exact h1.fresh x hx
  nodup := by
    refine List.nodup_append.2 ⟨h2.nodup, h1.nodup, ?_⟩
    rintro x hx2 y hx1 rfl
    exact h2.fresh x hx2 ((h1.mem_seen x).2 (.inl hx1))
  closed := by
    intro x hx y hy
    rcases List.mem_append.1 hx with hx | hx
    · exact h2.closed x hx y hy
    · exact (h2.mem_seen y).2 (.inr (h1.closed x hx y hy))
  started := by
    intro b hb
    rcases List.mem_append.1 hb with hb | hb
    · exact (h2.mem_seen b).2 (.inr (h1.started b hb))
    · exact h2.started b hb
  sound := by
    intro x hx
    rcases List.mem_append.1 hx with hx | hx
    · obtain ⟨b, hb, hway⟩ := h2.sound x hx
      exact ⟨b, List.mem_append_right _ hb,
        hway.mono fun y hy => (h1.mem_seen y).2 (.inr hy)⟩
    · obtain ⟨b, hb, hway⟩ := h1.sound x hx
      exact ⟨b, List.mem_append_left _ hb, hway⟩
  ordered := by
    have hseen : ∀ x ∈ w0.seen, x ∈ w1.seen := fun x hx => (h1.mem_seen x).2 (.inr hx)
    refine List.pairwise_append.2 ⟨h2.ordered.imp ?_, h1.ordered.imp ?_, fun x hx y hy => ?_⟩
    · rintro x y ⟨b, hb, hway⟩
      exact ⟨b, List.mem_append_right _ hb, hway.mono (List.cons_subset_cons y hseen)⟩
    · rintro x y ⟨b, hb, hway⟩
      exact ⟨b, List.mem_append_left _ hb, hway⟩
    · -- What is found later is found on a way around everything found before.
      obtain ⟨b, hb, hway⟩ := h2.sound x hx
      refine ⟨b, List.mem_append_right _ hb, hway.mono fun z hz => ?_⟩
      rcases List.mem_cons.1 hz with rfl | hz
      · exact (h1.mem_seen z).2 (.inl hy)
      · exact hseen z hz
  climbs := by
    intro x hx
    rcases List.mem_append.1 hx with hx | hx
    · obtain ⟨b, hb, hadded, hclimb⟩ := h2.climbs x hx
      exact ⟨b, List.mem_append_right _ hb, List.mem_append_left _ hadded,
        Ahead.mono (List.sublist_append_left _ _) hclimb⟩
    · obtain ⟨b, hb, hadded, hclimb⟩ := h1.climbs x hx
      exact ⟨b, List.mem_append_left _ hb, List.mem_append_right _ hadded,
        Ahead.mono (List.sublist_append_right _ _) hclimb⟩
  returns := by
    intro x hx y hy hedge
    rcases List.mem_append.1 hx with hx | hx <;> rcases List.mem_append.1 hy with hy | hy
    · have hsub := List.sublist_append_left added2 added1
      exact (h2.returns x hx y hy hedge).imp (·.trans hsub) (Ahead.mono hsub)
    · exact .inl ((List.singleton_sublist.2 hx).append (List.singleton_sublist.2 hy))
    · -- What a block leads to has been seen by the time that the block is added.
      exact absurd (h1.closed x hx y hedge) (h2.fresh y hy)
    · have hsub := List.sublist_append_right added2 added1
      exact (h1.returns x hx y hy hedge).imp (·.trans hsub) (Ahead.mono hsub)

theorem Adds.behind {w' : Walk} {added : List BlockId} (hseen : b ∉ w.seen)
    (h : Adds next (next b) { w with seen := b :: w.seen } w' added) :
    Adds next [b] w { w' with order := b :: w'.order } (b :: added) := by
  have hnot : ∀ y ∈ added, b ∉ y :: w.seen := by
    intro y hy hb
    rcases List.mem_cons.1 hb with rfl | hb
    · exact h.fresh _ hy List.mem_cons_self
    · exact hseen hb
  have hclimb : ∀ x ∈ b :: added, Relation.ReflTransGen (Ahead next (b :: added)) b x := by
    intro x hx
    rcases List.mem_cons.1 hx with rfl | hx
    · exact .refl
    · obtain ⟨c, hc, hadded, hrest⟩ := h.climbs x hx
      exact .head ⟨hc, (List.singleton_sublist.2 hadded).cons_cons b⟩
        (Ahead.mono (List.sublist_cons_self b added) hrest)
  refine ⟨?_, ?_, ?_, ?_, ?_, ?_, ?_, ?_, ?_, ?_⟩
  · exact congrArg (b :: ·) h.order_eq
  · intro x
    refine (h.mem_seen x).trans ?_
    simp only [List.mem_cons]
    tauto
  · intro x hx
    rcases List.mem_cons.1 hx with rfl | hx
    · exact hseen
    · exact fun hx' => h.fresh x hx (List.mem_cons_of_mem b hx')
  · exact List.nodup_cons.2 ⟨fun hb => h.fresh b hb List.mem_cons_self, h.nodup⟩
  · intro x hx y hy
    rcases List.mem_cons.1 hx with rfl | hx
    · exact h.started y hy
    · exact h.closed x hx y hy
  · intro x hx
    rw [List.mem_singleton.1 hx]
    exact (h.mem_seen b).2 (.inr List.mem_cons_self)
  · intro x hx
    refine ⟨b, List.mem_singleton_self b, ?_⟩
    rcases List.mem_cons.1 hx with rfl | hx
    · exact .refl hseen
    · obtain ⟨c, hc, hway⟩ := h.sound x hx
      exact .step hseen hc (hway.mono fun y hy => List.mem_cons_of_mem b hy)
  · refine List.pairwise_cons.2 ⟨fun y hy => ?_, h.ordered.imp_of_mem ?_⟩
    · exact ⟨b, List.mem_singleton_self b, .refl (hnot y hy)⟩
    · rintro x y - hy ⟨c, hc, hway⟩
      refine ⟨b, List.mem_singleton_self b, .step (hnot y hy) hc (hway.mono ?_)⟩
      exact List.cons_subset_cons y fun z hz => List.mem_cons_of_mem b hz
  · exact fun x hx => ⟨b, List.mem_singleton_self b, List.mem_cons_self, hclimb x hx⟩
  · intro x hx y hy hedge
    rcases List.mem_cons.1 hy with rfl | hbehind
    · exact .inr (hclimb x hx)
    · rcases List.mem_cons.1 hx with rfl | hx
      · exact .inl ((List.singleton_sublist.2 hbehind).cons_cons x)
      · have hsub := List.sublist_cons_self b added
        exact (h.returns x hx y hbehind hedge).imp (·.trans hsub) (Ahead.mono hsub)

theorem exists_adds_visitAll {fuel : Nat}
    (hvisit : ∀ b w, (unseen size w.seen).card < fuel →
      ∃ added, Adds next [b] w (visit next fuel b w) added)
    (starts : List BlockId) (w : Walk) (hfuel : (unseen size w.seen).card < fuel) :
    ∃ added, Adds next starts w (visitAll next fuel starts w) added := by
  induction starts generalizing w with
  | nil => exact ⟨[], .seen (by simp)⟩
  | cons b rest ih =>
    obtain ⟨added1, h1⟩ := hvisit b w hfuel
    have hless : (unseen size (visit next fuel b w).seen).card < fuel :=
      lt_of_le_of_lt
        (Finset.card_le_card (unseen_subset fun x hx => (h1.mem_seen x).2 (.inr hx))) hfuel
    obtain ⟨added2, h2⟩ := ih (visit next fuel b w) hless
    exact ⟨_, h1.trans h2⟩

/-- A visit with fuel for all unseen blocks is complete. Only blocks below `size` lead on. -/
theorem exists_adds_visit (hsize : ∀ b, next b ≠ [] → b < size) (fuel : Nat) (b : BlockId)
    (w : Walk) (hfuel : (unseen size w.seen).card < fuel) :
    ∃ added, Adds next [b] w (visit next fuel b w) added := by
  induction fuel generalizing b w with
  | zero => omega
  | succ fuel ih =>
    rw [visit]
    by_cases hseen : b ∈ w.seen
    · rw [if_pos hseen]
      exact ⟨[], .seen (List.forall_mem_singleton.2 hseen)⟩
    · rw [if_neg hseen]
      set w1 : Walk := { w with seen := b :: w.seen } with hw1
      -- Behind a block that leads on, one block fewer is unseen.
      have hbehind : ∃ added, Adds next (next b) w1 (visitAll next fuel (next b) w1) added := by
        by_cases hempty : next b = []
        · rw [hempty]
          exact ⟨[], .seen (by simp)⟩
        · refine exists_adds_visitAll (fun c w' => ih c w') (next b) w1 ?_
          have hless := card_unseen_cons_lt (hsize b hempty) hseen
          exact lt_of_lt_of_le hless (Nat.le_of_lt_succ hfuel)
      obtain ⟨added, h⟩ := hbehind
      exact ⟨b :: added, h.behind hseen⟩

theorem card_unseen_lt (size : Nat) (seen : List BlockId) : (unseen size seen).card < size + 1 := by
  have h := Finset.card_filter_le (Finset.range size) (· ∉ seen)
  rw [Finset.card_range] at h
  exact Nat.lt_succ_of_le h

end Walk

section

variable (hsize : ∀ b, next b ≠ [] → b < size)

include hsize

theorem mem_order_visitAll (starts avoided : List BlockId) (b : BlockId) :
    b ∈ (Walk.visitAll next (size + 1) starts { seen := avoided }).order ↔
      ∃ a ∈ starts, WayTo next avoided a b := by
  obtain ⟨added, h⟩ :=
    Walk.exists_adds_visitAll (fun b w => Walk.exists_adds_visit hsize (size + 1) b w)
    starts { seen := avoided } (Walk.card_unseen_lt size avoided)
  have horder : (Walk.visitAll next (size + 1) starts { seen := avoided }).order = added := by
    rw [h.order_eq]
    exact List.append_nil added
  rw [horder]
  constructor
  · exact h.sound b
  · rintro ⟨a, ha, hway⟩
    have hstart : a ∈ added := ((h.mem_seen a).1 (h.started a ha)).resolve_right hway.start_free
    refine hway.mem_of_closed hstart fun x hx y hy hfree => ?_
    exact ((h.mem_seen y).1 (h.closed x hx y hy)).resolve_right hfree

theorem mem_reachableAvoiding (entry : BlockId) (avoided : List BlockId) (b : BlockId) :
    b ∈ reachableAvoiding size next entry avoided ↔ WayTo next avoided entry b := by
  have h := mem_order_visitAll hsize [entry] avoided b
  simp only [List.mem_singleton, exists_eq_left] at h
  exact h

theorem mem_reversePostorder (entry b : BlockId) :
    b ∈ reversePostorder size next entry ↔ WayTo next [] entry b :=
  mem_reachableAvoiding hsize entry [] b

theorem adds_reversePostorder (entry : BlockId) :
    Walk.Adds next [entry] {} (Walk.visit next (size + 1) entry {})
      (reversePostorder size next entry) := by
  obtain ⟨added, h⟩ :=
    Walk.exists_adds_visit hsize (size + 1) entry {} (Walk.card_unseen_lt size [])
  have horder : reversePostorder size next entry = added := by
    rw [reversePostorder, h.order_eq]
    exact List.append_nil added
  rwa [horder]

theorem pairwise_reversePostorder (entry : BlockId) :
    (reversePostorder size next entry).Nodup ∧
      (reversePostorder size next entry).Pairwise fun x y => WayTo next [y] entry x := by
  have h := adds_reversePostorder hsize entry
  refine ⟨h.nodup, h.ordered.imp ?_⟩
  rintro x y ⟨b, hb, hway⟩
  rw [List.mem_singleton.1 hb] at hway
  exact hway

theorem returns_reversePostorder {entry : BlockId} (ha : a ∈ reversePostorder size next entry)
    (hedge : b ∈ next a) :
    [a, b].Sublist (reversePostorder size next entry) ∨
      Relation.ReflTransGen (Walk.Ahead next (reversePostorder size next entry)) b a := by
  have hb : b ∈ reversePostorder size next entry := by
    rw [mem_reversePostorder hsize] at ha ⊢
    exact ha.tail hedge List.not_mem_nil
  exact (adds_reversePostorder hsize entry).returns a ha b hb hedge

end

namespace Graph

variable {g : Graph} {b : BlockId}

theorem lt_size_of_successors_ne_nil (h : g.successors b ≠ []) : b < g.size := by
  by_contra hb
  apply h
  have hdefault : g.block b = default := by
    simp only [block, Array.getD]
    rw [dif_neg]
    exact hb
  rw [successors, hdefault]
  rfl

theorem lt_size_of_successorsIn_ne_nil (h : g.successorsIn members b ≠ []) : b < g.size := by
  apply lt_size_of_successors_ne_nil
  intro hnil
  apply h
  rw [successorsIn, hnil]
  rfl

theorem mem_successorsIn {t : BlockId} :
    t ∈ g.successorsIn members b ↔ t ∈ g.successors b ∧ t ∈ members := by
  simp [successorsIn]

end Graph

theorem WayTo.mem_members {g : Graph} {avoided : List BlockId}
    (h : WayTo (g.successorsIn members) avoided a b) (ha : a ∈ members) : b ∈ members :=
  h.mem_of_closed (s := (· ∈ members)) ha fun _ _ _ hy _ => (Graph.mem_successorsIn.1 hy).2

end Lift6502
