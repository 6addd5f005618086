import Lift6502.Proofs.Flow.Dominance
import Lift6502.Proofs.Routine.Closure

/-!
# Natural loops

The body of a loop is the header and the reachable blocks from which there is a way to a latch
around the header. Control enters it only at the header.
-/

namespace Lift6502

namespace LoopForest

variable {g : Graph} {entry : BlockId} {members : BlockSet} {loop inner outer : NaturalLoop}
  {x y z : BlockId} {header : BlockId} {d : Dominators} {f : LoopForest}

/-- Backwards from a latch, through blocks that the header dominates. -/
def back (g : Graph) (d : Dominators) (header b : BlockId) : List BlockId :=
  (g.predecessors b).toList.filter fun p => d.dominates header p

theorem mem_body_iff_back (h : loop ∈ (ofGraph g d).loops) : x ∈ loop.body ↔ x = loop.header ∨
      ∃ latch ∈ loop.latches, WayTo (back g d loop.header) [loop.header] latch x := by
  have hsize : ∀ b, back g d loop.header b ≠ [] → b < g.size := by
    intro b hb
    by_contra hlt
    apply hb
    rw [back, Graph.predecessors, Graph.block_eq_default hlt]
    rfl
  have hbody : loop.body = BlockSet.ofList (loop.header ::
      (Walk.visitAll (back g d loop.header) (g.size + 1) loop.latches.toList
        { seen := [loop.header] }).order) := by
    conv_lhs => rw [(mem_ofGraph h).2]
    conv_rhs => rw [(mem_ofGraph h).2]
    rfl
  rw [hbody, BlockSet.mem_ofList, List.mem_cons, mem_order_visitAll hsize]
  rfl

section Body

variable (hg : g.verify = .ok ()) (hentry : entry ∈ members)
  (h : loop ∈ (ofGraph g (Dominators.ofGraph g entry members)).loops)

include h in
theorem header_reached : WayTo (g.successorsIn members) [] entry loop.header :=
  Dominators.mem_order.1 (mem_ofGraph h).1

include hentry h in
theorem latch_spec (hx : x ∈ loop.latches) :
    Dominates (g.successorsIn members) entry loop.header x ∧
      loop.header ∈ g.successorsIn members x := by
  have hlatch := hx
  rw [(mem_ofGraph h).2] at hlatch
  obtain ⟨-, hedge, hdom⟩ := mem_latchesOf.1 hlatch
  exact ⟨Dominators.dominates_iff.1 hdom,
    Graph.mem_successorsIn.2 ⟨hedge, (header_reached h).mem_members hentry⟩⟩

include hg hentry in
theorem way_of_back {latch : BlockId}
    (hlatch : Dominates (g.successorsIn members) entry header latch)
    (hway : WayTo (back g (Dominators.ofGraph g entry members) header) [header] latch x) :
    Dominates (g.successorsIn members) entry header x ∧
      WayTo (g.successorsIn members) [header] x latch := by
  induction hway with
  | refl free => exact ⟨hlatch, .refl free⟩
  | @step latch b x free edge rest ih =>
    obtain ⟨hpred, hdom⟩ := List.mem_filter.1 edge
    obtain ⟨hx, hforward⟩ := ih (Dominators.dominates_iff.1 hdom)
    have hedge : latch ∈ g.successorsIn members b :=
      Graph.mem_successorsIn.2 ⟨(Graph.mem_predecessors_iff hg).1 hpred,
        hlatch.1.mem_members hentry⟩
    exact ⟨hx, hforward.tail hedge free⟩

include hg in
theorem back_of_way {header latch : BlockId}
    (hlatch : Dominates (g.successorsIn members) entry header latch)
    (hx : WayTo (g.successorsIn members) [] entry x)
    (hway : WayTo (g.successorsIn members) [header] x latch) :
    WayTo (back g (Dominators.ofGraph g entry members) header) [header] latch x := by
  induction hway with
  | refl free => exact .refl free
  | @step x b latch free edge rest ih =>
    have hb : WayTo (g.successorsIn members) [] entry b := hx.tail edge (by simp)
    -- A way to this block around the header would go on to the latch.
    have hdom : Dominates (g.successorsIn members) entry header x :=
      ⟨hx, fun hto => hlatch.2 (hto.trans (.step free edge rest))⟩
    have hpred : x ∈ back g (Dominators.ofGraph g entry members) header b :=
      List.mem_filter.2 ⟨(Graph.mem_predecessors_iff hg).2 (Graph.mem_successorsIn.1 edge).1,
        Dominators.dominates_iff.2 hdom⟩
    exact (ih hlatch hb).tail hpred free

include hg hentry h in
theorem mem_body : x ∈ loop.body ↔ x = loop.header ∨ WayTo (g.successorsIn members) [] entry x ∧
      ∃ latch ∈ loop.latches, WayTo (g.successorsIn members) [loop.header] x latch := by
  rw [mem_body_iff_back h]
  refine or_congr_right ⟨?_, ?_⟩
  · rintro ⟨latch, hlatch, hway⟩
    obtain ⟨hx, hforward⟩ := way_of_back hg hentry (latch_spec hentry h hlatch).1 hway
    exact ⟨hx.1, latch, hlatch, hforward⟩
  · rintro ⟨hx, latch, hlatch, hway⟩
    exact ⟨latch, hlatch, back_of_way hg (latch_spec hentry h hlatch).1 hx hway⟩

include hg hentry h in
theorem dominates_of_mem_body (hx : x ∈ loop.body) :
    Dominates (g.successorsIn members) entry loop.header x := by
  rcases (mem_body hg hentry h).1 hx with rfl | ⟨hreach, latch, hlatch, hway⟩
  · exact .refl (header_reached h)
  · exact ⟨hreach, fun hto => (latch_spec hentry h hlatch).1.2 (hto.trans hway)⟩

include hg hentry h in
theorem mem_body_of_way (hx : WayTo (g.successorsIn members) [] entry x)
    (hway : WayTo (g.successorsIn members) [loop.header] x y) (hy : y ∈ loop.body) :
    x ∈ loop.body := by
  rcases (mem_body hg hentry h).1 hy with rfl | ⟨-, latch, hlatch, hrest⟩
  · exact absurd (List.mem_singleton_self _) hway.end_free
  · exact (mem_body hg hentry h).2 (.inr ⟨hx, latch, hlatch, hway.trans hrest⟩)

include hg hentry h in
theorem body_induction {s : BlockId → Prop} (hheader : s loop.header)
    (hstep : ∀ u v, u ∈ loop.body → s u → v ∈ g.successorsIn members u → v ∈ loop.body →
      v ≠ loop.header → s v) (hx : x ∈ loop.body) : s x := by
  have hin : ∀ c, WayTo (g.successorsIn members) [] entry c →
      WayTo (g.successorsIn members) [loop.header] c x → c ∈ loop.body :=
    fun c hc hway => mem_body_of_way hg hentry h hc hway hx
  have hwalk : ∀ c, WayTo (g.successorsIn members) [loop.header] c x →
      WayTo (g.successorsIn members) [] entry c → s c → s x := by
    intro c hway
    induction hway with
    | refl _ => exact fun _ hc => hc
    | @step c d x free edge rest ih =>
      intro hreach hc
      have hd : WayTo (g.successorsIn members) [] entry d := hreach.tail edge (by simp)
      refine ih hx hin hd (hstep c d (hin c hreach (.step free edge rest)) hc edge
        (hin d hd rest) ?_)
      exact fun heq => rest.start_free (by simp [heq])
  rcases (dominates_of_mem_body hg hentry h hx).eq_or_last with rfl | ⟨c, hedge, hway⟩
  · exact hheader
  · have hc : WayTo (g.successorsIn members) [] entry c := (header_reached h).tail hedge (by simp)
    refine hwalk c hway hc (hstep _ c (header_mem_body h) hheader hedge (hin c hc hway) ?_)
    exact fun heq => hway.start_free (by simp [heq])

include hg hentry h in
theorem way_around (hx : x ∈ loop.body) (hy : y ∉ loop.body) :
    WayTo (g.successorsIn members) [y] loop.header x := by
  have hne : ∀ u ∈ loop.body, u ∉ [y] := by
    rintro u hu huy
    rw [List.mem_singleton.1 huy] at hu
    exact hy hu
  refine body_induction hg hentry h (s := fun z => WayTo (g.successorsIn members) [y] loop.header z)
    (.refl (hne _ (header_mem_body h))) (fun u v _ hto hedge hv _ => ?_) hx
  exact hto.tail hedge (hne v hv)

end Body

/-! ## Loops in loops -/

section Nesting

variable (hg : g.verify = .ok ()) (hentry : entry ∈ members)
  (hinner : inner ∈ (ofGraph g (Dominators.ofGraph g entry members)).loops)
  (houter : outer ∈ (ofGraph g (Dominators.ofGraph g entry members)).loops)
  (hin : inner.header ∈ outer.body) (hne : inner.header ≠ outer.header)

include hg hentry hinner houter hin hne in
theorem header_not_mem_inner : outer.header ∉ inner.body := by
  intro hmem
  have hdown := dominates_of_mem_body hg hentry houter hin
  have hup := dominates_of_mem_body hg hentry hinner hmem
  exact hne (hup.antisymm hdown)

include hg hentry hinner houter hin hne in
theorem body_subset (hx : x ∈ inner.body) : x ∈ outer.body := by
  have houtside := header_not_mem_inner hg hentry hinner houter hin hne
  rcases (mem_body hg hentry hinner).1 hx with rfl | ⟨hreach, latch, hlatch, hway⟩
  · exact hin
  · -- The way to the latch and back to the inner header stays clear of the outer header.
    have hclear : WayTo (g.successorsIn members) [outer.header] x latch := by
      rcases hway.avoids_or_cut outer.header with havoid | ⟨-, hfrom⟩
      · exact havoid.mono (by simp)
      · refine absurd ((mem_body hg hentry hinner).2
          (.inr ⟨header_reached houter, latch, hlatch, ?_⟩)) houtside
        exact hfrom
    have hback := hclear.tail (latch_spec hentry hinner hlatch).2 (by simpa using hne)
    exact mem_body_of_way hg hentry houter hreach hback hin

end Nesting

/-! ## Looking loops up -/

theorem get?_eq_some (h : f.get? header = some loop) : loop ∈ f.loops ∧ loop.header = header :=
  ⟨List.mem_of_find?_eq_some h, by simpa using List.find?_some h⟩

theorem eq_of_header_eq (hinner : inner ∈ (ofGraph g d).loops)
    (houter : outer ∈ (ofGraph g d).loops) (heq : inner.header = outer.header) : inner = outer := by
  rw [(mem_ofGraph hinner).2, (mem_ofGraph houter).2, heq]

theorem nodup_headers (g : Graph) (d : Dominators) :
    ((ofGraph g d).loops.map (·.header)).Nodup := by
  rw [List.Nodup, List.pairwise_map, ofGraph, List.pairwise_filterMap]
  refine (BlockSet.ofList d.order).ascending.imp fun {a b} hlt outer houter inner hinner heq => ?_
  simp only [Option.ite_none_left_eq_some, Option.some.injEq] at houter hinner
  obtain ⟨-, rfl⟩ := houter
  obtain ⟨-, rfl⟩ := hinner
  exact Nat.ne_of_lt hlt heq

def smaller : Option NaturalLoop → NaturalLoop → Option NaturalLoop
  | some best, l => if l.body.size < best.body.size then some l else some best
  | none, l => some l

theorem exists_smaller (start : Option NaturalLoop) (l : NaturalLoop) :
    ∃ best, smaller start l = some best ∧ (best = l ∨ start = some best) ∧
      best.body.size ≤ l.body.size ∧ ∀ k, start = some k → best.body.size ≤ k.body.size := by
  cases start with
  | none => exact ⟨l, rfl, .inl rfl, Nat.le_refl _, by simp⟩
  | some k =>
    by_cases hless : l.body.size < k.body.size
    · refine ⟨l, if_pos hless, .inl rfl, Nat.le_refl _, fun j hj => ?_⟩
      cases hj
      exact Nat.le_of_lt hless
    · refine ⟨k, if_neg hless, .inr rfl, Nat.le_of_not_lt hless, fun j hj => ?_⟩
      cases hj
      exact Nat.le_refl _

theorem foldl_smaller (ls : List NaturalLoop) (start : Option NaturalLoop) (l : NaturalLoop) :
    ∃ best, (l :: ls).foldl smaller start = some best ∧ (best ∈ l :: ls ∨ start = some best) ∧
      (∀ k ∈ l :: ls, best.body.size ≤ k.body.size) ∧
      ∀ k, start = some k → best.body.size ≤ k.body.size := by
  induction ls generalizing start l with
  | nil =>
    obtain ⟨best, hbest, hfrom, hle, hstart⟩ := exists_smaller start l
    refine ⟨best, hbest, hfrom.imp_left (by simp), ?_, hstart⟩
    intro k hk
    rw [List.mem_singleton.1 hk]
    exact hle
  | cons next rest ih =>
    obtain ⟨first, hfirst, hfrom, hle, hstart⟩ := exists_smaller start l
    obtain ⟨best, hbest, hmem, hrest, hsmaller⟩ := ih (smaller start l) next
    have hbelow : best.body.size ≤ first.body.size := hsmaller first hfirst
    refine ⟨best, hbest, ?_, ?_, fun k hk => Nat.le_trans hbelow (hstart k hk)⟩
    · rcases hmem with hmem | heq
      · exact .inl (List.mem_cons_of_mem l hmem)
      · rw [hfirst] at heq
        cases heq
        exact hfrom.imp_left (by rintro rfl; exact List.mem_cons_self)
    · intro k hk
      rcases List.mem_cons.1 hk with rfl | hk
      · exact Nat.le_trans hbelow hle
      · exact hrest k hk

theorem innermost?_eq (f : LoopForest) (b : BlockId) :
    f.innermost? b = (f.loops.filter (·.contains b)).foldl smaller none := by
  unfold innermost?
  congr 1
  funext best l
  cases best <;> rfl

theorem innermost?_cases (f : LoopForest) (b : BlockId) :
    (f.innermost? b = none ∧ ∀ l ∈ f.loops, b ∉ l.body) ∨
      ∃ best, f.innermost? b = some best ∧ best ∈ f.loops ∧ b ∈ best.body ∧
        ∀ l ∈ f.loops, b ∈ l.body → best.body.size ≤ l.body.size := by
  have haround : ∀ l, l ∈ f.loops.filter (·.contains b) ↔ l ∈ f.loops ∧ b ∈ l.body := by
    intro l
    rw [List.mem_filter, NaturalLoop.contains, BlockSet.contains_iff]
  rw [innermost?_eq]
  generalize f.loops.filter (·.contains b) = around at haround ⊢
  cases around with
  | nil => exact .inl ⟨rfl, fun l hl hb => List.not_mem_nil ((haround l).2 ⟨hl, hb⟩)⟩
  | cons first rest =>
    obtain ⟨best, hbest, hmem, hleast, -⟩ := foldl_smaller rest none first
    obtain ⟨hloop, hb⟩ := (haround best).1 (hmem.resolve_right (by simp))
    exact .inr ⟨best, hbest, hloop, hb, fun l hl hbl => hleast l ((haround l).2 ⟨hl, hbl⟩)⟩

theorem of_innermost? (h : f.innermost? x = some inner) : inner ∈ f.loops ∧ x ∈ inner.body ∧
      ∀ outer ∈ f.loops, x ∈ outer.body → inner.body.size ≤ outer.body.size := by
  rcases innermost?_cases f x with ⟨hnone, -⟩ | ⟨best, hbest, hspec⟩
  · rw [hnone] at h
    cases h
  · rw [hbest] at h
    cases h
    exact hspec

end LoopForest

end Lift6502
