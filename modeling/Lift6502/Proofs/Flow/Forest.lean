import Lift6502.Proofs.Flow.Loops

/-!
# The loops of a graph

The loops that are found are the natural loops, told by paths. The loops around a block are a chain,
of which the smallest lies in all the others.
-/

namespace Lift6502

theorem BlockSet.isEmpty_iff {s : BlockSet} : s.isEmpty = true ↔ ¬ ∃ b, b ∈ s := by
  rw [isEmpty, List.isEmpty_iff, List.eq_nil_iff_forall_not_mem, not_exists]
  rfl

/-- An edge back to a block that is on every path to its source. -/
structure Graph.BackEdge (g : Graph) (entry : BlockId) (members : BlockSet) (p h : BlockId) :
    Prop where
  reached : ∃ blocks, g.Path members entry p blocks
  edge : h ∈ g.successors p
  dominated : ∀ blocks, g.Path members entry p blocks → h ∈ blocks

structure NaturalLoop.IsNatural (l : NaturalLoop) (g : Graph) (entry : BlockId)
    (members : BlockSet) : Prop where
  backEdges : ∀ p h, (p, h) ∈ l.backEdges ↔ h = l.header ∧ g.BackEdge entry members p h
  /-- The body is the header and what reaches the source of such an edge around the header. -/
  body : ∀ b, b ∈ l.body ↔ b = l.header ∨ (∃ blocks, g.Path members entry b blocks) ∧
    ∃ p blocks, g.BackEdge entry members p l.header ∧ g.Path members b p blocks ∧ l.header ∉ blocks
  /-- Every path to the body passes through the header. -/
  dominated : ∀ b ∈ l.body, (∃ blocks, g.Path members entry b blocks) ∧
    ∀ blocks, g.Path members entry b blocks → l.header ∈ blocks
  exits : ∀ t, t ∈ l.exits ↔ t ∉ l.body ∧ ∃ b ∈ l.body, t ∈ g.successors b
  /-- From outside, edges lead into the body at the header only. -/
  entered : ∀ u, (∃ blocks, g.Path members entry u blocks) → u ∉ l.body →
    ∀ v ∈ l.body, v ∈ g.successors u → v = l.header

/-- The body of a loop lies in that of another one, which has more blocks. -/
def NaturalLoop.Inside (l k : NaturalLoop) : Prop :=
  (∀ b ∈ l.body, b ∈ k.body) ∧ ∃ b ∈ k.body, b ∉ l.body

theorem NaturalLoop.Inside.size_lt {l k : NaturalLoop} (h : l.Inside k) :
    l.body.size < k.body.size := by
  obtain ⟨hsub, b, hb, hnot⟩ := h
  exact BlockSet.size_lt_size hsub hb hnot

namespace LoopForest

variable {g : Graph} {entry : BlockId} {members : BlockSet} {l k inner outer : NaturalLoop}
  {b h p t x : BlockId} {d : Dominators}

/-! ## Natural loops -/

theorem backEdge_iff : g.BackEdge entry members p h ↔
    h ∈ g.successors p ∧ Dominates (g.successorsIn members) entry h p := by
  rw [Dominates.iff_forall_path]
  constructor
  · intro hback
    exact ⟨hback.edge, hback.reached, hback.dominated⟩
  · rintro ⟨hedge, hreached, hdominated⟩
    exact ⟨hreached, hedge, hdominated⟩

theorem mem_latchesOf_iff : p ∈ latchesOf g (Dominators.ofGraph g entry members) h ↔
    g.BackEdge entry members p h := by
  rw [mem_latchesOf, backEdge_iff, Dominators.dominates_iff, Dominators.mem_order]
  constructor
  · exact And.right
  · intro hback
    exact ⟨hback.2.1, hback⟩

theorem mem_loops_iff : l ∈ (ofGraph g d).loops ↔
    ∃ header ∈ d.order, (∃ p, p ∈ latchesOf g d header) ∧
      l = NaturalLoop.ofLatches g d header (latchesOf g d header) := by
  simp only [ofGraph, List.mem_filterMap, ← BlockSet.mem_iff, BlockSet.mem_ofList,
    Option.ite_none_left_eq_some, Option.some.injEq, BlockSet.isEmpty_iff, not_not, @eq_comm _ l]

theorem exists_loop_iff : (∃ l ∈ (ofGraph g (Dominators.ofGraph g entry members)).loops,
    l.header = h) ↔ ∃ p, g.BackEdge entry members p h := by
  simp only [mem_loops_iff, mem_latchesOf_iff]
  constructor
  · rintro ⟨l, ⟨header, -, hback, rfl⟩, rfl⟩
    exact hback
  · rintro ⟨p, hback⟩
    have hheader : h ∈ (Dominators.ofGraph g entry members).order :=
      Dominators.mem_order.2 (backEdge_iff.1 hback).2.reached
    exact ⟨_, ⟨h, hheader, ⟨p, hback⟩, rfl⟩, rfl⟩

section

variable (hg : g.verify = .ok ()) (hentry : entry ∈ members)
  (hl : l ∈ (ofGraph g (Dominators.ofGraph g entry members)).loops)

include hl in
theorem mem_latches_iff : p ∈ l.latches ↔ g.BackEdge entry members p l.header := by
  rw [← mem_latchesOf_iff]
  conv_lhs => rw [(mem_ofGraph hl).2]
  rfl

include hl in
theorem mem_backEdges_iff : (p, h) ∈ l.backEdges ↔ h = l.header ∧ g.BackEdge entry members p h := by
  have hpair : (p, h) ∈ l.backEdges ↔ p ∈ l.latches ∧ l.header = h := by
    simp [NaturalLoop.backEdges, BlockSet.mem_iff]
  rw [hpair, mem_latches_iff hl]
  constructor
  · rintro ⟨hback, rfl⟩
    exact ⟨rfl, hback⟩
  · rintro ⟨rfl, hback⟩
    exact ⟨hback, rfl⟩

theorem mem_exits (hl : l ∈ (ofGraph g d).loops) :
    t ∈ l.exits ↔ t ∉ l.body ∧ ∃ b ∈ l.body, t ∈ g.successors b := by
  have hexits : l.exits = BlockSet.ofList ((NaturalLoop.edgesOut g l.body).map (·.2)) := by
    conv_lhs => rw [(mem_ofGraph hl).2]
    conv_rhs => rw [(mem_ofGraph hl).2]
    rfl
  rw [hexits, BlockSet.mem_ofList]
  simp only [NaturalLoop.edgesOut, List.mem_map, List.mem_flatMap, List.mem_filter, Prod.exists,
    Prod.mk.injEq, BlockSet.contains, Bool.not_eq_true', decide_eq_false_iff_not,
      ← BlockSet.mem_iff]
  constructor
  · rintro ⟨_, _, ⟨b, hb, s, ⟨hs, hout⟩, -, rfl⟩, rfl⟩
    exact ⟨hout, b, hb, hs⟩
  · rintro ⟨hout, b, hb, ht⟩
    exact ⟨b, t, ⟨b, hb, t, ⟨ht, hout⟩, rfl, rfl⟩, rfl⟩

include hg hentry hl in
theorem eq_header_of_edge (hx : WayTo (g.successorsIn members) [] entry x) (hout : x ∉ l.body)
    (hb : b ∈ l.body) (hedge : b ∈ g.successors x) : b = l.header := by
  by_contra hne
  have hbmember : b ∈ members := (dominates_of_mem_body hg hentry hl hb).1.mem_members hentry
  have hxheader : x ≠ l.header := by
    rintro rfl
    exact hout (header_mem_body hl)
  -- The edge would be a way into the body around the header.
  have hway : WayTo (g.successorsIn members) [l.header] x b :=
    .step (by simpa using hxheader) (Graph.mem_successorsIn.2 ⟨hedge, hbmember⟩)
      (.refl (by simpa using hne))
  exact hout (mem_body_of_way hg hentry hl hx hway hb)

include hg hentry hl in
theorem mem_body_iff_path : b ∈ l.body ↔ b = l.header ∨ (∃ blocks, g.Path members entry b blocks) ∧
    ∃ p blocks, g.BackEdge entry members p l.header ∧ g.Path members b p blocks ∧
      l.header ∉ blocks := by
  rw [mem_body hg hentry hl, WayTo.nil_iff_exists_path]
  refine or_congr_right (and_congr_right fun _ => ?_)
  constructor
  · rintro ⟨p, hp, hway⟩
    obtain ⟨blocks, hpath, hfree⟩ := hway.exists_path
    exact ⟨p, blocks, (mem_latches_iff hl).1 hp, hpath, fun hmem => hfree _ hmem (by simp)⟩
  · rintro ⟨p, blocks, hback, hpath, hfree⟩
    refine ⟨p, (mem_latches_iff hl).2 hback, WayTo.of_path hpath fun c hc hheader => ?_⟩
    rw [List.mem_singleton.1 hheader] at hc
    exact hfree hc

include hg hentry hl in
theorem isNatural : l.IsNatural g entry members where
  backEdges _ _ := mem_backEdges_iff hl
  body _ := mem_body_iff_path hg hentry hl
  dominated _ hb := Dominates.iff_forall_path.1 (dominates_of_mem_body hg hentry hl hb)
  exits _ := mem_exits hl
  entered _ hu hout _ hv hedge :=
    eq_header_of_edge hg hentry hl (WayTo.nil_iff_exists_path.2 hu) hout hv hedge

end

/-- The loops that are found are the natural loops: one for each block that some edge leads back to,
with all such edges, its body and its exits. -/
theorem finds_natural_loops (g : Graph) (entry : BlockId) (members : BlockSet)
    (hg : g.verify = .ok ()) (hentry : entry ∈ members) :
    let forest := ofGraph g (Dominators.ofGraph g entry members)
    (∀ h, (∃ l ∈ forest.loops, l.header = h) ↔ ∃ p, g.BackEdge entry members p h) ∧
      (forest.loops.map (·.header)).Nodup ∧
      ∀ l ∈ forest.loops, l.IsNatural g entry members :=
  ⟨fun _ => exists_loop_iff, nodup_headers g _, fun _ hl => isNatural hg hentry hl⟩

/-- A loop in a loop, each with two edges back to its header. The last block leads into the inner
one and is not reached. -/
def twoLatchesEach : Graph where
  blocks := #[
    { label := some "Start", offset := 0, fallThrough := some 1 },
    { label := some "Outer", offset := 2, fallThrough := some 2, branch := some 5,
      enteredFrom := .ofList [0, 2, 4] },
    { label := some "Inner", offset := 4, fallThrough := some 3, branch := some 1,
      enteredFrom := .ofList [1, 3, 4, 6] },
    { label := none, offset := 6, fallThrough := some 4, branch := some 2,
      enteredFrom := .ofList [2] },
    { label := none, offset := 8, fallThrough := some 2, branch := some 1,
      enteredFrom := .ofList [3] },
    { label := some "Done", offset := 10, enteredFrom := .ofList [1] },
    { label := none, offset := 11, branch := some 2 }]
  entry := some 0

abbrev twoLatchesEach.forest : LoopForest :=
  ofGraph twoLatchesEach (Dominators.ofGraph twoLatchesEach 0 (.range 7))

theorem finds_natural_loops_twoLatchesEach :
    (twoLatchesEach.verify = .ok () ∧ 0 ∈ BlockSet.range 7) ∧
    ∃ l ∈ twoLatchesEach.forest.loops,
      l.header = 2 ∧ l.body.toList = [2, 3, 4] ∧ l.exits.toList = [1] ∧
      l.IsNatural twoLatchesEach 0 (.range 7) := by
  have hg : twoLatchesEach.verify = .ok () := by decide +kernel
  have hentry : 0 ∈ BlockSet.range 7 := by decide
  refine ⟨⟨hg, hentry⟩, ?_⟩
  obtain ⟨-, -, hnatural⟩ := finds_natural_loops twoLatchesEach 0 (.range 7) hg hentry
  have hloop : ∃ l ∈ twoLatchesEach.forest.loops,
      l.header = 2 ∧ l.body.toList = [2, 3, 4] ∧ l.exits.toList = [1] := by decide +kernel
  obtain ⟨l, hl, hheader, hbody, hexits⟩ := hloop
  exact ⟨l, hl, hheader, hbody, hexits, hnatural l hl⟩

/-! ## Loops around a block -/

section

variable (hg : g.verify = .ok ()) (hentry : entry ∈ members)
  (hl : l ∈ (ofGraph g (Dominators.ofGraph g entry members)).loops)
  (hk : k ∈ (ofGraph g (Dominators.ofGraph g entry members)).loops)

include hg hentry hl hk in
theorem inside_of_dominates (hdom : Dominates (g.successorsIn members) entry k.header l.header)
    (hne : l.header ≠ k.header) (hbl : b ∈ l.body) (hbk : b ∈ k.body) : l.Inside k := by
  have hout : k.header ∉ l.body := fun hmem =>
    hne ((dominates_of_mem_body hg hentry hl hmem).antisymm hdom)
  -- Inside the one loop there is a way to the common block around the header of the other one.
  have hin : l.header ∈ k.body :=
    mem_body_of_way hg hentry hk (header_reached hl) (way_around hg hentry hl hbl hout) hbk
  exact ⟨fun _ hc => body_subset hg hentry hl hk hin hne hc, k.header, header_mem_body hk, hout⟩

include hg hentry hl hk in
theorem inside_or_inside (hne : l ≠ k) (hbl : b ∈ l.body) (hbk : b ∈ k.body) :
    l.Inside k ∨ k.Inside l := by
  have hheaders : l.header ≠ k.header := fun heq => hne (eq_of_header_eq hl hk heq)
  have hdoml := dominates_of_mem_body hg hentry hl hbl
  have hdomk := dominates_of_mem_body hg hentry hk hbk
  rcases hdomk.total hdoml with hdom | hdom
  · exact .inl (inside_of_dominates hg hentry hl hk hdom hheaders hbl hbk)
  · exact .inr (inside_of_dominates hg hentry hk hl hdom hheaders.symm hbk hbl)

end

theorem innermost?_eq_none_iff {f : LoopForest} :
    f.innermost? b = none ↔ ∀ l ∈ f.loops, b ∉ l.body := by
  rcases innermost?_cases f b with ⟨hnone, hfree⟩ | ⟨best, hbest, hmem, hb, -⟩
  · exact ⟨fun _ => hfree, fun _ => hnone⟩
  · rw [hbest]
    refine ⟨by simp, fun hfree => absurd hb (hfree best hmem)⟩

/-- Two loops are apart or one lies in the other one, and the innermost loop around a block is the
one that lies in all others around it. -/
theorem loops_nest (g : Graph) (entry : BlockId) (members : BlockSet) (hg : g.verify = .ok ())
    (hentry : entry ∈ members) :
    let forest := ofGraph g (Dominators.ofGraph g entry members)
    (∀ l ∈ forest.loops, ∀ k ∈ forest.loops, l ≠ k →
      (∀ b ∈ l.body, b ∉ k.body) ∨ l.Inside k ∨ k.Inside l) ∧
    ∀ b, (forest.innermost? b = none ↔ ∀ l ∈ forest.loops, b ∉ l.body) ∧
      ∀ l, forest.innermost? b = some l ↔
        l ∈ forest.loops ∧ b ∈ l.body ∧ ∀ k ∈ forest.loops, k ≠ l → b ∈ k.body → l.Inside k := by
  intro forest
  refine ⟨fun l hl k hk hne => ?_, fun b => ⟨innermost?_eq_none_iff, fun l => ?_⟩⟩
  · by_cases hshared : ∃ b ∈ l.body, b ∈ k.body
    · obtain ⟨b, hbl, hbk⟩ := hshared
      exact .inr (inside_or_inside hg hentry hl hk hne hbl hbk)
    · exact .inl fun b hbl hbk => hshared ⟨b, hbl, hbk⟩
  · constructor
    · intro hinnermost
      obtain ⟨hl, hb, hsmallest⟩ := of_innermost? hinnermost
      refine ⟨hl, hb, fun k hk hne hbk => ?_⟩
      refine (inside_or_inside hg hentry hk hl hne hbk hb).resolve_left fun hin => ?_
      exact Nat.not_lt_of_le (hsmallest k hk hbk) hin.size_lt
    · rintro ⟨hl, hb, hin⟩
      rcases innermost?_cases _ b with ⟨-, hfree⟩ | ⟨best, hbest, hmem, hbbest, hsmallest⟩
      · exact absurd hb (hfree l hl)
      · by_cases heq : best = l
        · rw [hbest, heq]
        · have hless := (hin best hmem heq hbbest).size_lt
          exact absurd (hsmallest l hl hb) (Nat.not_le_of_lt hless)

/-- The block behind the inner header lies in both loops, and the inner one lies in
the outer one. -/
theorem loops_nest_twoLatchesEach :
    (twoLatchesEach.verify = .ok () ∧ 0 ∈ BlockSet.range 7) ∧
    ∃ inner outer, twoLatchesEach.forest.loops = [outer, inner] ∧
      3 ∈ inner.body ∧ 3 ∈ outer.body ∧ inner.Inside outer := by
  have hg : twoLatchesEach.verify = .ok () := by decide +kernel
  have hentry : 0 ∈ BlockSet.range 7 := by decide
  obtain ⟨-, hinnermost⟩ := loops_nest twoLatchesEach 0 (.range 7) hg hentry
  have hloops : ∃ outer ∈ twoLatchesEach.forest.loops,
      ∃ inner ∈ twoLatchesEach.forest.loops,
        twoLatchesEach.forest.loops = [outer, inner] ∧
        outer ≠ inner ∧ 3 ∈ outer.body ∧
        twoLatchesEach.forest.innermost? 3 = some inner := by decide +kernel
  obtain ⟨outer, houter, inner, -, hall, hne, hin, hsome⟩ := hloops
  obtain ⟨-, hmem, hinside⟩ := ((hinnermost 3).2 inner).1 hsome
  exact ⟨⟨hg, hentry⟩, inner, outer, hall, hmem, hin, hinside outer houter hne hin⟩

end LoopForest

end Lift6502
