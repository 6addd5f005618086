import Lift6502.Proofs.Flow.Dominance
import Mathlib.Algebra.Order.BigOperators.Group.List
import Mathlib.Algebra.Order.Ring.Nat
import Mathlib.Logic.Function.Basic

/-!
# The dominator tree

Sweeps over the blocks in reverse postorder replace the parent of each block by the nearest block at
which the ways up from its predecessors meet. When a sweep changes none, the parents are the
immediate dominators.
-/

namespace Lift6502

/-- The parents that have been found; that of the entry is the entry. -/
abbrev Parents := BlockId → Option BlockId

structure DominatorTree where
  entry : BlockId
  parent : Parents
  order : List BlockId

namespace DominatorTree

section

variable (into : BlockId → List BlockId) (order : List BlockId)

/-- Replaces the one of two blocks that is further back by its parent, until they are the same. -/
def intersect (m : Parents) : Nat → BlockId → BlockId → Option BlockId
  | 0, _, _ => none
  | fuel + 1, a, b =>
    if a = b then some a
    else if order.idxOf b < order.idxOf a then do intersect m fuel (← m a) b
    else do intersect m fuel a (← m b)

def known (m : Parents) (b : BlockId) : List BlockId := (into b).filter fun p => (m p).isSome

def revise (fuel : Nat) : Parents × Bool → BlockId → Option (Parents × Bool)
  | (m, changed), b =>
    match known into m b with
    | [] => some (m, changed)
    | p :: rest => do
      let i ← rest.foldlM (fun current q => intersect order m fuel q current) p
      if m b = some i then some (m, changed) else some (Function.update m b (some i), true)

def sweep (fuel : Nat) (m : Parents) : Option (Parents × Bool) :=
  (order.drop 1).foldlM (revise into order fuel) (m, false)

def settle (fuel : Nat) : Nat → Parents → Option Parents
  | 0, _ => none
  | sweeps + 1, m => do
    let (m, changed) ← sweep into order fuel m
    if changed then settle fuel sweeps m else some m

end

/-- The tree of a graph; none if the fuel does not last. -/
def compute (fuel : Nat) (g : Graph) (entry : BlockId) (members : BlockSet) : Option DominatorTree := do
  let order := reversePostorder g.size (g.successorsIn members) entry
  let parent ← settle (fun b => (g.predecessors b).toList) order fuel fuel
    fun b => if b = entry then some entry else none
  some { entry, parent, order }

def isReachable (t : DominatorTree) (b : BlockId) : Bool := t.order.contains b

def immediate? (t : DominatorTree) (b : BlockId) : Option BlockId :=
  if b = t.entry then none else t.parent b

def meets (t : DominatorTree) (a : BlockId) : Nat → BlockId → Option Bool
  | 0, _ => none
  | fuel + 1, b =>
    if b = a then some true
    else match t.immediate? b with
      | some i => t.meets a fuel i
      | none => some false

def dominates (t : DominatorTree) (fuel : Nat) (a b : BlockId) : Option Bool :=
  if t.isReachable a && t.isReachable b then t.meets a fuel b else some false

end DominatorTree

/-! ## Ways up -/

/-- What the sweeps rely on: the blocks that can be reached, the entry first, in an order in which
each of the others has a predecessor before it. -/
structure Flow where
  next : BlockId → List BlockId
  into : BlockId → List BlockId
  entry : BlockId
  order : List BlockId
  nodup : order.Nodup
  mem_iff : ∀ b, b ∈ order ↔ WayTo next [] entry b
  entry_first : order.head? = some entry
  mem_into : ∀ b ∈ order, b ≠ entry → ∀ p ∈ order, p ∈ into b ↔ b ∈ next p
  exists_ahead : ∀ b ∈ order, b ≠ entry → ∃ p ∈ order, b ∈ next p ∧ order.idxOf p < order.idxOf b

namespace Flow

open DominatorTree

def Up (f : Flow) (m : Parents) (b i : BlockId) : Prop := b ≠ f.entry ∧ m b = some i

abbrev Climbs (f : Flow) (m : Parents) : BlockId → BlockId → Prop := Relation.ReflTransGen (f.Up m)

abbrev index (f : Flow) (b : BlockId) : Nat := f.order.idxOf b

def Ahead (f : Flow) (a b : BlockId) : Prop := a ∈ f.order ∧ b ∈ f.next a ∧ f.index a < f.index b

/-- The ways up from the known predecessors of `b` all come to `x`. -/
def Common (f : Flow) (m : Parents) (b x : BlockId) : Prop :=
  ∀ p ∈ known f.into m b, f.Climbs m p x

/-- The nearest block at which the ways up from the predecessors of `b` meet. -/
def Meet (f : Flow) (m : Parents) (b i : BlockId) : Prop :=
  f.Common m b i ∧ ∀ x, f.Common m b x → f.Climbs m i x

/-- What holds of the parents at all times. -/
structure Sound (f : Flow) (m : Parents) : Prop where
  entry_self : m f.entry = some f.entry
  mem_order : ∀ {b i}, m b = some i → b ∈ f.order
  known : ∀ {b i}, f.Up m b i → (m i).isSome
  before : ∀ {b i}, f.Up m b i → f.index i < f.index b
  dominated : ∀ {b i d}, f.Up m b i → Dominates f.next f.entry d b → d ≠ b →
    Dominates f.next f.entry d i
  ahead : ∀ {b i}, f.Up m b i → Relation.ReflTransGen f.Ahead i b
  /-- No block at which the ways up from the predecessors meet is nearer than the parent. -/
  nearest : ∀ {b i x}, f.Up m b i → f.Common m b x → f.index x ≤ f.index i

def Passed (f : Flow) (m : Parents) (k : Nat) : Prop :=
  ∀ y, y ≠ f.entry → f.index y < k → ∃ i, m y = some i ∧ ∀ x, f.Ahead x y → f.Climbs m x i

def Settled (f : Flow) (m : Parents) : Prop :=
  ∀ b ∈ f.order, b ≠ f.entry → ∃ i, m b = some i ∧ f.Meet m b i

/-- How far back a parent stands; a missing one stands behind all blocks. -/
def height (f : Flow) (parent : Option BlockId) : Nat := parent.elim f.order.length f.index

/-- The sum of the heights, which goes down with each change. -/
def weight (f : Flow) (m : Parents) : Nat := (f.order.map fun b => f.height (m b)).sum

variable {f : Flow} {m : Parents} {a b c d i x y p : BlockId} {fuel k : Nat}

theorem mem_known : p ∈ known f.into m b ↔ p ∈ f.into b ∧ (m p).isSome := by
  rw [known, List.mem_filter]

theorem Climbs.of_up (h : f.Climbs m a x) (hup : f.Up m a i) (hne : a ≠ x) : f.Climbs m i x := by
  rcases h.cases_head with rfl | ⟨j, hup', hrest⟩
  · exact absurd rfl hne
  · rwa [Option.some.inj (hup.2.symm.trans hup'.2)]

theorem Climbs.eq_of_entry (h : f.Climbs m f.entry b) : f.entry = b := by
  rcases h.cases_head with heq | ⟨i, hup, -⟩
  · exact heq
  · exact absurd rfl hup.1

theorem index_le_of_ahead (h : Relation.ReflTransGen f.Ahead a b) : f.index a ≤ f.index b := by
  induction h with
  | refl => exact le_rfl
  | tail _ hstep ih => exact ih.trans hstep.2.2.le

theorem index_pos (hne : b ≠ f.entry) : 0 < f.index b := by
  obtain ⟨tail, htail⟩ := List.head?_eq_some_iff.1 f.entry_first
  rw [index, htail, List.idxOf_cons_ne tail hne.symm]
  exact Nat.succ_pos _

theorem ne_entry_of_index_lt (h : f.index a < f.index b) : b ≠ f.entry := by
  rintro rfl
  obtain ⟨tail, htail⟩ := List.head?_eq_some_iff.1 f.entry_first
  rw [index, index, htail, List.idxOf_cons_self] at h
  exact Nat.not_lt_zero _ h

namespace Sound

variable (h : f.Sound m)

include h

theorem mem_of_isSome (hb : (m b).isSome) : b ∈ f.order := by
  obtain ⟨i, hi⟩ := Option.isSome_iff_exists.1 hb
  exact h.mem_order hi

theorem isSome_of_climbs (hclimb : f.Climbs m a b) (ha : (m a).isSome) : (m b).isSome := by
  induction hclimb with
  | refl => exact ha
  | tail _ hup _ => exact h.known hup

theorem index_le (hclimb : f.Climbs m a b) : f.index b ≤ f.index a := by
  induction hclimb with
  | refl => exact le_rfl
  | tail _ hup ih => exact (h.before hup).le.trans ih

theorem ahead_of_climbs (hclimb : f.Climbs m a b) : Relation.ReflTransGen f.Ahead b a := by
  induction hclimb with
  | refl => exact .refl
  | tail _ hup ih => exact (h.ahead hup).trans ih

/-- All that dominates a block is on its way up. -/
theorem climbs_of_dominates (hb : (m b).isSome) (hd : Dominates f.next f.entry d b) :
    f.Climbs m b d := by
  induction hk : f.index b using Nat.strong_induction_on generalizing b with
  | _ k ih =>
    by_cases hne : d = b
    · rw [hne]
    · obtain ⟨i, hi⟩ := Option.isSome_iff_exists.1 hb
      have hup : f.Up m b i := ⟨fun hentry => hne ((hentry ▸ hd).eq_entry.trans hentry.symm), hi⟩
      exact .head hup (ih _ (hk ▸ h.before hup) (h.known hup) (h.dominated hup hd hne) rfl)

theorem dominates_of_climbs (hclimb : f.Climbs m a b) (hd : Dominates f.next f.entry d a)
    (hle : f.index d ≤ f.index b) : Dominates f.next f.entry d b := by
  induction hclimb using Relation.ReflTransGen.head_induction_on with
  | refl => exact hd
  | @head a i hup hrest ih =>
    refine ih (h.dominated hup hd ?_)
    rintro rfl
    exact absurd ((h.index_le hrest).trans_lt (h.before hup)) (Nat.not_lt.2 hle)

theorem exists_intersect (ha : (m a).isSome) (hb : (m b).isSome)
    (hfuel : f.index a + f.index b < fuel) :
    ∃ c, intersect f.order m fuel a b = some c ∧ f.Climbs m a c ∧ f.Climbs m b c ∧
      ∀ x, f.Climbs m a x → f.Climbs m b x → f.Climbs m c x := by
  induction fuel generalizing a b with
  | zero => exact absurd hfuel (Nat.not_lt_zero _)
  | succ fuel ih =>
    rw [intersect]
    by_cases heq : a = b
    · subst heq
      exact ⟨a, if_pos rfl, .refl, .refl, fun x hx _ => hx⟩
    rw [if_neg heq]
    obtain ⟨i, hi⟩ := Option.isSome_iff_exists.1 ha
    obtain ⟨j, hj⟩ := Option.isSome_iff_exists.1 hb
    -- The block nearer to the entry does not climb to the other one, which may go to its parent.
    by_cases hlt : f.index b < f.index a
    · have hup : f.Up m a i := ⟨ne_entry_of_index_lt hlt, hi⟩
      have hbefore := h.before hup
      obtain ⟨c, hc, hic, hbc, hall⟩ := ih (h.known hup) hb (by omega)
      refine ⟨c, by rw [if_pos hlt, hi]; exact hc, .head hup hic, hbc, fun x hax hbx =>
        hall x ?_ hbx⟩
      exact hax.of_up hup fun hx => absurd (h.index_le (hx ▸ hbx)) (Nat.not_le.2 hlt)
    · have hlt' : f.index a < f.index b := by
        refine lt_of_le_of_ne (Nat.le_of_not_lt hlt) fun hindex => heq ?_
        exact (List.idxOf_inj (h.mem_of_isSome ha)).1 hindex
      have hup : f.Up m b j := ⟨ne_entry_of_index_lt hlt', hj⟩
      have hbefore := h.before hup
      obtain ⟨c, hc, hac, hjc, hall⟩ := ih ha (h.known hup) (by omega)
      refine ⟨c, by rw [if_neg hlt, hj]; exact hc, hac, .head hup hjc, fun x hax hbx =>
        hall x hax ?_⟩
      exact hbx.of_up hup fun hx => absurd (h.index_le (hx ▸ hax)) (Nat.not_le.2 hlt')

theorem exists_foldlM (hfuel : 2 * f.order.length ≤ fuel) (rest : List BlockId) (hp : (m p).isSome)
    (hrest : ∀ q ∈ rest, (m q).isSome) :
    ∃ i, rest.foldlM (fun current q => intersect f.order m fuel q current) p =
      some i ∧
      (∀ q ∈ p :: rest, f.Climbs m q i) ∧ ∀ x, (∀ q ∈ p :: rest, f.Climbs m q x) →
      f.Climbs m i x := by
  induction rest generalizing p with
  | nil => exact ⟨p, rfl, List.forall_mem_singleton.2 .refl, fun x hx =>
    hx p (List.mem_singleton_self p)⟩
  | cons q rest ih =>
    rw [List.forall_mem_cons] at hrest
    have hless : f.index q + f.index p < fuel := by
      have hp' : f.index p < f.order.length := List.idxOf_lt_length_of_mem (h.mem_of_isSome hp)
      have hq' : f.index q < f.order.length := List.idxOf_lt_length_of_mem (h.mem_of_isSome hrest.1)
      omega
    obtain ⟨c, hc, hqc, hpc, hnear⟩ := h.exists_intersect hrest.1 hp hless
    obtain ⟨i, hi, hclimb, hall⟩ := ih (h.isSome_of_climbs hpc hp) hrest.2
    rw [List.forall_mem_cons] at hclimb
    refine ⟨i, by rw [List.foldlM_cons, hc]; exact hi, ?_, fun x hx => hall x ?_⟩
    · simp only [List.forall_mem_cons]
      exact ⟨hpc.trans hclimb.1, hqc.trans hclimb.1, hclimb.2⟩
    · simp only [List.forall_mem_cons] at hx ⊢
      exact ⟨hnear x hx.2.1 hx.1, hx.2.2⟩

end Sound

/-! ## One block -/

structure Turn (f : Flow) (m : Parents) (b : BlockId) : Prop extends f.Sound m where
  mem : b ∈ f.order
  ne_entry : b ≠ f.entry
  passed : f.Passed m (f.index b)

namespace Turn

variable (h : f.Turn m b)

include h

theorem climbs_of_ahead (hle : f.index i ≤ f.index c) (hway : Relation.ReflTransGen f.Ahead c y)
    (hy : f.index y < f.index b) (hclimb : f.Climbs m y i) : f.Climbs m c i := by
  induction hway with
  | refl => exact hclimb
  | @tail z y hrest hstep ih =>
    have hlt := lt_of_le_of_lt (index_le_of_ahead hrest) hstep.2.2
    have hentry := ne_entry_of_index_lt hlt
    obtain ⟨j, hj, hpred⟩ := h.passed y hentry hy
    refine ih (hstep.2.2.trans hy) ((hpred z hstep).trans (hclimb.of_up ⟨hentry, hj⟩ ?_))
    rintro rfl
    exact absurd hlt (Nat.not_lt.2 hle)

theorem mem_known_of_ahead (hahead : f.Ahead p b) : p ∈ known f.into m b := by
  obtain ⟨hp, hedge, hlt⟩ := hahead
  refine mem_known.2 ⟨(f.mem_into b h.mem h.ne_entry p hp).2 hedge, ?_⟩
  by_cases hentry : p = f.entry
  · rw [hentry, h.entry_self, Option.isSome_some]
  · obtain ⟨i, hi, -⟩ := h.passed p hentry hlt
    rw [hi, Option.isSome_some]

/-- The block gets the nearest block at which the ways up from its predecessors meet. -/
theorem exists_revise (hfuel : 2 * f.order.length ≤ fuel) (changed : Bool) :
    ∃ i, f.Meet m b i ∧ revise f.into f.order fuel (m, changed) b =
      some (Function.update m b (some i), changed || decide (m b ≠ some i)) := by
  obtain ⟨q, hq⟩ := f.exists_ahead b h.mem h.ne_entry
  have hknown := h.mem_known_of_ahead hq
  rw [revise]
  cases hlist : known f.into m b with
  | nil =>
    rw [hlist] at hknown
    exact absurd hknown List.not_mem_nil
  | cons p rest =>
    have hall : ∀ q ∈ p :: rest, (m q).isSome := fun q hq => (mem_known.1 (hlist ▸ hq)).2
    rw [List.forall_mem_cons] at hall
    obtain ⟨i, hi, hmeet⟩ := h.exists_foldlM hfuel rest hall.1 hall.2
    refine ⟨i, ?_, ?_⟩
    · simp only [Meet, Common, hlist]
      exact hmeet
    · simp only [hi, Option.bind_eq_bind, Option.bind_some]
      by_cases hsame : m b = some i
      · rw [if_pos hsame, ← hsame, Function.update_eq_self]
        simp
      · simp [hsame]

variable (hmeet : f.Meet m b i)

include hmeet

theorem climbs_meet (hold : m b = some c) : f.Climbs m b i := by
  have hup : f.Up m b c := ⟨h.ne_entry, hold⟩
  rcases (h.ahead hup).cases_tail with rfl | ⟨z, hway, hlast⟩
  · exact absurd (h.before hup) (Nat.lt_irrefl _)
  · have hclimb := hmeet.1 z (h.mem_known_of_ahead hlast)
    exact .head hup (h.climbs_of_ahead (h.nearest hup hmeet.1) hway hlast.2.2 hclimb)

theorem exists_ahead_meet : ∃ q, f.Ahead q b ∧ (m q).isSome ∧ f.Climbs m q i := by
  obtain ⟨q, hq⟩ := f.exists_ahead b h.mem h.ne_entry
  have hknown := h.mem_known_of_ahead hq
  exact ⟨q, hq, (mem_known.1 hknown).2, hmeet.1 q hknown⟩

theorem climbs_of_update (hx : (m x).isSome)
    (hclimb : f.Climbs (Function.update m b (some i)) x y) : f.Climbs m x y := by
  induction hclimb using Relation.ReflTransGen.head_induction_on with
  | refl => exact .refl
  | @head x j hup _ ih =>
    by_cases hxb : x = b
    · subst hxb
      obtain ⟨c, hc⟩ := Option.isSome_iff_exists.1 hx
      obtain rfl : i = j := by simpa using hup.2
      have hmeets := h.climbs_meet hmeet hc
      exact hmeets.trans (ih (h.isSome_of_climbs hmeets hx))
    · have hup : f.Up m x j := ⟨hup.1, by simpa [hxb] using hup.2⟩
      exact .head hup (ih (h.known hup))

omit hmeet in
theorem climbs_update (hx : f.index x < f.index b) (hclimb : f.Climbs m x y) :
    f.Climbs (Function.update m b (some i)) x y := by
  induction hclimb using Relation.ReflTransGen.head_induction_on with
  | refl => exact .refl
  | @head x j hup _ ih =>
    have hxb : x ≠ b := fun hxb => Nat.lt_irrefl _ (hxb ▸ hx)
    refine .head ⟨hup.1, ?_⟩ (ih ((h.before hup).trans hx))
    rw [Function.update_of_ne hxb]
    exact hup.2

theorem sound_update : f.Sound (Function.update m b (some i)) := by
  obtain ⟨q, hq, hqknown, hqi⟩ := h.exists_ahead_meet hmeet
  have hup : ∀ {x j}, f.Up (Function.update m b (some i)) x j → x = b ∧ j = i ∨ f.Up m x j := by
    intro x j hup
    by_cases hxb : x = b
    · subst hxb
      exact .inl ⟨rfl, by simpa using hup.2.symm⟩
    · exact .inr ⟨hup.1, by simpa [hxb] using hup.2⟩
  have hknown : ∀ {x}, (m x).isSome → (Function.update m b (some i) x).isSome := by
    intro x hx
    by_cases hxb : x = b
    · simp [hxb]
    · rwa [Function.update_of_ne hxb]
  have hcommon : ∀ {c x}, f.Common (Function.update m b (some i)) c x → f.Common m c x := by
    intro c x hall p hp
    obtain ⟨hpc, hp⟩ := mem_known.1 hp
    exact h.climbs_of_update hmeet hp (hall p (mem_known.2 ⟨hpc, hknown hp⟩))
  refine ⟨?_, fun {x j} hx => ?_, fun {x j} hx => ?_, fun {x j} hx => ?_,
    fun {x j d} hx hd hne => ?_, fun {x j} hx => ?_, fun {x j z} hx hz => ?_⟩
  · rw [Function.update_of_ne h.ne_entry.symm]
    exact h.entry_self
  · by_cases hxb : x = b
    · exact hxb ▸ h.mem
    · rw [Function.update_of_ne hxb] at hx
      exact h.mem_order hx
  all_goals rcases hup hx with ⟨rfl, rfl⟩ | hx
  · exact hknown (h.isSome_of_climbs hqi hqknown)
  · exact hknown (h.known hx)
  · exact lt_of_le_of_lt (h.index_le hqi) hq.2.2
  · exact h.before hx
  · -- What dominates the block dominates its predecessors, whose ways up meet before they come to it.
    have hpred : ∀ {p}, p ∈ known f.into m x → Dominates f.next f.entry d p := by
      intro p hp
      obtain ⟨hpx, hp⟩ := mem_known.1 hp
      have hp := h.mem_of_isSome hp
      exact hd.of_edge hne ((f.mem_iff p).1 hp) ((f.mem_into x h.mem h.ne_entry p hp).1 hpx)
    have hclimb := hmeet.2 d fun p hp => h.climbs_of_dominates (mem_known.1 hp).2 (hpred hp)
    exact h.dominates_of_climbs hqi (hpred (h.mem_known_of_ahead hq)) (h.index_le hclimb)
  · exact h.dominated hx hd hne
  · exact (h.ahead_of_climbs hqi).tail hq
  · exact h.ahead hx
  · exact h.index_le (hmeet.2 z (hcommon hz))
  · exact h.nearest hx (hcommon hz)

theorem passed_update : f.Passed (Function.update m b (some i)) (f.index b + 1) := by
  intro y hy hlt
  rcases (Nat.lt_succ_iff.1 hlt).lt_or_eq with hlt | heq
  · obtain ⟨j, hj, hpred⟩ := h.passed y hy hlt
    refine ⟨j, ?_, fun x hx => h.climbs_update (hx.2.2.trans hlt) (hpred x hx)⟩
    rwa [Function.update_of_ne fun hyb => Nat.lt_irrefl _ (hyb ▸ hlt)]
  · obtain rfl : b = y := (List.idxOf_inj h.mem).1 heq.symm
    refine ⟨i, Function.update_self b (some i) m, fun x hx => h.climbs_update hx.2.2 ?_⟩
    exact hmeet.1 x (h.mem_known_of_ahead hx)

theorem weight_update : f.weight (Function.update m b (some i)) ≤ f.weight m ∧
    (m b ≠ some i → f.weight (Function.update m b (some i)) < f.weight m) := by
  obtain ⟨q, -, hqknown, hqi⟩ := h.exists_ahead_meet hmeet
  have hi : i ∈ f.order := h.mem_of_isSome (h.isSome_of_climbs hqi hqknown)
  have hlower : f.height (some i) ≤ f.height (m b) ∧
      (m b ≠ some i → f.height (some i) < f.height (m b)) := by
    cases hold : m b with
    | none =>
      have hlt := List.idxOf_lt_length_of_mem hi
      exact ⟨hlt.le, fun _ => hlt⟩
    | some c =>
      have hle := h.nearest ⟨h.ne_entry, hold⟩ hmeet.1
      refine ⟨hle, fun hci => lt_of_le_of_ne hle fun heq => hci ?_⟩
      rw [(List.idxOf_inj hi).1 heq]
  have hrest : ∀ x ∈ f.order, f.height (Function.update m b (some i) x) ≤ f.height (m x) := by
    intro x _
    by_cases hxb : x = b
    · rw [hxb, Function.update_self]
      exact hlower.1
    · rw [Function.update_of_ne hxb]
  refine ⟨List.sum_le_sum hrest, fun hchanged => List.sum_lt_sum _ _ hrest ⟨b, h.mem, ?_⟩⟩
  rw [Function.update_self]
  exact hlower.2 hchanged

end Turn

/-! ## Sweeps -/

/-- The rest of a sweep. It lowers the weight if it says that there has been a change, and leaves
the parents as they are otherwise. -/
theorem Sound.exists_sweep (hfuel : 2 * f.order.length ≤ fuel) (passed rest : List BlockId)
    (horder : f.order = passed ++ rest) (hentry : f.entry ∈ passed) (h : f.Sound m)
    (hpassed : f.Passed m passed.length) (changed : Bool) :
    ∃ m' changed', rest.foldlM (revise f.into f.order fuel) (m, changed) =
      some (m', changed') ∧
      f.Sound m' ∧ f.weight m' ≤ f.weight m ∧
        (changed' = true → changed = true ∨ f.weight m' < f.weight m) ∧
      (changed' = false → changed = false ∧ m' = m ∧ ∀ b ∈ rest, ∃ i, m b = some i ∧
        f.Meet m b i) := by
  induction rest generalizing passed m changed with
  | nil => exact ⟨m, changed, rfl, h, le_rfl, .inl, fun hfalse => ⟨hfalse, rfl, by simp⟩⟩
  | cons b rest ih =>
    have hnot : b ∉ passed := by
      have hnodup := f.nodup
      rw [horder] at hnodup
      exact fun hmem => (List.nodup_append.1 hnodup).2.2 b hmem b List.mem_cons_self rfl
    have hindex : f.index b = passed.length := by
      rw [index, horder, List.idxOf_append_of_notMem hnot, List.idxOf_cons_self, Nat.add_zero]
    have hturn : f.Turn m b :=
      ⟨h, by simp [horder], fun heq => hnot (heq ▸ hentry), hindex ▸ hpassed⟩
    obtain ⟨i, hmeet, hrevise⟩ := hturn.exists_revise hfuel changed
    obtain ⟨hle, hlt⟩ := hturn.weight_update hmeet
    have hpassed' := hturn.passed_update hmeet
    obtain ⟨m', changed', hrun, hsound, hweight, hchanged, hsame⟩ :=
      ih (passed ++ [b]) (by simp [horder]) (by simp [hentry]) (hturn.sound_update hmeet)
        (by simpa [hindex] using hpassed') (changed || decide (m b ≠ some i))
    refine ⟨m', changed', by rw [List.foldlM_cons, hrevise]; exact hrun, hsound,
      hweight.trans hle, ?_, ?_⟩
    · intro htrue
      rcases hchanged htrue with hflag | hless
      · rw [Bool.or_eq_true, decide_eq_true_iff] at hflag
        exact hflag.imp id fun hnew => lt_of_le_of_lt hweight (hlt hnew)
      · exact .inr (lt_of_lt_of_le hless hle)
    · intro hfalse
      obtain ⟨hflag, rfl, hall⟩ := hsame hfalse
      rw [Bool.or_eq_false_iff, decide_eq_false_iff_not, not_not] at hflag
      have hkept : Function.update m b (some i) = m := by rw [← hflag.2, Function.update_eq_self]
      rw [hkept] at hall ⊢
      exact ⟨hflag.1, rfl, List.forall_mem_cons.2 ⟨⟨i, hflag.2, hmeet⟩, hall⟩⟩

theorem Sound.exists_settle (hfuel : 2 * f.order.length ≤ fuel) (sweeps : Nat) (h : f.Sound m)
    (hsweeps : f.weight m < sweeps) :
    ∃ m', settle f.into f.order fuel sweeps m = some m' ∧ f.Sound m' ∧
      f.Settled m' := by
  induction sweeps generalizing m with
  | zero => exact absurd hsweeps (Nat.not_lt_zero _)
  | succ sweeps ih =>
    obtain ⟨tail, horder⟩ := List.head?_eq_some_iff.1 f.entry_first
    have hstart : f.Passed m [f.entry].length :=
      fun y hy hlt => absurd (index_pos hy) (Nat.not_lt.2 (Nat.le_of_lt_succ hlt))
    obtain ⟨m', changed, hrun, hsound, -, hchanged, hsame⟩ :=
      h.exists_sweep hfuel [f.entry] tail horder (List.mem_singleton_self f.entry) hstart false
    have hdrop : f.order.drop 1 = tail := by rw [horder, List.drop_one, List.tail_cons]
    rw [settle, sweep, hdrop, hrun]
    cases changed with
    | true =>
      have hlt := (hchanged rfl).resolve_left Bool.false_ne_true
      exact ih hsound (by omega)
    | false =>
      obtain ⟨-, rfl, hall⟩ := hsame rfl
      refine ⟨m', rfl, h, fun b hb hne => hall b ?_⟩
      rw [horder] at hb
      exact (List.mem_cons.1 hb).resolve_left hne

section

variable (h : f.Sound m) (hsettled : f.Settled m)

include h hsettled

theorem isSome_of_settled (hb : b ∈ f.order) : (m b).isSome := by
  by_cases hne : b = f.entry
  · rw [hne, h.entry_self, Option.isSome_some]
  · obtain ⟨i, hi, -⟩ := hsettled b hb hne
    rw [hi, Option.isSome_some]

theorem climbs_iff_dominates (hb : b ∈ f.order) :
    f.Climbs m b a ↔ Dominates f.next f.entry a b := by
  refine ⟨fun hclimb => ⟨(f.mem_iff b).1 hb, fun hway => ?_⟩,
    h.climbs_of_dominates (isSome_of_settled h hsettled hb)⟩
  -- From a block that does not climb to `a`, no edge leads to one that does, except to `a`.
  refine (hway.mem_of_closed (s := fun x => x ∈ f.order ∧ ¬ f.Climbs m x a) ⟨?_, ?_⟩ ?_).2 hclimb
  · exact (f.mem_iff f.entry).2 (.refl List.not_mem_nil)
  · exact fun hentry => hway.start_free (List.mem_singleton.2 hentry.eq_of_entry)
  · rintro x ⟨hx, hnot⟩ y hedge hfree
    have hy : y ∈ f.order := (f.mem_iff y).2 (((f.mem_iff x).1 hx).tail hedge List.not_mem_nil)
    refine ⟨hy, fun hclimb => hnot ?_⟩
    have hya : y ≠ a := fun heq => hfree (List.mem_singleton.2 heq)
    have hne : y ≠ f.entry := fun heq => hya (by rw [heq] at hclimb ⊢; exact hclimb.eq_of_entry)
    obtain ⟨i, hi, hmeet⟩ := hsettled y hy hne
    have hknown := mem_known.2 ⟨(f.mem_into y hy hne x hx).2 hedge, isSome_of_settled h hsettled hx⟩
    exact (hmeet.1 x hknown).trans (hclimb.of_up ⟨hne, hi⟩ hya)

theorem exists_meets (hb : b ∈ f.order) (hfuel : f.index b < fuel) (a : BlockId) :
    ∃ answer, meets ⟨f.entry, m, f.order⟩ a fuel b = some answer ∧
      (answer = true ↔ f.Climbs m b a) := by
  induction fuel generalizing b with
  | zero => exact absurd hfuel (Nat.not_lt_zero _)
  | succ fuel ih =>
    rw [meets]
    by_cases heq : b = a
    · exact ⟨true, if_pos heq, iff_of_true rfl (heq ▸ .refl)⟩
    rw [if_neg heq, immediate?]
    by_cases hentry : b = f.entry
    · refine ⟨false, by rw [if_pos hentry], iff_of_false Bool.false_ne_true fun hclimb => heq ?_⟩
      rw [hentry] at hclimb ⊢
      exact hclimb.eq_of_entry
    · obtain ⟨i, hi, -⟩ := hsettled b hb hentry
      have hup : f.Up m b i := ⟨hentry, hi⟩
      have hbefore := h.before hup
      obtain ⟨answer, hanswer, hiff⟩ := ih (h.mem_of_isSome (h.known hup)) (by omega)
      refine ⟨answer, by simp only [if_neg hentry, hi]; exact hanswer, hiff.trans ⟨.head hup, ?_⟩⟩
      exact fun hclimb => hclimb.of_up hup heq

end

theorem sound_start (f : Flow) : f.Sound fun b => if b = f.entry then some f.entry else none := by
  have hnone : ∀ {b i}, ¬ f.Up (fun b => if b = f.entry then some f.entry else none) b i := by
    rintro b i ⟨hne, hup⟩
    simp [hne] at hup
  refine ⟨if_pos rfl, fun {b i} hb => ?_, (absurd · hnone), (absurd · hnone), fun hup =>
    absurd hup hnone, (absurd · hnone), fun hup => absurd hup hnone⟩
  rw [Option.ite_none_right_eq_some] at hb
  exact (f.mem_iff b).2 (hb.1 ▸ .refl List.not_mem_nil)

theorem weight_le (f : Flow) (m : Parents) : f.weight m ≤ f.order.length * f.order.length := by
  have hle : ∀ x ∈ f.order.map fun b => f.height (m b), x ≤ f.order.length := by
    intro x hx
    obtain ⟨b, -, rfl⟩ := List.mem_map.1 hx
    cases m b with
    | none => exact le_rfl
    | some i => exact List.idxOf_le_length
  simpa [weight] using List.sum_le_card_nsmul _ _ hle

/-! ## The tree of a graph -/

variable {g : Graph} {entry : BlockId} {members : BlockSet}

theorem exists_earlier (hb : b ∈ reversePostorder g.size (g.successorsIn members) entry)
    (hne : b ≠ entry) :
    ∃ p ∈ reversePostorder g.size (g.successorsIn members) entry, b ∈ g.successorsIn members p ∧
      (reversePostorder g.size (g.successorsIn members) entry).idxOf p <
        (reversePostorder g.size (g.successorsIn members) entry).idxOf b := by
  have hsize : ∀ b, g.successorsIn members b ≠ [] → b < g.size :=
    fun _ => Graph.lt_size_of_successorsIn_ne_nil
  have hadds := adds_reversePostorder hsize entry
  set order := reversePostorder g.size (g.successorsIn members) entry
  have hpairs : order.Pairwise fun a b => order.idxOf a < order.idxOf b := by
    rw [List.pairwise_iff_getElem]
    intro i j hi hj hij
    rwa [hadds.nodup.idxOf_getElem i hi, hadds.nodup.idxOf_getElem j hj]
  obtain ⟨e, he, -, hclimb⟩ := hadds.climbs b hb
  rw [List.mem_singleton.1 he] at hclimb
  rcases hclimb.cases_tail with heq | ⟨p, -, hedge, hsub⟩
  · exact absurd heq hne
  · exact ⟨p, hsub.subset List.mem_cons_self, hedge, List.pairwise_iff_forall_sublist.1 hpairs hsub⟩

variable (hg : g.verify = .ok ()) (entry) (members)

def ofGraph : Flow where
  next := g.successorsIn members
  into b := (g.predecessors b).toList
  entry := entry
  order := reversePostorder g.size (g.successorsIn members) entry
  nodup := (pairwise_reversePostorder (fun _ => Graph.lt_size_of_successorsIn_ne_nil) entry).1
  mem_iff := mem_reversePostorder (fun _ => Graph.lt_size_of_successorsIn_ne_nil) entry
  entry_first := by
    rw [reversePostorder, Walk.visit, if_neg List.not_mem_nil]
    rfl
  mem_into := by
    -- Each block but the entry has been reached along an edge into `members`.
    intro b hb hne p _
    obtain ⟨q, -, hedge, -⟩ := exists_earlier hb hne
    have hmember := (Graph.mem_successorsIn.1 hedge).2
    exact (Graph.mem_predecessors_iff hg).trans
      ((and_iff_left hmember).symm.trans Graph.mem_successorsIn.symm)
  exists_ahead := fun _ => exists_earlier

section

variable (h : (ofGraph entry members hg).Sound m) (hsettled : (ofGraph entry members hg).Settled m)

include h hsettled

theorem immediate_eq_parent (hne : b ≠ entry) :
    (Dominators.ofGraph g entry members).immediate? b = m b := by
  cases hb : m b with
  | none =>
    refine Dominators.immediate_eq_none_iff.2 (.inr fun hway => ?_)
    have hsome := isSome_of_settled h hsettled (((ofGraph entry members hg).mem_iff b).2 hway)
    rw [hb] at hsome
    exact Bool.false_ne_true hsome
  | some i =>
    have hup : (ofGraph entry members hg).Up m b i := ⟨hne, hb⟩
    refine Dominators.immediate_eq_some_iff.2 ⟨⟨?_, ?_⟩, fun a ha hab _ => h.dominated hup ha hab⟩
    · exact (climbs_iff_dominates h hsettled (h.mem_order hb)).1 (.single hup)
    · rintro rfl
      exact absurd (h.before hup) (Nat.lt_irrefl _)

theorem dominates_eq (hfuel : (ofGraph entry members hg).order.length ≤ fuel) (a b : BlockId) :
    dominates ⟨entry, m, (ofGraph entry members hg).order⟩ fuel a b =
      some ((Dominators.ofGraph g entry members).dominates a b) := by
  rw [dominates]
  split
  · next hreach =>
    simp only [isReachable, Bool.and_eq_true, List.contains_iff_mem] at hreach
    have hlt := (List.idxOf_lt_length_of_mem hreach.2).trans_le hfuel
    obtain ⟨answer, hanswer, hiff⟩ := exists_meets h hsettled hreach.2 hlt a
    rw [climbs_iff_dominates h hsettled hreach.2] at hiff
    exact hanswer.trans (congrArg some
      (Bool.eq_iff_iff.2 (hiff.trans Dominators.dominates_iff.symm)))
  · next hreach =>
    rw [Option.some.injEq, Eq.comm, Bool.eq_false_iff, ne_eq, Dominators.dominates_iff]
    intro hdom
    simp only [isReachable, Bool.and_eq_true, List.contains_iff_mem,
      mem_iff] at hreach
    exact hreach ⟨hdom.reached, hdom.1⟩

end

end Flow

namespace DominatorTree

theorem exists_compute {g : Graph} (hg : g.verify = .ok ()) (entry : BlockId) (members : BlockSet) :
    ∃ t steps, ∀ fuel, steps ≤ fuel → compute fuel g entry members = some t ∧
      t.order = (Dominators.ofGraph g entry members).order ∧
      (∀ b, t.immediate? b = (Dominators.ofGraph g entry members).immediate? b) ∧
      ∀ a b, t.dominates fuel a b = some ((Dominators.ofGraph g entry members).dominates a b) := by
  rw [Dominators.order_ofGraph]
  let f := Flow.ofGraph entry members hg
  let parent : Parents := fun b =>
    if b = entry then some entry else (Dominators.ofGraph g entry members).immediate? b
  refine ⟨{ entry, parent, order := f.order },
    f.order.length * f.order.length + 2 * f.order.length + 1, fun fuel hfuel => ?_⟩
  have hweight := f.weight_le fun b => if b = f.entry then some f.entry else none
  have hlength : f.order.length ≤ fuel := by omega
  obtain ⟨m, hrun, hsound, hsettled⟩ :=
    f.sound_start.exists_settle (by omega : 2 * f.order.length ≤ fuel) fuel (by omega)
  have hparent : m = parent := by
    funext b
    by_cases hne : b = entry
    · subst hne
      exact hsound.entry_self.trans (if_pos rfl).symm
    · simp only [parent, if_neg hne, Flow.immediate_eq_parent entry members hg hsound hsettled hne]
  subst hparent
  refine ⟨?_, rfl, fun b => ?_, Flow.dominates_eq entry members hg hsound hsettled hlength⟩
  · exact congrArg (Option.bind · _) hrun
  · by_cases hne : b = entry
    · simp only [immediate?, if_pos hne]
      exact (Dominators.immediate_eq_none_iff.2 (.inl hne)).symm
    · simp only [immediate?, parent, if_neg hne]

/-- The computation ends for every graph whose edges are recorded at both ends, every entry and
every set of members, and what it finds is right: which blocks can be reached, which blocks are
on all paths to which, and which strict dominator is dominated by all the others. The chains
say the same. -/
theorem decides_dominance (g : Graph) (entry : BlockId) (members : BlockSet)
    (hg : g.verify = .ok ()) :
    ∃ t steps, ∀ fuel, steps ≤ fuel → compute fuel g entry members = some t ∧
      (∀ b, t.isReachable b = true ↔ ∃ blocks, g.Path members entry b blocks) ∧
      (∀ a b, ∃ answer, t.dominates fuel a b = some answer ∧
        answer = (Dominators.ofGraph g entry members).dominates a b ∧
        (answer = true ↔
          (∃ blocks, g.Path members entry a blocks) ∧ (∃ blocks, g.Path members entry b blocks) ∧
            ∀ blocks, g.Path members entry b blocks → a ∈ blocks)) ∧
      (∀ b, t.immediate? b = (Dominators.ofGraph g entry members).immediate? b ∧
        (t.immediate? b = none ↔ b = entry ∨ t.isReachable b = false)) ∧
      ∀ b i, t.immediate? b = some i ↔ (t.dominates fuel i b = some true ∧ i ≠ b) ∧
        ∀ a, t.dominates fuel a b = some true → a ≠ b → a ≠ i →
          t.dominates fuel a i = some true := by
  obtain ⟨t, steps, h⟩ := exists_compute hg entry members
  refine ⟨t, steps, fun fuel hfuel => ?_⟩
  obtain ⟨hcompute, horder, himmediate, hdominates⟩ := h fuel hfuel
  have hreach : ∀ b, t.isReachable b = true ↔ WayTo (g.successorsIn members) [] entry b := by
    intro b
    rw [isReachable, List.contains_iff_mem, horder, Dominators.mem_order]
  refine ⟨hcompute, fun b => ?_, fun a b => ⟨_, hdominates a b, rfl, ?_⟩, fun b =>
    ⟨himmediate b, ?_⟩, fun b i => ?_⟩
  · rw [hreach, WayTo.nil_iff_exists_path]
  · rw [Dominators.dominates_iff, Dominates.iff_forall_path]
    constructor
    · intro hall
      exact ⟨WayTo.nil_iff_exists_path.1 (Dominates.iff_forall_path.2 hall).reached, hall⟩
    · exact And.right
  · rw [himmediate, Dominators.immediate_eq_none_iff, ← hreach, Bool.not_eq_true]
  · simp only [himmediate, hdominates, Option.some.injEq, Dominators.dominates_iff]
    exact Dominators.immediate_eq_some_iff

/-- A loop that is entered at two blocks, a block that leads to itself, and one that cannot be
reached. The entry is not one of the members. -/
def twoEntries : Graph where
  blocks := #[
    { label := none, offset := 0, fallThrough := some 1, branch := some 2 },
    { label := none, offset := 1, fallThrough := some 2, branch := some 3,
      enteredFrom := .ofList [0, 2, 5] },
    { label := none, offset := 2, branch := some 1, enteredFrom := .ofList [0, 1] },
    { label := none, offset := 3, fallThrough := some 4, branch := some 3,
      enteredFrom := .ofList [1, 3] },
    { label := none, offset := 4, enteredFrom := .ofList [3] },
    { label := none, offset := 5, branch := some 1 }]

theorem decides_dominance_twoEntries : twoEntries.verify = .ok () ∧
    ∃ t steps, ∀ fuel, steps ≤ fuel → compute fuel twoEntries 0 (.ofList [1, 2, 3, 4]) = some t ∧
      (List.range 6).map t.immediate? = [none, some 0, some 0, some 1, some 3, none] ∧
      t.isReachable 5 = false := by
  have hg : twoEntries.verify = .ok () := by decide +kernel
  obtain ⟨t, steps, h⟩ := decides_dominance twoEntries 0 (.ofList [1, 2, 3, 4]) hg
  refine ⟨hg, t, steps, fun fuel hfuel => ?_⟩
  obtain ⟨hcompute, -, -, himmediate, -⟩ := h fuel hfuel
  have hall : ∀ b, t.immediate? b =
      (Dominators.ofGraph twoEntries 0 (.ofList [1, 2, 3, 4])).immediate? b :=
    fun b => (himmediate b).1
  refine ⟨hcompute, ?_, ((himmediate 5).2.1 ?_).resolve_left (by decide)⟩
  · rw [funext hall]
    decide +kernel
  · rw [hall]
    decide +kernel

end DominatorTree

end Lift6502
