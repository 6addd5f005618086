import Lift6502.Flow.Walk
import Mathlib.Algebra.Order.BigOperators.Group.List
import Mathlib.Algebra.Order.Ring.Nat
import Mathlib.Logic.Function.Iterate

/-!
# Rounds and sweeps

Rounds compute all sets of a family anew from those of the round before; sweeps replace one set
after the other in place. For monotone equations both come to rest, at the same sets.
-/

namespace Lift6502

variable {α : Type} {f : α → α} {p : α → Prop} {rounds : Nat}

theorem iterate_invariant [DecidableEq α]
    (hstep : ∀ a, p a → p (f a)) (rounds : Nat) {a : α} (ha : p a) : p (iterate f rounds a) := by
  induction rounds generalizing a with
  | zero => exact ha
  | succ rounds ih =>
    rw [iterate]
    split
    · exact ha
    · exact ih (hstep a ha)

/-- Repeating a round comes to rest: it reaches what the round no longer changes. -/
structure ComesToRest {α : Type} (round : α → α) (start rest : α) : Prop where
  reached : ∃ n, round^[n] start = rest
  fixed : round rest = rest

theorem comesToRest_iterate [DecidableEq α]
    (hstep : ∀ a, p a → p (f a)) (size : α → Nat) (bound : Nat) (hbound : ∀ a, p a → size a ≤ bound)
    (hgrows : ∀ a, p a → f a ≠ a → size a < size (f a)) {a : α} (ha : p a)
    (hrounds : bound < rounds + size a) : ComesToRest f a (iterate f rounds a) := by
  -- Each round that changes something leaves one less for the measure to grow.
  induction rounds generalizing a with
  | zero =>
    have hle := hbound a ha
    omega
  | succ rounds ih =>
    rw [iterate]
    split
    · next hfixed => exact ⟨⟨0, rfl⟩, hfixed⟩
    · next hchanged =>
      have hlt := hgrows a ha hchanged
      obtain ⟨⟨n, hn⟩, hfixed⟩ := ih (hstep a ha) (by omega)
      exact ⟨⟨n + 1, hn⟩, hfixed⟩

/-- An equation for each key, in the order in which a sweep looks at them. -/
abbrev Equations (κ V : Type) := List (κ × ((κ → V) → V))

namespace Equations

variable {κ V : Type} {equations : Equations κ V} {le : V → V → Prop} {size : V → Nat}

/-- Equations that are monotone in an order of the values whose chains a size bounds. -/
structure Monotone (equations : Equations κ V) (le : V → V → Prop) (size : V → Nat) : Prop where
  refl : ∀ v, le v v
  trans : ∀ {u v w}, le u v → le v w → le u w
  size_lt : ∀ {v w}, le v w → v ≠ w → size v < size w
  single : ∀ {e e'}, e ∈ equations → e' ∈ equations → e.1 = e'.1 → e.2 = e'.2
  mono : ∀ {e values more}, e ∈ equations → (∀ k, le (values k) (more k)) →
    le (e.2 values) (e.2 more)

namespace Monotone

variable {v w : V} (h : equations.Monotone le size)

include h

theorem antisymm (hle : le v w) (hge : le w v) : v = w := by
  by_contra hne
  exact Nat.lt_asymm (h.size_lt hle hne) (h.size_lt hge (Ne.symm hne))

theorem size_mono (hle : le v w) : size v ≤ size w := by
  by_cases heq : v = w
  · rw [heq]
  · exact (h.size_lt hle heq).le

end Monotone

/-- Equations that rounds solve: `view` takes the values out of what a round works on, and `p` holds
of it at all times. -/
structure Rounds {α : Type} (equations : Equations κ V) (le : V → V → Prop) (size : V → Nat)
    (bound : Nat) (round : α → α) (view : α → κ → V) (p : α → Prop) (start : α) : Prop extends
    equations.Monotone le size where
  size_le : ∀ v, size v ≤ bound
  start_mem : p start
  start_le : ∀ k v, le (view start k) v
  step : ∀ a, p a → p (round a)
  key : ∀ a, p a → ∀ e ∈ equations, view (round a) e.1 = e.2 (view a)
  other : ∀ a, p a → ∀ k, (∀ e ∈ equations, e.1 ≠ k) → ∀ v, le (view (round a) k) v
  fixed : ∀ a, p a → (∀ e ∈ equations, view a e.1 = view (round a) e.1) → round a = a

variable {α : Type} {bound : Nat} {round : α → α} {view : α → κ → V} {p : α → Prop} {start : α}

section

variable (h : equations.Rounds le size bound round view p start)

include h

theorem Rounds.le_of_key {a : α} {values : κ → V} (ha : p a)
    (hkey : ∀ e ∈ equations, le (e.2 (view a)) (values e.1)) (k : κ) :
    le (view (round a) k) (values k) := by
  by_cases hk : ∃ e ∈ equations, e.1 = k
  · obtain ⟨e, he, rfl⟩ := hk
    rw [h.key a ha e he]
    exact hkey e he
  · exact h.other a ha k (fun e he heq => hk ⟨e, he, heq⟩) _

theorem Rounds.iterate_mem (n : Nat) : p (round^[n] start) := by
  induction n with
  | zero => exact h.start_mem
  | succ n ih =>
    rw [Function.iterate_succ_apply']
    exact h.step _ ih

theorem Rounds.least {rest : α} (hrest : ComesToRest round start rest) (values : κ → V)
    (hvalues : ∀ e ∈ equations, le (e.2 values) (values e.1)) (k : κ) :
    le (view rest k) (values k) := by
  obtain ⟨n, rfl⟩ := hrest.reached
  clear hrest
  induction n generalizing k with
  | zero => exact h.start_le k _
  | succ n ih =>
    rw [Function.iterate_succ_apply']
    exact h.le_of_key (h.iterate_mem n) (fun e he => h.trans (h.mono he ih) (hvalues e he)) k

theorem Rounds.comesToRest [DecidableEq α] (hrounds : bound * equations.length < rounds) :
    ComesToRest round start (iterate round rounds start) := by
  refine comesToRest_iterate (p := fun a => p a ∧ ∀ k, le (view a k) (view (round a) k))
    (fun a ⟨ha, hrises⟩ => ⟨h.step a ha, ?_⟩)
    (fun a => (equations.map fun e => size (view a e.1)).sum)
    (bound * equations.length) (fun a _ => ?_) (fun a ⟨ha, hrises⟩ hchanged => ?_)
    ⟨h.start_mem, fun k => h.start_le k _⟩ (by omega)
  · refine h.le_of_key ha fun e he => ?_
    rw [h.key _ (h.step a ha) e he]
    exact h.mono he hrises
  · refine (List.sum_le_card_nsmul _ bound fun n hn => ?_).trans (by simp [Nat.mul_comm])
    obtain ⟨e, -, rfl⟩ := List.mem_map.1 hn
    exact h.size_le _
  · refine List.sum_lt_sum _ _ (fun e _ => h.size_mono (hrises e.1)) ?_
    by_contra hsame
    refine hchanged (h.fixed a ha fun e he => ?_)
    by_contra hne
    exact hsame ⟨e, he, h.size_lt (hrises e.1) hne⟩

end

variable [DecidableEq κ] [DecidableEq V]

def revise : (κ → V) × Bool → κ × ((κ → V) → V) → (κ → V) × Bool
  | (values, changed), (k, value) =>
    if value values = values k then (values, changed) else (Function.update values k (value values), true)

/-- Sweeps until one changes nothing; none if the sweeps do not suffice. -/
def settle (equations : Equations κ V) : Nat → (κ → V) → Option (κ → V)
  | 0, _ => none
  | sweeps + 1, values =>
    match equations.foldl revise (values, false) with
    | (values, true) => settle equations sweeps values
    | (values, false) => some values

def Settles (equations : Equations κ V) (start rest : κ → V) : Prop :=
  ∃ n, ∀ sweeps, n ≤ sweeps → equations.settle sweeps start = some rest

/-- What every sweep leaves: values below the solution that the equations can only raise. -/
structure Rising (equations : Equations κ V) (le : V → V → Prop) (rest values : κ → V) : Prop where
  below : ∀ k, le (values k) (rest k)
  rises : ∀ e ∈ equations, le (values e.1) (e.2 values)

section

variable {rest values : κ → V} (h : equations.Monotone le size)
  (hrest : ∀ e ∈ equations, e.2 rest = rest e.1)

include h hrest

omit [DecidableEq V] in
theorem Rising.update (hrising : equations.Rising le rest values) {e : κ × ((κ → V) → V)}
    (he : e ∈ equations) :
    equations.Rising le rest (Function.update values e.1 (e.2 values)) ∧
      ∀ k, le (values k) (Function.update values e.1 (e.2 values) k) := by
  have hmore : ∀ k, le (values k) (Function.update values e.1 (e.2 values) k) := by
    intro k
    by_cases hk : k = e.1
    · rw [hk, Function.update_self]
      exact hrising.rises e he
    · rw [Function.update_of_ne hk]
      exact h.refl _
  refine ⟨⟨fun k => ?_, fun e' he' => ?_⟩, hmore⟩
  · by_cases hk : k = e.1
    · rw [hk, Function.update_self, ← hrest e he]
      exact h.mono he hrising.below
    · rw [Function.update_of_ne hk]
      exact hrising.below k
  · by_cases hk : e'.1 = e.1
    · rw [hk, Function.update_self, h.single he' he hk]
      exact h.mono he hmore
    · rw [Function.update_of_ne hk]
      exact h.trans (hrising.rises e' he') (h.mono he' hmore)

/-- A part of a sweep. It has raised values if it says that any has changed, and none otherwise. -/
theorem Rising.foldl (part : Equations κ V) (hpart : ∀ e ∈ part, e ∈ equations)
    (hrising : equations.Rising le rest values) (changed : Bool) :
    ∃ values' changed', part.foldl revise (values, changed) = (values', changed') ∧
      equations.Rising le rest values' ∧ (∀ k, le (values k) (values' k)) ∧
      (changed' = true → changed = true ∨ ∃ e ∈ equations, values e.1 ≠ values' e.1) ∧
      (changed' = false → changed = false ∧ values' = values ∧ ∀ e ∈ part,
        e.2 values = values e.1) := by
  induction part generalizing values changed with
  | nil => exact ⟨values, changed, rfl, hrising, fun _ => h.refl _, .inl, fun hfalse =>
    ⟨hfalse, rfl, by simp⟩⟩
  | cons e part ih =>
    rw [List.forall_mem_cons] at hpart
    rw [List.foldl_cons, revise]
    split
    · next hsame =>
      obtain ⟨values', changed', hrun, hrising', hmore, htrue, hfalse⟩ := ih hpart.2 hrising changed
      refine ⟨values', changed', hrun, hrising', hmore, htrue, fun hend => ?_⟩
      obtain ⟨hchanged, rfl, hall⟩ := hfalse hend
      exact ⟨hchanged, rfl, List.forall_mem_cons.2 ⟨hsame, hall⟩⟩
    · next hnew =>
      obtain ⟨hrising, hmore⟩ := hrising.update h hrest hpart.1
      obtain ⟨values', changed', hrun, hrising', hmore', -, hfalse⟩ := ih hpart.2 hrising true
      refine ⟨values', changed', hrun, hrising', fun k => h.trans (hmore k) (hmore' k),
        fun _ => .inr ⟨e, hpart.1, fun heq => hnew ?_⟩, fun hend => nomatch (hfalse hend).1⟩
      -- The value has been raised, and nothing lowers it again.
      have hraised := hmore e.1
      have hback := hmore' e.1
      rw [Function.update_self] at hraised hback
      exact h.antisymm (heq ▸ hback) hraised

/-- With as many sweeps as the values can still be raised, the equations settle at the
least solution. -/
theorem Rising.settle (hleast : ∀ values, (∀ e ∈ equations, e.2 values = values e.1) →
      (∀ k, le (values k) (rest k)) → values = rest) (sweeps : Nat)
    (hrising : equations.Rising le rest values)
    (hsweeps : (equations.map fun e => size (rest e.1)).sum <
      sweeps + (equations.map fun e => size (values e.1)).sum) :
    equations.settle sweeps values = some rest := by
  induction sweeps generalizing values with
  | zero =>
    have hle := List.sum_le_sum fun e (_ : e ∈ equations) => h.size_mono (hrising.below e.1)
    omega
  | succ sweeps ih =>
    obtain ⟨values', changed, hrun, hrising', hmore, htrue, hfalse⟩ :=
      hrising.foldl h hrest equations (fun _ he => he) false
    rw [Equations.settle, hrun]
    cases changed with
    | true =>
      obtain ⟨e, he, hne⟩ := (htrue rfl).resolve_left Bool.false_ne_true
      have hlt := List.sum_lt_sum (fun e => size (values e.1)) (fun e => size (values' e.1))
        (fun e _ => h.size_mono (hmore e.1)) ⟨e, he, h.size_lt (hmore e.1) hne⟩
      exact ih hrising' (by omega)
    | false =>
      obtain ⟨-, rfl, hall⟩ := hfalse rfl
      exact congrArg some (hleast values' hall hrising.below)

end

/-- Rounds and sweeps from the bottom come to rest at the same values. -/
theorem Rounds.settles (h : equations.Rounds le size bound round view p start) {rest : α}
    (hrest : ComesToRest round start rest) : equations.Settles (view start) (view rest) := by
  have hmem : p rest := by
    obtain ⟨n, rfl⟩ := hrest.reached
    exact h.iterate_mem n
  have hsolved : ∀ e ∈ equations, e.2 (view rest) = view rest e.1 := fun e he => by
    rw [← h.key rest hmem e he, hrest.fixed]
  refine ⟨(equations.map fun e => size (view rest e.1)).sum + 1, fun sweeps hsweeps => ?_⟩
  refine Rising.settle h.toMonotone hsolved (fun values hvalues hbelow => funext fun k => ?_) sweeps
    ⟨fun k => h.start_le k _, fun e _ => h.start_le e.1 _⟩ (by omega)
  exact h.antisymm (hbelow k) (h.least hrest values (fun e he => hvalues e he ▸ h.refl _) k)

end Equations

end Lift6502
