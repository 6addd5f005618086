/-!
# Computations with a state that can fail

`Yields m s a s'` says that `m` succeeds from the state `s` with the value `a` and leaves the state
`s'`; `Fails m s e` says that it fails with `e`. -/

namespace Lift6502

abbrev Fallible (ε σ : Type) := ExceptT ε (StateM σ)

variable {ε σ α β : Type} {m : Fallible ε σ α} {s s' : σ} {a : α} {b : β} {e : ε}
  {f : Unit → Fallible ε σ α} {g : σ → σ}

theorem run_bind (m : Fallible ε σ α) (f : α → Fallible ε σ β) (s : σ) :
    (m >>= f).run.run s =
      match m.run.run s with
      | (.ok a, s') => (f a).run.run s'
      | (.error e, s') => (.error e, s') := by
  show (ExceptT.bindCont f (m s).1) (m s).2 = _
  rcases h : m s with ⟨e | a, s'⟩
  · have h' : m.run.run s = (.error e, s') := h
    rw [h']
    rfl
  · have h' : m.run.run s = (.ok a, s') := h
    rw [h']
    rfl

theorem run_bind_error (h : (m.run.run s).1 = .error e) (f : α → Fallible ε σ β) :
    ((m >>= f).run.run s).1 = .error e := by
  rw [run_bind]
  rcases hr : m.run.run s with ⟨e' | a, s'⟩
  · rw [hr] at h
    cases h
    rfl
  · rw [hr] at h
    cases h

def Yields (m : Fallible ε σ α) (s : σ) (a : α) (s' : σ) : Prop :=
  m.run.run s = (.ok a, s')

namespace Yields

theorem pure_iff {a b : α} : Yields (pure a : Fallible ε σ α) s b s' ↔ b = a ∧ s' = s := by
  constructor
  · intro h
    have h' : ((.ok a, s) : Except ε α × σ) = (.ok b, s') := h
    simp only [Prod.mk.injEq, Except.ok.injEq] at h'
    exact ⟨h'.1.symm, h'.2.symm⟩
  · rintro ⟨rfl, rfl⟩
    rfl

theorem bind_iff {f : α → Fallible ε σ β} {s'' : σ} :
    Yields (m >>= f) s b s'' ↔ ∃ a s', Yields m s a s' ∧ Yields (f a) s' b s'' := by
  unfold Yields
  rw [run_bind]
  rcases m.run.run s with ⟨e | a, s'⟩
  · constructor
    · intro h
      cases h
    · rintro ⟨a, s1, h, -⟩
      cases h
  · constructor
    · intro h
      exact ⟨a, s', rfl, h⟩
    · rintro ⟨a1, s1, h, hf⟩
      cases h
      exact hf

theorem bind_pure_iff {f : α → β} :
    Yields (m >>= fun a => pure (f a)) s b s' ↔ ∃ a, Yields m s a s' ∧ b = f a := by
  rw [bind_iff]
  constructor
  · rintro ⟨a, s1, hm, hp⟩
    obtain ⟨rfl, rfl⟩ := pure_iff.1 hp
    exact ⟨a, hm, rfl⟩
  · rintro ⟨a, hm, rfl⟩
    exact ⟨a, s', hm, pure_iff.2 ⟨rfl, rfl⟩⟩

theorem map_iff {f : α → β} : Yields (f <$> m) s b s' ↔ ∃ a, Yields m s a s' ∧ b = f a := by
  rw [← bind_pure_comp, bind_pure_iff]

theorem of_pure {a b : α} (h : Yields (pure a : Fallible ε σ α) s b s') : b = a ∧ s' = s :=
  pure_iff.1 h

theorem of_bind {f : α → Fallible ε σ β} {s'' : σ} (h : Yields (m >>= f) s b s'') :
    ∃ a s', Yields m s a s' ∧ Yields (f a) s' b s'' :=
  bind_iff.1 h

theorem foldlM_invariant {f : β → α → Fallible ε σ β} {I : List α → β → σ → Prop}
    (hstep : ∀ a rest b s b' s', I (a :: rest) b s → Yields (f b a) s b' s' → I rest b' s')
    {l : List α} {b b' : β} (h : I l b s) (hy : Yields (l.foldlM f b) s b' s') : I [] b' s' := by
  induction l generalizing b s with
  | nil =>
    obtain ⟨rfl, rfl⟩ := pure_iff.1 hy
    exact h
  | cons a rest ih =>
    rw [List.foldlM_cons] at hy
    obtain ⟨b1, s1, hfirst, hrest⟩ := bind_iff.1 hy
    exact ih (hstep a rest b s b1 s1 h hfirst) hrest

theorem not_throw : ¬ Yields (throw e : Fallible ε σ α) s a s' := by
  intro h
  have h' : ((.error e, s) : Except ε α × σ) = (.ok a, s') := h
  simp at h'

theorem get_iff {s s' a : σ} : Yields (get : Fallible ε σ σ) s a s' ↔ a = s ∧ s' = s := by
  constructor
  · intro h
    have h' : ((.ok s, s) : Except ε σ × σ) = (.ok a, s') := h
    simp only [Prod.mk.injEq, Except.ok.injEq] at h'
    exact ⟨h'.1.symm, h'.2.symm⟩
  · rintro ⟨rfl, rfl⟩
    rfl

theorem modify_iff {f : σ → σ} {u : Unit} :
    Yields (modify f : Fallible ε σ Unit) s u s' ↔ s' = f s := by
  constructor
  · intro h
    have h' : ((.ok (), f s) : Except ε Unit × σ) = (.ok u, s') := h
    simp only [Prod.mk.injEq] at h'
    exact h'.2.symm
  · rintro rfl
    rfl

theorem get_bind_iff {f : σ → Fallible ε σ α} :
    Yields (get >>= f) s a s' ↔ Yields (f s) s a s' := Iff.rfl

theorem modify_bind_iff : Yields (modify g >>= f) s a s' ↔ Yields (f ()) (g s) a s' := Iff.rfl

theorem modifyGet_iff {f : σ → α × σ} :
    Yields (modifyGet f : Fallible ε σ α) s a s' ↔ f s = (a, s') := by
  constructor
  · intro h
    have h' : ((.ok (f s).1, (f s).2) : Except ε α × σ) = (.ok a, s') := h
    simp only [Prod.mk.injEq, Except.ok.injEq] at h'
    exact Prod.ext h'.1 h'.2
  · intro h
    have h' : ((.ok (f s).1, (f s).2) : Except ε α × σ) = (.ok a, s') := by rw [h]
    exact h'

theorem ofExcept_iff {x : Except ε α} :
    Yields (MonadExcept.ofExcept x : Fallible ε σ α) s a s' ↔ x = .ok a ∧ s' = s := by
  cases x with
  | error e =>
    constructor
    · intro h
      exact absurd h not_throw
    · rintro ⟨h, -⟩
      cases h
  | ok b =>
    constructor
    · intro h
      obtain ⟨rfl, rfl⟩ := pure_iff.1 h
      exact ⟨rfl, rfl⟩
    · rintro ⟨h, rfl⟩
      cases h
      exact pure_iff.2 ⟨rfl, rfl⟩

end Yields

def Fails (m : Fallible ε σ α) (s : σ) (e : ε) : Prop := (m.run.run s).1 = .error e

namespace Fails

theorem not_pure : ¬ Fails (pure a : Fallible ε σ α) s e := by
  intro h
  have h' : (.ok a : Except ε α) = .error e := h
  cases h'

theorem throw_iff {e e' : ε} : Fails (throw e' : Fallible ε σ α) s e ↔ e = e' := by
  constructor
  · intro h
    have h' : (.error e' : Except ε α) = .error e := h
    cases h'
    rfl
  · rintro rfl
    rfl

theorem not_get : ¬ Fails (get : Fallible ε σ σ) s e := by
  intro h
  have h' : (.ok s : Except ε σ) = .error e := h
  cases h'

theorem not_modify {f : σ → σ} : ¬ Fails (modify f : Fallible ε σ Unit) s e := by
  intro h
  have h' : (.ok () : Except ε Unit) = .error e := h
  cases h'

theorem get_bind_iff {f : σ → Fallible ε σ α} : Fails (get >>= f) s e ↔ Fails (f s) s e :=
  Iff.rfl

theorem modify_bind_iff : Fails (modify g >>= f) s e ↔ Fails (f ()) (g s) e := Iff.rfl

theorem not_modifyGet {f : σ → α × σ} : ¬ Fails (modifyGet f : Fallible ε σ α) s e := by
  intro h
  have h' : (.ok (f s).1 : Except ε α) = .error e := h
  cases h'

theorem bind_iff {f : α → Fallible ε σ β} :
    Fails (m >>= f) s e ↔ Fails m s e ∨ ∃ a s', Yields m s a s' ∧ Fails (f a) s' e := by
  unfold Fails Yields
  rw [run_bind]
  rcases m.run.run s with ⟨e' | a, s'⟩
  · constructor
    · intro h
      cases h
      exact .inl rfl
    · rintro (h | ⟨a, s1, h, -⟩)
      · cases h
        rfl
      · cases h
  · constructor
    · intro h
      exact .inr ⟨a, s', rfl, h⟩
    · rintro (h | ⟨a1, s1, h, hf⟩)
      · cases h
      · cases h
        exact hf

end Fails

end Lift6502
