import Lift6502.Proofs.Generate.Moves

/-!
# Keeping values

What the parts that every generator is made of emit.
-/

namespace Lift6502

open Expression Gen Progress Environment Yields

variable {inUse : Progress → Issue} {H : Host} {p p' : Progress} {σ : Scene} {e : Expression}
  {statement : Statement} {u : Unit} {v : Variable} {vs : List Variable} {value : Variable → UInt32}
  {w : UInt32}

theorem yields_emit :
    Yields (emit statement) p u p' ↔ p' = { p with out := p.out.push statement } :=
  modify_iff

theorem yields_emit_pure {α : Type} {a b : α} : Yields (do emit statement; return a) p b p' ↔
      b = a ∧ p' = { p with out := p.out.push statement } := by
  simp only [bind_iff, yields_emit, pure_iff, exists_eq_left, exists_const]

theorem yields_newTemp :
    Yields newTemp p v p' ↔ v = .temp (p.temps + 1) ∧ p' = { p with temps := p.temps + 1 } := by
  unfold newTemp
  rw [modifyGet_iff, Prod.mk.injEq]
  exact ⟨fun h => ⟨h.1.symm, h.2.symm⟩, fun h => ⟨h.1.symm, h.2.symm⟩⟩

theorem yields_newMerge {l : Location} : Yields (newMerge l) p v p' ↔
      v = .merge l (p.merges + 1) ∧ p' = { p with merges := p.merges + 1 } := by
  unfold newMerge
  rw [modifyGet_iff, Prod.mk.injEq]
  exact ⟨fun h => ⟨h.1.symm, h.2.symm⟩, fun h => ⟨h.1.symm, h.2.symm⟩⟩

theorem not_isIssued_newTemp (inUse : Progress → Issue) [Counts inUse] (p : Progress) :
    ¬ (Variable.temp (p.temps + 1)).IsIssued (inUse p) := by
  show ¬ p.temps + 1 ≤ (inUse p).temps
  rw [Counts.temps]
  omega

theorem isIssued_newTemp (inUse : Progress → Issue) [Counts inUse] (p : Progress) :
    (Variable.temp p.temps).IsIssued (inUse p) := by
  show p.temps ≤ (inUse p).temps
  exact Nat.le_of_eq (Counts.temps p).symm

theorem not_isIssued_newMerge (p : Progress) (l : Location) :
    ¬ (Variable.merge l (p.merges + 1)).IsIssued p.issue := by
  show ¬ p.merges + 1 ≤ p.merges
  omega

theorem Progress.emitted_push (h : p'.out = p.out.push statement) : p.emitted p' = [statement] := by
  apply emitted_eq
  rw [h, Array.toList_push]

theorem Progress.prefix_push (h : p'.out = p.out.push statement) :
    p.out.toList <+: p'.out.toList := by
  rw [h, Array.toList_push]
  exact List.prefix_append _ _

theorem Host.run_push {p'' : Progress} {σ' : Scene} (hout : p.out.toList <+: p'.out.toList)
    (hrun : H.run (p.emitted p') σ = .ok (.normal, σ')) (h : p''.out = p'.out.push statement) :
    H.run (p.emitted p'') σ = statement.run H.fuel H.caller H.function σ' := by
  rw [emitted_trans hout (prefix_push h), emitted_push h,
    Host.run_append_of_normal hrun, Host.run_singleton]

theorem performs_emit (σ' : Scene) (hrun : H.run [statement] σ = .ok (.normal, σ'))
    (hkeeps : σ.env.Keeps (inUse p) σ'.env) {Q : Unit → Progress → Scene → Prop}
    (hQ : Q () { p with out := p.out.push statement } σ') :
    Performs inUse H (emit statement) p σ Q := by
  intro u p' hy
  obtain rfl := yields_emit.1 hy
  refine ⟨σ', ⟨⟨prefix_push rfl, rfl, .refl _⟩, ?_, hkeeps⟩, hQ⟩
  rw [emitted_push rfl]
  exact hrun

theorem yields_keepInTemp {e' : Expression} : Yields (keepInTemp e) p e' p' ↔
      e' = .var (.temp (p.temps + 1)) ∧
        p' = { p with
          temps := p.temps + 1, out := p.out.push (.assign (.temp (p.temps + 1)) e) } := by
  unfold keepInTemp
  simp only [bind_iff, yields_newTemp, and_assoc, exists_and_left, exists_eq_left,
    yields_emit, pure_iff, exists_const]

/-- What a value kept from here on satisfies: the memory is the same, and it has the value. -/
def Kept (inUse : Progress → Issue) (σ : Scene) (w : UInt32) (e : Expression) (p' : Progress)
    (σ' : Scene) : Prop :=
  σ'.memory = σ.memory ∧ e.HasValue (σ'.env.known (inUse p')) w

variable [Counts inUse] {assignments : List (Variable × Expression)} {assigned : List Variable}

theorem performs_keepInTemp (inUse : Progress → Issue) [Counts inUse]
    (h : e.eval H.function σ.env σ.memory = .ok w) :
    Performs inUse H (keepInTemp e) p σ (Kept inUse σ w) := by
  intro e' p' hy
  obtain ⟨rfl, rfl⟩ := yields_keepInTemp.1 hy
  refine ⟨σ.assign (.temp (p.temps + 1)) w, ⟨⟨?_, rfl, ?_⟩, ?_, ?_⟩, rfl, ?_⟩
  · exact prefix_push rfl
  · exact ⟨Nat.le_succ _, Nat.le_refl _, id⟩
  · rw [emitted_push rfl]
    exact Host.run_assign h
  · exact keeps_set (not_isIssued_newTemp inUse p) w
  · refine .var (known_eq_some (isIssued_newTemp inUse _) ?_)
    show (σ.env.set _ w).get? _ = _
    rw [get?_set, if_pos rfl]

theorem Expression.HasValue.eval_known {i : Issue} (h : e.HasValue (σ.env.known i) w)
    (function : String) : e.eval function σ.env σ.memory = .ok w :=
  (h.mono (σ.env.known_le i)).eval function σ.memory

theorem performs_stableValue (h : e.HasValue (σ.env.known (inUse p)) w) :
    Performs inUse H (stableValue e) p σ (Kept inUse σ w) := by
  unfold stableValue
  split
  · exact .pure ⟨rfl, h⟩
  · exact .pure ⟨rfl, h⟩
  · exact .pure ⟨rfl, h⟩
  · exact performs_keepInTemp inUse (h.eval_known H.function)

theorem performs_load {a : UInt16} (h : e.HasValue (σ.env.known (inUse p)) a.toUInt32) :
    Performs inUse H (load e) p σ (Kept inUse σ (σ.memory.read a).toUInt32) := by
  refine performs_keepInTemp inUse ?_
  have hbyte : σ.memory[a.toUInt32.toNat]? = some (σ.memory.read a) := by
    rw [UInt16.toNat_toUInt32, Vector.getElem?_eq_getElem a.toNat_lt]
    rfl
  rw [Expression.eval, h.eval_known]
  simp only [bind, Except.bind, hbyte]

omit [Counts inUse] in
theorem performs_read_bind {β : Type} {s : SymbolicState} {c : Core} {base : List UInt8}
    (hm : Matches inUse c base s p σ) {l : Location} {block : String}
    {f : Expression → Gen β} {R : β → Progress → Scene → Prop}
    (hf : ∀ e, e.HasValue (σ.env.known (inUse p)) (c.cpu.value l) → Performs inUse H (f e) p σ R) :
    Performs inUse H (Gen.read s l block >>= f) p σ R := by
  intro b p' hy
  obtain ⟨e, p1, hread, hrest⟩ := hy.of_bind
  obtain ⟨he, rfl⟩ := ofExcept_iff.1 hread
  exact hf e (hm.describes.of_read he) b p' hrest

/-! ## Assigning at once -/

def Pending (known : Known) (value : Variable → UInt32) :
    List Variable → List Variable → List Statement → Prop
  | _, [], pending => pending = []
  | assigned, v :: rest, pending => ∃ e later, pending = .assign v e :: later ∧
      e.HasValue known (value v) ∧ e.mentionsOneOf assigned = false ∧
      Pending known value (assigned ++ [v]) rest later

theorem not_mem_reads_of_mentionsOneOf (h : e.mentionsOneOf vs = false) (hv : v ∈ e.reads) :
    v ∉ vs := by
  intro hvs
  unfold mentionsOneOf at h
  rw [List.any_eq_false] at h
  exact h v hvs (by unfold mentions; exact List.contains_iff_mem.2 hv)

theorem mentionsOneOf_of_keepInTemp {e' : Expression} (hy : Yields (keepInTemp e) p e' p')
    (hvs : ∀ v ∈ vs, ∀ id, v ≠ .temp id) : e'.mentionsOneOf vs = false := by
  obtain ⟨rfl, -⟩ := yields_keepInTemp.1 hy
  unfold mentionsOneOf
  rw [List.any_eq_false]
  intro v hv hmentions
  rw [mentions, reads, List.contains_iff_mem, List.mem_singleton] at hmentions
  exact hvs v hv _ hmentions

def Scene.KeepsLater (σ : Scene) (p' : Progress) (σ' : Scene) : Prop :=
  ∀ id, p'.temps < id → σ'.env.get? (.temp id) = σ.env.get? (.temp id)

theorem performs_keepApart (h : e.HasValue (σ.env.known (inUse p)) w)
    (hvs : ∀ v ∈ vs, ∀ id, v ≠ .temp id) :
    Performs inUse H (if e.mentionsOneOf vs then keepInTemp e else pure e) p σ
      fun e' p' σ' => Kept inUse σ w e' p' σ' ∧ e'.mentionsOneOf vs = false ∧
        σ.KeepsLater p' σ' := by
  by_cases hm : e.mentionsOneOf vs = true
  · rw [if_pos hm]
    intro e' p' hy
    have heval := h.eval_known H.function
    obtain ⟨σ', hmove, hkept⟩ := performs_keepInTemp (H := H) inUse heval e' p' hy
    refine ⟨σ', hmove, hkept, mentionsOneOf_of_keepInTemp hy hvs, fun id hid => ?_⟩
    obtain ⟨-, rfl⟩ := yields_keepInTemp.1 hy
    have hrun := hmove.run
    rw [emitted_push rfl, Host.run_assign heval] at hrun
    cases hrun
    exact (get?_set ..).trans
      (if_neg fun heq => Nat.ne_of_gt hid (Variable.temp.inj heq))
  · rw [if_neg hm]
    exact .pure ⟨⟨rfl, h⟩, by simpa using hm, fun _ _ => rfl⟩

theorem Pending.run {known : Known} {pending : List Statement}
    (h : Pending known value assigned vs pending)
    (hσ : ∀ v, v ∉ assigned → ∀ w, known v = some w → σ.env.get? v = some w) :
    ∃ σ', H.run pending σ = .ok (.normal, σ') ∧ σ'.memory = σ.memory ∧
      ∀ v, σ'.env.get? v = if v ∈ vs then some (value v) else σ.env.get? v := by
  induction vs generalizing assigned pending σ with
  | nil =>
    obtain rfl := h
    exact ⟨σ, rfl, rfl, fun v => rfl⟩
  | cons v rest ih =>
    obtain ⟨e, later, rfl, he, hm, hrest⟩ := h
    have heval : e.eval H.function σ.env σ.memory = .ok (value v) := by
      refine (he.congr fun u hu w hw => ?_).eval H.function σ.memory
      exact hσ u (not_mem_reads_of_mentionsOneOf hm hu) w hw
    obtain ⟨σ', hrun, hmemory, henv⟩ := ih (σ := σ.assign v (value v)) hrest (by
      intro u hu w hw
      rw [List.mem_append, not_or] at hu
      show (σ.env.set v (value v)).get? u = _
      rw [get?_set, if_neg (by simpa using hu.2)]
      exact hσ u hu.1 w hw)
    refine ⟨σ', ?_, hmemory, fun u => ?_⟩
    · have happ : Statement.assign v e :: later = [.assign v e] ++ later := rfl
      rw [happ, Host.run_append_of_normal (Host.run_assign heval)]
      exact hrun
    · rw [henv u]
      show (if u ∈ rest then _ else (σ.env.set v (value v)).get? u) = _
      rw [get?_set]
      by_cases hr : u ∈ rest
      · rw [if_pos hr, if_pos (List.mem_cons_of_mem v hr)]
      · rw [if_neg hr]
        by_cases huv : u = v
        · rw [if_pos huv, if_pos (by rw [huv]; exact List.mem_cons_self), huv]
        · rw [if_neg huv, if_neg (by simp [huv, hr])]

theorem performs_assignAtOnce_go (hassigned : ∀ v ∈ assigned, ∀ id, v ≠ .temp id)
    (hassignments : ∀ a ∈ assignments, (∀ id, a.1 ≠ .temp id) ∧
      a.2.HasValue (σ.env.known (inUse p)) (value a.1)) :
    Performs inUse H (assignAtOnce.go assigned assignments) p σ fun pending p' σ' =>
      σ'.memory = σ.memory ∧ σ.KeepsLater p' σ' ∧
        Pending (σ'.env.known (inUse p')) value assigned (assignments.map (·.1)) pending := by
  induction assignments generalizing assigned p σ with
  | nil => exact .pure ⟨rfl, fun _ _ => rfl, rfl⟩
  | cons a rest ih =>
    obtain ⟨v, e⟩ := a
    obtain ⟨hv, he⟩ := hassignments (v, e) List.mem_cons_self
    have hassigned' : ∀ u ∈ assigned ++ [v], ∀ id, u ≠ .temp id := by
      intro u hu
      rcases List.mem_append.1 hu with hu | hu
      · exact hassigned u hu
      · rw [List.mem_singleton.1 hu]
        exact hv
    unfold assignAtOnce.go
    refine .bind (performs_keepApart he hassigned)
      fun e' p1 σ1 hmove ⟨⟨hmemory, he'⟩, hm, hlater⟩ => ?_
    refine .bind (ih hassigned' fun a ha => ?_)
      fun pending p2 σ2 hmove2 ⟨hmemory2, hlater2, hpending⟩ => ?_
    · obtain ⟨ha, hvalue⟩ := hassignments a (List.mem_cons_of_mem _ ha)
      exact ⟨ha, hvalue.mono hmove.known_le⟩
    · refine .pure ⟨hmemory2.trans hmemory, fun id hid => ?_, e', pending, rfl,
        he'.mono hmove2.known_le, hm, hpending⟩
      exact (hlater2 id hid).trans (hlater id (Nat.lt_of_le_of_lt hmove2.more.issue.temps hid))

theorem yields_emitAll {statements : List Statement} : Yields (emitAll statements) p u p' ↔
      p' = { p with out := p.out ++ statements.toArray } := by
  unfold emitAll
  induction statements generalizing p with
  | nil =>
    show Yields (pure ()) p u p' ↔ _
    rw [pure_iff]
    simp
  | cons statement rest ih =>
    show Yields (emit statement >>= fun _ => rest.forM emit) p u p' ↔ _
    rw [bind_iff]
    constructor
    · rintro ⟨_, p1, hemit, hrest⟩
      obtain rfl := yields_emit.1 hemit
      rw [ih.1 hrest]
      simp
    · rintro rfl
      exact ⟨(), _, yields_emit.2 rfl, ih.2 (by simp)⟩

/-- All variables get the values that the right sides have beforehand; besides them, only variables
that were not in use change. -/
theorem run_assignAtOnce (inUse : Progress → Issue) [Counts inUse]
    (hassignments : ∀ a ∈ assignments, (∀ id, a.1 ≠ .temp id) ∧
      a.2.HasValue (σ.env.known (inUse p)) (value a.1))
    (hy : Yields (assignAtOnce assignments) p u p') :
    p.Extends p' ∧ ∃ σ', H.run (p.emitted p') σ = .ok (.normal, σ') ∧ σ'.memory = σ.memory ∧
      (∀ v ∈ assignments.map (·.1), σ'.env.get? v = some (value v)) ∧
      (∀ v, v.IsIssued (inUse p) → v ∉ assignments.map (·.1) → σ'.env.get? v = σ.env.get? v) ∧
      σ.KeepsLater p' σ' := by
  unfold assignAtOnce at hy
  obtain ⟨pending, p1, hgo, hemit⟩ := hy.of_bind
  obtain rfl := yields_emitAll.1 hemit
  obtain ⟨σ1, hmove, hmemory, hlater, hpending⟩ :=
    performs_assignAtOnce_go (H := H) (by simp) hassignments pending p1 hgo
  obtain ⟨σ', hrun, hmemory', henv⟩ := hpending.run (H := H) (σ := σ1)
    fun v _ w hw => σ1.env.known_le (inUse p1) v w hw
  have hout : p1.out.toList <+: (p1.out ++ pending.toArray).toList := by
    rw [Array.toList_append]
    exact List.prefix_append _ _
  refine ⟨⟨hmove.more.out.trans hout, hmove.more.frames, hmove.more.issue⟩, σ', ?_,
    hmemory'.trans hmemory, fun v hv => ?_, fun v hv hnot => ?_, fun id hid => ?_⟩
  · have hemitted : p1.emitted { p1 with out := p1.out ++ pending.toArray } = pending :=
      emitted_eq (by simp)
    rw [emitted_trans hmove.more.out hout, Host.run_append_of_normal hmove.run, hemitted]
    exact hrun
  · rw [henv, if_pos hv]
  · rw [henv, if_neg hnot]
    exact hmove.keeps v hv
  · rw [henv, if_neg]
    · exact hlater id hid
    · intro htarget
      obtain ⟨a, ha, heq⟩ := List.mem_map.1 htarget
      exact (hassignments a ha).1 id heq

end Lift6502
