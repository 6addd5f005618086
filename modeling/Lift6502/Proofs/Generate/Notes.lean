import Lift6502.Proofs.Generate.Rounds

/-!
# What the loops around have noted

Generators are `Blind`: they never look at what the loops around a point have noted.
-/

namespace Lift6502

open Gen Generator LocationSet PerLocation

/-! ## Empty notes -/

open Gen

namespace LocationSet

theorem get_empty (l : Location) : get (∅ : LocationSet) l = false := by
  rcases l with r | f
  · cases r <;> rfl
  · cases f <;> rfl

theorem union_empty (w : LocationSet) : w.union ∅ = w := by
  apply ext
  intro l
  rw [union, get_ofFn, get_empty, Bool.or_false]

theorem empty_union (w : LocationSet) : (∅ : LocationSet).union w = w := by
  apply ext
  intro l
  rw [union, get_ofFn, get_empty, Bool.false_or]

theorem union_assoc (v w z : LocationSet) : (v.union w).union z = v.union (w.union z) := by
  apply ext
  intro l
  simp only [union, get_ofFn, Bool.or_assoc]

end LocationSet

namespace Frame

/-- What a loop has noted, behind what it had noted `before`. -/
def after (f before : Frame) : Frame :=
  { f with widened := before.widened.union f.widened, breaks := before.breaks ++ f.breaks }

def unnoted (f : Frame) : Frame := { f with widened := ∅, breaks := [] }

theorem unnoted_after (f : Frame) : f.unnoted.after f = f := by
  unfold after unnoted
  rw [union_empty, List.append_nil]

theorem after_of_empty {f before : Frame} (hwidened : before.widened = ∅)
    (hbreaks : before.breaks = []) : f.after before = f := by
  unfold after
  rw [hwidened, hbreaks, empty_union, List.nil_append]

theorem repair_after (f saved before : Frame) :
    (f.after before).repair (saved.after before) = (f.repair saved).after before := by
  have hbreaks : (before.breaks ++ f.breaks).take (before.breaks ++ saved.breaks).length =
      before.breaks ++ f.breaks.take saved.breaks.length := by
    rw [List.length_append, List.take_length_add_append]
  exact congrArg (fun breaks => { f with breaks, widened := before.widened.union saved.widened })
    hbreaks

end Frame

namespace Progress

variable {k : Nat}

def after (p : Progress) (before : List Frame) : Progress :=
  { p with frames := p.frames.zipWith Frame.after before }

def unnoted (p : Progress) : Progress := { p with frames := p.frames.map Frame.unnoted }

theorem unnoted_after (p : Progress) : p.unnoted.after p.frames = p := by
  have hframes : (p.frames.map Frame.unnoted).zipWith Frame.after p.frames = p.frames := by
    rw [List.zipWith_map_left, List.zipWith_self, List.map_congr_left fun f _ => f.unnoted_after,
      List.map_id']
  show { p with frames := (p.frames.map Frame.unnoted).zipWith Frame.after p.frames } = p
  rw [hframes]

variable {p : Progress} {before : List Frame}

theorem length_after (h : p.frames.length = before.length) :
    (p.after before).frames.length = p.frames.length := by
  show (p.frames.zipWith Frame.after before).length = _
  rw [List.length_zipWith, ← h, Nat.min_self]

theorem map_label_after (h : p.frames.length = before.length) :
    (p.after before).frames.map Frame.label = p.frames.map Frame.label := by
  show (p.frames.zipWith Frame.after before).map Frame.label = _
  generalize p.frames = frames at h
  induction frames generalizing before with
  | nil => rfl
  | cons f rest ih =>
    cases before with
    | nil => cases h
    | cons g others =>
      show _ :: _ = _ :: _
      rw [ih (Nat.succ.inj h)]
      rfl

theorem getElem?_after {f g : Frame} (hf : p.frames[k]? = some f) (hg : before[k]? = some g) :
    (p.after before).frames[k]? = some (f.after g) := by
  show (p.frames.zipWith Frame.after before)[k]? = _
  rw [List.getElem?_zipWith, hf, hg]

theorem getElem?_after_none (hf : p.frames[k]? = none) : (p.after before).frames[k]? = none := by
  show (p.frames.zipWith Frame.after before)[k]? = _
  rw [List.getElem?_zipWith, hf]

theorem after_set {f g : Frame} (hg : before[k]? = some g) :
    ({ p with frames := p.frames.set k f } : Progress).after before =
      { p.after before with frames := (p.after before).frames.set k (f.after g) } := by
  have hframes : (p.frames.set k f).zipWith Frame.after before =
      (p.frames.zipWith Frame.after before).set k (f.after g) := by
    apply List.ext_getElem?
    intro j
    rw [List.getElem?_zipWith, List.getElem?_set, List.getElem?_set, List.getElem?_zipWith,
      List.length_zipWith]
    by_cases hj : k = j
    · subst hj
      have hk : k < before.length := (List.getElem?_eq_some_iff.1 hg).1
      by_cases hlt : k < p.frames.length
      · rw [if_pos rfl, if_pos rfl, if_pos hlt, if_pos (by omega), hg]
      · rw [if_pos rfl, if_pos rfl, if_neg hlt, if_neg (by omega)]
    · rw [if_neg hj, if_neg hj]
  show { p with frames := (p.frames.set k f).zipWith Frame.after before } = _
  rw [hframes]
  rfl

theorem repair_after (p start : Progress) (before : List Frame) :
    (p.after before).repair (start.after before) = (p.repair start).after before := by
  have hframes : (p.frames.zipWith Frame.after before).zipWith Frame.repair
      (start.frames.zipWith Frame.after before) =
        (p.frames.zipWith Frame.repair start.frames).zipWith Frame.after before := by
    apply List.ext_getElem?
    intro k
    simp only [List.getElem?_zipWith]
    rcases p.frames[k]? with _ | f <;> rcases start.frames[k]? with _ | saved <;>
      rcases before[k]? with _ | g <;> try rfl
    exact congrArg some (f.repair_after saved g)
  exact congrArg (fun frames => { p with temps := start.temps, merges := start.merges, frames })
    hframes

end Progress

/-! ## Generators that do not look at the notes -/

/-- From a point whose loops had noted something, `m'` gives what `m` gives from the point without
it, and the same is noted. The loops may be others at the end. -/
def Echoes {α : Type} (m m' : Gen α) (p : Progress) (before before' : List Frame) : Prop :=
  ∀ a p', Yields m' (p.after before) a p' →
    ∃ q, Yields m p a q ∧ q.frames.length = before'.length ∧ p' = q.after before'

/-- The generator does not look at what the loops around have noted. -/
def Blind {α : Type} (m : Gen α) : Prop :=
  ∀ p before, p.frames.length = before.length → Echoes m m p before before

namespace Echoes

variable {α β : Type} {p : Progress} {before before' before'' : List Frame} {m m' : Gen α}

theorem pure (a : α) (h : p.frames.length = before.length) :
    Echoes (pure a) (pure a) p before before := by
  intro b p' hy
  obtain ⟨rfl, rfl⟩ := hy.of_pure
  exact ⟨p, rfl, h, rfl⟩

theorem throw (e e' : GenerationError) : Echoes (throw e : Gen α) (throw e') p before before' :=
  fun _ _ hy => absurd hy Yields.not_throw

theorem bind {f f' : α → Gen β} (hm : Echoes m m' p before before')
    (hf : ∀ a q, q.frames.length = before'.length → Echoes (f a) (f' a) q before' before'') :
    Echoes (m >>= f) (m' >>= f') p before before'' := by
  intro b p' hy
  obtain ⟨a, p1, hfirst, hrest⟩ := hy.of_bind
  obtain ⟨q, hq, hlength, rfl⟩ := hm a p1 hfirst
  obtain ⟨q', hq', hlength', rfl⟩ := hf a q hlength b p' hrest
  exact ⟨q', Yields.bind_iff.2 ⟨a, q, hq, hq'⟩, hlength', rfl⟩

theorem modify {g g' : Progress → Progress} (h : g' (p.after before) = (g p).after before')
    (hlength : (g p).frames.length = before'.length) :
    Echoes (modify g : Gen Unit) (modify g') p before before' :=
  fun _ _ hy => ⟨g p, Yields.modify_iff.2 rfl, hlength, (Yields.modify_iff.1 hy).trans h⟩

theorem modifyGet {g : Progress → α × Progress}
    (h : g (p.after before) = ((g p).1, (g p).2.after before))
    (hlength : (g p).2.frames.length = before.length) :
    Echoes (modifyGet g : Gen α) (modifyGet g) p before before := by
  intro a p' hy
  cases h.symm.trans (Yields.modifyGet_iff.1 hy)
  exact ⟨(g p).2, Yields.modifyGet_iff.2 rfl, hlength, rfl⟩

/-- A generator may look at the point if what it does then does not depend on the notes. -/
theorem get_bind {f f' : Progress → Gen β}
    (h : Echoes (f p) (f' (p.after before)) p before before') :
    Echoes (get >>= f) (get >>= f') p before before' := by
  intro b p' hy
  obtain ⟨q, hq, hrest⟩ := h b p' (Yields.get_bind_iff.1 hy)
  exact ⟨q, Yields.get_bind_iff.2 hq, hrest⟩

end Echoes

namespace Blind

variable {α β : Type}

theorem bind {m : Gen α} {f : α → Gen β} (hm : Blind m) (hf : ∀ a, Blind (f a)) : Blind (m >>= f) :=
  fun p before hlength => (hm p before hlength).bind fun a q hq => hf a q before hq

theorem capture {g : Gen α} (hg : Blind g) : Blind (Gen.capture g) := by
  intro p before hlength
  unfold Gen.capture
  refine .get_bind (.bind (.modify rfl hlength) fun _ q1 hlength1 => ?_)
  refine .bind (hg q1 before hlength1) fun a q2 hlength2 => ?_
  refine .get_bind (.bind (.modify rfl hlength2) fun _ q3 hlength3 => ?_)
  exact .pure _ hlength3

end Blind

theorem Gen.composable_blind : Composable (fun _ => True) @Blind where
  pure := fun a _ _ hlength => .pure a hlength
  throw := fun {_ e} _ _ _ _ => .throw e e
  bind := .bind
  emit := fun _ _ _ hlength => .modify rfl hlength
  newTemp := fun _ _ hlength => .modifyGet rfl hlength
  newMerge := fun _ _ _ hlength => .modifyGet rfl hlength
  unbound := fun _ _ _ => trivial
  stackMismatch := fun _ _ _ => trivial

namespace Generator

variable {c : Generator} {s : SymbolicState}

theorem blind_framePosition (label : Option String) : Blind (c.framePosition label) := by
  intro p before hlength
  refine .get_bind ?_
  rw [jumpPosition?_congr (Progress.map_label_after hlength)]
  split
  · exact .pure _ hlength
  · exact .throw _ _

theorem exists_before {frames before : List Frame} (hlength : frames.length = before.length)
    {k : Nat} {f : Frame} (hf : frames[k]? = some f) : ∃ g, before[k]? = some g := by
  have hk := (List.getElem?_eq_some_iff.1 hf).1
  exact ⟨_, List.getElem?_eq_getElem (hlength ▸ hk)⟩

theorem blind_jumpToHeader (k : Nat) (s : SymbolicState) : Blind (jumpToHeader k s) := by
  intro p before hlength
  refine .get_bind ?_
  rcases hf : p.frames[k]? with _ | f
  · rw [Progress.getElem?_after_none hf]
    exact .pure () hlength
  obtain ⟨g, hg⟩ := exists_before hlength hf
  rw [Progress.getElem?_after hf hg]
  show Echoes (if s.stack ≠ f.stack then _ else _) (if s.stack ≠ f.stack then _ else _) p before before
  split
  · exact .throw _ _
  · refine .bind (.modify ?_ (List.length_set.trans hlength)) fun _ q hq => ?_
    · rw [Progress.after_set hg]
      unfold Frame.after
      rw [union_assoc]
    · exact composable_blind.threads.assignAtOnce False.elim q before hq

theorem blind_recordBreak (k : Nat) (s : SymbolicState) : Blind (recordBreak k s) := by
  intro p before hlength
  refine .get_bind ?_
  rcases hf : p.frames[k]? with _ | f
  · rw [Progress.getElem?_after_none hf]
    exact .pure () hlength
  obtain ⟨g, hg⟩ := exists_before hlength hf
  rw [Progress.getElem?_after hf hg]
  have hassign : Blind (assignFollow f s) :=
    composable_blind.threads.assignFollow False.elim False.elim
  refine .bind (hassign p before hlength) fun _ q hq => .modify ?_ (List.length_set.trans hq)
  rw [Progress.after_set hg]
  unfold Frame.after
  rw [List.append_assoc]

theorem nestable_blind : Nestable @Blind fun _ _ => True :=
  composable_blind.nestable .capture (fun _ => blind_framePosition) blind_jumpToHeader
    blind_recordBreak

section Loops

variable {task : LoopTask} (hbody : ∀ s, Blind (task.body s))

include hbody

theorem blind_attempt (s : SymbolicState) (widened : LocationSet) (follow : Option Carriers) :
    Blind (c.attempt task s widened follow) := by
  refine .bind (Blind.capture fun p before hlength => ?_) fun _ => composable_blind.pure _
  refine .bind (composable_blind.threads.enterLoop False.elim task widened p before hlength)
    fun r p1 hp1 => ?_
  -- The loop itself has noted nothing before.
  let frame : Frame := task.frame s r.1 follow
  have hframe (f : Frame) : f.after frame = f := Frame.after_of_empty rfl rfl
  have hpush : ({ p1 with frames := frame :: p1.frames } : Progress).after (frame :: before) =
      { p1.after before with frames := frame :: (p1.after before).frames } := by
    show { p1 with frames := frame.after frame :: _ } = _
    rw [hframe]
    rfl
  refine .bind (.modify hpush.symm (congrArg (· + 1) hp1)) fun _ p2 hp2 => ?_
  refine .bind (nestable_blind.emitLoop c hbody r.1 r.2 p2 _ hp2) fun exit p3 hp3 => .get_bind ?_
  rcases hframes : p3.frames with _ | ⟨f, rest⟩
  · rw [hframes] at hp3
    cases hp3
  have hafter : (p3.after (frame :: before)).frames = f :: rest.zipWith Frame.after before := by
    show p3.frames.zipWith Frame.after (frame :: before) = _
    rw [hframes, List.zipWith_cons_cons, hframe]
  rw [hafter]
  rw [hframes] at hp3
  refine .bind (.modify ?_ ?_) fun _ p4 hp4 => .pure _ hp4
  · rw [hafter, hframes]
    show _ = { p3 with frames := rest.zipWith Frame.after before }
    rfl
  · rw [hframes]
    exact Nat.succ.inj hp3

theorem echoes_attempts {start : Progress} {before : List Frame}
    (hstart : start.frames.length = before.length) (rounds : Nat) (widened : LocationSet)
    (follow : Option Carriers) (reserved : Nat) (p : Progress)
    (hp : p.frames.length = before.length) :
    Echoes (c.attempts task s start rounds widened follow reserved)
      (c.attempts task s (start.after before) rounds widened follow reserved) p before before := by
  induction rounds generalizing widened follow reserved p with
  | zero => exact .throw _ _
  | succ rounds ih =>
    have hlength : (p.repair start).frames.length = before.length := by
      show (p.frames.zipWith Frame.repair start.frames).length = _
      rw [List.length_zipWith, hp, hstart, Nat.min_self]
    refine .bind (.modify (p.repair_after start before) hlength) fun _ p1 hp1 => ?_
    refine .bind (blind_attempt hbody s widened follow p1 before hp1) fun a p2 hp2 => ?_
    refine .bind (.modify rfl hp2) fun _ p3 hp3 => ?_
    split
    · exact .bind (.modify rfl hp3) fun _ p4 hp4 => ih _ _ _ p4 hp4
    · have hplan : Blind (planFor a follow) :=
        Composable.ite (fun _ => composable_blind.pure _) fun _ =>
          composable_blind.threads.breakCarriers _
      refine .bind (hplan p3 before hp3) fun plan p4 hp4 => ?_
      split
      · exact .bind (composable_blind.threads.emitAll False.elim p4 before hp4) fun _ p5 hp5 =>
          composable_blind.threads.afterLoop _ False.elim False.elim follow (fun _ _ => trivial) p5
            before hp5
      · exact .get_bind (ih _ _ _ p4 hp4)

end Loops

theorem blind_nodes (c : Generator) (nodes : List ControlNode) (s : SymbolicState) :
    Blind (c.nodes nodes s) := by
  refine nestable_blind.nodes c ?_ nodes s
  exact fun c _ _ _ _ _ hbody s p _ hlength =>
    .get_bind (echoes_attempts hbody hlength _ _ _ _ p hlength)

end Generator

end Lift6502
