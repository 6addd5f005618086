import Lift6502.Proofs.Generate.Compose
import Lift6502.Proofs.Generate.Emit

/-!
# How generation proceeds

Generators add statements behind those that are there and only note more about the loops around
(`Progress.Grows`). From points that differ at most in what breaks assign they give the same
(`Progress.Alike`).
-/

namespace Lift6502

open Yields

variable {α β : Type} {m : Gen α} {f : α → Gen β}

namespace Frame

/-- More jumps and breaks of the loop are known. -/
structure Grows (f f' : Frame) : Prop where
  label : f'.label = f.label
  header : f'.header = f.header
  phis : f'.phis = f.phis
  stack : f'.stack = f.stack
  follow : f'.follow = f.follow
  widened : ∀ l ∈ f.widened, l ∈ f'.widened
  breaks : f.breaks <+: f'.breaks

variable {f f' f'' : Frame}

theorem Grows.refl (f : Frame) : f.Grows f :=
  ⟨rfl, rfl, rfl, rfl, rfl, fun _ h => h, List.prefix_refl _⟩

theorem Grows.trans (h : f.Grows f') (h' : f'.Grows f'') : f.Grows f'' where
  label := h'.label.trans h.label
  header := h'.header.trans h.header
  phis := h'.phis.trans h.phis
  stack := h'.stack.trans h.stack
  follow := h'.follow.trans h.follow
  widened := fun l hl => h'.widened l (h.widened l hl)
  breaks := h.breaks.trans h'.breaks

theorem Grows.repair (h : f.Grows f') : f'.repair f = f := by
  have hbreaks : f'.breaks.take f.breaks.length = f.breaks :=
    (List.prefix_iff_eq_take.1 h.breaks).symm
  unfold Frame.repair
  rw [hbreaks, h.label, h.header, h.phis, h.stack, h.follow]

def unfollowed (f : Frame) : Frame := { f with follow := none }

theorem eq_of_unfollowed_eq (h : f'.unfollowed = f.unfollowed) :
    f' = { f with follow := f'.follow } := by
  cases f
  cases f'
  cases h
  rfl

end Frame

namespace Progress

/-- Generation has gone on; the statements may have been taken out. -/
structure Later (p p' : Progress) : Prop where
  issue : p.issue.Le p'.issue
  length : p'.frames.length = p.frames.length
  frame : ∀ (k : Nat) f f', p.frames[k]? = some f → p'.frames[k]? = some f' → f.Grows f'

/-- Generation has gone on from one point to another. -/
structure Grows (p p' : Progress) : Prop extends Later p p' where
  out : p.out.toList <+: p'.out.toList

/-- The points differ at most in what is emitted, in the journal, and in the variables that
breaks assign. -/
structure Alike (p q : Progress) : Prop where
  temps : q.temps = p.temps
  merges : q.merges = p.merges
  frames : q.frames.map Frame.unfollowed = p.frames.map Frame.unfollowed

variable {p p' p'' q q' : Progress}

theorem Later.refl (p : Progress) : p.Later p := by
  refine ⟨.refl _, rfl, fun k f f' hf hf' => ?_⟩
  rw [hf] at hf'
  cases hf'
  exact .refl f

theorem Later.trans (h : p.Later p') (h' : p'.Later p'') : p.Later p'' := by
  refine ⟨h.issue.trans h'.issue, h'.length.trans h.length, fun k f f'' hf hf'' => ?_⟩
  have hk : k < p'.frames.length := by
    rw [h.length]
    exact (List.getElem?_eq_some_iff.1 hf).1
  have hf' := List.getElem?_eq_getElem hk
  exact (h.frame k f _ hf hf').trans (h'.frame k _ f'' hf' hf'')

theorem Grows.refl (p : Progress) : p.Grows p := ⟨.refl p, List.prefix_refl _⟩

theorem Grows.trans (h : p.Grows p') (h' : p'.Grows p'') : p.Grows p'' :=
  ⟨h.toLater.trans h'.toLater, h.out.trans h'.out⟩

theorem later_out (p : Progress) (out : Array Statement) : p.Later { p with out } :=
  { Later.refl p with }

theorem Extends.grows (h : p.Extends p') : p.Grows p' := by
  refine ⟨⟨h.issue, congrArg List.length h.frames, fun k f f' hf hf' => ?_⟩, h.out⟩
  rw [h.frames, hf] at hf'
  cases hf'
  exact .refl f

/-- Repairing the point leads back to `start`; only the journal goes on. -/
def Returns (p start : Progress) : Prop := p.repair start = { start with journal := p.journal }

theorem Grows.returns (h : p.Grows p') (hout : p'.out = p.out) : p'.Returns p := by
  have hframes : p'.frames.zipWith Frame.repair p.frames = p.frames := by
    apply List.ext_getElem?
    intro k
    rw [List.getElem?_zipWith]
    cases hf : p.frames[k]? with
    | none => cases p'.frames[k]? <;> rfl
    | some f =>
      have hk : k < p'.frames.length := h.length ▸ (List.getElem?_eq_some_iff.1 hf).1
      have hf' := List.getElem?_eq_getElem hk
      rw [hf']
      exact congrArg some (h.frame k f _ hf hf').repair
  unfold Returns Progress.repair
  rw [hframes, hout]

theorem Returns.refl (p : Progress) : p.Returns p := (Grows.refl p).returns rfl

theorem Returns.note (h : p.Returns p') (merges : Nat) (journal : Journal) :
    Returns { p with merges, journal } p' := by
  have hnoted := congrArg (fun q : Progress => { q with journal := journal }) h
  exact hnoted

end Progress

def Parallel {α : Type} (m m' : Gen α) : Prop :=
  ∀ p a p' q b q', p.Alike q → Yields m p a p' → Yields m' q b q' → b = a ∧ p'.Alike q'

/-- A generator that proceeds in order, and alike from points that are alike. -/
structure Steady {α : Type} (m : Gen α) : Prop where
  grows : ∀ {p a p'}, Yields m p a p' → p.Grows p'
  parallel : Parallel m m

theorem Parallel.bind {m' : Gen α} {f' : α → Gen β} (hm : Parallel m m')
    (hf : ∀ a, Parallel (f a) (f' a)) : Parallel (m >>= f) (m' >>= f') := by
  intro p b p' q b' q' hq hy hy'
  obtain ⟨a, p1, hy1, hy2⟩ := hy.of_bind
  obtain ⟨a', q1, hy1', hy2'⟩ := hy'.of_bind
  obtain ⟨rfl, hq1⟩ := hm p a p1 q a' q1 hq hy1 hy1'
  exact hf a' p1 b p' q1 b' q' hq1 hy2 hy2'

theorem Parallel.emit (statement statement' : Statement) :
    Parallel (Gen.emit statement) (Gen.emit statement') := by
  intro p a p' q b q' hq hy hy'
  obtain rfl := yields_emit.1 hy
  obtain rfl := yields_emit.1 hy'
  exact ⟨rfl, hq.temps, hq.merges, hq.frames⟩

namespace Steady

variable {α β : Type}

theorem of_fixed (h : ∀ p a p', Yields m p a p' → p.Extends p' ∧
    ∀ q b q', p.Alike q → Yields m q b q' → b = a ∧ q'.temps = p'.temps ∧ q'.merges = p'.merges ∧
      q'.frames = q.frames) : Steady m := by
  refine ⟨fun hy => (h _ _ _ hy).1.grows, fun p a p' q b q' hq hy hy' => ?_⟩
  obtain ⟨hmore, hagain⟩ := h p a p' hy
  obtain ⟨hb, htemps, hmerges, hframes⟩ := hagain q b q' hq hy'
  refine ⟨hb, htemps, hmerges, ?_⟩
  rw [hframes, hmore.frames]
  exact hq.frames

theorem pure (a : α) : Steady (pure a : Gen α) := by
  refine .of_fixed fun p b p' hy => ?_
  obtain ⟨rfl, rfl⟩ := hy.of_pure
  refine ⟨.refl _, fun q b' q' hq hy' => ?_⟩
  obtain ⟨rfl, rfl⟩ := hy'.of_pure
  exact ⟨rfl, hq.temps, hq.merges, rfl⟩

theorem throw (e : GenerationError) : Steady (throw e : Gen α) :=
  .of_fixed fun _ _ _ hy => absurd hy not_throw

theorem bind (hm : Steady m) (hf : ∀ a, Steady (f a)) : Steady (m >>= f) := by
  refine ⟨fun hy => ?_, hm.parallel.bind fun a => (hf a).parallel⟩
  obtain ⟨a, p1, hy1, hy2⟩ := hy.of_bind
  exact (hm.grows hy1).trans ((hf a).grows hy2)

end Steady

/-! ## The parts that generators are made of -/

variable {p p' : Progress}

namespace Gen

variable {α : Type} {r : α × List Statement} {g : Gen α} {f : α × List Statement → Gen β}

theorem steady_emit (statement : Statement) : Steady (emit statement) := by
  refine .of_fixed fun p a p' hy => ?_
  obtain rfl := yields_emit.1 hy
  refine ⟨⟨Progress.prefix_push rfl, rfl, .refl _⟩, fun q b q' hq hy' => ?_⟩
  obtain rfl := yields_emit.1 hy'
  exact ⟨rfl, hq.temps, hq.merges, rfl⟩

theorem steady_newTemp : Steady newTemp := by
  refine .of_fixed fun p a p' hy => ?_
  obtain ⟨rfl, rfl⟩ := yields_newTemp.1 hy
  refine ⟨⟨List.prefix_refl _, rfl, Nat.le_succ _, Nat.le_refl _, id⟩, fun q b q' hq hy' => ?_⟩
  obtain ⟨rfl, rfl⟩ := yields_newTemp.1 hy'
  exact ⟨by rw [hq.temps], by rw [hq.temps], hq.merges, rfl⟩

theorem steady_newMerge (l : Location) : Steady (newMerge l) := by
  refine .of_fixed fun p a p' hy => ?_
  obtain ⟨rfl, rfl⟩ := yields_newMerge.1 hy
  refine ⟨⟨List.prefix_refl _, rfl, Nat.le_refl _, Nat.le_succ _, id⟩, fun q b q' hq hy' => ?_⟩
  obtain ⟨rfl, rfl⟩ := yields_newMerge.1 hy'
  exact ⟨by rw [hq.merges], hq.temps, by rw [hq.merges], rfl⟩

theorem composable_steady : Composable (fun _ => True) @Steady where
  pure := .pure
  throw := fun _ => .throw _
  bind := .bind
  emit := steady_emit
  newTemp := steady_newTemp
  newMerge := steady_newMerge
  unbound := fun _ _ _ => trivial
  stackMismatch := fun _ _ _ => trivial

theorem threads_steady : Threads False (fun _ => True) fun m _ => Steady m :=
  composable_steady.threads

theorem yields_capture :
    Yields (capture g) p r p' ↔ ∃ p1, Yields g { p with out := #[] } r.1 p1 ∧
      r.2 = p1.out.toList ∧ p' = { p1 with out := p.out } := by
  unfold capture
  simp only [bind_iff, get_iff, modify_iff, pure_iff]
  constructor
  · rintro ⟨_, _, ⟨rfl, rfl⟩, _, _, rfl, a, p1, hg, _, _, ⟨rfl, rfl⟩, _, _, rfl, rfl, rfl⟩
    exact ⟨_, hg, rfl, rfl⟩
  · rintro ⟨p1, hg, hr, rfl⟩
    exact ⟨p, p, ⟨rfl, rfl⟩, (), _, rfl, r.1, p1, hg, p1, p1, ⟨rfl, rfl⟩, (), _, rfl,
      Prod.ext rfl hr, rfl⟩

theorem yields_capture_bind {b : β} : Yields (capture g >>= f) p b p' ↔
      ∃ a out p1, Yields g { p with out := #[] } a p1 ∧ out = p1.out.toList ∧
        Yields (f (a, out)) { p1 with out := p.out } b p' := by
  simp only [bind_iff, yields_capture]
  constructor
  · rintro ⟨r, _, ⟨p1, hg, hout, rfl⟩, hf⟩
    exact ⟨r.1, r.2, p1, hg, hout, hf⟩
  · rintro ⟨a, out, p1, hg, hout, hf⟩
    exact ⟨(a, out), _, ⟨p1, hg, hout, rfl⟩, hf⟩

theorem grows_capture (hg : Steady g) (hy : Yields (capture g) p r p') : p.Grows p' := by
  obtain ⟨p1, hg', -, rfl⟩ := yields_capture.1 hy
  exact ⟨{ (hg.grows hg').toLater with }, List.prefix_refl _⟩

theorem parallel_capture_bind (hg : Steady g) {f' : α × List Statement → Gen β}
    (hf : ∀ a statements statements', Parallel (f (a, statements)) (f' (a, statements'))) :
    Parallel (capture g >>= f) (capture g >>= f') := by
  intro p b p' q b' q' hq hy hy'
  obtain ⟨a, statements, p2, hp2, -, hrest⟩ := yields_capture_bind.1 hy
  obtain ⟨a', statements', q2, hq2, -, hrest'⟩ := yields_capture_bind.1 hy'
  have hstart : Progress.Alike { p with out := #[] } { q with out := #[] } :=
    ⟨hq.temps, hq.merges, hq.frames⟩
  obtain ⟨hsame, halike⟩ := hg.parallel _ a p2 _ a' q2 hstart hp2 hq2
  subst hsame
  have hend : Progress.Alike { p2 with out := p.out } { q2 with out := q.out } :=
    ⟨halike.temps, halike.merges, halike.frames⟩
  exact hf a' statements statements' _ b p' _ b' q' hend hrest hrest'

theorem steady_capture_bind (hg : Steady g) (hf : ∀ r, Steady (f r))
    (hparallel : ∀ a statements statements', Parallel (f (a, statements)) (f (a, statements'))) :
    Steady (capture g >>= f) := by
  refine ⟨fun hy => ?_, parallel_capture_bind hg hparallel⟩
  obtain ⟨r, p1, hcapture, hrest⟩ := hy.of_bind
  exact (grows_capture hg hcapture).trans ((hf r).grows hrest)

end Gen

namespace Generator

open Gen

variable (c : Generator) (s : SymbolicState) {u : Unit}

theorem steady_block (b : BlockId) : Steady (c.block b s) :=
  threads_steady.block False.elim b fun _ _ _ => ⟨trivial, trivial, trivial⟩

theorem yields_emitConditional {test : Expression} {t e : List Statement}
    (hy : Yields (emitConditional test t e) p u p') : p' = { p with out := p'.out } := by
  unfold emitConditional at hy
  split at hy
  · obtain ⟨-, rfl⟩ := hy.of_pure
    rfl
  · obtain rfl := yields_emit.1 hy
    rfl
  · obtain rfl := yields_emit.1 hy
    rfl

theorem parallel_emitConditional (test : Expression) (t e t' e' : List Statement) :
    Parallel (emitConditional test t e) (emitConditional test t' e') := by
  intro p a p' q b q' hq hy hy'
  rw [yields_emitConditional hy, yields_emitConditional hy']
  exact ⟨rfl, hq.temps, hq.merges, hq.frames⟩

end Generator

/-! ## Jumps -/

namespace Progress

variable {p q : Progress} {k : Nat} {f f' g : Frame}

theorem grows_set_frame (hf : p.frames[k]? = some f) (h : f.Grows f') :
    p.Grows { p with frames := p.frames.set k f' } := by
  refine ⟨⟨.refl _, List.length_set, fun j e e' he he' => ?_⟩, List.prefix_refl _⟩
  by_cases hj : k = j
  · subst hj
    rw [hf] at he
    rw [List.getElem?_set_self (List.getElem?_eq_some_iff.1 hf).1] at he'
    cases he
    cases he'
    exact h
  · rw [List.getElem?_set_ne hj, he] at he'
    cases he'
    exact .refl e

theorem Alike.set_frame (h : p.Alike q) (hf : g.unfollowed = f.unfollowed) :
    Alike { p with frames := p.frames.set k f } { q with frames := q.frames.set k g } := by
  refine ⟨h.temps, h.merges, ?_⟩
  show (q.frames.set k g).map _ = (p.frames.set k f).map _
  rw [List.map_set, List.map_set, h.frames, hf]

theorem Alike.getElem? (h : p.Alike q) (k : Nat) :
    q.frames[k]?.map Frame.unfollowed = p.frames[k]?.map Frame.unfollowed := by
  rw [← List.getElem?_map, ← List.getElem?_map, h.frames]

end Progress

namespace Generator

open Gen

variable {p p' q start : Progress} {u : Unit} {k rounds reserved : Nat} {s : SymbolicState}
  {c : Generator} {f : Frame} {task : LoopTask} {widened : LocationSet} {follow : Option Carriers}
  {a : Attempt} {flow : Option SymbolicState} {q' : Progress} {plan : Carriers}

theorem jumpPosition?_congr {frames frames' : List Frame}
    (h : frames'.map Frame.label = frames.map Frame.label) (label : Option String) :
    jumpPosition? label frames' = jumpPosition? label frames := by
  unfold jumpPosition?
  cases label with
  | none =>
    have hempty : ∀ frames : List Frame, frames.isEmpty = (frames.map Frame.label).isEmpty :=
      fun frames => by cases frames <;> rfl
    simp only [hempty, h]
  | some name =>
    have hfind : ∀ frames : List Frame, frames.findIdx? (fun f => f.label == some name) =
        (frames.map Frame.label).findIdx? (· == some name) := fun frames => by
      rw [List.findIdx?_map]
      rfl
    simp only [hfind, h]

theorem jumpPosition?_map_unfollowed (label : Option String) (frames : List Frame) :
    jumpPosition? label (frames.map Frame.unfollowed) = jumpPosition? label frames := by
  refine jumpPosition?_congr ?_ label
  rw [List.map_map]
  rfl

theorem yields_framePosition {label : Option String} :
    Yields (c.framePosition label) p k p' ↔ jumpPosition? label p.frames = some k ∧ p' = p := by
  unfold framePosition
  simp only [bind_iff, get_iff]
  constructor
  · rintro ⟨_, _, ⟨rfl, rfl⟩, hy⟩
    split at hy
    · next position hposition =>
      obtain ⟨rfl, rfl⟩ := hy.of_pure
      exact ⟨hposition, rfl⟩
    · exact absurd hy not_throw
  · rintro ⟨hposition, rfl⟩
    refine ⟨p', p', ⟨rfl, rfl⟩, ?_⟩
    rw [hposition]
    exact rfl

theorem steady_framePosition (c : Generator) (label : Option String) :
    Steady (c.framePosition label) := by
  refine .of_fixed fun p a p' hy => ?_
  obtain ⟨hposition, rfl⟩ := yields_framePosition.1 hy
  refine ⟨.refl _, fun q b q' hq hy' => ?_⟩
  obtain ⟨hposition', rfl⟩ := yields_framePosition.1 hy'
  rw [← jumpPosition?_map_unfollowed, hq.frames, jumpPosition?_map_unfollowed,
    hposition] at hposition'
  cases hposition'
  exact ⟨rfl, hq.temps, hq.merges, rfl⟩

theorem yields_jumpToHeader (hf : p.frames[k]? = some f) :
    Yields (jumpToHeader k s) p u p' ↔ s.stack = f.stack ∧
      Yields (assignAtOnce (headerAssignments f.phis s))
        { p with frames := p.frames.set k { f with widened := f.widened.union (lostAt f.phis s) } }
        u p' := by
  unfold jumpToHeader
  rw [get_bind_iff]
  simp only [hf]
  constructor
  · intro hy
    split at hy
    · exact absurd hy not_throw
    · next hstack =>
      exact ⟨by simpa using hstack, modify_bind_iff.1 hy⟩
  · rintro ⟨hstack, hassign⟩
    rw [if_neg (by simpa using hstack)]
    exact modify_bind_iff.2 hassign

theorem yields_jumpToHeader_none (hf : p.frames[k]? = none)
    (hy : Yields (jumpToHeader k s) p u p') : p' = p := by
  unfold jumpToHeader at hy
  have hrest := get_bind_iff.1 hy
  simp only [hf] at hrest
  exact hrest.of_pure.2

theorem steady_jumpToHeader (k : Nat) (s : SymbolicState) : Steady (jumpToHeader k s) := by
  refine ⟨fun {p u p'} hy => ?_, fun p u p' q u' q' hq hy hy' => ?_⟩
  · rcases hf : p.frames[k]? with _ | f
    · rw [yields_jumpToHeader_none hf hy]
      exact .refl p
    · obtain ⟨-, hassign⟩ := (yields_jumpToHeader hf).1 hy
      refine (Progress.grows_set_frame hf ?_).trans
        ((threads_steady.assignAtOnce False.elim).grows hassign)
      refine ⟨rfl, rfl, rfl, rfl, rfl, fun l hl => ?_, List.prefix_refl _⟩
      exact LocationSet.mem_union.2 (.inl hl)
  · have hframe := hq.getElem? k
    rcases hf : p.frames[k]? with _ | f <;> rcases hg : q.frames[k]? with _ | g <;>
      rw [hf, hg] at hframe
    · rw [yields_jumpToHeader_none hf hy, yields_jumpToHeader_none hg hy']
      exact ⟨rfl, hq⟩
    · cases hframe
    · cases hframe
    · rw [Frame.eq_of_unfollowed_eq (Option.some.inj hframe)] at hg
      obtain ⟨-, hassign⟩ := (yields_jumpToHeader hf).1 hy
      obtain ⟨-, hassign'⟩ := (yields_jumpToHeader hg).1 hy'
      let noted : Frame := { f with widened := f.widened.union (lostAt f.phis s) }
      have halike := hq.set_frame (k := k) (f := noted) (g := { noted with follow := g.follow }) rfl
      exact (threads_steady.assignAtOnce False.elim).parallel _ _ _ _ _ _ halike hassign
        hassign'

theorem yields_recordBreak (hf : p.frames[k]? = some f) :
    Yields (recordBreak k s) p u p' ↔ ∃ p1, Yields (assignFollow f s) p () p1 ∧
      p' = { p1 with frames := p1.frames.set k { f with breaks := f.breaks ++ [s] } } := by
  unfold recordBreak
  rw [get_bind_iff]
  simp only [hf]
  constructor
  · intro hy
    obtain ⟨_, p1, hfollow, hmodify⟩ := hy.of_bind
    exact ⟨p1, hfollow, modify_iff.1 hmodify⟩
  · rintro ⟨p1, hfollow, rfl⟩
    exact bind_iff.2 ⟨(), p1, hfollow, modify_iff.2 rfl⟩

theorem yields_recordBreak_none (hf : p.frames[k]? = none)
    (hy : Yields (recordBreak k s) p u p') : p' = p := by
  unfold recordBreak at hy
  have hrest := get_bind_iff.1 hy
  simp only [hf] at hrest
  exact hrest.of_pure.2

theorem yields_assignFollow (hy : Yields (assignFollow f s) p u p') :
    p'.temps = p.temps ∧ p'.merges = p.merges ∧ p'.frames = p.frames ∧
      p.out.toList <+: p'.out.toList := by
  unfold assignFollow at hy
  generalize (f.follow.getD .empty).toList = carried at hy
  induction carried generalizing p with
  | nil =>
    obtain ⟨-, rfl⟩ := hy.of_pure
    exact ⟨rfl, rfl, rfl, List.prefix_refl _⟩
  | cons a rest ih =>
    obtain ⟨_, p1, hfirst, hrest⟩ := hy.of_bind
    obtain ⟨e, _, hread, hemit⟩ := hfirst.of_bind
    obtain ⟨-, rfl⟩ := ofExcept_iff.1 hread
    obtain rfl := yields_emit.1 hemit
    obtain ⟨htemps, hmerges, hframes, hout⟩ := ih hrest
    exact ⟨htemps, hmerges, hframes, (Progress.prefix_push rfl).trans hout⟩

theorem steady_recordBreak (k : Nat) (s : SymbolicState) : Steady (recordBreak k s) := by
  refine ⟨fun {p u p'} hy => ?_, fun p u p' q u' q' hq hy hy' => ?_⟩
  · rcases hf : p.frames[k]? with _ | f
    · rw [yields_recordBreak_none hf hy]
      exact .refl p
    · obtain ⟨p1, hfollow, rfl⟩ := (yields_recordBreak hf).1 hy
      obtain ⟨htemps, hmerges, hframes, hout⟩ := yields_assignFollow hfollow
      have hmore : p.Extends p1 :=
        ⟨hout, hframes, by unfold Progress.issue; rw [htemps, hmerges]; exact .refl _⟩
      refine hmore.grows.trans (Progress.grows_set_frame (by rw [hframes]; exact hf) ?_)
      exact ⟨rfl, rfl, rfl, rfl, rfl, fun _ h => h, List.prefix_append _ _⟩
  · have hframe := hq.getElem? k
    rcases hf : p.frames[k]? with _ | f <;> rcases hg : q.frames[k]? with _ | g <;>
      rw [hf, hg] at hframe
    · rw [yields_recordBreak_none hf hy, yields_recordBreak_none hg hy']
      exact ⟨rfl, hq⟩
    · cases hframe
    · cases hframe
    · rw [Frame.eq_of_unfollowed_eq (Option.some.inj hframe)] at hg
      obtain ⟨p1, hfollow, rfl⟩ := (yields_recordBreak hf).1 hy
      obtain ⟨q1, hfollow', rfl⟩ := (yields_recordBreak hg).1 hy'
      obtain ⟨htemps, hmerges, hframes, -⟩ := yields_assignFollow hfollow
      obtain ⟨htemps', hmerges', hframes', -⟩ := yields_assignFollow hfollow'
      refine ⟨rfl, Progress.Alike.set_frame ⟨?_, ?_, ?_⟩ rfl⟩
      · rw [htemps, htemps', hq.temps]
      · rw [hmerges, hmerges', hq.merges]
      · rw [hframes, hframes', hq.frames]

def loopTask (c : Generator) (kind : LoopKind) (header : BlockId) (condition : Option Condition)
    (body : List ControlNode) (label : Option String) : LoopTask where
  kind := kind
  header := header
  name := c.graph.name header
  condition := condition
  label := label
  modified := c.modifiedBy header body
  body := c.nodes body

end Generator

/-! ## Whole trees -/

/-- A property of generators that holds of the parts that they are made of and of jumps to the loops
around, and goes through captured code. What is done behind captured code may have to be the `Same`
for all statements. -/
structure Nestable (Q : ∀ {α : Type}, Gen α → Prop) (Same : ∀ {α : Type}, Gen α → Gen α → Prop) :
    Prop extends Composable (fun _ => True) Q where
  same : ∀ {α : Type} {m : Gen α}, Q m → Same m m
  same_bind : ∀ {α β : Type} {m m' : Gen α} {f f' : α → Gen β}, Same m m' →
    (∀ a, Same (f a) (f' a)) → Same (m >>= f) (m' >>= f')
  same_emit : ∀ statement statement', Same (Gen.emit statement) (Gen.emit statement')
  same_emitConditional : ∀ test t e t' e',
    Same (Generator.emitConditional test t e) (Generator.emitConditional test t' e')
  same_capture : ∀ {α β : Type} {g : Gen α} {f f' : α × List Statement → Gen β}, Q g →
    (∀ a body body', Same (f (a, body)) (f' (a, body'))) →
    Same (Gen.capture g >>= f) (Gen.capture g >>= f')
  capture_bind : ∀ {α β : Type} {g : Gen α} {f : α × List Statement → Gen β}, Q g → (∀ r, Q (f r)) →
    (∀ a body body', Same (f (a, body)) (f (a, body'))) → Q (Gen.capture g >>= f)
  framePosition : ∀ (c : Generator) label, Q (c.framePosition label)
  jumpToHeader : ∀ k s, Q (Generator.jumpToHeader k s)
  recordBreak : ∀ k s, Q (Generator.recordBreak k s)

def ThroughLoops (Q : ∀ {α : Type}, Gen α → Prop) : Prop :=
  ∀ (c : Generator) kind header condition body label,
    (∀ s, Q (c.nodes body s)) → ∀ s, Q (c.loop (c.loopTask kind header condition body label) s)

namespace Nestable

variable {Q : ∀ {α : Type}, Gen α → Prop} {Same : ∀ {α : Type}, Gen α → Gen α → Prop}
  (h : Nestable Q Same) (c : Generator)

include h

theorem anyCondition (condition : Condition) (s : SymbolicState) : Q (c.condition condition s) :=
  h.threads.condition False.elim condition fun _ _ _ _ => trivial

theorem anyBlock (b : BlockId) (s : SymbolicState) : Q (c.block b s) :=
  h.threads.block False.elim b fun _ _ _ => ⟨trivial, trivial, trivial⟩

theorem conditional (condition : Condition) {thenBranch elseBranch : PathGen}
    (ht : ∀ s, Q (thenBranch s)) (he : ∀ s, Q (elseBranch s)) (join : Option BlockId)
    (s : SymbolicState) : Q (c.conditional condition thenBranch elseBranch join s) := by
  refine h.bind (h.anyCondition c condition s) fun test => ?_
  refine h.capture_bind (ht s) (fun t => h.capture_bind (he s) (fun e => ?_) ?_) ?_
  · exact h.bind (h.threads.join False.elim False.elim _) fun _ =>
      h.bind (h.emitConditional _ _ _) fun _ => h.pure _
  · intro flow e e'
    exact h.same_bind (h.same (h.threads.join False.elim False.elim _)) fun _ =>
      h.same_bind (h.same_emitConditional _ _ _ _ _) fun _ => h.same (h.pure _)
  · intro flow t t'
    refine h.same_capture (he s) fun flow e e' => ?_
    exact h.same_bind (h.same (h.threads.join False.elim False.elim _)) fun _ =>
      h.same_bind (h.same_emitConditional _ _ _ _ _) fun _ => h.same (h.pure _)

theorem resumeLoop (label : Option String) (s : SymbolicState) : Q (c.resumeLoop label s) :=
  h.bind (h.framePosition c label) fun k => h.bind (h.jumpToHeader k s) fun _ =>
    h.bind (h.emit _) fun _ => h.pure none

theorem leaveLoop (label : Option String) (s : SymbolicState) : Q (c.leaveLoop label s) :=
  h.bind (h.framePosition c label) fun k => h.bind (h.recordBreak k s) fun _ =>
    h.bind (h.emit _) fun _ => h.pure none

theorem passEnd (condition : Condition) (phis : Carriers) (s : SymbolicState) :
    Q (c.passEnd condition phis s) :=
  h.bind (h.anyCondition c condition s) fun _ =>
    h.bind (Composable.ite (fun _ => h.threads.keepInTemp False.elim) fun _ => h.pure _) fun _ =>
      h.bind (h.threads.stateAfterTest False.elim phis) fun _ =>
        h.bind (h.jumpToHeader 0 s) fun _ => h.pure _

section Loops

variable {task : Generator.LoopTask} (hbody : ∀ s, Q (task.body s))

include hbody

theorem passBody (s : SymbolicState) : Q (Generator.passBody task s) := by
  refine h.bind (hbody s) fun flow => ?_
  split
  · exact h.pure ()
  · exact h.jumpToHeader 0 _

theorem testedPass (condition : Condition) (phis : Carriers) (s : SymbolicState) :
    Q (c.testedPass task condition phis s) := by
  refine h.bind (hbody s) fun flow => ?_
  split
  · exact h.pure none
  · exact h.map (h.passEnd c condition phis _) _

theorem emitLoop (phis : Carriers) (entry : SymbolicState) : Q (c.emitLoop task phis entry) := by
  have hemit : ∀ statement (exit : Option SymbolicState),
      Q (Gen.emit statement >>= fun _ => pure exit) :=
    fun statement exit => h.bind (h.emit statement) fun _ => h.pure exit
  have hsame : ∀ statement statement' (exit : Option SymbolicState),
      Same (Gen.emit statement >>= fun _ => pure exit) (Gen.emit statement' >>= fun _ =>
        pure exit) :=
    fun _ _ exit => h.same_bind (h.same_emit _ _) fun _ => h.same (h.pure exit)
  unfold Generator.emitLoop
  split
  · refine h.capture_bind (h.testedPass c hbody _ _ _) (fun r => ?_) fun tested _ _ => ?_
    · obtain ⟨_ | tested, body⟩ := r <;> exact hemit _ _
    · cases tested <;> exact hsame _ _ _
  · refine h.capture_bind (h.anyBlock c _ _) (fun r => ?_) fun tested _ _ => ?_
    · obtain ⟨_ | tested, header⟩ := r
      · exact h.throw trivial
      · refine h.bind (h.anyCondition c _ _) fun test => ?_
        exact h.capture_bind (h.passBody hbody _) (fun _ => hemit _ _) fun _ _ _ => hsame _ _ _
    · cases tested with
      | none => exact h.same (h.throw trivial)
      | some tested =>
        refine h.same_bind (h.same (h.anyCondition c _ _)) fun test => ?_
        exact h.same_capture (h.passBody hbody _) fun _ _ _ => hsame _ _ _
  · exact h.capture_bind (h.passBody hbody _) (fun _ => hemit _ _) fun _ _ _ => hsame _ _ _
  · exact h.throw trivial
  · exact h.throw trivial

end Loops

mutual

theorem node (hloop : ThroughLoops Q) (n : ControlNode) (s : SymbolicState) : Q (c.node n s) := by
  cases n with
  | block b => exact h.anyBlock c b s
  | cond condition t e join =>
    exact h.conditional c condition (fun s => nodes hloop t s) (fun s => nodes hloop e s) join s
  | loop kind header condition body label follow =>
    exact hloop c kind header condition body label (fun s => nodes hloop body s) s
  | goto b => exact h.threads.goto False.elim False.elim b (fun _ _ => trivial) fun _ _ => trivial
  | breakLoop label => exact h.leaveLoop c label s
  | continueLoop label => exact h.resumeLoop c label s

theorem nodes (hloop : ThroughLoops Q) (l : List ControlNode) (s : SymbolicState) :
    Q (c.nodes l s) := by
  cases l with
  | nil => exact h.pure _
  | cons n rest =>
    rw [Generator.nodes]
    refine h.bind (node hloop n s) fun flow => ?_
    split
    · exact nodes hloop rest _
    · exact h.pure none

end

end Nestable

theorem Composable.nestable {Q : ∀ {α : Type}, Gen α → Prop} (h : Composable (fun _ => True) Q)
    (hcapture : ∀ {α : Type} {g : Gen α}, Q g → Q (Gen.capture g))
    (hframePosition : ∀ (c : Generator) label, Q (c.framePosition label))
    (hjumpToHeader : ∀ k s, Q (Generator.jumpToHeader k s))
    (hrecordBreak : ∀ k s, Q (Generator.recordBreak k s)) : Nestable Q fun _ _ => True where
  toComposable := h
  same := fun _ => trivial
  same_bind := fun _ _ => trivial
  same_emit := fun _ _ => trivial
  same_emitConditional := fun _ _ _ _ _ => trivial
  same_capture := fun _ _ => trivial
  capture_bind := fun hg hf _ => h.bind (hcapture hg) hf
  framePosition := hframePosition
  jumpToHeader := hjumpToHeader
  recordBreak := hrecordBreak

namespace Generator

open Gen

theorem nestable_steady : Nestable @Steady @Parallel where
  toComposable := composable_steady
  same := Steady.parallel
  same_bind := .bind
  same_emit := .emit
  same_emitConditional := parallel_emitConditional
  same_capture := fun hg hf => parallel_capture_bind hg hf
  capture_bind := steady_capture_bind
  framePosition := steady_framePosition
  jumpToHeader := steady_jumpToHeader
  recordBreak := steady_recordBreak

/-! ## Loops -/

variable {p p' q start : Progress} {u : Unit} {rounds reserved : Nat} {s : SymbolicState}
  {c : Generator} {task : LoopTask} {widened : LocationSet} {follow : Option Carriers}
  {a : Attempt} {flow : Option SymbolicState} {q' : Progress} {plan : Carriers}

def LoopTask.frame (task : LoopTask) (s : SymbolicState) (phis : Carriers)
    (follow : Option Carriers) : Frame :=
  { label := task.label, header := task.name, phis, stack := s.stack, follow }

section

variable (hbody : ∀ s, Steady (task.body s)) (hy : Yields (c.attempt task s widened follow) p a p')

include hbody hy

theorem yields_attempt :
    ∃ phis entry p1 p2 f rest, Yields (enterLoop task s widened) { p with out := #[] }
      (phis, entry) p1 ∧ Yields (c.emitLoop task phis entry)
        { p1 with frames := task.frame s phis follow :: p1.frames } a.testExit p2 ∧
      p2.frames = f :: rest ∧ a.statements = p2.out.toList ∧ a.widened = f.widened ∧
      a.breaks = f.breaks ∧ p' = { p2 with frames := rest, out := p.out } := by
  unfold attempt at hy
  obtain ⟨⟨finished, testExit⟩, statements, p3, hinner, rfl, hpure⟩ := yields_capture_bind.1 hy
  obtain ⟨rfl, rfl⟩ := hpure.of_pure
  obtain ⟨⟨phis, entry⟩, p1, henter, hpush⟩ := hinner.of_bind
  obtain ⟨testExit', p2, hloop, hpop⟩ := bind_iff.1 (modify_bind_iff.1 hpush)
  have hpure := modify_bind_iff.1 (get_bind_iff.1 hpop)
  obtain ⟨hresult, rfl⟩ := hpure.of_pure
  cases hresult
  rcases hframes : p2.frames with _ | ⟨f, rest⟩
  · have hlength := ((nestable_steady.emitLoop c hbody phis entry).grows hloop).length
    rw [hframes] at hlength
    cases hlength
  · exact ⟨phis, entry, p1, p2, f, rest, henter, hloop, hframes, rfl, by simp, by simp, by simp⟩

theorem grows_attempt : p.Grows p' := by
  obtain ⟨phis, entry, p1, p2, f, rest, henter, hloop, hframes, -, -, -, rfl⟩ :=
    yields_attempt hbody hy
  have hin := (threads_steady.enterLoop False.elim task widened).grows henter
  have hout := (nestable_steady.emitLoop c hbody phis entry).grows hloop
  have hlength := hout.length
  rw [hframes] at hlength
  -- Behind the loop's own frame the frames are those of the loops around it.
  have hpopped : Progress.Grows { p1 with out := p.out }
      { p2 with frames := rest, out := p.out } := by
    refine ⟨⟨hout.issue, Nat.succ.inj hlength, fun k f f' hf hf' => ?_⟩, List.prefix_refl _⟩
    refine hout.frame (k + 1) f f' hf ?_
    rw [hframes]
    exact hf'
  have hentered : p.Grows { p1 with out := p.out } :=
    ⟨{ hin.toLater with }, List.prefix_refl _⟩
  exact hentered.trans hpopped

end

theorem returns_attempt (hbody : ∀ s, Steady (task.body s)) {journal : Journal}
    (hy : Yields (c.attempt task s widened follow) { start with journal } a p') :
    p'.Returns start := by
  obtain ⟨-, -, -, p2, -, rest, -, -, -, -, -, -, rfl⟩ := yields_attempt hbody hy
  have hreturns := (grows_attempt hbody hy).returns rfl
  exact hreturns

theorem parallel_attempt (hbody : ∀ s, Steady (task.body s)) {follow' : Option Carriers}
    {b : Attempt} (hq : p.Alike q) (hy : Yields (c.attempt task s widened follow) p a p')
    (hy' : Yields (c.attempt task s widened follow') q b q') :
    b.widened = a.widened ∧ b.breaks = a.breaks ∧ b.testExit = a.testExit ∧ p'.Alike q' := by
  obtain ⟨phis, entry, p1, p2, f, rest, henter, hloop, hframes, -, hwidened, hbreaks, rfl⟩ :=
    yields_attempt hbody hy
  obtain ⟨phis', entry', q1, q2, f', rest', henter', hloop', hframes', -, hwidened',
      hbreaks', rfl⟩ :=
    yields_attempt hbody hy'
  have hstart : Progress.Alike { p with out := #[] } { q with out := #[] } :=
    ⟨hq.temps, hq.merges, hq.frames⟩
  obtain ⟨hsame, hq1⟩ := (threads_steady.enterLoop False.elim task widened).parallel _ _
    p1 _ _ q1 hstart henter henter'
  cases hsame
  have hinside : Progress.Alike { p1 with frames := task.frame s phis follow :: p1.frames }
      { q1 with frames := task.frame s phis follow' :: q1.frames } := by
    refine ⟨hq1.temps, hq1.merges, ?_⟩
    show _ :: _ = _ :: _
    rw [hq1.frames]
    rfl
  obtain ⟨hexit, hq2⟩ :=
    (nestable_steady.emitLoop c hbody phis entry).parallel _ _ p2 _ _ q2 hinside hloop hloop'
  have hunfollowed := hq2.frames
  rw [hframes, hframes', List.map_cons, List.map_cons, List.cons.injEq] at hunfollowed
  have hf := Frame.eq_of_unfollowed_eq hunfollowed.1
  refine ⟨?_, ?_, hexit, hq2.temps, hq2.merges, hunfollowed.2⟩
  · rw [hwidened, hwidened', hf]
  · rw [hbreaks, hbreaks', hf]

def planFor (a : Attempt) (follow : Option Carriers) : Gen Carriers :=
  if follow.isSome then pure .empty else breakCarriers a.breaks

theorem yields_breakCarriers {breaks : List SymbolicState}
    (hy : Yields (breakCarriers breaks) p plan p') :
    (∃ last, p.merges ≤ last ∧ p' = { p with merges := last }) ∧
      ∀ l v, plan.get l = some v → ∃ id, v = .merge l id ∧ p.merges < id ∧ id ≤ p'.merges := by
  unfold breakCarriers at hy
  split at hy
  · obtain ⟨rfl, rfl⟩ := hy.of_pure
    refine ⟨⟨p'.merges, Nat.le_refl _, rfl⟩, fun l v hv => ?_⟩
    rw [Carriers.get_empty] at hv
    cases hv
  -- The plan so far uses numbers above the one at the start.
  refine foldlM_invariant (I := fun _ (plan : Carriers) q =>
    (∃ last, p.merges ≤ last ∧ q = { p with merges := last }) ∧
      ∀ l v, plan.get l = some v → ∃ id, v = .merge l id ∧ p.merges < id ∧ id ≤ q.merges) ?_
    ⟨⟨p.merges, Nat.le_refl _, rfl⟩, fun l v hv => ?_⟩ hy
  · rintro l _ plan q plan' q' ⟨⟨last, hlast, rfl⟩, hplan⟩ hstep
    dsimp only at hstep
    split at hstep
    · obtain ⟨v, hnew, rfl⟩ := bind_pure_iff.1 hstep
      obtain ⟨rfl, rfl⟩ := yields_newMerge.1 hnew
      refine ⟨⟨last + 1, Nat.le_succ_of_le hlast, rfl⟩, fun k v hv => ?_⟩
      rw [Carriers.get_set] at hv
      by_cases hk : k = l
      · rw [if_pos hk] at hv
        cases hv
        exact ⟨last + 1, by rw [hk], Nat.lt_succ_of_le hlast, Nat.le_refl _⟩
      · rw [if_neg hk] at hv
        obtain ⟨id, hid, hlow, hhigh⟩ := hplan k v hv
        exact ⟨id, hid, hlow, Nat.le_succ_of_le hhigh⟩
    · obtain ⟨rfl, rfl⟩ := hstep.of_pure
      exact ⟨⟨last, hlast, rfl⟩, hplan⟩
  · rw [Carriers.get_empty] at hv
    cases hv

def reserve (p : Progress) (reserved : Nat) : Progress := { p with merges := max p.merges reserved }

end Generator

end Lift6502
