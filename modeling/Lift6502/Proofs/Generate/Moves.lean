import Lift6502.Generate.Basic
import Lift6502.Proofs.Run.Untimed
import Lift6502.Proofs.Symbolic.Describes

/-!
# Generated code and its runs

`Moves inUse H p p' σ σ'` says that the statements emitted between `p` and `p'` lead from the scene
`σ` to `σ'` without changing a variable that was in use before.
-/

namespace Lift6502

variable {i j : Issue} {v : Variable} {w : UInt32} {H : Host} {σ σ' : Scene}
  {inUse : Progress → Issue} {p p' : Progress}

/-- The numbers of the last variables in use, or all variables except temporaries. -/
structure Issue where
  temps : Nat
  merges : Nat
  others : Bool
  deriving DecidableEq, Repr

namespace Issue

structure Le (i j : Issue) : Prop where
  temps : i.temps ≤ j.temps
  merges : i.merges ≤ j.merges
  others : i.others = true → j.others = true

theorem Le.refl (i : Issue) : i.Le i := ⟨Nat.le_refl _, Nat.le_refl _, id⟩

theorem Le.trans {k : Issue} (hij : i.Le j) (hjk : j.Le k) : i.Le k :=
  ⟨Nat.le_trans hij.temps hjk.temps, Nat.le_trans hij.merges hjk.merges,
    fun h => hjk.others (hij.others h)⟩

end Issue

/-- A variable in use. The one that selects a block is so only together with all others. -/
def Variable.IsIssued (i : Issue) : Variable → Prop
  | .temp id => id ≤ i.temps
  | .merge _ id =>
    match i.others with
    | true => True
    | false => id ≤ i.merges
  | .input _ => True
  | .dispatch => i.others = true

instance (i : Issue) (v : Variable) : Decidable (v.IsIssued i) := by
  rcases i with ⟨temps, merges, others⟩
  cases v <;> cases others <;> unfold Variable.IsIssued <;> infer_instance

theorem Variable.IsIssued.mono (h : v.IsIssued i) (hij : i.Le j) : v.IsIssued j := by
  cases v with
  | temp id => exact Nat.le_trans h hij.temps
  | merge l id =>
    rcases i with ⟨_, _, others⟩
    rcases j with ⟨_, _, others'⟩
    cases others' with
    | true => trivial
    | false =>
      cases others with
      | true => cases hij.others rfl
      | false => exact Nat.le_trans h hij.merges
  | input r => trivial
  | dispatch => exact hij.others h

namespace Environment

variable {v : Variable}

def known (env : Environment) (i : Issue) : Known := fun v => if v.IsIssued i then env.get? v else none

def Keeps (i : Issue) (env env' : Environment) : Prop :=
  ∀ v, v.IsIssued i → env'.get? v = env.get? v

variable {env env' env'' : Environment} {i j : Issue}

theorem known_le (env : Environment) (i : Issue) : (env.known i).Le env.get? := by
  intro v w h
  unfold known at h
  split at h
  · exact h
  · cases h

theorem known_eq_some (hv : v.IsIssued i) (h : env.get? v = some w) : env.known i v = some w := by
  unfold known
  rw [if_pos hv, h]

theorem isIssued_of_known (h : (env.known i v).isSome) : v.IsIssued i := by
  unfold known at h
  split at h
  · assumption
  · cases h

theorem Keeps.refl : Keeps i env env := fun _ _ => rfl

theorem Keeps.trans (h : Keeps i env env') (h' : Keeps j env' env'') (hij : i.Le j) :
    Keeps i env env'' := fun v hv => (h' v (hv.mono hij)).trans (h v hv)

theorem Keeps.mono (h : Keeps j env env') (hij : i.Le j) : Keeps i env env' :=
  fun v hv => h v (hv.mono hij)

theorem keeps_set (hv : ¬ v.IsIssued i) (w : UInt32) : Keeps i env (env.set v w) := by
  intro u hu
  rw [get?_set, if_neg]
  rintro rfl
  exact hv hu

theorem Keeps.known_le (h : Keeps i env env') (hij : i.Le j) : (env.known i).Le (env'.known j) := by
  intro v w hv
  have hissued : v.IsIssued i := isIssued_of_known (by rw [hv]; rfl)
  refine known_eq_some (hissued.mono hij) ?_
  rw [h v hissued]
  exact env.known_le i v w hv

end Environment

namespace Progress

def issue (p : Progress) : Issue := ⟨p.temps, p.merges, false⟩

def emitted (p p' : Progress) : List Statement := p'.out.toList.drop p.out.size

structure Extends (p p' : Progress) : Prop where
  out : p.out.toList <+: p'.out.toList
  frames : p'.frames = p.frames
  issue : p.issue.Le p'.issue

variable {p p' p'' : Progress}

theorem Extends.refl (p : Progress) : p.Extends p := ⟨List.prefix_refl _, rfl, .refl _⟩

theorem Extends.trans (h : p.Extends p') (h' : p'.Extends p'') : p.Extends p'' :=
  ⟨h.out.trans h'.out, h'.frames.trans h.frames, h.issue.trans h'.issue⟩

theorem emitted_eq {new : List Statement} (h : p'.out.toList = p.out.toList ++ new) :
    p.emitted p' = new := by
  unfold emitted
  rw [h, ← Array.length_toList, List.drop_left]

theorem out_eq_append_emitted (h : p.out.toList <+: p'.out.toList) :
    p'.out.toList = p.out.toList ++ p.emitted p' := by
  obtain ⟨new, hnew⟩ := h
  rw [emitted_eq hnew.symm, hnew]

theorem emitted_trans (h : p.out.toList <+: p'.out.toList) (h' : p'.out.toList <+: p''.out.toList) :
    p.emitted p'' = p.emitted p' ++ p'.emitted p'' := by
  apply emitted_eq
  rw [out_eq_append_emitted h', out_eq_append_emitted h, List.append_assoc]

theorem emitted_self (p : Progress) : p.emitted p = [] :=
  emitted_eq (List.append_nil _).symm

end Progress

/-- Where generated code runs: how often a loop may repeat, how calls go, and in which function. -/
structure Host where
  fuel : Nat
  caller : Caller
  function : String

namespace Host

def run (H : Host) (statements : List Statement) (σ : Scene) : CodeRun :=
  Statement.runAll H.fuel H.caller H.function statements σ

theorem run_append_of_normal {l k : List Statement}
    (h : H.run l σ = .ok (.normal, σ')) : H.run (l ++ k) σ = H.run k σ' := by
  unfold run at *
  rw [Statement.runAll_append, h]

theorem run_singleton (H : Host) (statement : Statement) (σ : Scene) :
    H.run [statement] σ = statement.run H.fuel H.caller H.function σ := by
  unfold run Statement.runAll
  rcases statement.run H.fuel H.caller H.function σ with e | ⟨control, σ'⟩
  · rfl
  · cases control <;> rfl

theorem run_assign {e : Expression} (h : e.eval H.function σ.env σ.memory = .ok w) :
    H.run [.assign v e] σ = .ok (.normal, σ.assign v w) := by
  rw [run_singleton, Statement.run]
  unfold Scene.value
  rw [h]
  rfl

end Host

/-- A way to say what is in use at each point: the temporaries that were issued, and no variable
goes out of use. -/
class Counts (inUse : Progress → Issue) : Prop where
  temps : ∀ p, (inUse p).temps = p.temps
  mono : ∀ {p p'}, p.issue.Le p'.issue → (inUse p).Le (inUse p')

instance : Counts Progress.issue := ⟨fun _ => rfl, id⟩

/-- The statements emitted between two points lead from one scene to another. -/
structure Moves (inUse : Progress → Issue) (H : Host) (p p' : Progress) (σ σ' : Scene) : Prop where
  more : p.Extends p'
  run : H.run (p.emitted p') σ = .ok (.normal, σ')
  keeps : σ.env.Keeps (inUse p) σ'.env

namespace Moves

variable {inUse : Progress → Issue} {H : Host} {p p' p'' : Progress} {σ σ' σ'' : Scene}

theorem refl (inUse : Progress → Issue) (H : Host) (p : Progress) (σ : Scene) :
    Moves inUse H p p σ σ := by
  refine ⟨.refl p, ?_, .refl⟩
  rw [Progress.emitted_self]
  rfl

variable [Counts inUse]

theorem trans (h : Moves inUse H p p' σ σ') (h' : Moves inUse H p' p'' σ' σ'') :
    Moves inUse H p p'' σ σ'' := by
  refine ⟨h.more.trans h'.more, ?_, h.keeps.trans h'.keeps (Counts.mono h.more.issue)⟩
  rw [Progress.emitted_trans h.more.out h'.more.out, Host.run_append_of_normal h.run]
  exact h'.run

theorem known_le (h : Moves inUse H p p' σ σ') :
    (σ.env.known (inUse p)).Le (σ'.env.known (inUse p')) :=
  h.keeps.known_le (Counts.mono h.more.issue)

end Moves

/-- A symbolic state describes the processor, whose memory is that of the scene. -/
structure Matches (inUse : Progress → Issue) (core : Core) (base : List UInt8) (s : SymbolicState)
    (p : Progress) (σ : Scene) : Prop where
  describes : s.Describes (σ.env.known (inUse p)) core base
  memory : σ.memory = core.cpu.memory

theorem Matches.mono [Counts inUse] {core : Core} {base : List UInt8} {s : SymbolicState}
    (h : Matches inUse core base s p σ) (hmove : Moves inUse H p p' σ σ')
    (hmemory : σ'.memory = σ.memory) : Matches inUse core base s p' σ' :=
  ⟨h.describes.mono hmove.known_le, hmemory.trans h.memory⟩

/-- A generator emits code that runs and that leads to a scene with a property. -/
def Performs {α : Type} (inUse : Progress → Issue) (H : Host) (m : Gen α) (p : Progress) (σ : Scene)
    (Q : α → Progress → Scene → Prop) : Prop :=
  ∀ a p', Yields m p a p' → ∃ σ', Moves inUse H p p' σ σ' ∧ Q a p' σ'

namespace Performs

variable {α β : Type} {inUse : Progress → Issue} {H : Host} {p : Progress} {σ : Scene}
  {Q : α → Progress → Scene → Prop} {m : Gen α}

theorem pure {a : α} (h : Q a p σ) : Performs inUse H (pure a) p σ Q := by
  intro b p' hy
  obtain ⟨rfl, rfl⟩ := hy.of_pure
  exact ⟨σ, .refl inUse H _ σ, h⟩

theorem throw {e : GenerationError} : Performs inUse H (throw e) p σ Q :=
  fun _ _ hy => absurd hy Yields.not_throw

theorem bind [Counts inUse] {f : α → Gen β}
    {R : β → Progress → Scene → Prop} (hm : Performs inUse H m p σ Q)
    (hf : ∀ a p' σ', Moves inUse H p p' σ σ' → Q a p' σ' → Performs inUse H (f a) p' σ' R) :
    Performs inUse H (m >>= f) p σ R := by
  intro b p'' hy
  obtain ⟨a, p', hy1, hy2⟩ := hy.of_bind
  obtain ⟨σ', hmove, hq⟩ := hm a p' hy1
  obtain ⟨σ'', hmove', hr⟩ := hf a p' σ' hmove hq b p'' hy2
  exact ⟨σ'', hmove.trans hmove', hr⟩

theorem map {f : α → β} {Q : β → Progress → Scene → Prop}
    (hm : Performs inUse H m p σ fun a p' σ' => Q (f a) p' σ') :
    Performs inUse H (f <$> m) p σ Q := by
  intro b p' hy
  obtain ⟨a, hm', rfl⟩ := Yields.map_iff.1 hy
  exact hm a p' hm'

theorem mono {R : α → Progress → Scene → Prop} (hm : Performs inUse H m p σ Q)
    (h : ∀ a p' σ', Moves inUse H p p' σ σ' → Q a p' σ' → R a p' σ') :
    Performs inUse H m p σ R := by
  intro a p' hy
  obtain ⟨σ', hmove, hq⟩ := hm a p' hy
  exact ⟨σ', hmove, h a p' σ' hmove hq⟩

theorem ofExcept {x : Except GenerationError α}
    (h : ∀ a, x = .ok a → Q a p σ) : Performs inUse H (MonadExcept.ofExcept x) p σ Q := by
  intro a p' hy
  obtain ⟨hx, rfl⟩ := Yields.ofExcept_iff.1 hy
  exact ⟨σ, .refl inUse H _ σ, h a hx⟩

end Performs

end Lift6502
