import Lift6502.Run.Evaluator

/-!
# Values of expressions

`HasValue known e w` says that `e` reads no memory and has the value `w` when the variables have the
values `known`.
-/

namespace Lift6502

abbrev Known := Variable → Option UInt32

namespace Known

def Le (known known' : Known) : Prop := ∀ v w, known v = some w → known' v = some w

theorem Le.refl (known : Known) : known.Le known := fun _ _ h => h

theorem Le.trans {k1 k2 k3 : Known} (h12 : k1.Le k2) (h23 : k2.Le k3) : k1.Le k3 :=
  fun v w h => h23 v w (h12 v w h)

end Known

namespace Expression

inductive HasValue (known : Known) : Expression → UInt32 → Prop
  | literal (w : UInt32) : HasValue known (.literal w) w
  | bool (b : Bool) : HasValue known (.bool b) b.toUInt32
  | var {v : Variable} {w : UInt32} (h : known v = some w) : HasValue known (.var v) w
  | not {e : Expression} {w : UInt32} (h : HasValue known e w) :
      HasValue known (.unary .not e) (UnOp.not.eval w)
  | toInt {e : Expression} {w : UInt32} (h : HasValue known e w) :
      HasValue known (.unary .toInt e) w
  | binary {l r : Expression} {a b : UInt32} (op : BinOp) (hl : HasValue known l a)
      (hr : HasValue known r b) : HasValue known (.binary op l r) (op.eval a b)

/-- The number that a literal or a truth value stands for. -/
def constant? : Expression → Option UInt32
  | .literal w => some w
  | .bool b => some b.toUInt32
  | _ => none

/-- The logical operator gives back a condition that is joined with `neutral`. -/
structure Neutral (op : BinOp) (neutral : UInt32) : Prop where
  logical : op = .and ∨ op = .or
  left : ∀ c : Bool, op.eval neutral c.toUInt32 = c.toUInt32
  right : ∀ c : Bool, op.eval c.toUInt32 neutral = c.toUInt32

/-- What a constructor makes of an operator and its operands. -/
inductive Folds (op : BinOp) (l r e : Expression) : Prop
  | plain (h : e = .binary op l r)
  | constants {a b : UInt32} (hl : l.constant? = some a) (hr : r.constant? = some b)
      (h : e.constant? = some (op.eval a b))
  | left {a : UInt32} (hop : Neutral op a) (hl : l.constant? = some a) (h : e = r)
  | right {b : UInt32} (hop : Neutral op b) (hr : r.constant? = some b) (h : e = l)

theorem neutral_and : Neutral .and 1 := ⟨.inl rfl, by decide, by decide⟩

theorem neutral_or : Neutral .or 0 := ⟨.inr rfl, by decide, by decide⟩

theorem folds_mkBinary (op : BinOp) (l r : Expression) : Folds op l r (mkBinary op l r) := by
  -- The cases are those of the definition; `fun_cases` keeps the side conditions of the last one.
  fun_cases mkBinary op l r with
  | case1 x y =>
    cases op with
    | and | or => exact .plain rfl
    | _ => exact .constants rfl rfl rfl
  | case2 x y | case3 x y | case4 x y | case5 x y =>
    exact .constants rfl rfl (by cases x <;> cases y <;> rfl)
  | case6 => exact .left neutral_and rfl rfl
  | case7 => exact .left neutral_or rfl rfl
  | case8 => exact .right neutral_and rfl rfl
  | case9 => exact .right neutral_or rfl rfl
  | case10 => exact .plain rfl

theorem mkToInt_eq (e : Expression) : e.mkToInt = .unary .toInt e ∨
    ∃ w, e.constant? = some w ∧ e.mkToInt = .literal w := by
  fun_cases mkToInt e with
  | case1 b => exact .inr ⟨_, rfl, rfl⟩
  | case2 => exact .inl rfl

theorem toUInt32_bne_zero (b : Bool) : (b.toUInt32 != 0) = b := by
  cases b <;> decide

theorem eval_not_bne_zero (w : UInt32) : (UnOp.not.eval w != 0) = !(w != 0) := by
  rw [UnOp.eval, toUInt32_bne_zero, bne, Bool.not_not]

theorem beq_zero_of_bne_zero {w : UInt32} {b : Bool} (h : (w != 0) = b) : (w == 0) = !b := by
  rw [← h, bne, Bool.not_not]

namespace HasValue

variable {known known' : Known} {e l r : Expression} {w a b : UInt32} {env : Environment}

theorem eval (h : e.HasValue env.get? w) (function : String) {n : Nat}
    (memory : Memory n) : e.eval function env memory = .ok w := by
  induction h with
  | literal w => rfl
  | bool b => rfl
  | var h => rw [Expression.eval, h]
  | not _ ih =>
    rw [Expression.eval, ih]
    rfl
  | toInt _ ih =>
    rw [Expression.eval, ih]
    rfl
  | binary op _ _ ihl ihr =>
    rw [Expression.eval, ihl, ihr]
    rfl

theorem of_eval {function : String} {n : Nat} {memory : Memory n}
    (hpure : e.readsMemory = false) (hreads : ∀ v ∈ e.reads, known v = env.get? v)
    (h : e.eval function env memory = .ok w) : e.HasValue known w := by
  induction e generalizing w with
  | literal value =>
    cases h
    exact .literal value
  | bool value =>
    cases h
    exact .bool value
  | var v =>
    rw [Expression.eval] at h
    cases hv : env.get? v with
    | none =>
      rw [hv] at h
      cases h
    | some x =>
      rw [hv] at h
      cases h
      exact .var ((hreads v List.mem_cons_self).trans hv)
  | memory address => cases hpure
  | unary op operand ih =>
    rw [Expression.eval] at h
    cases hx : operand.eval function env memory with
    | error e =>
      rw [hx] at h
      cases h
    | ok x =>
      rw [hx] at h
      cases h
      cases op with
      | not => exact .not (ih hpure hreads hx)
      | toInt => exact .toInt (ih hpure hreads hx)
  | binary op l r ihl ihr =>
    rw [Expression.readsMemory, Bool.or_eq_false_iff] at hpure
    simp only [reads, List.mem_append] at hreads
    rw [Expression.eval] at h
    cases hx : l.eval function env memory with
    | error e =>
      rw [hx] at h
      cases h
    | ok x =>
      rw [hx] at h
      cases hy : r.eval function env memory with
      | error e =>
        rw [hy] at h
        cases h
      | ok y =>
        rw [hy] at h
        cases h
        exact .binary op (ihl hpure.1 (fun v hv => hreads v (.inl hv)) hx)
          (ihr hpure.2 (fun v hv => hreads v (.inr hv)) hy)

theorem readsMemory_eq_false (h : e.HasValue known w) : e.readsMemory = false := by
  induction h with
  | literal | bool | var => rfl
  | not _ ih | toInt _ ih => exact ih
  | binary op _ _ ihl ihr => rw [readsMemory, ihl, ihr, Bool.or_false]

theorem congr (h : e.HasValue known w)
    (hk : ∀ v ∈ e.reads, ∀ x, known v = some x → known' v = some x) : e.HasValue known' w := by
  induction h with
  | literal w => exact .literal w
  | bool b => exact .bool b
  | var h => exact .var (hk _ (by simp [reads]) _ h)
  | not _ ih => exact .not (ih hk)
  | toInt _ ih => exact .toInt (ih hk)
  | binary op _ _ ihl ihr =>
    simp only [reads, List.mem_append] at hk
    exact .binary op (ihl fun v hv => hk v (.inl hv)) (ihr fun v hv => hk v (.inr hv))

theorem mono (h : e.HasValue known w) (hk : known.Le known') : e.HasValue known' w :=
  h.congr fun v _ => hk v

theorem isSome_of_mem_reads (h : e.HasValue known w) : ∀ v ∈ e.reads, (known v).isSome := by
  induction h with
  | literal | bool => simp [reads]
  | var h => simp [reads, h]
  | not _ ih | toInt _ ih => exact ih
  | binary op _ _ ihl ihr =>
    intro v hv
    rw [reads, List.mem_append] at hv
    exact hv.elim (ihl v) (ihr v)

theorem of_constant? (h : e.constant? = some w) : e.HasValue known w := by
  cases e <;> cases h
  · exact .literal _
  · exact .bool _

theorem eq_constant (h : e.HasValue known w) (hconstant : e.constant? = some a) : w = a := by
  cases h <;> cases hconstant <;> rfl

/-! ## Constructors that simplify -/

/-- What the operands of an operator have to be for the constructor to simplify them: the logical
operators apply to conditions. -/
def Fits (op : BinOp) (a b : UInt32) : Prop :=
  op = .and ∨ op = .or → (∃ c : Bool, a = c.toUInt32) ∧ ∃ c : Bool, b = c.toUInt32

theorem mkBinary (op : BinOp) (hfits : Fits op a b) (hl : l.HasValue known a)
    (hr : r.HasValue known b) : (mkBinary op l r).HasValue known (op.eval a b) := by
  cases folds_mkBinary op l r with
  | plain h => exact h ▸ .binary op hl hr
  | constants hla hrb h => exact of_constant? (by rw [h, hl.eq_constant hla, hr.eq_constant hrb])
  | left hop hconstant h =>
    obtain rfl := hl.eq_constant hconstant
    obtain ⟨-, c, rfl⟩ := hfits hop.logical
    rw [h, hop.left]
    exact hr
  | right hop hconstant h =>
    obtain rfl := hr.eq_constant hconstant
    obtain ⟨⟨c, rfl⟩, -⟩ := hfits hop.logical
    rw [h, hop.right]
    exact hl

theorem mkToInt (h : e.HasValue known w) : e.mkToInt.HasValue known w := by
  rcases mkToInt_eq e with heq | ⟨b, hconstant, heq⟩
  · exact heq ▸ .toInt h
  · exact heq ▸ h.eq_constant hconstant ▸ .literal _

end HasValue

/-- As a condition, the expression is true or false; every value but zero is true. -/
def HasTruth (known : Known) (e : Expression) (b : Bool) : Prop :=
  ∃ w, e.HasValue known w ∧ (w != 0) = b

theorem HasValue.hasTruth {known : Known} {e : Expression} {b : Bool}
    (h : e.HasValue known b.toUInt32) : e.HasTruth known b :=
  ⟨b.toUInt32, h, toUInt32_bne_zero b⟩

namespace HasTruth

variable {known known' : Known} {e : Expression} {b : Bool}

theorem mono (h : e.HasTruth known b) (hk : known.Le known') : e.HasTruth known' b := by
  obtain ⟨w, hvalue, hb⟩ := h
  exact ⟨w, hvalue.mono hk, hb⟩

theorem mkNot (h : e.HasTruth known b) : e.mkNot.HasTruth known (!b) := by
  obtain ⟨w, hvalue, rfl⟩ := h
  fun_cases Expression.mkNot e with
  | case1 c =>
    cases hvalue
    rw [toUInt32_bne_zero]
    exact (HasValue.bool _).hasTruth
  | case2 operand =>
    -- Two negations are cancelled: the value may change, but not whether it is zero.
    cases hvalue with
    | @not _ w hvalue =>
      refine ⟨w, hvalue, ?_⟩
      rw [eval_not_bne_zero, Bool.not_not]
  | case3 => exact ⟨UnOp.not.eval w, .not hvalue, eval_not_bne_zero w⟩

end HasTruth

end Expression

end Lift6502
