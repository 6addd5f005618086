import Lift6502.Proofs.Code.Value
import Lift6502.Symbolic.Arithmetic

/-!
# Constructors that simplify

The constructors give expressions with the values and the errors of the plain nodes, if the logical
operators and double negation only meet conditions.
-/

namespace Lift6502

open Expression

/-- What the value of an expression depends on. -/
structure Moment (n : Nat) where
  function : String
  env : Environment
  memory : Memory n

namespace Moment

variable {n : Nat} {s : Moment n} {e l r : Expression} {op : BinOp} {a b c : UInt32}

def value (s : Moment n) (e : Expression) : Except EvalError UInt32 :=
  e.eval s.function s.env s.memory

/-- The expression is at most `bound` whenever it has a value. -/
def Within (s : Moment n) (bound : UInt32) (e : Expression) : Prop :=
  ∀ w, s.value e = .ok w → w ≤ bound

theorem value_binary (s : Moment n) (op : BinOp) (l r : Expression) : s.value (.binary op l r) =
    s.value l >>= fun x => s.value r >>= fun y => .ok (op.eval x y) := rfl

theorem value_unary (s : Moment n) (op : UnOp) (e : Expression) : s.value (.unary op e) =
    s.value e >>= fun x => .ok (op.eval x) := rfl

theorem eq_toUInt32_of_le {w : UInt32} (h : w ≤ 1) : ∃ c : Bool, w = c.toUInt32 := by
  have hw := UInt32.le_iff_toNat_le.1 h
  rcases Nat.le_one_iff_eq_zero_or_eq_one.1 hw with h | h
  · exact ⟨false, UInt32.toNat_inj.1 h⟩
  · exact ⟨true, UInt32.toNat_inj.1 h⟩

/-! ## Values of what is simplified -/

theorem value_constant {w : UInt32} (h : e.constant? = some w) : s.value e = .ok w := by
  cases e <;> cases h <;> rfl

/-- A truth value that changes nothing may be left out in front of a condition or behind it. -/
theorem value_neutral (hop : Neutral op a) (ha : l.constant? = some a) (h : s.Within 1 e) :
    s.value (.binary op l e) = s.value e ∧ s.value (.binary op e l) = s.value e := by
  rw [value_binary, value_binary, value_constant ha]
  cases hv : s.value e with
  | error err => exact ⟨rfl, rfl⟩
  | ok w =>
    obtain ⟨c, rfl⟩ := eq_toUInt32_of_le (h w hv)
    exact ⟨congrArg Except.ok (hop.left c), congrArg Except.ok (hop.right c)⟩

theorem value_mkBinary (s : Moment n) (op : BinOp) (l r : Expression)
    (h : op = .and ∨ op = .or → s.Within 1 l ∧ s.Within 1 r) :
    s.value (mkBinary op l r) = s.value (.binary op l r) := by
  cases folds_mkBinary op l r with
  | plain heq => rw [heq]
  | constants hl hr he =>
    rw [value_constant he, value_binary, value_constant hl, value_constant hr]; rfl
  | left hop hl heq => rw [heq, (value_neutral hop hl (h hop.logical).2).1]
  | right hop hr heq => rw [heq, (value_neutral hop hr (h hop.logical).1).2]

theorem value_mkNot (s : Moment n) (e : Expression) (h : ∀ x, e = .unary .not x → s.Within 1 x) :
    s.value e.mkNot = s.value (.unary .not e) := by
  fun_cases mkNot e with
  | case1 b => cases b <;> rfl
  | case2 x =>
    -- Two negations make 1 of any other number.
    rw [value_unary, value_unary]
    cases hv : s.value x with
    | error err => rfl
    | ok w =>
      obtain ⟨c, rfl⟩ := eq_toUInt32_of_le (h x rfl w hv)
      cases c <;> rfl
  | case3 => rfl

theorem value_mkToInt (s : Moment n) (e : Expression) :
    s.value e.mkToInt = s.value (.unary .toInt e) := by
  rcases mkToInt_eq e with heq | ⟨w, hconstant, heq⟩
  · rw [heq]
  · rw [heq, value_unary, value_constant hconstant]
    rfl

theorem value_lowByte (s : Moment n) (e : Expression) :
    s.value e.lowByte = s.value (.binary .bitAnd e (.literal 0xff)) :=
  s.value_mkBinary .bitAnd e (.literal 0xff) (by simp)

/-! ## Expressions that are put together with care -/

/-- Put together from operands and numbers by the constructors, where the logical operators only
meet conditions. -/
inductive Careful (s : Moment n) (operand : Expression → Prop) : Expression → Prop
  | operand {e : Expression} (h : operand e) : Careful s operand e
  | literal (w : UInt32) : Careful s operand (.literal w)
  | binary {op : BinOp} {l r : Expression} (h : op = .and ∨ op = .or → s.Within 1 l ∧ s.Within 1 r)
      (hl : Careful s operand l) (hr : Careful s operand r) : Careful s operand (mkBinary op l r)
  | toInt {e : Expression} (h : Careful s operand e) : Careful s operand e.mkToInt

variable {operand : Expression → Prop}

theorem Careful.number (hop : ¬ (op = .and ∨ op = .or)) (hl : s.Careful operand l)
    (hr : s.Careful operand r) : s.Careful operand (mkBinary op l r) :=
  .binary (fun h => absurd h hop) hl hr

theorem Careful.againstNumber (hop : ¬ (op = .and ∨ op = .or)) (h : s.Careful operand l)
    (w : UInt32) : s.Careful operand (mkBinary op l (.literal w)) :=
  .number hop h (.literal w)

theorem Careful.error (h : s.Careful operand e) {err : EvalError} (herr : s.value e = .error err) :
    ∃ o, operand o ∧ s.value o = .error err := by
  induction h with
  | operand h => exact ⟨_, h, herr⟩
  | literal w => cases herr
  | @binary op l r h hl hr ihl ihr =>
    rw [value_mkBinary s op l r h, value_binary] at herr
    cases hx : s.value l with
    | error => exact ihl (by rw [hx] at herr ⊢; exact herr)
    | ok x =>
      cases hy : s.value r with
      | error => exact ihr (by rw [hx, hy] at herr; rw [hy]; exact herr)
      | ok y => rw [hx, hy] at herr; cases herr
  | @toInt e h ih =>
    rw [value_mkToInt, value_unary] at herr
    cases hx : s.value e with
    | error => exact ih (by rw [hx] at herr ⊢; exact herr)
    | ok x => rw [hx] at herr; cases herr

theorem Within.mkBinary (h : op = .and ∨ op = .or → s.Within 1 l ∧ s.Within 1 r)
    (hbound : ∀ x y, s.value l = .ok x → s.value r = .ok y → op.eval x y ≤ c) :
    s.Within c (mkBinary op l r) := by
  intro w hw
  rw [value_mkBinary s op l r h, value_binary] at hw
  cases hx : s.value l with
  | error => rw [hx] at hw; cases hw
  | ok x =>
    cases hy : s.value r with
    | error => rw [hx, hy] at hw; cases hw
    | ok y =>
      rw [hx, hy] at hw
      cases hw
      exact hbound x y hx hy

theorem Within.mkToInt (h : s.Within a e) : s.Within a e.mkToInt := by
  intro w hw
  rw [value_mkToInt, value_unary] at hw
  cases hx : s.value e with
  | error => rw [hx] at hw; cases hw
  | ok x => rw [hx] at hw; cases hw; exact h _ hx

theorem toUInt32_le_one (b : Bool) : b.toUInt32 ≤ 1 := by cases b <;> decide

theorem within_literal (w : UInt32) : s.Within w (.literal w) := by
  rintro w ⟨⟩
  exact UInt32.le_refl _

theorem within_test (hop : op ∈ [.eq, .neq, .lt, .ge]) : s.Within 1 (mkBinary op l r) := by
  refine .mkBinary (by rintro (rfl | rfl) <;> simp at hop) fun x y _ _ => ?_
  simp only [List.mem_cons, List.not_mem_nil, or_false] at hop
  rcases hop with rfl | rfl | rfl | rfl <;> exact toUInt32_le_one _

theorem within_lowByte : s.Within 0xff e.lowByte := by
  refine .mkBinary (by simp) fun x y _ hy => ?_
  cases hy
  exact UInt32.le_iff_toNat_le.2 (by rw [BinOp.eval, UInt32.toNat_and]; exact Nat.and_le_right)

theorem within_bitwise (hop : op ∈ [.bitAnd, .bitOr, .bitXor]) (hl : s.Within 0xff l)
    (hr : s.Within 0xff r) : s.Within 0xff (mkBinary op l r) := by
  refine .mkBinary (by rintro (rfl | rfl) <;> simp at hop) fun x y hx hy => ?_
  have hx : x.toNat < 0x100 := Nat.lt_succ_of_le (UInt32.le_iff_toNat_le.1 (hl x hx))
  have hy : y.toNat < 0x100 := Nat.lt_succ_of_le (UInt32.le_iff_toNat_le.1 (hr y hy))
  refine UInt32.le_iff_toNat_le.2 (Nat.le_of_lt_succ ?_)
  simp only [List.mem_cons, List.not_mem_nil, or_false] at hop
  rcases hop with rfl | rfl | rfl <;> rw [BinOp.eval]
  · rw [UInt32.toNat_and]
    exact Nat.and_lt_two_pow x.toNat (n := 8) hy
  · rw [UInt32.toNat_or]
    exact Nat.or_lt_two_pow (n := 8) hx hy
  · rw [UInt32.toNat_xor]
    exact Nat.xor_lt_two_pow (n := 8) hx hy

theorem within_add (hl : s.Within a l) (hr : s.Within b r) (h : a.toNat + b.toNat ≤ c.toNat) :
    s.Within c (mkBinary .add l r) := by
  refine .mkBinary (by simp) fun x y hx hy => ?_
  have hx := UInt32.le_iff_toNat_le.1 (hl x hx)
  have hy := UInt32.le_iff_toNat_le.1 (hr y hy)
  refine UInt32.le_iff_toNat_le.2 (Nat.le_trans ?_ h)
  rw [BinOp.eval, UInt32.toNat_add]
  exact Nat.le_trans (Nat.mod_le _ _) (Nat.add_le_add hx hy)

theorem within_half (h : s.Within 0xff e) : s.Within 0xff (mkBinary .shr e (.literal 1)) := by
  refine .mkBinary (by simp) fun x y hx hy => ?_
  cases hy
  have hx := UInt32.le_iff_toNat_le.1 (h x hx)
  refine UInt32.le_iff_toNat_le.2 (Nat.le_trans ?_ hx)
  show (x >>> 1).toNat ≤ x.toNat
  rw [UInt32.toNat_shiftRight]
  exact Nat.shiftRight_le _ _

theorem within_carryAt (h : s.Within 1 e) :
    s.Within 0xff (mkBinary .shl e.mkToInt (.literal 7)) := by
  refine .mkBinary (by simp) fun x y hx hy => ?_
  cases hy
  obtain ⟨c, rfl⟩ := eq_toUInt32_of_le (h.mkToInt x hx)
  cases c <;> decide

end Moment

namespace Arithmetic

inductive Kind where
  | byte
  | flag
  | sum

def Kind.bound : Kind → UInt32
  | .byte => 0xff
  | .flag => 1
  | .sum => 0x1ff

/-- The results of instructions, from given operands and from one another. -/
inductive Built (given : Kind → Expression → Prop) : Kind → Expression → Prop
  | operand {k : Kind} {e : Expression} (h : given k e) : Built given k e
  | zero {e : Expression} (h : Built given .byte e) : Built given .flag (zero e)
  | negative {e : Expression} (h : Built given .byte e) : Built given .flag (negative e)
  | sum {a o c : Expression} (ha : Built given .byte a) (ho : Built given .byte o)
      (hc : Built given .flag c) : Built given .sum (sum a o c)
  | result {e : Expression} (h : Built given .sum e) : Built given .byte e.lowByte
  | carryOut {e : Expression} (h : Built given .sum e) : Built given .flag (carryOut e)
  | invert {e : Expression} (h : Built given .byte e) : Built given .byte (invert e)
  | overflow {a o e : Expression} (ha : Built given .byte a) (ho : Built given .byte o)
      (he : Built given .byte e) : Built given .flag (overflow a o e)
  | bitwise {op : BinOp} {a o : Expression} (hop : op ∈ [.bitAnd, .bitOr, .bitXor])
      (ha : Built given .byte a) (ho : Built given .byte o) : Built given .byte (mkBinary op a o)
  | increment {e : Expression} (h : Built given .byte e) : Built given .byte (increment e)
  | decrement {e : Expression} (h : Built given .byte e) : Built given .byte (decrement e)
  | compare {r o e : Expression} (hr : Built given .byte r) (ho : Built given .byte o)
      (he : e ∈ [(compare r o).carry, (compare r o).zero, (compare r o).negative]) :
      Built given .flag e
  | shifted {e c : Expression} (kind : Shift) (he : Built given .byte e)
      (hc : Built given .flag c) : Built given .byte (shift kind e c).1
  | shiftedOut {e : Expression} (kind : Shift) (c : Expression) (he : Built given .byte e) :
      Built given .flag (shift kind e c).2
  | bitTest {a o e : Expression} (ha : Built given .byte a) (ho : Built given .byte o)
      (he : e ∈ [(bitTest a o).zero, (bitTest a o).negative, (bitTest a o).overflow]) :
      Built given .flag e
  | statusBit {e : Expression} (h : Built given .byte e) (position : Nat) :
      Built given .flag (statusBit e position)

variable {n : Nat} {s : Moment n} {given : Kind → Expression → Prop} {k : Kind} {e : Expression}

open Moment

theorem Built.careful (h : Built given k e) : s.Careful (fun o => ∃ k, given k o) e := by
  induction h with
  | operand h => exact .operand ⟨_, h⟩
  | zero _ ih | negative _ ih | carryOut _ ih | result _ ih | invert _ ih =>
    exact ih.againstNumber (by simp) _
  | increment _ ih | decrement _ ih =>
    exact (ih.againstNumber (by simp) _).againstNumber (by simp) _
  | statusBit _ _ ih => exact (ih.againstNumber (by simp) _).againstNumber (by simp) _
  | sum _ _ _ iha iho ihc => exact .number (by simp) (.number (by simp) iha iho) ihc.toInt
  | overflow _ _ _ iha iho ihe =>
    -- The only logical operator: it joins two comparisons.
    exact .binary (fun _ => ⟨within_test (by simp), within_test (by simp)⟩)
      (((iha.number (by simp) iho).againstNumber (by simp) _).againstNumber (by simp) _)
      (((iha.number (by simp) ihe).againstNumber (by simp) _).againstNumber (by simp) _)
  | bitwise hop _ _ iha iho => exact iha.number (by rintro (rfl | rfl) <;> simp at hop) iho
  | compare _ _ he ihr iho =>
    simp only [List.mem_cons, List.not_mem_nil, or_false] at he
    rcases he with rfl | rfl | rfl
    · exact ihr.number (by simp) iho
    · exact ihr.number (by simp) iho
    · exact ((ihr.number (by simp) iho).againstNumber (by simp) _).againstNumber (by simp) _
  | shifted kind _ _ ihe ihc =>
    cases kind with
    | asl => exact (ihe.againstNumber (by simp) _).againstNumber (by simp) _
    | lsr => exact ihe.againstNumber (by simp) _
    | rol =>
      exact ((ihe.againstNumber (by simp) _).number (by simp)
        (ihc.toInt.againstNumber (by simp) _)).againstNumber (by simp) _
    | ror => exact (ihe.againstNumber (by simp) _).number (by simp) (ihc.toInt.againstNumber
      (by simp) _)
  | shiftedOut kind _ _ ih =>
    cases kind with
    | asl | rol => exact ih.againstNumber (by simp) _
    | lsr | ror => exact (ih.againstNumber (by simp) _).againstNumber (by simp) _
  | bitTest _ _ he iha iho =>
    simp only [List.mem_cons, List.not_mem_nil, or_false] at he
    rcases he with rfl | rfl | rfl
    · exact (iha.number (by simp) iho).againstNumber (by simp) _
    · exact iho.againstNumber (by simp) _
    · exact (iho.againstNumber (by simp) _).againstNumber (by simp) _

theorem Built.within (hgiven : ∀ k o, given k o → s.Within k.bound o) (h : Built given k e) :
    s.Within k.bound e := by
  induction h with
  | operand h => exact hgiven _ _ h
  | zero | negative | carryOut | statusBit => exact within_test (by simp)
  | result | increment | decrement => exact within_lowByte
  | sum _ _ _ iha iho ihc =>
    exact within_add (a := 0x1fe) (b := 1) (within_add iha iho (by decide)) ihc.mkToInt (by decide)
  | invert _ ih => exact within_bitwise (by simp) ih (within_literal _)
  | overflow =>
    exact .mkBinary (fun _ => ⟨within_test (by simp), within_test (by simp)⟩) fun _ _ _ _ =>
      toUInt32_le_one _
  | bitwise hop _ _ iha iho => exact within_bitwise hop iha iho
  | compare _ _ he | bitTest _ _ he =>
    simp only [List.mem_cons, List.not_mem_nil, or_false] at he
    rcases he with rfl | rfl | rfl <;> exact within_test (by simp)
  | shifted kind _ _ ihe ihc =>
    cases kind with
    | asl | rol => exact within_lowByte
    | lsr => exact within_half ihe
    | ror => exact within_bitwise (by simp) (within_half ihe) (within_carryAt ihc)
  | shiftedOut kind => cases kind <;> exact within_test (by simp)

/-- The constructors keep values and errors. The results of instructions on operands that are in the
range of their kind, a byte or a condition, are put together with care and are in the range of
theirs; an error comes from an operand. -/
theorem constructors_keep_values {n : Nat} (s : Moment n) (given : Kind → Expression → Prop)
    (hgiven : ∀ k o, given k o → s.Within k.bound o) :
    (∀ op l r, (op = .and ∨ op = .or → s.Within 1 l ∧ s.Within 1 r) →
      s.value (mkBinary op l r) = s.value (.binary op l r)) ∧
    (∀ e, (∀ x, e = .unary .not x → s.Within 1 x) → s.value e.mkNot = s.value (.unary .not e)) ∧
    (∀ e, s.value e.mkToInt = s.value (.unary .toInt e)) ∧
    (∀ e, s.value e.lowByte = s.value (.binary .bitAnd e (.literal 0xff))) ∧
    ∀ k e, Built given k e → s.Careful (fun o => ∃ k, given k o) e ∧ s.Within k.bound e ∧
      ∀ err, s.value e = .error err → ∃ o, (∃ k, given k o) ∧ s.value o = .error err := by
  refine ⟨s.value_mkBinary, s.value_mkNot, s.value_mkToInt, s.value_lowByte, fun k e h => ?_⟩
  exact ⟨h.careful, h.within hgiven, fun err => h.careful.error⟩

def doubling : Moment 0 := ⟨"Double", ({} : Environment).set (.input .a) 0x50, .zero 0⟩

def doublingGiven : Kind → Expression → Prop
  | .byte, o => o = .var (.input .a)
  | .flag, o => o = .bool false
  | .sum, _ => False

theorem doubling_keeps_values :
    ∃ w, doubling.value (overflow (.var (.input .a)) (.var (.input .a))
      (sum (.var (.input .a)) (.var (.input .a)) (.bool false)).lowByte) = .ok w ∧ w ≤ 1 := by
  have ha : doubling.value (.var (.input .a)) = .ok 0x50 := by
    simp [doubling, Moment.value, Expression.eval, Environment.get?_set]
  have hgiven : ∀ k o, doublingGiven k o → ∃ w, doubling.value o = .ok w ∧ w ≤ k.bound := by
    rintro (_ | _ | _) o h
    · exact ⟨0x50, by rw [show o = _ from h, ha], by decide⟩
    · exact ⟨0, by rw [show o = _ from h]; rfl, by decide⟩
    · exact h.elim
  have hsum : Built doublingGiven .sum (sum _ _ _) :=
    .sum (.operand rfl) (.operand rfl) (.operand rfl)
  obtain ⟨-, -, -, -, hbuilt⟩ :=
    constructors_keep_values doubling doublingGiven fun k o h w hw => by
    obtain ⟨w', hw', hle⟩ := hgiven k o h
    cases hw.symm.trans hw'
    exact hle
  obtain ⟨-, hwithin, herror⟩ :=
    hbuilt .flag _ (.overflow (.operand rfl) (.operand rfl) hsum.result)
  cases hv : doubling.value _ with
  | ok w => exact ⟨w, rfl, hwithin w hv⟩
  | error err =>
    obtain ⟨o, ⟨k, hk⟩, ho⟩ := herror err hv
    obtain ⟨w, hw, -⟩ := hgiven k o hk
    cases ho.symm.trans hw

end Arithmetic

end Lift6502
