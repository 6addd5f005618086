import Lift6502.Code.Expression
import Lift6502.Proofs.Text.Characters

/-!
# Expressions read off their text

With a bracket, a blank or nothing behind it, the text of an expression says which expression was
written and where its text ends, so different expressions have different texts.
-/

namespace Lift6502

open Text

def isNameChar (c : Char) : Bool := c.isAlphanum || c == '_'

theorem isNameChar_digitChar : ∀ d < 16, isNameChar d.digitChar = true := by decide

theorem all_toDigits {b : Nat} (n : Nat) (hb : 1 < b) (hb' : b ≤ 16) :
    (Nat.toDigits b n).all isNameChar = true := by
  refine List.all_eq_true.2 fun c hc => ?_
  obtain ⟨d, hd, rfl⟩ := exists_digit_of_mem_toDigits hb hc
  exact isNameChar_digitChar d (by omega)

theorem toDigits_inj {a b : Nat} (h : Nat.toDigits 10 a = Nat.toDigits 10 b) : a = b := by
  rw [← digitsValue_toDigits a, h, digitsValue_toDigits]

variable {c : Char}

theorem toDigits_ne_cons {n : Nat} {cs : List Char} (hc : c.isDigit = false) :
    Nat.toDigits 10 n ≠ c :: cs := by
  intro h
  have hmem : c ∈ Nat.toDigits 10 n := h ▸ List.mem_cons_self
  obtain ⟨d, hd, rfl⟩ := exists_digit_of_mem_toDigits (by decide) hmem
  have hdigit : ∀ d < 10, (Nat.digitChar d).isDigit = true := by decide
  rw [hdigit d hd] at hc
  cases hc

def Location.letter : Location → Char
  | .a => 'a'
  | .x => 'x'
  | .y => 'y'
  | .c => 'c'
  | .z => 'z'
  | .n => 'n'
  | .v => 'v'

theorem Location.letter_inj : ∀ {l k : Location}, l.letter = k.letter → l = k := by
  rintro ((_ | _ | _) | (_ | _ | _ | _)) ((_ | _ | _) | (_ | _ | _ | _)) <;> simp [letter]

/-- No other word starts with the letter of a location. -/
theorem Location.letter_notMem (l : Location) : l.letter ∉ ['0', 'f', 's', 't'] := by
  rcases l with (_ | _ | _) | (_ | _ | _ | _) <;> decide

namespace Variable

def word : Variable → List Char
  | .temp id => 't' :: Nat.toDigits 10 id
  | .merge l id => l.letter :: '_' :: Nat.toDigits 10 id
  | .input r => [(Location.register r).letter, '_', 'i', 'n']
  | .dispatch => ['s', 't', 'a', 't', 'e']

theorem toList_text (v : Variable) : v.text.toList = v.word := by
  cases v with
  | temp id =>
    rw [text, String.toList_append, Nat.toString_eq_repr, Nat.toList_repr]
    rfl
  | merge l id =>
    rw [text, String.toList_append, String.toList_append, Nat.toString_eq_repr, Nat.toList_repr]
    rcases l with (_ | _ | _) | (_ | _ | _ | _) <;> rfl
  | input r => cases r <;> rfl
  | dispatch => rfl

theorem word_inj {v w : Variable} (h : v.word = w.word) : v = w := by
  have hletter := fun l : Location => l.letter_notMem
  simp only [List.mem_cons, not_or] at hletter
  cases v <;> cases w <;> simp only [word, List.cons.injEq, true_and] at h
  case temp.temp => rw [toDigits_inj h]
  case merge.merge => rw [Location.letter_inj h.1, toDigits_inj h.2]
  case merge.input => exact absurd h.2 (toDigits_ne_cons rfl)
  case input.merge => exact absurd h.2.symm (toDigits_ne_cons rfl)
  case input.input => cases Location.letter_inj h.1; rfl
  case dispatch.dispatch => rfl
  all_goals grind

end Variable

namespace Expression

def word : Expression → List Char
  | .literal value => '0' :: 'x' :: zeroPadded (if 0xff < value then 4 else 2) (Nat.toDigits 16 value.toNat)
  | .bool true => ['t', 'r', 'u', 'e']
  | .bool false => ['f', 'a', 'l', 's', 'e']
  | .var v => v.word
  | .memory _ => ['m', 'e', 'm']
  | .unary .toInt _ => ['i', 'n', 't']
  | .unary .not _ | .binary _ _ _ => []

def chars (nested : Bool) (e : Expression) : List Char := (e.render nested).toList

def remainder : Expression → List Char
  | .literal _ | .bool _ | .var _ => []
  | .memory address => '[' :: (address.chars false ++ [']'])
  | .unary .toInt operand => '(' :: (operand.chars false ++ [')'])
  | .unary .not operand => '!' :: operand.chars true
  | .binary op lhs rhs => '(' :: (chars false (.binary op lhs rhs) ++ [')'])

theorem chars_true (e : Expression) : e.chars true = e.word ++ e.remainder := by
  unfold chars
  cases e with
  | literal value => simp [render, word, remainder, hex, hexDigits]
  | bool value => cases value <;> rfl
  | var v => rw [render, Variable.toList_text, word, remainder, List.append_nil]
  | memory address => simp [render, word, remainder, chars]
  | binary op lhs rhs => simp [render, word, remainder, chars]
  | unary op operand => cases op <;> simp [render, word, remainder, chars]

theorem chars_binary (op : BinOp) (lhs rhs : Expression) (rest : List Char) :
    chars false (.binary op lhs rhs) ++ rest =
      lhs.chars true ++ ' ' :: (op.text.toList ++ ' ' :: (rhs.chars true ++ rest)) := by
  simp [chars, render]

theorem all_word (e : Expression) : e.word.all isNameChar = true := by
  cases e with
  | literal value =>
    simp [word, zeroPadded, all_toDigits value.toNat (b := 16), isNameChar]
  | bool value => cases value <;> rfl
  | var v =>
    have hdigits := fun n => all_toDigits n (b := 10) (by decide) (by decide)
    cases v with
    | temp id => exact hdigits id
    | merge l id => rcases l with (_ | _ | _) | (_ | _ | _ | _) <;> exact hdigits id
    | input r => cases r <;> rfl
    | dispatch => rfl
  | memory | binary => rfl
  | unary op => cases op <;> rfl

theorem word_literal_inj {value value' : UInt32}
    (h : word (.literal value) = word (.literal value')) : value = value' := by
  have hvalue : ∀ width n, digitsValue 16 (zeroPadded width (Nat.toDigits 16 n)) = n := by
    intro width n
    have hdigits := digitsValue_map_toDigits (b := 16) (f := id) (by decide) (by decide) n
    rwa [List.map_id, ← digitsValue_zeros_append 16 (width - (Nat.toDigits 16 n).length)] at hdigits
  rw [word, word, List.cons.injEq, List.cons.injEq] at h
  rw [← UInt32.toNat_inj, ← hvalue _ value.toNat, h.2.2, hvalue]

theorem word_var_ne (v : Variable) :
    (∀ value, word (.literal value) ≠ v.word) ∧ ∀ value, word (.bool value) ≠ v.word := by
  have hletter := fun l : Location => l.letter_notMem
  have hdigits := @toDigits_ne_cons
  constructor
  · intro value
    cases v <;> simp only [word, Variable.word] <;> grind
  · rintro (_ | _) <;> cases v <;> simp only [word, Variable.word] <;> grind

variable {e e' : Expression}

theorem eq_of_remainder (h : e.remainder = []) :
    (∃ value, e = .literal value) ∨ (∃ value, e = .bool value) ∨ ∃ v, e = .var v := by
  cases e with
  | literal value => exact .inl ⟨value, rfl⟩
  | bool value => exact .inr (.inl ⟨value, rfl⟩)
  | var v => exact .inr (.inr ⟨v, rfl⟩)
  | memory | binary => cases h
  | unary op => cases op <;> cases h

theorem word_inj (he : e.remainder = []) (he' : e'.remainder = []) (h : e.word = e'.word) :
    e = e' := by
  obtain ⟨value, rfl⟩ | ⟨value, rfl⟩ | ⟨v, rfl⟩ := eq_of_remainder he <;>
    obtain ⟨value', rfl⟩ | ⟨value', rfl⟩ | ⟨v', rfl⟩ := eq_of_remainder he'
  · rw [word_literal_inj h]
  · cases value' <;> simp [word] at h
  · exact absurd h ((word_var_ne v').1 value)
  · cases value <;> simp [word] at h
  · cases value <;> cases value' <;> first | rfl | simp [word] at h
  · exact absurd h ((word_var_ne v').2 value)
  · exact absurd h.symm ((word_var_ne v).1 value')
  · exact absurd h.symm ((word_var_ne v).2 value')
  · rw [Variable.word_inj h]

/-! ## Unique decomposition -/

/-- What may follow an expression: the end, a closing bracket, and a blank if it is nested. -/
def Follows (nested : Bool) (rest : List Char) : Prop :=
  ∀ c ∈ rest.head?, c = ')' ∨ c = ']' ∨ (c = ' ' ∧ nested = true)

/-- The text of the expression determines it, whatever follows. -/
def Determined (nested : Bool) (e : Expression) : Prop :=
  ∀ e' rest rest', Follows nested rest → Follows nested rest' →
    e.chars nested ++ rest = e'.chars nested ++ rest' → e = e' ∧ rest = rest'

variable {rest rest' : List Char} {operand lhs rhs : Expression}

theorem Follows.nested {b : Bool} (h : Follows b rest) : Follows true rest := by
  intro c hc
  rcases h c hc with h | h | h
  · exact .inl h
  · exact .inr (.inl h)
  · exact .inr (.inr ⟨h.1, rfl⟩)

theorem follows_bracket (b : Bool) (hc : c = ')' ∨ c = ']') (rest : List Char) :
    Follows b (c :: rest) := by
  rintro c' ⟨⟩
  exact hc.imp_right .inl

theorem follows_blank (rest : List Char) : Follows true (' ' :: rest) := by
  rintro c ⟨⟩
  exact .inr (.inr ⟨rfl, rfl⟩)

theorem isNameChar_head (e : Expression) (h : Follows true rest) :
    ∀ c ∈ (e.remainder ++ rest).head?, isNameChar c = false := by
  have hrest : ∀ c ∈ rest.head?, isNameChar c = false := by
    intro c hc
    rcases h c hc with rfl | rfl | ⟨rfl, -⟩ <;> rfl
  cases e with
  | literal | bool | var => exact hrest
  | memory | binary =>
    rintro c ⟨⟩
    rfl
  | unary op =>
    cases op <;>
    · rintro c ⟨⟩
      rfl

theorem split_word (hrest : Follows true rest)
    (hrest' : Follows true rest') (h : e.chars true ++ rest = e'.chars true ++ rest') :
    e.word = e'.word ∧ e.remainder ++ rest = e'.remainder ++ rest' := by
  rw [chars_true, chars_true, List.append_assoc, List.append_assoc] at h
  have hspan := span_append (List.all_eq_true.1 e.all_word) (isNameChar_head e hrest)
  have hspan' := span_append (List.all_eq_true.1 e'.all_word) (isNameChar_head e' hrest')
  rw [h] at hspan
  exact ⟨hspan.1.symm.trans hspan'.1, hspan.2.symm.trans hspan'.2⟩

theorem not_follows {nested : Bool} (hc : c ∈ ['[', '(', '!']) : ¬ Follows nested (c :: rest) := by
  intro h
  have hhead := h c rfl
  simp only [List.mem_cons, List.not_mem_nil, or_false] at hc
  rcases hc with rfl | rfl | rfl <;> simp at hhead

theorem determined_word (he : e.remainder = []) : Determined true e := by
  intro e' rest rest' hrest hrest' h
  obtain ⟨hword, hremainder⟩ := split_word hrest hrest' h
  rw [he, List.nil_append] at hremainder
  cases e' with
  | literal | bool | var => exact ⟨word_inj he rfl hword, hremainder⟩
  | memory | binary => exact absurd (hremainder ▸ hrest) (not_follows (by simp))
  | unary op => cases op <;> exact absurd (hremainder ▸ hrest) (not_follows (by simp))

/-- The character behind the first word says what kind of expression was written. -/
theorem eq_of_remainder_append {body rest : List Char} (hc : c ∈ ['[', '(', '!'])
    (hrest : Follows true rest) (h : c :: body = e.remainder ++ rest) :
    (c = '[' ∧ ∃ address, e = .memory address) ∨ (c = '!' ∧ ∃ operand, e = .unary .not operand) ∨
      (c = '(' ∧ ((∃ operand, e = .unary .toInt operand) ∨ ∃ op lhs rhs,
        e = .binary op lhs rhs)) := by
  cases e with
  | literal | bool | var => exact absurd (h ▸ hrest : Follows true (c :: body)) (not_follows hc)
  | memory address => exact .inl ⟨(List.cons.inj h).1, address, rfl⟩
  | binary op lhs rhs => exact .inr (.inr ⟨(List.cons.inj h).1, .inr ⟨op, lhs, rhs, rfl⟩⟩)
  | unary op operand =>
    cases op with
    | not => exact .inr (.inl ⟨(List.cons.inj h).1, operand, rfl⟩)
    | toInt => exact .inr (.inr ⟨(List.cons.inj h).1, .inl ⟨operand, rfl⟩⟩)

theorem bracketed (he : Determined false e)
    (hc : c = ')' ∨ c = ']') (h : e.chars false ++ [c] ++ rest = e'.chars false ++ [c] ++ rest') :
    e = e' ∧ rest = rest' := by
  rw [List.append_assoc, List.append_assoc] at h
  obtain ⟨rfl, hrest⟩ :=
    he e' _ _ (follows_bracket false hc rest) (follows_bracket false hc rest') h
  exact ⟨rfl, (List.cons.inj hrest).2⟩

theorem determined_memory {address : Expression} (h : Determined false address) :
    Determined true (.memory address) := by
  intro e' rest rest' hrest hrest' heq
  obtain ⟨-, hremainder⟩ := split_word hrest hrest' heq
  obtain ⟨-, address', rfl⟩ | ⟨⟨⟩, -⟩ | ⟨⟨⟩, -⟩ :=
    eq_of_remainder_append (by simp) hrest' hremainder
  obtain ⟨rfl, hrest⟩ := bracketed h (.inr rfl) (List.cons.inj hremainder).2
  exact ⟨rfl, hrest⟩

theorem determined_not (h : Determined true operand) : Determined true (.unary .not operand) := by
  intro e' rest rest' hrest hrest' heq
  obtain ⟨-, hremainder⟩ := split_word hrest hrest' heq
  obtain ⟨⟨⟩, -⟩ | ⟨-, operand', rfl⟩ | ⟨⟨⟩, -⟩ :=
    eq_of_remainder_append (by simp) hrest' hremainder
  obtain ⟨rfl, hrest⟩ := h operand' rest rest' hrest hrest' (List.cons.inj hremainder).2
  exact ⟨rfl, hrest⟩

theorem determined_toInt (h : Determined false operand) :
    Determined true (.unary .toInt operand) := by
  intro e' rest rest' hrest hrest' heq
  obtain ⟨hword, hremainder⟩ := split_word hrest hrest' heq
  obtain ⟨⟨⟩, -⟩ | ⟨⟨⟩, -⟩ | ⟨-, ⟨operand', rfl⟩ | ⟨op, lhs, rhs, rfl⟩⟩ :=
    eq_of_remainder_append (by simp) hrest' hremainder
  · obtain ⟨rfl, hrest⟩ := bracketed h (.inl rfl) (List.cons.inj hremainder).2
    exact ⟨rfl, hrest⟩
  · -- No word stands in front of the bracket of an operation.
    cases hword

theorem not_follows_blank : ¬ Follows false (' ' :: rest) := by
  intro h
  have hhead := h ' ' rfl
  simp at hhead

/-- Only an operation on two others is written differently inside another expression. -/
theorem chars_false (e : Expression) :
    e.chars false = e.chars true ∨ ∃ op lhs rhs, e = .binary op lhs rhs := by
  cases e with
  | literal | var | memory => exact .inl rfl
  | bool value => exact .inl (by cases value <;> rfl)
  | unary op => exact .inl (by cases op <;> rfl)
  | binary op lhs rhs => exact .inr ⟨op, lhs, rhs, rfl⟩

theorem determined_alone (he : e.chars false = e.chars true) (h : Determined true e) :
    Determined false e := by
  intro e' rest rest' hrest hrest' heq
  rw [he] at heq
  rcases chars_false e' with he' | ⟨op, lhs, rhs, rfl⟩
  · rw [he'] at heq
    exact h e' rest rest' hrest.nested hrest'.nested heq
  · -- The first operand of the other one would be the whole of this one, and a blank would follow it.
    rw [chars_binary] at heq
    obtain ⟨-, rfl⟩ := h lhs rest _ hrest.nested (follows_blank _) heq
    exact absurd hrest not_follows_blank

theorem operator_determined {op op' : BinOp}
    (h : op.text.toList ++ ' ' :: rest = op'.text.toList ++ ' ' :: rest') :
    op = op' ∧ rest = rest' := by
  have hsolid : ∀ op : BinOp, ∀ c ∈ op.text.toList, (c != ' ') = true := by
    intro op
    refine List.all_eq_true.1 ?_
    cases op <;> rfl
  have hinj : ∀ op op' : BinOp, op.text.toList = op'.text.toList → op = op' := by
    intro op op'
    cases op <;> cases op' <;> decide
  have hblank : ∀ rest : List Char, ∀ c ∈ (' ' :: rest).head?, (c != ' ') = false := by
    rintro rest c ⟨⟩
    rfl
  have hspan := span_append (hsolid op) (hblank rest)
  have hspan' := span_append (hsolid op') (hblank rest')
  rw [h] at hspan
  exact ⟨hinj op op' (hspan.1.symm.trans hspan'.1), (List.cons.inj (hspan.2.symm.trans hspan'.2)).2⟩

theorem determined_binary_alone {op : BinOp} (hl : Determined true lhs)
    (hr : Determined true rhs) : Determined false (.binary op lhs rhs) := by
  intro e' rest rest' hrest hrest' heq
  rw [chars_binary] at heq
  rcases chars_false e' with he' | ⟨op', lhs', rhs', rfl⟩
  · -- The other one would be the first operand, and a blank would follow it.
    rw [he'] at heq
    obtain ⟨-, rfl⟩ := hl e' _ rest' (follows_blank _) hrest'.nested heq
    exact absurd hrest' not_follows_blank
  · rw [chars_binary] at heq
    obtain ⟨rfl, htail⟩ := hl lhs' _ _ (follows_blank _) (follows_blank _) heq
    obtain ⟨rfl, hoperand⟩ := operator_determined (List.cons.inj htail).2
    obtain ⟨rfl, hrest⟩ := hr rhs' rest rest' hrest.nested hrest'.nested hoperand
    exact ⟨rfl, hrest⟩

theorem determined_binary {op : BinOp} (h : Determined false (.binary op lhs rhs)) :
    Determined true (.binary op lhs rhs) := by
  intro e' rest rest' hrest hrest' heq
  obtain ⟨hword, hremainder⟩ := split_word hrest hrest' heq
  obtain ⟨⟨⟩, -⟩ | ⟨⟨⟩, -⟩ | ⟨-, ⟨operand', rfl⟩ | ⟨op', lhs', rhs', rfl⟩⟩ :=
    eq_of_remainder_append (by simp) hrest' hremainder
  · cases hword
  · exact bracketed h (.inl rfl) (List.cons.inj hremainder).2

theorem determined (e : Expression) : Determined true e ∧ Determined false e := by
  have hboth : ∀ {e : Expression}, (¬ ∃ op lhs rhs, e = .binary op lhs rhs) → Determined true e →
      Determined true e ∧ Determined false e :=
    fun {e} he h => ⟨h, determined_alone ((chars_false e).resolve_right he) h⟩
  -- An operand stands alone in brackets, and behind a sign or beside an operator it is nested.
  induction e with
  | literal | bool | var => exact hboth (by simp) (determined_word rfl)
  | memory address ih => exact hboth (by simp) (determined_memory ih.2)
  | binary op lhs rhs ihl ihr =>
    have h : Determined false (.binary op lhs rhs) := determined_binary_alone ihl.1 ihr.1
    exact ⟨determined_binary h, h⟩
  | unary op operand ih =>
    cases op with
    | not => exact hboth (by simp) (determined_not ih.1)
    | toInt => exact hboth (by simp) (determined_toInt ih.2)

/-- Different expressions have different texts. -/
theorem text_eq_iff (e e' : Expression) : e.text = e'.text ↔ e = e' := by
  refine ⟨fun h => ?_, congrArg text⟩
  have hnil : Follows false [] := fun c hc => by cases hc
  refine ((determined e).2 e' [] [] hnil hnil ?_).1
  rw [List.append_nil, List.append_nil]
  exact congrArg String.toList h

end Expression

end Lift6502
