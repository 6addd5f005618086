import Lift6502.Proofs.Listing.Widths
import Lift6502.Proofs.Text.Characters
import Mathlib.Data.List.TakeWhile

/-!
# Operands read back

An operand that was read is written as a text that reads as the same operand. Only a bare `A` stands
for two operands: it is the accumulator even where a label has that name.
-/

namespace Lift6502

def Reference.text : Reference → String
  | .address value => "$" ++ Text.upperHexDigits (if value ≤ 0xff then 2 else 4) value.toNat
  | .symbol name => name

theorem Target.text_eq (t : Target) : t.text = t.base.text ++ offsetText t.offset := by
  unfold Target.text Reference.text
  cases t.base <;> rfl

theorem Target.offsetText_cases (offset : Int32) :
    offset = 0 ∧ (offsetText offset).toList = [] ∨ ∃ (negative : Bool) (n : Nat),
      (offsetText offset).toList = (if negative then '-' else '+') :: Nat.toDigits 10 n ∧
      offset.toInt = if negative then -(n : Int) else n := by
  unfold offsetText
  simp only
  split
  · next hzero => exact .inl ⟨Int32.toInt_inj.1 hzero, rfl⟩
  · right
    split
    · next hpos =>
      refine ⟨false, offset.toInt.toNat, ?_, ?_⟩
      · rw [String.toList_append, Nat.toString_eq_repr, Nat.toList_repr]
        rfl
      · simp only [Bool.false_eq_true, if_false]
        omega
    · next hneg =>
      refine ⟨true, offset.toInt.natAbs, ?_, ?_⟩
      · rw [String.toList_append, Nat.toString_eq_repr, Nat.toList_repr]
        rfl
      · simp only [if_true]
        omega

def Operand.namesAccumulator : Operand → Bool
  | .direct t _ => t = .symbol "a" || t = .symbol "A"
  | _ => false

namespace Listing

open Text Reader

variable {c : Char} {n : Nat} {rest cs text : List Char} {o : Operand} {t : Target}
  {digits : List Char}

/-! ## Address expressions -/

def IsSymbol (x : String) : Prop :=
  ∃ c rest, x.toList = c :: rest ∧ isSymbolStart c = true ∧ ∀ d ∈ rest, isSymbolRest d = true

/-- An address expression whose symbol, if it has one, can be read. -/
def Written (t : Target) : Prop := ∀ x, t.base = .symbol x → IsSymbol x

def isTargetChar (c : Char) : Bool := isSymbolRest c || c == '$' || c == '+' || c == '-'

theorem isBlank_of_isTargetChar (h : isTargetChar c = true) : isBlank c = false := by
  simp only [isTargetChar, isSymbolRest, Bool.or_eq_true, beq_iff_eq] at h
  rcases h with ((((h | rfl) | rfl) | rfl) | rfl) | rfl
  · exact isBlank_of_isWord h
  all_goals decide

theorem isSymbolRest_of_isSymbolStart (h : isSymbolStart c = true) : isSymbolRest c = true := by
  simp only [isSymbolStart, isNameStart, Bool.or_eq_true, beq_iff_eq] at h
  rcases h with ((h | rfl) | rfl) | rfl
  · rw [isSymbolRest, isWord_of_isAlpha h]
    rfl
  all_goals decide

theorem numeral?_of_isSymbolStart (h : isSymbolStart c = true) (rest : List Char) :
    numeral? (c :: rest) = none := by
  have hdollar : c ≠ '$' := by
    rintro rfl
    cases h
  have hpercent : c ≠ '%' := by
    rintro rfl
    cases h
  have hdigit : c.isDigit = false := by
    simp only [isSymbolStart, isNameStart, Bool.or_eq_true, beq_iff_eq] at h
    rcases h with ((h | rfl) | rfl) | rfl
    · exact isDigit_of_isAlpha h
    all_goals decide
  unfold numeral?
  split
  · next heq => exact absurd (List.cons.inj heq).1 hdollar
  · next heq => exact absurd (List.cons.inj heq).1 hpercent
  · rw [run1?, List.takeWhile_cons_of_neg (by simp [hdigit])]
    rfl

theorem isDigit_of_mem_toDigits (h : c ∈ Nat.toDigits 10 n) : c.isDigit = true :=
  Nat.isDigit_of_mem_toDigits (by decide) (by decide) h

theorem number_of_numeralValue (h : numeralValue digits = n)
    (hn : n < 0x8000000000000000) : number digits = .ok n := by
  rw [number, h, if_pos hn]

theorem numeralValue_toDigits (n : Nat) : numeralValue (Nat.toDigits 10 n) = n := by
  unfold numeralValue
  split
  · next heq => cases isDigit_of_mem_toDigits (n := n) (c := '$') (by simp [heq])
  · next heq => cases isDigit_of_mem_toDigits (n := n) (c := '%') (by simp [heq])
  · exact digitsValue_toDigits n

theorem numeral?_toDigits (n : Nat) :
    numeral? (Nat.toDigits 10 n) = some (Nat.toDigits 10 n, []) := by
  unfold numeral?
  split
  · next heq => cases isDigit_of_mem_toDigits (n := n) (c := '$') (by simp [heq])
  · next heq => cases isDigit_of_mem_toDigits (n := n) (c := '%') (by simp [heq])
  · have hspan : (Nat.toDigits 10 n ++ []).takeWhile Char.isDigit = Nat.toDigits 10 n ∧
        (Nat.toDigits 10 n ++ []).dropWhile Char.isDigit = [] :=
      span_append (fun c hc => isDigit_of_mem_toDigits hc) (by simp)
    rw [List.append_nil] at hspan
    rw [run1?, hspan.1, hspan.2, if_neg (by simp)]

/-- What can follow the base of an address expression. -/
def IsOffset (rest : List Char) : Prop := ∀ c ∈ rest.head?, c = '+' ∨ c = '-'

theorem isOffset_offsetText (offset : Int32) : IsOffset (Target.offsetText offset).toList := by
  obtain ⟨-, h⟩ | ⟨negative, n, h, -⟩ := Target.offsetText_cases offset
  · rw [h]
    simp [IsOffset]
  · rw [h]
    cases negative <;> simp [IsOffset]

theorem IsOffset.stops (h : IsOffset rest) {p : Char → Bool} (hplus : p '+' = false)
    (hminus : p '-' = false) : ∀ c ∈ rest.head?, p c = false := by
  intro c hc
  rcases h c hc with rfl | rfl
  · exact hplus
  · exact hminus

theorem word_toNat (value : UInt16) : word (value.toNat : Int) = .ok value := by
  have hlt := value.toNat_lt
  have hrange : (0 ≤ (value.toNat : Int) && (value.toNat : Int) < 0x10000) = true := by
    simp only [Bool.and_eq_true, decide_eq_true_eq]
    omega
  rw [word, if_pos hrange, ofInt_toNat]

theorem reference_of_numeralValue {value : UInt16} (h : numeralValue digits = value.toNat) :
    reference (.numeral digits) = .ok (.address value) := by
  rw [reference, number_of_numeralValue h (Nat.lt_trans value.toNat_lt (by decide)), ok_bind,
    word_toNat]
  rfl

theorem base?_address (value : UInt16) (hrest : IsOffset rest) :
    ∃ base, base? ((Reference.address value).text.toList ++ rest) = some (base, rest) ∧
      reference base = .ok (.address value) := by
  rw [Reference.text, String.toList_append]
  generalize hwidth : (if value ≤ 0xff then 2 else 4) = width
  have hdigits : ∀ c ∈ (upperHexDigits width value.toNat).toList, isHexDigit c = true :=
    forall_mem_upperHexDigits (by decide)
  have hspan := span_append hdigits (hrest.stops rfl rfl)
  refine ⟨.numeral ('$' :: (upperHexDigits width value.toNat).toList), ?_, ?_⟩
  · have hnumeral : numeral? ('$' :: ((upperHexDigits width value.toNat).toList ++ rest)) =
        some ('$' :: (upperHexDigits width value.toNat).toList, rest) := by
      rw [numeral?, run1?, hspan.1, hspan.2,
        if_neg (by simpa using upperHexDigits_ne_nil width value.toNat)]
      rfl
    show base? ('$' :: ((upperHexDigits width value.toNat).toList ++ rest)) = _
    rw [base?, hnumeral]
  · have hvalue : numeralValue ('$' :: (upperHexDigits width value.toNat).toList) = value.toNat :=
      digitsValue_upperHexDigits width value.toNat
    exact reference_of_numeralValue hvalue

theorem base?_symbol {x : String} (h : IsSymbol x) (hrest : IsOffset rest) :
    ∃ base, base? ((Reference.symbol x).text.toList ++ rest) = some (base, rest) ∧
      reference base = .ok (.symbol x) := by
  obtain ⟨c, more, hx, hstart, hmore⟩ := h
  have hspan := span_append hmore (hrest.stops (by decide) (by decide))
  refine ⟨.symbol (c :: more), ?_, ?_⟩
  · rw [Reference.text, hx, List.cons_append, base?, numeral?_of_isSymbolStart hstart]
    simp only
    rw [if_pos hstart, hspan.1, hspan.2]
  · rw [reference, name, ← hx, String.ofList_toList]

theorem distance_signed {offset : Int32} {negative : Bool}
    (h : offset.toInt = if negative then -(n : Int) else n) :
    distance (some (negative, Nat.toDigits 10 n)) = .ok offset := by
  have hlow := offset.le_toInt
  have hhigh := offset.toInt_lt
  have hn : n < 0x8000000000000000 := by
    cases negative
    · simp only [Bool.false_eq_true, if_false] at h
      omega
    · simp only [if_true] at h
      omega
  have hrange : (-0x80000000 ≤ offset.toInt && offset.toInt < 0x80000000) = true := by
    simp
    omega
  rw [h] at hrange
  simp only [distance, number_of_numeralValue (numeralValue_toDigits n) hn, ok_bind,
    pure_bind, if_pos hrange]
  rw [← h, Int32.ofInt_toInt]

theorem isBlank_digitChar : ∀ d < 10, isBlank (Nat.digitChar d) = false := by decide

theorem solid_toDigits (n : Nat) : Solid (Nat.toDigits 10 n) := by
  intro c hc
  obtain ⟨d, hd, rfl⟩ := exists_digit_of_mem_toDigits (by decide) hc
  exact isBlank_digitChar d hd

theorem signed?_toDigits (negative : Bool) (n : Nat) :
    signed? negative (Nat.toDigits 10 n) = some (negative, Nat.toDigits 10 n) := by
  rw [signed?, trimStart_of_solid (solid_toDigits n), numeral?_toDigits]

theorem sum?_text (h : Written t) : ∃ sum, sum? t.text.toList = some sum ∧
    reference sum.base = .ok t.base ∧ distance sum.offset = .ok t.offset := by
  have hbase : ∃ base, base? t.text.toList = some (base, (Target.offsetText t.offset).toList) ∧
      reference base = .ok t.base := by
    rw [Target.text_eq, String.toList_append]
    have hrest := isOffset_offsetText t.offset
    cases hreference : t.base with
    | address value => exact base?_address value hrest
    | symbol x => exact base?_symbol (h x hreference) hrest
  obtain ⟨base, hbase, href⟩ := hbase
  rw [sum?, hbase]
  obtain ⟨hzero, htext⟩ | ⟨negative, n, htext, hvalue⟩ := Target.offsetText_cases t.offset
  · refine ⟨⟨base, none⟩, ?_, href, ?_⟩
    · rw [htext]
      rfl
    · rw [hzero]
      rfl
  · refine ⟨⟨base, some (negative, Nat.toDigits 10 n)⟩, ?_, href, distance_signed hvalue⟩
    rw [htext]
    cases negative with
    | true =>
      show (signed? true _).map _ = _
      rw [signed?_toDigits]
      rfl
    | false =>
      show (signed? false _).map _ = _
      rw [signed?_toDigits]
      rfl

theorem isTargetChar_of_isSymbolRest (h : isSymbolRest c = true) : isTargetChar c = true := by
  rw [isTargetChar, h]
  rfl

theorem isTargetChar_digitChar : ∀ d < 10, isTargetChar (Nat.digitChar d) = true := by decide

theorem isTargetChar_of_mem_text (h : Written t) : ∀ c ∈ t.text.toList, isTargetChar c = true := by
  intro c hc
  rw [Target.text_eq, String.toList_append] at hc
  rcases List.mem_append.1 hc with hc | hc
  · cases hreference : t.base with
    | address value =>
      rw [hreference, Reference.text, String.toList_append] at hc
      rcases List.mem_append.1 hc with hc | hc
      · rw [List.mem_singleton.1 hc]
        rfl
      · exact forall_mem_upperHexDigits (P := fun c => isTargetChar c = true) (by decide) c hc
    | symbol x =>
      obtain ⟨first, more, hx, hstart, hmore⟩ := h x hreference
      rw [hreference, Reference.text, hx] at hc
      rcases List.mem_cons.1 hc with rfl | hc
      · exact isTargetChar_of_isSymbolRest (isSymbolRest_of_isSymbolStart hstart)
      · exact isTargetChar_of_isSymbolRest (hmore c hc)
  · obtain ⟨-, htext⟩ | ⟨negative, n, htext, -⟩ := Target.offsetText_cases t.offset
    · rw [htext] at hc
      cases hc
    · rw [htext] at hc
      rcases List.mem_cons.1 hc with rfl | hc
      · cases negative <;> decide
      · obtain ⟨d, hd, rfl⟩ := exists_digit_of_mem_toDigits (by decide) hc
        exact isTargetChar_digitChar d hd

theorem solid_text (h : Written t) : Solid t.text.toList :=
  fun c hc => isBlank_of_isTargetChar (isTargetChar_of_mem_text h c hc)

theorem target_text (h : Written t) : target t.text.toList = .ok t := by
  obtain ⟨sum, hsum, hbase, hoffset⟩ := sum?_text h
  simp only [target, trim_of_solid (solid_text h), hsum, hbase, hoffset, bind, Except.bind, pure,
    Except.pure]

theorem isSymbol_of_base? {symbol : List Char} (h : base? cs = some (.symbol symbol, rest)) :
    IsSymbol (name symbol) := by
  unfold base? at h
  split at h
  · cases h
  · split at h
    · cases h
    · next c more _ =>
      split at h
      · next hstart =>
        cases h
        exact ⟨c, _, String.toList_ofList, hstart, fun d hd => List.mem_takeWhile_imp hd⟩
      · cases h

theorem exists_base?_of_sum? {sum : Sum} (h : sum? cs = some sum) :
    ∃ rest, base? cs = some (sum.base, rest) := by
  unfold sum? at h
  split at h
  · cases h
  · next base rest hbase =>
    refine ⟨rest, ?_⟩
    split at h
    · cases h
      exact hbase
    · obtain ⟨offset, -, rfl⟩ := Option.map_eq_some_iff.1 h
      exact hbase
    · obtain ⟨offset, -, rfl⟩ := Option.map_eq_some_iff.1 h
      exact hbase
    · cases h

theorem written_of_target (h : target text = .ok t) : Written t := by
  unfold target at h
  split at h
  · cases h
  · next sum hsum =>
    obtain ⟨b, hb, h⟩ := bind_eq_ok h
    obtain ⟨offset, -, h⟩ := bind_eq_ok h
    cases h
    rintro x rfl
    obtain ⟨rest, hbase⟩ := exists_base?_of_sum? hsum
    unfold reference at hb
    split at hb
    · obtain ⟨value, -, hb⟩ := bind_eq_ok hb
      obtain ⟨address, -, hb⟩ := bind_eq_ok hb
      cases hb
    · next cs heq =>
      rw [heq] at hbase
      cases hb
      exact isSymbol_of_base? hbase

/-! ## Operands -/

/-- The address expressions of an operand can be read back, and its width is the one
that they give. -/
def WrittenOperand (constants : Constants) : Operand → Prop
  | .implied | .accumulator | .immediate (.byte _) => True
  | .immediate (.low t) | .immediate (.high t) => Written t
  | .direct t w | .indexed t _ w => Written t ∧ w = width constants t
  | .indirect t | .indexedIndirect t | .indirectIndexed t => Written t

variable {constants : Constants}

theorem text_ne_nil (h : Written t) : t.text.toList ≠ [] := by
  intro hnil
  obtain ⟨sum, hsum, -⟩ := sum?_text h
  rw [hnil] at hsum
  cases hsum

theorem dropMark?_eq_none {mark : Char} (hmark : isTargetChar mark = false)
    (hcs : ∀ c ∈ cs, isTargetChar c = true) : dropMark? mark cs = none := by
  rw [dropMark?, trimStart_of_solid fun c hc => isBlank_of_isTargetChar (hcs c hc)]
  cases cs with
  | nil => rfl
  | cons c rest =>
    refine if_neg fun heq => ?_
    rw [← beq_iff_eq.1 heq, hcs c List.mem_cons_self] at hmark
    cases hmark

theorem dropMark?_self (mark : Char) (hmark : isBlank mark = false) (rest : List Char) :
    dropMark? mark (mark :: rest) = some rest := by
  rw [dropMark?, trimStart, List.dropWhile_cons_of_neg (by simp [hmark])]
  exact if_pos (beq_self_eq_true mark)

theorem dropMark?_of_ne {mark : Char} (hc : isBlank c = false) (hne : c ≠ mark) (rest : List Char) :
    dropMark? mark (c :: rest) = none := by
  rw [dropMark?, trimStart, List.dropWhile_cons_of_neg (by simp [hc])]
  exact if_neg (by simpa using hne)

theorem bracketed?_text (h : Written t) : bracketed? t.text.toList = some t.text.toList := by
  unfold bracketed?
  rw [trim_of_solid (solid_text h)]
  cases hcs : t.text.toList with
  | nil => exact absurd hcs (text_ne_nil h)
  | cons c rest => rfl

theorem operand_eq_addressed (hempty : text ≠ []) (hlower : text ≠ ['a']) (hupper : text ≠ ['A'])
    (hmark : '#' ∉ text) : operand constants text = addressed constants text := by
  unfold operand
  split
  · exact absurd rfl hempty
  · exact absurd rfl hlower
  · exact absurd rfl hupper
  · exact absurd List.mem_cons_self hmark
  · rfl

section

variable (h : Written t)

include h

theorem indirect?_text : indirect? ('(' :: (t.text.toList ++ [')'])) = some t.text.toList := by
  rw [indirect?, List.reverse_append, List.reverse_singleton, List.singleton_append,
    dropMark?_self ')' (by decide)]
  simp only [Option.bind_eq_bind, Option.bind_some, List.reverse_reverse, bracketed?_text h]

theorem indexedIndirect?_text :
    indexedIndirect? ('(' :: (t.text.toList ++ [',', 'X', ')'])) = some t.text.toList := by
  have hrev : (t.text.toList ++ [',', 'X', ')']).reverse =
      ')' :: 'X' :: ',' :: t.text.toList.reverse := by simp
  have hletter : dropLetter? 'x' 'X' (trimStart ('X' :: ',' :: t.text.toList.reverse)) =
      some (',' :: t.text.toList.reverse) := rfl
  rw [indexedIndirect?, hrev, dropMark?_self ')' (by decide)]
  simp only [Option.bind_eq_bind, Option.bind_some, hletter, dropMark?_self ',' (by decide),
    List.reverse_reverse, bracketed?_text h]

theorem indirectIndexed?_text :
    indirectIndexed? ('(' :: (t.text.toList ++ [')', ',', 'Y'])) = some t.text.toList := by
  have hrev : (t.text.toList ++ [')', ',', 'Y']).reverse =
      'Y' :: ',' :: ')' :: t.text.toList.reverse := by simp
  have hletter : dropLetter? 'y' 'Y' ('Y' :: ',' :: ')' :: t.text.toList.reverse) =
      some (',' :: ')' :: t.text.toList.reverse) := rfl
  rw [indirectIndexed?, hrev, hletter]
  simp only [Option.bind_eq_bind, Option.bind_some, dropMark?_self ',' (by decide),
    dropMark?_self ')' (by decide), List.reverse_reverse, bracketed?_text h]

theorem indexedIndirect?_of_indirect :
    indexedIndirect? ('(' :: (t.text.toList ++ [')'])) = none := by
  have hchars : ∀ c ∈ t.text.toList.reverse, isTargetChar c = true :=
    fun c hc => isTargetChar_of_mem_text h c (List.mem_reverse.1 hc)
  rw [indexedIndirect?, List.reverse_append, List.reverse_singleton, List.singleton_append,
    dropMark?_self ')' (by decide)]
  simp only [Option.bind_eq_bind, Option.bind_some,
    trimStart_of_solid fun c hc => isBlank_of_isTargetChar (hchars c hc)]
  generalize t.text.toList.reverse = cs at hchars
  cases cs with
  | nil => rfl
  | cons c rest =>
    have hrest : dropMark? ',' rest = none :=
      dropMark?_eq_none (by decide) fun d hd => hchars d (List.mem_cons_of_mem c hd)
    rw [dropLetter?]
    split
    · rw [Option.bind_some, hrest, Option.bind_none]
    · rfl

theorem addressed_indirect :
    addressed constants ('(' :: (t.text.toList ++ [')'])) = .ok (.indirect t) := by
  have hindirect : indirectIndexed? ('(' :: (t.text.toList ++ [')'])) = none := by
    rw [indirectIndexed?, List.reverse_append]
    rfl
  rw [addressed, indexedIndirect?_of_indirect h, hindirect, indirect?_text h]
  simp only [target_text h, ok_bind]
  rfl

theorem addressed_indexedIndirect :
    addressed constants ('(' :: (t.text.toList ++ [',', 'X', ')'])) = .ok (.indexedIndirect t) := by
  rw [addressed, indexedIndirect?_text h]
  simp only [target_text h, ok_bind]
  rfl

theorem addressed_indirectIndexed :
    addressed constants ('(' :: (t.text.toList ++ [')', ',', 'Y'])) = .ok (.indirectIndexed t) := by
  have hindexed : indexedIndirect? ('(' :: (t.text.toList ++ [')', ',', 'Y'])) = none := by
    have hrev : (t.text.toList ++ [')', ',', 'Y']).reverse =
        'Y' :: ',' :: ')' :: t.text.toList.reverse := by simp
    rw [indexedIndirect?, hrev, dropMark?_of_ne (by decide) (by decide)]
    rfl
  rw [addressed, hindexed, indirectIndexed?_text h]
  simp only [target_text h, ok_bind]
  rfl

theorem addressed_unbracketed (more : List Char) :
    addressed constants (t.text.toList ++ more) =
      unbracketed constants (t.text.toList ++ more) := by
  cases hcs : t.text.toList with
  | nil => exact absurd hcs (text_ne_nil h)
  | cons c cs =>
    have hbracket : c ≠ '(' := by
      rintro rfl
      cases isTargetChar_of_mem_text h '(' (by rw [hcs]; exact List.mem_cons_self)
    rw [List.cons_append, addressed]
    simp [indexedIndirect?, indirectIndexed?, indirect?, hbracket]

theorem addressed_direct :
    addressed constants t.text.toList = .ok (.direct t (width constants t)) := by
  have hindexed : indexed? (t.text.toList ++ []) = none := by
    rw [List.append_nil, indexed?]
    cases hrev : t.text.toList.reverse with
    | nil => rfl
    | cons c back =>
      have hback : dropMark? ',' back = none := dropMark?_eq_none (by decide) fun d hd =>
        isTargetChar_of_mem_text h d (List.mem_reverse.1 (hrev ▸ List.mem_cons_of_mem c hd))
      by_cases hx : (c == 'x' || c == 'X') = true <;>
        by_cases hy : (c == 'y' || c == 'Y') = true <;> simp [hx, hy, hback]
  rw [← List.append_nil t.text.toList, addressed_unbracketed h [], unbracketed, hindexed,
    List.append_nil]
  simp only [target_text h, ok_bind]
  rfl

theorem addressed_indexed (index : IndexRegister) :
    addressed constants (t.text.toList ++ [',', if index = .x then 'X' else 'Y']) =
      .ok (.indexed t index (width constants t)) := by
  have hindexed : indexed? (t.text.toList ++ [',', if index = .x then 'X' else 'Y']) =
      some (t.text.toList, index == .x) := by
    have hinner := trimEnd_of_solid (solid_text h)
    have hne := text_ne_nil h
    have hrev : (t.text.toList ++ [',', if index = .x then 'X' else 'Y']).reverse =
        (if index = .x then 'X' else 'Y') :: ',' :: t.text.toList.reverse := by simp
    rw [indexed?, hrev]
    cases index <;>
      simp [dropMark?_self ',' (by decide), hinner, hne]
  rw [addressed_unbracketed h, unbracketed, hindexed]
  simp only [target_text h, ok_bind]
  cases index <;> rfl

end

/-! ## Immediate operands -/

theorem toUInt16_le (value : UInt8) : value.toUInt16 ≤ 0xff := by
  have hlt := value.toNat_lt
  rw [UInt16.le_iff_toNat_le, UInt8.toNat_toUInt16]
  show value.toNat ≤ 255
  omega

theorem byte_toUInt16 (value : UInt8) : byte value.toUInt16 = .ok value := by
  rw [byte, if_pos (toUInt16_le value), UInt8.toUInt8_toUInt16]

theorem written_address (value : UInt16) : Written (Target.address value) := by
  intro x hx
  cases hx

theorem value_address (address : UInt16) :
    value constants (Target.address address).text.toList = .ok address := by
  have hknown : knownValue? constants (Target.address address) = some (address.toNat : Int) := by
    show some ((address.toNat : Int) + 0) = _
    rw [Int.add_zero]
  rw [value, target_text (written_address address), ok_bind, hknown]
  exact word_toNat address

theorem immediate_byte (value : UInt8) :
    immediate constants (Target.address value.toUInt16).text.toList = .ok (.byte value) := by
  have hchars := isTargetChar_of_mem_text (written_address value.toUInt16)
  unfold immediate
  split
  · next heq => cases hchars '<' (by simp [heq])
  · next heq => cases hchars '>' (by simp [heq])
  · rw [value_address, ok_bind, byte_toUInt16]
    rfl

theorem text_byte (value : UInt8) :
    (Immediate.byte value).text.toList = '#' :: (Target.address value.toUInt16).text.toList := by
  have htext : (Target.address value.toUInt16).text = "$" ++ upperHexDigits 2 value.toNat := by
    rw [Target.text_eq]
    show "$" ++ upperHexDigits (if value.toUInt16 ≤ 0xff then 2 else 4) value.toUInt16.toNat ++ "" = _
    rw [if_pos (toUInt16_le value), UInt8.toNat_toUInt16, String.append_empty]
  rw [htext, Immediate.text, String.toList_append, String.toList_append]
  rfl

theorem operand_mark (text : List Char) (hsolid : Solid text) :
    operand constants ('#' :: text) = (do return .immediate (← immediate constants text)) := by
  show (do return Operand.immediate (← immediate constants (trim text))) = _
  rw [trim_of_solid hsolid]

theorem operand_immediate {value : Immediate} (h : WrittenOperand constants (.immediate value)) :
    operand constants value.text.toList = .ok (.immediate value) := by
  cases value with
  | byte value =>
    rw [text_byte, operand_mark _ (solid_text (written_address _)), immediate_byte, ok_bind]
    rfl
  | low t =>
    have htext : (Immediate.low t).text.toList = '#' :: '<' :: t.text.toList := by
      rw [Immediate.text, String.toList_append]
      rfl
    have hsolid : Solid ('<' :: t.text.toList) := List.forall_mem_cons.2 ⟨by decide, solid_text h⟩
    rw [htext, operand_mark _ hsolid, immediate, target_text h, ok_bind]
    rfl
  | high t =>
    have htext : (Immediate.high t).text.toList = '#' :: '>' :: t.text.toList := by
      rw [Immediate.text, String.toList_append]
      rfl
    have hsolid : Solid ('>' :: t.text.toList) := List.forall_mem_cons.2 ⟨by decide, solid_text h⟩
    rw [htext, operand_mark _ hsolid, immediate, target_text h, ok_bind]
    rfl

/-! ## Operands read back -/

theorem mark_not_mem (h : Written t) : '#' ∉ t.text.toList := by
  intro hmem
  cases isTargetChar_of_mem_text h '#' hmem

theorem operand_direct (h : Written t) {w : Width}
    (hname : (Operand.direct t w).namesAccumulator = false) :
    operand constants t.text.toList = .ok (.direct t (width constants t)) := by
  -- Only a symbol can be written with a single letter.
  have hsymbol : ∀ x : String, target x.toList = .ok (.symbol x) → t ≠ .symbol x →
      t.text.toList ≠ x.toList := by
    intro x hx hne heq
    have htarget := target_text h
    rw [heq, hx] at htarget
    exact hne (Except.ok.inj htarget).symm
  simp only [Operand.namesAccumulator, Bool.or_eq_false_iff, decide_eq_false_iff_not] at hname
  rw [operand_eq_addressed (text_ne_nil h) (hsymbol "a" rfl hname.1) (hsymbol "A" rfl hname.2)
    (mark_not_mem h), addressed_direct h]

theorem operand_eq_addressed_of_mem (hmem : c ∈ text) (hc : c = ',' ∨ c = '(')
    (hmark : '#' ∉ text) : operand constants text = addressed constants text := by
  refine operand_eq_addressed (List.ne_nil_of_mem hmem) ?_ ?_ hmark
  all_goals
    rintro rfl
    rw [List.mem_singleton.1 hmem] at hc
    revert hc
    decide

theorem operand_indexed (h : Written t) (index : IndexRegister) :
    operand constants (t.text.toList ++ [',', if index = .x then 'X' else 'Y']) =
      .ok (.indexed t index (width constants t)) := by
  rw [operand_eq_addressed_of_mem (c := ',') (by simp) (.inl rfl) ?_, addressed_indexed h]
  cases index <;> simp [mark_not_mem h]

theorem operand_bracketed {after : String} (htext : o.text = "(" ++ t.text ++ after)
    (h : addressed constants ('(' :: (t.text.toList ++ after.toList)) = .ok o)
    (hmark : '#' ∉ '(' :: (t.text.toList ++ after.toList)) : operand constants o.text.toList =
    .ok o := by
  have hchars : o.text.toList = '(' :: (t.text.toList ++ after.toList) := by
    rw [htext, String.toList_append, String.toList_append]
    rfl
  rw [hchars, operand_eq_addressed_of_mem List.mem_cons_self (.inr rfl) hmark, h]

/-- An operand that was read reads back, unless it is written like the accumulator. -/
theorem operand_text (h : WrittenOperand constants o) (hname : o.namesAccumulator = false) :
    operand constants o.text.toList = .ok o := by
  cases o with
  | implied => rfl
  | accumulator => rfl
  | immediate value => exact operand_immediate h
  | direct t w =>
    obtain ⟨h, rfl⟩ := h
    exact operand_direct h hname
  | indexed t index w =>
    obtain ⟨h, rfl⟩ := h
    cases index with
    | x =>
      rw [Operand.text, String.toList_append]
      exact operand_indexed h .x
    | y =>
      rw [Operand.text, String.toList_append]
      exact operand_indexed h .y
  | indirect t => exact operand_bracketed rfl (addressed_indirect h) (by simp [mark_not_mem h])
  | indexedIndirect t =>
    exact operand_bracketed rfl (addressed_indexedIndirect h) (by simp [mark_not_mem h])
  | indirectIndexed t =>
    exact operand_bracketed rfl (addressed_indirectIndexed h) (by simp [mark_not_mem h])

def isOperandChar (c : Char) : Bool := isTargetChar c || ['#', '<', '>', '(', ')', ','].contains c

theorem isBlank_of_isOperandChar (h : isOperandChar c = true) : isBlank c = false := by
  rcases Bool.or_eq_true_iff.1 h with h | h
  · exact isBlank_of_isTargetChar h
  · simp only [List.contains_iff_mem, List.mem_cons, List.not_mem_nil, or_false] at h
    rcases h with rfl | rfl | rfl | rfl | rfl | rfl <;> decide

theorem isOperandChar_of_mem_target (h : Written t) (hc : c ∈ t.text.toList) :
    isOperandChar c = true := by
  rw [isOperandChar, isTargetChar_of_mem_text h c hc]
  rfl

theorem isOperandChar_of_mem_text (h : WrittenOperand constants o) :
    ∀ c ∈ o.text.toList, isOperandChar c = true := by
  -- Marks stand before or behind the text of an address expression.
  have haround : ∀ {t : Target} (before after : String), Written t →
      before.toList.all isOperandChar = true → after.toList.all isOperandChar = true →
      ∀ c ∈ (before ++ t.text ++ after).toList, isOperandChar c = true := by
    intro t before after ht hbefore hafter c hc
    rw [String.toList_append, String.toList_append] at hc
    rcases List.mem_append.1 hc with hc | hc
    · rcases List.mem_append.1 hc with hc | hc
      · exact List.all_eq_true.1 hbefore c hc
      · exact isOperandChar_of_mem_target ht hc
    · exact List.all_eq_true.1 hafter c hc
  cases o with
  | implied => exact fun c hc => absurd hc List.not_mem_nil
  | accumulator => exact List.all_eq_true.1 rfl
  | immediate value =>
    cases value with
    | byte value =>
      rw [Operand.text, text_byte]
      exact List.forall_mem_cons.2
        ⟨rfl, fun c hc => isOperandChar_of_mem_target (written_address _) hc⟩
    | low t =>
      have := haround "#<" "" h rfl rfl
      rwa [String.append_empty] at this
    | high t =>
      have := haround "#>" "" h rfl rfl
      rwa [String.append_empty] at this
  | direct t w => exact fun c hc => isOperandChar_of_mem_target h.1 hc
  | indexed t index w =>
    cases index with
    | x =>
      have := haround "" ",X" h.1 rfl rfl
      rwa [String.empty_append] at this
    | y =>
      have := haround "" ",Y" h.1 rfl rfl
      rwa [String.empty_append] at this
  | indirect t => exact haround "(" ")" h rfl rfl
  | indexedIndirect t => exact haround "(" ",X)" h rfl rfl
  | indirectIndexed t => exact haround "(" "),Y" h rfl rfl

/-! ## Operands that were read -/

theorem exists_written {α : Type} {f : Target → α} {a : α}
    (h : (do return f (← target text)) = Except.ok a) : ∃ t, Written t ∧ f t = a := by
  obtain ⟨t, ht, h⟩ := bind_eq_ok h
  exact ⟨t, written_of_target ht, Except.ok.inj h⟩

theorem writtenOperand_of_immediate {value : Immediate} (h : immediate constants text = .ok value) :
    WrittenOperand constants (.immediate value) := by
  unfold immediate at h
  split at h
  · obtain ⟨t, ht, rfl⟩ := exists_written h
    exact ht
  · obtain ⟨t, ht, rfl⟩ := exists_written h
    exact ht
  · obtain ⟨known, -, h⟩ := bind_eq_ok h
    obtain ⟨byte, -, h⟩ := bind_eq_ok h
    cases h
    trivial

theorem writtenOperand_of_operand (h : operand constants text = .ok o) :
    WrittenOperand constants o := by
  rcases operand_cases h with rfl | rfl | ⟨_, _, hvalue, rfl⟩ | ⟨_, t, ht, hkind⟩
  · trivial
  · trivial
  · exact writtenOperand_of_immediate hvalue
  · have hwritten := written_of_target ht
    rcases hkind with rfl | rfl | rfl | rfl | ⟨index, rfl⟩
    iterate 3 exact hwritten
    iterate 2 exact ⟨hwritten, rfl⟩

end Listing

end Lift6502
