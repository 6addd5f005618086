import Lift6502.Text.Characters
import Lift6502.Text.Word

/-!
# Characters of written text

Trimming keeps a text that is made of words. The digits of a written number have the value of the
number.
-/

namespace Lift6502.Text

variable {c : Char} {cs : List Char}

/-- Ranges of the blanks beyond ASCII, ends included. -/
def blankRanges : List (Nat × Nat) :=
  [(0x85, 0x85), (0xa0, 0xa0), (0x1680, 0x1680), (0x2000, 0x200a), (0x2028, 0x2029),
    (0x202f, 0x202f),
   (0x205f, 0x205f), (0x3000, 0x3000)]

theorem exists_blankRange (h : isBlank c = true) (hwide : 0x80 ≤ c.toNat) :
    ∃ blanks ∈ blankRanges, blanks.1 ≤ c.toNat ∧ c.toNat ≤ blanks.2 := by
  simp only [isBlank, Bool.or_eq_true, Bool.and_eq_true, decide_eq_true_eq, beq_iff_eq] at h
  simp only [blankRanges, List.mem_cons, List.not_mem_nil, or_false, exists_eq_or_imp,
    exists_eq_left]
  omega

theorem wordRanges_avoid_blanks : (wordRanges.all fun words => blankRanges.all fun blanks =>
    blanks.2 < words.1 || words.2 < blanks.1) = true := by
  decide +kernel

theorem ascii_words_solid : ∀ n < 0x80, ((Char.ofNat n).isAlphanum || Char.ofNat n == '_') = true →
    isBlank (Char.ofNat n) = false := by
  decide

theorem isBlank_of_isWord (h : isWord c = true) : isBlank c = false := by
  rw [← Bool.not_eq_true]
  intro hblank
  unfold isWord at h
  split at h
  · next hascii =>
    have hsolid := ascii_words_solid c.toNat hascii
    rw [Char.ofNat_toNat, hblank] at hsolid
    cases hsolid h
  · next hwide =>
    obtain ⟨words, hwords, hin⟩ := List.any_eq_true.1 h
    obtain ⟨blanks, hblanks, hlow, hhigh⟩ := exists_blankRange hblank (by omega)
    have hout :=
      List.all_eq_true.1 (List.all_eq_true.1 wordRanges_avoid_blanks words hwords) blanks hblanks
    simp only [Bool.and_eq_true, Bool.or_eq_true, decide_eq_true_eq] at hin hout
    omega

theorem toNat_of_isAlpha (h : c.isAlpha = true) :
    (65 ≤ c.toNat ∧ c.toNat ≤ 90) ∨ (97 ≤ c.toNat ∧ c.toNat ≤ 122) := by
  rcases Bool.or_eq_true_iff.1 h with h | h
  · have hupper := of_decide_eq_true h
    exact .inl ⟨UInt32.le_iff_toNat_le.1 hupper.1, UInt32.le_iff_toNat_le.1 hupper.2⟩
  · have hlower := Bool.and_eq_true_iff.1 h
    exact .inr ⟨UInt32.le_iff_toNat_le.1 (of_decide_eq_true hlower.1),
      UInt32.le_iff_toNat_le.1 (of_decide_eq_true hlower.2)⟩

theorem isWord_of_isAlpha (h : c.isAlpha = true) : isWord c = true := by
  have hcode := toNat_of_isAlpha h
  exact isWord_of_isAlphanum (by omega) (by rw [Char.isAlphanum, h, Bool.true_or])

theorem isDigit_of_isAlpha (h : c.isAlpha = true) : c.isDigit = false := by
  have hcode := toNat_of_isAlpha h
  rw [← Bool.not_eq_true, Char.isDigit_iff_toNat]
  change ¬ (48 ≤ c.toNat ∧ c.toNat ≤ 57)
  omega

def Solid (cs : List Char) : Prop := ∀ c ∈ cs, isBlank c = false

theorem trimStart_of_solid (h : Solid cs) : trimStart cs = cs := by
  cases cs with
  | nil => rfl
  | cons c rest => exact List.dropWhile_cons_of_neg (by simp [h c List.mem_cons_self])

theorem trimEnd_of_solid (h : Solid cs) : trimEnd cs = cs := by
  have hback : trimStart cs.reverse = cs.reverse :=
    trimStart_of_solid fun c hc => h c (List.mem_reverse.1 hc)
  rw [trimEnd, ← trimStart, hback, List.reverse_reverse]

theorem trim_of_solid (h : Solid cs) : trim cs = cs := by
  rw [trim, trimStart_of_solid h, trimEnd_of_solid h]

theorem exists_digit_of_mem_toDigits {b n : Nat} (hb : 1 < b) (h : c ∈ Nat.toDigits b n) :
    ∃ d < b, c = d.digitChar := by
  induction n using Nat.strongRecOn with
  | _ n ih =>
    by_cases hn : n < b
    · rw [Nat.toDigits_of_lt_base hn, List.mem_singleton] at h
      exact ⟨n, hn, h⟩
    · rw [Nat.toDigits_of_base_le hb (by omega)] at h
      rcases List.mem_append.1 h with h | h
      · exact ih (n / b) (Nat.div_lt_self (by omega) hb) h
      · exact ⟨n % b, Nat.mod_lt n (by omega), List.mem_singleton.1 h⟩

theorem digitsValue_map_toDigits {b : Nat} (hb : 1 < b) {f : Char → Char}
    (hf : ∀ d < b, digitValue (f d.digitChar) = d) (n : Nat) :
    digitsValue b ((Nat.toDigits b n).map f) = n := by
  induction n using Nat.strongRecOn with
  | _ n ih =>
    by_cases hn : n < b
    · rw [Nat.toDigits_of_lt_base hn]
      show b * 0 + digitValue (f n.digitChar) = n
      rw [hf n hn, Nat.mul_zero, Nat.zero_add]
    · have hfront := ih (n / b) (Nat.div_lt_self (by omega) hb)
      rw [digitsValue] at hfront
      rw [Nat.toDigits_of_base_le hb (by omega), List.map_append, digitsValue,
        List.foldl_append, hfront]
      show b * (n / b) + digitValue (f (n % b).digitChar) = n
      rw [hf _ (Nat.mod_lt n (by omega)), Nat.div_add_mod]

theorem digitsValue_zeros_append (b k : Nat) (digits : List Char) :
    digitsValue b (List.replicate k '0' ++ digits) = digitsValue b digits := by
  induction k with
  | zero => rfl
  | succ k ih =>
    rw [← ih, List.replicate_succ, digitsValue, List.cons_append, List.foldl_cons]
    rfl

theorem digitValue_upper : ∀ d < 16, digitValue d.digitChar.toUpper = d := by decide

theorem toList_upperHexDigits (width n : Nat) : (upperHexDigits width n).toList =
    List.replicate (width - (Nat.toDigits 16 n).length) '0' ++ (Nat.toDigits 16 n).map
      Char.toUpper := by
  rw [upperHexDigits, String.toList_ofList, zeroPadded, List.map_append, List.map_replicate]
  rfl

theorem digitsValue_upperHexDigits (width n : Nat) :
    digitsValue 16 (upperHexDigits width n).toList = n := by
  rw [toList_upperHexDigits, digitsValue_zeros_append,
    digitsValue_map_toDigits (by decide) digitValue_upper]

theorem upperHexDigits_ne_nil (width n : Nat) : (upperHexDigits width n).toList ≠ [] := by
  simp [toList_upperHexDigits, Nat.toDigits_ne_nil]

theorem forall_mem_upperHexDigits {P : Char → Prop} (hP : ∀ d < 16, P (Nat.digitChar d).toUpper)
    {width n : Nat} : ∀ c ∈ (upperHexDigits width n).toList, P c := by
  intro c h
  rw [toList_upperHexDigits] at h
  rcases List.mem_append.1 h with h | h
  · rw [List.eq_of_mem_replicate h]
    exact hP 0 (by decide)
  · obtain ⟨c', hc', rfl⟩ := List.mem_map.1 h
    obtain ⟨d, hd, rfl⟩ := exists_digit_of_mem_toDigits (by decide) hc'
    exact hP d hd

theorem digitsValue_toDigits (n : Nat) : digitsValue 10 (Nat.toDigits 10 n) = n := by
  have h := digitsValue_map_toDigits (b := 10) (f := id) (by decide) (by decide) n
  rwa [List.map_id] at h

theorem span_append {p : Char → Bool} {run rest : List Char} (hrun : ∀ c ∈ run, p c = true)
    (hrest : ∀ c ∈ rest.head?, p c = false) :
    (run ++ rest).takeWhile p = run ∧ (run ++ rest).dropWhile p = rest := by
  have hstop : rest.takeWhile p = [] ∧ rest.dropWhile p = rest := by
    cases rest with
    | nil => exact ⟨rfl, rfl⟩
    | cons c rest =>
      have hc : ¬ p c = true := by simp [hrest c rfl]
      exact ⟨List.takeWhile_cons_of_neg hc, List.dropWhile_cons_of_neg hc⟩
  rw [List.takeWhile_append_of_pos hrun, List.dropWhile_append_of_pos hrun, hstop.1, hstop.2,
    List.append_nil]
  exact ⟨rfl, rfl⟩

end Lift6502.Text
