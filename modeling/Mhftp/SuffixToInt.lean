import Mhftp.AdmittedChunkSize
import Mhftp.ChunkRequest

/-! # Sizes with a suffix

`SuffixToInt` looks at the last character of its argument and leaves what is before it to
`atoi`, which is content with a number at the front.  `SizeText` says what a size is:
decimal digits, and a k or an m behind them or nothing.
-/

namespace Mhftp

/-- The letters that may follow a number, and what they stand for. -/
def letterFactor (letter : UInt8) : Option Nat :=
  if letter = 75 ∨ letter = 107 then some 1024
  else if letter = 77 ∨ letter = 109 then some 1048576
  else none

/-- A string is a size, of so many bytes. -/
inductive SizeText : List UInt8 → Nat → Prop
  | number {s : List UInt8} (h : IsNumber s) : SizeText s (digitsValue s)
  | suffixed {s : List UInt8} {letter : UInt8} {factor : Nat} (h : IsNumber s)
      (hletter : letterFactor letter = some factor) :
      SizeText (s ++ [letter]) (digitsValue s * factor)

/-- `SuffixToInt` returns the size that a string is, if it is one and an int, and else -1. -/
structure ReadExactly (str_number : List UInt8) : Prop where
  exact : ∀ v, SizeText str_number v → v < 2 ^ 31 → suffixToInt str_number = some (v : Int)
  refused : (∀ v, SizeText str_number v → 2 ^ 31 ≤ v) → suffixToInt str_number = some (-1)

/-- The numbers that `atoi` cuts to -1. -/
def CutToMinusOne (n : Int) : Prop := 2 ^ 63 - 1 ≤ n ∨ -2 ^ 63 < n ∧ n % 2 ^ 32 = 2 ^ 32 - 1

instance (n : Int) : Decidable (CutToMinusOne n) := inferInstanceAs (Decidable (_ ∨ _))

/-- The strings that `SuffixToInt` reads right: a number below 2 ^ 31, or one below 2 ^ 21
and a k, or one below 2 ^ 11 and an m; what ends in a digit where it starts with a number
that `atoi` cuts to -1; and all that ends in something else. -/
def SuffixReads (str_number : List UInt8) : Prop :=
  match str_number.getLast? with
  | none => False
  | some suffix =>
    if isDigit suffix then
      IsNumber str_number ∧ digitsValue str_number < 2 ^ 31 ∨ CutToMinusOne (numberRead str_number)
    else if suffix = 75 ∨ suffix = 107 then
      IsNumber str_number.dropLast ∧ digitsValue str_number.dropLast < 2 ^ 21
    else if suffix = 77 ∨ suffix = 109 then
      IsNumber str_number.dropLast ∧ digitsValue str_number.dropLast < 2 ^ 11
    else True

section Suffix
variable {front : List UInt8} {letter : UInt8}

theorem letterFactor_eq_some_iff {factor : Nat} : letterFactor letter = some factor ↔
    (letter = 75 ∨ letter = 107) ∧ factor = 1024 ∨
      (letter = 77 ∨ letter = 109) ∧ factor = 1048576 := by
  unfold letterFactor
  by_cases hkilo : letter = 75 ∨ letter = 107
  · have hmega : ¬ (letter = 77 ∨ letter = 109) := by
      rcases hkilo with rfl | rfl <;> decide
    simp [hkilo, hmega, eq_comm]
  · by_cases hmega : letter = 77 ∨ letter = 109 <;> simp [hkilo, hmega, eq_comm]

/-- No letter is a digit. -/
theorem not_isDigit_of_letterFactor {factor : Nat} (h : letterFactor letter = some factor) :
    isDigit letter = false := by
  obtain ⟨rfl | rfl, -⟩ | ⟨rfl | rfl, -⟩ := letterFactor_eq_some_iff.mp h <;> decide

theorem letterFactor_pos {factor : Nat} (h : letterFactor letter = some factor) : 0 < factor := by
  obtain ⟨-, rfl⟩ | ⟨-, rfl⟩ := letterFactor_eq_some_iff.mp h <;> decide

/-- A size that ends in a digit is a number. -/
theorem sizeText_iff_of_digit {v : Nat} (h : isDigit letter = true) :
    SizeText (front ++ [letter]) v ↔
      IsNumber (front ++ [letter]) ∧ v = digitsValue (front ++ [letter]) := by
  constructor
  · generalize hs : front ++ [letter] = s
    rintro (hnumber | ⟨hnumber, hletter⟩)
    · exact ⟨hnumber, rfl⟩
    · obtain ⟨-, hlast⟩ := List.append_inj' hs rfl
      obtain rfl := List.singleton_inj.mp hlast
      rw [not_isDigit_of_letterFactor hletter] at h
      cases h
  · rintro ⟨hnumber, rfl⟩
    exact .number hnumber

/-- Any other size is a number and a letter. -/
theorem sizeText_iff_of_not_digit {v : Nat} (h : isDigit letter = false) :
    SizeText (front ++ [letter]) v ↔
      ∃ factor, letterFactor letter = some factor ∧ IsNumber front ∧
        v = digitsValue front * factor := by
  constructor
  · generalize hs : front ++ [letter] = s
    rintro (hnumber | ⟨hnumber, hletter⟩)
    · have hdigit := hnumber.2 letter (hs ▸ List.mem_append_right _ (List.mem_singleton_self _))
      rw [h] at hdigit
      cases hdigit
    · obtain ⟨rfl, hlast⟩ := List.append_inj' hs rfl
      obtain rfl := List.singleton_inj.mp hlast
      exact ⟨_, hletter, hnumber, rfl⟩
  · rintro ⟨factor, hletter, hnumber, rfl⟩
    exact .suffixed hnumber hletter

theorem bmod_eq_neg_one_iff (n : Int) : n.bmod (2 ^ 32) = -1 ↔ n % 2 ^ 32 = 2 ^ 32 - 1 := by
  rw [Int.bmod_def]
  split <;> omega

theorem atoi_eq_neg_one_iff (s : List UInt8) : atoi s = -1 ↔ CutToMinusOne (numberRead s) := by
  rw [atoi_eq]
  rw [bmod_eq_neg_one_iff]
  unfold CutToMinusOne
  omega

/-- What ends in a digit goes to `atoi` as it is. -/
theorem suffixToInt_of_digit (h : isDigit letter = true) :
    suffixToInt (front ++ [letter]) = some (atoi (front ++ [letter])) := by
  simp only [suffixToInt, List.getLast?_concat, h, if_true]

/-- What ends in a letter is a product, as far as that fits, and the rest is refused. -/
theorem suffixToInt_of_not_digit (hlen : front.length < 64) (h : isDigit letter = false) :
    suffixToInt (front ++ [letter]) = some (match letterFactor letter with
      | some factor => (atoi front * factor).bmod (2 ^ 32)
      | none => -1) := by
  obtain ⟨hk, hm⟩ := or_32_eq_iff letter
  have hshort : ¬ 64 ≤ front.length := by omega
  simp only [suffixToInt, List.getLast?_concat, List.dropLast_concat, h, if_neg hshort, hk, hm,
    letterFactor]
  rw [if_neg (by decide)]
  by_cases hkilo : letter = 75 ∨ letter = 107
  · rw [if_pos hkilo, if_pos hkilo]
    rfl
  · rw [if_neg hkilo, if_neg hkilo]
    by_cases hmega : letter = 77 ∨ letter = 109
    · rw [if_pos hmega, if_pos hmega]
      rfl
    · rw [if_neg hmega, if_neg hmega]

/-- A product with 1024 or 1048576 is never cut to -1. -/
theorem bmod_mul_letterFactor_ne {factor : Nat} (h : letterFactor letter = some factor) (n : Int) :
    (n * factor).bmod (2 ^ 32) ≠ -1 := by
  intro hcut
  rw [bmod_eq_neg_one_iff] at hcut
  obtain ⟨-, rfl⟩ | ⟨-, rfl⟩ := letterFactor_eq_some_iff.mp h <;> omega

/-! ### The three kinds of strings -/

theorem readExactly_iff_of_digit (h : isDigit letter = true) :
    ReadExactly (front ++ [letter]) ↔
      IsNumber (front ++ [letter]) ∧ digitsValue (front ++ [letter]) < 2 ^ 31 ∨
        CutToMinusOne (numberRead (front ++ [letter])) := by
  have hatoi : IsNumber (front ++ [letter]) → digitsValue (front ++ [letter]) < 2 ^ 31 →
      suffixToInt (front ++ [letter]) = some (digitsValue (front ++ [letter]) : Int) := by
    intro hnumber hlt
    rw [suffixToInt_of_digit h, atoi_of_isNumber hnumber hlt]
  have hminus : suffixToInt (front ++ [letter]) = some (-1) ↔
      CutToMinusOne (numberRead (front ++ [letter])) := by
    rw [suffixToInt_of_digit h, Option.some.injEq, atoi_eq_neg_one_iff]
  by_cases hfits : IsNumber (front ++ [letter]) ∧ digitsValue (front ++ [letter]) < 2 ^ 31
  · refine iff_of_true ⟨fun v hv _ => ?_, fun hlarge => ?_⟩ (Or.inl hfits)
    · rw [((sizeText_iff_of_digit h).mp hv).2]
      exact hatoi hfits.1 hfits.2
    · have := hlarge _ (.number hfits.1)
      omega
  · -- no size, or too large for an int
    have hlarge : ∀ v, SizeText (front ++ [letter]) v → 2 ^ 31 ≤ v := by
      intro v hv
      obtain ⟨hnumber, rfl⟩ := (sizeText_iff_of_digit h).mp hv
      exact not_lt.mp fun hlt => hfits ⟨hnumber, hlt⟩
    rw [or_iff_right hfits, ← hminus]
    exact ⟨fun hread => hread.refused hlarge,
      fun hcut => ⟨fun v hv hlt => absurd (hlarge v hv) (not_le.mpr hlt), fun _ => hcut⟩⟩

theorem readExactly_iff_of_letter {factor : Nat} (hlen : front.length < 64)
    (hletter : letterFactor letter = some factor) :
    ReadExactly (front ++ [letter]) ↔ IsNumber front ∧ digitsValue front * factor < 2 ^ 31 := by
  have hdigit := not_isDigit_of_letterFactor hletter
  have hvalue := suffixToInt_of_not_digit hlen hdigit
  rw [hletter] at hvalue
  dsimp only at hvalue
  by_cases hfits : IsNumber front ∧ digitsValue front * factor < 2 ^ 31
  · obtain ⟨hnumber, hlt⟩ := hfits
    have hle : digitsValue front ≤ digitsValue front * factor :=
      Nat.le_mul_of_pos_right _ (letterFactor_pos hletter)
    have hatoi := atoi_of_isNumber hnumber (by omega)
    refine iff_of_true ⟨fun v hv _ => ?_, fun hlarge => ?_⟩ ⟨hnumber, hlt⟩
    · obtain ⟨f, hf, -, rfl⟩ := (sizeText_iff_of_not_digit hdigit).mp hv
      obtain rfl : factor = f := Option.some.inj (hletter.symm.trans hf)
      rw [hvalue, hatoi, ← Int.natCast_mul, Int.bmod_eq_of_le_mul_two (by omega) (by omega)]
    · have := hlarge _ (.suffixed hnumber hletter)
      omega
  · refine iff_of_false (fun hread => ?_) hfits
    have hlarge : ∀ v, SizeText (front ++ [letter]) v → 2 ^ 31 ≤ v := by
      intro v hv
      obtain ⟨f, hf, hnumber, rfl⟩ := (sizeText_iff_of_not_digit hdigit).mp hv
      obtain rfl : factor = f := Option.some.inj (hletter.symm.trans hf)
      exact not_lt.mp fun hlt => hfits ⟨hnumber, hlt⟩
    have hrefused := hread.refused hlarge
    rw [hvalue] at hrefused
    exact bmod_mul_letterFactor_ne hletter _ (Option.some.inj hrefused)

theorem readExactly_of_other (hlen : front.length < 64) (hdigit : isDigit letter = false)
    (hletter : letterFactor letter = none) : ReadExactly (front ++ [letter]) := by
  have hvalue := suffixToInt_of_not_digit hlen hdigit
  rw [hletter] at hvalue
  refine ⟨fun v hv _ => ?_, fun _ => hvalue⟩
  obtain ⟨factor, hfactor, -⟩ := (sizeText_iff_of_not_digit hdigit).mp hv
  rw [hletter] at hfactor
  cases hfactor

/-! ### What is printed is read back -/

theorem isNumber_decimalText (n : Nat) :
    IsNumber (decimalText n) ∧ digitsValue (decimalText n) = n := by
  have hdigits := digits_toDigits n
  rw [decimalText_eq]
  refine ⟨⟨?_, isDigit_charBytes hdigits⟩, ?_⟩
  · rw [charBytes, ne_eq, List.map_eq_nil_iff]
    exact Nat.toDigits_ne_nil
  · rw [digitsValue_charBytes hdigits, Nat.ofDigitChars_ten_toDigits]

theorem length_decimalText {n : Nat} (h : n < 10 ^ 10) : (decimalText n).length ≤ 10 := by
  rw [decimalText_eq, charBytes, List.length_map]
  exact (Nat.length_toDigits_le_iff (by decide) (by decide)).mpr h

/-- A size that is an int is read back from its text. -/
theorem suffixToInt_decimalText {n factor : Nat} (hletter : letterFactor letter = some factor)
    (h : n * factor < 2 ^ 31) :
    suffixToInt (decimalText n ++ [letter]) = some ((n * factor : Nat) : Int) := by
  obtain ⟨hnumber, hvalue⟩ := isNumber_decimalText n
  have hle : n ≤ n * factor := Nat.le_mul_of_pos_right _ (letterFactor_pos hletter)
  have hlen := length_decimalText (n := n) (by omega)
  have hsize : SizeText (decimalText n ++ [letter]) (n * factor) := by
    have hsuffixed := SizeText.suffixed hnumber hletter
    rwa [hvalue] at hsuffixed
  have hread : ReadExactly (decimalText n ++ [letter]) :=
    (readExactly_iff_of_letter (by omega) hletter).mpr ⟨hnumber, hvalue.symm ▸ h⟩
  exact hread.exact _ hsize h

end Suffix

/-- **`SuffixToInt` accepts its grammar and is exact on these strings, and on no others.** -/
theorem suffix_to_int_iff {str_number : List UInt8} (hne : str_number ≠ [])
    (hlen : str_number.length ≤ 64) : ReadExactly str_number ↔ SuffixReads str_number := by
  obtain ⟨front, letter, rfl⟩ : ∃ front letter, str_number = front ++ [letter] :=
    ⟨_, _, (List.dropLast_append_getLast hne).symm⟩
  have hfront : front.length < 64 := by
    rw [List.length_append, List.length_singleton] at hlen
    omega
  unfold SuffixReads
  simp only [List.getLast?_concat, List.dropLast_concat]
  split
  · next hdigit => exact readExactly_iff_of_digit hdigit
  next hdigit =>
  rw [Bool.not_eq_true] at hdigit
  by_cases hkilo : letter = 75 ∨ letter = 107
  · rw [if_pos hkilo, readExactly_iff_of_letter hfront
      (letterFactor_eq_some_iff.mpr (Or.inl ⟨hkilo, rfl⟩))]
    refine and_congr_right fun _ => ?_
    omega
  rw [if_neg hkilo]
  by_cases hmega : letter = 77 ∨ letter = 109
  · rw [if_pos hmega, readExactly_iff_of_letter hfront
      (letterFactor_eq_some_iff.mpr (Or.inr ⟨hmega, rfl⟩))]
    refine and_congr_right fun _ => ?_
    omega
  · rw [if_neg hmega]
    exact iff_of_true (readExactly_of_other hfront hdigit
      (by rw [letterFactor, if_neg hkilo, if_neg hmega])) trivial

/-- `-c 5M` -/
theorem suffix_to_int_sample : suffixToInt [53, 77] = some 5242880 ∧ ReadExactly [53, 77] := by
  have hfive : IsNumber [53] ∧ digitsValue [53] < 2 ^ 11 := by decide +kernel
  exact ⟨by decide +kernel, (suffix_to_int_iff (by decide) (by decide)).mpr hfive⟩

/-- `1x5` is read as 1, `k` as 0, `4194304k` as 0 and `2147483648` as the least int. -/
theorem suffix_to_int_fails :
    (suffixToInt [49, 120, 53] = some 1 ∧ ¬ ReadExactly [49, 120, 53]) ∧
    (suffixToInt [107] = some 0 ∧ ¬ ReadExactly [107]) ∧
    (suffixToInt [52, 49, 57, 52, 51, 48, 52, 107] = some 0 ∧
      ¬ ReadExactly [52, 49, 57, 52, 51, 48, 52, 107]) ∧
    (suffixToInt [50, 49, 52, 55, 52, 56, 51, 54, 52, 56] = some (-2147483648) ∧
      ¬ ReadExactly [50, 49, 52, 55, 52, 56, 51, 54, 52, 56]) := by
  refine ⟨⟨by decide +kernel, ?_⟩, ⟨by decide +kernel, ?_⟩, ⟨by decide +kernel, ?_⟩,
    ⟨by decide +kernel, ?_⟩⟩
  · change ¬ ReadExactly ([49, 120] ++ [53])
    rw [readExactly_iff_of_digit (by decide)]
    decide +kernel
  · change ¬ ReadExactly ([] ++ [107])
    rw [readExactly_iff_of_letter (by decide) rfl]
    decide
  · change ¬ ReadExactly ([52, 49, 57, 52, 51, 48, 52] ++ [107])
    rw [readExactly_iff_of_letter (by decide) rfl]
    decide +kernel
  · change ¬ ReadExactly ([50, 49, 52, 55, 52, 56, 51, 54, 52] ++ [56])
    rw [readExactly_iff_of_digit (by decide)]
    decide +kernel

end Mhftp
