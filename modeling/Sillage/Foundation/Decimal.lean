import Mathlib.Algebra.Group.Nat.Defs
import Mathlib.Data.List.Basic

/-!
# Zero-padded decimal numerals

A numeral is printed with at least a given width and parsed back with a checked
upper bound. The parser tolerates a leading plus and any number of leading
zeros, as an integer parser of a systems language does; it refuses the empty
numeral, every other character and every value at or above the bound.

Parsing inverts printing at every width. Printed numerals contain digits only,
which is what lets them be joined by any separator that is not a digit.
-/

namespace Sillage.Decimal

/-- Decimal digits of a number, padded on the left with zeros up to the width. -/
def padded (width n : Nat) : List Char :=
  List.replicate (width - (Nat.toDigits 10 n).length) '0' ++ Nat.toDigits 10 n

/-- Checked parse below an exclusive bound. One leading plus is dropped; the
rest must be a nonempty run of ASCII digits. -/
def parseBelow (bound : Nat) (text : List Char) : Option Nat :=
  let digits := match text with
    | '+' :: rest => rest
    | other => other
  if digits ≠ [] ∧ digits.all Char.isDigit ∧ Nat.ofDigitChars 10 digits 0 < bound then
    some (Nat.ofDigitChars 10 digits 0)
  else none

/-- Every printed character is a digit, the padding included. -/
theorem padded_digits (width n : Nat) (symbol : Char) (printed : symbol ∈ padded width n) :
    symbol.isDigit = true := by
  rcases List.mem_append.mp printed with padding | digit
  · rw [List.eq_of_mem_replicate padding]
    decide
  · exact Nat.isDigit_of_mem_toDigits (by decide) (by decide) digit

/-- A character that is no digit does not occur in a printed numeral. -/
theorem not_mem_padded (width n : Nat) (symbol : Char) (separator : symbol.isDigit = false) :
    symbol ∉ padded width n := by
  intro printed
  simp [padded_digits width n symbol printed] at separator

/-- Printing never yields the empty numeral. -/
theorem padded_ne_nil (width n : Nat) : padded width n ≠ [] := by
  simp [padded, Nat.toDigits_ne_nil]

/-- Leading zeros do not change the value that is read back. -/
theorem padded_value (width n : Nat) : Nat.ofDigitChars 10 (padded width n) 0 = n := by
  simp [padded, Nat.ofDigitChars_append]

/-- A numeral that starts with a plus was not printed here. -/
theorem padded_head (width n : Nat) (rest : List Char) : padded width n ≠ '+' :: rest := by
  intro signed
  have plus : '+' ∈ padded width n := signed ▸ List.mem_cons_self
  exact not_mem_padded width n '+' (by decide) plus

/-- A printed numeral is parsed as its number if that lies below the bound. -/
theorem parse_padded_iff (bound width n : Nat) :
    parseBelow bound (padded width n) = if n < bound then some n else none := by
  have unsigned : (match padded width n with
      | '+' :: rest => rest
      | other => other) = padded width n := by
    split
    · next rest signed => exact absurd signed (padded_head width n rest)
    · rfl
  have digits : (padded width n).all Char.isDigit = true :=
    List.all_eq_true.mpr (fun symbol => padded_digits width n symbol)
  simp only [parseBelow, unsigned, padded_value, ne_eq, padded_ne_nil, not_false_eq_true, digits,
    true_and]

/-- Parsing inverts printing at every width, for every number below the bound. -/
theorem parse_padded (bound width n : Nat) (fits : n < bound) :
    parseBelow bound (padded width n) = some n := by
  rw [parse_padded_iff, if_pos fits]

/-- A parsed number lies below the bound. -/
theorem parseBelow_lt {bound value : Nat} {text : List Char}
    (parsed : parseBelow bound text = some value) : value < bound := by
  have below : ∀ digits : List Char,
      (if digits ≠ [] ∧ digits.all Char.isDigit ∧ Nat.ofDigitChars 10 digits 0 < bound then
        some (Nat.ofDigitChars 10 digits 0) else none) = some value → value < bound := by
    intro digits read
    split at read
    · next valid => exact Option.some.inj read ▸ valid.2.2
    · cases read
  exact below _ parsed

/-- Printing is injective: the value can be read back from the characters. -/
theorem padded_injective (width m n : Nat) (same : padded width m = padded width n) : m = n := by
  rw [← padded_value width m, same, padded_value]

/-- A run of digits that the printer writes at a width: at least as long as the width, and
without a leading zero when longer. -/
def Canonical (width : Nat) (text : List Char) : Prop :=
  text.all Char.isDigit = true ∧ width ≤ text.length ∧
    (text.length = width ∨ text.head? ≠ some '0')

/-- The digit that a character stands for. -/
theorem digit_lt {symbol : Char} (isDigit : symbol.isDigit = true) :
    symbol.toNat - '0'.toNat < 10 ∧ '0'.toNat ≤ symbol.toNat := by
  simp only [Char.isDigit, Bool.and_eq_true, decide_eq_true_eq] at isDigit
  obtain ⟨lower, upper⟩ := isDigit
  have lower : (48 : Nat) ≤ symbol.toNat := lower
  have upper : symbol.toNat ≤ (57 : Nat) := upper
  have zero : '0'.toNat = 48 := rfl
  omega

/-- The value of a run of digits is below the power of its length. -/
theorem value_lt {text : List Char} (digits : text.all Char.isDigit = true) :
    Nat.ofDigitChars 10 text 0 < 10 ^ text.length := by
  induction text with
  | nil => decide
  | cons symbol rest inductionHypothesis =>
    rw [List.all_cons, Bool.and_eq_true] at digits
    have later := inductionHypothesis digits.2
    have first := (digit_lt digits.1).1
    rw [Nat.ofDigitChars_cons, Nat.ofDigitChars_eq_ofDigitChars_zero, List.length_cons, Nat.pow_succ,
      Nat.mul_zero, Nat.zero_add]
    have scaled := Nat.mul_le_mul_left (10 ^ rest.length) (Nat.le_of_lt_succ first)
    omega

/-- Two runs of digits of one length with one value are the same. -/
theorem value_injective {first second : List Char} (digits : first.all Char.isDigit = true)
    (digits' : second.all Char.isDigit = true) (sameLength : first.length = second.length)
    (sameValue : Nat.ofDigitChars 10 first 0 = Nat.ofDigitChars 10 second 0) :
    first = second := by
  induction first generalizing second with
  | nil => exact (List.length_eq_zero_iff.mp sameLength.symm).symm
  | cons symbol rest inductionHypothesis =>
    cases second with
    | nil => cases sameLength
    | cons symbol' rest' =>
      rw [List.all_cons, Bool.and_eq_true] at digits digits'
      have lengths : rest.length = rest'.length := Nat.succ.inj sameLength
      have bound := value_lt digits.2
      have bound' := value_lt digits'.2
      have digit := digit_lt digits.1
      have digit' := digit_lt digits'.1
      rw [Nat.ofDigitChars_cons, Nat.ofDigitChars_cons, Nat.ofDigitChars_eq_ofDigitChars_zero,
        @Nat.ofDigitChars_eq_ofDigitChars_zero rest', ← lengths, Nat.mul_zero, Nat.zero_add,
        Nat.zero_add] at sameValue
      rw [← lengths] at bound'
      have positive : 0 < 10 ^ rest.length := Nat.pow_pos (by decide)
      have quotients := congrArg (· / 10 ^ rest.length) sameValue
      simp only [Nat.mul_add_div positive, Nat.div_eq_of_lt bound, Nat.div_eq_of_lt bound',
        Nat.add_zero] at quotients
      have symbols : symbol = symbol' := Char.toNat_inj.mp (by omega)
      rw [quotients] at sameValue
      rw [symbols, inductionHypothesis digits.2 digits'.2 lengths (Nat.add_left_cancel sameValue)]

/-- Padding fills a numeral up to the width, and leaves a longer one as it is. -/
theorem padded_length (width n : Nat) :
    (padded width n).length = max width (Nat.toDigits 10 n).length := by
  simp only [padded, List.length_append, List.length_replicate]
  omega

/-- A run of digits without a leading zero needs its length to be printed. -/
theorem length_toDigits_value {text : List Char} (digits : text.all Char.isDigit = true)
    (nonempty : text ≠ []) (leading : text.head? ≠ some '0') :
    (Nat.toDigits 10 (Nat.ofDigitChars 10 text 0)).length = text.length := by
  cases text with
  | nil => exact absurd rfl nonempty
  | cons symbol rest =>
    have upper : (Nat.toDigits 10 (Nat.ofDigitChars 10 (symbol :: rest) 0)).length ≤
        (symbol :: rest).length :=
      (Nat.length_toDigits_le_iff (by decide) (by simp)).mpr (value_lt digits)
    have digit : symbol.isDigit = true := List.all_eq_true.mp digits symbol List.mem_cons_self
    have positive : 1 ≤ symbol.toNat - '0'.toNat := by
      have bounds := digit_lt digit
      have other : symbol.toNat ≠ '0'.toNat := fun same =>
        leading (congrArg some (Char.toNat_inj.mp same))
      omega
    have lower : 10 ^ rest.length ≤ Nat.ofDigitChars 10 (symbol :: rest) 0 := by
      rw [Nat.ofDigitChars_cons, Nat.ofDigitChars_eq_ofDigitChars_zero, Nat.mul_zero, Nat.zero_add]
      have scaled := Nat.mul_le_mul_left (10 ^ rest.length) positive
      omega
    by_contra different
    have short : (Nat.toDigits 10 (Nat.ofDigitChars 10 (symbol :: rest) 0)).length ≤
        rest.length := by
      rw [List.length_cons] at upper different
      omega
    cases rest with
    | nil => exact absurd short (Nat.not_le_of_lt Nat.length_toDigits_pos)
    | cons next later =>
      have below := (Nat.length_toDigits_le_iff (by decide) (by simp)).mp short
      omega

/-- What the printer writes at a width is what is canonical at it. -/
theorem canonical_iff {width : Nat} (positive : 0 < width) {text : List Char} :
    Canonical width text ↔ text = padded width (Nat.ofDigitChars 10 text 0) := by
  constructor
  · rintro ⟨digits, long, shape⟩
    have printed : (padded width (Nat.ofDigitChars 10 text 0)).all Char.isDigit = true :=
      List.all_eq_true.mpr (padded_digits _ _)
    refine value_injective digits printed ?_ (padded_value _ _).symm
    rw [padded_length]
    rcases shape with exactly | leading
    · have needed := (Nat.length_toDigits_le_iff (by decide) positive).mpr
        (exactly ▸ value_lt digits)
      omega
    · have nonempty : text ≠ [] := List.ne_nil_of_length_pos (Nat.lt_of_lt_of_le positive long)
      rw [length_toDigits_value digits nonempty leading]
      omega
  · generalize Nat.ofDigitChars 10 text 0 = n
    rintro rfl
    refine ⟨List.all_eq_true.mpr (padded_digits _ _), ?_, ?_⟩
    · rw [padded_length]
      exact Nat.le_max_left _ _
    · by_cases fits : (Nat.toDigits 10 n).length ≤ width
      · exact .inl (by rw [padded_length, Nat.max_eq_left fits])
      · refine .inr (fun zero => ?_)
        have bare : padded width n = Nat.toDigits 10 n := by
          rw [padded, Nat.sub_eq_zero_of_le (Nat.le_of_not_le fits)]
          rfl
        have value := @Nat.ofDigitChars_ten_toDigits n
        rw [bare] at zero
        cases listed : Nat.toDigits 10 n with
        | nil => exact Nat.toDigits_ne_nil listed
        | cons symbol rest =>
          rw [listed] at zero value fits
          obtain rfl := Option.some.inj zero
          have digits : rest.all Char.isDigit = true := List.all_eq_true.mpr (fun other member =>
            Nat.isDigit_of_mem_toDigits (by decide) (by decide)
              (listed ▸ List.mem_cons_of_mem _ member))
          have small : n < 10 ^ rest.length := by
            have below := value_lt digits
            rw [Nat.ofDigitChars_cons] at value
            exact value ▸ below
          have longer : 0 < rest.length := by
            rw [List.length_cons] at fits
            omega
          have short := (Nat.length_toDigits_le_iff (by decide) longer).mpr small
          rw [listed, List.length_cons] at short
          omega

/-- The parser reads more spellings than the printer writes. -/
example : parseBelow 100 ['+', '0', '7'] = some 7 := by decide

end Sillage.Decimal
