import Kahuna.Numerals.Decimal
import Mathlib.Algebra.Order.Field.Power
import Mathlib.Data.Nat.Bitwise
import Mathlib.Data.Nat.Cast.Field

/-!
# Fixed-point numbers as texts

The model of `fixed_point.rs`. A number is divided by a power of two, and the digits of the quotient are
computed one after the other. There are as many digits behind the point as the power has factors, or fewer.

* `mul_value_fractionalDigits`: the digits behind the point are exact;
* `fixed_denotesExactly`: the texts denote the quotients.
-/

namespace Translation

open Numerals

/-- The digits behind the point, from what is left behind it. There are at most `n` more. -/
def fractionalDigits (lgScalingFactor : ℕ) : ℕ → ℕ → List Char
  | 0, _ => []
  | n + 1, remainder =>
    let mask := 1 <<< lgScalingFactor - 1
    let digit := (remainder * 10) >>> lgScalingFactor
    let rest := (remainder * 10) &&& mask
    Nat.toDigits 10 digit ++ if rest = 0 then [] else fractionalDigits lgScalingFactor n rest

/-- `big_uint_to_ufixed`. The factor is a 64-bit integer that can be negated. -/
def bigUintToUfixed (uint : ℕ) (lgScalingFactor : ℤ) : List Char :=
  if lgScalingFactor < 0 then Nat.toDigits 10 (uint <<< (-lgScalingFactor).toNat)
  else if lgScalingFactor = 0 then Nat.toDigits 10 uint
  else
    let lg := lgScalingFactor.toNat
    let mask := 1 <<< lg - 1
    let integerPart := uint >>> lg
    let remainder := uint &&& mask
    if remainder = 0 then Nat.toDigits 10 integerPart
    else Nat.toDigits 10 integerPart ++ '.' :: fractionalDigits lg lg remainder

/-- `big_uint_to_sfixed`. -/
def bigUintToSfixed (uint numBits : ℕ) (lgScalingFactor : ℤ) : List Char :=
  if numBits = 0 then []
  else if uint.testBit (numBits - 1) then
    '-' :: bigUintToUfixed (1 <<< numBits - uint) lgScalingFactor
  else bigUintToUfixed uint lgScalingFactor

theorem and_mask (n lg : ℕ) : n &&& (1 <<< lg - 1) = n % 2 ^ lg := by
  rw [Nat.one_shiftLeft, Nat.and_two_pow_sub_one_eq_mod]

theorem fractionalDigits_succ (lg n remainder : ℕ) :
    fractionalDigits lg (n + 1) remainder =
      Nat.toDigits 10 (remainder * 10 / 2 ^ lg) ++
        if remainder * 10 % 2 ^ lg = 0 then [] else fractionalDigits lg n (remainder * 10 % 2 ^ lg) := by
  simp only [fractionalDigits, and_mask, Nat.shiftRight_eq_div_pow]

/-- The digits behind the point. -/
structure Fraction (lg remainder : ℕ) (digits : List Char) : Prop where
  isNumeral : IsNumeral 10 digits
  ne : digits ≠ []
  last_ne : digits.getLast? ≠ some '0'
  /-- The digits denote the quotient. -/
  mul_value : value 10 digits * 2 ^ lg = remainder * 10 ^ digits.length

section

variable {lg remainder : ℕ}

/-- The next digit. -/
theorem digit_lt (hlt : remainder < 2 ^ lg) : remainder * 10 / 2 ^ lg < 10 := by
  rw [Nat.div_lt_iff_lt_mul (Nat.two_pow_pos _)]
  omega

theorem value_digit (hlt : remainder < 2 ^ lg) :
    value 10 [(remainder * 10 / 2 ^ lg).digitChar] = remainder * 10 / 2 ^ lg := by
  rw [value_cons, digit?_digitChar (by omega) (digit_lt hlt)]
  simp

theorem isNumeral_digit (hlt : remainder < 2 ^ lg) :
    IsNumeral 10 [(remainder * 10 / 2 ^ lg).digitChar] := by
  simp [IsNumeral, digit?_digitChar (b := 10) (by omega) (digit_lt hlt)]

/-- The last digit is no zero, since something was left. -/
theorem Fraction.single (hpos : 0 < remainder) (hlt : remainder < 2 ^ lg)
    (hrest : remainder * 10 % 2 ^ lg = 0) :
    Fraction lg remainder [(remainder * 10 / 2 ^ lg).digitChar] := by
  have hdivmod := Nat.div_add_mod (remainder * 10) (2 ^ lg)
  rw [hrest, Nat.add_zero] at hdivmod
  refine ⟨isNumeral_digit hlt, by simp, fun hlast => ?_, ?_⟩
  · -- a zero would mean that nothing was left
    have hchar : (remainder * 10 / 2 ^ lg).digitChar = '0' := by simpa using hlast
    have hdigit := digit?_digitChar (b := 10) (by omega) (digit_lt hlt)
    rw [hchar] at hdigit
    have hzero : 0 = remainder * 10 / 2 ^ lg := Option.some.inj hdigit
    rw [← hzero, Nat.mul_zero] at hdivmod
    omega
  · rw [value_digit hlt, List.length_singleton, pow_one, Nat.mul_comm, hdivmod]

/-- One digit in front of those of the rest. -/
theorem Fraction.cons (hlt : remainder < 2 ^ lg) {digits : List Char}
    (h : Fraction lg (remainder * 10 % 2 ^ lg) digits) :
    Fraction lg remainder ((remainder * 10 / 2 ^ lg).digitChar :: digits) := by
  have hdivmod := Nat.div_add_mod (remainder * 10) (2 ^ lg)
  rw [← List.singleton_append]
  refine ⟨isNumeral_append.2 ⟨isNumeral_digit hlt, h.isNumeral⟩, by simp, ?_, ?_⟩
  · rw [List.getLast?_append_of_ne_nil _ h.ne]
    exact h.last_ne
  · rw [value_append, value_digit hlt, Nat.add_mul, h.mul_value, List.length_append,
      List.length_singleton]
    calc remainder * 10 / 2 ^ lg * 10 ^ digits.length * 2 ^ lg +
          remainder * 10 % 2 ^ lg * 10 ^ digits.length
        = (2 ^ lg * (remainder * 10 / 2 ^ lg) + remainder * 10 % 2 ^ lg) * 10 ^ digits.length := by ring
      _ = remainder * 10 * 10 ^ digits.length := by rw [hdivmod]
      _ = remainder * 10 ^ (1 + digits.length) := by ring

/-- A number of digits that was enough is enough for the rest but one. -/
theorem dvd_rest {n : ℕ} (h : 2 ^ lg ∣ remainder * 10 ^ (n + 1)) :
    2 ^ lg ∣ remainder * 10 % 2 ^ lg * 10 ^ n := by
  have hsum : remainder * 10 ^ (n + 1) =
      2 ^ lg * (remainder * 10 / 2 ^ lg * 10 ^ n) + remainder * 10 % 2 ^ lg * 10 ^ n :=
    calc remainder * 10 ^ (n + 1)
        = remainder * 10 * 10 ^ n := by ring
      _ = (2 ^ lg * (remainder * 10 / 2 ^ lg) + remainder * 10 % 2 ^ lg) * 10 ^ n := by
        rw [Nat.div_add_mod]
      _ = 2 ^ lg * (remainder * 10 / 2 ^ lg * 10 ^ n) + remainder * 10 % 2 ^ lg * 10 ^ n := by ring
  rw [hsum] at h
  exact (Nat.dvd_add_right (Nat.dvd_mul_right _ _)).1 h

/-- The digits are exact if there are enough of them. -/
theorem fraction_fractionalDigits {n : ℕ} (hpos : 0 < remainder) (hlt : remainder < 2 ^ lg)
    (henough : 2 ^ lg ∣ remainder * 10 ^ n) :
    Fraction lg remainder (fractionalDigits lg n remainder) := by
  induction n generalizing remainder with
  | zero =>
    rw [pow_zero, mul_one] at henough
    exact (Nat.not_le.2 hlt (Nat.le_of_dvd hpos henough)).elim
  | succ n ih =>
    rw [fractionalDigits_succ, Nat.toDigits_of_lt_base (digit_lt hlt)]
    by_cases hrest : remainder * 10 % 2 ^ lg = 0
    · rw [if_pos hrest]
      exact .single hpos hlt hrest
    · rw [if_neg hrest]
      exact .cons hlt (ih (Nat.pos_of_ne_zero hrest) (Nat.mod_lt _ (Nat.two_pow_pos _)) (dvd_rest henough))

end

/-- A number in two's complement. -/
def twosComplement (numBits v : ℕ) : ℤ := if v < 2 ^ (numBits - 1) then v else v - 2 ^ numBits

/-- A text that denotes a number, without a sign. -/
def DenotesUnsigned (text : List Char) (q : ℚ) : Prop :=
  ∃ d : DecimalText, d.negative = false ∧ d.text = text ∧ d.number = q ∧ d.Shortest

theorem denotesUnsigned_toDigits (n : ℕ) : DenotesUnsigned (Nat.toDigits 10 n) n := by
  refine ⟨{ negative := false, integer := Nat.toDigits 10 n, fraction := [] }, rfl, ?_, ?_, ?_⟩
  · simp [DecimalText.text]
  · simp [DecimalText.number, value_toDigits]
  · exact ⟨isNumeral_toDigits n, Nat.toDigits_ne_nil, isNumeral_nil, by simp⟩

/-- The digits before the point, and those behind it. -/
theorem denotesUnsigned_point (uint : ℕ) {lg : ℕ} (hrest : uint % 2 ^ lg ≠ 0) :
    DenotesUnsigned (Nat.toDigits 10 (uint / 2 ^ lg) ++ '.' :: fractionalDigits lg lg (uint % 2 ^ lg))
      (uint / 2 ^ lg) := by
  have hten : (10 : ℕ) ^ lg = 2 ^ lg * 5 ^ lg := by rw [← Nat.mul_pow]
  have henough : 2 ^ lg ∣ uint % 2 ^ lg * 10 ^ lg := by
    rw [hten]
    exact Dvd.dvd.mul_left (Nat.dvd_mul_right _ _) _
  have hfraction := fraction_fractionalDigits (Nat.pos_of_ne_zero hrest)
    (Nat.mod_lt _ (Nat.two_pow_pos lg)) henough
  -- from here on only what the digits denote matters
  generalize fractionalDigits lg lg (uint % 2 ^ lg) = digits at hfraction
  refine ⟨{ negative := false, integer := Nat.toDigits 10 (uint / 2 ^ lg), fraction := digits },
    rfl, ?_, ?_, ?_⟩
  · simp [DecimalText.text, hfraction.ne]
  · have hvalue : (value 10 digits : ℚ) * 2 ^ lg = (uint % 2 ^ lg : ℕ) * 10 ^ digits.length := by
      exact_mod_cast hfraction.mul_value
    have hsum : (uint : ℚ) = 2 ^ lg * (uint / 2 ^ lg : ℕ) + (uint % 2 ^ lg : ℕ) := by
      exact_mod_cast (Nat.div_add_mod uint (2 ^ lg)).symm
    have hplaces : (value 10 digits : ℚ) / 10 ^ digits.length = (uint % 2 ^ lg : ℕ) / 2 ^ lg := by
      rw [div_eq_div_iff (by positivity) (by positivity), hvalue]
    simp only [DecimalText.number, decimal, value_toDigits (b := 10) (by omega) (by omega), hplaces,
      Bool.false_eq_true, if_false]
    rw [hsum, eq_div_iff (by positivity)]
    field_simp
  · exact ⟨isNumeral_toDigits _, Nat.toDigits_ne_nil, hfraction.isNumeral, hfraction.last_ne⟩

/-- The text of a number divided by a power of two. -/
theorem denotesUnsigned_bigUintToUfixed (uint : ℕ) (lgScalingFactor : ℤ) :
    DenotesUnsigned (bigUintToUfixed uint lgScalingFactor) (uint / (2 : ℚ) ^ lgScalingFactor) := by
  rcases lt_trichotomy lgScalingFactor 0 with hneg | hzero | hpos
  · obtain ⟨n, rfl⟩ : ∃ n : ℕ, lgScalingFactor = -n := ⟨(-lgScalingFactor).toNat, by omega⟩
    have hscaled : (uint : ℚ) / 2 ^ (-(n : ℤ)) = (uint <<< n : ℕ) := by
      rw [zpow_neg, zpow_natCast, div_inv_eq_mul, Nat.shiftLeft_eq]
      push_cast
      rfl
    rw [bigUintToUfixed, if_pos hneg, hscaled, neg_neg, Int.toNat_natCast]
    exact denotesUnsigned_toDigits _
  · subst hzero
    rw [zpow_zero, div_one]
    exact denotesUnsigned_toDigits uint
  · obtain ⟨lg, rfl⟩ : ∃ lg : ℕ, lgScalingFactor = lg := ⟨lgScalingFactor.toNat, by omega⟩
    have hdef : bigUintToUfixed uint lg =
        if uint % 2 ^ lg = 0 then Nat.toDigits 10 (uint / 2 ^ lg)
        else Nat.toDigits 10 (uint / 2 ^ lg) ++ '.' :: fractionalDigits lg lg (uint % 2 ^ lg) := by
      rw [bigUintToUfixed, if_neg (by omega), if_neg (by omega)]
      simp only [Int.toNat_natCast, and_mask, Nat.shiftRight_eq_div_pow]
    rw [hdef, zpow_natCast]
    split
    next hwhole =>
      have hquotient : (uint : ℚ) / 2 ^ lg = (uint / 2 ^ lg : ℕ) := by
        rw [Nat.cast_div (Nat.dvd_of_mod_eq_zero hwhole) (by positivity)]
        push_cast
        rfl
      rw [hquotient]
      exact denotesUnsigned_toDigits _
    next hrest => exact denotesUnsigned_point uint hrest

/-- A number that is not negative is denoted without a sign. -/
theorem DenotesUnsigned.denotesExactly {text : List Char} {q : ℚ} (h : DenotesUnsigned text q)
    (hq : 0 ≤ q) : DenotesExactly text q := by
  obtain ⟨d, hsign, htext, hnumber, hshortest⟩ := h
  exact ⟨d, htext, hnumber, hshortest, by simp [hsign, hq]⟩

/-- A minus sign in front makes the number negative. -/
theorem DenotesUnsigned.neg {text : List Char} {q : ℚ} (h : DenotesUnsigned text q) (hq : 0 < q) :
    DenotesExactly ('-' :: text) (-q) := by
  obtain ⟨d, hsign, rfl, rfl, hshortest⟩ := h
  refine ⟨{ d with negative := true }, ?_, ?_, ⟨hshortest.integer_digits, hshortest.integer_ne,
    hshortest.fraction_digits, hshortest.last_ne⟩, ?_⟩
  · simp [DecimalText.text, hsign]
  · simp [DecimalText.number, hsign]
  · simpa using hq

theorem bigUintToSfixed_eq {numBits v : ℕ} (hbits : 0 < numBits) (hv : v < 2 ^ numBits)
    (lgScalingFactor : ℤ) :
    bigUintToSfixed v numBits lgScalingFactor =
      if v < 2 ^ (numBits - 1) then bigUintToUfixed v lgScalingFactor
      else '-' :: bigUintToUfixed (2 ^ numBits - v) lgScalingFactor := by
  have hdouble : 2 ^ (numBits - 1 + 1) = 2 ^ numBits := by rw [Nat.sub_add_cancel hbits]
  rw [bigUintToSfixed, if_neg hbits.ne', Nat.one_shiftLeft]
  by_cases hsign : v < 2 ^ (numBits - 1)
  · rw [Nat.testBit_lt_two_pow hsign, if_neg Bool.false_ne_true, if_pos hsign]
  · have hbit : v.testBit (numBits - 1) = true :=
      Nat.testBit_of_two_pow_le_and_two_pow_add_one_gt (by omega) (by omega)
    rw [if_pos hbit, if_neg hsign]

/-- Without bits there is no signed text, by design. -/
theorem bigUintToSfixed_zero (v : ℕ) (lgScalingFactor : ℤ) :
    bigUintToSfixed v 0 lgScalingFactor = [] := rfl

/-- The unsigned text denotes the number divided by the power of two. So does the signed text for the number
in two's complement, where there is at least one bit, and without bits it is empty. -/
theorem fixed_denotesExactly (numBits v : ℕ) (lgScalingFactor : ℤ) (hv : v < 2 ^ numBits) :
    DenotesExactly (bigUintToUfixed v lgScalingFactor) (v / (2 : ℚ) ^ lgScalingFactor) ∧
      (0 < numBits → DenotesExactly (bigUintToSfixed v numBits lgScalingFactor)
        (twosComplement numBits v / (2 : ℚ) ^ lgScalingFactor)) ∧
      (numBits = 0 → bigUintToSfixed v numBits lgScalingFactor = []) := by
  have hpower : (0 : ℚ) < 2 ^ lgScalingFactor := zpow_pos two_pos _
  refine ⟨(denotesUnsigned_bigUintToUfixed v _).denotesExactly (by positivity), fun hbits => ?_, ?_⟩
  · rw [bigUintToSfixed_eq hbits hv, twosComplement]
    split
    next => exact (denotesUnsigned_bigUintToUfixed v _).denotesExactly (by positivity)
    next hsign =>
      have hpos : (0 : ℚ) < (2 ^ numBits - v : ℕ) := by exact_mod_cast Nat.sub_pos_of_lt hv
      have hneg : (((v : ℤ) - 2 ^ numBits : ℤ) : ℚ) = -((2 ^ numBits - v : ℕ) : ℚ) := by
        rw [Nat.cast_sub hv.le]
        push_cast
        ring
      rw [hneg, neg_div]
      exact (denotesUnsigned_bigUintToUfixed _ _).neg (div_pos hpos hpower)
  · rintro rfl
    exact bigUintToSfixed_zero v lgScalingFactor

theorem fixed_denotesExactly_three :
    DenotesExactly (bigUintToUfixed 5 1) (((5 : ℕ) : ℚ) / (2 : ℚ) ^ (1 : ℤ)) ∧
      (0 < 3 → DenotesExactly (bigUintToSfixed 5 3 1) (twosComplement 3 5 / (2 : ℚ) ^ (1 : ℤ))) ∧
      (3 = 0 → bigUintToSfixed 5 3 1 = []) :=
  fixed_denotesExactly 3 5 1 (by decide)

/-- Without bits, the signed text denotes no number. -/
theorem not_forall_denotesExactly :
    ¬ ∀ numBits v k : ℕ, v < 2 ^ numBits →
      DenotesExactly (bigUintToUfixed v k) (v / (2 : ℚ) ^ k) ∧
        DenotesExactly (bigUintToSfixed v numBits k) (twosComplement numBits v / (2 : ℚ) ^ k) := by
  intro hall
  obtain ⟨-, d, htext, -, hshortest, -⟩ := hall 0 0 0 (by decide)
  rw [Nat.cast_zero, bigUintToSfixed_zero, DecimalText.text, List.append_assoc] at htext
  exact hshortest.integer_ne (List.append_eq_nil_iff.1 (List.append_eq_nil_iff.1 htext).2).1

end Translation
