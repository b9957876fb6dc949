import Kahuna.Numerals.Basic
import Mathlib.Algebra.Order.Floor.Semiring
import Mathlib.Data.List.DropRight
import Mathlib.Data.Rat.Floor
import Mathlib.Tactic.FieldSimp
import Mathlib.Tactic.Positivity

/-!
# Decimal fractions

The number a text of digits with a decimal point denotes. Zeros at the end of the fraction do not
change it (`decimal_stripZeros`), and moving the point to the right end multiplies it by a power of
ten (`value_append_eq_decimal`).
-/

namespace Numerals

/-- The number with the given digits before and after the point. -/
def decimal (integer fraction : List Char) : ℚ :=
  value 10 integer + value 10 fraction / 10 ^ fraction.length

@[simp] theorem decimal_nil (integer : List Char) : decimal integer [] = value 10 integer := by
  simp [decimal]

/-- The digits on both sides of the point together denote the number in units of its last place. -/
theorem value_append_eq_decimal (integer fraction : List Char) :
    (value 10 (integer ++ fraction) : ℚ) = decimal integer fraction * 10 ^ fraction.length := by
  rw [value_append, decimal]
  push_cast
  field_simp

/-- The digits without the zeros at the end. -/
def stripZeros (fraction : List Char) : List Char := fraction.rdropWhile (· == '0')

theorem stripZeros_append_replicate (fraction : List Char) :
    ∃ n, fraction = stripZeros fraction ++ List.replicate n '0' := by
  induction fraction using List.reverseRecOn with
  | nil => exact ⟨0, by simp [stripZeros]⟩
  | append_singleton fraction c ih =>
    by_cases hc : c = '0'
    · obtain ⟨n, hn⟩ := ih
      refine ⟨n + 1, ?_⟩
      rw [stripZeros, List.rdropWhile_concat_pos _ _ _ (by simpa using hc), List.replicate_succ',
        ← List.append_assoc, ← stripZeros, ← hn, hc]
    · exact ⟨0, by simp [stripZeros, hc]⟩

/-- Zeros at the end of the fraction do not change the number. -/
theorem decimal_append_replicate (integer fraction : List Char) (n : ℕ) :
    decimal integer (fraction ++ List.replicate n '0') = decimal integer fraction := by
  have hzero := value_replicate_zero (b := 10) (by omega) n
  rw [decimal, decimal, value_append, hzero, List.length_append, List.length_replicate, pow_add]
  push_cast
  field_simp
  ring

theorem decimal_stripZeros (integer fraction : List Char) :
    decimal integer (stripZeros fraction) = decimal integer fraction := by
  obtain ⟨n, hn⟩ := stripZeros_append_replicate fraction
  conv_rhs => rw [hn]
  rw [decimal_append_replicate]

theorem isNumeral_stripZeros {fraction : List Char} (h : IsNumeral 10 fraction) :
    IsNumeral 10 (stripZeros fraction) :=
  fun _ hc => h _ ((List.rdropWhile_prefix _ _).subset hc)

theorem toNat_of_isLower {c : Char} (h : c.isLower) : 97 ≤ c.toNat ∧ c.toNat ≤ 122 := by
  have hval : (decide (c.val ≥ 'a'.val) && decide (c.val ≤ 'z'.val)) = true := h
  simpa [UInt32.le_iff_toNat_le] using hval

theorem toNat_of_isUpper {c : Char} (h : c.isUpper) : 65 ≤ c.toNat ∧ c.toNat ≤ 90 := by
  have hval : decide (c.val ≥ 'A'.val ∧ c.val ≤ 'Z'.val) = true := h
  simpa [UInt32.le_iff_toNat_le] using hval

/-- In base ten no letter is a digit. -/
theorem digit?_ten (c : Char) : digit? 10 c = if c.isDigit then some (c.toNat - 48) else none := by
  simp only [digit?, digitOf]
  split
  next hdigit =>
    have hrange : 48 ≤ c.toNat ∧ c.toNat ≤ 57 := Char.isDigit_iff_toNat.1 hdigit
    have hlt : c.toNat - 48 < 10 := by omega
    rw [Option.filter_some, if_pos (by simpa using hlt)]
  next =>
    split
    next hlower =>
      have hrange := toNat_of_isLower hlower
      have hge : ¬ c.toNat - 87 < 10 := by omega
      rw [Option.filter_some, if_neg (by simpa using hge)]
    next =>
      split
      next hupper =>
        have hrange := toNat_of_isUpper hupper
        have hge : ¬ c.toNat - 55 < 10 := by omega
        rw [Option.filter_some, if_neg (by simpa using hge)]
      next => rfl

theorem isNumeral_ten {l : List Char} : IsNumeral 10 l ↔ ∀ c ∈ l, c.isDigit := by
  simp only [IsNumeral, digit?_ten]
  refine forall₂_congr fun c _ => ?_
  split <;> simp_all

/-- A number with a digit other than zero behind the point is not whole. -/
theorem decimal_ne_intCast {integer fraction : List Char} (hdigits : IsNumeral 10 fraction)
    (hne : stripZeros fraction ≠ []) (n : ℤ) : (n : ℚ) ≠ decimal integer fraction := by
  intro heq
  obtain ⟨f, c, hf⟩ := (List.eq_nil_or_concat (stripZeros fraction)).resolve_left hne
  rw [List.concat_eq_append] at hf
  have hc : c ≠ '0' := by
    have hlast := List.rdropWhile_last_not (· == '0') fraction hne
    have hget : (stripZeros fraction).getLast hne = c := by simp [hf]
    change ¬ ((stripZeros fraction).getLast hne == '0') at hlast
    simpa [hget] using hlast
  have hdigit : c.isDigit := isNumeral_ten.1 (isNumeral_stripZeros hdigits) c (by simp [hf])
  have hrange : 48 ≤ c.toNat ∧ c.toNat ≤ 57 := Char.isDigit_iff_toNat.1 hdigit
  have hpos : c.toNat ≠ 48 := fun h => hc (Char.toNat_inj.1 h)
  -- in units of the last place the number ends in that digit, so it is no multiple of ten
  have hplaces := value_append_eq_decimal integer (stripZeros fraction)
  rw [decimal_stripZeros, ← heq, hf, List.length_append, List.length_singleton, pow_succ,
    ← List.append_assoc, value_append] at hplaces
  simp only [value_cons, digit?_ten, hdigit, if_true, Option.getD_some, List.length_nil, pow_zero,
    mul_one, value_nil, add_zero, List.length_singleton, pow_one] at hplaces
  have hint : (value 10 (integer ++ f) * 10 + (c.toNat - 48) : ℕ) = n * 10 ^ f.length * 10 := by
    have : ((value 10 (integer ++ f) * 10 + (c.toNat - 48) : ℕ) : ℚ)
        = ((n * 10 ^ f.length * 10 : ℤ) : ℚ) := by
      rw [hplaces]
      push_cast
      ring
    exact_mod_cast this
  omega

/-- A decimal number in digits, with a sign. -/
structure DecimalText where
  negative : Bool
  integer : List Char
  fraction : List Char

namespace DecimalText

/-- The text of the number. There is a point if digits follow. -/
def text (d : DecimalText) : List Char :=
  (if d.negative then ['-'] else []) ++ d.integer ++
    (if d.fraction = [] then [] else '.' :: d.fraction)

/-- The number that it denotes. -/
def number (d : DecimalText) : ℚ :=
  if d.negative then -decimal d.integer d.fraction else decimal d.integer d.fraction

/-- The digits are digits, and no zero at the end of the fraction is superfluous. -/
structure Shortest (d : DecimalText) : Prop where
  integer_digits : IsNumeral 10 d.integer
  integer_ne : d.integer ≠ []
  fraction_digits : IsNumeral 10 d.fraction
  last_ne : d.fraction.getLast? ≠ some '0'

end DecimalText

/-- A text denotes a number as a decimal without superfluous digits behind the point, and has a minus sign
exactly if the number is negative. -/
def DenotesExactly (text : List Char) (q : ℚ) : Prop :=
  ∃ d : DecimalText, d.text = text ∧ d.number = q ∧ d.Shortest ∧ (d.negative = true ↔ q < 0)

end Numerals
