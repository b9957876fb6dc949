import Kahuna.Translation.FixedPoint
import Kahuna.Translation.Representation

/-!
# Signed numbers of every width

`SignedTranslator` subtracts one from the number of bits, and the value from a power of two. Here both
differences are checked, so that there is no result where one of them underflows. A variable of unknown width
is translated with zero bits.

* `signedTranslateChecked_eq`: with at least one bit nothing underflows;
* `translatesSigned_iff`: exactly then the text and the number are those of two's complement.
-/

namespace Translation

open Numerals Wave

variable {F : Type}

/-- A difference, unless it underflows. -/
def checkedSub (a b : ℕ) : Option ℕ := if b ≤ a then some (a - b) else none

theorem checkedSub_of_le {a b : ℕ} (h : b ≤ a) : checkedSub a b = some (a - b) := if_pos h

/-- `compute_signed_value`. -/
def computeSignedValueChecked (v numBits : ℕ) : Option (List Char) := do
  let shift ← checkedSub numBits 1
  let signweight := 2 ^ shift
  if v < signweight then return Nat.toDigits 10 v
  else
    let v2 ← checkedSub (signweight * 2) v
    return '-' :: Nat.toDigits 10 v2

/-- The floating-point number of a value, in `basic_translate_numeric`. -/
def signedToF64Checked (fl : Floats F) (v numBits : ℕ) : Option F := do
  let shift ← checkedSub numBits 1
  let signweight := 2 ^ shift
  if v < signweight then return bigUintToF64 fl v
  else
    let v2 ← checkedSub (signweight * 2) v
    return fl.neg (bigUintToF64 fl v2)

/-- `SignedTranslator`, for a variable whose width may be unknown. -/
def signedTranslateChecked (numBits : Option ℕ) (value : VariableValue) :
    Option (List Char × ValueKind) :=
  match parseBigUint value with
  | .ok v => (computeSignedValueChecked v (numBits.getD 0)).map fun text => (text, .normal)
  | .error (v, k) => some (v.toList, k)

/-- The number that `SignedTranslator` draws a value at. -/
def signedNumericChecked (fl : Floats F) (numBits : Option ℕ) (value : VariableValue) : Option F :=
  match parseBigUint value with
  | .ok v => signedToF64Checked fl v (numBits.getD 0)
  | .error (_, .highImp) => some fl.nanHighImp
  | .error (_, _) => some fl.nanUndef

/-- A value that is stored as a number, or as a text of zeros and ones. -/
inductive Represents : VariableValue → ℕ → Prop
  | bigUint (v : ℕ) : Represents (.bigUint v) v
  | string {s : String} (hbits : ∀ c ∈ s.toList, c = '0' ∨ c = '1') (hne : s.toList ≠ []) :
      Represents (.string s) (value 2 s.toList)

theorem Represents.parseBigUint_eq {x : VariableValue} {v : ℕ} (h : Represents x v) :
    parseBigUint x = .ok v := by
  cases h with
  | bigUint => rfl
  | @string s hbits hne =>
    have htext : BinaryText s.toList.length s.toList := ⟨hbits, hne, le_rfl⟩
    exact htext.mapVectorVariable_eq

/-- The floating-point number of an integer. -/
def intToF64 (fl : Floats F) : ℤ → F
  | .ofNat n => bigUintToF64 fl n
  | .negSucc n => fl.neg (bigUintToF64 fl (n + 1))

section

variable {numBits v : ℕ}

/-- A negative number in two's complement is below zero by what is missing to the next power of two. -/
theorem twosComplement_of_le (hv : v < 2 ^ numBits) (hsign : 2 ^ (numBits - 1) ≤ v) :
    twosComplement numBits v = .negSucc (2 ^ numBits - v - 1) := by
  rw [twosComplement, if_neg (Nat.not_lt.2 hsign), Int.negSucc_eq]
  have hpow : ((2 ^ numBits : ℕ) : ℤ) = 2 ^ numBits := by push_cast; rfl
  omega

theorem twosComplement_of_lt (hsign : v < 2 ^ (numBits - 1)) : twosComplement numBits v = .ofNat v := by
  rw [twosComplement, if_pos hsign]
  rfl

theorem signweight_mul_two (hbits : 0 < numBits) : 2 ^ (numBits - 1) * 2 = 2 ^ numBits := by
  rw [← Nat.pow_succ, Nat.succ_eq_add_one, Nat.sub_add_cancel hbits]

theorem computeSignedValueChecked_eq (hbits : 0 < numBits) (hv : v < 2 ^ numBits) :
    computeSignedValueChecked v numBits = some (printInt (twosComplement numBits v)) := by
  rw [computeSignedValueChecked, checkedSub_of_le (by omega)]
  by_cases hsign : v < 2 ^ (numBits - 1)
  · simp only [twosComplement_of_lt hsign, Option.bind_eq_bind, Option.bind_some, if_pos hsign]
    rfl
  · have hsucc : 2 ^ numBits - v - 1 + 1 = 2 ^ numBits - v := by omega
    simp only [twosComplement_of_le hv (by omega), Option.bind_eq_bind, Option.bind_some, if_neg hsign,
      signweight_mul_two hbits, checkedSub_of_le hv.le, printInt, hsucc]
    rfl

theorem signedToF64Checked_eq (fl : Floats F) (hbits : 0 < numBits) (hv : v < 2 ^ numBits) :
    signedToF64Checked fl v numBits = some (intToF64 fl (twosComplement numBits v)) := by
  rw [signedToF64Checked, checkedSub_of_le (by omega)]
  by_cases hsign : v < 2 ^ (numBits - 1)
  · simp only [twosComplement_of_lt hsign, Option.bind_eq_bind, Option.bind_some, if_pos hsign]
    rfl
  · have hsucc : 2 ^ numBits - v - 1 + 1 = 2 ^ numBits - v := by omega
    simp only [twosComplement_of_le hv (by omega), Option.bind_eq_bind, Option.bind_some, if_neg hsign,
      signweight_mul_two hbits, checkedSub_of_le hv.le, intToF64, hsucc]
    rfl

end

/-- With at least one bit the checks change nothing. -/
theorem signedTranslateChecked_eq {numBits v : ℕ} {x : VariableValue} (h : Represents x v)
    (hbits : 0 < numBits) (hv : v < 2 ^ numBits) :
    signedTranslateChecked (some numBits) x = some (signedTranslate numBits x) := by
  have hvalue : computeSignedValueChecked v numBits = some (computeSignedValue v numBits) := by
    rw [computeSignedValueChecked, computeSignedValue, checkedSub_of_le (by omega)]
    by_cases hsign : v < 2 ^ (numBits - 1)
    · simp [hsign]
    · simp [hsign, signweight_mul_two hbits, checkedSub_of_le hv.le]
  simp only [signedTranslateChecked, signedTranslate, translateNumeric, h.parseBigUint_eq,
    Option.getD_some, hvalue, Option.map_some]

/-- The text and the number of a value are those of two's complement. -/
def TranslatesSigned (fl : Floats F) (numBits : Option ℕ) (x : VariableValue) (v : ℕ) : Prop :=
  signedTranslateChecked numBits x = some (printInt (twosComplement (numBits.getD 0) v), .normal) ∧
    signedNumericChecked fl numBits x = some (intToF64 fl (twosComplement (numBits.getD 0) v))

theorem translatesSigned_of_pos (fl : Floats F) {numBits : Option ℕ} {x : VariableValue} {v : ℕ}
    (h : Represents x v) (hv : v < 2 ^ numBits.getD 0) (hbits : 0 < numBits.getD 0) :
    TranslatesSigned fl numBits x v := by
  constructor
  · rw [signedTranslateChecked, h.parseBigUint_eq]
    simp only [computeSignedValueChecked_eq hbits hv, Option.map_some]
  · rw [signedNumericChecked, h.parseBigUint_eq]
    exact signedToF64Checked_eq fl hbits hv

/-- Without bits the width underflows. -/
theorem signedTranslateChecked_zero {numBits : Option ℕ} {x : VariableValue} {v : ℕ}
    (h : Represents x v) (hbits : numBits.getD 0 = 0) : signedTranslateChecked numBits x = none := by
  rw [signedTranslateChecked, h.parseBigUint_eq, hbits]
  rfl

/-- A value is translated as a number in two's complement exactly if its variable has at least one bit. -/
theorem translatesSigned_iff (fl : Floats F) (numBits : Option ℕ) {x : VariableValue} {v : ℕ}
    (h : Represents x v) (hv : v < 2 ^ numBits.getD 0) :
    TranslatesSigned fl numBits x v ↔ 0 < numBits.getD 0 := by
  constructor
  · rintro ⟨htext, -⟩
    by_contra hzero
    rw [signedTranslateChecked_zero h (by omega)] at htext
    cases htext
  · exact translatesSigned_of_pos fl h hv

theorem translatesSigned_three :
    TranslatesSigned wholeFloats (some 3) (.bigUint 5) 5 ↔ 0 < (some 3).getD 0 :=
  translatesSigned_iff wholeFloats (some 3) (.bigUint 5) (by decide)

/-- Zero, as the value of a variable of unknown width. -/
theorem not_forall_translatesSigned :
    ¬ ∀ (numBits : Option ℕ) (x : VariableValue) (v : ℕ), Represents x v → v < 2 ^ numBits.getD 0 →
      TranslatesSigned wholeFloats numBits x v := by
  intro hall
  have htext := (hall none (.bigUint 0) 0 (.bigUint 0) (by decide)).1
  rw [signedTranslateChecked_zero (.bigUint 0) rfl] at htext
  cases htext

end Translation
