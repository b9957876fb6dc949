import Mathlib.Algebra.Order.Ring.Nat
import Mathlib.Data.List.Basic
import Mathlib.Data.Nat.Log
import Mathlib.Tactic.IntervalCases
import Mathlib.Tactic.Ring

/-!
# Numerals

Texts of numbers, as lists of characters in a base of at most sixteen. Core prints a number with
`Nat.toDigits`. This file reads it back.

* `value`: the number a text of digits denotes;
* `value_toDigits`: what is printed denotes the number it was printed from;
* `IsNumeral.eq_of_value_eq`: a number has one text of a given length in the digits of `Canonical`;
* `parseInt_printInt`: the same for integers with a sign.
-/

namespace Numerals

variable {b : ℕ}

/-- The digit a character stands for, with letters of either case for the digits from ten on. -/
def digitOf (c : Char) : Option ℕ :=
  if c.isDigit then some (c.toNat - 48)
  else if c.isLower then some (c.toNat - 87)
  else if c.isUpper then some (c.toNat - 55)
  else none

/-- The digit a character stands for in a base, `none` for a character that is no digit of it. -/
def digit? (b : ℕ) (c : Char) : Option ℕ := (digitOf c).filter (· < b)

theorem digit?_lt {c : Char} {d : ℕ} (h : digit? b c = some d) : d < b := by
  simp only [digit?, Option.filter_eq_some_iff, decide_eq_true_eq] at h
  exact h.2

theorem digitOf_digitChar {d : ℕ} (hd : d < 16) : digitOf d.digitChar = some d := by
  interval_cases d <;> rfl

/-- A printed digit stands for itself. -/
theorem digit?_digitChar {d : ℕ} (hb : b ≤ 16) (hd : d < b) : digit? b d.digitChar = some d := by
  rw [digit?, digitOf_digitChar (by omega)]
  simp [Option.filter, hd]

/-- A text that consists of digits. -/
def IsNumeral (b : ℕ) (l : List Char) : Prop := ∀ c ∈ l, (digit? b c).isSome

instance (l : List Char) : Decidable (IsNumeral b l) :=
  List.decidableBAll (fun c => (digit? b c).isSome) l

/-- The number that a text of digits denotes. -/
def value (b : ℕ) (l : List Char) : ℕ := l.foldl (fun n c => b * n + (digit? b c).getD 0) 0

@[simp] theorem isNumeral_nil : IsNumeral b [] := by simp [IsNumeral]

theorem isNumeral_append {l m : List Char} :
    IsNumeral b (l ++ m) ↔ IsNumeral b l ∧ IsNumeral b m := by
  simp [IsNumeral, or_imp, forall_and]

@[simp] theorem value_nil : value b [] = 0 := rfl

private theorem foldl_eq (l : List Char) (n : ℕ) :
    l.foldl (fun n c => b * n + (digit? b c).getD 0) n = n * b ^ l.length + value b l := by
  induction l generalizing n with
  | nil => simp
  | cons c l ih =>
    -- the digits read so far move up by one place for each digit that follows
    simp only [value, List.foldl_cons, List.length_cons]
    rw [ih, ih (b * 0 + _), pow_succ]
    ring

theorem value_append (l m : List Char) :
    value b (l ++ m) = value b l * b ^ m.length + value b m := by
  rw [value, List.foldl_append, foldl_eq]
  rfl

theorem value_cons (c : Char) (l : List Char) :
    value b (c :: l) = (digit? b c).getD 0 * b ^ l.length + value b l := by
  rw [value, List.foldl_cons, foldl_eq]
  simp

/-- A text of digits denotes a number below the power of its length. -/
theorem value_lt (hb : 0 < b) (l : List Char) : value b l < b ^ l.length := by
  induction l with
  | nil => simp
  | cons c l ih =>
    have hdigit : (digit? b c).getD 0 < b := by
      cases hc : digit? b c with
      | none => simpa using hb
      | some d => simpa using digit?_lt hc
    rw [value_cons, List.length_cons, pow_succ]
    calc (digit? b c).getD 0 * b ^ l.length + value b l
        < (digit? b c).getD 0 * b ^ l.length + b ^ l.length := by omega
      _ = ((digit? b c).getD 0 + 1) * b ^ l.length := by ring
      _ ≤ b * b ^ l.length := Nat.mul_le_mul_right _ hdigit
      _ = b ^ l.length * b := Nat.mul_comm _ _

theorem value_replicate_zero (hb : 0 < b) (n : ℕ) : value b (List.replicate n '0') = 0 := by
  have hzero : (digit? b '0').getD 0 = 0 := by simp [digit?, digitOf, Option.filter, hb]
  induction n with
  | zero => rfl
  | succ n ih => rw [List.replicate_succ, value_cons, ih, hzero, Nat.zero_mul]

/-- What is printed denotes the number it was printed from. -/
theorem value_toDigits (hb : 1 < b) (hb' : b ≤ 16) (n : ℕ) : value b (Nat.toDigits b n) = n := by
  induction n using Nat.strong_induction_on with
  | _ n ih =>
    by_cases hn : n < b
    · simp [Nat.toDigits_of_lt_base hn, value_cons, digit?_digitChar hb' hn]
    · have hlt : n / b < n := Nat.div_lt_self (by omega) hb
      have hmod : n % b < b := Nat.mod_lt _ (by omega)
      rw [Nat.toDigits_of_base_le hb (by omega), value_append, ih _ hlt]
      simp only [value_cons, digit?_digitChar hb' hmod, value_nil, List.length_cons,
        List.length_nil, Option.getD_some]
      have := Nat.div_add_mod n b
      rw [Nat.mul_comm] at this
      simpa using this

/-- A text in the digits that are printed, which have their letters in lower case. -/
def Canonical (b : ℕ) (l : List Char) : Prop := ∀ c ∈ l, ∃ d < b, c = d.digitChar

theorem Canonical.append {l m : List Char} (hl : Canonical b l) (hm : Canonical b m) :
    Canonical b (l ++ m) := by
  intro c hc
  rcases List.mem_append.1 hc with hc | hc
  · exact hl c hc
  · exact hm c hc

theorem Canonical.isNumeral {l : List Char} (h : Canonical b l) (hb : b ≤ 16) : IsNumeral b l := by
  intro c hc
  obtain ⟨d, hd, rfl⟩ := h c hc
  simp [digit?_digitChar hb hd]

theorem canonical_replicate_zero (hb : 0 < b) (n : ℕ) : Canonical b (List.replicate n '0') := by
  intro c hc
  exact ⟨0, hb, List.eq_of_mem_replicate hc⟩

theorem canonical_toDigits (hb : 1 < b) (n : ℕ) : Canonical b (Nat.toDigits b n) := by
  induction n using Nat.strong_induction_on with
  | _ n ih =>
    by_cases hn : n < b
    · intro c hc
      rw [Nat.toDigits_of_lt_base hn, List.mem_singleton] at hc
      exact ⟨n, hn, hc⟩
    · rw [Nat.toDigits_of_base_le hb (by omega)]
      refine (ih _ (Nat.div_lt_self (by omega) hb)).append fun c hc => ?_
      exact ⟨n % b, Nat.mod_lt _ (by omega), List.mem_singleton.1 hc⟩

/-- Two texts of one length that denote the same number are the same text. -/
theorem Canonical.eq_of_value_eq (hb : b ≤ 16) {l m : List Char} (hl : Canonical b l)
    (hm : Canonical b m) (hlen : l.length = m.length) (hval : value b l = value b m) : l = m := by
  induction l generalizing m with
  | nil => exact (List.length_eq_zero_iff.1 hlen.symm).symm
  | cons c l ih =>
    cases m with
    | nil => simp at hlen
    | cons c' m =>
      obtain ⟨d, hd, rfl⟩ := hl c List.mem_cons_self
      obtain ⟨d', hd', rfl⟩ := hm c' List.mem_cons_self
      have hlen' : l.length = m.length := Nat.succ.inj hlen
      simp only [value_cons, digit?_digitChar hb hd, digit?_digitChar hb hd', Option.getD_some,
        hlen'] at hval
      have hlt := value_lt (by omega : 0 < b) l
      have hlt' := value_lt (by omega : 0 < b) m
      rw [hlen'] at hlt
      -- the rest stays below the place of the first digit, so the first digits are the same
      have hfirst : d = d' := by
        have hpos : 0 < b ^ m.length := by omega
        have h := congrArg (· / b ^ m.length) hval
        simp only [Nat.add_comm (_ * _), Nat.add_mul_div_right _ _ hpos, Nat.div_eq_of_lt hlt,
          Nat.div_eq_of_lt hlt', Nat.zero_add] at h
        exact h
      subst hfirst
      rw [ih (fun c hc => hl c (List.mem_cons_of_mem _ hc))
        (fun c hc => hm c (List.mem_cons_of_mem _ hc)) hlen' (by omega)]

/-- The text of an integer. -/
def printInt : ℤ → List Char
  | .ofNat n => Nat.toDigits 10 n
  | .negSucc n => '-' :: Nat.toDigits 10 (n + 1)

/-- Reading a natural number, which takes at least one digit. -/
def parseNat (l : List Char) : Option ℕ :=
  if l ≠ [] ∧ IsNumeral 10 l then some (value 10 l) else none

/-- Reading an integer, which may have a sign. -/
def parseInt : List Char → Option ℤ
  | '+' :: l => (parseNat l).map fun n : ℕ => (n : ℤ)
  | '-' :: l => (parseNat l).map fun n : ℕ => -(n : ℤ)
  | l => (parseNat l).map fun n : ℕ => (n : ℤ)

theorem isNumeral_toDigits (n : ℕ) : IsNumeral 10 (Nat.toDigits 10 n) :=
  (canonical_toDigits (by omega) n).isNumeral (by omega)

theorem parseNat_toDigits (n : ℕ) : parseNat (Nat.toDigits 10 n) = some n := by
  simp [parseNat, isNumeral_toDigits, value_toDigits]

theorem length_toDigits {b : ℕ} (hb : 1 < b) (n : ℕ) : (Nat.toDigits b n).length = Nat.log b n + 1 := by
  apply Nat.le_antisymm
  · exact (Nat.length_toDigits_le_iff hb (by omega)).2 (Nat.lt_pow_succ_log_self hb n)
  · have hpos : 0 < (Nat.toDigits b n).length := Nat.length_toDigits_pos
    have hlt : n < b ^ (Nat.toDigits b n).length := (Nat.length_toDigits_le_iff hb hpos).1 le_rfl
    exact Nat.log_lt_of_lt_pow' hpos.ne' hlt

theorem not_mem_toDigits {c : Char} (hc : c.isDigit = false) (n : ℕ) : c ∉ Nat.toDigits 10 n := by
  intro h
  rw [Nat.isDigit_of_mem_toDigits (by omega) (by omega) h] at hc
  cases hc

theorem toDigits_ne_cons {c : Char} {l : List Char} {n : ℕ} (hc : c.isDigit = false) :
    Nat.toDigits 10 n ≠ c :: l := fun h => not_mem_toDigits hc n (h ▸ List.mem_cons_self)

/-- A character of a printed integer is the minus sign or a digit. -/
theorem mem_printInt {i : ℤ} {c : Char} (hc : c ∈ printInt i) : c = '-' ∨ c.isDigit := by
  cases i with
  | ofNat n => exact .inr (Nat.isDigit_of_mem_toDigits (by omega) (by omega) hc)
  | negSucc n =>
    rcases List.mem_cons.1 hc with hc | hc
    · exact .inl hc
    · exact .inr (Nat.isDigit_of_mem_toDigits (by omega) (by omega) hc)

/-- What is printed is read back. -/
theorem parseInt_printInt (i : ℤ) : parseInt (printInt i) = some i := by
  cases i with
  | ofNat n =>
    -- a digit is no sign, so the text is read as it stands
    rw [printInt, parseInt, parseNat_toDigits]
    · rfl
    · exact fun _ => toDigits_ne_cons rfl
    · exact fun _ => toDigits_ne_cons rfl
  | negSucc n =>
    simp only [printInt, parseInt, parseNat_toDigits]
    rfl

end Numerals
