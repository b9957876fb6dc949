import Kahuna.Cxxrtl.QueryContainer
import Kahuna.Translation.Representation
import Mathlib.Algebra.Order.Field.Rat
import Mathlib.Tactic.FieldSimp
import Mathlib.Tactic.Ring

/-!
# Timestamps as texts

The model of the texts of `timestamp.rs`. A timestamp is printed with its seconds, a point, and its femtoseconds
as a fraction of 15 digits. A text from the server is cut at its points, and what stands on both sides of the
first one is read as a number.

* `fromStr_display`: what is printed is read back;
* `fromStr_ok_iff`: which texts are read, and as what;
* `reads_iff`: which texts are read as the time that they denote.
-/

namespace Cxxrtl

open Numerals Translation

namespace CxxrtlTimestamp

/-- `fmt`. -/
def display (t : CxxrtlTimestamp) : List Char :=
  Nat.toDigits 10 t.seconds ++ '.' :: padded 10 15 t.femtoseconds

/-- `BigUint::from_str`. -/
def bigUintFromStr (s : List Char) : Option ℕ := parseBytes 10 s

/-- A number, or an error with a context. -/
def withContext (n : Option ℕ) (context : String) : Except String ℕ :=
  match n with
  | some n => .ok n
  | none => .error context

/-- `CxxrtlTimestamp::from_str`. The number in front is read before the piece behind it is looked for. -/
def fromStr (s : List Char) : Run (Except String CxxrtlTimestamp) := do
  let split := s.splitOn '.'
  let whole ← Run.index split 0
  match withContext (bigUintFromStr whole) s!"When parsing seconds from {String.ofList s}" with
  | .error context => return .error context
  | .ok seconds =>
    let fraction ← Run.index split 1
    match withContext (bigUintFromStr fraction) s!"When parsing femtoseconds from {String.ofList s}" with
    | .error context => return .error context
    | .ok femtoseconds => return .ok { seconds, femtoseconds }

/-! ## What is read -/

variable {s whole fraction : List Char} {rest : List (List Char)} {n m : ℕ} {t : CxxrtlTimestamp}

theorem bigUintFromStr_of_isNumeral (hne : s ≠ []) (h : IsNumeral 10 s) :
    bigUintFromStr s = some (value 10 s) := parseBytes_of_isNumeral hne h

/-- In a text that is read as a number there is no point. -/
theorem not_mem_of_bigUintFromStr (h : bigUintFromStr s = some n) : '.' ∉ s := by
  intro hmem
  rw [bigUintFromStr, parseBytes_eq_none hmem (by decide) (by decide) rfl] at h
  cases h

/-- A text is read by the two pieces in front. -/
theorem fromStr_of_splitOn (hsplit : s.splitOn '.' = whole :: fraction :: rest) (hwhole : bigUintFromStr whole = some n)
    (hfraction : bigUintFromStr fraction = some m) :
    fromStr s = .ok (.ok { seconds := n, femtoseconds := m }) := by
  simp only [fromStr, hsplit, Run.index, List.getElem?_cons_zero, List.getElem?_cons_succ, bind, Except.bind,
    withContext, hwhole, hfraction, pure, Except.pure]

/-- What is printed is read back. -/
theorem fromStr_display (femto : ℕ) : fromStr (fromFemtoseconds femto).display = .ok (.ok (fromFemtoseconds femto)) := by
  set t := fromFemtoseconds femto
  have hwhole : bigUintFromStr (Nat.toDigits 10 t.seconds) = some t.seconds := by
    rw [bigUintFromStr_of_isNumeral (by simp) (isNumeral_toDigits _), value_toDigits (by omega) (by omega)]
  have hfraction : bigUintFromStr (padded 10 15 t.femtoseconds) = some t.femtoseconds := by
    have hne : padded 10 15 t.femtoseconds ≠ [] := by simp [padded]
    rw [bigUintFromStr_of_isNumeral hne ((canonical_padded (by omega) 15 _).isNumeral (by omega)),
      value_padded (by omega) (by omega)]
  have hsplit : t.display.splitOn '.' = [Nat.toDigits 10 t.seconds, padded 10 15 t.femtoseconds] := by
    rw [display, List.splitOn_append_cons_self, List.splitOn_eq_singleton (not_mem_of_bigUintFromStr hwhole),
      List.splitOn_eq_singleton (not_mem_of_bigUintFromStr hfraction)]
    rfl
  exact fromStr_of_splitOn hsplit hwhole hfraction

theorem asFemtoseconds_fromFemtoseconds (femto : ℕ) : (fromFemtoseconds femto).asFemtoseconds = femto :=
  Nat.div_add_mod' femto 1000000000000000

/-! ## What is denoted -/

/-- The number of digits of a text that is read as a number. Underscores may stand between them. -/
def digitCount (s : List Char) : ℕ := (s.filter (· ≠ '_')).length

/-- The number of seconds that a text denotes. A fraction has no sign. -/
inductive Denotes : List Char → ℚ → Prop
  | whole {s : List Char} {n : ℕ} (h : bigUintFromStr s = some n) : Denotes s n
  | fraction {whole fraction : List Char} {n m : ℕ} (hwhole : bigUintFromStr whole = some n)
      (hfraction : bigUintFromStr fraction = some m) (hsign : fraction.head? ≠ some '+') :
      Denotes (whole ++ '.' :: fraction) (n + m / 10 ^ digitCount fraction)

/-- A text is rejected, or read as the time that it denotes. -/
def ReadRight (s : List Char) : Prop :=
  (∃ context, fromStr s = .ok (.error context)) ∨
    ∃ t q, fromStr s = .ok (.ok t) ∧ Denotes s q ∧ (t.asFemtoseconds : ℚ) = q * 1000000000000000

/-- A piece beside the first point is no number, or there is only one point, with a fraction of 15 digits or of
zeros behind it. -/
def WellPut (s : List Char) : Prop :=
  match s.splitOn '.' with
  | [] => False
  | [whole] => bigUintFromStr whole = none
  | whole :: fraction :: rest => bigUintFromStr whole = none ∨ bigUintFromStr fraction = none ∨
      rest = [] ∧ fraction.head? ≠ some '+' ∧ (bigUintFromStr fraction = some 0 ∨ digitCount fraction = 15)

theorem fromStr_of_whole_eq_none (hsplit : s.splitOn '.' = whole :: rest) (h : bigUintFromStr whole = none) :
    ∃ context, fromStr s = .ok (.error context) := by
  simp only [fromStr, hsplit, Run.index, List.getElem?_cons_zero, bind, Except.bind, withContext, h, pure,
    Except.pure]
  exact ⟨_, rfl⟩

theorem fromStr_of_fraction_eq_none (hsplit : s.splitOn '.' = whole :: fraction :: rest)
    (hwhole : bigUintFromStr whole = some n) (h : bigUintFromStr fraction = none) :
    ∃ context, fromStr s = .ok (.error context) := by
  simp only [fromStr, hsplit, Run.index, List.getElem?_cons_zero, List.getElem?_cons_succ, bind, Except.bind,
    withContext, hwhole, h, pure, Except.pure]
  exact ⟨_, rfl⟩

/-- Without a point the piece behind it is missing. -/
theorem fromStr_of_noPoint (hsplit : s.splitOn '.' = [whole]) (hwhole : bigUintFromStr whole = some n) :
    fromStr s = .error .outOfBounds := by
  simp only [fromStr, hsplit, Run.index, List.getElem?_cons_zero, List.getElem?_cons_succ, List.getElem?_nil, bind,
    Except.bind, withContext, hwhole]

/-- What a text denotes that has pieces which are numbers. -/
theorem denotes_iff {q : ℚ} (hsplit : s.splitOn '.' = whole :: fraction :: rest)
    (hwhole : bigUintFromStr whole = some n) (hfraction : bigUintFromStr fraction = some m) :
    Denotes s q ↔ rest = [] ∧ fraction.head? ≠ some '+' ∧ q = n + m / 10 ^ digitCount fraction := by
  constructor
  · intro h
    cases h with
    | whole h =>
      rw [List.splitOn_eq_singleton (not_mem_of_bigUintFromStr h)] at hsplit
      cases hsplit
    | fraction hw hf hsign =>
      rw [List.splitOn_append_cons_self, List.splitOn_eq_singleton (not_mem_of_bigUintFromStr hw),
        List.splitOn_eq_singleton (not_mem_of_bigUintFromStr hf)] at hsplit
      cases hsplit
      rw [hw, Option.some.injEq] at hwhole
      rw [hf, Option.some.injEq] at hfraction
      subst hwhole hfraction
      exact ⟨rfl, hsign, rfl⟩
  · rintro ⟨rfl, hsign, rfl⟩
    have hjoin : ['.'].intercalate (s.splitOn '.') = s := List.intercalate_splitOn '.'
    have hs : s = whole ++ '.' :: fraction := by
      rw [hsplit] at hjoin
      rw [← hjoin]
      simp [List.intercalate]
    exact hs ▸ .fraction hwhole hfraction hsign

/-- A fraction is read right when it has 15 digits, or is zero. -/
theorem femtoseconds_eq_iff (n m k : ℕ) :
    ((n * 1000000000000000 + m : ℕ) : ℚ) = (n + m / 10 ^ k) * 1000000000000000 ↔ m = 0 ∨ k = 15 := by
  have hpow : (10 : ℚ) ^ k ≠ 0 := pow_ne_zero k (by norm_num)
  have hcross : ((n * 1000000000000000 + m : ℕ) : ℚ) = (n + m / 10 ^ k) * 1000000000000000 ↔
      m * 10 ^ k = m * 10 ^ 15 := by
    rw [← Nat.cast_inj (R := ℚ)]
    push_cast
    rw [add_mul, add_right_inj, div_mul_eq_mul_div, eq_div_iff hpow]
  rw [hcross, mul_eq_mul_left_iff, Nat.pow_right_inj (by omega), or_comm]

/-- Exactly such texts are rejected or read as the time that they denote. -/
theorem readRight_iff (s : List Char) : ReadRight s ↔ WellPut s := by
  rw [WellPut]
  split
  next hsplit => exact absurd hsplit (List.splitOn_ne_nil '.' s)
  next whole hsplit =>
    cases hwhole : bigUintFromStr whole with
    | none => exact iff_of_true (.inl (fromStr_of_whole_eq_none hsplit hwhole)) rfl
    | some n =>
      refine iff_of_false ?_ (by simp)
      -- the program panics
      rw [ReadRight, fromStr_of_noPoint hsplit hwhole]
      rintro (⟨context, h⟩ | ⟨t, q, h, -⟩) <;> cases h
  next whole fraction rest hsplit =>
    cases hwhole : bigUintFromStr whole with
    | none => exact iff_of_true (.inl (fromStr_of_whole_eq_none hsplit hwhole)) (.inl rfl)
    | some n =>
      cases hfraction : bigUintFromStr fraction with
      | none =>
        exact iff_of_true (.inl (fromStr_of_fraction_eq_none hsplit hwhole hfraction)) (.inr (.inl rfl))
      | some m =>
        have hread := fromStr_of_splitOn hsplit hwhole hfraction
        simp only [reduceCtorEq, false_or, Option.some.injEq, ← femtoseconds_eq_iff n m]
        constructor
        · rintro (⟨context, herror⟩ | ⟨t, q, hok, hdenotes, htime⟩)
          · cases hread.symm.trans herror
          · cases hread.symm.trans hok
            obtain ⟨hrest, hsign, rfl⟩ := (denotes_iff hsplit hwhole hfraction).1 hdenotes
            exact ⟨hrest, hsign, htime⟩
        · rintro ⟨hrest, hsign, htime⟩
          exact .inr ⟨_, _, hread, (denotes_iff hsplit hwhole hfraction).2 ⟨hrest, hsign, rfl⟩, htime⟩

/-- What is printed is read back, and of the texts from a server these are rejected or read as the time that they
denote. -/
theorem timestamp_texts (femto : ℕ) (s : List Char) :
    (∃ t, fromStr (fromFemtoseconds femto).display = .ok (.ok t) ∧ t.asFemtoseconds = femto) ∧
      (ReadRight s ↔ WellPut s) :=
  ⟨⟨_, fromStr_display femto, asFemtoseconds_fromFemtoseconds femto⟩, readRight_iff s⟩

/-- A fraction of one digit is read as femtoseconds, and a text without a point is not survived. -/
theorem not_readRight : ¬ ReadRight ['1', '.', '5'] ∧ ¬ ReadRight ['5'] := by
  rw [readRight_iff, readRight_iff]
  constructor
  · have hsplit : ['1', '.', '5'].splitOn '.' = [['1'], ['5']] := by decide
    rw [WellPut, hsplit]
    decide
  · have hsplit : ['5'].splitOn '.' = [['5']] := by decide
    rw [WellPut, hsplit]
    decide

end CxxrtlTimestamp

end Cxxrtl
