import Kahuna.Time.Parse

/-!
# Writing times and reading them back

A time is written as a number and a unit. The text is exact unless the floating-point number between
them rounds. From an exact text the same number of ticks is read, but not where the timescale has no
unit and the unit is chosen automatically: the text then ends in the name of the missing unit.

* `FixedPoint`: the exact text of a number with a given number of places;
* `read_format_iff`: the round trip.
-/

namespace Time

open Numerals Text

/-- A text of digits with a number of places, which denotes exactly the given number. -/
def FixedPoint (text : List Char) (precision : ℕ) (number : ℚ) : Prop :=
  ∃ integer fraction : List Char, (∀ c ∈ integer, c.isDigit) ∧ (∀ c ∈ fraction, c.isDigit) ∧
    integer ≠ [] ∧ fraction.length = precision ∧ decimal integer fraction = number ∧
    text = if precision = 0 then integer else integer ++ '.' :: fraction

/-- The exact text of a number, as far as it is a whole number in the last place. -/
def fixedPointText (number : ℚ) (precision : ℕ) : List Char :=
  let scaled := (number * 10 ^ precision).floor.toNat
  let fraction := Nat.toDigits 10 (scaled % 10 ^ precision)
  let integer := Nat.toDigits 10 (scaled / 10 ^ precision)
  if precision = 0 then integer
  else integer ++ '.' :: (List.replicate (precision - fraction.length) '0' ++ fraction)

/-- The exact text is exact. -/
theorem fixedPoint_fixedPointText {number : ℚ} {precision k : ℕ}
    (h : number * 10 ^ precision = k) :
    FixedPoint (fixedPointText number precision) precision number := by
  have hdigit (m : ℕ) : ∀ c ∈ Nat.toDigits 10 m, c.isDigit :=
    fun c hc => Nat.isDigit_of_mem_toDigits (by omega) (by omega) hc
  have hscaled : (number * 10 ^ precision).floor.toNat = k := by
    have hfloor : ((k : ℤ) : ℚ).floor = k := Rat.floor_intCast k
    rw [Int.cast_natCast] at hfloor
    rw [h, hfloor, Int.toNat_natCast]
  have hpow : (10 : ℚ) ^ precision ≠ 0 := by positivity
  by_cases hzero : precision = 0
  · subst hzero
    refine ⟨Nat.toDigits 10 k, [], hdigit k, by simp, Nat.toDigits_ne_nil, rfl, ?_, ?_⟩
    · simpa [value_toDigits] using h.symm
    · simp only [fixedPointText, hscaled]
      simp
  · have hmod : k % 10 ^ precision < 10 ^ precision := Nat.mod_lt _ (by positivity)
    have hlength := (Nat.length_toDigits_le_iff (b := 10) (by omega) (Nat.pos_of_ne_zero hzero)).2 hmod
    refine ⟨Nat.toDigits 10 (k / 10 ^ precision),
      List.replicate (precision - (Nat.toDigits 10 (k % 10 ^ precision)).length) '0' ++
        Nat.toDigits 10 (k % 10 ^ precision), hdigit _, ?_, Nat.toDigits_ne_nil, ?_, ?_, ?_⟩
    · intro c hc
      rcases List.mem_append.1 hc with hc | hc
      · rw [List.eq_of_mem_replicate hc]
        decide
      · exact hdigit _ c hc
    · simp only [List.length_append, List.length_replicate]
      omega
    · -- quotient and remainder together are the number in units of the last place
      have hsum := Nat.div_add_mod k (10 ^ precision)
      rw [decimal, value_append, value_replicate_zero (by omega), value_toDigits (by omega) (by omega),
        value_toDigits (by omega) (by omega), List.length_append, List.length_replicate,
        Nat.sub_add_cancel hlength, Nat.zero_mul, Nat.zero_add]
      rw [eq_div_of_mul_eq hpow h]
      conv_rhs => rw [← hsum]
      push_cast
      field_simp
    · simp only [fixedPointText, hscaled, hzero, if_false]

/-- A text of digits. -/
def NumberText.ofInteger (integer : List Char) (hdigits : ∀ c ∈ integer, c.isDigit)
    (hne : integer ≠ []) : NumberText where
  plus := false
  integer := integer
  fraction := none
  integer_digits := hdigits
  fraction_digits := by simp
  nonempty := .inl hne

/-- Digits, the point and more digits. -/
def NumberText.ofParts (integer fraction : List Char) (hinteger : ∀ c ∈ integer, c.isDigit)
    (hfraction : ∀ c ∈ fraction, c.isDigit) : NumberText where
  plus := false
  integer := integer
  fraction := some fraction
  integer_digits := hinteger
  fraction_digits := by simpa using hfraction
  nonempty := .inr rfl

/-- A natural number is written as its digits. -/
theorem exists_numberText_printInt {i : ℤ} (h : 0 ≤ i) :
    ∃ n : NumberText, printInt i = n.text ∧ n.number = i ∧ n.significant = [] := by
  obtain ⟨k, rfl⟩ := Int.eq_ofNat_of_zero_le h
  refine ⟨.ofInteger (Nat.toDigits 10 k) (fun c hc => ?_) Nat.toDigits_ne_nil, ?_, ?_, ?_⟩
  · exact Nat.isDigit_of_mem_toDigits (by omega) (by omega) hc
  · simp [NumberText.text, NumberText.sign, NumberText.body, NumberText.ofInteger, printInt]
  · simp [NumberText.number, NumberText.ofInteger, value_toDigits]
  · rfl

/-- Without its zeros and a final point, an exact text is a number with no more places. -/
theorem FixedPoint.exists_numberText {text : List Char} {precision : ℕ} {number : ℚ}
    (h : FixedPoint text precision number) :
    ∃ n : NumberText, stripTrailingZerosAndPeriod text = n.text ∧ n.number = number ∧
      n.significant.length ≤ precision := by
  obtain ⟨integer, fraction, hinteger, hfraction, hne, hlength, hnumber, htext⟩ := h
  have hpoint : '.' ∉ integer := fun hmem => by simpa using hinteger _ hmem
  by_cases hzero : precision = 0
  · rw [if_pos hzero] at htext
    obtain rfl : fraction = [] := List.length_eq_zero_iff.1 (hlength.trans hzero)
    refine ⟨.ofInteger integer hinteger hne, ?_, ?_, ?_⟩
    · rw [htext, stripTrailingZerosAndPeriod, if_neg hpoint]
      simp [NumberText.text, NumberText.sign, NumberText.body, NumberText.ofInteger]
    · simpa [NumberText.number, NumberText.ofInteger] using hnumber
    · simp [NumberText.significant, NumberText.ofInteger, stripZeros]
  · rw [if_neg hzero] at htext
    have hmem : '.' ∈ text := by simp [htext]
    have hzeros : text.rdropWhile (· == '0') = integer ++ '.' :: stripZeros fraction := by
      rw [htext, rdropWhile_append_cons (by decide)]
      rfl
    have hdigits : ∀ c ∈ stripZeros fraction, c.isDigit :=
      fun c hc => hfraction c ((List.rdropWhile_prefix _ _).subset hc)
    have hle : (stripZeros fraction).length ≤ precision :=
      hlength ▸ (List.rdropWhile_prefix _ _).length_le
    have hlast (l : List Char) (hl : ∀ c ∈ l, c.isDigit) : l.rdropWhile (· == '.') = l := by
      rw [List.rdropWhile_eq_self_iff]
      intro hl' hpoint
      have hdigit := hl _ (List.getLast_mem hl')
      rw [beq_iff_eq.1 hpoint] at hdigit
      cases hdigit
    by_cases hnil : stripZeros fraction = []
    · -- nothing is left behind the point, which is cut off too
      refine ⟨.ofInteger integer hinteger hne, ?_, ?_, ?_⟩
      · rw [stripTrailingZerosAndPeriod, if_pos hmem, hzeros, hnil,
          List.rdropWhile_concat_pos _ _ _ (by decide), hlast integer hinteger]
        simp [NumberText.text, NumberText.sign, NumberText.body, NumberText.ofInteger]
      · rw [← hnumber, ← decimal_stripZeros, hnil]
        rfl
      · simp [NumberText.significant, NumberText.ofInteger, stripZeros]
    · refine ⟨.ofParts integer (stripZeros fraction) hinteger hdigits, ?_, ?_, ?_⟩
      · obtain ⟨f, c, hf⟩ := (List.eq_nil_or_concat (stripZeros fraction)).resolve_left hnil
        rw [List.concat_eq_append] at hf
        have hc : ¬ (c == '.') := by
          intro hpoint
          have hdigit := hdigits c (by simp [hf])
          rw [beq_iff_eq.1 hpoint] at hdigit
          cases hdigit
        have hassoc : integer ++ '.' :: (f ++ [c]) = integer ++ '.' :: f ++ [c] := by simp
        have hcut : (integer ++ '.' :: stripZeros fraction).rdropWhile (· == '.')
            = integer ++ '.' :: stripZeros fraction := by
          rw [hf, hassoc, List.rdropWhile_concat_neg (· == '.') _ _ hc]
        rw [stripTrailingZerosAndPeriod, if_pos hmem, hzeros, hcut]
        simp [NumberText.text, NumberText.sign, NumberText.body, NumberText.ofParts]
      · rw [← hnumber, ← decimal_stripZeros]
        rfl
      · exact (List.rdropWhile_prefix _ _).length_le.trans hle

/-- The largest unit is one with a name, unless the timescale has none. -/
theorem findAutoScale_eq (time : ℤ) (timescale : TimeScale) :
    (findAutoScale time timescale ≠ .none ∧ findAutoScale time timescale ≠ .auto) ∨
      findAutoScale time timescale = timescale.unit := by
  simp only [findAutoScale]
  split
  next => exact .inl ⟨by simp, by simp⟩
  next =>
    cases hfound : List.findSome? _ _ with
    | none => exact .inr rfl
    | some u =>
      obtain ⟨e, -, he⟩ := List.exists_of_findSome?_eq_some hfound
      split at he
      next => exact .inl (TimeUnit.fromExponent_eq_some he).2
      next => cases he

/-- Without a unit in the timescale there is nothing to choose from. -/
theorem findAutoScale_of_no_unit (time : ℤ) {timescale : TimeScale}
    (h : timescale.unit = .none ∨ timescale.unit = .auto) :
    findAutoScale time timescale = timescale.unit := by
  rcases h with h | h <;> simp [findAutoScale, h, TimeUnit.exponent]

namespace TimeFormatter

/-- The text of the time was produced without rounding. -/
def Unrounded (toText : ℚ → ℕ → List Char) (f : TimeFormatter) (time : ℤ) : Prop :=
  f.wantedUnit ≠ .none → 0 ≤ f.exponentDiff time →
    FixedPoint (toText (f.scaledTime time) (f.exponentDiff time).toNat)
      (f.exponentDiff time).toNat (f.scaledTime time)

/-- Where the floating-point number is printed exactly, nothing is rounded. -/
theorem unrounded_fixedPointText (f : TimeFormatter) {time : ℤ} (htime : 0 ≤ time) :
    f.Unrounded fixedPointText time := by
  intro _ _
  obtain ⟨k, rfl⟩ := Int.eq_ofNat_of_zero_le htime
  refine fixedPoint_fixedPointText (k := k * f.timescale.multiplier.getD 1) ?_
  rw [scaledTime]
  push_cast
  field_simp

/-- The number in front of the unit, in ticks, is the time. -/
theorem exists_numberText {toText : ℚ → ℕ → List Char} {f : TimeFormatter} {time : ℤ}
    (htime : 0 ≤ time) (hstandard : f.timescale.Standard) (hwanted : f.wantedUnit ≠ .none)
    (h : f.Unrounded toText time) :
    ∃ n : NumberText, f.timeString toText time = n.text ∧
      ticks f.timescale n.number (f.shownUnit time) = time ∧
      n.significant.length ≤ (f.exponentDiff time).toNat := by
  have hten : (10 : ℚ) ≠ 0 := by norm_num
  have hunit : (f.shownUnit time).exponent = f.exponentDiff time + f.timescale.unit.exponent := by
    simp [exponentDiff]
  have hmultiplier := hstandard.multiplier_eq
  by_cases hdiff : 0 ≤ f.exponentDiff time
  · obtain ⟨n, htext, hnumber, hplaces⟩ := (h hwanted hdiff).exists_numberText
    refine ⟨n, by rw [timeString, if_pos hdiff, htext], ?_, hplaces⟩
    obtain ⟨k, hk⟩ := Int.eq_ofNat_of_zero_le hdiff
    rw [ticks, hnumber, scaledTime, hunit, hk, hmultiplier, zpow_add₀ hten, zpow_natCast,
      Int.toNat_natCast]
    field_simp
  · have hnonneg : 0 ≤ time * (f.timescale.multiplier.getD 1 : ℕ) *
        10 ^ (-f.exponentDiff time).toNat := by positivity
    obtain ⟨n, htext, hnumber, hplaces⟩ := exists_numberText_printInt hnonneg
    refine ⟨n, by rw [timeString, if_neg hdiff, htext], ?_, by simp [hplaces]⟩
    obtain ⟨k, hk⟩ := Int.eq_ofNat_of_zero_le (by omega : 0 ≤ -f.exponentDiff time)
    have hneg : f.exponentDiff time = -(k : ℤ) := by omega
    rw [ticks, hnumber, hunit, hneg, neg_neg, Int.toNat_natCast]
    push_cast
    rw [hmultiplier, zpow_add₀ hten, zpow_neg, zpow_natCast]
    field_simp

theorem nameLetters_spec : ∀ c ∈ ['t', 'o'],
    c ≠ 's' ∧ isWhitespace c = false ∧ c ≠ '+' ∧ c.isDigit = false ∧ c ≠ '.' := by
  simp only [List.forall_mem_cons, List.not_mem_nil, false_implies, implies_true]
  decide

theorem mem_sortedUnits {u : TimeUnit} (hnone : u ≠ .none) (hauto : u ≠ .auto) :
    (u.display, u) ∈ sortedUnits := by
  cases u <;> simp_all [sortedUnits, TimeUnit.display]

theorem blank_nil : Blank [] := by simp [Blank]

/-- The space between the number and the unit. -/
def space (f : TimeFormatter) : List Char := if f.showSpace then [' '] else []

theorem blank_space (f : TimeFormatter) : Blank f.space := by
  simp only [space]
  split
  · simp [Blank, isWhitespace]
  · exact blank_nil

theorem format_eq {toText : ℚ → ℕ → List Char} {f : TimeFormatter} {time : ℤ}
    (hwanted : f.wantedUnit ≠ .none) (hshow : f.showUnit = true) :
    f.format toText time = f.timeString toText time ++ f.space ++ (f.shownUnit time).display := by
  have hne : (f.shownUnit time).display.isEmpty = false := by
    cases f.shownUnit time <;> rfl
  cases hspace : f.showSpace <;> simp [format, space, hwanted, hshow, hne, hspace]

/-- A number of ticks is read back. -/
theorem read_of_wanted_none (toText : ℚ → ℕ → List Char) {f : TimeFormatter} {time : ℤ}
    (htime : 0 ≤ time) (hwanted : f.wantedUnit = .none) :
    parseTimeStringToTicks (f.format toText time) f.timescale = some time := by
  obtain ⟨n, htext, hnumber, hwhole⟩ := exists_numberText_printInt htime
  have hinput := parseTimeInput_number n blank_nil blank_nil
  rw [List.nil_append, List.append_nil] at hinput
  obtain ⟨t, ht, ht'⟩ := read_whole f.timescale n hwhole hinput
  rw [format, if_pos hwanted, htext, ht]
  exact congrArg some (by exact_mod_cast ht'.trans hnumber)

/-- A time in a unit with a name is read back. -/
theorem read_of_named {toText : ℚ → ℕ → List Char} {f : TimeFormatter} {time : ℤ}
    (htime : 0 ≤ time) (hstandard : f.timescale.Standard) (hshow : f.showUnit = true)
    (h : f.Unrounded toText time) (hwanted : f.wantedUnit ≠ .none)
    (hnone : f.shownUnit time ≠ .none) (hauto : f.shownUnit time ≠ .auto) :
    parseTimeStringToTicks (f.format toText time) f.timescale = some time := by
  obtain ⟨n, htext, hticks, hplaces⟩ := exists_numberText htime hstandard hwanted h
  have hinput := parseTimeInput_unit n blank_nil f.blank_space blank_nil
    (mem_sortedUnits hnone hauto)
  rw [List.nil_append, List.append_nil] at hinput
  rw [format_eq hwanted hshow, htext]
  rcases read_of_unit hstandard n hnone hinput with ⟨-, htoo⟩ | hread
  · -- the places reach down to the unit of the timescale at most, which is a unit
    obtain ⟨k, hk, hdata⟩ := f.timescale.unit.exists_exponent_eq
    obtain ⟨k', hk', hshown⟩ := (f.shownUnit time).exists_exponent_eq
    simp only [exponentDiff] at hplaces
    omega
  · rw [hread, hticks, Int.floor_intCast]

/-- The name of a missing unit is not accepted. -/
theorem read_of_unnamed {toText : ℚ → ℕ → List Char} {f : TimeFormatter} {time : ℤ}
    (htime : 0 ≤ time) (hstandard : f.timescale.Standard) (hshow : f.showUnit = true)
    (h : f.Unrounded toText time) (hwanted : f.wantedUnit ≠ .none)
    (hunnamed : f.shownUnit time = .none ∨ f.shownUnit time = .auto) :
    parseTimeStringToTicks (f.format toText time) f.timescale = none := by
  obtain ⟨n, htext, -, -⟩ := exists_numberText htime hstandard hwanted h
  obtain ⟨pre, c, hdisplay, hc⟩ : ∃ pre c, (f.shownUnit time).display = pre ++ [c] ∧
      c ∈ ['t', 'o'] := by
    rcases hunnamed with hunit | hunit
    · exact ⟨['N', 'o', ' ', 'u', 'n', 'i'], 't', by rw [hunit]; rfl, by simp⟩
    · exact ⟨['A', 'u', 't'], 'o', by rw [hunit]; rfl, by simp⟩
  obtain ⟨hs, hspace, hplus, hdigit, hpoint⟩ := nameLetters_spec c hc
  have hlast : (n.text ++ f.space ++ (pre ++ [c])).getLast? = some c := by
    rw [← List.append_assoc, List.getLast?_concat]
  have htrimmed : Trimmed (n.text ++ f.space ++ (pre ++ [c])) := by
    refine ⟨fun d hd => ?_, fun d hd => ?_⟩
    · rw [List.append_assoc, List.head?_append_of_ne_nil _ n.text_ne_nil] at hd
      exact n.trimmed_text.head d hd
    · obtain rfl := Option.some.inj (hlast.symm.trans hd)
      simp [hspace]
  have htrim := trim_of_trimmed htrimmed (by simp)
  have hinput : parseTimeInput (n.text ++ f.space ++ (pre ++ [c]))
      = (n.text ++ f.space ++ (pre ++ [c]), none) := by
    rw [parseTimeInput_of_getLast? (by rw [htrim, hlast]; simpa using hs), htrim]
  rw [format_eq hwanted hshow, htext, hdisplay, parseTimeStringToTicks_of_input _ hinput]
  -- the last letter of the name is no part of a number
  cases hparts : splitNumericParts (n.text ++ f.space ++ (pre ++ [c])) with
  | error e =>
    rw [normalizeNumericWithUnit, hparts]
    rfl
  | ok parts =>
    have hmem : c ∈ trim (n.text ++ f.space ++ (pre ++ [c])) := by
      rw [htrim]
      simp
    rcases mem_of_splitNumericParts hparts hmem with h | h | h
    · exact (hplus h).elim
    · simp [hdigit] at h
    · exact (hpoint h).elim

end TimeFormatter

/-- A time is read back from its text, where that was produced without rounding, exactly if the
timescale has a unit or the unit is not chosen automatically. -/
theorem read_format_iff {toText : ℚ → ℕ → List Char} {f : TimeFormatter} {time : ℤ}
    (htime : 0 ≤ time) (hstandard : f.timescale.Standard) (hshow : f.showUnit = true)
    (h : f.Unrounded toText time) :
    parseTimeStringToTicks (f.format toText time) f.timescale = some time ↔
      ¬ (f.wantedUnit = .auto ∧ (f.timescale.unit = .none ∨ f.timescale.unit = .auto)) := by
  by_cases hwanted : f.wantedUnit = .none
  · simp [f.read_of_wanted_none toText htime hwanted, hwanted]
  by_cases hauto : f.wantedUnit = .auto
  · have hshown : f.shownUnit time = findAutoScale time f.timescale := if_pos hauto
    by_cases hunit : f.timescale.unit = .none ∨ f.timescale.unit = .auto
    · -- the name of the missing unit is shown
      have hunnamed : f.shownUnit time = .none ∨ f.shownUnit time = .auto := by
        rwa [hshown, findAutoScale_of_no_unit time hunit]
      simp [f.read_of_unnamed htime hstandard hshow h hwanted hunnamed, hauto, hunit]
    · have hnamed : f.shownUnit time ≠ .none ∧ f.shownUnit time ≠ .auto := by
        rw [hshown]
        rcases findAutoScale_eq time f.timescale with hfound | hfound
        · exact hfound
        · rw [hfound]
          exact not_or.1 hunit
      simp [f.read_of_named htime hstandard hshow h hwanted hnamed.1 hnamed.2, hunit]
  · have hshown : f.shownUnit time = f.wantedUnit := if_neg hauto
    simp [f.read_of_named htime hstandard hshow h hwanted (hshown ▸ hwanted) (hshown ▸ hauto), hauto]

/-- The default format, which shows a unit that is chosen for each time. -/
def autoFormatter (unit : TimeUnit) : TimeFormatter where
  timescale := { unit := unit, multiplier := some 10 }
  wantedUnit := .auto
  showSpace := true
  showUnit := true

theorem read_format_nanoSeconds :
    parseTimeStringToTicks ((autoFormatter .nanoSeconds).format fixedPointText 2200)
      (autoFormatter .nanoSeconds).timescale = some 2200 :=
  (read_format_iff (by decide) (by simp [autoFormatter, TimeScale.Standard]) rfl
    ((autoFormatter .nanoSeconds).unrounded_fixedPointText (by decide))).2 (by simp [autoFormatter])

/-- Five ticks of a timescale without a unit are shown with the name of the missing unit. -/
theorem not_forall_read_format :
    ¬ ∀ (toText : ℚ → ℕ → List Char) (f : TimeFormatter) (time : ℤ), 0 ≤ time →
      f.timescale.Standard → f.showUnit = true → f.Unrounded toText time →
      parseTimeStringToTicks (f.format toText time) f.timescale = some time := by
  intro hall
  have hread := hall fixedPointText (autoFormatter .none) 5 (by decide)
    (by simp [autoFormatter, TimeScale.Standard]) rfl
    ((autoFormatter .none).unrounded_fixedPointText (by decide))
  rw [(autoFormatter .none).read_of_unnamed (by decide) (by simp [autoFormatter, TimeScale.Standard])
    rfl ((autoFormatter .none).unrounded_fixedPointText (by decide)) (by simp [autoFormatter])
    (.inl (by simp [TimeFormatter.shownUnit, autoFormatter, findAutoScale, TimeUnit.exponent]))] at hread
  cases hread

end Time
