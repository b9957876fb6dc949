import Kahuna.Time.Basic

/-!
# Reading times

`parseTimeStringToTicks` on every text that is a number, with or without a unit.

* `NumberText`: the texts that are numbers, with the number they denote;
* `parseTimeInput_text`: the number and the unit are told apart;
* `parse_with_unit`: with a unit, the exact number of ticks, rounded down, or nothing where the
  number has more places than the finest unit;
* `reads_iff`: without a unit, digits behind the point make the text a time in seconds, so that it
  names no such number of ticks.
-/

namespace Time

open Numerals Text

/-- A text that is a non-negative decimal number. -/
structure NumberText where
  plus : Bool
  integer : List Char
  fraction : Option (List Char)
  integer_digits : ∀ c ∈ integer, c.isDigit
  fraction_digits : ∀ c ∈ fraction.getD [], c.isDigit
  nonempty : integer ≠ [] ∨ fraction.isSome

namespace NumberText

variable (n : NumberText)

/-- The sign in front of the number, if there is one. -/
def sign : List Char := if n.plus then ['+'] else []

/-- The digits and the point. -/
def body : List Char :=
  match n.fraction with
  | some fraction => n.integer ++ '.' :: fraction
  | none => n.integer

/-- The text itself. -/
def text : List Char := n.sign ++ n.body

/-- The number it denotes. -/
def number : ℚ := decimal n.integer (n.fraction.getD [])

/-- The digits behind the point, without the zeros at the end. -/
def significant : List Char := stripZeros (n.fraction.getD [])

theorem mem_body {c : Char} (hc : c ∈ n.body) : c.isDigit ∨ c = '.' := by
  have hfraction := n.fraction_digits
  simp only [body] at hc
  split at hc
  next fraction hsome =>
    rw [hsome] at hfraction
    rcases List.mem_append.1 hc with hc | hc
    · exact .inl (n.integer_digits c hc)
    · rcases List.mem_cons.1 hc with hc | hc
      · exact .inr hc
      · exact .inl (hfraction c hc)
  next => exact .inl (n.integer_digits c hc)

theorem body_ne_nil : n.body ≠ [] := by
  have hne := n.nonempty
  simp only [body]
  split
  next => simp
  next hnone => simpa [hnone] using hne

theorem text_ne_nil : n.text ≠ [] := by simp [text, n.body_ne_nil]

/-- The text ends in a digit or in the point. -/
theorem getLast?_text {c : Char} (hc : n.text.getLast? = some c) : c.isDigit ∨ c = '.' := by
  rw [text, List.getLast?_append_of_ne_nil _ n.body_ne_nil] at hc
  exact n.mem_body (List.mem_of_getLast? hc)

theorem mem_text {c : Char} (hc : c ∈ n.text) : c = '+' ∨ c.isDigit ∨ c = '.' := by
  rcases List.mem_append.1 hc with hc | hc
  · simp only [sign] at hc
    split at hc
    · exact .inl (List.mem_singleton.1 hc)
    · cases hc
  · exact .inr (n.mem_body hc)

theorem not_isWhitespace_of_mem_text {c : Char} (hc : c ∈ n.text) : ¬ isWhitespace c := by
  rcases n.mem_text hc with rfl | hdigit | rfl
  · decide
  · exact not_isWhitespace_of_isDigit hdigit
  · decide

theorem trimmed_text : Trimmed n.text where
  head _ hc := n.not_isWhitespace_of_mem_text (List.mem_of_head? hc)
  last _ hc := n.not_isWhitespace_of_mem_text (List.mem_of_getLast? hc)

end NumberText

/-- The letters that units have in front of the last one. -/
def unitLetters : List Char := ['z', 'a', 'f', 'p', 'n', 'μ', 'u', 'm']

theorem unitLetters_spec :
    ∀ x ∈ unitLetters, x.isDigit = false ∧ x ≠ '.' ∧ isWhitespace x = false := by
  simp only [unitLetters, List.forall_mem_cons, List.not_mem_nil, false_implies, implies_true]
  decide

theorem sortedUnits_form : ∀ u ∈ sortedUnits, u.1 = ['s'] ∨ ∃ x ∈ unitLetters, u.1 = [x, 's'] := by
  simp [sortedUnits, unitLetters]

/-- The unit of one letter comes last, and no unit comes twice. -/
theorem sortedUnits_pairwise : sortedUnits.Pairwise fun a b => a.1 ≠ ['s'] ∧ a.1 ≠ b.1 := by
  decide

/-- A text ends with a unit of two letters if the first of them comes before the last one. -/
theorem pair_suffix_iff {x : Char} {l : List Char} :
    [x, 's'] <:+ l ++ ['s'] ↔ l.getLast? = some x := by
  have hpair : [x, 's'] = [x] ++ ['s'] := rfl
  rw [hpair, List.suffix_append_self_iff, List.suffix_iff_exists_eq_append,
    List.getLast?_eq_some_iff]

namespace NumberText

variable (n : NumberText) {gap : List Char}

/-- Before the unit there is a digit, the point or white space. -/
theorem getLast?_text_append (hgap : Blank gap) {x : Char} (hx : x ∈ unitLetters) :
    (n.text ++ gap).getLast? ≠ some x := by
  intro hlast
  have hletter := unitLetters_spec x hx
  rcases List.eq_nil_or_concat gap with rfl | ⟨blank, c, rfl⟩
  · rw [List.append_nil] at hlast
    rcases n.getLast?_text hlast with hdigit | hpoint
    · simp [hletter.1] at hdigit
    · exact hletter.2.1 hpoint
  · rw [List.concat_eq_append, ← List.append_assoc, List.getLast?_concat, Option.some.injEq] at hlast
    have hspace := hgap c (by simp)
    simp [hlast, hletter.2.2] at hspace

/-- A unit that comes before the one at the end is not found. -/
theorem not_suffix (hgap : Blank gap) {a u : List Char × TimeUnit} (ha : a ∈ sortedUnits)
    (hu : u ∈ sortedUnits) (hne : a.1 ≠ ['s'] ∧ a.1 ≠ u.1) : ¬ a.1 <:+ n.text ++ gap ++ u.1 := by
  obtain ⟨x, hx, hpair⟩ := (sortedUnits_form a ha).resolve_left hne.1
  rw [hpair]
  rcases sortedUnits_form u hu with hsingle | ⟨y, -, hpair'⟩
  · rw [hsingle, pair_suffix_iff]
    exact n.getLast?_text_append hgap hx
  · have hsplit : n.text ++ gap ++ [y, 's'] = (n.text ++ gap ++ [y]) ++ ['s'] := by simp
    rw [hpair', hsplit, pair_suffix_iff, List.getLast?_concat, Option.some.injEq]
    rintro rfl
    exact hne.2 (hpair.trans hpair'.symm)

end NumberText

theorem numericBefore_of_not_suffix {trimmed unitStr : List Char} (h : ¬ unitStr <:+ trimmed) :
    numericBefore trimmed unitStr = none := if_neg h

/-- The unit is cut off, and the white space in front of it. -/
theorem numericBefore_append (n : NumberText) {gap : List Char} (hgap : Blank gap)
    (unitStr : List Char) : numericBefore (n.text ++ gap ++ unitStr) unitStr = some n.text := by
  have hpos : 0 < (n.text ++ gap ++ unitStr).length - unitStr.length := by
    have := List.length_pos_iff.2 n.text_ne_nil
    simp only [List.length_append]
    omega
  have htake : (n.text ++ gap ++ unitStr).take ((n.text ++ gap ++ unitStr).length - unitStr.length)
      = n.text ++ gap := by
    rw [List.length_append, Nat.add_sub_cancel, List.take_left]
  have htrim : trimEnd (n.text ++ gap) = n.text := by
    rw [trimEnd_append_blank hgap, trimEnd_of_last n.trimmed_text.last]
  obtain ⟨c, hc⟩ : ∃ c, n.text.getLast? = some c :=
    ⟨_, List.getLast?_eq_some_getLast n.text_ne_nil⟩
  have hlast := n.getLast?_text hc
  simp only [numericBefore, List.suffix_append, if_true, hpos, htake, htrim, hc, hlast]

/-- What a text with a unit is cut into. -/
theorem parseTimeInput_unit (n : NumberText) {lead gap trail : List Char} (hlead : Blank lead)
    (hgap : Blank gap) (htrail : Blank trail) {u : List Char × TimeUnit} (hu : u ∈ sortedUnits) :
    parseTimeInput (lead ++ (n.text ++ gap ++ u.1) ++ trail) = (n.text, some u.2) := by
  have hlast : (n.text ++ gap ++ u.1).getLast? = some 's' := by
    rcases sortedUnits_form u hu with hsingle | ⟨x, -, hpair⟩
    · simp [hsingle]
    · simp [hpair]
  have htrimmed : Trimmed (n.text ++ gap ++ u.1) := by
    refine ⟨fun c hc => ?_, fun c hc => ?_⟩
    · rw [List.append_assoc, List.head?_append_of_ne_nil _ n.text_ne_nil] at hc
      exact n.trimmed_text.head c hc
    · obtain rfl := Option.some.inj (hlast.symm.trans hc)
      decide
  have htrim := trim_append_append hlead htrimmed (by simp [n.text_ne_nil]) htrail
  obtain ⟨before, after, hsplit⟩ := List.append_of_mem hu
  -- the units before the right one do not end the text
  have hfound : sortedUnits.findSome? (fun unit =>
      (numericBefore (n.text ++ gap ++ u.1) unit.1).map fun numeric => (numeric, some unit.2))
      = some (n.text, some u.2) := by
    rw [List.findSome?_eq_some_iff]
    refine ⟨before, u, after, hsplit, ?_, fun a ha => ?_⟩
    · rw [numericBefore_append n hgap]
      rfl
    · have hpairwise := sortedUnits_pairwise
      rw [hsplit, List.pairwise_append] at hpairwise
      have hne := hpairwise.2.2 a ha u List.mem_cons_self
      have hmem : a ∈ sortedUnits := by simp [hsplit, ha]
      rw [numericBefore_of_not_suffix (n.not_suffix hgap hmem hu hne)]
      rfl
  simp only [parseTimeInput, htrim, hfound]

/-- A text that does not end in the last letter of the units has none. -/
theorem parseTimeInput_of_getLast? {input : List Char} (h : (trim input).getLast? ≠ some 's') :
    parseTimeInput input = (trim input, none) := by
  have hnone : sortedUnits.findSome? (fun unit =>
      (numericBefore (trim input) unit.1).map fun numeric => (numeric, some unit.2)) = none := by
    rw [List.findSome?_eq_none_iff]
    intro u hu
    have hsuffix : ¬ u.1 <:+ trim input := by
      rintro ⟨pre, hpre⟩
      refine h ?_
      rw [← hpre]
      rcases sortedUnits_form u hu with hsingle | ⟨x, -, hpair⟩
      · simp [hsingle]
      · simp [hpair]
    rw [numericBefore_of_not_suffix hsuffix]
    rfl
  simp only [parseTimeInput, hnone]

/-- What a text without a unit is cut into. -/
theorem parseTimeInput_number (n : NumberText) {lead trail : List Char} (hlead : Blank lead)
    (htrail : Blank trail) : parseTimeInput (lead ++ n.text ++ trail) = (n.text, none) := by
  have htrim := trim_append_append hlead n.trimmed_text n.text_ne_nil htrail
  have hlast : n.text.getLast? ≠ some 's' := by
    intro h
    rcases n.getLast?_text h with hdigit | hpoint
    · cases hdigit
    · cases hpoint
  rw [parseTimeInput_of_getLast? (by rwa [htrim]), htrim]

namespace NumberText

variable (n : NumberText)

/-- The digits in front of the point, where none stand for a zero. -/
def integerPart : List Char := if n.integer.isEmpty then ['0'] else n.integer

theorem splitOn_body :
    n.body.splitOn '.' = match n.fraction with
      | some fraction => [n.integer, fraction]
      | none => [n.integer] := by
  have hinteger : '.' ∉ n.integer := fun h => by simpa using n.integer_digits _ h
  have hfraction := n.fraction_digits
  have hcut : n.body = ['.'].intercalate
      (match n.fraction with
        | some fraction => [n.integer, fraction]
        | none => [n.integer]) := by
    cases hsome : n.fraction <;> simp [body, hsome, List.intercalate]
  rw [hcut, List.splitOn_intercalate]
  · intro l hl
    cases hsome : n.fraction with
    | none =>
      rw [hsome, List.mem_singleton] at hl
      exact hl ▸ hinteger
    | some fraction =>
      simp only [hsome, List.mem_cons, List.not_mem_nil, or_false] at hl
      rcases hl with rfl | rfl
      · exact hinteger
      · rw [hsome] at hfraction
        intro h
        simpa using hfraction _ h
  · cases n.fraction <;> simp

/-- The sign is dropped. -/
theorem normalized_text :
    (if n.text.head? = some '+' then n.text.tail else n.text) = n.body := by
  cases hplus : n.plus with
  | true => simp [text, sign, hplus]
  | false =>
    have hhead : n.text.head? ≠ some '+' := by
      intro h
      have hmem : '+' ∈ n.body := by simpa [text, sign, hplus] using List.mem_of_head? h
      rcases n.mem_body hmem with hdigit | hpoint
      · cases hdigit
      · cases hpoint
    rw [if_neg hhead]
    simp [text, sign, hplus]

theorem splitNumericParts_text :
    splitNumericParts n.text = .ok (n.integerPart, n.fraction.getD []) := by
  have hminus : n.text.head? ≠ some '-' := by
    intro h
    rcases n.mem_text (List.mem_of_head? h) with hc | hc | hc <;> cases hc
  have hempty : n.text.isEmpty = false := by simpa using n.text_ne_nil
  have hdigits : (n.integer ++ n.fraction.getD []).all Char.isDigit = true := by
    simpa [or_imp, forall_and] using ⟨n.integer_digits, n.fraction_digits⟩
  simp only [splitNumericParts, trim_of_trimmed n.trimmed_text n.text_ne_nil, hempty, hminus,
    n.normalized_text, n.splitOn_body]
  cases hsome : n.fraction with
  | none =>
    rw [hsome] at hdigits
    simpa [integerPart] using hdigits
  | some fraction =>
    rw [hsome] at hdigits
    simpa [integerPart] using hdigits

theorem value_integerPart : value 10 n.integerPart = value 10 n.integer := by
  simp only [integerPart]
  split
  next hempty =>
    rw [List.isEmpty_iff.1 hempty]
    rfl
  next => rfl

theorem isNumeral_integerPart : IsNumeral 10 n.integerPart := by
  rw [isNumeral_ten]
  simp only [integerPart]
  split
  · simp
  · exact n.integer_digits

theorem integerPart_ne_nil : n.integerPart ≠ [] := by
  simp only [integerPart]
  split
  · simp
  next hempty => simpa using hempty

theorem isNumeral_significant : IsNumeral 10 n.significant :=
  isNumeral_stripZeros (isNumeral_ten.2 n.fraction_digits)

/-- The number in units of its last place. -/
theorem parseNat_significant :
    (((parseNat (n.integerPart ++ n.significant)).getD 0 : ℕ) : ℚ)
      = n.number * 10 ^ n.significant.length := by
  have hnumeral : IsNumeral 10 (n.integerPart ++ n.significant) :=
    isNumeral_append.2 ⟨n.isNumeral_integerPart, n.isNumeral_significant⟩
  have hne : n.integerPart ++ n.significant ≠ [] := by simp [n.integerPart_ne_nil]
  rw [parseNat, if_pos ⟨hne, hnumeral⟩, Option.getD_some, value_append_eq_decimal, significant,
    decimal_stripZeros]
  simp only [decimal, n.value_integerPart, number]

end NumberText

/-- With at most one point, every other character is on one side of it. -/
theorem mem_of_splitOn {l : List Char} {c : Char} (h : (l.splitOn '.')[2]? = none) (hc : c ∈ l) :
    c ∈ (l.splitOn '.')[0]?.getD [] ++ (l.splitOn '.')[1]?.getD [] ∨ c = '.' := by
  have hjoin : ['.'].intercalate (l.splitOn '.') = l := List.intercalate_splitOn '.'
  rw [← hjoin] at hc
  revert h hc
  rcases l.splitOn '.' with - | ⟨a, - | ⟨b, - | ⟨d, rest⟩⟩⟩
  · simp
  · intro _ hc
    exact .inl (by simpa [List.intercalate] using hc)
  · intro _ hc
    have hcut : c ∈ a ++ '.' :: b := by simpa [List.intercalate] using hc
    rcases List.mem_append.1 hcut with ha | hb
    · exact .inl (List.mem_append_left _ ha)
    · rcases List.mem_cons.1 hb with hpoint | hb
      · exact .inr hpoint
      · exact .inl (List.mem_append_right _ hb)
  · simp

/-- What is accepted as a number consists of digits, points and signs. -/
theorem mem_of_splitNumericParts {l : List Char} {parts : List Char × List Char}
    (h : splitNumericParts l = .ok parts) {c : Char} (hc : c ∈ trim l) :
    c = '+' ∨ c.isDigit ∨ c = '.' := by
  simp only [splitNumericParts] at h
  generalize hnormalized :
    (if (trim l).head? = some '+' then (trim l).tail else trim l) = normalized at h
  -- a sign may be dropped, everything else is in the parts
  have hmem : c = '+' ∨ c ∈ normalized := by
    rw [← hnormalized]
    split
    next hplus =>
      obtain ⟨tail, htail⟩ := List.head?_eq_some_iff.1 hplus
      rw [htail, List.mem_cons] at hc
      rw [htail]
      exact hc
    next => exact .inr hc
  rcases hmem with hplus | hmem
  · exact .inl hplus
  · split at h
    · cases h
    split at h
    · cases h
    split at h
    · cases h
    next hthird =>
      split at h
      next hdigits =>
        rcases mem_of_splitOn (by simpa using hthird) hmem with hpart | hpoint
        · exact .inr (.inl (List.all_eq_true.1 hdigits c hpart))
        · exact .inr (.inr hpoint)
      next => cases h

theorem TimeUnit.fromExponent_eq_some {e : ℤ} {u : TimeUnit} (h : TimeUnit.fromExponent e = some u) :
    u.exponent = e ∧ u ≠ .none ∧ u ≠ .auto := by
  simp only [fromExponent] at h
  split_ifs at h
  all_goals
    cases h
    simp_all [exponent]

/-- Every third exponent down to that of the smallest unit belongs to a unit. -/
theorem TimeUnit.fromExponent_ne_none {k : ℕ} (hk : k ≤ 7) :
    TimeUnit.fromExponent (-(k * 3 : ℕ)) ≠ Option.none := by
  interval_cases k <;> simp [fromExponent]

theorem TimeUnit.exists_exponent_eq (u : TimeUnit) : ∃ k ≤ 7, u.exponent = -(k * 3 : ℕ) := by
  cases u
  exacts [⟨7, by decide⟩, ⟨6, by decide⟩, ⟨5, by decide⟩, ⟨4, by decide⟩, ⟨3, by decide⟩,
    ⟨2, by decide⟩, ⟨1, by decide⟩, ⟨0, by decide⟩, ⟨0, by decide⟩, ⟨0, by decide⟩]

/-- What becomes of a number and its unit: nothing is lost, or the places are too many. -/
inductive Normalized (n : NumberText) (u : TimeUnit) : Prop where
  /-- The number is whole. -/
  | whole {v : ℕ} (hv : (v : ℚ) = n.number) (hwhole : n.significant = [])
      (hresult : normalizeNumericWithUnit n.text u = .ok (v, u))
  /-- The number has more places than the unit can be divided into. -/
  | refused {e : String} (hplaces : 21 < n.significant.length ∨
        u.exponent - n.significant.length < -21)
      (hresult : normalizeNumericWithUnit n.text u = .error e)
  /-- The number is a whole number of a smaller unit. -/
  | smaller {v : ℕ} {newUnit : TimeUnit} (hplaces : n.significant ≠ [])
      (hle : n.significant.length ≤ 21) (hunit : newUnit ≠ .none)
      (hv : (v : ℚ) * 10 ^ newUnit.exponent = n.number * 10 ^ u.exponent)
      (hresult : normalizeNumericWithUnit n.text u = .ok (v, newUnit))

theorem normalizeNumericWithUnit_text (n : NumberText) (u : TimeUnit) :
    normalizeNumericWithUnit n.text u =
      if n.significant.isEmpty then .ok (((parseNat n.integerPart).getD 0 : ℕ), u)
      else if 21 < n.significant.length then .error "Too many decimal places (max 21 supported)"
      else
        match TimeUnit.fromExponent (u.exponent - ((n.significant.length + 2) / 3 : ℕ) * 3) with
        | none => .error "Too much precision for available time units"
        | some newUnit =>
          .ok (((parseNat (n.integerPart ++ n.significant)).getD 0 : ℕ) *
            10 ^ ((n.significant.length + 2) / 3 * 3 - n.significant.length), newUnit) := by
  rw [normalizeNumericWithUnit, n.splitNumericParts_text]
  rfl

/-- Moving the point to the right and the unit down leaves the time as it is. -/
theorem shift_eq (q : ℚ) {L s : ℕ} (h : L ≤ s) (e : ℤ) :
    q * 10 ^ L * 10 ^ (s - L) * 10 ^ (e - (s : ℕ) : ℤ) = q * 10 ^ e := by
  have hten : (10 : ℚ) ≠ 0 := by norm_num
  have hpow : (10 : ℚ) ^ s ≠ 0 := by positivity
  rw [mul_assoc q, ← pow_add, Nat.add_sub_cancel' h, zpow_sub₀ hten, zpow_natCast]
  field_simp

theorem normalized (n : NumberText) (u : TimeUnit) : Normalized n u := by
  have hv := n.parseNat_significant
  have hresult := normalizeNumericWithUnit_text n u
  by_cases hwhole : n.significant = []
  · simp only [hwhole, List.append_nil, List.length_nil, pow_zero, mul_one] at hv
    exact .whole hv hwhole (by simpa [hwhole] using hresult)
  · rw [if_neg (by simpa using hwhole)] at hresult
    by_cases hle : n.significant.length ≤ 21
    · rw [if_neg (by omega)] at hresult
      obtain ⟨k, hk, hexponent⟩ := u.exists_exponent_eq
      cases hunit : TimeUnit.fromExponent
          (u.exponent - ((n.significant.length + 2) / 3 : ℕ) * 3) with
      | none =>
        rw [hunit] at hresult
        refine .refused (.inr ?_) hresult
        -- every exponent down to that of the smallest unit would have been found
        by_contra hge
        have hsum : u.exponent - ((n.significant.length + 2) / 3 : ℕ) * 3
            = -((k + (n.significant.length + 2) / 3) * 3 : ℕ) := by omega
        rw [hsum] at hunit
        exact TimeUnit.fromExponent_ne_none (by omega) hunit
      | some newUnit =>
        rw [hunit] at hresult
        obtain ⟨hnew, hnone, -⟩ := TimeUnit.fromExponent_eq_some hunit
        refine .smaller hwhole hle hnone ?_ (by exact_mod_cast hresult)
        have hshift := shift_eq n.number (L := n.significant.length)
          (s := (n.significant.length + 2) / 3 * 3) (by omega) u.exponent
        rw [Nat.cast_mul, hv, hnew]
        push_cast at hshift ⊢
        exact hshift
    · rw [if_pos (by omega)] at hresult
      exact .refused (.inl (by omega)) hresult

/-- Scaling rounds down. -/
theorem scaleTime_eq (v : ℕ) (diff : ℤ) (timescale : TimeScale) :
    scaleTime v diff timescale = some ⌊(v : ℚ) * 10 ^ (diff - timescale.multiplierDigits)⌋ := by
  simp only [scaleTime]
  generalize diff - timescale.multiplierDigits = e
  split
  next hpos =>
    obtain ⟨k, rfl⟩ := Int.eq_ofNat_of_zero_le hpos.le
    have hint : (v : ℚ) * 10 ^ (k : ℤ) = ((v * 10 ^ k : ℤ) : ℚ) := by
      push_cast
      rw [zpow_natCast]
    rw [hint, Int.floor_intCast, Int.toNat_natCast]
  next =>
    split
    next hneg =>
      obtain ⟨k, hk⟩ := Int.eq_ofNat_of_zero_le (by omega : 0 ≤ -e)
      have hdiv : (v : ℚ) * 10 ^ e = (v : ℚ) / (10 ^ k : ℕ) := by
        rw [← neg_neg e, hk, zpow_neg, zpow_natCast, div_eq_mul_inv]
        push_cast
        rfl
      rw [hdiv, Rat.floor_natCast_div_natCast, hk, Int.toNat_natCast,
        Int.tdiv_eq_ediv_of_nonneg (by omega)]
      push_cast
      rfl
    next =>
      obtain rfl : e = 0 := by omega
      simp

/-- The power of ten of a standard timescale is its multiplier. -/
theorem TimeScale.Standard.multiplier_eq {timescale : TimeScale} (h : timescale.Standard) :
    ((timescale.multiplier.getD 1 : ℕ) : ℚ) = 10 ^ timescale.multiplierDigits := by
  simp only [Standard, List.mem_cons, List.not_mem_nil, or_false] at h
  rcases h with h | h | h | h <;> norm_num [multiplierDigits, h]

/-- The ticks in a number of units. -/
def ticks (timescale : TimeScale) (number : ℚ) (unit : TimeUnit) : ℚ :=
  number * 10 ^ unit.exponent /
    ((timescale.multiplier.getD 1 : ℕ) * 10 ^ timescale.unit.exponent)

theorem scaleTime_eq_floor_ticks {timescale : TimeScale} (h : timescale.Standard) {v : ℕ}
    {newUnit unit : TimeUnit} {number : ℚ}
    (hv : (v : ℚ) * 10 ^ newUnit.exponent = number * 10 ^ unit.exponent) :
    scaleTime v (newUnit.exponent - timescale.unit.exponent) timescale
      = some ⌊ticks timescale number unit⌋ := by
  have hten : (10 : ℚ) ≠ 0 := by norm_num
  rw [scaleTime_eq, ticks, ← hv, h.multiplier_eq, zpow_sub₀ hten, zpow_sub₀ hten, zpow_natCast]
  congr 2
  field_simp

/-- The ticks in a normalized number, if there is one. -/
def ticksOf (timescale : TimeScale) : Except String (ℤ × TimeUnit) → Option ℤ
  | .error _ => none
  | .ok (value, normalizedUnit) =>
    if normalizedUnit = .none then some value
    else scaleTime value (normalizedUnit.exponent - timescale.unit.exponent) timescale

theorem parseTimeStringToTicks_of_input (timescale : TimeScale) {input numericStr : List Char}
    {unitOpt : Option TimeUnit} (hinput : parseTimeInput input = (numericStr, unitOpt)) :
    parseTimeStringToTicks input timescale
      = ticksOf timescale (normalizeNumericWithUnit numericStr (unitOpt.getD .none)) := by
  simp only [parseTimeStringToTicks, hinput]
  rfl

/-- What is read from a number and its unit, however they were found. -/
theorem read_of_unit {timescale : TimeScale} (h : timescale.Standard) (n : NumberText)
    {unit : TimeUnit} (hunit : unit ≠ .none) {input : List Char}
    (hinput : parseTimeInput input = (n.text, some unit)) :
    (parseTimeStringToTicks input timescale = none ∧
        (21 < n.significant.length ∨ unit.exponent - n.significant.length < -21)) ∨
      parseTimeStringToTicks input timescale = some ⌊ticks timescale n.number unit⌋ := by
  have hread := parseTimeStringToTicks_of_input timescale hinput
  rw [Option.getD_some] at hread
  cases normalized n unit with
  | whole hv _ hresult =>
    rw [hresult] at hread
    simp only [ticksOf, hunit, if_false] at hread
    exact .inr (hread.trans (scaleTime_eq_floor_ticks h (by rw [hv])))
  | refused hplaces hresult =>
    rw [hresult] at hread
    exact .inl ⟨hread, hplaces⟩
  | smaller _ _ hnone hv hresult =>
    rw [hresult] at hread
    simp only [ticksOf, hnone, if_false] at hread
    exact .inr (hread.trans (scaleTime_eq_floor_ticks h hv))

/-- A text that is a number, with or without a unit, and with white space around both. -/
structure TimeText where
  number : NumberText
  unit : Option (List Char × TimeUnit)
  lead : List Char
  gap : List Char
  trail : List Char
  unit_mem : ∀ u, unit = some u → u ∈ sortedUnits
  lead_blank : Blank lead
  gap_blank : Blank gap
  trail_blank : Blank trail

namespace TimeText

/-- The text itself. -/
def text (x : TimeText) : List Char :=
  x.lead ++ (x.number.text ++ x.gap ++ (x.unit.map Prod.fst).getD []) ++ x.trail

theorem parseTimeInput_text (x : TimeText) :
    parseTimeInput x.text = (x.number.text, x.unit.map Prod.snd) := by
  cases hunit : x.unit with
  | some u =>
    have hcut := parseTimeInput_unit x.number x.lead_blank x.gap_blank x.trail_blank
      (x.unit_mem u hunit)
    simpa [text, hunit] using hcut
  | none =>
    -- the white space behind the number is that around the whole text
    have hblank : Blank (x.gap ++ x.trail) := by
      intro c hc
      rcases List.mem_append.1 hc with hc | hc
      · exact x.gap_blank c hc
      · exact x.trail_blank c hc
    have hcut := parseTimeInput_number x.number x.lead_blank hblank
    simpa [text, hunit, List.append_assoc] using hcut

/-- With a unit, the text is read as the time rounded down to ticks, or rejected because it has too
many places. Without a unit, it is read as exactly that many ticks, or rejected. -/
def ReadExactly (x : TimeText) (timescale : TimeScale) : Prop :=
  match x.unit with
  | some u =>
    (parseTimeStringToTicks x.text timescale = none ∧
        (21 < x.number.significant.length ∨ u.2.exponent - x.number.significant.length < -21)) ∨
      parseTimeStringToTicks x.text timescale = some ⌊ticks timescale x.number.number u.2⌋
  | none =>
    parseTimeStringToTicks x.text timescale = none ∨
      ∃ t : ℤ, parseTimeStringToTicks x.text timescale = some t ∧ (t : ℚ) = x.number.number

end TimeText

theorem sortedUnits_ne_none : ∀ u ∈ sortedUnits, u.2 ≠ .none := by
  decide

/-- A whole number without a unit is read as that many ticks. -/
theorem read_whole (timescale : TimeScale) (n : NumberText) (hwhole : n.significant = [])
    {input : List Char} (hinput : parseTimeInput input = (n.text, none)) :
    ∃ t : ℤ, parseTimeStringToTicks input timescale = some t ∧ (t : ℚ) = n.number := by
  have hread := parseTimeStringToTicks_of_input timescale hinput
  rw [Option.getD_none] at hread
  cases normalized n .none with
  | whole hv _ hresult =>
    rw [hresult] at hread
    exact ⟨_, hread, by exact_mod_cast hv⟩
  | refused hplaces _ =>
    simp only [hwhole, List.length_nil, TimeUnit.exponent] at hplaces
    omega
  | smaller hplaces _ _ _ _ => exact (hplaces hwhole).elim

/-- What is read from a number without a unit. -/
theorem read_of_number (timescale : TimeScale) (n : NumberText) {input : List Char}
    (hinput : parseTimeInput input = (n.text, none)) :
    (parseTimeStringToTicks input timescale = none ∨
      ∃ t : ℤ, parseTimeStringToTicks input timescale = some t ∧ (t : ℚ) = n.number) ↔
      n.significant = [] ∨ 21 < n.significant.length := by
  have hread := parseTimeStringToTicks_of_input timescale hinput
  rw [Option.getD_none] at hread
  cases normalized n .none with
  | whole hv hwhole hresult =>
    exact ⟨fun _ => .inl hwhole, fun _ => .inr (read_whole timescale n hwhole hinput)⟩
  | refused hplaces hresult =>
    rw [hresult] at hread
    have hlong : 21 < n.significant.length := by
      simp only [TimeUnit.exponent] at hplaces
      omega
    exact ⟨fun _ => .inr hlong, fun _ => .inl hread⟩
  | smaller hplaces hle hnone _ hresult =>
    -- the places make it a time in seconds, and the number itself is not whole
    rw [hresult] at hread
    simp only [ticksOf, hnone, if_false, scaleTime_eq] at hread
    constructor
    · rintro (h | ⟨t, -, ht⟩)
      · rw [h] at hread
        cases hread
      · exact (decimal_ne_intCast (isNumeral_ten.2 n.fraction_digits) hplaces t ht).elim
    · rintro (h | h)
      · exact (hplaces h).elim
      · omega

/-- A text is read exactly if it has a unit, or names a whole number of ticks, or has more digits
behind the point than any unit. Otherwise a number without a unit is read as one of seconds. -/
theorem readExactly_iff (x : TimeText) {timescale : TimeScale} (h : timescale.Standard) :
    x.ReadExactly timescale ↔
      x.unit.isSome ∨ x.number.significant = [] ∨ 21 < x.number.significant.length := by
  have hinput := x.parseTimeInput_text
  cases hunit : x.unit with
  | some u =>
    rw [hunit] at hinput
    have hne := sortedUnits_ne_none u (x.unit_mem u hunit)
    simpa [TimeText.ReadExactly, hunit] using read_of_unit h x.number hne hinput
  | none =>
    rw [hunit] at hinput
    simpa [TimeText.ReadExactly, hunit] using read_of_number timescale x.number hinput

/-- The text of one and a half, with a unit or without. -/
def oneAndAHalf (unit : Option (List Char × TimeUnit)) (h : ∀ u, unit = some u → u ∈ sortedUnits) :
    TimeText where
  number :=
    { plus := false
      integer := ['1']
      fraction := some ['5']
      integer_digits := by simp
      fraction_digits := by simp
      nonempty := by simp }
  unit := unit
  lead := []
  gap := []
  trail := []
  unit_mem := h
  lead_blank := by simp [Blank]
  gap_blank := by simp [Blank]
  trail_blank := by simp [Blank]

theorem readExactly_oneAndAHalf :
    (oneAndAHalf (some (['m', 's'], .milliSeconds)) (by simp [sortedUnits])).ReadExactly
      { unit := .nanoSeconds, multiplier := some 10 } :=
  (readExactly_iff _ (by simp [TimeScale.Standard])).2 (.inl rfl)

/-- One and a half without a unit is read as one and a half seconds. -/
theorem not_forall_readExactly :
    ¬ ∀ (x : TimeText) (timescale : TimeScale), timescale.Standard → x.ReadExactly timescale := by
  intro hall
  have hseconds : parseTimeStringToTicks (oneAndAHalf none (by simp)).text
      { unit := .nanoSeconds, multiplier := none } = some 1500000000 := by
    decide
  rcases hall (oneAndAHalf none (by simp)) { unit := .nanoSeconds, multiplier := none }
    (by simp [TimeScale.Standard]) with h | ⟨t, ht, hnumber⟩
  · rw [hseconds] at h
    cases h
  · rw [hseconds, Option.some.injEq] at ht
    exact decimal_ne_intCast (by decide : IsNumeral 10 ['5']) (by decide) t hnumber

end Time
