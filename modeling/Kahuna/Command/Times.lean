import Kahuna.Command.Parser
import Kahuna.Text.Separators
import Kahuna.Time.Parse

/-!
# The times of a command

How `zoom_to` and `marker_set_at` cut times out of their argument. The argument is split at white space, and a number
and the unit behind it are put together again.

* `timeWords`: the words of a text that is a time;
* `zoomRange_eq_some_iff`: `zoom_to` takes both times if each of them begins with a digit;
* `markerSetAt_eq_some_iff`: `marker_set_at` takes the time unless the name makes it longer.
-/

namespace CommandParser

open Numerals Text Time

/-! ## Words -/

variable {c : Char} {l m w text : List Char} {ws : List (List Char)}

theorem splitWhitespace_append_cons (hc : isWhitespace c = true) (l m : List Char) :
    splitWhitespace (l ++ c :: m) = splitWhitespace l ++ splitWhitespace m := by
  rw [splitWhitespace, List.splitOnP_append_cons l m hc, List.filter_append, splitWhitespace, splitWhitespace]

theorem splitWhitespace_word (hne : w ≠ []) (h : ∀ c ∈ w, isWhitespace c = false) : splitWhitespace w = [w] := by
  rw [splitWhitespace, List.splitOnP_eq_singleton h]
  simp [hne]

/-- White space in front of a text does not matter. -/
theorem splitWhitespace_blank_append (h : Blank m) (l : List Char) : splitWhitespace (m ++ l) = splitWhitespace l := by
  induction m with
  | nil => rfl
  | cons c m ih =>
    have hcons := splitWhitespace_append_cons (h c List.mem_cons_self) [] (m ++ l)
    rw [List.nil_append] at hcons
    rw [List.cons_append, hcons, ih fun d hd => h d (List.mem_cons_of_mem _ hd)]
    rfl

/-- White space behind a text does not matter. -/
theorem splitWhitespace_append_blank (h : Blank m) (l : List Char) : splitWhitespace (l ++ m) = splitWhitespace l := by
  cases m with
  | nil => rw [List.append_nil]
  | cons c m =>
    have hblank := splitWhitespace_blank_append (fun d hd => h d (List.mem_cons_of_mem _ hd) : Blank m) []
    rw [List.append_nil] at hblank
    rw [splitWhitespace_append_cons (h c List.mem_cons_self), hblank]
    exact List.append_nil _

theorem splitWhitespace_trim (l : List Char) : splitWhitespace (trim l) = splitWhitespace l := by
  have hlead : Blank (l.takeWhile isWhitespace) := fun c hc => List.mem_takeWhile_imp hc
  have htrail : Blank ((l.dropWhile isWhitespace).rtakeWhile isWhitespace) := fun c hc => List.mem_rtakeWhile_imp hc
  calc splitWhitespace (trim l)
      = splitWhitespace (trim l ++ (l.dropWhile isWhitespace).rtakeWhile isWhitespace) :=
        (splitWhitespace_append_blank htrail _).symm
    _ = splitWhitespace (l.dropWhile isWhitespace) := by rw [trim, trimEnd, List.rdropWhile_append_rtakeWhile]
    _ = splitWhitespace (l.takeWhile isWhitespace ++ l.dropWhile isWhitespace) :=
        (splitWhitespace_blank_append hlead _).symm
    _ = splitWhitespace l := by rw [List.takeWhile_append_dropWhile]

/-- Words that were joined are found again. -/
theorem splitWhitespace_joinWords (hne : ws ≠ []) (h : ∀ w ∈ ws, w ≠ [] ∧ ∀ c ∈ w, isWhitespace c = false) :
    splitWhitespace (joinWords ws) = ws := by
  rw [splitWhitespace, joinWords, splitOnP_intercalate (by decide) hne fun w hw => (h w hw).2]
  refine List.filter_eq_self.2 fun w hw => ?_
  simpa using (h w hw).1

/-! ## Times -/

/-- What is accepted as a number has at most one point, and digits on both sides of it. -/
theorem splitNumericParts_eq_ok {parts : List Char × List Char} (h : splitNumericParts w = .ok parts) :
    trim w ≠ [] ∧ ∃ (plus : Bool) (integer : List Char) (fraction : Option (List Char)),
      trim w = (if plus then ['+'] else []) ++ (integer ++ (fraction.map ('.' :: ·)).getD []) ∧
        ∀ c ∈ integer ++ fraction.getD [], c.isDigit = true := by
  simp only [splitNumericParts] at h
  have hsign : ∃ plus : Bool, trim w = (if plus then ['+'] else []) ++
      (if (trim w).head? = some '+' then (trim w).tail else trim w) := by
    split
    next hplus =>
      obtain ⟨tail, htail⟩ := List.head?_eq_some_iff.1 hplus
      exact ⟨true, by rw [htail]; rfl⟩
    next => exact ⟨false, rfl⟩
  generalize (if (trim w).head? = some '+' then (trim w).tail else trim w) = normalized at h hsign
  obtain ⟨plus, hsign⟩ := hsign
  have hjoin : ['.'].intercalate (normalized.splitOn '.') = normalized := List.intercalate_splitOn '.'
  split at h
  · cases h
  next hempty =>
    refine ⟨by simpa using hempty, plus, ?_⟩
    split at h
    · cases h
    split at h
    · cases h
    next hthird =>
      split at h
      next hdigits =>
        rw [hsign]
        revert hthird hdigits hjoin
        rcases normalized.splitOn '.' with - | ⟨integer, - | ⟨fraction, - | ⟨third, rest⟩⟩⟩
        · intro hjoin _ _
          exact ⟨[], none, by rw [← hjoin]; rfl, by simp⟩
        · intro hjoin _ hdigits
          exact ⟨integer, none, by rw [← hjoin]; simp, by simpa using hdigits⟩
        · intro hjoin _ hdigits
          exact ⟨integer, some fraction, by rw [← hjoin]; simp [List.intercalate],
            by simpa [or_imp, forall_and] using hdigits⟩
        · simp
      next => cases h

/-- A number that ends in a digit or a point. -/
theorem exists_numberText {parts : List Char × List Char} (hnumeric : splitNumericParts w = .ok parts) (htrim : trim w = w)
    {last : Char} (hlast : w.getLast? = some last) (hdigit : last.isDigit = true ∨ last = '.') :
    ∃ n : NumberText, n.text = w := by
  obtain ⟨-, plus, integer, fraction, htext, hdigits⟩ := splitNumericParts_eq_ok hnumeric
  rw [htrim] at htext
  have hbody : integer ≠ [] ∨ fraction.isSome := by
    by_contra hnone
    simp only [not_or, not_not, Option.isSome_iff_exists, not_exists] at hnone
    obtain ⟨rfl, hfraction⟩ := hnone
    obtain rfl : fraction = none := Option.eq_none_iff_forall_ne_some.2 hfraction
    -- only a sign is left
    have hsign : last = '+' := by
      rw [htext] at hlast
      cases plus with
      | true => exact (Option.some.inj hlast).symm
      | false => cases hlast
    subst hsign
    revert hdigit
    decide
  refine ⟨{ plus, integer, fraction, integer_digits := fun c hc => hdigits c (List.mem_append_left _ hc)
            fraction_digits := fun c hc => hdigits c (List.mem_append_right _ hc), nonempty := hbody }, ?_⟩
  rw [htext]
  cases fraction <;> simp [NumberText.text, NumberText.sign, NumberText.body]

/-- What a unit is cut off from. -/
theorem numericBefore_eq_some {trimmed unitStr numeric : List Char} (h : numericBefore trimmed unitStr = some numeric) :
    ∃ gap, Blank gap ∧ trimmed = numeric ++ gap ++ unitStr ∧
      ∃ last, numeric.getLast? = some last ∧ (last.isDigit = true ∨ last = '.') := by
  rw [numericBefore] at h
  split at h
  next hsuffix =>
    dsimp only at h
    split at h
    next =>
      split at h
      next last hlast =>
        split at h
        next hdigit =>
          obtain rfl := Option.some.inj h
          obtain ⟨before, rfl⟩ := hsuffix
          have htake : (before ++ unitStr).take ((before ++ unitStr).length - unitStr.length) = before := by
            rw [List.length_append, Nat.add_sub_cancel, List.take_left]
          rw [htake] at hlast ⊢
          refine ⟨before.rtakeWhile isWhitespace, fun c hc => List.mem_rtakeWhile_imp hc, ?_, last, hlast, hdigit⟩
          rw [trimEnd, List.rdropWhile_append_rtakeWhile]
        next => cases h
      next => cases h
    next => cases h
  next => cases h

/-- What a time is cut into. -/
theorem parseTimeInput_cases (text : List Char) :
    parseTimeInput text = (trim text, none) ∨ ∃ u ∈ sortedUnits, ∃ numeric gap, Blank gap ∧
      trim text = numeric ++ gap ++ u.1 ∧ parseTimeInput text = (numeric, some u.2) ∧
      ∃ last, numeric.getLast? = some last ∧ (last.isDigit = true ∨ last = '.') := by
  cases hfound : sortedUnits.findSome? (fun unit =>
      (numericBefore (trim text) unit.1).map fun numeric => (numeric, some unit.2)) with
  | none => exact .inl (by simp only [parseTimeInput, hfound])
  | some parsed =>
    obtain ⟨before, u, after, hsplit, hu, -⟩ := List.findSome?_eq_some_iff.1 hfound
    obtain ⟨numeric, hnumeric, rfl⟩ := Option.map_eq_some_iff.1 hu
    obtain ⟨gap, hgap, htrim, hlast⟩ := numericBefore_eq_some hnumeric
    refine .inr ⟨u, by simp [hsplit], numeric, gap, hgap, htrim, ?_, hlast⟩
    simp only [parseTimeInput, hfound]

/-- The words of a text that is a time: a number, with or without the unit, or the number and the unit. -/
structure TimeWords (timescale : TimeScale) (text w : List Char) (unit : List (List Char)) : Prop where
  words : splitWhitespace text = w :: unit
  unit_mem : unit = [] ∧ w = trim text ∨ ∃ u ∈ sortedUnits, unit = [u.1]
  head : ∃ c, (text.dropWhile isWhitespace).head? = some c ∧ w.head? = some c ∧ (c.isDigit = true ∨ c = '+' ∨ c = '.')
  joined : parseTimeStringToTicks (w ++ unit.flatten) timescale = parseTimeStringToTicks text timescale

variable {timescale : TimeScale}

theorem head?_trim {c : Char} (h : (trim text).head? = some c) : (text.dropWhile isWhitespace).head? = some c := by
  obtain ⟨rest, hrest⟩ := List.head?_eq_some_iff.1 h
  obtain ⟨dropped, hdropped⟩ : trim text <+: text.dropWhile isWhitespace := List.rdropWhile_prefix _ _
  rw [← hdropped, hrest]
  rfl

theorem parseTimeStringToTicks_congr {text' : List Char} (h : parseTimeInput text' = parseTimeInput text) :
    parseTimeStringToTicks text' timescale = parseTimeStringToTicks text timescale := by
  rw [parseTimeStringToTicks, parseTimeStringToTicks, h]

/-- The number in front of the unit is accepted. -/
theorem splitNumericParts_of_accepted {v : ℤ} (h : parseTimeStringToTicks text timescale = some v) :
    ∃ parts, splitNumericParts (parseTimeInput text).1 = .ok parts := by
  cases hparts : splitNumericParts (parseTimeInput text).1 with
  | ok parts => exact ⟨parts, rfl⟩
  | error e =>
    obtain ⟨⟨numeric, unit⟩, hinput⟩ : ∃ input, parseTimeInput text = input := ⟨_, rfl⟩
    rw [hinput] at hparts
    rw [parseTimeStringToTicks_of_input timescale hinput, normalizeNumericWithUnit, hparts] at h
    cases h

/-- A time without white space in it is one word. -/
theorem timeWords_word (hne : trim text ≠ []) (h : ∀ c ∈ trim text, isWhitespace c = false)
    (hhead : ∀ c, (trim text).head? = some c → c.isDigit = true ∨ c = '+' ∨ c = '.') :
    TimeWords timescale text (trim text) [] where
  words := by rw [← splitWhitespace_trim, splitWhitespace_word hne h]
  unit_mem := .inl ⟨rfl, rfl⟩
  head := by
    obtain ⟨c, rest, hcons⟩ := List.exists_cons_of_ne_nil hne
    have hc : (trim text).head? = some c := by rw [hcons, List.head?_cons]
    exact ⟨c, head?_trim hc, hc, hhead c hc⟩
  joined := by
    refine parseTimeStringToTicks_congr ?_
    rw [List.flatten_nil, List.append_nil, parseTimeInput, parseTimeInput, trim_trim]

theorem not_isWhitespace_of_mem_unit {u : List Char × TimeUnit} (hu : u ∈ sortedUnits) {c : Char} (hc : c ∈ u.1) :
    isWhitespace c = false := by
  rcases sortedUnits_form u hu with h | ⟨x, hx, h⟩
  · rw [h, List.mem_singleton] at hc
    subst hc
    decide
  · rw [h] at hc
    rcases List.mem_pair.1 hc with rfl | rfl
    · exact (unitLetters_spec c hx).2.2
    · decide

theorem unit_ne_nil {u : List Char × TimeUnit} (hu : u ∈ sortedUnits) : u.1 ≠ [] := by
  rcases sortedUnits_form u hu with h | ⟨x, -, h⟩
  · simp [h]
  · simp [h]

/-- The words of a number with a unit. -/
theorem timeWords_unit (n : NumberText) {gap : List Char} (hgap : Blank gap) {u : List Char × TimeUnit}
    (hu : u ∈ sortedUnits) (htrim : trim text = n.text ++ gap ++ u.1) : ∃ w unit, TimeWords timescale text w unit := by
  have hne : n.text ≠ [] := n.text_ne_nil
  obtain ⟨c, number, hnumber⟩ := List.exists_cons_of_ne_nil hne
  have hhead : (trim text).head? = some c := by rw [htrim, hnumber]; rfl
  have hc : c.isDigit = true ∨ c = '+' ∨ c = '.' := by
    rcases n.mem_text (hnumber ▸ List.mem_cons_self) with hc | hc | hc
    · exact .inr (.inl hc)
    · exact .inl hc
    · exact .inr (.inr hc)
  have hnumberWord : ∀ d ∈ n.text, isWhitespace d = false := fun d hd => by
    simpa using n.not_isWhitespace_of_mem_text hd
  cases gap with
  | nil =>
    rw [List.append_nil] at htrim
    refine ⟨trim text, [], timeWords_word (by rw [htrim]; simp [hne]) (fun d hd => ?_) fun d hd => ?_⟩
    · rw [htrim] at hd
      rcases List.mem_append.1 hd with hd | hd
      · exact hnumberWord d hd
      · exact not_isWhitespace_of_mem_unit hu hd
    · obtain rfl := Option.some.inj (hhead.symm.trans hd)
      exact hc
  | cons space gap =>
    have hblank : Blank gap := fun d hd => hgap d (List.mem_cons_of_mem _ hd)
    refine ⟨n.text, [u.1], ?_, .inr ⟨u, hu, rfl⟩, ⟨c, head?_trim hhead, by rw [hnumber]; rfl, hc⟩, ?_⟩
    · rw [← splitWhitespace_trim, htrim, List.append_assoc, List.cons_append,
        splitWhitespace_append_cons (hgap space List.mem_cons_self), splitWhitespace_word hne hnumberWord,
        splitWhitespace_blank_append hblank, splitWhitespace_word (unit_ne_nil hu) fun d hd =>
          not_isWhitespace_of_mem_unit hu hd]
      rfl
    · have hnil : Blank [] := by simp [Blank]
      have hjoined := parseTimeInput_unit n hnil hnil hnil hu
      have htrimmed := parseTimeInput_unit n hnil hgap hnil hu
      rw [List.nil_append, List.append_nil] at hjoined htrimmed
      rw [List.append_nil] at hjoined
      have hwhole : parseTimeInput text = parseTimeInput (n.text ++ (space :: gap) ++ u.1) := by
        rw [← htrim, parseTimeInput, parseTimeInput, trim_trim]
      refine parseTimeStringToTicks_congr ?_
      rw [hwhole, htrimmed, List.flatten_singleton, hjoined]

/-- The words of a text that is a time. -/
theorem timeWords {v : ℤ} (h : parseTimeStringToTicks text timescale = some v) :
    ∃ w unit, TimeWords timescale text w unit := by
  obtain ⟨parts, hparts⟩ := splitNumericParts_of_accepted h
  rcases parseTimeInput_cases text with hinput | ⟨u, hu, numeric, gap, hgap, htrim, hinput, last, hlast, hdigit⟩
  · -- there is no unit
    rw [hinput] at hparts
    have hmem {c : Char} (hc : c ∈ trim text) := mem_of_splitNumericParts hparts (c := c) (by rwa [trim_trim])
    refine ⟨trim text, [], timeWords_word ?_ (fun c hc => ?_) fun c hc => ?_⟩
    · obtain ⟨hne, -⟩ := splitNumericParts_eq_ok hparts
      rwa [trim_trim] at hne
    · rcases hmem hc with rfl | hc | rfl
      · decide
      · simpa using not_isWhitespace_of_isDigit hc
      · decide
    · rcases hmem (List.mem_of_head? hc) with hc | hc | hc
      · exact .inr (.inl hc)
      · exact .inl hc
      · exact .inr (.inr hc)
  · rw [hinput] at hparts
    have hne : numeric ≠ [] := by
      rintro rfl
      cases hlast
    have htrimmed : Trimmed numeric := by
      refine ⟨fun c hc => (trimmed_trim text).head c ?_, fun c hc => ?_⟩
      · rw [htrim, List.append_assoc, List.head?_append_of_ne_nil _ hne, hc]
      · obtain rfl := Option.some.inj (hlast.symm.trans hc)
        rcases hdigit with hdigit | rfl
        · exact not_isWhitespace_of_isDigit hdigit
        · decide
    obtain ⟨n, rfl⟩ := exists_numberText hparts (trim_of_trimmed htrimmed hne) hlast hdigit
    exact timeWords_unit n hgap hu htrim

/-! ## Two times -/

/-- What `char::is_numeric` says of the characters of a time. -/
structure NumericClass (isNumeric : Char → Bool) : Prop where
  digit : ∀ c, c.isDigit = true → isNumeric c = true
  sign : isNumeric '+' = false
  point : isNumeric '.' = false
  unit : ∀ u ∈ sortedUnits, ∀ c ∈ u.1, isNumeric c = false

/-- The first character of a text, white space aside, is a digit. -/
def BeginsWithDigit (text : List Char) : Prop := ∃ c, (text.dropWhile isWhitespace).head? = some c ∧ c.isDigit = true

variable {isNumeric : Char → Bool} {unit rest : List (List Char)} {n : ℕ}

theorem TimeWords.head_of_begins (h : TimeWords timescale text w unit) (hdigit : BeginsWithDigit text) :
    ∃ c, w.head? = some c ∧ c.isDigit = true := by
  obtain ⟨c, hc, hw, -⟩ := h.head
  obtain ⟨d, hd, hd'⟩ := hdigit
  obtain rfl := Option.some.inj (hc.symm.trans hd)
  exact ⟨c, hw, hd'⟩

theorem TimeWords.head_of_not_begins (h : TimeWords timescale text w unit) (hdigit : ¬ BeginsWithDigit text) :
    ∃ c, w.head? = some c ∧ (c = '+' ∨ c = '.') := by
  obtain ⟨c, hc, hw, hdigit' | hc'⟩ := h.head
  · exact absurd ⟨c, hc, hdigit'⟩ hdigit
  · exact ⟨c, hw, hc'⟩

/-- A unit is no number, and is passed over. -/
theorem unit_head {u : List Char × TimeUnit} (hclass : NumericClass isNumeric) (hu : u ∈ sortedUnits) :
    ∃ c, u.1.head? = some c ∧ isNumeric c = false ∧ c ≠ '-' := by
  rcases sortedUnits_form u hu with h | ⟨x, hx, h⟩
  · exact ⟨'s', by rw [h]; rfl, hclass.unit u hu 's' (by simp [h]), by decide⟩
  · refine ⟨x, by rw [h]; rfl, hclass.unit u hu x (by simp [h]), ?_⟩
    rintro rfl
    simp [unitLetters] at hx

/-- A word that does not begin like a number is passed over. -/
theorem timeStrings_skip {c : Char} (hw : w.head? = some c) (hnumeric : isNumeric c = false) (hminus : c ≠ '-') :
    timeStrings isNumeric (n + 1) (w :: rest) = timeStrings isNumeric (n + 1) rest := by
  have hnone : (w.head?.any fun c => isNumeric c || c == '-') = false := by simp [hw, hnumeric, hminus]
  cases rest with
  | nil => simp [timeStrings, hnone]
  | cons next rest => simp [timeStrings, hnone]

theorem TimeWords.timeStrings_unit (h : TimeWords timescale text w unit) (hclass : NumericClass isNumeric) :
    timeStrings isNumeric (n + 1) (unit ++ rest) = timeStrings isNumeric (n + 1) rest := by
  rcases h.unit_mem with ⟨rfl, -⟩ | ⟨u, hu, rfl⟩
  · rfl
  · obtain ⟨c, hc, hnumeric, hminus⟩ := unit_head hclass hu
    exact timeStrings_skip hc hnumeric hminus

/-- A time that begins with a digit is taken, if the next word is no part of it. -/
theorem TimeWords.timeStrings_of_digit (h : TimeWords timescale text w unit) (hclass : NumericClass isNumeric)
    (hdigit : BeginsWithDigit text)
    (hrest : ∀ r, rest.head? = some r → unit = [] → ∃ c, r.head? = some c ∧ c.isDigit = true) :
    timeStrings isNumeric (n + 1) (w :: (unit ++ rest)) = (w ++ unit.flatten) :: timeStrings isNumeric n rest := by
  obtain ⟨c, hc, hdigit⟩ := h.head_of_begins hdigit
  have hnumeric := hclass.digit c hdigit
  rcases h.unit_mem with ⟨rfl, -⟩ | ⟨u, hu, rfl⟩
  · cases rest with
    | nil => cases n <;> simp [timeStrings, hc, hnumeric]
    | cons r rest =>
      obtain ⟨d, hd, hd'⟩ := hrest r rfl rfl
      have hnext := hclass.digit d hd'
      simp [timeStrings, hc, hnumeric, List.headD_eq_head?_getD, hd, hnext]
  · obtain ⟨d, hd, hnext, -⟩ := unit_head hclass hu
    simp [timeStrings, hc, hnumeric, List.headD_eq_head?_getD, hd, hnext]

/-- A time that begins with a sign or a point is passed over. -/
theorem TimeWords.timeStrings_of_not_digit (h : TimeWords timescale text w unit) (hclass : NumericClass isNumeric)
    (hdigit : ¬ BeginsWithDigit text) :
    timeStrings isNumeric (n + 1) (w :: (unit ++ rest)) = timeStrings isNumeric (n + 1) rest := by
  obtain ⟨c, hc, hsign⟩ := h.head_of_not_begins hdigit
  refine Eq.trans ?_ (h.timeStrings_unit hclass)
  rcases hsign with rfl | rfl
  · exact timeStrings_skip hc hclass.sign (by decide)
  · exact timeStrings_skip hc hclass.point (by decide)

/-- A time that begins with a sign or a point is taken for the unit of a number in front of it. -/
theorem TimeWords.timeStrings_joined {w' : List Char} {unit' : List (List Char)} {text' : List Char}
    (h : TimeWords timescale text w []) (h' : TimeWords timescale text' w' unit') (hclass : NumericClass isNumeric)
    (hdigit : BeginsWithDigit text) (hdigit' : ¬ BeginsWithDigit text') :
    timeStrings isNumeric 2 (w :: w' :: unit') = [w ++ w'] := by
  obtain ⟨c, hc, hdigit⟩ := h.head_of_begins hdigit
  have hnumeric := hclass.digit c hdigit
  obtain ⟨d, hd, hsign⟩ := h'.head_of_not_begins hdigit'
  have hnext : isNumeric d = false := by
    rcases hsign with rfl | rfl
    · exact hclass.sign
    · exact hclass.point
  have hunit : timeStrings isNumeric 1 unit' = [] := by
    have hskip : timeStrings isNumeric 1 (unit' ++ []) = timeStrings isNumeric 1 [] := h'.timeStrings_unit hclass
    rwa [List.append_nil] at hskip
  simp [timeStrings, hc, hnumeric, List.headD_eq_head?_getD, hd, hnext, hunit]

variable {lib : Library} {t t₁ t₂ : List Char} {v v₁ v₂ : ℤ}

/-- The words of two times, one behind the other. -/
theorem zoomRange_append {w₁ w₂ : List Char} {unit₁ unit₂ : List (List Char)} (h₁ : TimeWords timescale t₁ w₁ unit₁)
    (h₂ : TimeWords timescale t₂ w₂ unit₂) :
    splitWhitespace (t₁ ++ ' ' :: t₂) = w₁ :: (unit₁ ++ w₂ :: unit₂) := by
  rw [splitWhitespace_append_cons (by decide), h₁.words, h₂.words]
  rfl

theorem timeStrings_nil (isNumeric : Char → Bool) (n : ℕ) : timeStrings isNumeric n [] = [] := by
  cases n <;> rfl

/-- What is taken of the last time. -/
theorem TimeWords.timeStrings_last (h : TimeWords timescale text w unit) (hclass : NumericClass isNumeric)
    (hdigit : BeginsWithDigit text) : timeStrings isNumeric (n + 1) (w :: unit) = [w ++ unit.flatten] := by
  have htaken : timeStrings isNumeric (n + 1) (w :: (unit ++ [])) = (w ++ unit.flatten) :: timeStrings isNumeric n [] :=
    h.timeStrings_of_digit hclass hdigit (by simp)
  rwa [List.append_nil, timeStrings_nil] at htaken

theorem TimeWords.timeStrings_last_not (h : TimeWords timescale text w unit) (hclass : NumericClass isNumeric)
    (hdigit : ¬ BeginsWithDigit text) : timeStrings isNumeric (n + 1) (w :: unit) = [] := by
  have hskipped : timeStrings isNumeric (n + 1) (w :: (unit ++ [])) = timeStrings isNumeric (n + 1) [] :=
    h.timeStrings_of_not_digit hclass hdigit
  rwa [List.append_nil, timeStrings_nil] at hskipped

/-- Two times are found exactly if each of them begins with a digit. -/
theorem timeStrings_two {w₁ w₂ : List Char} {unit₁ unit₂ : List (List Char)} (hclass : NumericClass isNumeric)
    (h₁ : TimeWords timescale t₁ w₁ unit₁) (h₂ : TimeWords timescale t₂ w₂ unit₂) :
    (BeginsWithDigit t₁ ∧ BeginsWithDigit t₂ ∧
        timeStrings isNumeric 2 (w₁ :: (unit₁ ++ w₂ :: unit₂)) = [w₁ ++ unit₁.flatten, w₂ ++ unit₂.flatten]) ∨
      (¬ (BeginsWithDigit t₁ ∧ BeginsWithDigit t₂) ∧
        (timeStrings isNumeric 2 (w₁ :: (unit₁ ++ w₂ :: unit₂))).length < 2) := by
  by_cases hdigit₁ : BeginsWithDigit t₁
  · by_cases hdigit₂ : BeginsWithDigit t₂
    · refine .inl ⟨hdigit₁, hdigit₂, ?_⟩
      rw [h₁.timeStrings_of_digit hclass hdigit₁, h₂.timeStrings_last hclass hdigit₂]
      intro r hr _
      obtain rfl := Option.some.inj hr
      exact h₂.head_of_begins hdigit₂
    · refine .inr ⟨fun h => hdigit₂ h.2, ?_⟩
      rcases h₁.unit_mem with ⟨rfl, -⟩ | ⟨u, hu, rfl⟩
      · -- the second time is glued to the first one
        rw [List.nil_append, h₁.timeStrings_joined h₂ hclass hdigit₁ hdigit₂]
        exact Nat.lt_succ_self 1
      · rw [h₁.timeStrings_of_digit hclass hdigit₁ (by simp), h₂.timeStrings_last_not hclass hdigit₂]
        exact Nat.lt_succ_self 1
  · refine .inr ⟨fun h => hdigit₁ h.1, ?_⟩
    rw [h₁.timeStrings_of_not_digit hclass hdigit₁]
    by_cases hdigit₂ : BeginsWithDigit t₂
    · rw [h₂.timeStrings_last hclass hdigit₂]
      exact Nat.lt_succ_self 1
    · rw [h₂.timeStrings_last_not hclass hdigit₂]
      exact Nat.zero_lt_two

/-- `zoom_to` takes both times exactly if each of them begins with a digit. -/
theorem zoomRange_eq_some_iff (hclass : NumericClass lib.isNumeric)
    (hparse₁ : parseTimeStringToTicks t₁ timescale = some v₁) (hparse₂ : parseTimeStringToTicks t₂ timescale = some v₂) :
    zoomRange lib (some timescale) (t₁ ++ ' ' :: t₂) = some (v₁, v₂) ↔ BeginsWithDigit t₁ ∧ BeginsWithDigit t₂ := by
  obtain ⟨w₁, unit₁, h₁⟩ := timeWords hparse₁
  obtain ⟨w₂, unit₂, h₂⟩ := timeWords hparse₂
  rw [zoomRange, zoomRange_append h₁ h₂]
  rcases timeStrings_two hclass h₁ h₂ with ⟨hdigit₁, hdigit₂, htaken⟩ | ⟨hnot, hlength⟩
  · have hstart : parseTime (some timescale) (w₁ ++ unit₁.flatten) = some v₁ := h₁.joined.trans hparse₁
    have hstop : parseTime (some timescale) (w₂ ++ unit₂.flatten) = some v₂ := h₂.joined.trans hparse₂
    rw [htaken]
    simp [hstart, hstop, hdigit₁, hdigit₂]
  · refine iff_of_false ?_ hnot
    -- there are not two times
    revert hlength
    rcases timeStrings lib.isNumeric 2 (w₁ :: (unit₁ ++ w₂ :: unit₂)) with - | ⟨a, - | ⟨b, l⟩⟩
    · simp
    · simp
    · simp

/-! ## A time and a name -/

/-- `marker_set_at` takes the time exactly if its unit is a word of its own, or the name is one word, or the time with
the first word of the name behind it is no time. -/
theorem markerSetAt_eq_some_iff (hparse : parseTimeStringToTicks t timescale = some v) (hne : ws ≠ [])
    (hws : ∀ w ∈ ws, w ≠ [] ∧ ∀ c ∈ w, isWhitespace c = false) :
    markerSetAt (some timescale) (t ++ ' ' :: joinWords ws) = some (v, joinWords ws) ↔
      2 ≤ (splitWhitespace t).length ∨ ws.length = 1 ∨
        parseTimeStringToTicks (trim t ++ ws.headD []) timescale = none := by
  obtain ⟨w, unit, h⟩ := timeWords hparse
  have hwords : splitWhitespace (t ++ ' ' :: joinWords ws) = w :: (unit ++ ws) := by
    rw [splitWhitespace_append_cons (by decide), h.words, splitWhitespace_joinWords hne hws]
    rfl
  obtain ⟨m₁, names, rfl⟩ := List.exists_cons_of_ne_nil hne
  have hjoined : parseTime (some timescale) (w ++ unit.flatten) = some v := h.joined.trans hparse
  rw [markerSetAt, hwords, h.words]
  rcases h.unit_mem with ⟨rfl, rfl⟩ | ⟨u, hu, rfl⟩
  · rw [List.flatten_nil, List.append_nil] at hjoined
    cases names with
    | nil =>
      have hname : joinWords [m₁] = m₁ := List.intercalate_singleton
      simp [hjoined, hname]
    | cons m₂ names =>
      have hlength : ¬ 2 ≤ [trim t].length := by simp
      have hlength' : (m₁ :: m₂ :: names).length ≠ 1 := by simp
      simp only [List.nil_append, hlength, hlength', false_or, List.headD_cons]
      cases hglued : parseTimeStringToTicks (trim t ++ m₁) timescale with
      | none => simp [hglued, hjoined]
      | some v' =>
        -- the first word of the name is lost
        have hname : joinWords (m₂ :: names) ≠ joinWords (m₁ :: m₂ :: names) := by
          intro heq
          have hwords' := congrArg splitWhitespace heq
          rw [splitWhitespace_joinWords (by simp) fun w hw => hws w (List.mem_cons_of_mem _ hw),
            splitWhitespace_joinWords (by simp) hws] at hwords'
          simpa using congrArg List.length hwords'
        have hglued' : parseTime (some timescale) (trim t ++ m₁) = some v' := hglued
        simp [hglued, hglued', hname]
  · rw [List.flatten_singleton] at hjoined
    have hglued : (parseTimeStringToTicks (w ++ u.1) timescale).isSome = true := Option.isSome_of_eq_some hjoined
    simp [hglued, hjoined]

/-- `zoom_to` takes two times exactly if both begin with a digit. `marker_set_at` takes a time and a name exactly if the
unit of the time is a word of its own, or the name is one word, or its first word does not go on with the time. -/
theorem times_cut (lib : Library) (hclass : NumericClass lib.isNumeric) (timescale : TimeScale) :
    (∀ (t₁ t₂ : List Char) (v₁ v₂ : ℤ), parseTimeStringToTicks t₁ timescale = some v₁ →
        parseTimeStringToTicks t₂ timescale = some v₂ →
        (zoomRange lib (some timescale) (t₁ ++ ' ' :: t₂) = some (v₁, v₂) ↔ BeginsWithDigit t₁ ∧ BeginsWithDigit t₂)) ∧
      ∀ (t : List Char) (v : ℤ) (ws : List (List Char)), parseTimeStringToTicks t timescale = some v → ws ≠ [] →
        (∀ w ∈ ws, w ≠ [] ∧ ∀ c ∈ w, isWhitespace c = false) →
        (markerSetAt (some timescale) (t ++ ' ' :: joinWords ws) = some (v, joinWords ws) ↔
          2 ≤ (splitWhitespace t).length ∨ ws.length = 1 ∨
            parseTimeStringToTicks (trim t ++ ws.headD []) timescale = none) :=
  ⟨fun _ _ _ _ hparse₁ hparse₂ => zoomRange_eq_some_iff hclass hparse₁ hparse₂,
    fun _ _ _ hparse hne hws => markerSetAt_eq_some_iff hparse hne hws⟩

/-- Words and numbers in ASCII. -/
def asciiDigits : Library where
  isWord c := c.isAlphanum || c == '_'
  isNumeric := Char.isDigit
  parseF32 _ := none

theorem numericClass_asciiDigits : NumericClass asciiDigits.isNumeric where
  digit _ hc := hc
  sign := rfl
  point := rfl
  unit u hu c hc := by
    rcases sortedUnits_form u hu with h | ⟨x, hx, h⟩
    · rw [h, List.mem_singleton] at hc
      subst hc
      decide
    · rw [h] at hc
      rcases List.mem_pair.1 hc with rfl | rfl
      · exact (unitLetters_spec c hx).1
      · decide

/-- Picoseconds. -/
def picoSeconds : TimeScale := { unit := .picoSeconds, multiplier := none }

theorem times_cut_digits : zoomRange asciiDigits (some picoSeconds) "1ns 2 ns".toList = some (1000, 2000) :=
  ((times_cut asciiDigits numericClass_asciiDigits picoSeconds).1 "1ns".toList "2 ns".toList 1000 2000 (by decide)
    (by decide)).2 ⟨⟨'1', by decide, by decide⟩, ⟨'2', by decide, by decide⟩⟩

/-- A time that begins with a point is not found. -/
theorem times_cut_point : ¬ ∀ (lib : Library) (timescale : TimeScale), NumericClass lib.isNumeric →
    (∀ (t₁ t₂ : List Char) (v₁ v₂ : ℤ), parseTimeStringToTicks t₁ timescale = some v₁ →
        parseTimeStringToTicks t₂ timescale = some v₂ →
        zoomRange lib (some timescale) (t₁ ++ ' ' :: t₂) = some (v₁, v₂)) ∧
      ∀ (t : List Char) (v : ℤ) (ws : List (List Char)), parseTimeStringToTicks t timescale = some v → ws ≠ [] →
        (∀ w ∈ ws, w ≠ [] ∧ ∀ c ∈ w, isWhitespace c = false) → (∀ u ∈ sortedUnits, ws.head? ≠ some u.1) →
        markerSetAt (some timescale) (t ++ ' ' :: joinWords ws) = some (v, joinWords ws) := by
  intro h
  have hparse : parseTimeStringToTicks ".5ns".toList picoSeconds = some 500 := by decide
  have hrange := (h asciiDigits picoSeconds numericClass_asciiDigits).1 _ _ _ _ hparse hparse
  obtain ⟨⟨c, hc, hdigit⟩, -⟩ := (zoomRange_eq_some_iff numericClass_asciiDigits hparse hparse).1 hrange
  obtain rfl : '.' = c := Option.some.inj hc
  cases hdigit

end CommandParser
