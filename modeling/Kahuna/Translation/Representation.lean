import Kahuna.Translation.Basic

/-!
# Numbers and texts of bits are translated alike

A value that is stored as a number and the same value stored as a text of zeros and ones have the
same translation, by every translator that shows one number or counts bits. A text may be shorter
than the number of bits, which leaves zeros out in front, but not empty: an empty text is not filled
up.

* `BinaryText`: the texts, and the number they denote;
* `extended_eq`: filled up with zeros, such a text is the padded text of its number;
* `translate_eq`: the translations agree.
-/

namespace Translation

open Numerals Wave

variable {F : Type}

/-- A text with another character than digits, a sign and underscores is not read as a number. -/
theorem parseBytes_eq_none {b : ℕ} {s : List Char} {c : Char} (hmem : c ∈ s) (hsign : c ≠ '+') (hunder : c ≠ '_')
    (hdigit : digit? b c = none) : parseBytes b s = none := by
  have hnot : ∀ l : List Char, c ∈ l → ¬ IsNumeral b (l.filter (· ≠ '_')) := by
    intro l hl hnumeral
    have hsome := hnumeral c (List.mem_filter.2 ⟨hl, by simpa using hunder⟩)
    rw [hdigit] at hsome
    cases hsome
  have htail : s.head? = some '+' → c ∈ s.tail := by
    intro hhead
    obtain ⟨rest, rfl⟩ := List.head?_eq_some_iff.1 hhead
    exact (List.mem_cons.1 hmem).resolve_left hsign
  rw [parseBytes]
  by_cases hplus : s.head? = some '+' ∧ s.tail.head? ≠ some '+'
  · simp only [if_pos hplus, if_neg (hnot _ (htail hplus.1)), ite_self]
  · simp only [if_neg hplus, if_neg (hnot _ hmem), ite_self]

/-- Digits are read as the number they denote. -/
theorem parseBytes_of_isNumeral {b : ℕ} {s : List Char} (hne : s ≠ []) (h : IsNumeral b s) :
    parseBytes b s = some (value b s) := by
  have hnot : ∀ c, digit? b c = none → c ∉ s := by
    intro c hc hmem
    have hsome := h c hmem
    rw [hc] at hsome
    cases hsome
  have hhead : ∀ c, digit? b c = none → s.head? ≠ some c :=
    fun c hc hhead => hnot c hc (List.mem_of_head? hhead)
  have hfilter : s.filter (· ≠ '_') = s := by
    rw [List.filter_eq_self]
    intro c hc
    rw [decide_eq_true_eq]
    rintro rfl
    exact hnot '_' rfl hc
  simp only [parseBytes, hhead '+' rfl, hhead '_' rfl, hne, hfilter, h, false_and, or_self, if_false, if_true]

/-- A text of zeros and ones that is not longer than the number of bits and not empty. -/
structure BinaryText (numBits : ℕ) (s : List Char) : Prop where
  bits : ∀ c ∈ s, c = '0' ∨ c = '1'
  ne : s ≠ []
  le : s.length ≤ numBits

namespace BinaryText

variable {numBits : ℕ} {s : List Char}

theorem canonical (h : BinaryText numBits s) : Canonical 2 s := by
  intro c hc
  rcases h.bits c hc with rfl | rfl
  · exact ⟨0, by omega, rfl⟩
  · exact ⟨1, by omega, rfl⟩

theorem isNumeral (h : BinaryText numBits s) : IsNumeral 2 s := h.canonical.isNumeral (by omega)

theorem not_mem (h : BinaryText numBits s) {c : Char} (hc : c ≠ '0' ∧ c ≠ '1') : c ∉ s :=
  fun hmem => (h.bits c hmem).elim hc.1 hc.2

theorem extendString_eq (h : BinaryText numBits s) :
    extendString s numBits = List.replicate (numBits - s.length) '0' := by
  rw [extendString]
  split
  next =>
    obtain ⟨c, tail, rfl⟩ := List.exists_cons_of_ne_nil h.ne
    rcases h.bits c List.mem_cons_self with rfl | rfl <;> rfl
  next hge =>
    have hzero : numBits - s.length = 0 := by omega
    rw [hzero, List.replicate_zero]

/-- Filled up with zeros, the text is the padded text of its number. -/
theorem extended_eq (h : BinaryText numBits s) :
    extendString s numBits ++ s = padded 2 numBits (value 2 s) := by
  have hcanonical : Canonical 2 (List.replicate (numBits - s.length) '0' ++ s) :=
    (canonical_replicate_zero (by omega) _).append h.canonical
  have hvalue : value 2 (List.replicate (numBits - s.length) '0' ++ s) = value 2 s := by
    rw [value_append, value_replicate_zero (by omega), Nat.zero_mul, Nat.zero_add]
  have hlength : (List.replicate (numBits - s.length) '0' ++ s).length = numBits := by
    have := h.le
    simp only [List.length_append, List.length_replicate]
    omega
  have hpadded := hcanonical.eq_padded (by omega) (by omega) (by simp [h.ne])
  rw [hvalue, hlength] at hpadded
  rw [h.extendString_eq]
  exact hpadded

/-- The filled up text is one of full length. -/
theorem padded (h : BinaryText numBits s) : BinaryText numBits (padded 2 numBits (value 2 s)) where
  bits := by
    rw [← h.extended_eq, h.extendString_eq]
    intro c hc
    rcases List.mem_append.1 hc with hc | hc
    · exact .inl (List.eq_of_mem_replicate hc)
    · exact h.bits c hc
  ne := by simp [← h.extended_eq, h.ne]
  le := by
    have := h.le
    rw [← h.extended_eq, h.extendString_eq, List.length_append, List.length_replicate]
    omega

theorem kind_eq (h : BinaryText numBits s) : kindForBinaryRepresentation s = .normal := by
  simp [kindForBinaryRepresentation, h.not_mem]

theorem parseBytes_eq (h : BinaryText numBits s) : parseBytes 2 s = some (value 2 s) :=
  parseBytes_of_isNumeral h.ne h.isNumeral

theorem mapVectorVariable_eq (h : BinaryText numBits s) :
    mapVectorVariable s = .ok (value 2 s) := by
  simp [mapVectorVariable, h.parseBytes_eq]

theorem length_eq_of_padded (h : BinaryText numBits s) :
    (Numerals.padded 2 numBits (value 2 s)).length = numBits := by
  have := h.le
  rw [← h.extended_eq, h.extendString_eq, List.length_append, List.length_replicate]
  omega

/-- A text of full length is not filled up. -/
theorem extendString_padded (h : BinaryText numBits s) :
    extendString (Numerals.padded 2 numBits (value 2 s)) numBits = [] := by
  rw [h.padded.extendString_eq, h.length_eq_of_padded, Nat.sub_self, List.replicate_zero]

/-- The groups of a text are such texts as well. -/
theorem of_mem_groups (h : BinaryText numBits s) {n : ℕ} (hn : 0 < n) {g : List Char}
    (hg : g ∈ groups s n) : BinaryText n g := by
  obtain ⟨hne, hle, hsub⟩ := length_le_of_mem_groups hn hg
  exact ⟨fun c hc => h.bits c (hsub hc), hne, hle⟩

end BinaryText

variable {numBits : ℕ} {s : List Char}

/-- A group of at most eight bits is read as a byte. -/
theorem u8FromBinary_eq {g : List Char} {n : ℕ} (h : BinaryText n g) (hn : n ≤ 8) :
    u8FromBinary g = some (value 2 g) := by
  have hlt : value 2 g < 2 ^ 8 :=
    (value_lt (by omega) g).trans_le (Nat.pow_le_pow_right (by omega) (h.le.trans hn))
  have hlt' : value 2 g < 256 := by omega
  have hhead : g.head? ≠ some '+' := fun hhead => h.not_mem (by decide) (List.mem_of_head? hhead)
  simp only [u8FromBinary, hhead, if_false, h.ne, ne_eq, not_false_eq_true, h.isNumeral, hlt',
    and_self, if_true]

/-- A group of bits becomes one digit. -/
theorem radixDigit_eq {g : List Char} {n : ℕ} (h : BinaryText n g) (hn : n ≤ 4) :
    radixDigit g = ([(value 2 g).digitChar], false) := by
  have hlt : value 2 g < 16 :=
    (value_lt (by omega) g).trans_le (Nat.pow_le_pow_right (by omega) (h.le.trans hn))
  simp [radixDigit, h.not_mem, u8FromBinary_eq h (by omega), Nat.toDigits_of_lt_base hlt]

theorem digitChar_not_mem :
    ∀ d < 16, Nat.digitChar d ∉ ['x', 'z', '-', 'u', 'w', 'h', 'l'] := by
  decide

/-- No digit stands for a bit that is neither zero nor one. -/
theorem kind_of_canonical {b : ℕ} (hb : b ≤ 16) {l : List Char} (hl : Canonical b l) :
    kindForBinaryRepresentation l = .normal := by
  have hmem : ∀ c ∈ ['x', 'z', '-', 'u', 'w', 'h', 'l'], c ∉ l := by
    intro c hc hmem
    obtain ⟨d, hd, rfl⟩ := hl c hmem
    exact digitChar_not_mem d (by omega) hc
  simp [kindForBinaryRepresentation, hmem]

/-- In a base that is a power of two, the text has the digits of the number. -/
theorem mapToRadix_eq (h : BinaryText numBits s) {n : ℕ} (hn : 0 < n) (hn' : n ≤ 4) :
    mapToRadix s n numBits = (padded (2 ^ n) ((numBits + (n - 1)) / n) (value 2 s), .normal) := by
  set e := Numerals.padded 2 numBits (value 2 s) with he
  have hbase : 2 ^ n ≤ 16 := Nat.pow_le_pow_right (by omega : 0 < 2) hn'
  have hone : 1 < 2 ^ n := Nat.one_lt_two_pow (by omega)
  have hgroup : ∀ g ∈ groups e n, BinaryText n g := fun _ => h.padded.of_mem_groups hn
  have hdigits : (groupNChars (extendString s numBits ++ s) n).map radixDigit
      = (groups e n).map fun g => ([(value 2 g).digitChar], false) := by
    rw [h.extended_eq, groupNChars]
    exact List.map_congr_left fun g hg => radixDigit_eq (hgroup g hg) hn'
  set formatted := (groups e n).map fun g => (value 2 g).digitChar with hformatted
  have hcanonical : Canonical (2 ^ n) formatted := by
    intro c hc
    obtain ⟨g, hg, rfl⟩ := List.mem_map.1 hc
    exact ⟨value 2 g, (value_lt (by omega) g).trans_le
      (Nat.pow_le_pow_right (by omega) (hgroup g hg).le), rfl⟩
  have hlength : formatted.length = (numBits + (n - 1)) / n := by
    rw [hformatted, List.length_map, length_groups hn, h.length_eq_of_padded]
  have hvalue : value (2 ^ n) formatted = value 2 s := by
    rw [hformatted, value_map_groups (by omega) hn hbase, he, value_padded (by omega) (by omega)]
  have hne : formatted ≠ [] := by
    have hpos := List.length_pos_iff.2 h.ne
    have hle := h.le
    have hdiv : 0 < (numBits + (n - 1)) / n := Nat.div_pos (by omega) hn
    exact List.length_pos_iff.1 (by omega)
  have hpadded := hcanonical.eq_padded hone hbase hne
  rw [hlength, hvalue] at hpadded
  have hflat : ((groups e n).map fun g => ([(value 2 g).digitChar], false)).flatMap Prod.fst
      = formatted := by
    rw [List.flatMap_map, hformatted]
    exact List.map_eq_flatMap.symm
  have hany : ((groups e n).map fun g => ([(value 2 g).digitChar], false)).any Prod.snd = false := by
    simp
  simp only [mapToRadix, hdigits, hflat, hany, kind_of_canonical hbase hcanonical]
  rw [hpadded]
  rfl

theorem takeWhile_congr {α : Type*} {p q : α → Bool} {l : List α} (h : ∀ x ∈ l, p x = q x) :
    l.takeWhile p = l.takeWhile q := by
  induction l with
  | nil => rfl
  | cons x l ih =>
    simp only [List.takeWhile_cons, h x List.mem_cons_self,
      ih fun y hy => h y (List.mem_cons_of_mem _ hy)]

/-- Bits that are not counted do not matter at the end. -/
theorem takeWhile_append_replicate {α : Type*} {p : α → Bool} {x : α} (hx : ¬ p x) (l : List α)
    (k : ℕ) : (l ++ List.replicate k x).takeWhile p = l.takeWhile p := by
  induction l with
  | nil => cases k <;> simp [List.replicate_succ, hx]
  | cons a l ih =>
    by_cases ha : p a
    · simp [ha, ih]
    · simp [ha]

/-- The digits of a number, as bits from the right. -/
def bitChars (v : ℕ) : List Char := (Nat.digits 2 v).map Nat.digitChar

theorem digit_lt_two {v d : ℕ} (hd : d ∈ Nat.digits 2 v) : d = 0 ∨ d = 1 := by
  have := Nat.digits_lt_base (by omega) hd
  omega

theorem length_filter_bitChars (v : ℕ) : ((bitChars v).filter (· == '1')).length = countOnes v := by
  rw [bitChars, countOnes, ← List.countP_eq_length_filter, List.countP_map, List.count]
  refine List.countP_congr fun d hd => ?_
  rcases digit_lt_two hd with rfl | rfl <;> simp

theorem length_takeWhile_bitChars (v : ℕ) {d : ℕ} (hd : d = 0 ∨ d = 1) :
    ((bitChars v).takeWhile (· == d.digitChar)).length
      = ((Nat.digits 2 v).takeWhile (· == d)).length := by
  rw [bitChars, List.takeWhile_map, List.length_map]
  refine congrArg List.length (takeWhile_congr fun d' hd' => ?_)
  rcases hd with rfl | rfl <;> rcases digit_lt_two hd' with rfl | rfl <;> rfl

namespace BinaryText

theorem numberOfOnes_eq (h : BinaryText numBits s) :
    (s.filter (· == '1')).length = countOnes (value 2 s) := by
  obtain ⟨k, hk⟩ := h.canonical.reverse_eq_digits (by omega) (by omega)
  have hzeros : (List.replicate k '0').filter (· == '1') = [] := by
    rw [List.filter_eq_nil_iff]
    intro c hc
    simp [List.eq_of_mem_replicate hc]
  rw [← length_filter_bitChars, ← List.length_reverse, ← List.filter_reverse, hk, List.filter_append,
    hzeros, List.append_nil]
  rfl

theorem trailingOnes_eq (h : BinaryText numBits s) :
    (s.reverse.takeWhile (· == '1')).length = trailingOnes (value 2 s) := by
  obtain ⟨k, hk⟩ := h.canonical.reverse_eq_digits (by omega) (by omega)
  rw [hk, takeWhile_append_replicate (by decide)]
  exact length_takeWhile_bitChars _ (.inr rfl)

theorem trailingZeros_eq (h : BinaryText numBits s) :
    ((extendString s numBits ++ s).reverse.takeWhile (· == '0')).length
      = (trailingZeros (value 2 s)).getD numBits := by
  obtain ⟨k, hk⟩ := h.padded.canonical.reverse_eq_digits (by omega) (by omega)
  rw [value_padded (by omega) (by omega)] at hk
  have hlength := congrArg List.length hk
  rw [List.length_reverse, h.length_eq_of_padded] at hlength
  rw [h.extended_eq, hk, trailingZeros]
  split
  next hzero =>
    -- all bits are zeros
    simp only [hzero, Nat.digits_zero, List.map_nil, List.nil_append, List.length_replicate]
      at hlength ⊢
    simp [hlength]
  next hne =>
    have hlast : ¬ ∀ c ∈ bitChars (value 2 s), c == '0' := by
      intro hall
      have hnil : Nat.digits 2 (value 2 s) ≠ [] := Nat.digits_ne_nil_iff_ne_zero.2 hne
      have hmem := List.getLast_mem hnil
      have hchar := hall _ (List.mem_map_of_mem hmem)
      have hlast := Nat.getLast_digit_ne_zero 2 hne
      rcases digit_lt_two hmem with hzero | hone
      · exact hlast hzero
      · rw [hone] at hchar
        cases hchar
    have hlt : ((bitChars (value 2 s)).takeWhile (· == '0')).length
        ≠ (bitChars (value 2 s)).length := by
      intro heq
      exact hlast (List.takeWhile_eq_self_iff.1 ((List.takeWhile_prefix _).eq_of_length heq))
    rw [← bitChars, List.takeWhile_append, if_neg hlt]
    exact length_takeWhile_bitChars _ (.inl rfl)

/-- Without the zeros in front, no one leads. -/
theorem leadingOnes_eq (h : BinaryText numBits s) :
    leadingOnesOfString numBits (Numerals.padded 2 numBits (value 2 s))
      = leadingOnesOfString numBits s := by
  simp only [leadingOnesOfString, h.kind_eq, h.padded.kind_eq, h.length_eq_of_padded, if_true]
  split
  next hfull => rw [← h.extended_eq, h.extendString_eq, hfull, Nat.sub_self]; rfl
  next hshort =>
    have hlt : 0 < numBits - s.length := by
      have := h.le
      omega
    obtain ⟨k, hk⟩ := Nat.exists_eq_succ_of_ne_zero hlt.ne'
    rw [← h.extended_eq, h.extendString_eq, hk, List.replicate_succ]
    simp

theorem leadingZeros_eq (h : BinaryText numBits s) :
    leadingZerosOfString numBits (Numerals.padded 2 numBits (value 2 s))
      = leadingZerosOfString numBits s := by
  simp only [leadingZerosOfString, h.kind_eq, h.padded.kind_eq, h.extendString_padded,
    h.extended_eq, List.nil_append]

theorem identicalMSBs_eq (h : BinaryText numBits s) :
    identicalMSBsOfString numBits (Numerals.padded 2 numBits (value 2 s))
      = identicalMSBsOfString numBits s := by
  simp only [identicalMSBsOfString, h.kind_eq, h.padded.kind_eq, h.extendString_padded,
    h.extended_eq, List.nil_append]

end BinaryText

/-- The number and the text of a value have the same text and the same kind. -/
theorem basicTranslate_eq (t : BasicTranslator) {text : String}
    (h : BinaryText numBits text.toList) :
    t.basicTranslate numBits (.bigUint (value 2 text.toList))
      = t.basicTranslate numBits (.string text) := by
  cases t with
  | hex => exact (mapToRadix_eq (n := 4) h (by omega) (by omega)).symm
  | octal => exact (mapToRadix_eq (n := 3) h (by omega) (by omega)).symm
  | binary =>
    simp only [BasicTranslator.basicTranslate, binaryTranslate, h.extended_eq, h.kind_eq]
  | groupingBinary =>
    simp only [BasicTranslator.basicTranslate, groupingBinaryTranslate, h.extended_eq, h.kind_eq]
  | unsigned =>
    simp only [BasicTranslator.basicTranslate, unsignedTranslate, translateNumeric, parseBigUint,
      h.mapVectorVariable_eq]
  | signed =>
    simp only [BasicTranslator.basicTranslate, signedTranslate, translateNumeric, parseBigUint,
      h.mapVectorVariable_eq]
  | numberOfOnes =>
    simp only [BasicTranslator.basicTranslate, numberOfOnesTranslate, h.numberOfOnes_eq, h.kind_eq]
  | leadingOnes => exact h.leadingOnes_eq
  | trailingOnes =>
    simp only [BasicTranslator.basicTranslate, trailingOnesTranslate, h.trailingOnes_eq, h.kind_eq]
  | leadingZeros => exact h.leadingZeros_eq
  | trailingZeros =>
    simp only [BasicTranslator.basicTranslate, trailingZerosTranslate, h.trailingZeros_eq, h.kind_eq]
  | identicalMSBs => exact h.identicalMSBs_eq

/-- Both stand for the same number. -/
theorem parseValueToNumeric_eq (fl : Floats F) (toF64 : ℕ → F) {text : String}
    (h : BinaryText numBits text.toList) :
    parseValueToNumeric fl (.bigUint (value 2 text.toList)) toF64
      = parseValueToNumeric fl (.string text) toF64 := by
  simp only [parseValueToNumeric, parseBigUint, h.mapVectorVariable_eq]

theorem basicTranslateNumeric_eq (fl : Floats F) (t : BasicTranslator) {text : String}
    (h : BinaryText numBits text.toList) :
    t.basicTranslateNumeric fl numBits (.bigUint (value 2 text.toList))
      = t.basicTranslateNumeric fl numBits (.string text) := by
  have htext : t.numericOfText fl numBits (.bigUint (value 2 text.toList))
      = t.numericOfText fl numBits (.string text) := by
    simp only [BasicTranslator.numericOfText, basicTranslate_eq t h]
  cases t with
  | hex | octal | binary | groupingBinary => exact htext
  | unsigned | signed | numberOfOnes | leadingOnes | trailingOnes | leadingZeros | trailingZeros
    | identicalMSBs => exact congrArg some (parseValueToNumeric_eq fl _ h)

/-- Floating-point numbers that are whole numbers or not there. -/
def wholeFloats : Floats (Option ℤ) where
  nanUndef := none
  nanHighImp := none
  infinity := none
  neg x := x.map (- ·)
  ofU64 n := some (n : ℤ)
  toF64 n := some (some (n : ℤ))
  parse := fun l => (parseInt l).map some

end Translation
