import Kahuna.Precedence.Basic
import Kahuna.Translation.Mapping

/-!
# Bits that are neither zero nor one

A bit has one of nine values. A text of bits with other values than zero and one has a kind that says what is in
it, and there are four routines that find one: `kind_for_binary_representation`, `check_vector_variable`,
`map_vector_variable`, and the digits of a base that is a power of two, whose kind is taken from the digits.

* `kindForBinaryRepresentation_eq`: the kind is the one of the first mark in an order of precedence;
* `mapToRadix_kind`: a digit keeps the first mark of its bits, so that nothing is lost by grouping;
* `translate_kind`: all translators agree, and a digit is a numeral exactly if all its bits are zero or one.
-/

namespace Translation

open Numerals Wave

/-- The values of a bit. -/
def nineValues : List Char := ['0', '1', 'x', 'z', 'u', 'w', 'l', 'h', '-']

/-- The values that are neither zero nor one, in their order of precedence. -/
def marks : List Char := ['x', 'z', '-', 'u', 'w', 'h', 'l']

/-- The name and the kind that a mark stands for. -/
def markName : Char → String × ValueKind
  | 'x' => ("UNDEF", .undef)
  | 'z' => ("HIGHIMP", .highImp)
  | '-' => ("DON'T CARE", .dontCare)
  | 'u' => ("UNDEF", .undef)
  | 'w' => ("UNDEF WEAK", .undef)
  | _ => ("WEAK", .weak)

/-- A text of zeros and ones. -/
def Bits (s : List Char) : Prop := ∀ c ∈ s, c = '0' ∨ c = '1'

/-- A text of bits of any value. -/
def NineValued (s : List Char) : Prop := ∀ c ∈ s, c ∈ nineValues

variable {numBits : ℕ} {s : List Char}

/-- The mark of a text of bits. -/
def mark (s : List Char) : Option Char := Precedence.first marks s

theorem mem_nineValues {c : Char} : c ∈ nineValues ↔ (c = '0' ∨ c = '1') ∨ c ∈ marks := by
  simp only [nineValues, marks, List.mem_cons, List.not_mem_nil, or_false]
  tauto

theorem NineValued.bits_iff (h : NineValued s) : Bits s ↔ mark s = none := by
  rw [mark, Precedence.first_eq_none_iff]
  constructor
  · intro hbits c hc hmem
    rcases hbits c hmem with rfl | rfl
    · exact absurd hc (by decide)
    · exact absurd hc (by decide)
  · intro hnone c hc
    exact (mem_nineValues.1 (h c hc)).resolve_right fun hmark => hnone c hmark hc

/-! ## The routines that look for a mark -/

theorem mark_eq (s : List Char) :
    mark s = if 'x' ∈ s then some 'x' else if 'z' ∈ s then some 'z' else if '-' ∈ s then some '-'
      else if 'u' ∈ s then some 'u' else if 'w' ∈ s then some 'w' else if 'h' ∈ s then some 'h'
      else if 'l' ∈ s then some 'l' else none := by
  simp only [mark, Precedence.first, marks, List.find?_cons, List.find?_nil]
  split_ifs <;> simp_all

/-- `kind_for_binary_representation` goes by the mark. -/
theorem kindForBinaryRepresentation_eq (s : List Char) :
    kindForBinaryRepresentation s = ((mark s).map fun c => (markName c).2).getD .normal := by
  rw [mark_eq, kindForBinaryRepresentation]
  split_ifs <;> simp_all [markName]

/-- `check_vector_variable` goes by the mark. -/
theorem checkVectorVariable_of_mark {c : Char} (h : mark s = some c) :
    checkVectorVariable s = some (markName c) := by
  rw [mark_eq] at h
  rw [checkVectorVariable]
  split_ifs at h <;> cases h <;> simp_all [markName]

theorem digit?_two_of_mark {c : Char} (h : c ∈ marks) : Numerals.digit? 2 c = none := by
  simp only [marks, List.mem_cons, List.not_mem_nil, or_false] at h
  rcases h with rfl | rfl | rfl | rfl | rfl | rfl | rfl <;> rfl

/-- A text with a mark is not read as a number. -/
theorem parseBytes_of_mark {c : Char} (hmark : mark s = some c) : parseBytes 2 s = none := by
  obtain ⟨hc, hmem⟩ := Precedence.mem_of_first hmark
  refine parseBytes_eq_none hmem ?_ ?_ (digit?_two_of_mark hc)
  · rintro rfl
    exact absurd hc (by decide)
  · rintro rfl
    exact absurd hc (by decide)

/-- `map_vector_variable` goes by the mark. -/
theorem mapVectorVariable_of_mark {c : Char} (hmark : mark s = some c) :
    mapVectorVariable s = .error (markName c) := by
  rw [mapVectorVariable, parseBytes_of_mark hmark]
  rw [mark_eq] at hmark
  split_ifs at hmark <;> cases hmark <;> simp_all [markName]

/-! ## Digits -/

/-- The digit of a group of bits is its mark, or the digit of its number. -/
theorem radixDigit_of_mark {g : List Char} {c : Char} (h : mark g = some c) : radixDigit g = ([c], false) := by
  rw [mark_eq] at h
  rw [radixDigit]
  split_ifs at h <;> cases h <;> simp_all

/-- The character of a group. -/
def groupDigit (g : List Char) : Char := (mark g).getD (value 2 g).digitChar

theorem radixDigit_eq_groupDigit {g : List Char} {n : ℕ} (hn : n ≤ 4) (hne : g ≠ []) (hle : g.length ≤ n)
    (h : NineValued g) : radixDigit g = ([groupDigit g], false) := by
  cases hmark : mark g with
  | some c => rw [radixDigit_of_mark hmark, groupDigit, hmark, Option.getD_some]
  | none =>
    have hbits : BinaryText n g := ⟨h.bits_iff.2 hmark, hne, hle⟩
    rw [radixDigit_eq hbits hn, groupDigit, hmark, Option.getD_none]

/-- The marks of the digits are the marks of the groups. -/
theorem mark_map_groupDigit {gs : List (List Char)} (h : ∀ g ∈ gs, value 2 g < 16) :
    mark (gs.map groupDigit) = mark gs.flatten := by
  rw [mark, mark, ← Precedence.first_flatten]
  refine Precedence.first_congr fun c hc => ?_
  rw [List.mem_map, List.mem_filterMap]
  constructor
  · rintro ⟨g, hg, rfl⟩
    cases hmark : mark g with
    | some c => exact ⟨g, hg, by rw [groupDigit, hmark]; exact hmark⟩
    | none =>
      -- the digit of a number is no mark
      rw [groupDigit, hmark] at hc
      exact absurd hc (digitChar_not_mem _ (h g hg))
  · rintro ⟨g, hg, hmark⟩
    exact ⟨g, hg, by rw [groupDigit, mark, hmark]; rfl⟩

/-- A text in a base that is a power of two, group by group. -/
theorem mapToRadix_of_nineValued {width : ℕ} (hwidth : 0 < width) (hwidth' : width ≤ 4)
    (h : NineValued (extendString s numBits ++ s)) :
    mapToRadix s width numBits =
      ((groups (extendString s numBits ++ s) width).map groupDigit,
        kindForBinaryRepresentation (extendString s numBits ++ s)) := by
  set bits := extendString s numBits ++ s with hbits
  have hgroup : ∀ g ∈ groups bits width, radixDigit g = ([groupDigit g], false) ∧ value 2 g < 16 := by
    intro g hg
    obtain ⟨hne, hle, hsub⟩ := length_le_of_mem_groups hwidth hg
    have hlt : value 2 g < 2 ^ 4 :=
      (value_lt (by omega) g).trans_le (Nat.pow_le_pow_right (by omega) (hle.trans hwidth'))
    exact ⟨radixDigit_eq_groupDigit hwidth' hne hle fun c hc => h c (hsub hc), hlt⟩
  have hdigits : (groupNChars bits width).map radixDigit =
      (groups bits width).map fun g => ([groupDigit g], false) :=
    List.map_congr_left fun g hg => (hgroup g hg).1
  have hflat : ((groups bits width).map fun g => ([groupDigit g], false)).flatMap Prod.fst =
      (groups bits width).map groupDigit := by
    rw [List.flatMap_map]
    exact List.map_eq_flatMap.symm
  -- no digit is an error, so the kind is the one of the text of digits
  have hany : ((groups bits width).map fun g => ([groupDigit g], false)).any Prod.snd = false := by
    simp
  have hmark := mark_map_groupDigit fun g hg => (hgroup g hg).2
  -- and the digits keep the marks of the bits
  rw [flatten_groups hwidth] at hmark
  rw [mapToRadix, ← hbits, hdigits, hflat, hany, kindForBinaryRepresentation_eq, hmark,
    ← kindForBinaryRepresentation_eq]
  rfl

/-! ## Extension -/

/-- A text is filled up with zeros or with its first bit. -/
theorem NineValued.extendString_eq (h : NineValued s) (hne : s ≠ []) :
    ∃ c, extendString s numBits = List.replicate (numBits - s.length) c ∧ (c = '0' ∨ c ∈ s) := by
  obtain ⟨c, tail, rfl⟩ := List.exists_cons_of_ne_nil hne
  have hc := h c List.mem_cons_self
  by_cases hlt : (c :: tail).length < numBits
  · simp only [extendString, if_pos hlt, List.head?_cons]
    simp only [nineValues, List.mem_cons, List.not_mem_nil, or_false] at hc
    rcases hc with rfl | rfl | hc
    · exact ⟨'0', rfl, .inl rfl⟩
    · exact ⟨'0', rfl, .inl rfl⟩
    · refine ⟨c, ?_, .inr List.mem_cons_self⟩
      rcases hc with rfl | rfl | rfl | rfl | rfl | rfl | rfl <;> rfl
  · refine ⟨'0', ?_, .inl rfl⟩
    rw [extendString, if_neg hlt, Nat.sub_eq_zero_of_le (Nat.not_lt.1 hlt), List.replicate_zero]

/-- A text that is filled up has the length that is asked for, and no other bits. -/
theorem NineValued.extended (h : NineValued s) (hne : s ≠ []) (hle : s.length ≤ numBits) :
    (extendString s numBits ++ s).length = numBits ∧ NineValued (extendString s numBits ++ s) ∧
      mark (extendString s numBits ++ s) = mark s := by
  obtain ⟨c, hext, hc⟩ := h.extendString_eq hne
  rw [hext]
  refine ⟨?_, ?_, Precedence.first_congr fun d hd => ?_⟩
  · rw [List.length_append, List.length_replicate]
    omega
  · -- the bits in front are zeros or the first bit again
    intro d hd
    rcases List.mem_append.1 hd with hd | hd
    · obtain rfl := List.eq_of_mem_replicate hd
      rcases hc with rfl | hc
      · decide
      · exact h _ hc
    · exact h d hd
  · rw [List.mem_append]
    refine ⟨fun hmem => hmem.elim (fun hmem => ?_) id, .inr⟩
    obtain rfl := List.eq_of_mem_replicate hmem
    rcases hc with rfl | hc
    · exact absurd hd (by decide)
    · exact hc

/-! ## The translators -/

/-- The translators that read the bits of a value. -/
inductive BitTranslator where
  | basic (t : BasicTranslator)
  | ascii
  | leb
  deriving DecidableEq

namespace BitTranslator

/-- `basic_translate`. -/
def translate (numBits : ℕ) (value : VariableValue) : BitTranslator → Run (List Char × ValueKind)
  | basic t => .ok (t.basicTranslate numBits value)
  | ascii => asciiTranslate numBits value
  | leb => .ok (lebTranslate numBits value)

/-- The number of bits of a digit, for a base that is a power of two. -/
def digitWidth : BitTranslator → Option ℕ
  | basic .hex => some 4
  | basic .octal => some 3
  | _ => none

end BitTranslator

/-- A digit is a numeral exactly if its bits are zeros and ones, and then the numeral of the bits. -/
def DigitOf (width : ℕ) (g : List Char) (d : Char) : Prop :=
  ((∃ k < 2 ^ width, d = k.digitChar) ↔ Bits g) ∧ (Bits g → d = (value 2 g).digitChar)

/-- The digits of a text of bits, from groups of `width` bits. -/
def DigitsOf (width : ℕ) (bits text : List Char) : Prop :=
  List.Forall₂ (DigitOf width) (groups bits width) text

/-- The translation of a text says whether a bit is neither zero nor one. -/
structure Tainted (numBits : ℕ) (s : List Char) (t : BitTranslator) (text : List Char) (kind : ValueKind) :
    Prop where
  bits_of_normal : kind = .normal → Bits s
  kind_eq : ¬ Bits s → kind = kindForBinaryRepresentation s
  length_extended : (extendString s numBits ++ s).length = numBits
  digits : ∀ width, t.digitWidth = some width → DigitsOf width (extendString s numBits ++ s) text

theorem digitOf_groupDigit {width : ℕ} {g : List Char} (hwidth : width ≤ 4) (hle : g.length ≤ width)
    (h : NineValued g) : DigitOf width g (groupDigit g) := by
  have hlt : value 2 g < 2 ^ width :=
    (value_lt (by omega) g).trans_le (Nat.pow_le_pow_right (by omega) hle)
  have hsixteen : 2 ^ width ≤ 2 ^ 4 := Nat.pow_le_pow_right (by omega) hwidth
  cases hmark : mark g with
  | none =>
    have hbits := h.bits_iff.2 hmark
    have hdigit : groupDigit g = (value 2 g).digitChar := by rw [groupDigit, hmark, Option.getD_none]
    exact ⟨iff_of_true ⟨_, hlt, hdigit⟩ hbits, fun _ => hdigit⟩
  | some c =>
    have hnot : ¬ Bits g := by
      rw [h.bits_iff, hmark]
      exact Option.some_ne_none c
    have hdigit : groupDigit g = c := by rw [groupDigit, hmark, Option.getD_some]
    refine ⟨iff_of_false ?_ hnot, fun hbits => absurd hbits hnot⟩
    -- a mark is no numeral
    rintro ⟨k, hk, heq⟩
    have hmem := (Precedence.mem_of_first hmark).1
    rw [← hdigit, heq] at hmem
    exact digitChar_not_mem k (by omega) hmem

theorem kind_ne_normal {c : Char} : (markName c).2 ≠ .normal := by
  unfold markName
  split <;> simp

/-- The kind of a text with a mark, and of one without. -/
theorem NineValued.kind_eq_normal_iff (h : NineValued s) : kindForBinaryRepresentation s = .normal ↔ Bits s := by
  rw [h.bits_iff, kindForBinaryRepresentation_eq]
  cases mark s with
  | none => simp
  | some c => simp [kind_ne_normal]

/-- The number a text stands for, or the kind of the text. -/
theorem NineValued.translateNumeric_kind (h : NineValued s) (hne : s ≠ []) (f : ℕ → List Char) :
    (translateNumeric f (.string (String.ofList s))).2 = kindForBinaryRepresentation s := by
  cases hmark : mark s with
  | none =>
    have hbits : BinaryText s.length s := ⟨h.bits_iff.2 hmark, hne, le_rfl⟩
    simp only [translateNumeric, parseBigUint, String.toList_ofList, hbits.mapVectorVariable_eq, hbits.kind_eq]
  | some c =>
    rw [kindForBinaryRepresentation_eq, hmark]
    simp only [translateNumeric, parseBigUint, String.toList_ofList, mapVectorVariable_of_mark hmark]
    rfl

/-- All translators that show one number or count bits take the kind of the text. -/
theorem NineValued.basicTranslate_kind (h : NineValued s) (hne : s ≠ []) (hle : s.length ≤ numBits)
    (t : BasicTranslator) :
    (t.basicTranslate numBits (.string (String.ofList s))).2 = kindForBinaryRepresentation s := by
  obtain ⟨-, hnine, hmark⟩ := h.extended hne hle
  -- only the digits are looked at after the text is filled up
  have hradix : ∀ width, 0 < width → width ≤ 4 →
      (mapToRadix s width numBits).2 = kindForBinaryRepresentation s := by
    intro width hwidth hwidth'
    rw [mapToRadix_of_nineValued hwidth hwidth' hnine, kindForBinaryRepresentation_eq, hmark,
      ← kindForBinaryRepresentation_eq]
  cases t with
  | hex =>
    simp only [BasicTranslator.basicTranslate, hexTranslate, String.toList_ofList]
    exact hradix 4 (by omega) (by omega)
  | octal =>
    simp only [BasicTranslator.basicTranslate, octalTranslate, String.toList_ofList]
    exact hradix 3 (by omega) (by omega)
  | unsigned => exact h.translateNumeric_kind hne _
  | signed => exact h.translateNumeric_kind hne _
  | binary => simp only [BasicTranslator.basicTranslate, binaryTranslate, String.toList_ofList]
  | groupingBinary => simp only [BasicTranslator.basicTranslate, groupingBinaryTranslate, String.toList_ofList]
  | numberOfOnes => simp only [BasicTranslator.basicTranslate, numberOfOnesTranslate, String.toList_ofList]
  | leadingOnes =>
    simp only [BasicTranslator.basicTranslate, leadingOnesTranslate, leadingOnesOfString, String.toList_ofList]
  | trailingOnes => simp only [BasicTranslator.basicTranslate, trailingOnesTranslate, String.toList_ofList]
  | leadingZeros =>
    simp only [BasicTranslator.basicTranslate, leadingZerosTranslate, leadingZerosOfString, String.toList_ofList]
  | trailingZeros => simp only [BasicTranslator.basicTranslate, trailingZerosTranslate, String.toList_ofList]
  | identicalMSBs =>
    simp only [BasicTranslator.basicTranslate, identicalMSBsTranslate, identicalMSBsOfString, String.toList_ofList]

/-- The digits of a text in a base that is a power of two. -/
theorem NineValued.digitsOf_mapToRadix {width : ℕ} (hwidth : 0 < width) (hwidth' : width ≤ 4) (h : NineValued s)
    (hne : s ≠ []) (hle : s.length ≤ numBits) :
    DigitsOf width (extendString s numBits ++ s) (mapToRadix s width numBits).1 := by
  obtain ⟨-, hnine, -⟩ := h.extended hne hle
  rw [mapToRadix_of_nineValued hwidth hwidth' hnine, DigitsOf, List.forall₂_map_right_iff, List.forall₂_same]
  intro g hg
  obtain ⟨-, hlen, hsub⟩ := length_le_of_mem_groups hwidth hg
  exact digitOf_groupDigit hwidth' hlen fun c hc => hnine c (hsub hc)

/-- The translators that do not count bits find the mark, if there is one. -/
theorem translate_of_mark (numBits : ℕ) {c : Char} (hmark : mark s = some c) :
    lebTranslate numBits (.string (String.ofList s)) =
        ((markName c).1.toList, kindForBinaryRepresentation s) ∧
      asciiTranslate numBits (.string (String.ofList s)) =
        .ok ((markName c).1.toList, kindForBinaryRepresentation s) := by
  have hcheck := checkVectorVariable_of_mark hmark
  have hkind : kindForBinaryRepresentation s = (markName c).2 := by
    rw [kindForBinaryRepresentation_eq, hmark]
    rfl
  rw [hkind]
  constructor
  · simp only [lebTranslate, String.toList_ofList, hcheck]
  · simp only [asciiTranslate, String.toList_ofList, hcheck]

/-- Every translator returns, and its translation says whether a bit is neither zero nor one. -/
theorem translate_tainted (s : List Char) (hne : s ≠ []) (hnine : NineValued s) (numBits : ℕ)
    (hle : s.length ≤ numBits) (t : BitTranslator) :
    ∃ text kind, t.translate numBits (.string (String.ofList s)) = .ok (text, kind) ∧
      Tainted numBits s t text kind := by
  have hlength := (hnine.extended hne hle).1
  -- the kind of the text is right for a translator without digits
  have hkind : ∀ {t : BitTranslator} {text : List Char}, t.digitWidth = none →
      Tainted numBits s t text (kindForBinaryRepresentation s) := by
    intro t text hdigits
    refine ⟨hnine.kind_eq_normal_iff.1, fun _ => rfl, hlength, fun width hwidth => ?_⟩
    rw [hdigits] at hwidth
    cases hwidth
  cases t with
  | basic t =>
    refine ⟨(t.basicTranslate numBits _).1, (t.basicTranslate numBits _).2, rfl, ?_⟩
    rw [hnine.basicTranslate_kind hne hle t]
    refine ⟨hnine.kind_eq_normal_iff.1, fun _ => rfl, hlength, fun width hwidth => ?_⟩
    cases t with
    | hex =>
      cases hwidth
      simp only [BasicTranslator.basicTranslate, hexTranslate, String.toList_ofList]
      exact hnine.digitsOf_mapToRadix (by omega) (by omega) hne hle
    | octal =>
      cases hwidth
      simp only [BasicTranslator.basicTranslate, octalTranslate, String.toList_ofList]
      exact hnine.digitsOf_mapToRadix (by omega) (by omega) hne hle
    | _ => cases hwidth
  | ascii =>
    cases hmark : mark s with
    | none =>
      have hbits : BinaryText numBits s := ⟨hnine.bits_iff.2 hmark, hne, hle⟩
      refine ⟨_, _, asciiTranslate_string hbits, ?_⟩
      rw [← hbits.kind_eq]
      exact hkind rfl
    | some c =>
      exact ⟨_, _, (translate_of_mark numBits hmark).2, hkind rfl⟩
  | leb =>
    cases hmark : mark s with
    | none =>
      -- a number that is not encoded is warned of, but its bits are zeros and ones
      have hbits := hnine.bits_iff.2 hmark
      refine ⟨_, _, rfl, fun _ => hbits, fun hnot => absurd hbits hnot, hlength, fun width hwidth => ?_⟩
      cases hwidth
    | some c =>
      exact ⟨_, _, congrArg Except.ok (translate_of_mark numBits hmark).1, hkind rfl⟩

/-- A text of three bits, in a vector of five. -/
theorem translate_tainted_three :
    ∃ text kind, (BitTranslator.basic .hex).translate 5 (.string (String.ofList ['1', 'x', '0'])) = .ok (text, kind) ∧
      Tainted 5 ['1', 'x', '0'] (.basic .hex) text kind :=
  translate_tainted ['1', 'x', '0'] (by simp) (by simp [NineValued, nineValues]) 5 (by simp) (.basic .hex)

end Translation
