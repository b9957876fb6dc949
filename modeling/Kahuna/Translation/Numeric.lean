import Kahuna.Numerals.Grouping
import Kahuna.Text.Separators
import Kahuna.Translation.Mapping
import Kahuna.Translation.Signed

/-!
# The number that a value is drawn at

The default of `basic_translate_numeric` in `translator.rs` reads the translated text again, in a base that it
guesses from the name of the translator, and `basic_numeric_range` in `translation/mod.rs` says between which
numbers a value is. Numbers are exact here (`Floats.Exact`), and the formatting of a number may panic.

* `numericIsText_iff`: the number is the one that the text denotes, except for octal texts of more than one digit
  and for binary texts of more than one group, and for numbers that are too wide to be formatted.
-/

namespace Translation

open Numerals Text Wave

variable {F : Type}

namespace BasicTranslator

/-- The width in digits that a translator formats a number with. -/
def formattedWidth (t : BasicTranslator) (numBits : ℕ) : Option ℕ :=
  match t with
  | hex => some ((numBits + 3) / 4)
  | octal => some ((numBits + 2) / 3)
  | binary | groupingBinary | leadingOnes | leadingZeros | identicalMSBs => some numBits
  | unsigned | signed | numberOfOnes | trailingOnes | trailingZeros => none

/-- The width of a formatted value has sixteen bits. -/
def Formats (t : BasicTranslator) (numBits : ℕ) : VariableValue → Prop
  | .bigUint _ => (t.formattedWidth numBits).getD 0 < 2 ^ 16
  | .string _ => True

instance (t : BasicTranslator) (numBits : ℕ) (value : VariableValue) : Decidable (t.Formats numBits value) := by
  cases value
  · exact inferInstanceAs (Decidable (_ < _))
  · exact inferInstanceAs (Decidable True)

/-- `basic_translate`. -/
def translateRun (t : BasicTranslator) (numBits : ℕ) (value : VariableValue) : Run (List Char × ValueKind) :=
  if t.Formats numBits value then .ok (t.basicTranslate numBits value)
  else .error (.assertion "Formatting argument out of range")

/-- The default of `basic_translate_numeric`. -/
def numericOfTextRun (fl : Floats F) (t : BasicTranslator) (numBits : ℕ) (value : VariableValue) :
    Run (Option F) := do
  let (val, kind) ← t.translateRun numBits value
  match kind with
  | .highImp => return some fl.nanHighImp
  | .undef => return some fl.nanUndef
  | _ => return parseNumericString fl val t.name

/-- `basic_translate_numeric`. The translators that have their own do not format anything. -/
def numericRun (fl : Floats F) (t : BasicTranslator) (numBits : ℕ) (value : VariableValue) : Run (Option F) :=
  match t with
  | hex | octal | binary | groupingBinary => t.numericOfTextRun fl numBits value
  | _ => .ok (t.basicTranslateNumeric fl numBits value)

end BasicTranslator

/-- `NumericRange`. -/
structure NumericRange where
  min : ℤ
  max : ℤ
  deriving DecidableEq

/-- `f64::MAX_EXP`. -/
def maxExp : ℕ := 1024

/-- `integer_numeric_range`. -/
def integerNumericRange (numBits : ℕ) (signed : Bool) : Option NumericRange :=
  if numBits = 0 ∨ maxExp ≤ numBits then none
  else if signed then some ⟨-2 ^ (numBits - 1), 2 ^ (numBits - 1) - 1⟩
  else some ⟨0, 2 ^ numBits - 1⟩

/-- `basic_numeric_range`. -/
def BasicTranslator.basicNumericRange (t : BasicTranslator) (numBits : ℕ) : Option NumericRange :=
  match t with
  | hex | octal | binary | groupingBinary | unsigned => integerNumericRange numBits false
  | signed => integerNumericRange numBits true
  | _ => none

/-! ## What a text denotes -/

/-- The base of a translator's text. -/
def BasicTranslator.radix : BasicTranslator → ℕ
  | hex => 16
  | octal => 8
  | binary | groupingBinary => 2
  | _ => 10

/-- The natural number that a text denotes, in which blanks may separate groups of digits. -/
def denotedNat (radix : ℕ) (text : List Char) : Option ℕ :=
  let digits := text.filter (· ≠ ' ')
  if digits ≠ [] ∧ IsNumeral radix digits then some (value radix digits) else none

/-- The integer that a text denotes. -/
def denoted (radix : ℕ) (text : List Char) : Option ℤ :=
  match text with
  | '-' :: digits => (denotedNat radix digits).map fun n : ℕ => -(n : ℤ)
  | _ => (denotedNat radix text).map fun n : ℕ => (n : ℤ)

/-- Floating-point numbers that hold every integer. -/
structure Floats.Exact (fl : Floats F) (ofInt : ℤ → F) : Prop where
  injective : Function.Injective ofInt
  ofU64 (n : ℕ) : fl.ofU64 n = ofInt n
  toF64 (n : ℕ) : fl.toF64 n = some (ofInt n)
  neg (z : ℤ) : fl.neg (ofInt z) = ofInt (-z)
  parse {l : List Char} (hne : l ≠ []) (h : IsNumeral 10 l) : fl.parse l = some (ofInt (value 10 l))

/-- A value of `n` bits, given as a number or as a text of `n` bits. -/
inductive GivenAs (n v : ℕ) : VariableValue → Prop
  | bigUint : GivenAs n v (.bigUint v)
  | string {s : String} (hbits : ∀ c ∈ s.toList, c = '0' ∨ c = '1') (hlen : s.toList.length = n)
      (hvalue : value 2 s.toList = v) : GivenAs n v (.string s)

/-- The number that a value is drawn at is the one its text denotes, and in the range of the translator. -/
def NumericIsText (fl : Floats F) (ofInt : ℤ → F) (t : BasicTranslator) (n : ℕ) (x : VariableValue) : Prop :=
  ∃ text kind z, t.translateRun n x = .ok (text, kind) ∧ denoted t.radix text = some z ∧
    t.numericRun fl n x = .ok (some (ofInt z)) ∧
    ∀ range, t.basicNumericRange n = some range → range.min ≤ z ∧ z ≤ range.max

/-! ## Reading digits -/

section Digits

variable {b : ℕ} {l : List Char}

theorem not_mem_of_canonical (hb : b ≤ 16) (h : Canonical b l) {c : Char} (hc : digit? b c = none) : c ∉ l := by
  intro hmem
  obtain ⟨d, hd, rfl⟩ := h c hmem
  rw [digit?_digitChar hb hd] at hc
  cases hc

theorem filter_blank_of_canonical (hb : b ≤ 16) (h : Canonical b l) : l.filter (· ≠ ' ') = l := by
  rw [List.filter_eq_self]
  intro c hc
  have hne : c ≠ ' ' := by
    rintro rfl
    exact not_mem_of_canonical hb h rfl hc
  simpa using hne

theorem denotedNat_of_canonical (hb : b ≤ 16) (h : Canonical b l) (hne : l ≠ []) :
    denotedNat b l = some (value b l) := by
  simp only [denotedNat, filter_blank_of_canonical hb h]
  exact if_pos ⟨hne, h.isNumeral hb⟩

theorem denoted_of_denotedNat {n : ℕ} {text : List Char} (hsign : text.head? ≠ some '-')
    (h : denotedNat b text = some n) : denoted b text = some (n : ℤ) := by
  unfold denoted
  split
  · exact absurd rfl hsign
  · rw [h]
    rfl

theorem denoted_of_canonical (hb : b ≤ 16) (h : Canonical b l) (hne : l ≠ []) :
    denoted b l = some (value b l : ℤ) := by
  refine denoted_of_denotedNat (fun hhead => ?_) (denotedNat_of_canonical hb h hne)
  exact not_mem_of_canonical hb h rfl (List.mem_of_head? hhead)

theorem denoted_toDigits (n : ℕ) : denoted 10 (Nat.toDigits 10 n) = some (n : ℤ) := by
  have hne : Nat.toDigits 10 n ≠ [] := List.length_pos_iff.1 Nat.length_toDigits_pos
  rw [denoted_of_canonical (by omega) (canonical_toDigits (by omega) n) hne, value_toDigits (by omega) (by omega)]

theorem denoted_printInt (z : ℤ) : denoted 10 (printInt z) = some z := by
  cases z with
  | ofNat n => exact denoted_toDigits n
  | negSucc n =>
    have hne : Nat.toDigits 10 (n + 1) ≠ [] := List.length_pos_iff.1 Nat.length_toDigits_pos
    rw [printInt, denoted, denotedNat_of_canonical (by omega) (canonical_toDigits (by omega) _) hne,
      value_toDigits (by omega) (by omega)]
    rfl

theorem trim_of_canonical (hb : b ≤ 16) (h : Canonical b l) (hne : l ≠ []) : trim l = l := by
  have hno : ∀ c ∈ l, ¬ isWhitespace c := by
    intro c hc
    obtain ⟨d, hd, rfl⟩ := h c hc
    have hd' : d < 16 := by omega
    interval_cases d <;> decide
  exact trim_of_trimmed ⟨fun c hc => hno c (List.mem_of_head? hc), fun c hc => hno c (List.mem_of_getLast? hc)⟩ hne

/-- A sign or an underscore is no digit. -/
theorem parseBytes_of_canonical (hb : b ≤ 16) (h : Canonical b l) (hne : l ≠ []) :
    parseBytes b l = some (value b l) := by
  have hhead : ∀ c, digit? b c = none → l.head? ≠ some c :=
    fun c hc hhead => not_mem_of_canonical hb h hc (List.mem_of_head? hhead)
  have hfilter : l.filter (· ≠ '_') = l := by
    rw [List.filter_eq_self]
    intro c hc
    have hne : c ≠ '_' := by
      rintro rfl
      exact not_mem_of_canonical hb h rfl hc
    simpa using hne
  simp only [parseBytes, hhead '+' rfl, hhead '_' rfl, hne, hfilter, h.isNumeral hb, false_and, or_self, if_false,
    if_true]

/-- Digits do not begin with a prefix that has a letter beyond them. -/
theorem stripPrefix_of_not_mem {start : List Char} {c : Char} (hc : c ∈ start) (h : c ∉ l) :
    stripPrefix start l = none :=
  if_neg fun hstart => h (List.IsPrefix.subset hstart hc)

end Digits

/-! ## The number is read back -/

namespace Floats.Exact

variable {fl : Floats F} {ofInt : ℤ → F}

theorem bigUintToF64_eq (h : fl.Exact ofInt) (v : ℕ) : bigUintToF64 fl v = ofInt v := by
  rw [bigUintToF64, h.ofU64, h.toF64, Option.getD_some, ite_self]

variable {l : List Char}

theorem parseNumericString_hex (h : fl.Exact ofInt) (hl : Canonical 16 l) (hne : l ≠ []) :
    parseNumericString fl l "Hexadecimal" = some (ofInt (value 16 l)) := by
  have hlower : stripPrefix ['0', 'x'] l = none :=
    stripPrefix_of_not_mem (c := 'x') (by simp) (not_mem_of_canonical le_rfl hl rfl)
  have hupper : stripPrefix ['0', 'X'] l = none :=
    stripPrefix_of_not_mem (c := 'X') (by simp) (not_mem_of_canonical le_rfl hl rfl)
  have hname : ['h', 'e', 'x'] <:+: "Hexadecimal".toList.map Char.toLower := by decide
  simp only [parseNumericString, trim_of_canonical le_rfl hl hne, if_pos hname, hlower, hupper,
    Option.orElse_none, Option.getD_none, parseBytes_of_canonical le_rfl hl hne, Option.map_some, h.bigUintToF64_eq]

/-- A name with the letters of binary has the text read in base two. -/
theorem parseNumericString_bin (h : fl.Exact ofInt) (hl : Canonical 2 l) (hne : l ≠ []) (name : String)
    (hhex : ¬ ['h', 'e', 'x'] <:+: name.toList.map Char.toLower)
    (hbin : ['b', 'i', 'n'] <:+: name.toList.map Char.toLower) :
    parseNumericString fl l name = some (ofInt (value 2 l)) := by
  have hlower : stripPrefix ['0', 'b'] l = none :=
    stripPrefix_of_not_mem (c := 'b') (by simp) (not_mem_of_canonical (by omega) hl rfl)
  have hupper : stripPrefix ['0', 'B'] l = none :=
    stripPrefix_of_not_mem (c := 'B') (by simp) (not_mem_of_canonical (by omega) hl rfl)
  simp only [parseNumericString, trim_of_canonical (by omega) hl hne, if_neg hhex, if_pos hbin, hlower, hupper,
    Option.orElse_none, Option.getD_none, parseBytes_of_canonical (by omega) hl hne, Option.map_some,
    h.bigUintToF64_eq]

theorem parseNumericString_octal (h : fl.Exact ofInt) (hl : Canonical 8 l) (hne : l ≠ []) :
    parseNumericString fl l "Octal" = some (ofInt (value 10 l)) := by
  have hhex : ¬ ['h', 'e', 'x'] <:+: "Octal".toList.map Char.toLower := by decide
  have hbin : ¬ ['b', 'i', 'n'] <:+: "Octal".toList.map Char.toLower := by decide
  have hten : IsNumeral 10 l := by
    intro c hc
    obtain ⟨d, hd, rfl⟩ := hl c hc
    rw [digit?_digitChar (by omega) (by omega)]
    rfl
  simp only [parseNumericString, trim_of_canonical (by omega) hl hne, if_neg hhex, if_neg hbin, h.parse hne hten]

end Floats.Exact

/-! ## Groups -/

/-- Parts without white space that are joined by blanks. -/
theorem trimmed_intercalate {parts : List (List Char)} (hne : parts ≠ [])
    (h : ∀ part ∈ parts, part ≠ [] ∧ ∀ c ∈ part, ¬ isWhitespace c) :
    Trimmed ([' '].intercalate parts) ∧ [' '].intercalate parts ≠ [] := by
  induction parts with
  | nil => exact absurd rfl hne
  | cons part parts ih =>
    rw [List.forall_mem_cons] at h
    obtain ⟨⟨hpart, hblank⟩, hparts⟩ := h
    cases parts with
    | nil =>
      rw [List.intercalate_singleton]
      exact ⟨⟨fun c hc => hblank c (List.mem_of_head? hc), fun c hc => hblank c (List.mem_of_getLast? hc)⟩, hpart⟩
    | cons next rest =>
      obtain ⟨htrimmed, hrest⟩ := ih (List.cons_ne_nil _ _) hparts
      rw [List.intercalate_cons_cons, List.append_assoc]
      refine ⟨⟨fun c hc => ?_, fun c hc => ?_⟩, by simp [hpart]⟩
      · rw [List.head?_append_of_ne_nil _ hpart] at hc
        exact hblank c (List.mem_of_head? hc)
      · rw [List.getLast?_append_of_ne_nil _ (by simp), List.getLast?_append_of_ne_nil _ hrest] at hc
        exact htrimmed.last c hc

/-- The text of more than one group has a blank in it. -/
theorem mem_intercalate {parts : List (List Char)} (h : 1 < parts.length) : ' ' ∈ [' '].intercalate parts := by
  obtain ⟨part, next, rest, rfl⟩ : ∃ part next rest, parts = part :: next :: rest := by
    match parts, h with
    | part :: next :: rest, _ => exact ⟨part, next, rest, rfl⟩
  rw [List.intercalate_cons_cons]
  simp

section Groups

variable {n v : ℕ}

theorem mem_groups_padded {g : List Char} (hg : g ∈ groups (padded 2 n v) 4) :
    g ≠ [] ∧ ∀ c ∈ g, ¬ isWhitespace c := by
  obtain ⟨hne, -, hsub⟩ := length_le_of_mem_groups (by omega) hg
  refine ⟨hne, fun c hc => ?_⟩
  obtain ⟨d, hd, rfl⟩ := canonical_padded (b := 2) (by omega) n v c (hsub hc)
  have hcases : d = 0 ∨ d = 1 := by omega
  rcases hcases with rfl | rfl <;> decide

theorem groups_padded_ne_nil : groups (padded 2 n v) 4 ≠ [] := by
  intro hnil
  have hflat := flatten_groups (n := 4) (by omega) (padded 2 n v)
  rw [hnil] at hflat
  exact padded_ne_nil 2 n v hflat.symm

/-- The blanks between the groups can be taken out again. -/
theorem filter_groups (n v : ℕ) :
    ([' '].intercalate (groups (padded 2 n v) 4)).filter (· ≠ ' ') = padded 2 n v := by
  have hinserted := Inserted.intercalate [' '] (groups (padded 2 n v) 4)
  rw [flatten_groups (by omega)] at hinserted
  have hfilter := hinserted.filter_eq fun c hc hblank => by
    rw [List.mem_singleton.1 hblank] at hc
    exact not_mem_of_canonical (by omega) (canonical_padded (by omega) n v) rfl hc
  simpa only [List.mem_singleton] using hfilter

theorem mem_padded_of_mem_groups {c : Char} (hc : c ≠ ' ') (hmem : c ∈ [' '].intercalate (groups (padded 2 n v) 4)) :
    c ∈ padded 2 n v := by
  rw [← filter_groups]
  exact List.mem_filter.2 ⟨hmem, by simpa using hc⟩

theorem not_mem_groups {c : Char} (hc : c ≠ ' ') (hdigit : digit? 2 c = none) :
    c ∉ [' '].intercalate (groups (padded 2 n v) 4) := fun hmem =>
  not_mem_of_canonical (by omega) (canonical_padded (by omega) n v) hdigit (mem_padded_of_mem_groups hc hmem)

theorem denoted_groups : denoted 2 ([' '].intercalate (groups (padded 2 n v) 4)) = some (v : ℤ) := by
  have hcanonical := canonical_padded (b := 2) (by omega) n v
  refine denoted_of_denotedNat (fun hhead => ?_) ?_
  · exact not_mem_groups (by decide) rfl (List.mem_of_head? hhead)
  · simp only [denotedNat, filter_groups]
    rw [if_pos ⟨padded_ne_nil 2 n v, hcanonical.isNumeral (by omega)⟩, value_padded (by omega) (by omega)]

/-- The text of more than one group is not read as a number. -/
theorem parseNumericString_groups (fl : Floats F) (hn : 4 < n) (hv : v < 2 ^ n) :
    parseNumericString fl ([' '].intercalate (groups (padded 2 n v) 4)) "Binary (with groups)" = none := by
  obtain ⟨htrimmed, hne⟩ := trimmed_intercalate groups_padded_ne_nil fun g hg =>
    mem_groups_padded (n := n) (v := v) hg
  have hlength : 1 < (groups (padded 2 n v) 4).length := by
    rw [length_groups (by omega), length_padded (by omega) (by omega) hv]
    omega
  have hblank := mem_intercalate hlength
  have hhex : ¬ ['h', 'e', 'x'] <:+: "Binary (with groups)".toList.map Char.toLower := by decide
  have hbin : ['b', 'i', 'n'] <:+: "Binary (with groups)".toList.map Char.toLower := by decide
  have hlower : stripPrefix ['0', 'b'] ([' '].intercalate (groups (padded 2 n v) 4)) = none :=
    stripPrefix_of_not_mem (c := 'b') (by simp) (not_mem_groups (by decide) rfl)
  have hupper : stripPrefix ['0', 'B'] ([' '].intercalate (groups (padded 2 n v) 4)) = none :=
    stripPrefix_of_not_mem (c := 'B') (by simp) (not_mem_groups (by decide) rfl)
  have hparse : parseBytes 2 ([' '].intercalate (groups (padded 2 n v) 4)) = none :=
    parseBytes_eq_none hblank (by decide) (by decide) rfl
  simp only [parseNumericString, trim_of_trimmed htrimmed hne, if_neg hhex, if_pos hbin, hlower, hupper,
    Option.orElse_none, Option.getD_none, hparse, Option.map_none]

end Groups

/-! ## Leading bits -/

section Leading

variable {n v : ℕ}

theorem leadingZerosOfString_padded (hn : 0 < n) (hv : v < 2 ^ n) :
    (leadingZerosOfString n (padded 2 n v)).1 = Nat.toDigits 10 (n - bits v) := by
  have hext : extendString (padded 2 n v) n = [] := by
    rw [extendString, if_neg (by rw [length_padded (by omega) hn hv]; omega)]
  simp only [leadingZerosOfString, hext, List.nil_append, leadingZeros_padded hn hv, bits]

/-- A number below the highest bit has no ones in front. -/
theorem leadingOnes_eq_sub (hn : 0 < n) (hv : v < 2 ^ n) :
    leadingOnes v n = n - bits (2 ^ n - 1 - v) := by
  rw [leadingOnes]
  split
  next hshort =>
    have hhalf : v < 2 ^ (n - 1) := (Nat.digits_length_le_iff (by omega) v).1 (by rw [bits] at hshort; omega)
    have htwice := signweight_mul_two hn
    have hfull : ¬ bits (2 ^ n - 1 - v) ≤ n - 1 := by
      rw [bits, Nat.digits_length_le_iff (by omega)]
      omega
    omega
  next => simp only [mask_xor hv]

theorem leadingOnesOfString_padded (hn : 0 < n) (hv : v < 2 ^ n) :
    (leadingOnesOfString n (padded 2 n v)).1 = Nat.toDigits 10 (leadingOnes v n) := by
  rw [leadingOnesOfString, if_pos (length_padded (by omega) hn hv), leadingOnes_padded hn hv, leadingOnes_eq_sub hn hv]
  rfl

theorem identicalMSBsOfString_padded (hn : 0 < n) (hv : v < 2 ^ n) :
    (identicalMSBsOfString n (padded 2 n v)).1 = Nat.toDigits 10 (max (n - bits v) (leadingOnes v n)) := by
  have hext : extendString (padded 2 n v) n = [] := by
    rw [extendString, if_neg (by rw [length_padded (by omega) hn hv]; omega)]
  simp only [identicalMSBsOfString, hext, List.nil_append, leadingZeros_padded hn hv, leadingOnes_padded hn hv,
    leadingOnes_eq_sub hn hv, bits]
  rw [Nat.max_comm]

end Leading

/-! ## Each translator -/

/-- The text of a number denotes an integer, which is the number that it is drawn at. -/
structure Reads (fl : Floats F) (ofInt : ℤ → F) (t : BasicTranslator) (n v : ℕ) (z : ℤ) : Prop where
  text : denoted t.radix (t.basicTranslate n (.bigUint v)).1 = some z
  numeric : t.basicTranslateNumeric fl n (.bigUint v) = some (ofInt z)
  range : ∀ range, t.basicNumericRange n = some range → range.min ≤ z ∧ z ≤ range.max

section Reads

variable {fl : Floats F} {ofInt : ℤ → F} {n v : ℕ}

theorem range_unsigned (hv : v < 2 ^ n) {range : NumericRange} (h : integerNumericRange n false = some range) :
    range.min ≤ (v : ℤ) ∧ (v : ℤ) ≤ range.max := by
  rw [integerNumericRange] at h
  split at h
  · cases h
  · obtain rfl := Option.some.inj h
    have hpow : ((2 ^ n : ℕ) : ℤ) = 2 ^ n := by push_cast; rfl
    dsimp only
    omega

theorem range_signed (hn : 0 < n) (hv : v < 2 ^ n) {range : NumericRange}
    (h : integerNumericRange n true = some range) :
    range.min ≤ twosComplement n v ∧ twosComplement n v ≤ range.max := by
  rw [integerNumericRange] at h
  split at h
  · cases h
  · obtain rfl := Option.some.inj h
    have hpow : ((2 ^ n : ℕ) : ℤ) = 2 ^ n := by push_cast; rfl
    have hhalf : ((2 ^ (n - 1) : ℕ) : ℤ) = 2 ^ (n - 1) := by push_cast; rfl
    have htwice := signweight_mul_two hn
    dsimp only
    rw [twosComplement]
    split <;> omega

theorem reads_hex (h : fl.Exact ofInt) (hv : v < 2 ^ n) : Reads fl ofInt .hex n v v where
  text := by
    have hcanonical := canonical_padded (b := 16) (by omega) ((n + 3) / 4) v
    have hdenoted := denoted_of_canonical (by omega) hcanonical (padded_ne_nil _ _ _)
    rwa [value_padded (by omega) (by omega)] at hdenoted
  numeric := by
    have hcanonical := canonical_padded (b := 16) (by omega) ((n + 3) / 4) v
    have hparse := h.parseNumericString_hex hcanonical (padded_ne_nil _ _ _)
    rwa [value_padded (by omega) (by omega)] at hparse
  range _ := range_unsigned hv

theorem reads_binary (h : fl.Exact ofInt) (hv : v < 2 ^ n) : Reads fl ofInt .binary n v v where
  text := by
    have hcanonical := canonical_padded (b := 2) (by omega) n v
    have hdenoted := denoted_of_canonical (by omega) hcanonical (padded_ne_nil _ _ _)
    rwa [value_padded (by omega) (by omega)] at hdenoted
  numeric := by
    have hcanonical := canonical_padded (b := 2) (by omega) n v
    have hparse := h.parseNumericString_bin hcanonical (padded_ne_nil _ _ _) "Binary" (by decide) (by decide)
    rwa [value_padded (by omega) (by omega)] at hparse
  range _ := range_unsigned hv

/-- An octal text is read in base ten. -/
theorem reads_octal_iff (h : fl.Exact ofInt) (hv : v < 2 ^ n) :
    (∃ z, Reads fl ofInt .octal n v z) ↔ v < 8 := by
  have hcanonical := canonical_padded (b := 8) (by omega) ((n + 2) / 3) v
  have hvalue : value 8 (padded 8 ((n + 2) / 3) v) = v := value_padded (by omega) (by omega) _ _
  have hdenoted := denoted_of_canonical (by omega) hcanonical (padded_ne_nil _ _ _)
  rw [hvalue] at hdenoted
  have hparse : BasicTranslator.octal.basicTranslateNumeric fl n (.bigUint v) =
      some (ofInt (value 10 (padded 8 ((n + 2) / 3) v))) :=
    h.parseNumericString_octal hcanonical (padded_ne_nil _ _ _)
  have hiff := value_eq_value_iff (show 0 < 8 by omega) (show 8 < 10 by omega) (by omega) hcanonical
  rw [hvalue] at hiff
  rw [← hiff]
  constructor
  · rintro ⟨z, htext, hnumeric, -⟩
    obtain rfl : (v : ℤ) = z := Option.some.inj (hdenoted.symm.trans htext)
    have hint := h.injective (Option.some.inj (hparse.symm.trans hnumeric))
    exact_mod_cast hint
  · intro heq
    rw [heq] at hparse
    exact ⟨v, hdenoted, hparse, fun _ => range_unsigned hv⟩

/-- A binary text in groups is read only if there is one group. -/
theorem reads_groupingBinary_iff (h : fl.Exact ofInt) (hn : 0 < n) (hv : v < 2 ^ n) :
    (∃ z, Reads fl ofInt .groupingBinary n v z) ↔ n ≤ 4 := by
  constructor
  · rintro ⟨z, -, hnumeric, -⟩
    by_contra hlt
    have hnone : BasicTranslator.groupingBinary.basicTranslateNumeric fl n (.bigUint v) = none := by
      simp only [BasicTranslator.basicTranslateNumeric, BasicTranslator.numericOfText, BasicTranslator.basicTranslate,
        groupingBinaryTranslate, groupNChars]
      exact parseNumericString_groups fl (Nat.not_le.1 hlt) hv
    rw [hnone] at hnumeric
    cases hnumeric
  · intro hle
    refine ⟨v, denoted_groups, ?_, fun _ => range_unsigned hv⟩
    have hone : groups (padded 2 n v) 4 = [padded 2 n v] :=
      groups_of_length_le (padded_ne_nil _ _ _) (by rw [length_padded (by omega) hn hv]; exact hle)
    have htext : (groupingBinaryTranslate n (.bigUint v)) = (padded 2 n v, .normal) := by
      simp only [groupingBinaryTranslate, groupNChars, hone, List.intercalate_singleton]
    have hparse := h.parseNumericString_bin (canonical_padded (b := 2) (by omega) n v) (padded_ne_nil _ _ _)
      "Binary (with groups)" (by decide) (by decide)
    rw [value_padded (by omega) (by omega)] at hparse
    simp only [BasicTranslator.basicTranslateNumeric, BasicTranslator.numericOfText, BasicTranslator.basicTranslate,
      htext]
    exact hparse

theorem reads_signed (h : fl.Exact ofInt) (hn : 0 < n) (hv : v < 2 ^ n) :
    Reads fl ofInt .signed n v (twosComplement n v) where
  text := by
    have hshown : TranslatesSigned fl (some n) (.bigUint v) v := translatesSigned_of_pos fl (.bigUint v) hv hn
    have htext : some (signedTranslate n (.bigUint v)) = some (printInt (twosComplement n v), .normal) :=
      (signedTranslateChecked_eq (.bigUint v) hn hv).symm.trans hshown.1
    rw [BasicTranslator.basicTranslate, Option.some.inj htext]
    exact denoted_printInt _
  numeric := by
    simp only [BasicTranslator.basicTranslateNumeric, parseValueToNumeric, parseBigUint]
    by_cases hsign : v < 2 ^ (n - 1)
    · rw [if_pos hsign, twosComplement_of_lt hsign, h.bigUintToF64_eq]
      rfl
    · rw [if_neg hsign, signweight_mul_two hn, h.bigUintToF64_eq, h.neg,
        twosComplement_of_le hv (Nat.not_lt.1 hsign), Int.negSucc_eq]
      have hsucc : 2 ^ n - v - 1 + 1 = 2 ^ n - v := by omega
      rw [← hsucc]
      push_cast
      rfl
  range _ := range_signed hn hv

/-- A count is shown in base ten and drawn at itself. -/
theorem reads_count (h : fl.Exact ofInt) {t : BasicTranslator} {count : ℕ} (hradix : t.radix = 10)
    (htext : (t.basicTranslate n (.bigUint v)).1 = Nat.toDigits 10 count)
    (hnumeric : t.basicTranslateNumeric fl n (.bigUint v) = some (fl.ofU64 count))
    (hrange : t.basicNumericRange n = none) : Reads fl ofInt t n v count where
  text := by
    rw [hradix, htext]
    exact denoted_toDigits count
  numeric := by rw [hnumeric, h.ofU64]
  range range hsome := by
    rw [hrange] at hsome
    cases hsome

/-- Which translators read their own text, and from which values on. -/
theorem exists_reads_iff (h : fl.Exact ofInt) (t : BasicTranslator) (hn : 0 < n) (hv : v < 2 ^ n) :
    (∃ z, Reads fl ofInt t n v z) ↔ (t = .octal → v < 8) ∧ (t = .groupingBinary → n ≤ 4) := by
  have hall : ∀ {t : BasicTranslator} {z : ℤ}, t ≠ .octal → t ≠ .groupingBinary → Reads fl ofInt t n v z →
      ((∃ z, Reads fl ofInt t n v z) ↔ (t = .octal → v < 8) ∧ (t = .groupingBinary → n ≤ 4)) :=
    fun hoctal hgroups hreads =>
      iff_of_true ⟨_, hreads⟩ ⟨fun heq => absurd heq hoctal, fun heq => absurd heq hgroups⟩
  cases t with
  | octal => simpa using reads_octal_iff h hv
  | groupingBinary => simpa using reads_groupingBinary_iff h hn hv
  | hex => exact hall (by simp) (by simp) (reads_hex h hv)
  | binary => exact hall (by simp) (by simp) (reads_binary h hv)
  | unsigned =>
    refine hall (by simp) (by simp) ⟨denoted_toDigits v, ?_, fun _ => range_unsigned hv⟩
    exact congrArg some (h.bigUintToF64_eq v)
  | signed => exact hall (by simp) (by simp) (reads_signed h hn hv)
  | numberOfOnes => exact hall (by simp) (by simp) (reads_count h rfl rfl rfl rfl)
  | trailingOnes => exact hall (by simp) (by simp) (reads_count h rfl rfl rfl rfl)
  | trailingZeros => exact hall (by simp) (by simp) (reads_count h rfl rfl rfl rfl)
  | leadingOnes => exact hall (by simp) (by simp) (reads_count h rfl (leadingOnesOfString_padded hn hv) rfl rfl)
  | leadingZeros => exact hall (by simp) (by simp) (reads_count h rfl (leadingZerosOfString_padded hn hv) rfl rfl)
  | identicalMSBs => exact hall (by simp) (by simp) (reads_count h rfl (identicalMSBsOfString_padded hn hv) rfl rfl)

end Reads

/-! ## Numbers and texts -/

section Given

variable {fl : Floats F} {ofInt : ℤ → F} {n v : ℕ} {x : VariableValue}

/-- A value has one text and one number, however it is given. -/
theorem GivenAs.basicTranslate_eq (h : GivenAs n v x) (hn : 0 < n) (fl : Floats F) (t : BasicTranslator) :
    t.basicTranslate n x = t.basicTranslate n (.bigUint v) ∧
      t.basicTranslateNumeric fl n x = t.basicTranslateNumeric fl n (.bigUint v) := by
  cases h with
  | bigUint => exact ⟨rfl, rfl⟩
  | @string s hbits hlen hvalue =>
    have htext : BinaryText n s.toList := ⟨hbits, List.length_pos_iff.1 (by omega), hlen.le⟩
    subst hvalue
    exact ⟨(Translation.basicTranslate_eq t htext).symm, (basicTranslateNumeric_eq fl t htext).symm⟩

/-- A value that can be formatted is drawn at its number. -/
theorem numericRun_eq (fl : Floats F) (t : BasicTranslator) (h : t.Formats n x) :
    t.numericRun fl n x = .ok (t.basicTranslateNumeric fl n x) := by
  have htext : t.numericOfTextRun fl n x = .ok (t.numericOfText fl n x) := by
    rw [BasicTranslator.numericOfTextRun, BasicTranslator.translateRun, if_pos h, BasicTranslator.numericOfText]
    obtain ⟨val, kind⟩ := t.basicTranslate n x
    cases kind <;> rfl
  cases t with
  | hex | octal | binary | groupingBinary => exact htext
  | _ => rfl

theorem numericIsText_iff_reads (h : GivenAs n v x) (hn : 0 < n) (t : BasicTranslator) :
    NumericIsText fl ofInt t n x ↔ t.Formats n x ∧ ∃ z, Reads fl ofInt t n v z := by
  obtain ⟨htext, hnumeric⟩ := h.basicTranslate_eq hn fl t
  constructor
  · rintro ⟨text, kind, z, htranslate, hdenoted, hrun, hrange⟩
    have hformats : t.Formats n x := by
      by_contra hwide
      rw [BasicTranslator.translateRun, if_neg hwide] at htranslate
      cases htranslate
    rw [BasicTranslator.translateRun, if_pos hformats, htext] at htranslate
    rw [numericRun_eq fl t hformats, hnumeric] at hrun
    have htuple := Except.ok.inj htranslate
    refine ⟨hformats, z, ?_, Except.ok.inj hrun, hrange⟩
    rw [htuple]
    exact hdenoted
  · rintro ⟨hformats, z, hdenoted, hnumber, hrange⟩
    refine ⟨_, (t.basicTranslate n (.bigUint v)).2, z, ?_, hdenoted, ?_, hrange⟩
    · rw [BasicTranslator.translateRun, if_pos hformats, htext]
    · rw [numericRun_eq fl t hformats, hnumeric, hnumber]

end Given

/-- A value is drawn at the number that its text denotes exactly if it can be formatted, an octal text has no
digit in front of the last one but zeros, and a binary text in groups has one group. -/
theorem numericIsText_iff {fl : Floats F} {ofInt : ℤ → F} (h : fl.Exact ofInt) (t : BasicTranslator) {n v : ℕ}
    (hn : 1 ≤ n) (hv : v < 2 ^ n) {x : VariableValue} (hx : GivenAs n v x) :
    NumericIsText fl ofInt t n x ↔
      t.Formats n x ∧ (t = .octal → v < 8) ∧ (t = .groupingBinary → n ≤ 4) := by
  rw [numericIsText_iff_reads hx hn, exists_reads_iff h t hn hv]

theorem exact_wholeFloats : wholeFloats.Exact some where
  injective := Option.some_injective ℤ
  ofU64 _ := rfl
  toF64 _ := rfl
  neg _ := rfl
  parse {l} hne h := by
    have hsign : ∀ c, digit? 10 c = none → l.head? ≠ some c := by
      intro c hc hhead
      have hdigit := h c (List.mem_of_head? hhead)
      rw [hc] at hdigit
      cases hdigit
    have hnat : parseNat l = some (value 10 l) := if_pos ⟨hne, h⟩
    have hint : parseInt l = some (value 10 l : ℤ) := by
      unfold parseInt
      split
      · exact absurd rfl (hsign '+' rfl)
      · exact absurd rfl (hsign '-' rfl)
      · rw [hnat]
        rfl
    exact congrArg (Option.map some) hint

theorem numericIsText_iff_five :
    NumericIsText wholeFloats some .octal 4 (.bigUint 5) ↔
      BasicTranslator.octal.Formats 4 (.bigUint 5) ∧ ((.octal : BasicTranslator) = .octal → 5 < 8) ∧
        ((.octal : BasicTranslator) = .groupingBinary → 4 ≤ 4) :=
  numericIsText_iff exact_wholeFloats .octal (by decide) (by decide) .bigUint

/-- Eight in four bits has the octal text 10, which is read as ten. -/
theorem not_forall_numericIsText :
    ¬ ∀ (t : BasicTranslator) (n v : ℕ) (x : VariableValue), 1 ≤ n → v < 2 ^ n → GivenAs n v x →
      NumericIsText wholeFloats some t n x := by
  intro hall
  obtain ⟨text, kind, z, htext, hdenoted, hnumeric, -⟩ := hall .octal 4 8 (.bigUint 8) (by decide) (by decide) .bigUint
  have hshown : BasicTranslator.octal.translateRun 4 (.bigUint 8) = .ok (['1', '0'], .normal) := by decide
  have hdrawn : BasicTranslator.octal.numericRun wholeFloats 4 (.bigUint 8) = .ok (some (some 10)) := by decide
  have hnumber : denoted 8 ['1', '0'] = some 8 := by decide
  rw [hshown] at htext
  cases htext
  obtain rfl : 8 = z := Option.some.inj (hnumber.symm.trans hdenoted)
  rw [hdrawn] at hnumeric
  cases hnumeric

end Translation
