import Kahuna.Numerals.Decimal
import Kahuna.Numerals.Grouping
import Kahuna.Text.Separators

/-!
# Groups of digits

The model of `format_si` and `format_locale` in `time.rs`, on texts of digits with a sign and a fraction. The
digits before the point are counted from the right, and a minus sign is counted as one more digit.

* `filter_formatSi`: only separators are put in;
* `groupsDigits_iff`: for which numbers of digits the sign makes no difference.

The separators of a locale are a parameter.
-/

namespace Time

open Numerals Text

/-- `THIN_SPACE`. -/
def thinSpace : List Char := ['\u2009']

/-- `LocaleFormatCache`. The data of a locale names the size of a group, or that there are none, and separates
groups by something that is no digit. -/
structure LocaleFormatCache where
  grouping : List ℤ
  thousandsSep : List Char
  decimalPoint : List Char
  grouping_ne : grouping ≠ []
  thousandsSep_head : ∀ c, thousandsSep.head? = some c → ¬ c.isDigit

/-- `group_n_chars`. -/
def groupNChars (s : List Char) (n : ℕ) : List (List Char) := groups s n

/-- `format_si`. -/
def formatSi (time : List Char) : List Char :=
  match splitOnce '.' time with
  | some (integerPart, fractionalPart) =>
    let integerResult :=
      if 4 < integerPart.length then thinSpace.intercalate (groupNChars integerPart 3) else integerPart
    if 4 < fractionalPart.length then
      let reversed := fractionalPart.reverse
      let reversedFractionalParts := thinSpace.intercalate (groupNChars reversed 3)
      let fractionalResult := reversedFractionalParts.reverse
      integerResult ++ '.' :: fractionalResult
    else integerResult ++ '.' :: fractionalPart
  | none => if 4 < time.length then thinSpace.intercalate (groupNChars time 3) else time

namespace LocaleFormatCache

/-- `grouping[0]`. -/
def groupSize (cache : LocaleFormatCache) : ℤ := cache.grouping.head cache.grouping_ne

end LocaleFormatCache

/-- `format_locale`. -/
def formatLocale (time : List Char) (cache : LocaleFormatCache) : List Char :=
  if 0 < cache.groupSize then
    match splitOnce '.' time with
    | some (integerPart, fractionalPart) =>
      let integerResult :=
        cache.thousandsSep.intercalate (groupNChars integerPart cache.groupSize.toNat)
      integerResult ++ cache.decimalPoint ++ fractionalPart
    | none => cache.thousandsSep.intercalate (groupNChars time cache.groupSize.toNat)
  else time

/-- A decimal number without a sign. -/
structure Unsigned where
  integer : List Char
  fraction : Option (List Char)
  integer_digits : ∀ c ∈ integer, c.isDigit
  fraction_digits : ∀ c ∈ fraction.getD [], c.isDigit
  integer_ne : integer ≠ []

namespace Unsigned

/-- The decimal point and the digits behind it, with a given mark for the point. -/
def behind (x : Unsigned) (mark : List Char) : List Char :=
  match x.fraction with
  | some fraction => mark ++ fraction
  | none => []

/-- The text with a given mark for the decimal point. -/
def marked (x : Unsigned) (mark : List Char) : List Char := x.integer ++ x.behind mark

/-- The text. -/
def text (x : Unsigned) : List Char := x.marked ['.']

end Unsigned

/-- A format groups the digits of a number and of its negative: nothing is lost, the sign is put in front, and
no separator stands behind it. -/
structure GroupsDigits (sep mark : List Char) (format : List Char → List Char) (x : Unsigned) : Prop where
  inserted : Inserted sep (x.marked mark) (format x.text)
  inserted_neg : Inserted sep ('-' :: x.marked mark) (format ('-' :: x.text))
  neg : format ('-' :: x.text) = '-' :: format x.text
  not_after_sign : sep ≠ [] → ¬ '-' :: sep <+: format ('-' :: x.text)

/-! ## The digits before the point -/

section

variable {sep : List Char} {n : ℕ}

/-- The digits of a number, joined with a separator. -/
def joined (sep l : List Char) (n : ℕ) : List Char := sep.intercalate (groupNChars l n)

theorem inserted_joined (hn : 0 < n) (l : List Char) : Inserted sep l (joined sep l n) := by
  have h := Inserted.intercalate sep (groups l n)
  rwa [flatten_groups hn] at h

/-- A character in front is separated if the groups are full. -/
theorem joined_cons (hn : 0 < n) (c : Char) {l : List Char} (hne : l ≠ []) :
    joined sep (c :: l) n = if n ∣ l.length then c :: sep ++ joined sep l n else c :: joined sep l n := by
  have hgroups : groups l n ≠ [] := by
    intro hnil
    have hflatten := flatten_groups hn l
    rw [hnil] at hflatten
    exact hne hflatten.symm
  unfold joined groupNChars
  split
  next hdvd =>
    rw [(groups_cons hn c l).1 hdvd, List.intercalate_cons_of_ne_nil hgroups]
    rfl
  next hnot =>
    obtain ⟨first, rest, hl, hcons⟩ := (groups_cons hn c l).2 hnot
    rw [hl, hcons]
    -- the character joins the first group, whether it is the only one or not
    cases rest with
    | nil => simp
    | cons next rest => simp [List.intercalate_cons_cons]

/-- The joined digits start with a digit. -/
theorem head?_joined (hn : 0 < n) (l : List Char) : (joined sep l n).head? = l.head? := by
  cases l with
  | nil =>
    have hnil : groups [] n = [] := by rw [groups_of_length_lt (by simpa using hn), if_pos rfl]
    rw [joined, groupNChars, hnil]
    rfl
  | cons c l =>
    by_cases hl : l = []
    · subst hl
      have hone : groups [c] n = [[c]] := groups_of_length_le (by simp) (Nat.succ_le_of_lt hn)
      rw [joined, groupNChars, hone, List.intercalate_singleton]
    · rw [joined_cons hn c hl]
      split <;> rfl

/-- The sign stands in front of the digits exactly if their groups are not all full. -/
theorem joined_cons_eq_iff (hn : 0 < n) (c : Char) {l : List Char} (hne : l ≠ []) :
    joined sep (c :: l) n = c :: joined sep l n ↔ sep = [] ∨ ¬ n ∣ l.length := by
  rw [joined_cons hn c hne]
  split
  next hdvd =>
    rw [List.cons_append, List.cons_inj_right, List.append_left_eq_self]
    simp [hdvd]
  next hnot => simp [hnot]

end

/-! ## The formats -/

/-- A format that treats the digits before the point and those behind it one after the other groups the digits
if its treatment of the former leaves the sign alone. -/
theorem groupsDigits_iff_cons {sep mark tail : List Char} {format before : List Char → List Char}
    {x : Unsigned} (hformat : format x.text = before x.integer ++ tail)
    (hformat_neg : format ('-' :: x.text) = before ('-' :: x.integer) ++ tail)
    (hbefore : ∀ l, Inserted sep l (before l)) (hhead : ∀ l, (before l).head? = l.head?)
    (htail : Inserted sep (x.behind mark) tail) (hsep : ∀ c, sep.head? = some c → ¬ c.isDigit) :
    GroupsDigits sep mark format x ↔ before ('-' :: x.integer) = '-' :: before x.integer := by
  constructor
  · intro h
    have hneg := h.neg
    rw [hformat, hformat_neg, ← List.cons_append] at hneg
    exact List.append_cancel_right hneg
  · intro h
    refine ⟨?_, ?_, ?_, fun hne hprefix => ?_⟩
    · rw [hformat]
      exact (hbefore x.integer).append htail
    · rw [hformat_neg]
      exact (hbefore ('-' :: x.integer)).append htail
    · rw [hformat, hformat_neg, h, List.cons_append]
    · -- behind the sign there is a digit
      obtain ⟨c, l, hinteger⟩ := List.exists_cons_of_ne_nil x.integer_ne
      obtain ⟨d, m, rfl⟩ := List.exists_cons_of_ne_nil hne
      have hfirst : (before x.integer).head? = some c := by rw [hhead, hinteger, List.head?_cons]
      rw [hformat_neg, h, List.cons_append, List.cons_prefix_cons] at hprefix
      obtain ⟨rest, hrest⟩ := hprefix.2
      have hd : (before x.integer ++ tail).head? = some d := by rw [← hrest]; rfl
      rw [List.head?_append, hfirst, Option.some_or, Option.some.injEq] at hd
      refine hsep d rfl (hd ▸ x.integer_digits c ?_)
      rw [hinteger]
      exact List.mem_cons_self

/-- The digits before the point in `format_si`. -/
def siInteger (l : List Char) : List Char := if 4 < l.length then joined thinSpace l 3 else l

/-- The digits behind the point in `format_si`. -/
def siFraction (l : List Char) : List Char :=
  if 4 < l.length then (joined thinSpace l.reverse 3).reverse else l

theorem inserted_siInteger (l : List Char) : Inserted thinSpace l (siInteger l) := by
  unfold siInteger
  split
  · exact inserted_joined (by omega) l
  · exact .refl _ l

theorem inserted_siFraction (l : List Char) : Inserted thinSpace l (siFraction l) := by
  unfold siFraction
  split
  · have hjoined : Inserted thinSpace l.reverse (joined thinSpace l.reverse 3) :=
      inserted_joined (by omega) l.reverse
    have h := hjoined.reverse
    rwa [List.reverse_reverse] at h
  · exact .refl _ l

theorem head?_siInteger (l : List Char) : (siInteger l).head? = l.head? := by
  unfold siInteger
  split
  · exact head?_joined (by omega) l
  · rfl

/-- The sign stands in front of the digits unless it is counted as the fifth digit, or makes a full group. -/
theorem siInteger_cons_eq_iff {l : List Char} (hne : l ≠ []) :
    siInteger ('-' :: l) = '-' :: siInteger l ↔ l.length ≤ 3 ∨ 5 ≤ l.length ∧ ¬ 3 ∣ l.length := by
  have hsep : thinSpace ≠ [] := by simp [thinSpace]
  simp only [siInteger, List.length_cons]
  rcases Nat.lt_trichotomy l.length 4 with hlt | heq | hgt
  · rw [if_neg (by omega), if_neg (by omega)]
    simp only [true_iff]
    omega
  · -- four digits stay together, but a sign and four digits are two groups
    have hgroups : joined thinSpace ('-' :: l) 3 = '-' :: joined thinSpace l 3 :=
      (joined_cons_eq_iff (by omega) '-' hne).2 (.inr (by omega))
    have hlength : (joined thinSpace l 3).length = 5 := by
      obtain ⟨c, m, rfl⟩ := List.exists_cons_of_ne_nil hne
      have hm : m.length = 3 := by simpa using heq
      have hmne : m ≠ [] := List.length_pos_iff.1 (by omega)
      have hgroup : joined thinSpace m 3 = m := by
        rw [joined, groupNChars, groups_of_length_le hmne hm.le, List.intercalate_singleton]
      rw [joined_cons (by omega) c hmne, if_pos (by omega), hgroup]
      simp [thinSpace, hm]
    rw [if_pos (by omega), if_neg (by omega), hgroups, List.cons_inj_right]
    refine iff_of_false (fun h => ?_) (by omega)
    rw [h] at hlength
    omega
  · rw [if_pos (by omega), if_pos (by omega), joined_cons_eq_iff (by omega) '-' hne]
    simp only [hsep, false_or]
    omega

namespace Unsigned

variable (x : Unsigned)

theorem point_notMem_integer : '.' ∉ x.integer := fun h => by simpa using x.integer_digits _ h

theorem point_notMem_cons : '.' ∉ '-' :: x.integer := by
  rw [List.mem_cons, not_or]
  exact ⟨by decide, x.point_notMem_integer⟩

end Unsigned

/-- The decimal point and the digits behind it in `format_si`. -/
def siBehind (x : Unsigned) : List Char :=
  match x.fraction with
  | some fraction => '.' :: siFraction fraction
  | none => []

theorem inserted_siBehind (x : Unsigned) : Inserted thinSpace (x.behind ['.']) (siBehind x) := by
  unfold Unsigned.behind siBehind
  cases x.fraction with
  | none => exact .nil
  | some fraction => exact .cons '.' (inserted_siFraction fraction)

/-- The two parts of a number are formatted one after the other. -/
theorem formatSi_append {l : List Char} (h : '.' ∉ l) (x : Unsigned) :
    formatSi (l ++ x.behind ['.']) = siInteger l ++ siBehind x := by
  unfold formatSi Unsigned.behind siBehind
  cases x.fraction with
  | none =>
    rw [List.append_nil, splitOnce_of_notMem h]
    exact (List.append_nil _).symm
  | some fraction =>
    simp only [List.cons_append, List.nil_append, splitOnce_append h]
    unfold siFraction
    split
    · rfl
    · rfl

/-- Without its thin spaces the formatted text is the text. -/
theorem filter_formatSi (x : Unsigned) : (formatSi x.text).filter (fun c => c ∉ thinSpace) = x.text := by
  have hinserted := (inserted_siInteger x.integer).append (inserted_siBehind x)
  rw [← formatSi_append x.point_notMem_integer] at hinserted
  refine hinserted.filter_eq fun c hc hspace => ?_
  have hthin : c.isDigit = false ∧ c ≠ '.' := by
    obtain rfl : c = '\u2009' := by simpa [thinSpace] using hspace
    decide
  have hfraction := x.fraction_digits
  rcases List.mem_append.1 hc with hc | hc
  · simp [x.integer_digits c hc] at hthin
  · unfold Unsigned.behind at hc
    cases hsome : x.fraction with
    | none => simp [hsome] at hc
    | some fraction =>
      simp only [hsome, List.cons_append, List.nil_append, List.mem_cons, Option.getD_some] at hc hfraction
      rcases hc with hc | hc
      · exact hthin.2 hc
      · simp [hfraction c hc] at hthin

theorem groupsDigits_formatSi_iff (x : Unsigned) :
    GroupsDigits thinSpace ['.'] formatSi x ↔
      x.integer.length ≤ 3 ∨ 5 ≤ x.integer.length ∧ ¬ 3 ∣ x.integer.length := by
  rw [← siInteger_cons_eq_iff x.integer_ne]
  refine groupsDigits_iff_cons (formatSi_append x.point_notMem_integer x)
    (formatSi_append x.point_notMem_cons x) inserted_siInteger head?_siInteger (inserted_siBehind x)
    fun c hc => ?_
  -- a thin space is no digit
  obtain rfl : '\u2009' = c := by simpa [thinSpace] using hc
  decide

namespace LocaleFormatCache

variable (cache : LocaleFormatCache)

/-- The mark for the decimal point. Where there are no groups, the text is left as it is. -/
def mark : List Char := if 0 < cache.groupSize then cache.decimalPoint else ['.']

/-- The digits before the point in `format_locale`. -/
def localeInteger (l : List Char) : List Char :=
  if 0 < cache.groupSize then joined cache.thousandsSep l cache.groupSize.toNat else l

theorem inserted_localeInteger (l : List Char) :
    Inserted cache.thousandsSep l (cache.localeInteger l) := by
  unfold localeInteger
  split
  next hpos => exact inserted_joined (by omega) l
  next => exact .refl _ l

theorem head?_localeInteger (l : List Char) : (cache.localeInteger l).head? = l.head? := by
  unfold localeInteger
  split
  next hpos => exact head?_joined (by omega) l
  next => rfl

theorem localeInteger_cons_eq_iff {l : List Char} (hne : l ≠ []) :
    cache.localeInteger ('-' :: l) = '-' :: cache.localeInteger l ↔
      cache.groupSize ≤ 0 ∨ cache.thousandsSep = [] ∨ ¬ cache.groupSize.toNat ∣ l.length := by
  unfold localeInteger
  split
  next hpos =>
    rw [joined_cons_eq_iff (by omega) '-' hne]
    simp only [Int.not_le.2 hpos, false_or]
  next hnot => simp [Int.not_lt.1 hnot]

/-- The two parts of a number are formatted one after the other. -/
theorem formatLocale_append {l : List Char} (h : '.' ∉ l) (x : Unsigned) :
    formatLocale (l ++ x.behind ['.']) cache = cache.localeInteger l ++ x.behind cache.mark := by
  unfold formatLocale localeInteger mark Unsigned.behind
  split
  next =>
    cases x.fraction with
    | none =>
      rw [List.append_nil, splitOnce_of_notMem h]
      exact (List.append_nil _).symm
    | some fraction =>
      simp only [List.cons_append, List.nil_append, splitOnce_append h, List.append_assoc]
      rfl
  next => rfl

theorem groupsDigits_formatLocale_iff (x : Unsigned) :
    GroupsDigits cache.thousandsSep cache.mark (fun time => formatLocale time cache) x ↔
      cache.groupSize ≤ 0 ∨ cache.thousandsSep = [] ∨ ¬ cache.groupSize.toNat ∣ x.integer.length := by
  rw [← cache.localeInteger_cons_eq_iff x.integer_ne]
  exact groupsDigits_iff_cons (cache.formatLocale_append x.point_notMem_integer x)
    (cache.formatLocale_append x.point_notMem_cons x) cache.inserted_localeInteger
    cache.head?_localeInteger (.refl _ _) cache.thousandsSep_head

end LocaleFormatCache

/-- The SI format groups the digits of a number and of its negative alike exactly if there are at most three of
them before the point, or at least five and not a multiple of three. A locale does so exactly if it has no
groups, no separator, or the number of digits is no multiple of the size of a group. -/
theorem groupsDigits_iff (cache : LocaleFormatCache) (x : Unsigned) :
    (GroupsDigits thinSpace ['.'] formatSi x ↔
        x.integer.length ≤ 3 ∨ 5 ≤ x.integer.length ∧ ¬ 3 ∣ x.integer.length) ∧
      (GroupsDigits cache.thousandsSep cache.mark (fun time => formatLocale time cache) x ↔
        cache.groupSize ≤ 0 ∨ cache.thousandsSep = [] ∨
          ¬ cache.groupSize.toNat ∣ x.integer.length) :=
  ⟨groupsDigits_formatSi_iff x, cache.groupsDigits_formatLocale_iff x⟩

theorem forall_mem_getD_none : ∀ c ∈ (none : Option (List Char)).getD [], c.isDigit := by
  simp

/-- A number of six digits. -/
def sixDigits : Unsigned where
  integer := ['1', '2', '3', '4', '5', '6']
  fraction := none
  integer_digits := by simp
  fraction_digits := forall_mem_getD_none
  integer_ne := by simp

/-- The sign of a number of six digits is separated from them. -/
theorem not_forall_groupsDigits : ¬ ∀ x : Unsigned, GroupsDigits thinSpace ['.'] formatSi x := by
  intro hall
  have h := (groupsDigits_formatSi_iff sixDigits).1 (hall sixDigits)
  revert h
  decide

end Time
