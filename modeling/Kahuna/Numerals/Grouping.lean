import Kahuna.Numerals.Basic
import Mathlib.Data.Nat.Bitwise
import Mathlib.Data.Nat.Digits.Lemmas

/-!
# Padded numerals and groups of digits

A number is printed with a given number of digits by putting zeros in front (`padded`). Its digits in
a power of a base are those of the groups of its digits in the base (`value_map_groups`), and its
digits from the right are those of `Nat.digits` (`reverse_eq_digits`).
-/

namespace Numerals

variable {b : ℕ}

/-- The text of a number, with zeros in front up to a width. -/
def padded (b width v : ℕ) : List Char :=
  List.replicate (width - (Nat.toDigits b v).length) '0' ++ Nat.toDigits b v

theorem canonical_padded (hb : 1 < b) (width v : ℕ) : Canonical b (padded b width v) :=
  (canonical_replicate_zero (by omega) _).append (canonical_toDigits hb v)

theorem value_padded (hb : 1 < b) (hb' : b ≤ 16) (width v : ℕ) : value b (padded b width v) = v := by
  rw [padded, value_append, value_replicate_zero (by omega), value_toDigits hb hb', Nat.zero_mul,
    Nat.zero_add]

theorem length_padded (hb : 1 < b) {width v : ℕ} (hwidth : 0 < width) (hv : v < b ^ width) :
    (padded b width v).length = width := by
  have hle := (Nat.length_toDigits_le_iff hb hwidth).2 hv
  simp only [padded, List.length_append, List.length_replicate]
  omega

theorem padded_ne_nil (b n v : ℕ) : padded b n v ≠ [] := by
  have hpos : 0 < (Nat.toDigits b v).length := Nat.length_toDigits_pos
  rw [← List.length_pos_iff, padded, List.length_append]
  omega

/-- A text of a given length is the padded text of the number it denotes. -/
theorem Canonical.eq_padded (hb : 1 < b) (hb' : b ≤ 16) {l : List Char} (hl : Canonical b l)
    (hne : l ≠ []) : l = padded b l.length (value b l) := by
  refine hl.eq_of_value_eq hb' (canonical_padded hb _ _) ?_ (value_padded hb hb' _ _).symm
  exact (length_padded hb (List.length_pos_iff.2 hne) (value_lt (by omega) l)).symm

/-- A text in groups of `n` characters. If the length is not divisible by `n`, the first group is
shorter. -/
def groups (l : List Char) (n : ℕ) : List (List Char) :=
  let rem := l.length % n
  (if 0 < rem then [l.take rem] else []) ++
    (List.range (l.length / n)).map fun i => (l.drop (rem + i * n)).take n

theorem groups_of_length_lt {l : List Char} {n : ℕ} (h : l.length < n) :
    groups l n = if l = [] then [] else [l] := by
  simp only [groups, Nat.mod_eq_of_lt h, Nat.div_eq_of_lt h]
  cases l <;> simp

/-- A full group at the end is the last one. -/
theorem groups_append {l m : List Char} {n : ℕ} (hn : 0 < n) (hm : m.length = n) :
    groups (l ++ m) n = groups l n ++ [m] := by
  have hmod : (l ++ m).length % n = l.length % n := by simp [hm]
  have hdiv : (l ++ m).length / n = l.length / n + 1 := by
    rw [List.length_append, hm, Nat.add_div_right _ hn]
  have hsum := Nat.mod_add_div l.length n
  rw [Nat.mul_comm] at hsum
  have hfirst : (l ++ m).take (l.length % n) = l.take (l.length % n) :=
    List.take_append_of_le_length (Nat.mod_le _ _)
  simp only [groups, hmod, hdiv, hfirst, List.range_succ, List.map_append, List.map_cons,
    List.map_nil, List.append_assoc]
  congr 2
  · refine List.map_congr_left fun i hi => ?_
    -- the groups before the last one lie in the front part
    have hi' : (i + 1) * n ≤ l.length / n * n := Nat.mul_le_mul_right _ (List.mem_range.1 hi)
    rw [Nat.add_mul, Nat.one_mul] at hi'
    rw [List.drop_append_of_le_length (by omega),
      List.take_append_of_le_length (by rw [List.length_drop]; omega)]
  · rw [hsum, List.drop_left, ← hm, List.take_length]

/-- Induction over the groups of a text, from the first one. -/
theorem groups_induction {n : ℕ} (hn : 0 < n) {motive : List Char → Prop}
    (short : ∀ l, l.length < n → motive l)
    (append : ∀ l m, m.length = n → motive l → motive (l ++ m)) (l : List Char) : motive l := by
  induction hlen : l.length using Nat.strong_induction_on generalizing l with
  | _ k ih =>
    by_cases hlt : l.length < n
    · exact short l hlt
    · have hcut : l = l.take (l.length - n) ++ l.drop (l.length - n) := (List.take_append_drop _ _).symm
      rw [hcut]
      refine append _ _ (by rw [List.length_drop]; omega) (ih (l.length - n) (by omega) _ ?_)
      rw [List.length_take]
      omega

theorem groups_of_length_le {l : List Char} {n : ℕ} (hne : l ≠ []) (h : l.length ≤ n) :
    groups l n = [l] := by
  have hpos := List.length_pos_iff.2 hne
  rcases h.lt_or_eq with hlt | heq
  · rw [groups_of_length_lt hlt, if_neg hne]
  · have hnil : groups [] n = [] := by
      rw [groups_of_length_lt (by simp; omega), if_pos rfl]
    simpa [hnil] using groups_append (l := []) (by omega) heq

theorem flatten_groups {n : ℕ} (hn : 0 < n) (l : List Char) : (groups l n).flatten = l := by
  induction l using groups_induction hn with
  | short l hlt =>
    rw [groups_of_length_lt hlt]
    split
    next hnil => rw [hnil, List.flatten_nil]
    next => simp
  | append l m hm ih => rw [groups_append hn hm, List.flatten_append, ih, List.flatten_singleton]

/-- A character in front joins the first group, unless that group is full. -/
theorem groups_cons {n : ℕ} (hn : 0 < n) (c : Char) (l : List Char) :
    (n ∣ l.length → groups (c :: l) n = [c] :: groups l n) ∧
      (¬ n ∣ l.length → ∃ first rest, groups l n = first :: rest ∧
        groups (c :: l) n = (c :: first) :: rest) := by
  induction l using groups_induction hn with
  | short l hlt =>
    by_cases hnil : l = []
    · subst hnil
      have hone : groups [c] n = [[c]] := groups_of_length_le (by simp) (Nat.succ_le_of_lt hn)
      have hempty : groups [] n = [] := by rw [groups_of_length_lt hlt, if_pos rfl]
      simp [hone, hempty]
    · have hpos := List.length_pos_iff.2 hnil
      have hnot : ¬ n ∣ l.length := Nat.not_dvd_of_pos_of_lt hpos hlt
      refine ⟨fun h => (hnot h).elim, fun _ => ⟨l, [], ?_, ?_⟩⟩
      · exact groups_of_length_le hnil hlt.le
      · exact groups_of_length_le (by simp) (by simpa using hlt)
  | append l m hm ih =>
    have hdvd : n ∣ (l ++ m).length ↔ n ∣ l.length := by
      rw [List.length_append, hm, Nat.dvd_add_self_right]
    rw [hdvd, groups_append hn hm, ← List.cons_append, groups_append hn hm]
    refine ⟨fun h => ?_, fun h => ?_⟩
    · rw [ih.1 h, List.cons_append]
    · obtain ⟨first, rest, hl, hcons⟩ := ih.2 h
      exact ⟨first, rest ++ [m], by rw [hl, List.cons_append], by rw [hcons, List.cons_append]⟩

theorem length_groups {n : ℕ} (hn : 0 < n) (l : List Char) :
    (groups l n).length = (l.length + (n - 1)) / n := by
  induction l using groups_induction hn with
  | short l hlt =>
    rw [groups_of_length_lt hlt]
    split
    next hnil =>
      have hdiv : (n - 1) / n = 0 := Nat.div_eq_of_lt (by omega)
      simp [hnil, hdiv]
    next hne =>
      -- a group that is not full counts as one
      have hpos := List.length_pos_iff.2 hne
      have hone : l.length + (n - 1) = l.length - 1 + n := by omega
      rw [hone, Nat.add_div_right _ hn, Nat.div_eq_of_lt (by omega)]
      rfl
  | append l m hm ih =>
    have hstep : (l ++ m).length + (n - 1) = l.length + (n - 1) + n := by
      rw [List.length_append]
      omega
    rw [groups_append hn hm, List.length_append, ih, hstep, Nat.add_div_right _ hn]
    rfl

theorem length_le_of_mem_groups {n : ℕ} (hn : 0 < n) {l g : List Char} (hg : g ∈ groups l n) :
    g ≠ [] ∧ g.length ≤ n ∧ g ⊆ l := by
  induction l using groups_induction hn with
  | short l hlt =>
    rw [groups_of_length_lt hlt] at hg
    split at hg
    · cases hg
    next hne =>
      rw [List.mem_singleton.1 hg]
      exact ⟨hne, hlt.le, List.Subset.refl _⟩
  | append l m hm ih =>
    rw [groups_append hn hm] at hg
    rcases List.mem_append.1 hg with hg | hg
    · obtain ⟨hne, hle, hsub⟩ := ih hg
      exact ⟨hne, hle, List.subset_append_of_subset_left _ hsub⟩
    · rw [List.mem_singleton.1 hg]
      exact ⟨List.length_pos_iff.1 (by omega), hm.le, List.subset_append_right _ _⟩

/-- The digits that the groups denote are those of the number in the power of the base. -/
theorem value_map_groups {n : ℕ} (hb : 0 < b) (hn : 0 < n) (hle : b ^ n ≤ 16) (l : List Char) :
    value (b ^ n) ((groups l n).map fun g => (value b g).digitChar) = value b l := by
  induction l using groups_induction hn with
  | short l hlt =>
    rw [groups_of_length_lt hlt]
    split
    next hnil => simp [hnil]
    next hne =>
      have hvalue : value b l < b ^ n :=
        (value_lt hb l).trans_le (Nat.pow_le_pow_right hb hlt.le)
      simp [value_cons, digit?_digitChar hle hvalue]
  | append l m hm ih =>
    have hvalue : value b m < b ^ n := hm ▸ value_lt hb m
    rw [groups_append hn hm, List.map_append, value_append, ih, value_append, hm]
    simp [value_cons, digit?_digitChar hle hvalue]

/-- The same in a base of any size, with the digits as numbers and the last group first. -/
theorem ofDigits_map_groups {n : ℕ} (hn : 0 < n) (l : List Char) :
    Nat.ofDigits (b ^ n) ((groups l n).map (value b)).reverse = value b l := by
  induction l using groups_induction hn with
  | short l hlt =>
    rw [groups_of_length_lt hlt]
    split
    next hnil => simp [hnil]
    next => simp
  | append l m hm ih =>
    rw [groups_append hn hm, List.map_append, List.map_singleton, List.reverse_append,
      List.reverse_singleton, List.singleton_append, Nat.ofDigits_cons, ih, value_append, hm,
      Nat.mul_comm, Nat.add_comm]

/-- From the right, a text has the digits of the number it denotes, and then zeros. -/
theorem Canonical.reverse_eq_digits (hb : 1 < b) (hb' : b ≤ 16) {l : List Char}
    (hl : Canonical b l) :
    ∃ k, l.reverse = (b.digits (value b l)).map Nat.digitChar ++ List.replicate k '0' := by
  induction l using List.reverseRecOn with
  | nil => exact ⟨0, by simp⟩
  | append_singleton l c ih =>
    obtain ⟨k, hk⟩ := ih fun d hd => hl d (by simp [hd])
    obtain ⟨d, hd, rfl⟩ := hl c (by simp)
    have hvalue : value b (l ++ [d.digitChar]) = d + b * value b l := by
      simp [value_append, value_cons, digit?_digitChar hb' hd]
      ring
    by_cases hzero : d ≠ 0 ∨ value b l ≠ 0
    · refine ⟨k, ?_⟩
      rw [hvalue, Nat.digits_add b hb d (value b l) hd hzero, List.reverse_append, hk]
      simp
    · -- a zero in front of zeros is no digit of the number
      simp only [ne_eq, not_or, not_not] at hzero
      refine ⟨k + 1, ?_⟩
      rw [hvalue, List.reverse_append, hk, hzero.1, hzero.2]
      simp [List.replicate_succ]

end Numerals

/-!
## Leading digits

How a padded binary text begins, and what a text of digits denotes in another base.

* `leadingZeros_padded`: as many zeros as there are bits that the number does not need;
* `leadingOnes_padded`: as many ones as its complement has zeros;
* `value_eq_value_iff`: a text denotes another number in a larger base, unless the number is a digit.
-/

namespace Numerals

/-- A text without its zeros in front. -/
theorem length_takeWhile_replicate_append {c : Char} {k : ℕ} {l : List Char} (h : l.head? ≠ some c) :
    ((List.replicate k c ++ l).takeWhile (· == c)).length = k := by
  have hrest : l.takeWhile (· == c) = [] := by
    cases l with
    | nil => rfl
    | cons d l =>
      have hne : d ≠ c := fun heq => h (congrArg some heq)
      simp [hne]
  rw [List.takeWhile_append_of_pos (by simp), hrest, List.append_nil, List.length_replicate]

/-- A padded binary text has the digits of the number behind its zeros. -/
theorem padded_two_eq {n v : ℕ} (hn : 0 < n) (hv : v < 2 ^ n) :
    padded 2 n v = List.replicate (n - (Nat.digits 2 v).length) '0' ++
      ((Nat.digits 2 v).map Nat.digitChar).reverse := by
  obtain ⟨k, hk⟩ := (canonical_padded (b := 2) (by omega) n v).reverse_eq_digits (by omega) (by omega)
  rw [value_padded (by omega) (by omega)] at hk
  have hlength := congrArg List.length hk
  rw [List.length_reverse, length_padded (by omega) hn hv, List.length_append, List.length_map,
    List.length_replicate] at hlength
  rw [← List.reverse_reverse (padded 2 n v), hk, List.reverse_append, List.reverse_replicate,
    show n - (Nat.digits 2 v).length = k by omega]

theorem leadingZeros_padded {n v : ℕ} (hn : 0 < n) (hv : v < 2 ^ n) :
    ((padded 2 n v).takeWhile (· == '0')).length = n - (Nat.digits 2 v).length := by
  rw [padded_two_eq hn hv]
  refine length_takeWhile_replicate_append ?_
  rw [List.head?_reverse, List.getLast?_map]
  intro hzero
  obtain ⟨d, hd, hchar⟩ := Option.map_eq_some_iff.1 hzero
  have hne : Nat.digits 2 v ≠ [] := by
    rintro hnil
    rw [hnil] at hd
    cases hd
  rw [List.getLast?_eq_getLast_of_ne_nil hne, Option.some.injEq] at hd
  -- the highest digit of a number is not zero
  have hlast : d ≠ 0 := by
    rw [← hd]
    exact Nat.getLast_digit_ne_zero 2 (Nat.digits_ne_nil_iff_ne_zero.1 hne)
  have hlt : d < 2 := hd ▸ Nat.digits_lt_base (by omega) (List.getLast_mem hne)
  obtain rfl : d = 1 := by omega
  cases hchar

/-! ## Complements -/

/-- The other digit. -/
def flipDigit (c : Char) : Char := if c = '0' then '1' else '0'

theorem canonical_map_flipDigit (l : List Char) : Canonical 2 (l.map flipDigit) := by
  intro c hc
  obtain ⟨d, -, rfl⟩ := List.mem_map.1 hc
  rw [flipDigit]
  split
  · exact ⟨1, by omega, rfl⟩
  · exact ⟨0, by omega, rfl⟩

theorem value_map_flipDigit {l : List Char} (h : Canonical 2 l) :
    value 2 (l.map flipDigit) + value 2 l + 1 = 2 ^ l.length := by
  induction l with
  | nil => rfl
  | cons c l ih =>
    have hrest := ih fun d hd => h d (List.mem_cons_of_mem _ hd)
    obtain ⟨d, hd, rfl⟩ := h c List.mem_cons_self
    have hcases : d = 0 ∨ d = 1 := by omega
    rw [List.map_cons, value_cons, value_cons, List.length_map, List.length_cons, pow_succ]
    rcases hcases with rfl | rfl
    · have hzero : (digit? 2 (Nat.digitChar 0)).getD 0 = 0 := rfl
      have hone : (digit? 2 (flipDigit (Nat.digitChar 0))).getD 0 = 1 := rfl
      rw [hzero, hone]
      omega
    · have hone : (digit? 2 (Nat.digitChar 1)).getD 0 = 1 := rfl
      have hzero : (digit? 2 (flipDigit (Nat.digitChar 1))).getD 0 = 0 := rfl
      rw [hzero, hone]
      omega

/-- The padded text of the complement has the other digits. -/
theorem padded_complement {n v : ℕ} (hn : 0 < n) (hv : v < 2 ^ n) :
    padded 2 n (2 ^ n - 1 - v) = (padded 2 n v).map flipDigit := by
  have hlength : ((padded 2 n v).map flipDigit).length = n := by
    rw [List.length_map, length_padded (by omega) hn hv]
  have hsum := value_map_flipDigit (canonical_padded (b := 2) (by omega) n v)
  rw [value_padded (by omega) (by omega), length_padded (by omega) hn hv] at hsum
  have hne : (padded 2 n v).map flipDigit ≠ [] := List.length_pos_iff.1 (by omega)
  have heq := (canonical_map_flipDigit (padded 2 n v)).eq_padded (by omega) (by omega) hne
  rw [hlength, show value 2 ((padded 2 n v).map flipDigit) = 2 ^ n - 1 - v by omega] at heq
  exact heq.symm

theorem leadingOnes_padded {n v : ℕ} (hn : 0 < n) (hv : v < 2 ^ n) :
    ((padded 2 n v).takeWhile (· == '1')).length = n - (Nat.digits 2 (2 ^ n - 1 - v)).length := by
  have hflip : ∀ l : List Char, Canonical 2 l →
      (l.takeWhile (· == '1')).length = ((l.map flipDigit).takeWhile (· == '0')).length := by
    intro l hl
    induction l with
    | nil => rfl
    | cons c l ih =>
      have hrest := ih fun d hd => hl d (List.mem_cons_of_mem _ hd)
      obtain ⟨d, hd, rfl⟩ := hl c List.mem_cons_self
      have hcases : d = 0 ∨ d = 1 := by omega
      rcases hcases with rfl | rfl
      · rfl
      · change ((Nat.digitChar 1 :: l.takeWhile (· == '1')).length) = _
        rw [List.length_cons, hrest]
        rfl
  rw [hflip _ (canonical_padded (by omega) n v), ← padded_complement hn hv, leadingZeros_padded hn (by omega)]

/-- The complement, bit by bit. -/
theorem mask_xor {n v : ℕ} (hv : v < 2 ^ n) : (2 ^ n - 1) ^^^ v = 2 ^ n - 1 - v := by
  have hnot : (BitVec.allOnes n ^^^ BitVec.ofNat n v).toNat = (~~~ BitVec.ofNat n v).toNat := by
    rw [BitVec.allOnes_xor]
  rwa [BitVec.toNat_xor, BitVec.toNat_allOnes, BitVec.toNat_not, BitVec.toNat_ofNat, Nat.mod_eq_of_lt hv] at hnot

/-! ## Another base -/

theorem value_concat {b d : ℕ} (hb : b ≤ 16) (hd : d < b) (l : List Char) :
    value b (l ++ [d.digitChar]) = value b l * b + d := by
  rw [value_append, value_cons, digit?_digitChar hb hd]
  simp

/-- A text does not denote less in a larger base. -/
theorem value_le_value {b b' : ℕ} (hle : b ≤ b') (hb' : b' ≤ 16) {l : List Char} (h : Canonical b l) :
    value b l ≤ value b' l := by
  induction l using List.reverseRecOn with
  | nil => exact le_rfl
  | append_singleton l c ih =>
    obtain ⟨d, hd, rfl⟩ := h c (by simp)
    rw [value_concat (by omega) hd, value_concat hb' (by omega)]
    exact Nat.add_le_add_right (Nat.mul_le_mul (ih fun x hx => h x (List.mem_append_left _ hx)) hle) d

/-- A text denotes the same in a larger base exactly if it denotes a digit. -/
theorem value_eq_value_iff {b b' : ℕ} (hb : 0 < b) (hlt : b < b') (hb' : b' ≤ 16) {l : List Char} (h : Canonical b l) :
    value b' l = value b l ↔ value b l < b := by
  induction l using List.reverseRecOn with
  | nil =>
    exact iff_of_true rfl hb
  | append_singleton l c ih =>
    obtain ⟨d, hd, rfl⟩ := h c (by simp)
    have hl : Canonical b l := fun x hx => h x (List.mem_append_left _ hx)
    have hle := value_le_value hlt.le hb' hl
    rw [value_concat (by omega) hd, value_concat hb' (by omega)]
    rcases Nat.eq_zero_or_pos (value b l) with hzero | hpos
    · have hzero' : value b' l = 0 := (((ih hl).2 (by omega)).trans hzero)
      rw [hzero, hzero']
      omega
    · -- there is a digit in front of the last one
      have hstep : value b l * b < value b' l * b' := Nat.mul_lt_mul_of_le_of_lt hle hlt (by omega)
      have hbase : b ≤ value b l * b := Nat.le_mul_of_pos_left b hpos
      omega

end Numerals
