import Mathlib.Data.List.DropRight

/-!
# Trimming texts

Texts as lists of characters: what is white space, and how it is cut off at both ends.

* `trim_append_append`: white space around a text does not matter to its trimmed form;
* `Trimmed`: the texts that begin and end with another character, which trimming leaves alone.
-/

namespace Text

/-- White space, as Unicode defines it. -/
def isWhitespace (c : Char) : Bool :=
  (9 ≤ c.toNat ∧ c.toNat ≤ 13) ∨ (0x2000 ≤ c.toNat ∧ c.toNat ≤ 0x200a) ∨
    c.toNat ∈ [0x20, 0x85, 0xa0, 0x1680, 0x2028, 0x2029, 0x202f, 0x205f, 0x3000]

/-- The text without the white space at its end. -/
def trimEnd (l : List Char) : List Char := l.rdropWhile isWhitespace

/-- The text without the white space at its beginning and at its end. -/
def trim (l : List Char) : List Char := trimEnd (l.dropWhile isWhitespace)

/-- The text behind a prefix. -/
def stripPrefix (start l : List Char) : Option (List Char) :=
  if start <+: l then some (l.drop start.length) else none

/-- The text without the given character at its beginning and at its end. -/
def trimMatches (c : Char) (l : List Char) : List Char :=
  (l.dropWhile (· == c)).rdropWhile (· == c)

/-- A text of white space. -/
def Blank (l : List Char) : Prop := ∀ c ∈ l, isWhitespace c

/-- A text that neither begins nor ends with white space. -/
structure Trimmed (l : List Char) : Prop where
  head : ∀ c, l.head? = some c → ¬ isWhitespace c
  last : ∀ c, l.getLast? = some c → ¬ isWhitespace c

theorem trimEnd_append_blank {l blank : List Char} (h : Blank blank) :
    trimEnd (l ++ blank) = trimEnd l := by
  induction blank using List.reverseRecOn with
  | nil => simp
  | append_singleton blank c ih =>
    have hc : isWhitespace c := h c (by simp)
    have hblank : Blank blank := fun d hd => h d (by simp [hd])
    rw [← List.append_assoc, trimEnd, List.rdropWhile_concat_pos _ _ _ hc]
    exact ih hblank

theorem trimEnd_of_last {l : List Char} (h : ∀ c, l.getLast? = some c → ¬ isWhitespace c) :
    trimEnd l = l := by
  rw [trimEnd, List.rdropWhile_eq_self_iff]
  intro hne
  exact h _ (List.getLast?_eq_getLast_of_ne_nil hne)

theorem dropWhile_blank_append {l blank : List Char} (h : Blank blank) :
    (blank ++ l).dropWhile isWhitespace = l.dropWhile isWhitespace := by
  induction blank with
  | nil => rfl
  | cons c blank ih =>
    have hc : isWhitespace c := h c List.mem_cons_self
    rw [List.cons_append, List.dropWhile_cons_of_pos hc]
    exact ih fun d hd => h d (List.mem_cons_of_mem _ hd)

theorem Trimmed.dropWhile_append {l : List Char} (h : Trimmed l) (hne : l ≠ []) (m : List Char) :
    (l ++ m).dropWhile isWhitespace = l ++ m := by
  cases l with
  | nil => exact absurd rfl hne
  | cons c l => exact List.dropWhile_cons_of_neg (h.head c rfl)

/-- White space around a text does not matter. -/
theorem trim_append_append {lead l trail : List Char} (hlead : Blank lead) (hl : Trimmed l)
    (hne : l ≠ []) (htrail : Blank trail) : trim (lead ++ l ++ trail) = l := by
  rw [trim, List.append_assoc, dropWhile_blank_append hlead, hl.dropWhile_append hne,
    trimEnd_append_blank htrail, trimEnd_of_last hl.last]

theorem trim_of_trimmed {l : List Char} (hl : Trimmed l) (hne : l ≠ []) : trim l = l := by
  have hblank : Blank [] := by simp [Blank]
  simpa using trim_append_append hblank hl hne hblank

/-- White space at the end of a text does not matter. -/
theorem trim_append_blank {l blank : List Char} (h : Blank blank) : trim (l ++ blank) = trim l := by
  induction l with
  | nil =>
    have hdrop := @dropWhile_blank_append [] blank h
    rw [List.append_nil, List.dropWhile_nil] at hdrop
    simp [trim, hdrop]
  | cons c l ih =>
    by_cases hc : isWhitespace c
    · rw [trim, trim, List.cons_append, List.dropWhile_cons_of_pos hc, List.dropWhile_cons_of_pos hc]
      exact ih
    · rw [trim, trim, List.cons_append, List.dropWhile_cons_of_neg hc, List.dropWhile_cons_of_neg hc,
        ← List.cons_append]
      exact trimEnd_append_blank h

theorem mem_of_mem_trim {c : Char} {l : List Char} (h : c ∈ trim l) : c ∈ l :=
  (List.dropWhile_suffix _).subset ((List.rdropWhile_prefix _ _).subset h)

theorem trimmed_trim (l : List Char) : Trimmed (trim l) := by
  have hprefix : trim l <+: l.dropWhile isWhitespace := List.rdropWhile_prefix _ _
  constructor
  · intro c hc
    -- the first character is still the first one
    obtain ⟨tail, htail⟩ := hprefix
    have hhead : (l.dropWhile isWhitespace).head? = some c := by
      rw [← htail, List.head?_append, hc, Option.some_or]
    have hnot := List.head?_dropWhile_not isWhitespace l
    rw [hhead] at hnot
    simpa using hnot
  · intro c hc
    have hne : trim l ≠ [] := by
      intro hnil
      simp [hnil] at hc
    have hlast := List.rdropWhile_last_not isWhitespace (l.dropWhile isWhitespace) hne
    rwa [← List.getLast_eq_iff_getLast?_eq_some hne |>.2 hc]

theorem trim_trim (l : List Char) : trim (trim l) = trim l := by
  by_cases hne : trim l = []
  · rw [hne]
    rfl
  · exact trim_of_trimmed (trimmed_trim l) hne

/-- Cutting characters off the end stops at the last one that is not cut off. -/
theorem rdropWhile_append_cons {p : Char → Bool} {x : Char} (hx : ¬ p x) (l m : List Char) :
    (l ++ x :: m).rdropWhile p = l ++ x :: m.rdropWhile p := by
  induction m using List.reverseRecOn with
  | nil => rw [List.rdropWhile_concat_neg _ _ _ hx, List.rdropWhile_nil]
  | append_singleton m c ih =>
    have hassoc : l ++ x :: (m ++ [c]) = l ++ x :: m ++ [c] := by simp
    by_cases hc : p c
    · rw [hassoc, List.rdropWhile_concat_pos _ _ _ hc, ih, List.rdropWhile_concat_pos _ _ _ hc]
    · rw [hassoc, List.rdropWhile_concat_neg _ _ _ hc, List.rdropWhile_concat_neg _ _ _ hc]
      simp

/-- The parts of a text do not contain the characters at which it was split. -/
theorem not_of_mem_splitOnP {p : Char → Bool} {l part : List Char} (h : part ∈ l.splitOnP p) :
    ∀ c ∈ part, p c = false := by
  induction l generalizing part with
  | nil =>
    rw [List.splitOnP_nil, List.mem_singleton] at h
    simp [h]
  | cons x l ih =>
    rw [List.splitOnP_cons_eq_if_modifyHead] at h
    split at h
    next =>
      rcases List.mem_cons.1 h with rfl | h
      · simp
      · exact ih h
    next hx =>
      cases hparts : l.splitOnP p with
      | nil => simp [hparts] at h
      | cons first rest =>
        rw [hparts, List.modifyHead_cons] at h
        rcases List.mem_cons.1 h with rfl | h
        · -- the character joins the first part
          have hfirst := @ih first (by simp [hparts])
          rw [List.forall_mem_cons]
          exact ⟨by simpa using hx, hfirst⟩
        · exact ih (by simp [hparts, h])

/-- The parts of a text do not contain the character at which it was split. -/
theorem not_mem_of_mem_splitOn {c : Char} {l part : List Char} (h : part ∈ l.splitOn c) : c ∉ part := by
  rw [List.splitOn_eq_splitOnP] at h
  intro hc
  simpa using not_of_mem_splitOnP h c hc

/-- A digit is no white space. -/
theorem not_isWhitespace_of_isDigit {c : Char} (h : c.isDigit) : ¬ isWhitespace c := by
  have hrange : 48 ≤ c.toNat ∧ c.toNat ≤ 57 := Char.isDigit_iff_toNat.1 h
  intro hspace
  simp only [isWhitespace, List.mem_cons, List.not_mem_nil, or_false,
    decide_eq_true_eq] at hspace
  omega

end Text
