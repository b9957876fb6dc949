import Mathlib.Data.List.Basic

/-!
# Separators

Texts with separators put in between, and texts cut at a separator.

* `Inserted`: the first text becomes the second one when a separator is put in at some places;
* `Inserted.filter_eq`: the separators can be taken out again if their characters occur nowhere else;
* `splitOnce_append`: a text is cut at the first separator;
* `splitOnP_intercalate`, `splitOn_append_flatMap`, `map_splitOn_intercalate`: parts that were joined are found again by splitting.
-/

namespace Text

/-- The second text is the first one with copies of a separator put in. -/
inductive Inserted (sep : List Char) : List Char → List Char → Prop
  | nil : Inserted sep [] []
  | cons (c : Char) {l m : List Char} (h : Inserted sep l m) : Inserted sep (c :: l) (c :: m)
  | insert {l m : List Char} (h : Inserted sep l m) : Inserted sep l (sep ++ m)

namespace Inserted

variable {sep l l' m m' : List Char}

/-- Nothing has to be put in. -/
theorem refl (sep l : List Char) : Inserted sep l l := by
  induction l with
  | nil => exact .nil
  | cons c l ih => exact .cons c ih

theorem append (h : Inserted sep l m) (h' : Inserted sep l' m') :
    Inserted sep (l ++ l') (m ++ m') := by
  induction h with
  | nil => exact h'
  | cons c _ ih => exact .cons c ih
  | insert _ ih =>
    rw [List.append_assoc]
    exact .insert ih

theorem reverse (h : Inserted sep l m) : Inserted sep.reverse l.reverse m.reverse := by
  induction h with
  | nil => exact .nil
  | cons c _ ih =>
    rw [List.reverse_cons, List.reverse_cons]
    exact ih.append (.refl _ [c])
  | @insert l m _ ih =>
    have hend : Inserted sep.reverse [] (sep.reverse ++ []) := .insert .nil
    rw [List.append_nil] at hend
    simpa using ih.append hend

/-- The separators can be taken out again if their characters occur nowhere else. -/
theorem filter_eq (h : Inserted sep l m) (hsep : ∀ c ∈ l, c ∉ sep) :
    m.filter (fun c => c ∉ sep) = l := by
  induction h with
  | nil => rfl
  | cons c _ ih =>
    rw [List.forall_mem_cons] at hsep
    rw [List.filter_cons_of_pos (by simpa using hsep.1), ih hsep.2]
  | insert _ ih =>
    have hnone : sep.filter (fun c => c ∉ sep) = [] := by simp
    rw [List.filter_append, hnone, List.nil_append, ih hsep]

/-- Parts that are joined with a separator. -/
theorem intercalate (sep : List Char) (parts : List (List Char)) :
    Inserted sep parts.flatten (sep.intercalate parts) := by
  induction parts with
  | nil => exact .nil
  | cons part parts ih =>
    cases parts with
    | nil => simpa using Inserted.refl sep part
    | cons next rest =>
      rw [List.flatten_cons, List.intercalate_cons_cons, List.append_assoc]
      exact (Inserted.refl sep part).append (.insert ih)

end Inserted

/-- The text before the first occurrence of a character, and the text behind it. -/
def splitOnce (c : Char) (l : List Char) : Option (List Char × List Char) :=
  if c ∈ l then some (l.takeWhile (· ≠ c), (l.dropWhile (· ≠ c)).tail) else none

theorem splitOnce_append {c : Char} {before : List Char} (h : c ∉ before) (after : List Char) :
    splitOnce c (before ++ c :: after) = some (before, after) := by
  have hne : ∀ d ∈ before, decide (d ≠ c) = true := by
    intro d hd
    have : d ≠ c := fun heq => h (heq ▸ hd)
    simpa using this
  have htake : (before ++ c :: after).takeWhile (· ≠ c) = before := by
    rw [List.takeWhile_append_of_pos hne]
    simp
  have hdrop : (before ++ c :: after).dropWhile (· ≠ c) = c :: after := by
    rw [List.dropWhile_append_of_pos hne]
    simp
  rw [splitOnce, if_pos (by simp), htake, hdrop, List.tail_cons]

theorem splitOnce_of_notMem {c : Char} {l : List Char} (h : c ∉ l) : splitOnce c l = none := if_neg h

/-- Parts that were joined with one of the characters at which a text is split. -/
theorem splitOnP_intercalate {p : Char → Bool} {sep : Char} (hsep : p sep)
    {parts : List (List Char)} (hne : parts ≠ []) (h : ∀ part ∈ parts, ∀ c ∈ part, p c = false) :
    ([sep].intercalate parts).splitOnP p = parts := by
  induction parts with
  | nil => exact absurd rfl hne
  | cons part parts ih =>
    rw [List.forall_mem_cons] at h
    cases parts with
    | nil =>
      rw [List.intercalate_singleton]
      exact List.splitOnP_eq_singleton h.1
    | cons next rest =>
      have hrest := ih (List.cons_ne_nil _ _) h.2
      rw [List.intercalate_cons_cons, List.append_assoc, List.singleton_append,
        List.splitOnP_append_cons_of_forall_mem h.1 _ hsep, hrest]

/-- Parts that were put behind a text, each after a separator. -/
theorem splitOn_append_flatMap (c : Char) (l : List Char) {parts : List (List Char)}
    (h : ∀ part ∈ parts, c ∉ part) :
    (l ++ parts.flatMap (c :: ·)).splitOn c = l.splitOn c ++ parts := by
  induction parts generalizing l with
  | nil => simp
  | cons part parts ih =>
    rw [List.forall_mem_cons] at h
    rw [List.flatMap_cons, List.cons_append, List.splitOn_append_cons_self, ih part h.2,
      List.splitOn_eq_singleton h.1]
    rfl

/-- Strings that were joined with a separator in between are found again. -/
theorem map_splitOn_intercalate {sep : String} {c : Char} (hsep : sep.toList = [c]) {parts : List String}
    (hne : parts ≠ []) (h : ∀ part ∈ parts, c ∉ part.toList) :
    ((sep.intercalate parts).toList.splitOn c).map String.ofList = parts := by
  have hout : ∀ l ∈ parts.map String.toList, c ∉ l := by simpa using h
  rw [String.toList_intercalate, hsep, List.splitOn_intercalate c hout (by simpa using hne), List.map_map]
  simp

end Text
