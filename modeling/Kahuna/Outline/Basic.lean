import Mathlib.Data.List.Basic
import Mathlib.Order.Nat

/-!
# Outlines

An outline is a list whose members have levels. A member owns the members after it that are deeper,
up to the first that is not: its subtree is a stretch of the list. This file develops subtrees and
the selection of members by index, over any type of members.

* `Outline.subtreeEnd`: the index past the end of a subtree;
* `Outline.subtreeEnd_le_of_lt`: a subtree that starts inside another ends inside it;
* `Outline.keepAt`: the members whose indices satisfy a predicate, with the lemmas that cut it at an
  index (`keepAt_append`, `keepAt_eq_self`, `keepAt_eq_nil`).
-/

namespace Outline

variable {α : Type*} (level : α → ℕ)

/-- The index past the end of the subtree that starts at `start`. -/
def subtreeEnd (xs : List α) (start : ℕ) : ℕ :=
  match xs[start]? with
  | some root => start + 1 + (xs.drop (start + 1)).findIdx (fun x => level x ≤ level root)
  | none => xs.length

/-! ## Subtrees -/

section Subtree

variable {level} {xs : List α} {i j k : ℕ}

theorem subtreeEnd_of_lt (hi : i < xs.length) :
    subtreeEnd level xs i
      = i + 1 + (xs.drop (i + 1)).findIdx (fun x => level x ≤ level xs[i]) := by
  rw [subtreeEnd, List.getElem?_eq_getElem hi]

/-- A subtree contains its root. -/
theorem lt_subtreeEnd (hi : i < xs.length) : i < subtreeEnd level xs i := by
  rw [subtreeEnd_of_lt hi]
  omega

/-- A subtree ends in the list. -/
theorem subtreeEnd_le_length (hi : i < xs.length) : subtreeEnd level xs i ≤ xs.length := by
  have hfind := (xs.drop (i + 1)).findIdx_le_length (p := fun x => level x ≤ level xs[i])
  rw [List.length_drop] at hfind
  rw [subtreeEnd_of_lt hi]
  omega

/-- The members below the root are deeper. -/
theorem level_lt_of_lt_subtreeEnd (hi : i < xs.length) (hik : i < k)
    (hk : k < subtreeEnd level xs i) (hkl : k < xs.length) : level xs[i] < level xs[k] := by
  rw [subtreeEnd_of_lt hi] at hk
  have hnot := List.not_of_lt_findIdx (show k - (i + 1) <
    (xs.drop (i + 1)).findIdx (fun x => level x ≤ level xs[i]) by omega)
  have hlen : k - (i + 1) < (xs.drop (i + 1)).length := by
    rw [List.length_drop]
    omega
  have hget : (xs.drop (i + 1))[k - (i + 1)] = xs[k] := by
    rw [List.getElem_drop]
    congr 1
    omega
  rw [hget] at hnot
  simpa using hnot

/-- The member past a subtree is not deeper than the root. -/
theorem level_le_of_subtreeEnd (hi : i < xs.length) (he : subtreeEnd level xs i < xs.length) :
    level xs[subtreeEnd level xs i] ≤ level xs[i] := by
  have hfind : (xs.drop (i + 1)).findIdx (fun x => level x ≤ level xs[i])
      < (xs.drop (i + 1)).length := by
    rw [subtreeEnd_of_lt hi] at he
    rw [List.length_drop]
    omega
  have hget := List.findIdx_getElem (w := hfind)
  rw [List.getElem_drop] at hget
  simp only [subtreeEnd_of_lt hi]
  simpa using hget

/-- What makes an index the end of a subtree. -/
theorem subtreeEnd_eq (hi : i < xs.length) (hik : i < k) (hkl : k ≤ xs.length)
    (hdeep : ∀ j, i < j → j < k → ∀ hj : j < xs.length, level xs[i] < level xs[j])
    (hlast : ∀ hk : k < xs.length, level xs[k] ≤ level xs[i]) : subtreeEnd level xs i = k := by
  have hlt : i < subtreeEnd level xs i := lt_subtreeEnd hi
  have hle : subtreeEnd level xs i ≤ xs.length := subtreeEnd_le_length hi
  rcases lt_trichotomy (subtreeEnd level xs i) k with h | h | h
  · have hel : subtreeEnd level xs i < xs.length := by omega
    have hend := level_le_of_subtreeEnd hi hel
    have := hdeep _ hlt h hel
    omega
  · exact h
  · have hin := level_lt_of_lt_subtreeEnd hi hik h (by omega)
    have := hlast (by omega)
    omega

/-- A subtree that starts inside another ends inside it. -/
theorem subtreeEnd_le_of_lt (hi : i < xs.length) (hij : i < j) (hj : j < subtreeEnd level xs i) :
    subtreeEnd level xs j ≤ subtreeEnd level xs i := by
  have hjl : j < xs.length := hj.trans_le (subtreeEnd_le_length hi)
  by_contra hlt
  rw [not_le] at hlt
  have hel : subtreeEnd level xs i < xs.length := hlt.trans_le (subtreeEnd_le_length hjl)
  have hin := level_lt_of_lt_subtreeEnd hi hij hj hjl
  have hdeep := level_lt_of_lt_subtreeEnd hjl hj hlt hel
  have hend := level_le_of_subtreeEnd hi hel
  omega

end Subtree

/-! ## Members by index -/

/-- The members of a list that starts at index `offset` whose indices satisfy `p`. -/
def keepAt (p : ℕ → Bool) : ℕ → List α → List α
  | _, [] => []
  | offset, x :: xs => if p offset then x :: keepAt p (offset + 1) xs else keepAt p (offset + 1) xs

section KeepAt

variable {p q : ℕ → Bool} {offset : ℕ} {xs ys : List α}

@[simp] theorem keepAt_nil : keepAt p offset ([] : List α) = [] := rfl

theorem keepAt_cons {x : α} : keepAt p offset (x :: xs) =
    if p offset then x :: keepAt p (offset + 1) xs else keepAt p (offset + 1) xs := rfl

theorem keepAt_append :
    keepAt p offset (xs ++ ys) = keepAt p offset xs ++ keepAt p (offset + xs.length) ys := by
  induction xs generalizing offset with
  | nil => rfl
  | cons x xs ih =>
    have hoffset : offset + 1 + xs.length = offset + (x :: xs).length := by
      rw [List.length_cons]
      omega
    rw [List.cons_append, keepAt_cons, keepAt_cons, ih, hoffset]
    split <;> rfl

/-- Only the indices of the list matter. -/
theorem keepAt_congr (h : ∀ i, offset ≤ i → i < offset + xs.length → p i = q i) :
    keepAt p offset xs = keepAt q offset xs := by
  induction xs generalizing offset with
  | nil => rfl
  | cons x xs ih =>
    rw [keepAt_cons, keepAt_cons, h offset le_rfl (by simp),
      ih fun i hi hi' => h i (by omega) (by rw [List.length_cons]; omega)]

theorem keepAt_eq_self (h : ∀ i, offset ≤ i → i < offset + xs.length → p i = true) :
    keepAt p offset xs = xs := by
  induction xs generalizing offset with
  | nil => rfl
  | cons x xs ih =>
    rw [keepAt_cons, if_pos (h offset le_rfl (by simp)),
      ih fun i hi hi' => h i (by omega) (by rw [List.length_cons]; omega)]

theorem keepAt_eq_nil (h : ∀ i, offset ≤ i → i < offset + xs.length → p i = false) :
    keepAt p offset xs = [] := by
  induction xs generalizing offset with
  | nil => rfl
  | cons x xs ih =>
    rw [keepAt_cons, if_neg (by rw [h offset le_rfl (by simp)]; simp),
      ih fun i hi hi' => h i (by omega) (by rw [List.length_cons]; omega)]

theorem keepAt_sublist : (keepAt p offset xs).Sublist xs := by
  induction xs generalizing offset with
  | nil => exact List.Sublist.refl _
  | cons x xs ih =>
    rw [keepAt_cons]
    split
    · exact ih.cons_cons x
    · exact ih.cons x

theorem map_keepAt {β : Type*} (f : α → β) :
    (keepAt p offset xs).map f = keepAt p offset (xs.map f) := by
  induction xs generalizing offset with
  | nil => rfl
  | cons x xs ih =>
    rw [List.map_cons, keepAt_cons, keepAt_cons]
    split
    · rw [List.map_cons, ih]
    · exact ih

/-- Giving up a member shortens the list. -/
theorem length_keepAt_lt {i : ℕ} (hi : offset ≤ i) (hi' : i < offset + xs.length)
    (h : p i = false) : (keepAt p offset xs).length < xs.length := by
  induction xs generalizing offset with
  | nil => simp at hi'; omega
  | cons x xs ih =>
    rw [List.length_cons] at hi'
    by_cases heq : i = offset
    · have hle := (keepAt_sublist : (keepAt p (offset + 1) xs).Sublist xs).length_le
      rw [keepAt_cons, if_neg (by rw [← heq, h]; simp), List.length_cons]
      omega
    · have hlt := ih (show offset + 1 ≤ i by omega) (by omega)
      rw [keepAt_cons, List.length_cons]
      split
      · rw [List.length_cons]
        omega
      · omega

/-- Cut at an index: the kept members before it, then those from it on. -/
theorem keepAt_take_drop (n : ℕ) (hn : n ≤ xs.length) :
    keepAt p offset xs = keepAt p offset (xs.take n) ++ keepAt p (offset + n) (xs.drop n) := by
  conv_lhs => rw [← List.take_append_drop n xs]
  rw [keepAt_append, List.length_take, Nat.min_eq_left hn]

theorem mem_keepAt {x : α} :
    x ∈ keepAt p offset xs ↔ ∃ i, ∃ h : i < xs.length, p (offset + i) = true ∧ xs[i] = x := by
  induction xs generalizing offset with
  | nil => simp
  | cons y ys ih =>
    have htail : x ∈ keepAt p (offset + 1) ys ↔
        ∃ i, ∃ h : i + 1 < (y :: ys).length, p (offset + (i + 1)) = true
          ∧ (y :: ys)[i + 1] = x := by
      rw [ih]
      constructor
      · rintro ⟨i, h, hp, hx⟩
        exact ⟨i, by simpa using h, by rwa [show offset + (i + 1) = offset + 1 + i by omega],
          by simpa using hx⟩
      · rintro ⟨i, h, hp, hx⟩
        exact ⟨i, by simpa using h, by rwa [show offset + 1 + i = offset + (i + 1) by omega],
          by simpa using hx⟩
    rw [keepAt_cons]
    constructor
    · intro h
      by_cases hp : p offset
      · rw [if_pos hp] at h
        rcases List.mem_cons.mp h with rfl | h
        · exact ⟨0, by simp, by simpa using hp, rfl⟩
        · obtain ⟨i, hi, hpi, hx⟩ := htail.mp h
          exact ⟨i + 1, hi, hpi, hx⟩
      · rw [if_neg hp] at h
        obtain ⟨i, hi, hpi, hx⟩ := htail.mp h
        exact ⟨i + 1, hi, hpi, hx⟩
    · rintro ⟨i, hi, hp, hx⟩
      cases i with
      | zero =>
        rw [if_pos (by simpa using hp)]
        exact List.mem_cons.mpr (.inl hx.symm)
      | succ i =>
        have := htail.mpr ⟨i, hi, hp, hx⟩
        split
        · exact List.mem_cons_of_mem _ this
        · exact this

/-- The members of a stretch. -/
theorem keepAt_interval {s e : ℕ} (hse : s ≤ e) (he : e ≤ xs.length) :
    keepAt (fun i => s ≤ i && i < e) 0 xs = (xs.take e).drop s := by
  have hlen : (xs.take e).length = e := by rw [List.length_take, Nat.min_eq_left he]
  have hs : s ≤ (xs.take e).length := by omega
  have hafter : keepAt (fun i => s ≤ i && i < e) e (xs.drop e) = [] := by
    apply keepAt_eq_nil
    intro i hi _
    simp
    omega
  have hbefore : keepAt (fun i => s ≤ i && i < e) 0 ((xs.take e).take s) = [] := by
    apply keepAt_eq_nil
    intro i _ hi
    rw [List.length_take] at hi
    simp
    omega
  rw [keepAt_take_drop e he, Nat.zero_add, hafter, List.append_nil, keepAt_take_drop s hs,
    Nat.zero_add, hbefore, List.nil_append]
  apply keepAt_eq_self
  intro i hi hi'
  rw [List.length_drop, hlen] at hi'
  simp
  omega

/-- When the indices up to `e` are kept by `p` and those from `s` to `e` are given up by `q`, keeping
with `q` takes the stretch from `s` to `e` out of what `p` keeps. -/
theorem keepAt_remove {s e : ℕ} (hse : s ≤ e) (he : e ≤ xs.length)
    (hp : ∀ i, i < e → p i = true) (hqs : ∀ i, i < s → q i = true)
    (hqe : ∀ i, s ≤ i → i < e → q i = false) (hpq : ∀ i, e ≤ i → q i = p i) :
    (keepAt p 0 xs).take e = xs.take e ∧
      keepAt q 0 xs = (keepAt p 0 xs).take s ++ (keepAt p 0 xs).drop e := by
  have hcut : keepAt p 0 xs = xs.take e ++ keepAt p e (xs.drop e) := by
    rw [keepAt_take_drop e he, Nat.zero_add, keepAt_eq_self]
    intro i _ hi
    rw [List.length_take] at hi
    exact hp i (by omega)
  have hlen : (xs.take e).length = e := by rw [List.length_take, Nat.min_eq_left he]
  constructor
  · rw [hcut, List.take_left' hlen]
  · have htake : (keepAt p 0 xs).take s = xs.take s := by
      rw [hcut, List.take_append_of_le_length (by omega), List.take_take, Nat.min_eq_left hse]
    have hdrop : (keepAt p 0 xs).drop e = keepAt p e (xs.drop e) := by
      rw [hcut, List.drop_left' hlen]
    rw [htake, hdrop, keepAt_take_drop e he, Nat.zero_add]
    congr 1
    · have hs : s ≤ (xs.take e).length := by omega
      rw [keepAt_take_drop s hs, Nat.zero_add, List.take_take, Nat.min_eq_left hse,
        keepAt_eq_self, keepAt_eq_nil, List.append_nil]
      · intro i hi hi'
        rw [List.length_drop, hlen] at hi'
        exact hqe i hi (by omega)
      · intro i _ hi
        rw [List.length_take] at hi
        exact hqs i (by omega)
    · exact keepAt_congr fun i hi _ => hpq i hi

/-- Two predicates that never hold together share the members out. -/
theorem keepAt_or_perm (h : ∀ i, p i = true → q i = false) :
    (keepAt (fun i => p i || q i) offset xs).Perm (keepAt p offset xs ++ keepAt q offset xs) := by
  induction xs generalizing offset with
  | nil => rfl
  | cons x xs ih =>
    rw [keepAt_cons, keepAt_cons, keepAt_cons]
    cases hp : p offset with
    | true => simpa [h offset hp] using ih
    | false =>
      cases hq : q offset with
      | true => simpa using (ih.cons x).trans List.perm_middle.symm
      | false => simpa using ih

end KeepAt

end Outline
