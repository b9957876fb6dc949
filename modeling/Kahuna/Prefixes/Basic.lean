import Mathlib.Data.List.GetD
import Mathlib.Data.List.Lex
import Mathlib.Order.MinMax

/-!
# Common prefixes

How far two lists agree, and what lexicographic order says about it: of three lists in order, the outer
two agree no further than any two neighbours. In a sorted list it is therefore enough to compare each
element with its neighbours to know how much of it sets it apart from all others.

- `eq_of_take_eq_take`: two lists are equal if pieces longer than their common prefix are.
- `commonPrefixLen_lt_need`: what a comparison with the neighbours asks for is enough for all elements.
-/

namespace Prefixes

variable {α : Type*}

section DecidableEq

variable [DecidableEq α]

/-- The length of the longest common prefix. -/
def commonPrefixLen (a b : List α) : ℕ := ((a.zip b).takeWhile fun e => e.1 = e.2).length

@[simp]
theorem commonPrefixLen_nil_left (b : List α) : commonPrefixLen [] b = 0 := rfl

@[simp]
theorem commonPrefixLen_nil_right (a : List α) : commonPrefixLen a [] = 0 := by
  simp [commonPrefixLen]

@[simp]
theorem commonPrefixLen_cons_self (x : α) (a b : List α) :
    commonPrefixLen (x :: a) (x :: b) = commonPrefixLen a b + 1 := by
  simp [commonPrefixLen]

theorem commonPrefixLen_cons_of_ne {x y : α} (h : x ≠ y) (a b : List α) :
    commonPrefixLen (x :: a) (y :: b) = 0 := by
  simp [commonPrefixLen, h]

theorem commonPrefixLen_comm (a b : List α) : commonPrefixLen a b = commonPrefixLen b a := by
  induction a generalizing b with
  | nil => simp
  | cons x a ih =>
    cases b with
    | nil => simp
    | cons y b =>
      by_cases h : x = y
      · subst h
        simp [ih b]
      · rw [commonPrefixLen_cons_of_ne h, commonPrefixLen_cons_of_ne (Ne.symm h)]

/-- The length that sets an element apart from its neighbours. It is zero for an element without
neighbours. -/
def need (l : List (List α)) (i : ℕ) : ℕ :=
  max (if 0 < i then commonPrefixLen (l.getD i []) (l.getD (i - 1) []) + 1 else 0)
    (if i + 1 < l.length then commonPrefixLen (l.getD i []) (l.getD (i + 1) []) + 1 else 0)

/-- Two lists agree somewhere if they begin alike. -/
theorem commonPrefixLen_pos_iff {a b : List α} :
    0 < commonPrefixLen a b ↔ ∃ x, a.head? = some x ∧ b.head? = some x := by
  cases a with
  | nil => simp
  | cons x a =>
    cases b with
    | nil => simp
    | cons y b =>
      by_cases h : x = y
      · simp [h]
      · simp [commonPrefixLen_cons_of_ne h, Ne.symm h]

/-- An element that is not alone has neighbours. -/
theorem need_pos {l : List (List α)} {i : ℕ} (hi : i < l.length) (h : 1 < l.length) : 0 < need l i := by
  rw [need]
  rcases Nat.eq_zero_or_pos i with rfl | hpos
  · rw [if_pos (by omega : 0 + 1 < l.length)]
    omega
  · rw [if_pos hpos]
    omega

/-- An element that needs more than its first entry begins like a neighbour. -/
theorem exists_of_one_lt_need {l : List (List α)} {i : ℕ} (hi : i < l.length) (h : 1 < need l i) :
    ∃ j < l.length, j ≠ i ∧ 0 < commonPrefixLen (l.getD i []) (l.getD j []) := by
  rw [need, lt_max_iff] at h
  rcases h with h | h
  · split at h
    next hpos => exact ⟨i - 1, by omega, by omega, by omega⟩
    next => omega
  · split at h
    next hlt => exact ⟨i + 1, hlt, by omega, by omega⟩
    next => omega

/-- Pieces that are longer than the common prefix tell two lists apart. -/
theorem eq_of_take_eq_take {a b : List α} {m n : ℕ} (hm : commonPrefixLen a b < m)
    (hn : commonPrefixLen a b < n) (h : a.take m = b.take n) : a = b := by
  induction a generalizing b m n with
  | nil =>
    cases b with
    | nil => rfl
    | cons y b =>
      obtain ⟨n, rfl⟩ := Nat.exists_eq_succ_of_ne_zero (Nat.ne_zero_of_lt hn)
      simp at h
  | cons x a ih =>
    obtain ⟨m, rfl⟩ := Nat.exists_eq_succ_of_ne_zero (Nat.ne_zero_of_lt hm)
    cases b with
    | nil => simp at h
    | cons y b =>
      obtain ⟨n, rfl⟩ := Nat.exists_eq_succ_of_ne_zero (Nat.ne_zero_of_lt hn)
      rw [List.take_succ_cons, List.take_succ_cons, List.cons.injEq] at h
      obtain ⟨rfl, htail⟩ := h
      rw [commonPrefixLen_cons_self, Nat.succ_lt_succ_iff] at hm hn
      rw [ih hm hn htail]

end DecidableEq

section LinearOrder

variable [LinearOrder α] {a b c : List α}

theorem head_le_head {x y : α} (h : x :: a ≤ y :: b) : x ≤ y := by
  by_contra hlt
  exact absurd (List.cons_lt_cons_iff.2 (Or.inl (not_le.1 hlt))) (not_lt.2 h)

theorem tail_le_tail {x : α} (h : x :: a ≤ x :: b) : a ≤ b := by
  by_contra hlt
  exact absurd (List.cons_lt_cons_iff.2 (Or.inr ⟨rfl, not_le.1 hlt⟩)) (not_lt.2 h)

/-- The outer two of three lists in order agree no further than the first two, and no further than the
last two. -/
theorem commonPrefixLen_le (hab : a ≤ b) (hbc : b ≤ c) :
    commonPrefixLen a c ≤ commonPrefixLen a b ∧ commonPrefixLen a c ≤ commonPrefixLen b c := by
  induction a generalizing b c with
  | nil => simp
  | cons x a ih =>
    cases c with
    | nil => simp
    | cons z c =>
      by_cases hxz : x = z
      · subst hxz
        cases b with
        | nil => exact absurd (List.nil_lt_cons x a) (not_lt.2 hab)
        | cons y b =>
          -- the list in the middle begins like the other two
          have hxy : x = y := le_antisymm (head_le_head hab) (head_le_head hbc)
          subst hxy
          have htails := ih (tail_le_tail hab) (tail_le_tail hbc)
          simpa using htails
      · rw [commonPrefixLen_cons_of_ne hxz]
        simp

variable {l : List (List α)}

theorem getD_le_getD (h : l.Pairwise (· ≤ ·)) {i j : ℕ} (hij : i ≤ j) (hj : j < l.length) :
    l.getD i [] ≤ l.getD j [] := by
  rcases Nat.eq_or_lt_of_le hij with rfl | hlt
  · exact le_refl _
  · rw [List.getD_eq_getElem _ _ (hlt.trans hj), List.getD_eq_getElem _ _ hj]
    exact List.pairwise_iff_getElem.1 h i j (hlt.trans hj) hj hlt

/-- In a sorted list, what sets an element apart from its neighbours sets it apart from all others. -/
theorem commonPrefixLen_lt_need (h : l.Pairwise (· ≤ ·)) {i j : ℕ} (hi : i < l.length)
    (hj : j < l.length) (hij : i ≠ j) :
    commonPrefixLen (l.getD i []) (l.getD j []) < need l i := by
  rcases Nat.lt_or_gt_of_ne hij with hlt | hgt
  · have hnext : commonPrefixLen (l.getD i []) (l.getD j []) ≤
        commonPrefixLen (l.getD i []) (l.getD (i + 1) []) :=
      (commonPrefixLen_le (getD_le_getD h (by omega) (by omega)) (getD_le_getD h hlt hj)).1
    rw [need, if_pos (by omega : i + 1 < l.length)]
    exact Nat.lt_of_lt_of_le (Nat.lt_succ_of_le hnext) (Nat.le_max_right _ _)
  · have hprevious : commonPrefixLen (l.getD j []) (l.getD i []) ≤
        commonPrefixLen (l.getD (i - 1) []) (l.getD i []) :=
      (commonPrefixLen_le (getD_le_getD h (by omega) (by omega)) (getD_le_getD h (by omega) hi)).2
    rw [commonPrefixLen_comm, commonPrefixLen_comm (l.getD (i - 1) [])] at hprevious
    rw [need, if_pos (by omega : 0 < i)]
    exact Nat.lt_of_lt_of_le (Nat.lt_succ_of_le hprevious) (Nat.le_max_left _ _)

end LinearOrder

end Prefixes
