import Mathlib.Data.List.Basic
import Mathlib.Data.Nat.Find
import Mathlib.Order.Lattice

/-!
# Bisection

A bisection looks for a key in a list, and keeps bounds: what stands before the lower one is less than the key,
and what stands from the upper one on is greater.

- `Around`, `Around.raise`, `Around.cut`: the bounds of a search in a sorted list, and a step of it.
- `Stops`, `binarySearchBy_stops`: where a search may end, in a list that need not be sorted.
- `exists_stops_iff`: how far behind a place a search may end.
-/

namespace Bisection

variable {α : Type*} [LinearOrder α] {xs : List α} {needle x : α} {lower stop mid : ℕ}

/-- Before `lower` everything is less than what is looked for, and from `stop` on greater. -/
structure Around (xs : List α) (needle : α) (lower stop : ℕ) : Prop where
  le : lower ≤ stop
  le_length : stop ≤ xs.length
  less : ∀ i x, i < lower → xs[i]? = some x → x < needle
  greater : ∀ i x, stop ≤ i → xs[i]? = some x → needle < x

/-- A search starts with the whole list. -/
theorem Around.whole (xs : List α) (needle : α) : Around xs needle 0 xs.length where
  le := Nat.zero_le _
  le_length := le_rfl
  less i x h := absurd h (Nat.not_lt_zero i)
  greater i x h hx := by
    rw [List.getElem?_eq_none h] at hx
    cases hx

/-- The elements of a sorted list come in order. -/
theorem le_of_sorted {i j : ℕ} {x y : α} (hs : xs.Pairwise (· ≤ ·)) (hij : i ≤ j) (hx : xs[i]? = some x)
    (hy : xs[j]? = some y) : x ≤ y := by
  obtain ⟨hi, rfl⟩ := List.getElem?_eq_some_iff.1 hx
  obtain ⟨hj, rfl⟩ := List.getElem?_eq_some_iff.1 hy
  rcases hij.lt_or_eq with hij | rfl
  · exact List.pairwise_iff_getElem.1 hs i j hi hj hij
  · exact le_rfl

/-- What was looked at is less, and all before it. -/
theorem Around.raise (h : Around xs needle lower stop) (hs : xs.Pairwise (· ≤ ·)) (hmid : mid < stop)
    (hx : xs[mid]? = some x) (hless : x < needle) : Around xs needle (mid + 1) stop where
  le := hmid
  le_length := h.le_length
  less _ _ hi hy := (le_of_sorted hs (Nat.le_of_lt_succ hi) hy hx).trans_lt hless
  greater := h.greater

/-- What was looked at is greater, and all behind it. -/
theorem Around.cut (h : Around xs needle lower stop) (hs : xs.Pairwise (· ≤ ·)) (hmid : lower ≤ mid)
    (hx : xs[mid]? = some x) (hgreater : needle < x) : Around xs needle lower mid where
  le := hmid
  le_length := (List.getElem?_eq_some_iff.1 hx).1.le
  less := h.less
  greater _ _ hi hy := hgreater.trans_le (le_of_sorted hs hi hx hy)

/-! ## Lists that need not be sorted -/

/-- A search ends at the key, or between an element that is less and one that is greater. -/
def Stops (xs : List α) (needle : α) : Except ℕ ℕ → Prop
  | .ok i => xs[i]? = some needle
  | .error i => i ≤ xs.length ∧ (∀ j x, j + 1 = i → xs[j]? = some x → x < needle) ∧
      ∀ x, xs[i]? = some x → needle < x

/-- The index that a search returns, of the key or of the place for it. -/
def place : Except ℕ ℕ → ℕ
  | .ok i => i
  | .error i => i

/-- The loop of `slice::binary_search_by`. What stands at `base` is not greater than what is looked for, unless
it is the first element. -/
def binarySearchLoop (xs : List α) (needle : α) (size base : ℕ) : ℕ :=
  if 1 < size then
    let half := size / 2
    let mid := base + half
    let base := if (xs[mid]?).any (needle < ·) then base else mid
    binarySearchLoop xs needle (size - half) base
  else base
termination_by size

/-- `slice::binary_search_by`, of the standard library. -/
def binarySearchBy (xs : List α) (needle : α) : Except ℕ ℕ :=
  let base := binarySearchLoop xs needle xs.length 0
  match xs[base]? with
  | none => .error 0
  | some x =>
    match compare x needle with
    | .eq => .ok base
    | .lt => .error (base + 1)
    | .gt => .error base

/-- What the loop knows of its bounds. Behind `base`, at the end of what is searched or one place before it, there
is something greater, or the list ends. -/
structure Brackets (xs : List α) (needle : α) (size base : ℕ) : Prop where
  pos : 0 < size
  le : base + size ≤ xs.length
  first : ∀ x, xs[base]? = some x → base = 0 ∨ x ≤ needle
  behind : ∃ u, base < u ∧ u ≤ base + size ∧ base + size ≤ u + 1 ∧ ∀ x, xs[u]? = some x → needle < x

theorem binarySearchLoop_brackets {size base : ℕ} (h : Brackets xs needle size base) :
    Brackets xs needle 1 (binarySearchLoop xs needle size base) := by
  induction hn : size using Nat.strong_induction_on generalizing size base with
  | h n ih =>
    subst hn
    have hpos := h.pos
    have hle := h.le
    rw [binarySearchLoop]
    split
    next hsize =>
      obtain ⟨u, hbu, hu, hu', hgreater⟩ := h.behind
      have hmid : base + size / 2 < xs.length := by omega
      refine ih (size - size / 2) (by omega) ?_ rfl
      rw [List.getElem?_eq_getElem hmid, Option.any_some]
      split
      next hless =>
        -- what is searched ends at the middle, or one place behind it
        rw [decide_eq_true_eq] at hless
        refine ⟨by omega, by omega, h.first, base + size / 2, by omega, by omega, by omega, fun x hx => ?_⟩
        rw [List.getElem?_eq_getElem hmid, Option.some.injEq] at hx
        exact hx ▸ hless
      next hless =>
        rw [decide_eq_true_eq, not_lt] at hless
        have hne : base + size / 2 ≠ u := fun heq =>
          absurd (hgreater _ (heq ▸ List.getElem?_eq_getElem hmid)) (not_lt.2 hless)
        refine ⟨by omega, by omega, fun x hx => .inr ?_, u, by omega, by omega, by omega, hgreater⟩
        rw [List.getElem?_eq_getElem hmid, Option.some.injEq] at hx
        exact hx ▸ hless
    next hsize =>
      have hone : size = 1 := by omega
      exact hone ▸ h

theorem binarySearchBy_stops (xs : List α) (needle : α) : Stops xs needle (binarySearchBy xs needle) := by
  unfold binarySearchBy
  by_cases hne : xs = []
  · subst hne
    simp [Stops]
  have hpos : 0 < xs.length := List.length_pos_iff.2 hne
  have hstart : Brackets xs needle xs.length 0 :=
    ⟨hpos, by omega, fun _ _ => .inl rfl, xs.length, hpos, by omega, by omega, fun x hx => by simp at hx⟩
  have h := binarySearchLoop_brackets hstart
  generalize binarySearchLoop xs needle xs.length 0 = base at h ⊢
  obtain ⟨u, hbu, hu, -, hgreater⟩ := h.behind
  obtain rfl : u = base + 1 := by omega
  have hlt : base < xs.length := by
    have := h.le
    omega
  have hget : xs[base]? = some xs[base] := List.getElem?_eq_getElem hlt
  simp only [hget]
  rcases lt_trichotomy xs[base] needle with hless | heq | hmore
  · rw [compare_lt_iff_lt.2 hless]
    refine ⟨hlt, fun j x hj hx => ?_, hgreater⟩
    obtain rfl : j = base := by omega
    rw [hget, Option.some.injEq] at hx
    exact hx ▸ hless
  · rw [compare_eq_iff_eq.2 heq]
    exact hget.trans (congrArg some heq)
  · rw [compare_gt_iff_gt.2 hmore]
    refine ⟨hlt.le, fun j x hj hx => ?_, fun x hx => ?_⟩
    · -- what stands at a place behind the first one is not greater
      have := (h.first _ hget).resolve_left (by omega)
      exact absurd hmore (not_lt.2 this)
    · rw [hget, Option.some.injEq] at hx
      exact hx ▸ hmore

/-- A search may end two or more places behind a place exactly when something behind it is less than what is
looked for, or something two or more places behind it is not greater. -/
theorem exists_stops_iff (xs : List α) (needle : α) (j : ℕ) :
    (∃ found, Stops xs needle found ∧ j + 1 < place found) ↔
      ∃ k x, xs[k]? = some x ∧ (j < k ∧ x < needle ∨ j + 1 < k ∧ x ≤ needle) := by
  constructor
  · rintro ⟨found, hstops, hplace⟩
    cases found with
    | ok i => exact ⟨i, needle, hstops, .inr ⟨hplace, le_rfl⟩⟩
    | error i =>
      obtain ⟨hi, hless, -⟩ := hstops
      have hplace : j + 1 < i := hplace
      have hlt : i - 1 < xs.length := by omega
      have hget : xs[i - 1]? = some xs[i - 1] := List.getElem?_eq_getElem hlt
      exact ⟨i - 1, xs[i - 1], hget, .inl ⟨by omega, hless _ _ (by omega) hget⟩⟩
  · rintro ⟨k, x, hx, hbehind⟩
    classical
    -- the search ends behind the last element that is not greater
    let NotGreater (i : ℕ) : Prop := ∃ y, xs[i]? = some y ∧ y ≤ needle
    have hk : NotGreater k := ⟨x, hx, hbehind.elim (fun h => h.2.le) And.right⟩
    have hklt : k < xs.length := (List.getElem?_eq_some_iff.1 hx).1
    set m := Nat.findGreatest NotGreater xs.length
    have hkm : k ≤ m := Nat.le_findGreatest hklt.le hk
    obtain ⟨y, hy, hle⟩ : NotGreater m := Nat.findGreatest_spec hklt.le hk
    have hmlt : m < xs.length := (List.getElem?_eq_some_iff.1 hy).1
    rcases hle.lt_or_eq with hless | rfl
    · have hlast : ∀ z, xs[m + 1]? = some z → needle < z := fun z hz => by
        have hzlt : m + 1 < xs.length := (List.getElem?_eq_some_iff.1 hz).1
        exact not_le.1 fun hzle => Nat.findGreatest_is_greatest (Nat.lt_succ_self m) hzlt.le ⟨z, hz, hzle⟩
      refine ⟨.error (m + 1), ⟨hmlt, fun i z hi hz => ?_, hlast⟩, ?_⟩
      · obtain rfl : i = m := by omega
        rw [hy, Option.some.injEq] at hz
        exact hz ▸ hless
      · show j + 1 < m + 1
        rcases hbehind with ⟨hj, -⟩ | ⟨hj, -⟩ <;> omega
    · refine ⟨.ok m, hy, ?_⟩
      show j + 1 < m
      rcases hbehind with ⟨hj, hless⟩ | ⟨hj, -⟩
      · have hne : m ≠ k := by
          intro heq
          rw [heq, hx, Option.some.injEq] at hy
          exact hless.ne hy
        omega
      · omega

end Bisection
