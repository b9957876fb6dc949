import Mathlib.Data.List.Basic
import Mathlib.Order.WithBot

/-!
# Joins over ranges of a list

In a join semilattice the join of a range of a list does not mind if the range is covered twice. So the
join of any range is that of two precomputed ranges that overlap, and joins of blocks can stand for the
elements of the blocks.

- `rangeJoin_le_iff`: what bounds the join of a range.
- `rangeJoin_cover`: two ranges that overlap or touch.
- `Spans.double`: a row of joins of ranges of one length, and the row for twice the length.
- `rangeJoin_blocks`: a range of blocks is a range of their elements.
-/

namespace RangeQuery

variable {α : Type*} [SemilatticeSup α]

/-- The join of all elements of a list, `⊥` when there are none. -/
def joinAll (xs : List α) : WithBot α := xs.foldr (fun x acc => ↑x ⊔ acc) ⊥

@[simp]
theorem joinAll_cons (x : α) (xs : List α) : joinAll (x :: xs) = ↑x ⊔ joinAll xs := rfl

/-- The join is the least upper bound. -/
theorem joinAll_le_iff {xs : List α} {b : WithBot α} : joinAll xs ≤ b ↔ ∀ x ∈ xs, ↑x ≤ b := by
  induction xs with
  | nil => simp [joinAll]
  | cons x xs ih => rw [joinAll_cons, sup_le_iff, ih, List.forall_mem_cons]

/-- A fold from the left that starts with a member is the join. -/
theorem joinAll_foldl (x : α) (xs : List α) : joinAll (x :: xs) = ↑(xs.foldl (· ⊔ ·) x) := by
  induction xs generalizing x with
  | nil => rfl
  | cons y ys ih =>
    rw [List.foldl_cons, ← ih, joinAll_cons, joinAll_cons, joinAll_cons, ← sup_assoc, ← WithBot.coe_sup]

/-- The join of `n` elements from index `i` on, as far as there are any. -/
def rangeJoin (xs : List α) (i n : ℕ) : WithBot α := joinAll ((xs.drop i).take n)

variable {xs blocks row : List α} {i j m n size : ℕ}

theorem rangeJoin_le_iff {b : WithBot α} :
    rangeJoin xs i n ≤ b ↔ ∀ k x, i ≤ k → k < i + n → xs[k]? = some x → ↑x ≤ b := by
  rw [rangeJoin, joinAll_le_iff]
  constructor
  · intro h k x hik hkn hk
    obtain ⟨d, rfl⟩ := Nat.exists_eq_add_of_le hik
    refine h x (List.mem_iff_getElem?.2 ⟨d, ?_⟩)
    rw [List.getElem?_take_of_lt (by omega), List.getElem?_drop, hk]
  · intro h x hx
    obtain ⟨d, hd⟩ := List.mem_iff_getElem?.1 hx
    rw [List.getElem?_take, List.getElem?_drop] at hd
    split at hd
    next hdn => exact h (i + d) x (by omega) (by omega) hd
    next => cases hd

/-- Two ranges that overlap or touch. -/
theorem rangeJoin_cover (hij : i ≤ j) (hji : j ≤ i + m) (hmn : i + m ≤ j + n) :
    rangeJoin xs i m ⊔ rangeJoin xs j n = rangeJoin xs i (j - i + n) := by
  refine eq_of_forall_ge_iff fun b => ?_
  rw [sup_le_iff, rangeJoin_le_iff, rangeJoin_le_iff, rangeJoin_le_iff]
  constructor
  · rintro ⟨hleft, hright⟩ k x hik hkn hk
    by_cases hkj : k < i + m
    · exact hleft k x hik hkj hk
    · exact hright k x (by omega) (by omega) hk
  · intro h
    exact ⟨fun k x hik hkm => h k x hik (by omega), fun k x hjk hkn => h k x (by omega) (by omega)⟩

/-- A range may be cut off at the end of the list. -/
theorem rangeJoin_min : rangeJoin xs i (min (i + n) xs.length - i) = rangeJoin xs i n := by
  refine eq_of_forall_ge_iff fun b => ?_
  rw [rangeJoin_le_iff, rangeJoin_le_iff]
  constructor
  · intro h k x hik hkn hk
    obtain ⟨hlt, -⟩ := List.getElem?_eq_some_iff.1 hk
    exact h k x hik (by omega) hk
  · intro h k x hik hkn hk
    exact h k x hik (by omega) hk

/-- A range of one element. -/
theorem rangeJoin_one {x : α} (h : xs[i]? = some x) : rangeJoin xs i 1 = ↑x := by
  refine eq_of_forall_ge_iff fun b => ?_
  rw [rangeJoin_le_iff]
  constructor
  · intro hle
    exact hle i x le_rfl (Nat.lt_succ_self i) h
  · intro hle k y hik hki hk
    obtain rfl : k = i := by omega
    exact Option.some.inj (h.symm.trans hk) ▸ hle

/-- Past the end there is nothing. -/
theorem rangeJoin_of_le (h : xs.length ≤ i) : rangeJoin xs i n = ⊥ := by
  rw [rangeJoin, List.drop_eq_nil_of_le h, List.take_nil]
  rfl

/-! ## Rows of joins -/

/-- A row with the joins of all ranges of `n` elements. -/
structure Spans (xs : List α) (n : ℕ) (row : List α) : Prop where
  length_eq : row.length = xs.length
  join {i : ℕ} {x : α} : row[i]? = some x → rangeJoin xs i n = ↑x

theorem Spans.one (xs : List α) : Spans xs 1 xs := ⟨rfl, rangeJoin_one⟩

/-- The row for twice the length: each entry is joined with the one `n` further on, if there is one. -/
theorem Spans.double (h : Spans xs n row) :
    Spans xs (n + n) (row.mapIdx fun i left => (row[i + n]?).elim left (left ⊔ ·)) := by
  refine ⟨by rw [List.length_mapIdx, h.length_eq], fun {i x} hx => ?_⟩
  rw [List.getElem?_mapIdx, Option.map_eq_some_iff] at hx
  obtain ⟨left, hleft, rfl⟩ := hx
  have hcover : rangeJoin xs i n ⊔ rangeJoin xs (i + n) n = rangeJoin xs i (n + n) := by
    rw [rangeJoin_cover (by omega) le_rfl (by omega), Nat.add_sub_cancel_left]
  rw [← hcover, h.join hleft]
  cases hright : row[i + n]? with
  | none =>
    have hend : xs.length ≤ i + n := h.length_eq ▸ List.getElem?_eq_none_iff.1 hright
    rw [rangeJoin_of_le hend, sup_of_le_left bot_le]
    rfl
  | some right =>
    rw [h.join hright]
    rfl

/-- Any range is covered by the first and the last entry of a row. -/
theorem Spans.cover {left right : α} (h : Spans xs n row) (hleft : row[i]? = some left)
    (hright : row[j]? = some right) (hij : i ≤ j) (hji : j ≤ i + n) :
    rangeJoin xs i (j - i + n) = ↑(left ⊔ right) := by
  rw [← rangeJoin_cover hij hji (Nat.add_le_add_right hij n), h.join hleft, h.join hright,
    WithBot.coe_sup]

/-! ## Blocks -/

/-- A range of blocks is a range of their elements. -/
theorem rangeJoin_blocks
    (hblock : ∀ (k : ℕ) (b : α), blocks[k]? = some b → rangeJoin xs (k * size) size = ↑b)
    (hlength : xs.length ≤ blocks.length * size) :
    rangeJoin blocks i n = rangeJoin xs (i * size) (n * size) := by
  induction n with
  | zero => simp [rangeJoin]
  | succ n ih =>
    have hblocks : rangeJoin blocks i (n + 1) = rangeJoin blocks i n ⊔ rangeJoin blocks (i + n) 1 := by
      rw [rangeJoin_cover (by omega) le_rfl (by omega), Nat.add_sub_cancel_left]
    have hxs : rangeJoin xs (i * size) ((n + 1) * size)
        = rangeJoin xs (i * size) (n * size) ⊔ rangeJoin xs ((i + n) * size) size := by
      rw [Nat.add_mul i n, rangeJoin_cover (by omega) le_rfl (by omega), Nat.add_sub_cancel_left, Nat.succ_mul]
    rw [hblocks, hxs, ih]
    congr 1
    cases hk : blocks[i + n]? with
    | none =>
      have hend := List.getElem?_eq_none_iff.1 hk
      rw [rangeJoin_of_le hend, rangeJoin_of_le (hlength.trans (Nat.mul_le_mul_right size hend))]
    | some b => rw [rangeJoin_one hk, hblock _ _ hk]

end RangeQuery
