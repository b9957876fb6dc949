import Mathlib.Algebra.Order.Ring.Nat
import Mathlib.Data.List.Basic
import Mathlib.Data.List.Induction

/-!
# Batches

Items are put into one batch after the other. A batch is closed before the item that would make it too
large, so that only an item that is too large alone makes a batch that is.

* `split`: the batches;
* `flatten_split`: the batches hold the items in their order;
* `size_le_of_mem_split`: no batch is too large, unless it holds one item.
-/

namespace Batching

variable {α : Type*} (weight : α → ℕ) (base limit : ℕ)

/-- The size of a batch. The base is the size of the empty batch. -/
def size (batch : List α) : ℕ := base + (batch.map weight).sum

/-- The batches of the items, when some items are already in the first one. -/
def split (current : List α) : List α → List (List α)
  | [] => if current.isEmpty then [] else [current]
  | x :: xs =>
    if limit < size weight base (current ++ [x]) ∧ current ≠ [] then current :: split [x] xs
    else split (current ++ [x]) xs

variable {weight base limit} {current xs batch : List α}

theorem size_append_singleton (batch : List α) (x : α) :
    size weight base (batch ++ [x]) = size weight base batch + weight x := by
  simp [size, Nat.add_assoc]

/-- A batch is no smaller than the number of its items, if every item has a weight. -/
theorem length_le_size (base : ℕ) (hweight : ∀ x, 0 < weight x) (batch : List α) :
    batch.length ≤ size weight base batch := by
  induction batch using List.reverseRecOn with
  | nil => exact Nat.zero_le _
  | append_singleton batch x ih =>
    rw [size_append_singleton, List.length_append, List.length_singleton]
    exact Nat.add_le_add ih (hweight x)

/-- No item is lost and none is held twice. -/
theorem flatten_split (current xs : List α) :
    (split weight base limit current xs).flatten = current ++ xs := by
  induction xs generalizing current with
  | nil =>
    cases current with
    | nil => rfl
    | cons x current => simp [split]
  | cons x xs ih =>
    rw [split]
    split
    · rw [List.flatten_cons, ih]
      rfl
    · rw [ih, List.append_assoc]
      rfl

/-- What holds of the batch that is begun, and stays so as long as the next item fits, holds of each batch. -/
theorem forall_mem_split {P : List α → Prop} (hcurrent : current = [] ∨ P current) (hone : ∀ x, P [x])
    (happend : ∀ batch x, P batch → size weight base (batch ++ [x]) ≤ limit → P (batch ++ [x])) :
    ∀ batch ∈ split weight base limit current xs, P batch := by
  induction xs generalizing current with
  | nil =>
    rw [split]
    rcases hcurrent with rfl | hcurrent
    · simp
    · split
      · simp
      · simpa using hcurrent
  | cons x xs ih =>
    rw [split]
    split
    next hfull =>
      rw [List.forall_mem_cons]
      exact ⟨hcurrent.resolve_left hfull.2, ih (.inr (hone x))⟩
    next hfits =>
      -- an item that does not fit begins a batch all the same if the batch is empty
      refine ih (.inr ?_)
      rcases hcurrent with rfl | hP
      · exact hone x
      · by_cases hnil : current = []
        · rw [hnil]
          exact hone x
        · exact happend current x hP (Nat.le_of_not_lt fun hlt => hfits ⟨hlt, hnil⟩)

theorem ne_nil_of_mem_split (h : batch ∈ split weight base limit [] xs) : batch ≠ [] := by
  refine forall_mem_split (P := fun batch => batch ≠ []) (.inl rfl) (fun x => ?_)
    (fun batch x _ _ => ?_) batch h
  · exact List.cons_ne_nil x []
  · exact List.append_ne_nil_of_right_ne_nil batch (List.cons_ne_nil x [])

/-- A batch that is too large holds one item. -/
theorem size_le_of_mem_split (h : batch ∈ split weight base limit [] xs) :
    size weight base batch ≤ limit ∨ ∃ x, batch = [x] := by
  refine forall_mem_split (P := fun batch => size weight base batch ≤ limit ∨ ∃ x, batch = [x]) (.inl rfl)
    (fun x => ?_) (fun batch x _ hle => ?_) batch h
  · exact .inr ⟨x, rfl⟩
  · exact .inl hle

end Batching
