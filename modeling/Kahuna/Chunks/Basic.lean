import Mathlib.Algebra.Order.Floor.Div
import Mathlib.Data.List.Basic
import Mathlib.Data.Nat.Basic

/-!
# Chunks and fields

A list is cut into chunks of one length, the last of which is filled up (`cut`), and a chunk is cut into
fields of given lengths (`fields`). Both are made of `window`s: the elements from a place on, with a
filler behind the end of the list.

* `window_eq_take`: inside the list a window is a slice of it;
* `cut_eq`: the chunks are those that lie in the list, and one more where its length is not divisible;
* `fields_window`: the fields of a window are the windows that follow one another.
-/

namespace Chunks

variable {α : Type*}

/-- The `k` elements from `start` on, with `a` behind the end. -/
def window (a : α) (l : List α) (start k : ℕ) : List α := (List.range k).map fun j => l.getD (start + j) a

/-- The chunks of `n` elements, the last of which is filled up with `a`. -/
def cut (a : α) (n : ℕ) (l : List α) : List (List α) :=
  (List.range (l.length ⌈/⌉ n)).map fun i => window a l (i * n) n

/-- A chunk in fields of the given lengths. -/
def fields : List ℕ → List α → List (List α)
  | [], _ => []
  | k :: ks, l => l.take k :: fields ks (l.drop k)

variable {a : α} {l : List α}

@[simp] theorem length_window (start k : ℕ) : (window a l start k).length = k := by
  rw [window, List.length_map, List.length_range]

theorem window_eq_take {start k : ℕ} (h : start + k ≤ l.length) : window a l start k = (l.drop start).take k := by
  refine List.ext_getElem (by simp; omega) fun j hj _ => ?_
  rw [length_window] at hj
  have hin : start + j < l.length := by omega
  simp [window, hin]

theorem take_window (start k m : ℕ) (h : m ≤ k) : (window a l start k).take m = window a l start m := by
  rw [window, ← List.map_take, List.take_range, Nat.min_eq_left h, window]

theorem drop_window (start k m : ℕ) : (window a l start k).drop m = window a l (start + m) (k - m) := by
  refine List.ext_getElem (by simp) fun j _ _ => ?_
  simp [window, Nat.add_assoc]

/-- The fields of a window follow one another. -/
theorem fields_window (start : ℕ) {k n : ℕ} (ks : List ℕ) (h : k ≤ n) :
    fields (k :: ks) (window a l start n) = window a l start k :: fields ks (window a l (start + k) (n - k)) := by
  rw [fields, take_window start n k h, drop_window]

/-- The chunks that lie in the list, and one more if the length is not divisible. -/
theorem cut_eq {n : ℕ} (hn : 0 < n) :
    cut a n l = (List.range (l.length / n)).map (fun i => window a l (i * n) n) ++
      if l.length % n ≠ 0 then [window a l (l.length / n * n) n] else [] := by
  have hcount : l.length ⌈/⌉ n = l.length / n + if l.length % n ≠ 0 then 1 else 0 := by
    rw [Nat.ceilDiv_eq_add_pred_div]
    have hsum := Nat.div_add_mod l.length n
    have hlt := Nat.mod_lt l.length hn
    split
    · rw [Nat.div_eq_iff hn, Nat.add_mul, Nat.mul_comm]
      omega
    next hzero =>
      rw [Nat.div_eq_iff hn, Nat.add_zero, Nat.mul_comm]
      omega
  rw [cut, hcount]
  split
  · rw [List.range_succ, List.map_append, List.map_singleton]
  · rw [Nat.add_zero, List.append_nil]

end Chunks
