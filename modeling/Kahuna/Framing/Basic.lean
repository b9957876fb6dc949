import Mathlib.Data.List.Basic

/-!
# Frames of a stream

A stream is cut into frames by members that end one. A reader who gets the stream in pieces keeps what the
frame that has not ended yet begins with.

* `frames`, `rest`: the frames that have ended, and the beginning of the next one;
* `frames_append`, `rest_append`: a stream that comes in pieces;
* `frames_of_findIdx?`: the first frame of a stream.
-/

namespace Framing

variable {α : Type*} (isEnd : α → Bool)

/-- The frames that end in a stream, when the first one begins with `pending`. -/
def frames : List α → List α → List (List α)
  | _, [] => []
  | pending, x :: xs => if isEnd x then pending :: frames [] xs else frames (pending ++ [x]) xs

/-- What the frame that does not end in a stream begins with. -/
def rest : List α → List α → List α
  | pending, [] => pending
  | pending, x :: xs => if isEnd x then rest [] xs else rest (pending ++ [x]) xs

section Framing

variable {isEnd} {pending xs ys : List α} {i : ℕ}

@[simp] theorem frames_nil : frames isEnd pending [] = [] := rfl

@[simp] theorem rest_nil : rest isEnd pending [] = pending := rfl

theorem frames_append :
    frames isEnd pending (xs ++ ys) = frames isEnd pending xs ++ frames isEnd (rest isEnd pending xs) ys := by
  induction xs generalizing pending with
  | nil => rfl
  | cons x xs ih =>
    rw [List.cons_append, frames, frames, rest]
    split
    · rw [ih, List.cons_append]
    · rw [ih]

theorem rest_append : rest isEnd pending (xs ++ ys) = rest isEnd (rest isEnd pending xs) ys := by
  induction xs generalizing pending with
  | nil => rfl
  | cons x xs ih =>
    rw [List.cons_append, rest, rest]
    split
    · exact ih
    · exact ih

/-- Without an end there is no frame. -/
theorem frames_of_not_end (h : ∀ x ∈ xs, isEnd x = false) :
    frames isEnd pending xs = [] ∧ rest isEnd pending xs = pending ++ xs := by
  induction xs generalizing pending with
  | nil => exact ⟨rfl, (List.append_nil _).symm⟩
  | cons x xs ih =>
    rw [List.forall_mem_cons] at h
    have hnot : ¬ isEnd x = true := by simp [h.1]
    rw [frames, rest, if_neg hnot, if_neg hnot, List.append_cons pending x xs]
    exact ih h.2

/-- The first end of a stream ends the first frame. -/
theorem frames_of_findIdx? (h : xs.findIdx? isEnd = some i) :
    frames isEnd [] xs = xs.take i :: frames isEnd [] (xs.drop (i + 1)) ∧
      rest isEnd [] xs = rest isEnd [] (xs.drop (i + 1)) := by
  obtain ⟨hi, hend, hbefore⟩ := List.findIdx?_eq_some_iff_getElem.1 h
  have hnot : ∀ x ∈ xs.take i, isEnd x = false := by
    intro x hx
    obtain ⟨j, hj, rfl⟩ := List.mem_take_iff_getElem.1 hx
    simpa using hbefore j (by omega)
  obtain ⟨hnone, hkept⟩ := @frames_of_not_end _ isEnd [] _ hnot
  rw [List.nil_append] at hkept
  have hsplit : xs = xs.take i ++ xs[i] :: xs.drop (i + 1) := by
    rw [← List.drop_eq_getElem_cons hi, List.take_append_drop]
  constructor
  · conv_lhs => rw [hsplit]
    rw [frames_append, hnone, hkept, List.nil_append, frames, if_pos hend]
  · conv_lhs => rw [hsplit]
    rw [rest_append, hkept, rest, if_pos hend]

/-- Without a first end there is none. -/
theorem frames_of_findIdx?_none (h : xs.findIdx? isEnd = none) :
    frames isEnd [] xs = [] ∧ rest isEnd [] xs = xs :=
  frames_of_not_end (List.findIdx?_eq_none_iff.1 h)

/-- What is written frame by frame is read as these frames. -/
theorem frames_flatMap {β : Type*} {f : β → List α} {stop : α} (hstop : isEnd stop = true) {bs : List β}
    (h : ∀ b ∈ bs, ∀ x ∈ f b, isEnd x = false) :
    frames isEnd [] (bs.flatMap fun b => f b ++ [stop]) = bs.map f ∧
      rest isEnd [] (bs.flatMap fun b => f b ++ [stop]) = [] := by
  induction bs with
  | nil => exact ⟨rfl, rfl⟩
  | cons b bs ih =>
    rw [List.forall_mem_cons] at h
    obtain ⟨hframes, hrest⟩ := ih h.2
    obtain ⟨hnone, hkept⟩ := @frames_of_not_end _ isEnd [] _ h.1
    rw [List.nil_append] at hkept
    rw [List.flatMap_cons, List.append_assoc, List.singleton_append, List.map_cons]
    constructor
    · rw [frames_append, hnone, hkept, List.nil_append, frames, if_pos hstop, hframes]
    · rw [rest_append, hkept, rest, if_pos hstop, hrest]

end Framing

end Framing
