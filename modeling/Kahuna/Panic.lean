import Mathlib.Data.List.Forall2

/-!
# Panics

The program stops on a failed assertion, an index out of bounds or an `unwrap` of nothing. A function of
the source that may do so is modelled with the panic as an error.
-/

/-- What the program panics on. -/
inductive Panic where
  /-- A slice or vector is indexed out of bounds. -/
  | outOfBounds
  /-- `expect` with the given message. -/
  | expect (message : String)
  /-- `unwrap` of an error or of `None`. -/
  | unwrap
  /-- `assert!` with the given message. -/
  | assertion (message : String)
  deriving DecidableEq, Repr

/-- A computation that may panic. -/
abbrev Run (α : Type) := Except Panic α

namespace Run

variable {α β : Type}

/-- `xs[i]`. -/
def index (xs : List α) (i : ℕ) : Run α :=
  match xs[i]? with
  | some x => .ok x
  | none => .error .outOfBounds

/-- `&xs[start..end]`. -/
def slice (xs : List α) (start stop : ℕ) : Run (List α) :=
  if start ≤ stop ∧ stop ≤ xs.length then .ok ((xs.drop start).take (stop - start))
  else .error .outOfBounds

theorem index_eq_ok {xs : List α} {i : ℕ} {x : α} (h : xs[i]? = some x) : index xs i = .ok x := by
  rw [index, h]

theorem slice_eq_ok {xs : List α} {start stop : ℕ} (h : start ≤ stop) (hstop : stop ≤ xs.length) :
    slice xs start stop = .ok ((xs.drop start).take (stop - start)) :=
  if_pos ⟨h, hstop⟩

/-- A loop goes through when each of its passes does. -/
theorem mapM_eq_ok {f : α → Run β} {P : α → β → Prop} {xs : List α}
    (h : ∀ x ∈ xs, ∃ y, f x = .ok y ∧ P x y) : ∃ ys, xs.mapM f = .ok ys ∧ List.Forall₂ P xs ys := by
  induction xs with
  | nil => exact ⟨[], rfl, .nil⟩
  | cons x xs ih =>
    rw [List.forall_mem_cons] at h
    obtain ⟨⟨y, hy, hP⟩, hrest⟩ := h
    obtain ⟨ys, hys, hall⟩ := ih hrest
    refine ⟨y :: ys, ?_, .cons hP hall⟩
    rw [List.mapM_cons, hy, hys]
    rfl

/-- A loop that goes through has gone through each of its passes. -/
theorem exists_of_mapM_eq_ok {f : α → Run β} {xs : List α} {ys : List β} (h : xs.mapM f = .ok ys) :
    ∀ x ∈ xs, ∃ y, f x = .ok y := by
  induction xs generalizing ys with
  | nil => exact List.forall_mem_nil _
  | cons x xs ih =>
    rw [List.mapM_cons] at h
    cases hx : f x with
    | error e => rw [hx] at h; cases h
    | ok y =>
      cases hxs : xs.mapM f with
      | error e => rw [hx, hxs] at h; cases h
      | ok rest => exact List.forall_mem_cons.2 ⟨⟨y, hx⟩, ih hxs⟩

/-- A loop none of whose passes panics. -/
theorem mapM_eq_map {f : α → Run β} {g : α → β} {xs : List α} (h : ∀ x ∈ xs, f x = .ok (g x)) :
    xs.mapM f = .ok (xs.map g) := by
  induction xs with
  | nil => rfl
  | cons x xs ih =>
    rw [List.forall_mem_cons] at h
    rw [List.mapM_cons, h.1, ih h.2]
    rfl

end Run
