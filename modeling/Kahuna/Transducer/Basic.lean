import Mathlib.Data.List.Basic

/-!
# Transducers

A transducer reads a list of inputs from a state, and each step emits a list of outputs. Decoders
are transducers whose code accumulates the outputs in a variable of its loop; this file says once
what such a loop computes.

* `Transducer.emit`, `Transducer.final`: the outputs of a run and the state it ends in;
* `Transducer.foldl_simulates`: a fold whose steps append the rendered outputs of a transducer to
  its log computes the rendered outputs of the run;
* `Transducer.final_invariant`, `Transducer.emit_forall`: what every step preserves holds at the end
  of every run, and what every step's outputs satisfy holds of every output;
* `Transducer.map_emit_eq_of_related`: runs from related states emit outputs of the same shape.
-/

/-- A step function from states and inputs to outputs and states. -/
structure Transducer (ι ω σ : Type*) where
  /-- The outputs of one step and the state after it. -/
  step : σ → ι → List ω × σ

namespace Transducer

variable {ι ω σ : Type*} (T : Transducer ι ω σ)

/-- The outputs of a run. -/
def emit : σ → List ι → List ω
  | _, [] => []
  | s, x :: xs => (T.step s x).1 ++ emit (T.step s x).2 xs

/-- The state after a run. -/
def final : σ → List ι → σ
  | s, [] => s
  | s, x :: xs => final (T.step s x).2 xs

@[simp] theorem emit_nil (s : σ) : T.emit s [] = [] := rfl

@[simp] theorem final_nil (s : σ) : T.final s [] = s := rfl

@[simp] theorem emit_cons (s : σ) (x : ι) (xs : List ι) :
    T.emit s (x :: xs) = (T.step s x).1 ++ T.emit (T.step s x).2 xs := rfl

@[simp] theorem final_cons (s : σ) (x : ι) (xs : List ι) :
    T.final s (x :: xs) = T.final (T.step s x).2 xs := rfl

/-- A run over two lists ends where the run over the second ends from the end of the first. -/
theorem final_append (s : σ) (xs ys : List ι) :
    T.final s (xs ++ ys) = T.final (T.final s xs) ys := by
  induction xs generalizing s with
  | nil => rfl
  | cons x xs ih => exact ih _

/-- A run over two lists emits the outputs of the first, then those of the second. -/
theorem emit_append (s : σ) (xs ys : List ι) :
    T.emit s (xs ++ ys) = T.emit s xs ++ T.emit (T.final s xs) ys := by
  induction xs generalizing s with
  | nil => rfl
  | cons x xs ih => simp [ih, List.append_assoc]

/-- What every step preserves holds at the end of every run. -/
theorem final_invariant {Inv : σ → Prop} (hstep : ∀ s x, Inv s → Inv (T.step s x).2) {s : σ}
    (hs : Inv s) (xs : List ι) : Inv (T.final s xs) := by
  induction xs generalizing s with
  | nil => exact hs
  | cons x xs ih => exact ih (hstep s x hs)

/-- Every output of a run is the output of a step from a state that satisfies the invariant. -/
theorem emit_forall {Inv : σ → Prop} {P : ω → Prop}
    (hstep : ∀ s x, Inv s → Inv (T.step s x).2)
    (hout : ∀ s x, Inv s → ∀ o ∈ (T.step s x).1, P o) {s : σ} (hs : Inv s) (xs : List ι) :
    ∀ o ∈ T.emit s xs, P o := by
  induction xs generalizing s with
  | nil => simp
  | cons x xs ih =>
    intro o ho
    rcases List.mem_append.mp ho with ho | ho
    · exact hout s x hs o ho
    · exact ih (hstep s x hs) o ho

/-- Two runs over the same inputs from related states emit outputs of the same shape when related
states step to related states with outputs of the same shape. -/
theorem map_emit_eq_of_related {β : Type*} {shape : ω → β} {R : σ → σ → Prop}
    (hstep : ∀ s s' x, R s s' → (T.step s x).1.map shape = (T.step s' x).1.map shape ∧
      R (T.step s x).2 (T.step s' x).2)
    {s s' : σ} (hR : R s s') (xs : List ι) :
    (T.emit s xs).map shape = (T.emit s' xs).map shape ∧ R (T.final s xs) (T.final s' xs) := by
  induction xs generalizing s s' with
  | nil => exact ⟨rfl, hR⟩
  | cons x xs ih =>
    obtain ⟨hshape, hR'⟩ := hstep s s' x hR
    obtain ⟨hshapes, hfinal⟩ := ih hR'
    exact ⟨by rw [emit_cons, emit_cons, List.map_append, List.map_append, hshape, hshapes], hfinal⟩

section Simulation

variable {κ β γ : Type*} {f : γ → κ → γ} (log : γ → List β) {proj : κ → ι} {render : ω → β}
  {R : γ → σ → Prop}

/-- A fold simulates a transducer when each of its steps, from related states, appends the rendered
outputs of the transducer's step to the log and ends in related states. Its log then is the
rendered outputs of the whole run. -/
theorem foldl_simulates
    (hstep : ∀ g s x, R g s → log (f g x) = log g ++ (T.step s (proj x)).1.map render ∧
      R (f g x) (T.step s (proj x)).2)
    {g : γ} {s : σ} (hR : R g s) (xs : List κ) :
    log (xs.foldl f g) = log g ++ (T.emit s (xs.map proj)).map render ∧
      R (xs.foldl f g) (T.final s (xs.map proj)) := by
  induction xs generalizing g s with
  | nil => exact ⟨by simp, hR⟩
  | cons x xs ih =>
    obtain ⟨hlog, hR'⟩ := hstep g s x hR
    obtain ⟨hlogs, hfinal⟩ := ih hR'
    refine ⟨?_, hfinal⟩
    rw [List.foldl_cons, hlogs, hlog]
    simp [List.append_assoc]

end Simulation

end Transducer
