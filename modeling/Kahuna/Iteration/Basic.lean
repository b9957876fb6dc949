import Mathlib.Data.List.Forall2

/-!
# Iterators

An iterator is asked for a value again and again until it has none, and its state changes with each call.

- `Yields`: the values that it gives before it has none.
- `Yields.exists_of_relation`, `Yields.unique`: what it gives, by what its state stands for.
-/

namespace Iteration

variable {σ α : Type*} {next : σ → Option α × σ}

/-- From a state on the calls give these values one after the other, and then nothing. -/
inductive Yields (next : σ → Option α × σ) : σ → List α → Prop
  | done {s s' : σ} (h : next s = (none, s')) : Yields next s []
  | more {s s' : σ} {a : α} {as : List α} (h : next s = (some a, s')) (rest : Yields next s' as) :
      Yields next s (a :: as)

/-- What an iterator gives, by a relation between its state and what is still to come. -/
theorem Yields.exists_of_relation {ι : Type*} {R : σ → List ι → Prop} {P : ι → α → Prop}
    (hdone : ∀ s, R s [] → ∃ s', next s = (none, s'))
    (hmore : ∀ s i is, R s (i :: is) → ∃ a s', next s = (some a, s') ∧ P i a ∧ R s' is) {s : σ} {is : List ι}
    (h : R s is) : ∃ as, Yields next s as ∧ List.Forall₂ P is as := by
  induction is generalizing s with
  | nil =>
    obtain ⟨s', hnext⟩ := hdone s h
    exact ⟨[], .done hnext, .nil⟩
  | cons i is ih =>
    obtain ⟨a, s', hnext, ha, hrest⟩ := hmore s i is h
    obtain ⟨as, hyields, hall⟩ := ih hrest
    exact ⟨a :: as, .more hnext hyields, .cons ha hall⟩

/-- There is only one list of values that an iterator gives. -/
theorem Yields.unique {s : σ} {as bs : List α} (has : Yields next s as) (hbs : Yields next s bs) : as = bs := by
  induction has generalizing bs with
  | done h =>
    cases hbs with
    | done _ => rfl
    | more h' _ => exact absurd (congrArg Prod.fst (h.symm.trans h')) (by simp)
  | more h _ ih =>
    cases hbs with
    | done h' => exact absurd (congrArg Prod.fst (h.symm.trans h')) (by simp)
    | more h' rest =>
      obtain ⟨ha, rfl⟩ := Prod.mk.inj (h.symm.trans h')
      rw [Option.some.inj ha, ih rest]

end Iteration
