import Mathlib.Data.List.Basic

/-!
# The first mark that occurs

Marks have an order of precedence, and of the marks that occur in a list the first one in this order counts.

* `first_flatten`: a list may be cut into groups, and of each group only its first mark be kept.
-/

namespace Precedence

variable {α : Type*} [DecidableEq α] {marks l l' : List α} {c : α}

/-- The mark of a list. -/
def first (marks l : List α) : Option α := marks.find? (· ∈ l)

theorem first_eq_none_iff : first marks l = none ↔ ∀ c ∈ marks, c ∉ l := by
  simp [first]

theorem first_eq_some_iff :
    first marks l = some c ↔ c ∈ l ∧ ∃ before after, marks = before ++ c :: after ∧ ∀ d ∈ before, d ∉ l := by
  simp [first, List.find?_eq_some_iff_append]

theorem mem_of_first (h : first marks l = some c) : c ∈ marks ∧ c ∈ l :=
  ⟨List.mem_of_find?_eq_some h, (first_eq_some_iff.1 h).1⟩

/-- Only the marks of a list matter. -/
theorem first_congr (h : ∀ c ∈ marks, (c ∈ l ↔ c ∈ l')) : first marks l = first marks l' := by
  induction marks with
  | nil => rfl
  | cons mark rest ih =>
    rw [List.forall_mem_cons] at h
    have hrest := ih h.2
    simp only [first, List.find?_cons, h.1] at hrest ⊢
    rw [hrest]

/-- The mark of a list is the one of the marks of its groups. -/
theorem first_flatten (groups : List (List α)) :
    first marks (groups.filterMap (first marks)) = first marks groups.flatten := by
  have hsub : ∀ c, c ∈ groups.filterMap (first marks) → c ∈ groups.flatten := by
    intro c hc
    obtain ⟨group, hgroup, hfirst⟩ := List.mem_filterMap.1 hc
    exact List.mem_flatten.2 ⟨group, hgroup, (mem_of_first hfirst).2⟩
  cases hflat : first marks groups.flatten with
  | none =>
    rw [first_eq_none_iff] at hflat ⊢
    exact fun c hc hmem => hflat c hc (hsub c hmem)
  | some c =>
    obtain ⟨hmem, before, after, hmarks, hbefore⟩ := first_eq_some_iff.1 hflat
    obtain ⟨group, hgroup, hc⟩ := List.mem_flatten.1 hmem
    -- nothing before the mark is in any group, so that it is also the mark of its group
    have hfirst : first marks group = some c :=
      first_eq_some_iff.2 ⟨hc, before, after, hmarks, fun d hd hd' =>
        hbefore d hd (List.mem_flatten.2 ⟨group, hgroup, hd'⟩)⟩
    refine first_eq_some_iff.2 ⟨List.mem_filterMap.2 ⟨group, hgroup, hfirst⟩, before, after, hmarks, ?_⟩
    exact fun d hd hd' => hbefore d hd (hsub d hd')

end Precedence
