import Mathlib.Data.List.Basic
import Mathlib.Logic.Function.Basic

/-!
# Greedy matching

Owners ask for places through keys, one request after another. A request is served when its owner
holds nothing yet and some place that nobody holds fits the key. `Served` is what the requests
served so far leave behind; it is kept by each of the three things that can happen to a request.
-/

namespace Greedy

variable {ρ α κ : Type*}

/-- Nobody holds the place. -/
def Unused (held : ρ → Option κ) (p : κ) : Prop :=
  ∀ r, held r ≠ some p

/-- What is held after the requests of a list were served in its order. -/
structure Served (fits : α → κ → Prop) (requests : List (ρ × α)) (held : ρ → Option κ) : Prop where
  /-- No place has two owners. -/
  injective : ∀ r r' p, held r = some p → held r' = some p → r = r'
  /-- A place is held through a request that it fits. It fits no earlier request of its owner, and
  no place that is unused does. -/
  through : ∀ r p, held r = some p →
    ∃ earlier a later, requests = earlier ++ (r, a) :: later ∧ fits a p ∧
      ∀ a', (r, a') ∈ earlier → ¬ fits a' p ∧ ∀ q, Unused held q → ¬ fits a' q
  /-- An owner that holds nothing asked for nothing that is unused. -/
  refused : ∀ r, held r = none → ∀ a, (r, a) ∈ requests → ∀ q, Unused held q → ¬ fits a q

namespace Served

variable {fits : α → κ → Prop} {requests : List (ρ × α)} {held : ρ → Option κ}

/-- Before the first request nobody holds anything. -/
theorem nil : Served fits ([] : List (ρ × α)) (fun _ => none) where
  injective := by simp
  through := by simp
  refused := by simp

/-- Requests that come later change nothing about how a place is held. -/
private theorem through_append (h : Served fits requests held) (request : ρ × α) {r : ρ} {p : κ}
    (hheld : held r = some p) :
    ∃ earlier a later, requests ++ [request] = earlier ++ (r, a) :: later ∧ fits a p ∧
      ∀ a', (r, a') ∈ earlier → ¬ fits a' p ∧ ∀ q, Unused held q → ¬ fits a' q := by
  obtain ⟨earlier, a, later, hsplit, hfits, hbefore⟩ := h.through r p hheld
  exact ⟨earlier, a, later ++ [request], by simp [hsplit], hfits, hbefore⟩

/-- The owner holds a place already. -/
theorem keep (h : Served fits requests held) {r : ρ} (a : α) (hheld : held r ≠ none) :
    Served fits (requests ++ [(r, a)]) held where
  injective := h.injective
  through := fun _ _ => h.through_append (r, a)
  refused := by
    intro r' hnone a' hmem
    rcases List.mem_append.mp hmem with hold | hnew
    · exact h.refused r' hnone a' hold
    · have heq : (r', a') = (r, a) := by simpa using hnew
      exact absurd ((Prod.mk.inj heq).1 ▸ hnone) hheld

/-- No place that is unused fits the key. -/
theorem refuse (h : Served fits requests held) (r : ρ) {a : α}
    (hnofit : ∀ q, Unused held q → ¬ fits a q) : Served fits (requests ++ [(r, a)]) held where
  injective := h.injective
  through := fun _ _ => h.through_append (r, a)
  refused := by
    intro r' hnone a' hmem
    rcases List.mem_append.mp hmem with hold | hnew
    · exact h.refused r' hnone a' hold
    · have heq : (r', a') = (r, a) := by simpa using hnew
      exact (Prod.mk.inj heq).2 ▸ hnofit

/-- What is unused after an owner got a place was unused before. -/
theorem unused_of_update [DecidableEq ρ] {r : ρ} {p q : κ} (hnone : held r = none)
    (h : Unused (Function.update held r (some p)) q) : Unused held q ∧ q ≠ p := by
  constructor
  · intro r' hheld
    have hne : r' ≠ r := by
      rintro rfl
      simp [hnone] at hheld
    exact h r' (by rw [Function.update_of_ne hne, hheld])
  · rintro rfl
    exact h r (Function.update_self ..)

/-- The owner gets a place that is unused and fits the key. -/
theorem take [DecidableEq ρ] (h : Served fits requests held) {r : ρ} {a : α} {p : κ}
    (hnone : held r = none) (hunused : Unused held p) (hfits : fits a p) :
    Served fits (requests ++ [(r, a)]) (Function.update held r (some p)) where
  injective := by
    intro r₁ r₂ q h₁ h₂
    by_cases hr₁ : r₁ = r
    · by_cases hr₂ : r₂ = r
      · rw [hr₁, hr₂]
      · -- the other owner would hold a place that was unused
        rw [hr₁, Function.update_self, Option.some.injEq] at h₁
        rw [Function.update_of_ne hr₂] at h₂
        exact absurd (h₁ ▸ h₂) (hunused r₂)
    · rw [Function.update_of_ne hr₁] at h₁
      by_cases hr₂ : r₂ = r
      · rw [hr₂, Function.update_self, Option.some.injEq] at h₂
        exact absurd (h₂ ▸ h₁) (hunused r₁)
      · rw [Function.update_of_ne hr₂] at h₂
        exact h.injective r₁ r₂ q h₁ h₂
  through := by
    intro r' q hheld
    by_cases hr : r' = r
    · subst hr
      rw [Function.update_self, Option.some.injEq] at hheld
      subst hheld
      refine ⟨requests, a, [], rfl, hfits, fun a' hmem => ⟨?_, fun q hq => ?_⟩⟩
      · exact h.refused r' hnone a' hmem p hunused
      · exact h.refused r' hnone a' hmem q (unused_of_update hnone hq).1
    · rw [Function.update_of_ne hr] at hheld
      obtain ⟨earlier, b, later, hsplit, hfit, hbefore⟩ := h.through_append (r, a) hheld
      refine ⟨earlier, b, later, hsplit, hfit, fun a' hmem => ⟨(hbefore a' hmem).1, ?_⟩⟩
      exact fun q hq => (hbefore a' hmem).2 q (unused_of_update hnone hq).1
  refused := by
    intro r' hnone' a' hmem q hq
    have hne : r' ≠ r := by
      rintro rfl
      simp at hnone'
    rw [Function.update_of_ne hne] at hnone'
    rcases List.mem_append.mp hmem with hold | hnew
    · exact h.refused r' hnone' a' hold q (unused_of_update hnone hq).1
    · have heq : (r', a') = (r, a) := by simpa using hnew
      exact absurd (Prod.mk.inj heq).1 hne

end Served

end Greedy
