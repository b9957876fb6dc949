import Mathlib.Data.List.Pairwise
import Mathlib.Logic.Function.Basic
import Mathlib.Order.Lattice

/-!
# Lanes of intervals

Intervals are put into lanes one after the other, in any order. Of a lane only the end of the last interval is
kept, and an interval may go into a lane that has ended when it starts.

* `Packed.concat`: no two intervals of a lane overlap, since the last one of a lane is the one that ends last.
-/

namespace Lanes

variable {β ι τ : Type*} [LinearOrder τ] (start finish : β → τ)

/-- Two intervals share some time, or one begins and ends inside the other. -/
def Overlap (a b : β) : Prop := start a < finish b ∧ start b < finish a

/-- Intervals with their lanes, of which the last end is known. -/
structure Packed (last : ι → τ) (placed : List (β × ι)) : Prop where
  apart : placed.Pairwise fun p q => p.2 = q.2 → ¬ Overlap start finish p.1 q.1
  finish_le : ∀ p ∈ placed, finish p.1 ≤ last p.2

variable {start finish} {last : ι → τ} {placed : List (β × ι)}

theorem Packed.nil (last : ι → τ) : Packed start finish last ([] : List (β × ι)) :=
  ⟨.nil, fun _ h => absurd h List.not_mem_nil⟩

/-- An interval goes into a lane that has ended. -/
theorem Packed.concat [DecidableEq ι] (h : Packed start finish last placed) {x : β} {i : ι}
    (hfree : last i ≤ start x) (hx : start x ≤ finish x) :
    Packed start finish (Function.update last i (finish x)) (placed ++ [(x, i)]) := by
  constructor
  · rw [List.pairwise_append]
    refine ⟨h.apart, List.pairwise_singleton _ _, ?_⟩
    rintro p hp q hq heq ⟨-, hoverlap⟩
    obtain rfl := List.mem_singleton.1 hq
    have hlast := h.finish_le p hp
    rw [heq] at hlast
    exact absurd hoverlap (not_lt.2 (hlast.trans hfree))
  · rw [List.forall_mem_append, List.forall_mem_singleton]
    refine ⟨fun p hp => ?_, by rw [Function.update_self]⟩
    have hlast := h.finish_le p hp
    by_cases heq : p.2 = i
    · -- the lane ends later than it did
      rw [heq] at hlast ⊢
      rw [Function.update_self]
      exact hlast.trans (hfree.trans hx)
    · rwa [Function.update_of_ne heq]

/-- The lanes of the intervals, by their places in the list. -/
theorem Packed.not_overlap (h : Packed start finish last placed) {j k : ℕ} (hjk : j ≠ k) {p q : β × ι}
    (hp : placed[j]? = some p) (hq : placed[k]? = some q) (heq : p.2 = q.2) :
    ¬ Overlap start finish p.1 q.1 := by
  have hpairwise := List.pairwise_iff_getElem.1 h.apart
  obtain ⟨hj, rfl⟩ := List.getElem?_eq_some_iff.1 hp
  obtain ⟨hk, rfl⟩ := List.getElem?_eq_some_iff.1 hq
  rcases Nat.lt_or_gt_of_ne hjk with hlt | hgt
  · exact hpairwise j k hj hk hlt heq
  · exact fun hoverlap => hpairwise k j hk hj hgt heq.symm hoverlap.symm

end Lanes
