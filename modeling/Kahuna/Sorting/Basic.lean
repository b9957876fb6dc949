import Mathlib.Data.List.Sort

/-!
# Stable sorting by two orders

A list is sorted by an order that may find different elements equal, and such elements keep their order in the
list.

* `insertionSort_eq_iff`: two orders sort a list alike exactly if they agree on every element and every element
  behind it;
* `pairwise_lt_eraseDups`: a list in order increases strictly once its repetitions are erased.
-/

namespace Sorting

variable {α : Type*} {r r' : α → α → Prop} [DecidableRel r] [DecidableRel r'] {l : List α}

theorem orderedInsert_congr {a : α} (h : ∀ b ∈ l, (r a b ↔ r' a b)) :
    l.orderedInsert r a = l.orderedInsert r' a := by
  induction l with
  | nil => rfl
  | cons b l ih =>
    rw [List.forall_mem_cons] at h
    rw [List.orderedInsert_cons, List.orderedInsert_cons, ih h.2]
    simp only [h.1]

/-- Only pairs in the order of the list are compared. -/
theorem insertionSort_congr (h : l.Pairwise fun a b => (r a b ↔ r' a b)) :
    l.insertionSort r = l.insertionSort r' := by
  induction l with
  | nil => rfl
  | cons a l ih =>
    rw [List.pairwise_cons] at h
    rw [List.insertionSort_cons, List.insertionSort_cons, ih h.2]
    exact orderedInsert_congr fun b hb => h.1 b ((List.mem_insertionSort r').1 hb)

/-- A pair that one order leaves as it is comes out in the same order, which is then one of the other too. -/
theorem rel_of_insertionSort_eq [Std.Total r'] [IsTrans α r'] (h : l.insertionSort r = l.insertionSort r')
    {a b : α} (hab : [a, b].Sublist l) (hr : r a b) : r' a b := by
  have hsorted := List.pair_sublist_insertionSort hr hab
  rw [h] at hsorted
  exact List.pairwise_pair.1 ((List.pairwise_insertionSort r' l).sublist hsorted)

/-- Two orders sort a list alike exactly if they agree on its pairs. -/
theorem insertionSort_eq_iff [Std.Total r] [IsTrans α r] [Std.Total r'] [IsTrans α r'] :
    l.insertionSort r = l.insertionSort r' ↔ l.Pairwise fun a b => (r a b ↔ r' a b) := by
  refine ⟨fun h => ?_, insertionSort_congr⟩
  refine List.pairwise_iff_forall_sublist.2 fun {a b} hab => ⟨?_, ?_⟩
  · exact rel_of_insertionSort_eq h hab
  · exact rel_of_insertionSort_eq h.symm hab

/-! ## Repetitions -/

theorem eraseDups_sublist [BEq α] [LawfulBEq α] : ∀ l : List α, l.eraseDups.Sublist l
  | [] => .slnil
  | a :: l => by
    rw [List.eraseDups_cons]
    exact ((eraseDups_sublist _).trans List.filter_sublist).cons_cons a
termination_by l => l.length
decreasing_by simpa using Nat.lt_succ_of_le (List.length_filter_le _ l)

/-- Without its repetitions, a list that is in order increases strictly. -/
theorem pairwise_lt_eraseDups [BEq α] [LawfulBEq α] [PartialOrder α] :
    ∀ {l : List α}, l.Pairwise (· ≤ ·) → l.eraseDups.Pairwise (· < ·)
  | [], _ => .nil
  | a :: l, h => by
    rw [List.pairwise_cons] at h
    rw [List.eraseDups_cons, List.pairwise_cons]
    refine ⟨fun b hb => ?_, pairwise_lt_eraseDups (h.2.sublist List.filter_sublist)⟩
    obtain ⟨hmem, hne⟩ := List.mem_filter.1 (List.mem_eraseDups.1 hb)
    exact lt_of_le_of_ne (h.1 b hmem) fun heq => by simp [heq] at hne
termination_by l => l.length
decreasing_by simpa using Nat.lt_succ_of_le (List.length_filter_le _ l)

/-! ## Orders from comparisons -/

/-- Whether a comparison leaves two elements as they are. -/
def le (cmp : α → α → Ordering) (a b : α) : Prop := (cmp a b).isLE

instance (cmp : α → α → Ordering) : DecidableRel (le cmp) := fun a b =>
  inferInstanceAs (Decidable ((cmp a b).isLE = true))

instance (cmp : α → α → Ordering) [Std.OrientedCmp cmp] : Std.Total (le cmp) where
  total a b := by
    have hswap : cmp a b = (cmp b a).swap := Std.OrientedCmp.eq_swap
    rw [le, le, hswap]
    cases cmp b a <;> decide

instance (cmp : α → α → Ordering) [Std.TransCmp cmp] : IsTrans α (le cmp) where
  trans _ _ _ hab hbc := Std.TransCmp.isLE_trans hab hbc

/-- Elements are compared by what they are mapped to. -/
theorem transCmp_comap {β : Type*} (cmp : β → β → Ordering) [Std.TransCmp cmp] (f : α → β) :
    Std.TransCmp fun a b => cmp (f a) (f b) :=
  { eq_swap := Std.OrientedCmp.eq_swap
    isLE_trans := Std.TransCmp.isLE_trans }

/-- All elements are equal. -/
theorem transCmp_const : Std.TransCmp fun _ _ : α => Ordering.eq :=
  { eq_swap := rfl
    isLE_trans := fun _ _ => rfl }

end Sorting
