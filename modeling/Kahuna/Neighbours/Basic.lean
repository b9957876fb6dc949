import Mathlib.Data.List.Basic
import Mathlib.Data.List.Duplicate
import Mathlib.Data.List.NodupEquivFin
import Mathlib.Data.List.Sort
import Mathlib.Order.Bounds.Basic
import Mathlib.Order.Lattice

/-!
# Neighbours in a sorted list

A list is sorted, but may hold an element several times. The first place of an element is found, and the elements
next to that place are looked at.

* `isLeast_of_idxOf_succ`: behind it comes the next greater element, if the element is there once;
* `eq_of_idxOf_succ`: otherwise the same element comes again;
* `isGreatest_of_idxOf_pred`: before it comes the next smaller element.
-/

namespace Neighbours

variable {α : Type*} [LinearOrder α] {l : List α} {x y z : α} {i j : ℕ}

theorem le_of_getElem? (h : l.Pairwise (· ≤ ·)) (hij : i ≤ j) (hy : l[i]? = some y) (hz : l[j]? = some z) :
    y ≤ z := by
  obtain ⟨hi, rfl⟩ := List.getElem?_eq_some_iff.1 hy
  obtain ⟨hj, rfl⟩ := List.getElem?_eq_some_iff.1 hz
  rcases Nat.lt_or_eq_of_le hij with hlt | rfl
  · exact List.pairwise_iff_getElem.1 h i j hi hj hlt
  · exact le_rfl

theorem getElem?_idxOf (hx : x ∈ l) : l[l.idxOf x]? = some x := by
  have hlt := List.idxOf_lt_length_of_mem hx
  rw [List.getElem?_eq_getElem hlt, List.getElem_idxOf hlt]

/-- The elements before the first place of an element are smaller. -/
theorem lt_of_lt_idxOf (h : l.Pairwise (· ≤ ·)) (hx : x ∈ l) (hi : i < l.idxOf x) (hy : l[i]? = some y) :
    y < x := by
  refine lt_of_le_of_ne (le_of_getElem? h hi.le hy (getElem?_idxOf hx)) ?_
  rintro rfl
  obtain ⟨hlt, heq⟩ := List.getElem?_eq_some_iff.1 hy
  have hnot := List.not_of_lt_findIdx hi
  rw [heq, beq_self_eq_true] at hnot
  cases hnot

/-- The elements from there on are not. -/
theorem le_of_idxOf_le (h : l.Pairwise (· ≤ ·)) (hx : x ∈ l) (hi : l.idxOf x ≤ i) (hy : l[i]? = some y) :
    x ≤ y :=
  le_of_getElem? h hi (getElem?_idxOf hx) hy

/-- Nothing is smaller than an element at the first place. -/
theorem le_of_idxOf_eq_zero (h : l.Pairwise (· ≤ ·)) (hx : x ∈ l) (hzero : l.idxOf x = 0) :
    ∀ z ∈ l, x ≤ z := by
  intro z hz
  obtain ⟨j, hj⟩ := List.mem_iff_getElem?.1 hz
  exact le_of_idxOf_le h hx (by omega) hj

/-- Before the first place of an element is the next smaller one. -/
theorem isGreatest_of_idxOf_pred (h : l.Pairwise (· ≤ ·)) (hx : x ∈ l) (hi : l.idxOf x = i + 1)
    (hy : l[i]? = some y) : IsGreatest {z | z ∈ l ∧ z < x} y := by
  refine ⟨⟨List.mem_of_getElem? hy, lt_of_lt_idxOf h hx (by omega) hy⟩, ?_⟩
  rintro z ⟨hz, hzx⟩
  obtain ⟨j, hj⟩ := List.mem_iff_getElem?.1 hz
  -- a smaller element is before the place, and so not behind `y`
  have hji : j ≤ i := by
    by_contra hge
    exact absurd (le_of_idxOf_le h hx (by omega) hj) (not_le.2 hzx)
  exact le_of_getElem? h hji hj hy

/-- What comes behind the first place is not greater if the element is there again. -/
theorem eq_of_idxOf_succ (h : l.Pairwise (· ≤ ·)) (hx : x ∈ l) (hcount : l.count x ≠ 1)
    (hy : l[l.idxOf x + 1]? = some y) : y = x := by
  have hpos : 0 < l.count x := List.count_pos_iff.2 hx
  have hagain : List.Duplicate x l := List.duplicate_iff_two_le_count.2 (by omega)
  obtain ⟨n, m, hnm, hn, hm⟩ := List.duplicate_iff_exists_distinct_get.1 hagain
  have hn' : l[n.1]? = some x := by rw [List.getElem?_eq_getElem n.2, hn]; rfl
  have hm' : l[m.1]? = some x := by rw [List.getElem?_eq_getElem m.2, hm]; rfl
  -- the later of two places is behind the first one
  have hplace : l.idxOf x ≤ n.1 := by
    by_contra hlt
    exact lt_irrefl x (lt_of_lt_idxOf h hx (by omega) hn')
  refine le_antisymm ?_ (le_of_idxOf_le h hx (Nat.le_succ _) hy)
  exact le_of_getElem? h (by omega) hy hm'

/-- Behind the place of an element that is there once is the next greater one. -/
theorem isLeast_of_idxOf_succ (h : l.Pairwise (· ≤ ·)) (hx : x ∈ l) (hcount : l.count x = 1)
    (hy : l[l.idxOf x + 1]? = some y) : IsLeast {z | z ∈ l ∧ x < z} y := by
  have hlt : x < y := by
    refine lt_of_le_of_ne (le_of_idxOf_le h hx (Nat.le_succ _) hy) ?_
    rintro rfl
    have hagain : List.Duplicate x l := by
      obtain ⟨hi, hix⟩ := List.getElem?_eq_some_iff.1 (getElem?_idxOf hx)
      obtain ⟨hj, hjx⟩ := List.getElem?_eq_some_iff.1 hy
      exact List.duplicate_iff_exists_distinct_get.2
        ⟨⟨_, hi⟩, ⟨_, hj⟩, Fin.mk_lt_mk.2 (Nat.lt_succ_self _), hix.symm, hjx.symm⟩
    have htwo := List.duplicate_iff_two_le_count.1 hagain
    omega
  refine ⟨⟨List.mem_of_getElem? hy, hlt⟩, ?_⟩
  rintro z ⟨hz, hxz⟩
  obtain ⟨j, hj⟩ := List.mem_iff_getElem?.1 hz
  -- a greater element is behind the place
  have hji : l.idxOf x + 1 ≤ j := by
    by_contra hle
    exact absurd (le_of_getElem? h (by omega) hj (getElem?_idxOf hx)) (not_le.2 hxz)
  exact le_of_getElem? h hji hy hj

/-- Nothing is greater than an element at the last place. -/
theorem le_of_idxOf_succ (h : l.Pairwise (· ≤ ·)) (hx : x ∈ l) (hlast : l.length ≤ l.idxOf x + 1) :
    ∀ z ∈ l, z ≤ x := by
  intro z hz
  obtain ⟨j, hj⟩ := List.mem_iff_getElem?.1 hz
  obtain ⟨hjlt, -⟩ := List.getElem?_eq_some_iff.1 hj
  exact le_of_getElem? h (by omega) hj (getElem?_idxOf hx)

end Neighbours

/-!
## Beyond a place in a sorted list

The elements of a list lie at places that increase strictly. Those beyond a place are listed in one direction or the
other, the nearest first. A step to the nearest one leaves the rest beyond it.

* `Further`: one place is further in a direction than another;
* `beyond_of_cons`: what is beyond the nearest element;
* `further_of_find?`: the first element that is looked for is the nearest one.
-/

namespace Neighbours

variable {α κ : Type*} [LinearOrder κ]

/-- Whether `b` is further than `a`, forwards or backwards. -/
def Further (next : Bool) (a b : κ) : Prop := if next then a < b else b < a

instance (next : Bool) (a b : κ) : Decidable (Further next a b) := by
  unfold Further
  infer_instance

variable {next : Bool} {a b c : κ}

@[simp] theorem further_true : Further true a b ↔ a < b := Iff.rfl

@[simp] theorem further_false : Further false a b ↔ b < a := Iff.rfl

theorem Further.trans (h : Further next a b) (h' : Further next b c) : Further next a c := by
  cases next with
  | false => exact lt_trans h' h
  | true => exact lt_trans h h'

theorem Further.irrefl (next : Bool) (a : κ) : ¬ Further next a a := by
  cases next <;> exact lt_irrefl a

/-- The elements beyond a place, the nearest first. -/
def beyond (key : α → κ) (next : Bool) (l : List α) (c : κ) : List α :=
  (if next then l else l.reverse).filter fun x => Further next c (key x)

variable {key : α → κ} {l rest : List α} {x y : α}

theorem mem_beyond : x ∈ beyond key next l c ↔ x ∈ l ∧ Further next c (key x) := by
  cases next <;> simp [beyond]

variable (next) in
theorem pairwise_beyond (h : l.Pairwise fun x y => key x < key y) (c : κ) :
    (beyond key next l c).Pairwise fun x y => Further next (key x) (key y) := by
  refine List.Pairwise.filter _ ?_
  cases next with
  | false => exact List.pairwise_reverse.2 h
  | true => exact h

/-- What is beyond a further place is beyond both. -/
theorem beyond_eq_filter (h : ∀ x ∈ l, Further next b (key x) → Further next a (key x)) :
    beyond key next l b = (beyond key next l a).filter fun x => Further next b (key x) := by
  rw [beyond, beyond, List.filter_filter]
  refine List.filter_congr fun x hx => ?_
  have hmem : x ∈ l := by
    cases next with
    | false => exact List.mem_reverse.1 hx
    | true => exact hx
  rw [Bool.eq_iff_iff, Bool.and_eq_true, decide_eq_true_eq, decide_eq_true_eq]
  exact ⟨fun hb => ⟨hb, h x hmem hb⟩, And.left⟩

/-- Beyond the nearest element is the rest. -/
theorem beyond_of_cons (h : l.Pairwise fun x y => key x < key y) (hb : beyond key next l c = x :: rest) :
    beyond key next l (key x) = rest := by
  have hpair := pairwise_beyond next h c
  have hx : Further next c (key x) := (mem_beyond.1 (hb ▸ List.mem_cons_self)).2
  rw [hb, List.pairwise_cons] at hpair
  rw [beyond_eq_filter fun y _ hy => hx.trans hy, hb, List.filter_cons_of_neg (by simpa using Further.irrefl next _),
    List.filter_eq_self]
  exact fun y hy => decide_eq_true (hpair.1 y hy)

/-- The first element that is looked for is the nearest one. -/
theorem further_of_find? (h : l.Pairwise fun x y => key x < key y) {p : α → Bool}
    (hx : (beyond key next l c).find? p = some x) :
    ∀ y ∈ l, Further next c (key y) → p y = true → key y = key x ∨ Further next (key x) (key y) := by
  intro y hy hfurther hp
  obtain ⟨-, front, back, heq, hfront⟩ := List.find?_eq_some_iff_append.1 hx
  have hpair := pairwise_beyond next h c
  have hmem : y ∈ front ++ x :: back := heq ▸ mem_beyond.2 ⟨hy, hfurther⟩
  rw [heq, List.pairwise_append, List.pairwise_cons] at hpair
  rcases List.mem_append.1 hmem with hmem | hmem
  · -- what comes before is not looked for
    have hnot := hfront y hmem
    rw [hp] at hnot
    cases hnot
  · rcases List.mem_cons.1 hmem with rfl | hmem
    · exact .inl rfl
    · exact .inr (hpair.2.1.1 y hmem)

end Neighbours
