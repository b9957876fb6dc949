import Mathlib.Data.List.Pairwise
import Mathlib.Data.List.TakeDrop

/-!
# The most recent entries of a list

A list of recent entries has each entry once, the latest one first. Two entries are the same one if they have the
same key. An entry that is seen again moves to the front.

* `recent_concat`: to see one more entry is to move it to the front;
* `take_touch`: the first entries of a list only depend on as many of the list before, so that a list that is cut off
  goes on to agree with one that is not.
-/

namespace Recency

variable {α κ : Type*} [DecidableEq κ] {key : α → κ} {a : α} {l l' seen : List α} {n : ℕ}

/-- An entry moves to the front. -/
def touch (key : α → κ) (a : α) (l : List α) : List α := a :: l.filter fun b => key b ≠ key a

/-- No two entries are the same one. -/
def Distinct (key : α → κ) (l : List α) : Prop := l.Pairwise fun a b => key a ≠ key b

/-- The last entry of each key in the order in which they were seen, the latest one first. -/
def recent (key : α → κ) (seen : List α) : List α := (seen.pwFilter fun a b => key a ≠ key b).reverse

theorem distinct_recent (key : α → κ) (seen : List α) : Distinct key (recent key seen) := by
  rw [Distinct, recent, List.pairwise_reverse]
  exact (List.pairwise_pwFilter seen).imp Ne.symm

theorem recent_reverse (h : Distinct key l) : recent key l.reverse = l := by
  have hreverse : l.reverse.Pairwise fun a b => key a ≠ key b :=
    List.pairwise_reverse.2 (h.imp Ne.symm)
  rw [recent, List.pwFilter_eq_self.2 hreverse, List.reverse_reverse]

theorem Distinct.touch (h : Distinct key l) (a : α) : Distinct key (touch key a l) := by
  rw [Distinct, Recency.touch, List.pairwise_cons]
  refine ⟨fun b hb => ?_, h.filter _⟩
  rw [List.mem_filter, decide_eq_true_eq] at hb
  exact hb.2.symm

/-- One more entry is the last one of its key. -/
theorem pwFilter_concat (key : α → κ) (seen : List α) (a : α) :
    (seen ++ [a]).pwFilter (fun a b => key a ≠ key b)
      = (seen.pwFilter fun a b => key a ≠ key b).filter (fun b => key b ≠ key a) ++ [a] := by
  induction seen with
  | nil => rfl
  | cons x seen ih =>
    rw [List.cons_append]
    by_cases hx : ∀ b ∈ seen.pwFilter fun a b => key a ≠ key b, key x ≠ key b
    · rw [List.pwFilter_cons_of_pos hx]
      by_cases hxa : key x = key a
      · -- the entry that is seen again was the last one of its key before
        rw [List.pwFilter_cons_of_neg, ih, List.filter_cons_of_neg (by simpa using hxa)]
        intro h
        refine h a ?_ hxa
        rw [ih]
        exact List.mem_concat_self
      · rw [List.pwFilter_cons_of_pos, ih, List.filter_cons_of_pos (by simpa using hxa), List.cons_append]
        intro b hb
        rw [ih, List.mem_append, List.mem_singleton] at hb
        rcases hb with hb | rfl
        · exact hx b (List.mem_filter.1 hb).1
        · exact hxa
    · -- an entry with another one of its key behind it is left out, before as after
      rw [List.pwFilter_cons_of_neg hx, List.pwFilter_cons_of_neg, ih]
      intro h
      rw [ih] at h
      push Not at hx
      obtain ⟨b, hb, hxb⟩ := hx
      by_cases hba : key b = key a
      · exact h a List.mem_concat_self (hxb.trans hba)
      · exact h b (List.mem_append_left _ (List.mem_filter.2 ⟨hb, by simpa using hba⟩)) hxb

theorem recent_concat (key : α → κ) (seen : List α) (a : α) :
    recent key (seen ++ [a]) = touch key a (recent key seen) := by
  rw [recent, pwFilter_concat, List.reverse_append, List.reverse_singleton, List.singleton_append,
    ← List.filter_reverse, touch, recent]

/-- Of the first entries without one of them there are no fewer than one less. -/
theorem take_filter (h : Distinct key l) (a : α) (n : ℕ) :
    (l.filter fun b => key b ≠ key a).take n = ((l.take (n + 1)).filter fun b => key b ≠ key a).take n := by
  induction l generalizing n with
  | nil => rfl
  | cons x l ih =>
    rw [Distinct, List.pairwise_cons] at h
    rw [List.take_succ_cons]
    by_cases hx : key x = key a
    · -- all the others stay
      have hall : ∀ b ∈ l, decide (key b ≠ key a) = true := by
        intro b hb
        rw [decide_eq_true_eq, ← hx]
        exact (h.1 b hb).symm
      rw [List.filter_cons_of_neg (by simpa using hx), List.filter_cons_of_neg (by simpa using hx),
        List.filter_eq_self.2 hall, List.filter_eq_self.2 fun b hb => hall b (List.mem_of_mem_take hb), List.take_take,
        Nat.min_self]
    · rw [List.filter_cons_of_pos (by simpa using hx), List.filter_cons_of_pos (by simpa using hx)]
      cases n with
      | zero => rfl
      | succ n => rw [List.take_succ_cons, List.take_succ_cons, ih h.2]

theorem take_touch (h : Distinct key l) (h' : Distinct key l') (a : α) (htake : l.take n = l'.take n) :
    (touch key a l).take n = (touch key a l').take n := by
  cases n with
  | zero => rfl
  | succ n => rw [touch, touch, List.take_succ_cons, List.take_succ_cons, take_filter h, take_filter h', htake]

end Recency
