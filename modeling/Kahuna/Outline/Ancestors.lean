import Kahuna.Outline.Basic
import Mathlib.Data.List.Induction
import Mathlib.Data.List.TakeWhile

/-!
# Levels and ancestors

The levels of an outline start at 0 and rise by one at most from a member to the next. Then every
member below another is owned by one of its own level less one, and the owners of a member are its
ancestors. This file says what taking out a subtree, and dissolving a member into those it owns, does to
both.

* `StepsFrom`: the levels rise by one at most;
* `paths`: the ancestors of each member, with `mem_paths_iff` for what they are;
* `stepsFrom_remove`, `paths_remove`: a subtree is taken out;
* `stepsFrom_dissolve`, `paths_dissolve`: a member is dissolved.
-/

namespace Outline

variable {α β : Type*} (level : α → ℕ)

/-! ## Levels -/

/-- The first level is at most `bound`, and each of the others at most one more than that before it. -/
def StepsFrom : ℕ → List α → Prop
  | _, [] => True
  | bound, x :: xs => level x ≤ bound ∧ StepsFrom (level x + 1) xs

instance StepsFrom.decidable : ∀ (bound : ℕ) (xs : List α), Decidable (StepsFrom level bound xs)
  | _, [] => .isTrue trivial
  | bound, x :: xs =>
    have := StepsFrom.decidable (level x + 1) xs
    inferInstanceAs (Decidable (level x ≤ bound ∧ StepsFrom level (level x + 1) xs))

/-- What the next level is at most. -/
def boundAfter (bound : ℕ) (xs : List α) : ℕ := xs.foldl (fun _ x => level x + 1) bound

section Steps

variable {level} {bound m : ℕ} {xs ys : List α} {x : α}

@[simp] theorem boundAfter_nil : boundAfter level bound ([] : List α) = bound := rfl

@[simp] theorem boundAfter_cons :
    boundAfter level bound (x :: xs) = boundAfter level (level x + 1) xs := rfl

@[simp] theorem boundAfter_concat : boundAfter level bound (xs ++ [x]) = level x + 1 := by
  rw [boundAfter, List.foldl_append]
  rfl

theorem boundAfter_append :
    boundAfter level bound (xs ++ ys) = boundAfter level (boundAfter level bound xs) ys := List.foldl_append

theorem stepsFrom_append :
    StepsFrom level bound (xs ++ ys)
      ↔ StepsFrom level bound xs ∧ StepsFrom level (boundAfter level bound xs) ys := by
  induction xs generalizing bound with
  | nil => simp [StepsFrom]
  | cons x xs ih =>
    simp only [List.cons_append, StepsFrom, ih, boundAfter_cons]
    exact and_assoc.symm

/-- The bound matters for the first level only. -/
theorem StepsFrom.of_head_le (h : StepsFrom level bound xs) (hm : ∀ x ∈ xs.head?, level x ≤ m) :
    StepsFrom level m xs := by
  cases xs with
  | nil => trivial
  | cons x xs => exact ⟨hm x rfl, h.2⟩

theorem StepsFrom.head_le (h : StepsFrom level bound xs) : ∀ x ∈ xs.head?, level x ≤ bound := by
  intro x hx
  cases xs with
  | nil => simp at hx
  | cons y xs =>
    obtain rfl : y = x := by simpa using hx
    exact h.1

theorem StepsFrom.mono (h : StepsFrom level bound xs) (hm : bound ≤ m) : StepsFrom level m xs :=
  h.of_head_le fun x hx => (h.head_le x hx).trans hm

theorem stepsFrom_map {f : β → α} {xs : List β} :
    StepsFrom level bound (xs.map f) ↔ StepsFrom (level ∘ f) bound xs := by
  induction xs generalizing bound with
  | nil => rfl
  | cons x xs ih =>
    rw [List.map_cons, StepsFrom, ih]
    rfl

/-- Shifted levels rise as they did. -/
theorem stepsFrom_shift {shifted : α → ℕ} (shift : ℕ → ℕ)
    (hlevel : ∀ x ∈ xs, shifted x = shift (level x))
    (hshift : ∀ x ∈ xs, ∀ y ∈ xs, level y ≤ level x + 1 → shift (level y) ≤ shift (level x) + 1)
    (h : StepsFrom level bound xs) (hm : ∀ x ∈ xs.head?, shift (level x) ≤ m) :
    StepsFrom shifted m xs := by
  induction xs generalizing bound m with
  | nil => trivial
  | cons x xs ih =>
    rw [List.forall_mem_cons] at hlevel
    refine ⟨by rw [hlevel.1]; exact hm x rfl, ?_⟩
    rw [hlevel.1]
    refine ih hlevel.2 (fun y hy z hz => ?_) h.2 fun y hy => ?_
    · exact hshift y (List.mem_cons_of_mem _ hy) z (List.mem_cons_of_mem _ hz)
    · exact hshift x List.mem_cons_self y (List.mem_cons_of_mem _ (List.mem_of_mem_head? hy))
        (h.2.head_le y hy)

/-- Behind members none of which is shallower than `m - 1` the level may be `m`. -/
theorem le_boundAfter (hbound : m ≤ bound) (h : ∀ x ∈ xs, m ≤ level x + 1) :
    m ≤ boundAfter level bound xs := by
  induction xs generalizing bound with
  | nil => exact hbound
  | cons x xs ih =>
    rw [List.forall_mem_cons] at h
    exact ih h.1 h.2

end Steps

/-! ## Subtrees -/

/-- The members below the root of a subtree, and what comes behind the subtree. -/
structure Below (x : α) (sub rest : List α) : Prop where
  deeper : ∀ y ∈ sub, level x < level y
  behind : ∀ y ∈ rest.head?, level y ≤ level x

/-- The list behind a member starts with those below it. -/
theorem exists_below (x : α) (xs : List α) : ∃ sub rest, xs = sub ++ rest ∧ Below level x sub rest := by
  refine ⟨xs.takeWhile (level x < level ·), xs.dropWhile (level x < level ·),
    List.takeWhile_append_dropWhile.symm, fun y hy => ?_, fun y hy => ?_⟩
  · simpa using List.mem_takeWhile_imp hy
  · have hnot := List.head?_dropWhile_not (fun y => decide (level x < level y)) xs
    rw [Option.mem_def.1 hy] at hnot
    simpa using hnot

section Split

variable {level} {bound : ℕ} {xs pre sub rest : List α} {x : α} {i : ℕ}

/-- A list cut around a subtree. -/
theorem exists_subtree_split (hi : i < xs.length) : ∃ pre sub rest,
    xs = pre ++ xs[i] :: (sub ++ rest) ∧ pre.length = i ∧
      subtreeEnd level xs i = i + 1 + sub.length ∧ Below level xs[i] sub rest := by
  have hlt : i < subtreeEnd level xs i := lt_subtreeEnd hi
  have hle : subtreeEnd level xs i ≤ xs.length := subtreeEnd_le_length hi
  refine ⟨xs.take i, (xs.take (subtreeEnd level xs i)).drop (i + 1),
    xs.drop (subtreeEnd level xs i), ?_, ?_, ?_, ?_, ?_⟩
  · have hsub : (xs.take (subtreeEnd level xs i)).drop (i + 1) ++ xs.drop (subtreeEnd level xs i)
        = xs.drop (i + 1) := by
      conv_rhs => rw [← List.take_append_drop (subtreeEnd level xs i) xs]
      rw [List.drop_append_of_le_length (by rw [List.length_take]; omega)]
    rw [hsub, ← List.drop_eq_getElem_cons hi, List.take_append_drop]
  · rw [List.length_take]
    omega
  · rw [List.length_drop, List.length_take]
    omega
  · intro y hy
    obtain ⟨k, hk, rfl⟩ := List.getElem_of_mem hy
    rw [List.length_drop, List.length_take] at hk
    rw [List.getElem_drop, List.getElem_take]
    exact level_lt_of_lt_subtreeEnd hi (by omega) (by omega) (by omega)
  · intro y hy
    rw [List.head?_drop] at hy
    obtain ⟨he, rfl⟩ := List.getElem?_eq_some_iff.1 hy
    exact level_le_of_subtreeEnd hi he

/-- The end of a subtree in a list cut around it. -/
theorem subtreeEnd_split (pre : List α) (h : Below level x sub rest) :
    subtreeEnd level (pre ++ x :: (sub ++ rest)) pre.length = pre.length + 1 + sub.length := by
  apply subtreeEnd_eq (by simp) (by omega) (by simp; omega)
  · intro j hj hj' hjl
    have hget : (pre ++ x :: (sub ++ rest))[j] = sub[j - pre.length - 1] := by
      rw [List.getElem_append_right (by omega), List.getElem_cons, dif_neg (by omega),
        List.getElem_append_left (by omega)]
    rw [hget]
    simpa using h.deeper _ (List.getElem_mem _)
  · intro hk
    have hpos : 0 < rest.length := by
      simp only [List.length_append, List.length_cons] at hk
      omega
    have hget : (pre ++ x :: (sub ++ rest))[pre.length + 1 + sub.length] = rest[0] := by
      rw [List.getElem_append_right (by omega), List.getElem_cons, dif_neg (by omega),
        List.getElem_append_right (by omega)]
      congr 1
      omega
    rw [hget]
    simpa using h.behind rest[0] (by rw [List.head?_eq_getElem?, List.getElem?_eq_getElem hpos]; rfl)

/-- A subtree is taken out. -/
theorem stepsFrom_remove (h : StepsFrom level bound (pre ++ x :: (sub ++ rest)))
    (hbelow : Below level x sub rest) : StepsFrom level bound (pre ++ rest) := by
  rw [stepsFrom_append] at h ⊢
  obtain ⟨hpre, hx, hrest⟩ := h
  refine ⟨hpre, (stepsFrom_append.1 hrest).2.of_head_le fun y hy => ?_⟩
  exact (hbelow.behind y hy).trans hx

/-- A member is dissolved: those that it owns come up by one level. -/
theorem stepsFrom_dissolve {raise : α → α} (hraise : ∀ y, level (raise y) = level y - 1)
    (h : StepsFrom level bound (pre ++ x :: (sub ++ rest))) (hbelow : Below level x sub rest) :
    StepsFrom level bound (pre ++ (sub.map raise ++ rest)) := by
  rw [stepsFrom_append] at h ⊢
  obtain ⟨hpre, hx, hsubrest⟩ := h
  obtain ⟨hsub, hrest⟩ := stepsFrom_append.1 hsubrest
  refine ⟨hpre, stepsFrom_append.2 ⟨stepsFrom_map.2 ?_, hrest.of_head_le fun y hy => ?_⟩⟩
  · apply stepsFrom_shift (· - 1) (fun y _ => hraise y) ?_ hsub
    · intro y hy
      have hle := hsub.head_le y hy
      omega
    · intro y hy z _ hyz
      have hlt := hbelow.deeper y hy
      omega
  · have hle := hbelow.behind y hy
    cases sub with
    | nil => exact hle.trans hx
    | cons z sub =>
      have hbehind : level x ≤ boundAfter level (boundAfter level bound pre)
          ((z :: sub).map raise) := by
        refine le_boundAfter hx (List.forall_mem_map.2 fun y hy => ?_)
        have hy := hbelow.deeper y hy
        rw [hraise]
        omega
      exact hle.trans hbehind

/-- The subtrees of a list are where they are behind another one. -/
theorem subtreeEnd_append_right (pre : List α) (hi : i < xs.length) :
    subtreeEnd level (pre ++ xs) (pre.length + i) = pre.length + subtreeEnd level xs i := by
  have hlt : i < subtreeEnd level xs i := lt_subtreeEnd hi
  have hle : subtreeEnd level xs i ≤ xs.length := subtreeEnd_le_length hi
  have hget : ∀ k (hk : k < xs.length) (hk' : pre.length + k < (pre ++ xs).length),
      (pre ++ xs)[pre.length + k] = xs[k] := by
    intro k hk hk'
    rw [List.getElem_append_right (by omega)]
    congr 1
    omega
  apply subtreeEnd_eq (by simp; omega) (by omega) (by simp; omega)
  · intro j hj hj' hjl
    obtain ⟨k, rfl⟩ := Nat.exists_eq_add_of_lt hj
    have hk : i + k + 1 < xs.length := by omega
    have heq : pre.length + i + k + 1 = pre.length + (i + k + 1) := by omega
    simp only [heq, hget i hi (by omega), hget _ hk (by omega)]
    exact level_lt_of_lt_subtreeEnd hi (by omega) (by omega) hk
  · intro hk
    have hend : subtreeEnd level xs i < xs.length := by
      rw [List.length_append] at hk
      omega
    rw [hget i hi (by omega), hget _ hend hk]
    exact level_le_of_subtreeEnd hi hend

/-- Members that are given up with all of their subtrees are taken out one subtree after the other: what
holds of a list without a subtree, when it holds of the list, holds of the members that are kept. -/
theorem keepAt_of_remove {Q : List α → Prop}
    (hremove : ∀ {pre x sub rest}, Below level x sub rest → Q (pre ++ x :: (sub ++ rest)) → Q (pre ++ rest))
    {p : ℕ → Bool} {offset : ℕ} (pre : List α) (h : Q (pre ++ xs))
    (hclosed : ∀ j k, j < k → k < subtreeEnd level xs j → j < xs.length →
      p (offset + j) = false → p (offset + k) = false) :
    Q (pre ++ keepAt p offset xs) := by
  induction hlen : xs.length using Nat.strong_induction_on generalizing pre offset xs with
  | h n ih =>
    cases xs with
    | nil => exact h
    | cons x xs =>
      rw [List.length_cons] at hlen
      -- the subtrees of a part of the list are subtrees of the list
      have htail : ∀ pre ys, x :: xs = pre ++ ys → ∀ j k, j < k → k < subtreeEnd level ys j →
          j < ys.length → p (offset + pre.length + j) = false →
            p (offset + pre.length + k) = false := by
        intro pre ys heq j k hjk hk hj hp
        rw [Nat.add_assoc] at hp ⊢
        refine hclosed (pre.length + j) (pre.length + k) (by omega) ?_ ?_ hp
        · rw [heq, subtreeEnd_append_right pre hj]
          omega
        · rw [heq, List.length_append]
          omega
      cases hx : p offset with
      | true =>
        rw [keepAt, if_pos hx, List.append_cons]
        rw [List.append_cons] at h
        exact ih xs.length (by omega) (pre ++ [x]) h (htail [x] xs rfl) rfl
      | false =>
        obtain ⟨sub, rest, rfl, hbelow⟩ := exists_below level x xs
        rw [List.length_append] at hlen
        have hsub : keepAt p (offset + 1) sub = [] := by
          refine keepAt_eq_nil fun k hk hk' => ?_
          obtain ⟨k, rfl⟩ := Nat.exists_eq_add_of_le hk
          have hend := subtreeEnd_split [] hbelow
          rw [Nat.add_assoc]
          refine hclosed 0 (1 + k) (by omega) ?_ (by simp) hx
          rw [List.nil_append, List.length_nil] at hend
          omega
        have hoffset : offset + 1 + sub.length = offset + (x :: sub).length := by
          rw [List.length_cons]
          omega
        rw [keepAt, if_neg (by simp [hx]), keepAt_append, hsub, List.nil_append, hoffset]
        exact ih rest.length (by omega) pre (hremove hbelow h) (htail (x :: sub) rest rfl) rfl

/-- When members are given up with all of their subtrees, the levels of the others still rise by one at
most. -/
theorem stepsFrom_keepAt {p : ℕ → Bool} {offset : ℕ} (h : StepsFrom level bound xs)
    (hclosed : ∀ j k, j < k → k < subtreeEnd level xs j → j < xs.length →
      p (offset + j) = false → p (offset + k) = false) :
    StepsFrom level bound (keepAt p offset xs) :=
  keepAt_of_remove (fun hbelow h => stepsFrom_remove h hbelow) [] h hclosed

end Split

/-! ## Ancestors -/

/-- The ancestors of each member, from the innermost on, when the members of `opened` stand before the
list. A member is owned by those before it that are still open and shallower. -/
def pathsFrom (opened : List α) : List α → List (List α)
  | [] => []
  | x :: xs =>
    let path := opened.filter (level · < level x)
    path :: pathsFrom (x :: path) xs

/-- The ancestors of each member, from the innermost on. -/
def paths (xs : List α) : List (List α) := pathsFrom level [] xs

/-- The members that are open at the end of a list. -/
def openedAfter (opened : List α) : List α → List α
  | [] => opened
  | x :: xs => openedAfter (x :: opened.filter (level · < level x)) xs

section Paths

variable {level} {opened xs ys pre sub rest : List α} {x y : α} {i : ℕ}

@[simp] theorem length_pathsFrom : (pathsFrom level opened xs).length = xs.length := by
  induction xs generalizing opened with
  | nil => rfl
  | cons x xs ih => simp [pathsFrom, ih]

theorem pathsFrom_append : pathsFrom level opened (xs ++ ys)
    = pathsFrom level opened xs ++ pathsFrom level (openedAfter level opened xs) ys := by
  induction xs generalizing opened with
  | nil => rfl
  | cons x xs ih => simp [pathsFrom, openedAfter, ih]

theorem openedAfter_append : openedAfter level opened (xs ++ ys)
    = openedAfter level (openedAfter level opened xs) ys := by
  induction xs generalizing opened with
  | nil => rfl
  | cons x xs ih => exact ih

theorem pathsFrom_map {f : β → α} {opened xs : List β} :
    pathsFrom level (opened.map f) (xs.map f)
      = (pathsFrom (level ∘ f) opened xs).map (List.map f) := by
  induction xs generalizing opened with
  | nil => rfl
  | cons x xs ih =>
    rw [List.map_cons, pathsFrom, pathsFrom, List.filter_map, ← List.map_cons, ih]
    rfl

/-- What satisfies a predicate stays so on the way down. -/
theorem forall_mem_pathsFrom {P : α → Prop} (hopened : ∀ y ∈ opened, P y) (hxs : ∀ y ∈ xs, P y) :
    ∀ path ∈ pathsFrom level opened xs, ∀ y ∈ path, P y := by
  induction xs generalizing opened with
  | nil => simp [pathsFrom]
  | cons x xs ih =>
    rw [List.forall_mem_cons] at hxs
    have hpath : ∀ y ∈ opened.filter (level · < level x), P y :=
      fun y hy => hopened y (List.mem_of_mem_filter hy)
    exact List.forall_mem_cons.2 ⟨hpath, ih (List.forall_mem_cons.2 ⟨hxs.1, hpath⟩) hxs.2⟩

/-- The open members are those with nothing but deeper members behind them. -/
theorem mem_openedAfter_iff : y ∈ openedAfter level [] xs ↔ ∃ j, ∃ hj : j < xs.length,
    xs[j] = y ∧ ∀ k, j < k → ∀ hk : k < xs.length, level y < level xs[k] := by
  induction xs using List.reverseRecOn with
  | nil => simp [openedAfter]
  | append_singleton xs x ih =>
    rw [openedAfter_append, openedAfter, openedAfter, List.mem_cons, List.mem_filter, ih]
    simp only [List.length_append, List.length_singleton, decide_eq_true_eq]
    constructor
    · rintro (rfl | ⟨⟨j, hj, hget, hdeep⟩, hlt⟩)
      · exact ⟨xs.length, by omega, by simp, fun k hk hk' => by omega⟩
      · refine ⟨j, by omega, by rw [List.getElem_append_left hj, hget], fun k hk hk' => ?_⟩
        rcases Nat.lt_or_ge k xs.length with hkl | hkl
        · rw [List.getElem_append_left hkl]
          exact hdeep k hk hkl
        · obtain rfl : k = xs.length := by omega
          simpa using hlt
    · rintro ⟨j, hj, hget, hdeep⟩
      rcases Nat.lt_or_ge j xs.length with hjl | hjl
      · rw [List.getElem_append_left hjl] at hget
        refine .inr ⟨⟨j, hjl, hget, fun k hk hk' => ?_⟩, ?_⟩
        · simpa [List.getElem_append_left hk'] using hdeep k hk (by omega)
        · simpa using hdeep xs.length hjl (by omega)
      · obtain rfl : j = xs.length := by omega
        exact .inl (by simpa using hget.symm)

/-- The ancestors of a member are among the members that are open before it. -/
theorem getElem_paths (hi : i < xs.length) {hi' : i < (paths level xs).length} :
    (paths level xs)[i] = (openedAfter level [] (xs.take i)).filter (level · < level xs[i]) := by
  have hsplit : xs = xs.take i ++ xs[i] :: xs.drop (i + 1) := by
    rw [← List.drop_eq_getElem_cons hi, List.take_append_drop]
  have hlength : (xs.take i).length = i := by
    rw [List.length_take]
    omega
  have hpaths : paths level xs = _ := (congrArg (pathsFrom level []) hsplit).trans pathsFrom_append
  simp only [hpaths, pathsFrom]
  rw [List.getElem_append_right (by rw [length_pathsFrom, hlength])]
  simp [hlength]

/-- The ancestors of a member are the members in whose subtrees it lies. -/
theorem mem_paths_iff (hi : i < xs.length) (hi' : i < (paths level xs).length) :
    y ∈ (paths level xs)[i] ↔
      ∃ j, ∃ hj : j < i, xs[j] = y ∧ i < subtreeEnd level xs j := by
  have hlength : (xs.take i).length = i := by
    rw [List.length_take]
    omega
  rw [getElem_paths hi, List.mem_filter, mem_openedAfter_iff]
  simp only [hlength, List.getElem_take, decide_eq_true_eq]
  constructor
  · rintro ⟨⟨j, hj, rfl, hdeep⟩, hlt⟩
    refine ⟨j, hj, rfl, ?_⟩
    by_contra hend
    rw [not_lt] at hend
    have hle : level xs[subtreeEnd level xs j] ≤ level xs[j] :=
      level_le_of_subtreeEnd (hj.trans hi) (hend.trans_lt hi)
    have hstart : j < subtreeEnd level xs j := lt_subtreeEnd (hj.trans hi)
    rcases hend.lt_or_eq with hend | rfl
    · have := hdeep _ hstart hend
      omega
    · omega
  · rintro ⟨j, hj, rfl, hend⟩
    refine ⟨⟨j, hj, rfl, fun k hk hk' => ?_⟩, ?_⟩
    · exact level_lt_of_lt_subtreeEnd (hj.trans hi) hk (hk'.trans hend) (hk'.trans hi)
    · exact level_lt_of_lt_subtreeEnd (hj.trans hi) hj hend hi

/-! ## Taking out subtrees -/

/-- Behind a subtree only members that are shallower than its root are open, apart from its own. -/
theorem exists_openedAfter_of_deeper (opened : List α) (h : ∀ y ∈ sub, level x < level y) :
    ∃ own, openedAfter level opened (x :: sub) = own ++ opened.filter (level · < level x) ∧
      ∀ y ∈ own, level x ≤ level y := by
  induction sub using List.reverseRecOn with
  | nil => exact ⟨[x], rfl, by simp⟩
  | append_singleton sub z ih =>
    rw [List.forall_mem_append, List.forall_mem_singleton] at h
    obtain ⟨own, hopened, hown⟩ := ih h.1
    refine ⟨z :: own.filter (level · < level z), ?_, ?_⟩
    · have hkeep : (opened.filter (level · < level x)).filter (level · < level z)
          = opened.filter (level · < level x) := by
        rw [List.filter_filter]
        refine List.filter_congr fun y _ => ?_
        rw [Bool.and_eq_right_iff_imp]
        simp only [decide_eq_true_eq]
        omega
      rw [← List.cons_append, openedAfter_append, hopened, openedAfter, openedAfter,
        List.filter_append, hkeep, List.cons_append]
    · refine List.forall_mem_cons.2 ⟨h.2.le, fun y hy => hown y (List.mem_of_mem_filter hy)⟩

/-- Which members are open matters as far as the first member can see. -/
theorem pathsFrom_congr {opened' : List α} (h : ∀ y ∈ xs.head?,
    opened.filter (level · < level y) = opened'.filter (level · < level y)) :
    pathsFrom level opened xs = pathsFrom level opened' xs := by
  cases xs with
  | nil => rfl
  | cons x xs => rw [pathsFrom, pathsFrom, h x rfl]

/-- What comes behind a subtree does not see it. -/
theorem pathsFrom_subtree (h : Below level x sub rest) :
    pathsFrom level opened (x :: (sub ++ rest))
      = pathsFrom level opened (x :: sub) ++ pathsFrom level opened rest := by
  rw [← List.cons_append, pathsFrom_append]
  congr 1
  apply pathsFrom_congr
  intro y hy
  have hle := h.behind y hy
  obtain ⟨own, hopened, hown⟩ := exists_openedAfter_of_deeper opened h.deeper
  have hnone : own.filter (level · < level y) = [] := by
    rw [List.filter_eq_nil_iff]
    intro z hz
    have := hown z hz
    simp only [decide_eq_true_eq]
    omega
  rw [hopened, List.filter_append, hnone, List.nil_append, List.filter_filter]
  refine List.filter_congr fun z _ => ?_
  rw [Bool.and_eq_left_iff_imp]
  simp only [decide_eq_true_eq]
  omega

/-- The ancestors stay when a subtree is taken out. -/
theorem paths_remove (h : Below level x sub rest) :
    paths level (pre ++ rest) = (paths level (pre ++ x :: (sub ++ rest))).take pre.length
      ++ (paths level (pre ++ x :: (sub ++ rest))).drop (pre.length + 1 + sub.length) := by
  have hlen : (pathsFrom level [] pre
      ++ pathsFrom level (openedAfter level [] pre) (x :: sub)).length
      = pre.length + 1 + sub.length := by
    rw [List.length_append, length_pathsFrom, length_pathsFrom, List.length_cons]
    omega
  rw [paths, paths, pathsFrom_append, pathsFrom_append, pathsFrom_subtree h,
    List.take_left' length_pathsFrom, ← List.append_assoc, List.drop_left' hlen]

/-! ## Taking out all subtrees of some members -/

/-- The members that are not in the subtree of a member that satisfies a predicate, with their
ancestors. -/
def pruneFrom (level : α → ℕ) (f : α → Bool) (opened xs : List α) : List (α × List α) :=
  (xs.zip (pathsFrom level opened xs)).filter fun m => !f m.1 && !m.2.any f

section Prune

variable {f : α → Bool}

/-- A member is kept, when those above it are. -/
theorem pruneFrom_cons_of_false (hopened : ∀ y ∈ opened, f y = false) (hx : f x = false) :
    pruneFrom level f opened (x :: xs)
      = (x, opened.filter (level · < level x))
        :: pruneFrom level f (x :: opened.filter (level · < level x)) xs := by
  have hpath : (opened.filter (level · < level x)).any f = false := by
    rw [List.any_eq_false]
    exact fun y hy => by simp [hopened y (List.mem_of_mem_filter hy)]
  rw [pruneFrom, pathsFrom, List.zip_cons_cons, List.filter_cons_of_pos (by simp [hx, hpath])]
  rfl

/-- The root of a subtree is above all of its members. -/
theorem mem_of_mem_pathsFrom (hx : x ∈ opened) (h : ∀ y ∈ xs, level x < level y) :
    ∀ path ∈ pathsFrom level opened xs, x ∈ path := by
  induction xs generalizing opened with
  | nil => simp [pathsFrom]
  | cons y xs ih =>
    rw [List.forall_mem_cons] at h
    have hpath : x ∈ opened.filter (level · < level y) :=
      List.mem_filter.2 ⟨hx, by simpa using h.1⟩
    exact List.forall_mem_cons.2 ⟨hpath, ih (List.mem_cons_of_mem _ hpath) h.2⟩

/-- A member goes with its subtree. -/
theorem pruneFrom_cons_of_true (hx : f x = true) (h : Below level x sub rest) :
    pruneFrom level f opened (x :: (sub ++ rest)) = pruneFrom level f opened rest := by
  have hnone : ((x :: sub).zip (pathsFrom level opened (x :: sub))).filter
      (fun m => !f m.1 && !m.2.any f) = [] := by
    rw [pathsFrom, List.zip_cons_cons, List.filter_cons_of_neg (by simp [hx]), List.filter_eq_nil_iff]
    intro m hm
    have hroot : x ∈ x :: opened.filter (level · < level x) := List.mem_cons_self
    have habove := mem_of_mem_pathsFrom hroot h.deeper m.2 (List.of_mem_zip hm).2
    have hany : m.2.any f = true := List.any_eq_true.2 ⟨x, habove, hx⟩
    simp [hany]
  rw [pruneFrom, pathsFrom_subtree h, ← List.cons_append, List.zip_append (by simp),
    List.filter_append, hnone]
  rfl

/-- The ancestors of the members that are kept stay. -/
theorem pathsFrom_pruneFrom (hopened : ∀ y ∈ opened, f y = false) :
    pathsFrom level opened ((pruneFrom level f opened xs).map Prod.fst)
      = (pruneFrom level f opened xs).map Prod.snd := by
  induction hlen : xs.length using Nat.strong_induction_on generalizing opened xs with
  | h n ih =>
    cases xs with
    | nil => rfl
    | cons x xs =>
      rw [List.length_cons] at hlen
      cases hx : f x with
      | false =>
        have hopened' : ∀ y ∈ x :: opened.filter (level · < level x), f y = false :=
          List.forall_mem_cons.2 ⟨hx, fun y hy => hopened y (List.mem_of_mem_filter hy)⟩
        rw [pruneFrom_cons_of_false hopened hx, List.map_cons, List.map_cons, pathsFrom,
          ih xs.length (by omega) hopened' rfl]
      | true =>
        obtain ⟨sub, rest, rfl, hbelow⟩ := exists_below level x xs
        rw [List.length_append] at hlen
        rw [pruneFrom_cons_of_true hx hbelow, ih rest.length (by omega) hopened rfl]

/-- The members that are kept are what is left when subtrees are taken out one after the other. -/
theorem pruneFrom_of_remove {Q : List α → Prop}
    (hremove : ∀ {pre x sub rest}, Below level x sub rest → Q (pre ++ x :: (sub ++ rest)) → Q (pre ++ rest))
    (pre : List α) (h : Q (pre ++ xs)) (hopened : ∀ y ∈ opened, f y = false) :
    Q (pre ++ (pruneFrom level f opened xs).map Prod.fst) := by
  induction hlen : xs.length using Nat.strong_induction_on generalizing opened pre xs with
  | h n ih =>
    cases xs with
    | nil => exact h
    | cons x xs =>
      rw [List.length_cons] at hlen
      cases hx : f x with
      | false =>
        have hopened' : ∀ y ∈ x :: opened.filter (level · < level x), f y = false :=
          List.forall_mem_cons.2 ⟨hx, fun y hy => hopened y (List.mem_of_mem_filter hy)⟩
        rw [pruneFrom_cons_of_false hopened hx, List.map_cons, List.append_cons]
        rw [List.append_cons] at h
        exact ih xs.length (by omega) (pre ++ [x]) h hopened' rfl
      | true =>
        obtain ⟨sub, rest, rfl, hbelow⟩ := exists_below level x xs
        rw [List.length_append] at hlen
        rw [pruneFrom_cons_of_true hx hbelow]
        exact ih rest.length (by omega) pre (hremove hbelow h) hopened rfl

/-- The levels of the members that are kept rise by one at most. -/
theorem stepsFrom_pruneFrom {bound : ℕ} (h : StepsFrom level bound xs)
    (hopened : ∀ y ∈ opened, f y = false) :
    StepsFrom level bound ((pruneFrom level f opened xs).map Prod.fst) :=
  pruneFrom_of_remove (fun hbelow h => stepsFrom_remove h hbelow) [] h hopened

end Prune

/-! ## Dissolving a member -/

section Dissolve

variable {raise : α → α} {kept : α → Bool} {name : α → β}

/-- Members that are kept keep their ancestors. -/
theorem map_filter_pathsFrom (hopened : ∀ y ∈ opened, kept y = true)
    (hxs : ∀ y ∈ xs, kept y = true) :
    (pathsFrom level opened xs).map (fun path => (path.filter kept).map name)
      = (pathsFrom level opened xs).map (List.map name) := by
  refine List.map_congr_left fun path hpath => ?_
  rw [List.filter_eq_self.2 (forall_mem_pathsFrom hopened hxs path hpath)]

/-- Members that are all shallower pass. -/
theorem filter_shallower {m n : ℕ} {base : List α} (hbase : ∀ y ∈ base, level y < m) (hmn : m ≤ n) :
    base.filter (level · < n) = base :=
  List.filter_eq_self.2 fun y hy => by simpa using (hbase y hy).trans_le hmn

/-- Members none of which is shallower do not pass. -/
theorem filter_deeper {m n : ℕ} {own : List α} (hown : ∀ y ∈ own, m ≤ level y) (hmn : n ≤ m) :
    own.filter (level · < n) = [] :=
  List.filter_eq_nil_iff.2 fun y hy => by simpa using hmn.trans (hown y hy)

/-- The members below a dissolved one come up, and see past it. `own` are the open members below it,
`above` those that are open in its place once it is dissolved. -/
theorem map_pathsFrom_dissolve (hraise : ∀ y, level (raise y) = level y - 1)
    (hname : ∀ y, name (raise y) = name y) (hx : kept x = false)
    (own above : List α) {base : List α} (hown : ∀ y ∈ own, level x < level y)
    (hkeptOwn : ∀ y ∈ own, kept y = true) (hbase : ∀ y ∈ base, level y < level x)
    (hkeptBase : ∀ y ∈ base, kept y = true)
    (habove : above.filter (level · < level x) = base)
    (hhead : ∀ y ∈ sub.head?, above.filter (level · < level y - 1) = base)
    (hsub : ∀ y ∈ sub, kept y = true) (hrest : ∀ y ∈ rest, kept y = true)
    (hbelow : Below level x sub rest) :
    (pathsFrom level (own.map raise ++ above) (sub.map raise ++ rest)).map (List.map name)
      = (pathsFrom level (own ++ x :: base) (sub ++ rest)).map
          fun path => (path.filter kept).map name := by
  have hraised : ∀ z ∈ own.map raise, level x ≤ level z := by
    refine List.forall_mem_map.2 fun y hy => ?_
    have hlt := hown y hy
    rw [hraise]
    omega
  induction sub generalizing own above with
  | nil =>
    show (pathsFrom level (own.map raise ++ above) rest).map _
      = (pathsFrom level (own ++ x :: base) rest).map _
    cases rest with
    | nil => rfl
    | cons y rest =>
      have hle : level y ≤ level x := hbelow.behind y rfl
      rw [List.forall_mem_cons] at hrest
      have hold : (own ++ x :: base).filter (level · < level y) = base.filter (level · < level y) := by
        rw [List.filter_append, filter_deeper (fun z hz => (hown z hz).le) hle, List.nil_append,
          List.filter_cons_of_neg (by simpa using hle)]
      have hnew : (own.map raise ++ above).filter (level · < level y)
          = base.filter (level · < level y) := by
        rw [List.filter_append, filter_deeper hraised hle, List.nil_append, ← habove,
          List.filter_filter]
        refine List.filter_congr fun z _ => ?_
        rw [eq_comm, Bool.and_eq_left_iff_imp]
        simp only [decide_eq_true_eq]
        omega
      have hkept : ∀ z ∈ base.filter (level · < level y), kept z = true :=
        fun z hz => hkeptBase z (List.mem_of_mem_filter hz)
      rw [pathsFrom, pathsFrom, hold, hnew, List.map_cons, List.map_cons,
        List.filter_eq_self.2 hkept,
        map_filter_pathsFrom (List.forall_mem_cons.2 ⟨hrest.1, hkept⟩) hrest.2]
  | cons y sub ih =>
    obtain ⟨hdeeper, hbehind⟩ := hbelow
    rw [List.forall_mem_cons] at hdeeper hsub
    set own' := own.filter (level · < level y) with hown'
    have hkeptOwn' : ∀ z ∈ own', kept z = true := fun z hz => hkeptOwn z (List.mem_of_mem_filter hz)
    have hold : (own ++ x :: base).filter (level · < level y) = own' ++ x :: base := by
      rw [List.filter_append, List.filter_cons_of_pos (by simpa using hdeeper.1),
        filter_shallower hbase hdeeper.1.le]
    have hnew : (own.map raise ++ above).filter (level · < level (raise y))
        = own'.map raise ++ base := by
      rw [List.filter_append, hraise, hhead y rfl, List.filter_map]
      congr 2
      refine List.filter_congr fun z hz => ?_
      have hlt := hown z hz
      have hlt' := hdeeper.1
      simp only [Function.comp_apply, hraise, decide_eq_decide]
      omega
    have hfilter : (own' ++ x :: base).filter kept = own' ++ base := by
      rw [List.filter_append, List.filter_eq_self.2 hkeptOwn',
        List.filter_cons_of_neg (by simp [hx]), List.filter_eq_self.2 hkeptBase]
    have hnames : (own'.map raise).map name = own'.map name := by
      rw [List.map_map]
      exact List.map_congr_left fun z _ => hname z
    have hih := ih (y :: own') base
      (List.forall_mem_cons.2 ⟨hdeeper.1, fun z hz => hown z (List.mem_of_mem_filter hz)⟩)
      (List.forall_mem_cons.2 ⟨hsub.1, hkeptOwn'⟩) (filter_shallower hbase le_rfl)
      (fun z hz => ?_) hsub.2 ⟨hdeeper.2, hbehind⟩ ?_
    · rw [List.map_cons, List.cons_append, List.cons_append, pathsFrom, pathsFrom, hold, hnew,
        List.map_cons, List.map_cons, hfilter, List.map_append, List.map_append, hnames]
      exact congrArg _ hih
    · have hlt := hdeeper.2 z (List.mem_of_mem_head? hz)
      exact filter_shallower hbase (by omega)
    · refine List.forall_mem_map.2 (List.forall_mem_cons.2 ⟨?_, fun z hz => ?_⟩)
      · have hlt := hdeeper.1
        rw [hraise]
        omega
      · have hlt := hown z (List.mem_of_mem_filter hz)
        rw [hraise]
        omega

/-- The ancestors of the members that stay, when a member is dissolved, are what they were without it. -/
theorem paths_dissolve {bound : ℕ} (hraise : ∀ y, level (raise y) = level y - 1)
    (hname : ∀ y, name (raise y) = name y)
    (hsteps : StepsFrom level bound (pre ++ x :: (sub ++ rest))) (hbelow : Below level x sub rest)
    (hx : kept x = false) (hkept : ∀ y ∈ pre ++ (sub ++ rest), kept y = true) :
    (paths level (pre ++ (sub.map raise ++ rest))).map (List.map name)
      = ((paths level (pre ++ x :: (sub ++ rest))).eraseIdx pre.length).map
          fun path => (path.filter kept).map name := by
  rw [List.forall_mem_append, List.forall_mem_append] at hkept
  obtain ⟨hpre, hsub, hrest⟩ := hkept
  set opened := openedAfter level [] pre with hopened
  have hkeptOpened : ∀ y ∈ opened, kept y = true := by
    intro y hy
    obtain ⟨j, hj, rfl, -⟩ := mem_openedAfter_iff.1 hy
    exact hpre _ (List.getElem_mem hj)
  have herase : (paths level (pre ++ x :: (sub ++ rest))).eraseIdx pre.length
      = pathsFrom level [] pre
        ++ pathsFrom level (x :: opened.filter (level · < level x)) (sub ++ rest) := by
    rw [paths, pathsFrom_append, List.eraseIdx_append_of_length_le (by simp), length_pathsFrom,
      Nat.sub_self]
    rfl
  have hchildren : ∀ y ∈ sub.head?, level y - 1 = level x := by
    intro y hy
    have hlt := hbelow.deeper y (List.mem_of_mem_head? hy)
    have hle := (stepsFrom_append.1 (stepsFrom_append.1 hsteps).2.2).1.head_le y hy
    omega
  rw [herase, paths, pathsFrom_append, List.map_append, List.map_append,
    map_filter_pathsFrom (by simp) hpre]
  congr 1
  apply map_pathsFrom_dissolve hraise hname hx [] opened (by simp) (by simp)
  · intro y hy
    simpa using (List.mem_filter.1 hy).2
  · exact fun y hy => hkeptOpened y (List.mem_of_mem_filter hy)
  · rfl
  · exact fun y hy => by rw [hchildren y hy]
  · exact hsub
  · exact hrest
  · exact hbelow

end Dissolve

end Paths

end Outline
