import Kahuna.Outline.Ancestors

/-!
# Folded outlines

A folded member hides its subtree. Whoever reads an outline from the front only has to remember the level of
the folded member whose subtree is being passed over: it hides what is deeper, up to the first member that
is not.

* `limitAfter`, `Shows`: what is remembered, and what it hides;
* `shownFrom`, `shownFrom_getElem?`: the indices of the members that are shown, and how many are before one;
* `shows_iff`, `shows_take_iff`: a member is shown when all its ancestors are unfolded.
-/

namespace Outline

variable {α : Type*} (level : α → ℕ) (unfolded : α → Bool)

/-- A member at this level is not hidden. -/
def Shows (limit : Option ℕ) (m : ℕ) : Prop := ∀ l ∈ limit, m ≤ l

instance (limit : Option ℕ) (m : ℕ) : Decidable (Shows limit m) :=
  decidable_of_iff (limit.all (m ≤ ·) = true) (by cases limit <;> simp [Shows])

/-- The level below which the members behind a member are hidden. -/
def limitStep (limit : Option ℕ) (x : α) : Option ℕ :=
  if Shows limit (level x) then if unfolded x then none else some (level x) else limit

/-- The level below which the members behind a list are hidden. -/
def limitAfter (limit : Option ℕ) (xs : List α) : Option ℕ := xs.foldl (limitStep level unfolded) limit

/-- The indices of the members that are shown, in a list that starts at index `offset`. -/
def shownFrom (limit : Option ℕ) (offset : ℕ) : List α → List ℕ
  | [] => []
  | x :: xs =>
    if Shows limit (level x) then offset :: shownFrom (limitStep level unfolded limit x) (offset + 1) xs
    else shownFrom (limitStep level unfolded limit x) (offset + 1) xs

section Folding

variable {level unfolded} {limit : Option ℕ} {offset l m v i k : ℕ} {x : α} {xs ys : List α}

@[simp] theorem shows_none : Shows none m := by simp [Shows]

@[simp] theorem shows_some : Shows (some l) m ↔ m ≤ l := by simp [Shows]

theorem Shows.mono (h : Shows limit m) (hle : l ≤ m) : Shows limit l := fun k hk => hle.trans (h k hk)

@[simp] theorem limitAfter_nil : limitAfter level unfolded limit [] = limit := rfl

@[simp] theorem limitAfter_cons : limitAfter level unfolded limit (x :: xs)
    = limitAfter level unfolded (limitStep level unfolded limit x) xs := rfl

theorem limitAfter_append : limitAfter level unfolded limit (xs ++ ys)
    = limitAfter level unfolded (limitAfter level unfolded limit xs) ys := List.foldl_append

theorem limitStep_of_shows (h : Shows limit (level x)) :
    limitStep level unfolded limit x = if unfolded x then none else some (level x) := if_pos h

theorem limitStep_of_not_shows (h : ¬ Shows limit (level x)) :
    limitStep level unfolded limit x = limit := if_neg h

/-! ## The members that are shown -/

@[simp] theorem shownFrom_nil : shownFrom level unfolded limit offset [] = [] := rfl

theorem shownFrom_cons : shownFrom level unfolded limit offset (x :: xs) =
    if Shows limit (level x) then offset :: shownFrom level unfolded (limitStep level unfolded limit x) (offset + 1) xs
    else shownFrom level unfolded (limitStep level unfolded limit x) (offset + 1) xs := rfl

theorem shownFrom_append : shownFrom level unfolded limit offset (xs ++ ys)
    = shownFrom level unfolded limit offset xs
      ++ shownFrom level unfolded (limitAfter level unfolded limit xs) (offset + xs.length) ys := by
  induction xs generalizing limit offset with
  | nil => rfl
  | cons x xs ih =>
    have hoffset : offset + 1 + xs.length = offset + (x :: xs).length := by
      rw [List.length_cons]
      omega
    rw [List.cons_append, shownFrom_cons, shownFrom_cons, ih, hoffset]
    split <;> rfl

/-- The subtree of a folded member is hidden as a whole. -/
theorem shownFrom_hidden (h : ∀ y ∈ ys, l < level y) : shownFrom level unfolded (some l) offset ys = [] := by
  induction ys generalizing offset with
  | nil => rfl
  | cons y ys ih =>
    rw [List.forall_mem_cons] at h
    have hnot : ¬ Shows (some l) (level y) := by simpa using h.1
    rw [shownFrom_cons, if_neg hnot, limitStep_of_not_shows hnot, ih h.2]

theorem limitAfter_hidden (h : ∀ y ∈ ys, l < level y) :
    limitAfter level unfolded (some l) ys = some l := by
  induction ys with
  | nil => rfl
  | cons y ys ih =>
    rw [List.forall_mem_cons] at h
    rw [limitAfter_cons, limitStep_of_not_shows (by simpa using h.1), ih h.2]

theorem le_of_mem_shownFrom (h : k ∈ shownFrom level unfolded limit offset xs) : offset ≤ k := by
  induction xs generalizing limit offset with
  | nil => simp at h
  | cons x xs ih =>
    rw [shownFrom_cons] at h
    split at h
    · rcases List.mem_cons.1 h with rfl | h
      · exact le_rfl
      · exact (Nat.le_succ offset).trans (ih h)
    · exact (Nat.le_succ offset).trans (ih h)

/-- The members that are shown come in order. -/
theorem shownFrom_increasing : (shownFrom level unfolded limit offset xs).Pairwise (· < ·) := by
  induction xs generalizing limit offset with
  | nil => exact .nil
  | cons x xs ih =>
    rw [shownFrom_cons]
    split
    · exact List.pairwise_cons.2 ⟨fun k hk => le_of_mem_shownFrom hk, ih⟩
    · exact ih

/-- The `v`-th member that is shown is the one with `v` others before it. -/
theorem shownFrom_getElem? : (shownFrom level unfolded limit offset xs)[v]? = some (offset + i) ↔
    ∃ hi : i < xs.length, Shows (limitAfter level unfolded limit (xs.take i)) (level xs[i]) ∧
      (shownFrom level unfolded limit offset (xs.take i)).length = v := by
  induction xs generalizing limit offset v i with
  | nil => simp
  | cons x xs ih =>
    have hlater : ∀ {w j : ℕ}, (shownFrom level unfolded (limitStep level unfolded limit x) (offset + 1) xs)[w]?
        = some (offset + (j + 1)) ↔ ∃ hj : j + 1 < (x :: xs).length,
          Shows (limitAfter level unfolded limit ((x :: xs).take (j + 1))) (level (x :: xs)[j + 1]) ∧
            (shownFrom level unfolded (limitStep level unfolded limit x) (offset + 1) (xs.take j)).length
              = w := by
      intro w j
      rw [← Nat.add_assoc, Nat.add_right_comm, ih]
      simp
    have hahead : ∀ w : ℕ,
        (shownFrom level unfolded (limitStep level unfolded limit x) (offset + 1) xs)[w]? ≠ some offset := by
      intro w hw
      have := le_of_mem_shownFrom (List.mem_of_getElem? hw)
      omega
    rw [shownFrom_cons]
    cases i with
    | zero =>
      split
      next hshows => cases v <;> simp [hshows, hahead]
      next hshows => simp [hshows, hahead]
    | succ j =>
      rw [List.take_succ_cons, shownFrom_cons]
      split
      next hshows =>
        cases v with
        | zero => simp
        | succ v => simpa using hlater
      next hshows => simpa using hlater

/-- Whether a member is shown, and where, does not depend on what stands behind it. -/
theorem shownFrom_getElem?_congr (h : xs.take (i + 1) = ys.take (i + 1)) :
    (shownFrom level unfolded limit offset xs)[v]? = some (offset + i) ↔
      (shownFrom level unfolded limit offset ys)[v]? = some (offset + i) := by
  have hget : xs[i]? = ys[i]? := by
    have hget := congrArg (·[i]?) h
    simpa [List.getElem?_take] using hget
  have htake : xs.take i = ys.take i := by
    have htake := congrArg (List.take i) h
    simpa [List.take_take] using htake
  rw [shownFrom_getElem?, shownFrom_getElem?, htake]
  constructor
  · rintro ⟨hi, hshows, hcount⟩
    rw [List.getElem?_eq_getElem hi] at hget
    obtain ⟨hi', heq⟩ := List.getElem?_eq_some_iff.1 hget.symm
    exact ⟨hi', heq ▸ hshows, hcount⟩
  · rintro ⟨hi, hshows, hcount⟩
    rw [List.getElem?_eq_getElem hi] at hget
    obtain ⟨hi', heq⟩ := List.getElem?_eq_some_iff.1 hget
    exact ⟨hi', heq ▸ hshows, hcount⟩

/-- What is shown of changed members depends on their levels and marks alone. -/
theorem shownFrom_map {β : Type*} (f : β → α) (bs : List β) : shownFrom level unfolded limit offset (bs.map f)
    = shownFrom (fun b => level (f b)) (fun b => unfolded (f b)) limit offset bs := by
  induction bs generalizing limit offset with
  | nil => rfl
  | cons b bs ih =>
    rw [List.map_cons, shownFrom_cons, shownFrom_cons, ih]
    rfl

/-- Of a subtree only the root is shown, if it is folded or has nothing below it. -/
theorem shownFrom_subtree (hshows : Shows limit (level x)) (hdeeper : ∀ y ∈ ys, level x < level y)
    (hfolded : unfolded x = false ∨ ys = []) :
    shownFrom level unfolded limit offset (x :: ys) = [offset] := by
  rw [shownFrom_cons, if_pos hshows]
  rcases hfolded with hfolded | rfl
  · rw [limitStep_of_shows hshows, hfolded, if_neg (by simp), shownFrom_hidden hdeeper]
  · rfl

/-! ## Ancestors -/

/-- A member behind a list is shown when those that would be its ancestors are unfolded. -/
theorem shows_iff : Shows (limitAfter level unfolded none xs) m ↔
    ∀ y ∈ openedAfter level [] xs, level y < m → unfolded y = true := by
  induction xs using List.reverseRecOn generalizing m with
  | nil => simp [openedAfter]
  | append_singleton xs x ih =>
    have hopened : (∀ y ∈ openedAfter level [] (xs ++ [x]), level y < m → unfolded y = true) ↔
        (level x < m → unfolded x = true) ∧
          Shows (limitAfter level unfolded none xs) (min m (level x)) := by
      rw [ih, openedAfter_append, openedAfter, openedAfter, List.forall_mem_cons]
      refine and_congr Iff.rfl ⟨fun h y hy hlt => ?_, fun h y hy hlt => ?_⟩
      · exact h y (List.mem_filter.2 ⟨hy, by simpa using (Nat.lt_min.1 hlt).2⟩) (Nat.lt_min.1 hlt).1
      · obtain ⟨hy, hlt'⟩ := List.mem_filter.1 hy
        exact h y hy (Nat.lt_min.2 ⟨hlt, by simpa using hlt'⟩)
    rw [hopened, limitAfter_append, limitAfter_cons, limitAfter_nil]
    by_cases hshows : Shows (limitAfter level unfolded none xs) (level x)
    · -- the member is shown itself, and hides what is below it when it is folded
      have hmin := hshows.mono (Nat.min_le_right m (level x))
      rw [limitStep_of_shows hshows]
      cases unfolded x <;> simp [hmin]
    · rw [limitStep_of_not_shows hshows]
      cases hlimit : limitAfter level unfolded none xs with
      | none => simp [hlimit] at hshows
      | some l =>
        rw [hlimit, shows_some] at hshows
        simp only [shows_some]
        omega

/-- A member of a list is shown when its ancestors are unfolded. -/
theorem shows_take_iff (hi : i < xs.length) :
    Shows (limitAfter level unfolded none (xs.take i)) (level xs[i]) ↔
      ∀ j (hj : j < i), i < subtreeEnd level xs j → unfolded xs[j] = true := by
  have hi' : i < (paths level xs).length := by
    rw [paths, length_pathsFrom]
    exact hi
  have hpath := fun y => @mem_paths_iff _ level xs y i hi hi'
  have hpath' : (paths level xs)[i]
      = (openedAfter level [] (xs.take i)).filter (level · < level xs[i]) := getElem_paths hi
  rw [shows_iff]
  constructor
  · intro h j hj hend
    have hmem := (hpath _).2 ⟨j, hj, rfl, hend⟩
    rw [hpath', List.mem_filter] at hmem
    exact h _ hmem.1 (by simpa using hmem.2)
  · intro h y hy hlt
    have hmem : y ∈ (openedAfter level [] (xs.take i)).filter (level · < level xs[i]) :=
      List.mem_filter.2 ⟨hy, decide_eq_true hlt⟩
    rw [← hpath', hpath] at hmem
    obtain ⟨j, hj, rfl, hend⟩ := hmem
    exact h j hj hend

end Folding

end Outline
