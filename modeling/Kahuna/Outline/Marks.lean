import Kahuna.Outline.Folding

/-!
# Marked members that are shown

Some members of an outline carry a mark, and those that do are to be shown. Whoever reads from the front checks
this with the limit that hides members. A part of the outline that is put in or taken out matters to the others
only as far as this limit does.

* `AllShown`, `allShown_iff`: all marked members are shown;
* `Agree`, `AllShown.agree`: limits that hide the same of what follows;
* `allShown_between`: a part whose members are not shallower than what follows does not matter to the rest;
* `AllShown.keepAt`: whole subtrees are given up;
* `AllShown.subtree`: a subtree gets other levels.
-/

namespace Outline

variable {α : Type*} (level : α → ℕ) (unfolded marked : α → Bool)

/-- All marked members are shown. -/
def AllShown (limit : Option ℕ) : List α → Prop
  | [] => True
  | x :: xs => (marked x = true → Shows limit (level x)) ∧ AllShown (limitStep level unfolded limit x) xs

/-- Two limits hide the same of what is not deeper than `m`, and of what follows it. -/
def Agree (m : ℕ) (limit limit' : Option ℕ) : Prop := limit = limit' ∨ Shows limit m ∧ Shows limit' m

section Marks

variable {level unfolded marked} {limit limit' : Option ℕ} {l m i : ℕ} {x : α} {xs ys pre sub rest moved : List α}

@[simp] theorem allShown_nil : AllShown level unfolded marked limit [] := trivial

@[simp] theorem allShown_cons : AllShown level unfolded marked limit (x :: xs) ↔
    (marked x = true → Shows limit (level x)) ∧
      AllShown level unfolded marked (limitStep level unfolded limit x) xs := Iff.rfl

theorem allShown_append : AllShown level unfolded marked limit (xs ++ ys) ↔
    AllShown level unfolded marked limit xs ∧
      AllShown level unfolded marked (limitAfter level unfolded limit xs) ys := by
  induction xs generalizing limit with
  | nil => simp
  | cons x xs ih => rw [List.cons_append, allShown_cons, allShown_cons, ih, limitAfter_cons, and_assoc]

theorem allShown_iff : AllShown level unfolded marked limit xs ↔ ∀ i (hi : i < xs.length),
    marked xs[i] = true → Shows (limitAfter level unfolded limit (xs.take i)) (level xs[i]) := by
  induction xs generalizing limit with
  | nil => simp
  | cons x xs ih =>
    rw [allShown_cons, ih]
    constructor
    · rintro ⟨hx, hxs⟩ i hi
      cases i with
      | zero => exact hx
      | succ i => exact hxs i (Nat.lt_of_succ_lt_succ hi)
    · exact fun h => ⟨h 0 (Nat.succ_pos _), fun i hi => h (i + 1) (Nat.succ_lt_succ hi)⟩

/-- What is not marked need not be shown. -/
theorem allShown_of_unmarked (h : ∀ y ∈ xs, marked y = false) : AllShown level unfolded marked limit xs := by
  rw [allShown_iff]
  intro i hi hmarked
  rw [h _ (List.getElem_mem hi)] at hmarked
  cases hmarked

/-! ## Limits that agree -/

theorem Agree.shows_iff (h : Agree m limit limit') (hle : l ≤ m) : Shows limit l ↔ Shows limit' l := by
  rcases h with rfl | ⟨h, h'⟩
  · rfl
  · exact iff_of_true (h.mono hle) (h'.mono hle)

/-- After members that are not shallower than `m` the limit agrees with the one before them. -/
theorem agree_limitAfter (h : ∀ y ∈ xs, m ≤ level y) : Agree m limit (limitAfter level unfolded limit xs) := by
  induction xs generalizing limit with
  | nil => exact .inl rfl
  | cons x xs ih =>
    rw [List.forall_mem_cons] at h
    rw [limitAfter_cons]
    by_cases hshows : Shows limit (level x)
    · have hstep : Shows (limitStep level unfolded limit x) m := by
        rw [limitStep_of_shows hshows]
        split
        · exact shows_none
        · exact shows_some.2 h.1
      refine .inr ⟨hshows.mono h.1, ?_⟩
      exact ((ih h.2).shows_iff le_rfl).1 hstep
    · rw [limitStep_of_not_shows hshows]
      exact ih h.2

/-- Limits that agree hide the same of a list that starts at most at their level. -/
theorem Agree.allShown_iff (h : Agree m limit limit') (hhead : ∀ y ∈ xs.head?, level y ≤ m) :
    AllShown level unfolded marked limit xs ↔ AllShown level unfolded marked limit' xs := by
  cases xs with
  | nil => simp
  | cons x xs =>
    have hiff := h.shows_iff (hhead x rfl)
    rw [allShown_cons, allShown_cons, hiff]
    rcases h with rfl | ⟨h, h'⟩
    · rfl
    · rw [limitStep_of_shows (h.mono (hhead x rfl)), limitStep_of_shows (h'.mono (hhead x rfl))]

/-- What stands between two parts does not matter to them when it is not shallower than what follows. -/
theorem allShown_between (hge : ∀ y ∈ moved, m ≤ level y) (hrest : ∀ y ∈ rest.head?, level y ≤ m) :
    AllShown level unfolded marked limit (pre ++ (moved ++ rest)) ↔
      AllShown level unfolded marked limit (pre ++ rest) ∧
        AllShown level unfolded marked (limitAfter level unfolded limit pre) moved := by
  rw [allShown_append, allShown_append, allShown_append, ← (agree_limitAfter hge).allShown_iff hrest]
  tauto

/-! ## Subtrees -/

/-- A subtree is taken out. -/
theorem allShown_subtree (hbelow : Below level x sub rest) :
    AllShown level unfolded marked limit (pre ++ x :: (sub ++ rest)) ↔
      AllShown level unfolded marked limit (pre ++ rest) ∧
        AllShown level unfolded marked (limitAfter level unfolded limit pre) (x :: sub) := by
  rw [← List.cons_append]
  refine allShown_between (List.forall_mem_cons.2 ⟨le_rfl, fun y hy => (hbelow.deeper y hy).le⟩) ?_
  exact fun y hy => hbelow.behind y hy

/-- Members are given up with all of their subtrees. -/
theorem AllShown.keepAt {p : ℕ → Bool} (h : AllShown level unfolded marked limit xs)
    (hclosed : ∀ j k, j < k → k < subtreeEnd level xs j → j < xs.length → p (0 + j) = false →
      p (0 + k) = false) :
    AllShown level unfolded marked limit (keepAt p 0 xs) :=
  keepAt_of_remove (Q := AllShown level unfolded marked limit)
    (fun hbelow h => ((allShown_subtree hbelow).1 h).1) [] h hclosed

/-! ## Other levels -/

/-- Two members that differ in their level. -/
structure Releveled (unfolded marked : α → Bool) (x y : α) : Prop where
  unfolded : unfolded y = unfolded x
  marked : marked y = marked x

/-- Members get other levels, so that none of them is below another one that it was not below. -/
theorem AllShown.relevel {zs : List (α × α)} (h : AllShown level unfolded marked limit (zs.map Prod.fst))
    (hmarks : ∀ z ∈ zs, Releveled unfolded marked z.1 z.2)
    (hpairs : zs.Pairwise fun a b => level a.2 < level b.2 → level a.1 < level b.1)
    (hlimits : ∀ z ∈ zs, Shows limit (level z.1) → Shows limit' (level z.2)) :
    AllShown level unfolded marked limit' (zs.map Prod.snd) := by
  induction zs generalizing limit limit' with
  | nil => trivial
  | cons z zs ih =>
    rw [List.map_cons, allShown_cons] at h ⊢
    rw [List.forall_mem_cons] at hmarks hlimits
    obtain ⟨hbelow, hpairs⟩ := List.pairwise_cons.1 hpairs
    refine ⟨fun hmarked => hlimits.1 (h.1 (hmarks.1.marked ▸ hmarked)), ih h.2 hmarks.2 hpairs ?_⟩
    intro a ha hshows
    by_cases hz' : Shows limit' (level z.2)
    · rw [limitStep_of_shows hz', hmarks.1.unfolded]
      split
      next => exact shows_none
      next hfolded =>
        -- what is shown behind the folded member is not below it
        refine shows_some.2 (not_lt.1 fun hlt => ?_)
        have hlt' := hbelow a ha hlt
        by_cases hz : Shows limit (level z.1)
        · rw [limitStep_of_shows hz, if_neg hfolded, shows_some] at hshows
          omega
        · rw [limitStep_of_not_shows hz] at hshows
          exact hz (hshows.mono hlt'.le)
    · rw [limitStep_of_not_shows hz']
      rw [limitStep_of_not_shows fun hz => hz' (hlimits.1 hz)] at hshows
      exact hlimits.2 a ha hshows

/-- A subtree gets other levels at another place, both of which are shown. -/
theorem AllShown.subtree {y : α} {zs : List (α × α)}
    (h : AllShown level unfolded marked limit (x :: zs.map Prod.fst)) (hshows : Shows limit (level x))
    (hshows' : Shows limit' (level y)) (hroot : Releveled unfolded marked x y)
    (hdeeper : ∀ z ∈ zs, level x < level z.1) (hmarks : ∀ z ∈ zs, Releveled unfolded marked z.1 z.2)
    (hpairs : zs.Pairwise fun a b => level a.2 < level b.2 → level a.1 < level b.1) :
    AllShown level unfolded marked limit' (y :: zs.map Prod.snd) := by
  rw [allShown_cons] at h ⊢
  refine ⟨fun _ => hshows', h.2.relevel hmarks hpairs fun z hz hz' => ?_⟩
  rw [limitStep_of_shows hshows', hroot.unfolded]
  split
  next => exact shows_none
  next hfolded =>
    rw [limitStep_of_shows hshows, if_neg hfolded, shows_some] at hz'
    exact absurd (hdeeper z hz) (not_lt.2 hz')

end Marks

end Outline
