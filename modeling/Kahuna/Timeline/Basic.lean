import Mathlib.Order.Basic
import Mathlib.Data.List.Basic
import Mathlib.Data.List.Sort
import Mathlib.Data.List.TakeWhile

/-!
# Recorded signals as change lists

A recorded signal is a list of `(time, value)` changes in time order: the signal holds the value of
the most recent change until the next one. This file develops the two readings of such a list, the
value in force at a time and the edges to a value, over an arbitrary linear order of times.

* `Timeline.valueAt`: the value in force at a time, `none` before the first change;
* `Timeline.edgesFrom`, `Timeline.edgesTo`: the times at which the signal turns to a given value;
* `Timeline.Increasing`: the changes have strictly increasing times.

Renaming the values moves neither (`valueAt_mapValues`, `edgesTo_mapValues`). The other lemmas say
how both readings behave on a list cut in two at a time (`valueAt_append`,
`edgesFrom_append`), which is how a long recording is analysed piece by piece.
-/

namespace Timeline

variable {τ α : Type*}

/-- The last value of a change list, `prev` when there is no change. -/
def lastValue (prev : Option α) (changes : List (τ × α)) : Option α :=
  match changes.getLast? with
  | some c => some c.2
  | none => prev

/-- The times at which a signal that holds `prev` before `changes` turns to `target`. The first
change of a signal with no earlier value is no edge. -/
def edgesFrom [DecidableEq α] (target : α) : Option α → List (τ × α) → List τ
  | _, [] => []
  | none, (_, v) :: rest => edgesFrom target (some v) rest
  | some p, (t, v) :: rest =>
    if p ≠ v ∧ v = target then t :: edgesFrom target (some v) rest
    else edgesFrom target (some v) rest

/-- The times at which the recorded signal turns to `target`. -/
def edgesTo [DecidableEq α] (target : α) (changes : List (τ × α)) : List τ :=
  edgesFrom target none changes

/-! ## The last value -/

@[simp]
theorem lastValue_nil (prev : Option α) : lastValue prev ([] : List (τ × α)) = prev := rfl

@[simp]
theorem lastValue_cons (prev : Option α) (c : τ × α) (rest : List (τ × α)) :
    lastValue prev (c :: rest) = lastValue (some c.2) rest := by
  cases rest with
  | nil => rfl
  | cons d rest => simp [lastValue, List.getLast?_cons]

theorem lastValue_append (prev : Option α) (xs ys : List (τ × α)) :
    lastValue prev (xs ++ ys) = lastValue (lastValue prev xs) ys := by
  induction xs generalizing prev with
  | nil => rfl
  | cons x xs ih => simp [ih]

theorem lastValue_none (changes : List (τ × α)) :
    lastValue none changes = changes.getLast?.map Prod.snd := by
  unfold lastValue
  cases changes.getLast? <;> rfl

/-! ## Edges -/

section Edges

variable [DecidableEq α] (target : α)

@[simp]
theorem edgesFrom_nil (prev : Option α) :
    edgesFrom target prev ([] : List (τ × α)) = [] := by
  cases prev <;> rfl

/-- The first change is an edge when an earlier value differs and it turns to the target. -/
theorem edgesFrom_cons (prev : Option α) (t : τ) (v : α) (rest : List (τ × α)) :
    edgesFrom target prev ((t, v) :: rest)
      = (if prev.any (· ≠ v) ∧ v = target then [t] else [])
        ++ edgesFrom target (some v) rest := by
  cases prev with
  | none => simp [edgesFrom]
  | some p =>
    simp only [edgesFrom, Option.any_some, decide_eq_true_eq]
    split <;> rfl

/-- The edges of a recording cut in two: those of the first part, then those of the second part
read with the last value of the first. -/
theorem edgesFrom_append (prev : Option α) (xs ys : List (τ × α)) :
    edgesFrom target prev (xs ++ ys)
      = edgesFrom target prev xs ++ edgesFrom target (lastValue prev xs) ys := by
  induction xs generalizing prev with
  | nil => simp
  | cons x xs ih =>
    cases prev with
    | none => simp [edgesFrom, ih]
    | some p =>
      simp only [List.cons_append, edgesFrom, ih, lastValue_cons]
      split <;> rfl

/-- A change to the value that is in force is no edge, and hides none. -/
theorem edgesTo_insert {xs ys : List (τ × α)} {t : τ} {v : α} (hv : lastValue none xs = some v) :
    edgesTo target (xs ++ (t, v) :: ys) = edgesTo target (xs ++ ys) := by
  rw [edgesTo, edgesTo, edgesFrom_append, edgesFrom_append, hv, edgesFrom_cons]
  simp

/-- An edge is a change to the target from another value. -/
theorem exists_split_of_mem_edgesFrom {prev : Option α} {changes : List (τ × α)} {t : τ}
    (h : t ∈ edgesFrom target prev changes) :
    ∃ xs ys u, changes = xs ++ (t, target) :: ys ∧ lastValue prev xs = some u ∧ u ≠ target := by
  induction changes generalizing prev with
  | nil => simp at h
  | cons c rest ih =>
    obtain ⟨s, v⟩ := c
    rw [edgesFrom_cons, List.mem_append] at h
    rcases h with h | h
    · split at h
      next hedge =>
        obtain ⟨hprev, rfl⟩ := hedge
        obtain ⟨u, rfl, hu⟩ := (Option.any_eq_true _ _).1 hprev
        rw [List.mem_singleton.1 h]
        exact ⟨[], rest, u, rfl, rfl, by simpa using hu⟩
      next => simp at h
    · obtain ⟨xs, ys, u, rfl, hu, hne⟩ := ih h
      exact ⟨(s, v) :: xs, ys, u, rfl, by rw [lastValue_cons, hu], hne⟩

/-- Every edge is the time of a change. -/
theorem exists_mem_of_mem_edgesFrom {prev : Option α} {changes : List (τ × α)} {t : τ}
    (h : t ∈ edgesFrom target prev changes) : (t, target) ∈ changes := by
  obtain ⟨xs, ys, u, rfl, -⟩ := exists_split_of_mem_edgesFrom target h
  simp

/-- The same changes with other values. -/
def mapValues {β : Type*} (f : α → β) (changes : List (τ × α)) : List (τ × β) :=
  changes.map fun c => (c.1, f c.2)

/-- The edges stay where they are when different values keep different names. -/
theorem edgesTo_mapValues {β : Type*} [DecidableEq β] {f : α → β} (hf : Function.Injective f)
    (changes : List (τ × α)) :
    edgesTo (f target) (mapValues f changes) = edgesTo target changes := by
  have hfrom : ∀ (prev : Option α) (changes : List (τ × α)),
      edgesFrom (f target) (prev.map f) (mapValues f changes) = edgesFrom target prev changes := by
    intro prev changes
    induction changes generalizing prev with
    | nil => simp [mapValues]
    | cons c rest ih =>
      rw [edgesFrom_cons, ← ih, mapValues, List.map_cons, edgesFrom_cons, Option.any_map]
      simp only [ne_eq, hf.eq_iff]
      rfl
  exact hfrom none changes

end Edges

section Order

variable [LinearOrder τ]

/-- Consecutive changes have strictly increasing times. -/
def Increasing (changes : List (τ × α)) : Prop :=
  changes.Pairwise (fun a b => a.1 < b.1)

/-- All changes lie strictly before `t`. -/
def Before (changes : List (τ × α)) (t : τ) : Prop := ∀ c ∈ changes, c.1 < t

/-- All changes lie strictly after `t`. -/
def After (changes : List (τ × α)) (t : τ) : Prop := ∀ c ∈ changes, t < c.1

/-- The value set by the last of the leading changes at or before `t`. -/
def valueAt (changes : List (τ × α)) (t : τ) : Option α :=
  lastValue none (changes.takeWhile (fun c => c.1 ≤ t))

/-! ## Changes before and after a time -/

@[simp]
theorem before_nil (t : τ) : Before ([] : List (τ × α)) t := by simp [Before]

@[simp]
theorem after_nil (t : τ) : After ([] : List (τ × α)) t := by simp [After]

@[simp]
theorem before_cons {c : τ × α} {rest : List (τ × α)} {t : τ} :
    Before (c :: rest) t ↔ c.1 < t ∧ Before rest t := by
  simp [Before]

@[simp]
theorem after_cons {c : τ × α} {rest : List (τ × α)} {t : τ} :
    After (c :: rest) t ↔ t < c.1 ∧ After rest t := by
  simp [After]

@[simp]
theorem before_append {xs ys : List (τ × α)} {t : τ} :
    Before (xs ++ ys) t ↔ Before xs t ∧ Before ys t := by
  simp [Before, or_imp, forall_and]

@[simp]
theorem after_append {xs ys : List (τ × α)} {t : τ} :
    After (xs ++ ys) t ↔ After xs t ∧ After ys t := by
  simp [After, or_imp, forall_and]

theorem After.mono {xs : List (τ × α)} {s t : τ} (h : After xs t) (hst : s ≤ t) : After xs s :=
  fun c hc => lt_of_le_of_lt hst (h c hc)

theorem Before.mono {xs : List (τ × α)} {s t : τ} (h : Before xs s) (hst : s ≤ t) : Before xs t :=
  fun c hc => lt_of_lt_of_le (h c hc) hst

theorem takeWhile_le_eq_nil_of_after {xs : List (τ × α)} {t : τ} (h : After xs t) :
    xs.takeWhile (fun c => c.1 ≤ t) = [] := by
  cases xs with
  | nil => rfl
  | cons x xs =>
    rw [after_cons] at h
    simp [not_le.mpr h.1]

theorem takeWhile_le_append_of_le {xs ys : List (τ × α)} {t : τ} (h : ∀ c ∈ xs, c.1 ≤ t) :
    (xs ++ ys).takeWhile (fun c => c.1 ≤ t) = xs ++ ys.takeWhile (fun c => c.1 ≤ t) := by
  rw [List.takeWhile_append_of_pos (by simpa using h)]

/-- Behind the leading changes at or before a time there are only later ones. -/
theorem after_dropWhile {changes : List (τ × α)} (h : Increasing changes) (t : τ) :
    After (changes.dropWhile fun c => c.1 ≤ t) t := by
  induction changes with
  | nil => simp
  | cons c rest ih =>
    obtain ⟨hc, hrest⟩ := List.pairwise_cons.1 h
    rw [List.dropWhile_cons]
    split
    · exact ih hrest
    next hlt =>
      have hlt' : t < c.1 := by simpa using hlt
      exact after_cons.2 ⟨hlt', fun d hd => hlt'.trans (hc d hd)⟩

/-! ## The value in force -/

/-- Past a stretch of changes at or before `t`, the value in force at `t` is read in the rest, and
is the last value of the stretch when the rest lies after `t`. -/
theorem valueAt_append_of_le {xs ys : List (τ × α)} {t : τ} (h : ∀ c ∈ xs, c.1 ≤ t) :
    valueAt (xs ++ ys) t
      = lastValue (lastValue none xs) (ys.takeWhile (fun c => c.1 ≤ t)) := by
  rw [valueAt, takeWhile_le_append_of_le h, lastValue_append]

/-- Cut at `t`: the value in force is the last value of the part at or before `t`. -/
theorem valueAt_append {xs ys : List (τ × α)} {t : τ} (h : ∀ c ∈ xs, c.1 ≤ t)
    (h' : After ys t) : valueAt (xs ++ ys) t = lastValue none xs := by
  rw [valueAt_append_of_le h, takeWhile_le_eq_nil_of_after h', lastValue_nil]

/-- A change to the value that is in force changes no value. -/
theorem valueAt_insert {xs ys : List (τ × α)} {t : τ} {v : α} (hxs : ∀ c ∈ xs, c.1 ≤ t)
    (hys : After ys t) (hv : lastValue none xs = some v) (u : τ) :
    valueAt (xs ++ (t, v) :: ys) u = valueAt (xs ++ ys) u := by
  rcases le_or_gt t u with htu | hut
  · have hxs' : ∀ c ∈ xs, c.1 ≤ u := fun c hc => (hxs c hc).trans htu
    rw [valueAt_append_of_le hxs', valueAt_append_of_le hxs', hv, List.takeWhile_cons,
      if_pos (by simpa using htu), lastValue_cons]
  · have hafter : After ((t, v) :: ys) u := after_cons.2 ⟨hut, hys.mono hut.le⟩
    -- neither the new change nor those behind it are reached
    have hstop : ∀ zs : List (τ × α), After zs u →
        (xs ++ zs).takeWhile (fun c => c.1 ≤ u) = xs.takeWhile (fun c => c.1 ≤ u) := by
      intro zs hzs
      rw [List.takeWhile_append]
      split
      · rw [takeWhile_le_eq_nil_of_after hzs, List.append_nil]
        next hall => exact (List.takeWhile_prefix _).eq_of_length hall |>.symm
      · rfl
    rw [valueAt, valueAt, hstop _ hafter, hstop _ (after_cons.1 hafter).2]

/-- The value in force is renamed with the changes. -/
theorem valueAt_mapValues {β : Type*} (f : α → β) (changes : List (τ × α)) (t : τ) :
    valueAt (mapValues f changes) t = (valueAt changes t).map f := by
  rw [valueAt, valueAt, lastValue_none, lastValue_none, mapValues, List.takeWhile_map,
    List.getLast?_map, Option.map_map, Option.map_map]
  rfl

/-! ## Finding edges -/

/-- The value in force is that of the last change at or before the time. -/
theorem valueAt_of_last {changes : List (τ × α)} (h : Increasing changes) {u t : τ} {v : α}
    (hmem : (u, v) ∈ changes) (hut : u ≤ t) (hlast : ∀ c ∈ changes, c.1 ≤ t → c.1 ≤ u) :
    valueAt changes t = some v := by
  obtain ⟨xs, ys, rfl⟩ := List.append_of_mem hmem
  obtain ⟨-, hys, hxs⟩ := List.pairwise_append.1 h
  have hbefore : ∀ c ∈ xs ++ [(u, v)], c.1 ≤ t := by
    intro c hc
    rcases List.mem_append.1 hc with hc | hc
    · exact (hxs c hc (u, v) List.mem_cons_self).le.trans hut
    · rwa [List.mem_singleton.1 hc]
  have hafter : After ys t := by
    intro c hc
    by_contra hle
    have hcu := hlast c (List.mem_append_right _ (List.mem_cons_of_mem _ hc)) (not_lt.1 hle)
    exact absurd ((List.pairwise_cons.1 hys).1 c hc) (not_lt.2 hcu)
  rw [← List.singleton_append, ← List.append_assoc, valueAt_append hbefore hafter,
    lastValue_append, lastValue_cons, lastValue_nil]

/-- At a change, the value in force is that of the change. -/
theorem valueAt_of_mem {changes : List (τ × α)} (h : Increasing changes) {t : τ} {v : α}
    (hmem : (t, v) ∈ changes) : valueAt changes t = some v :=
  valueAt_of_last h hmem le_rfl fun _ _ hle => hle

/-- A recording can be cut before a time. -/
theorem exists_split_before {changes : List (τ × α)} (h : Increasing changes) (t : τ) :
    ∃ xs ys, changes = xs ++ ys ∧ Before xs t ∧ ∀ c ∈ ys, t ≤ c.1 := by
  induction changes with
  | nil => exact ⟨[], [], rfl, by simp, by simp⟩
  | cons c rest ih =>
    obtain ⟨hc, hrest⟩ := List.pairwise_cons.1 h
    rcases lt_or_ge c.1 t with hct | htc
    · obtain ⟨xs, ys, rfl, hxs, hys⟩ := ih hrest
      exact ⟨c :: xs, ys, rfl, before_cons.2 ⟨hct, hxs⟩, hys⟩
    · refine ⟨[], c :: rest, rfl, by simp, List.forall_mem_cons.2 ⟨htc, fun d hd => ?_⟩⟩
      exact htc.trans (hc d hd).le

/-- Between the changes before a time and that time there is a time, unless nothing is before it. -/
theorem exists_behind_of_before {xs : List (τ × α)} {s t : τ} (hst : s < t) (h : Before xs t) :
    ∃ r, s ≤ r ∧ r < t ∧ ∀ c ∈ xs, c.1 ≤ r := by
  induction xs with
  | nil => exact ⟨s, le_rfl, hst, by simp⟩
  | cons c rest ih =>
    rw [before_cons] at h
    obtain ⟨r, hsr, hrt, hrest⟩ := ih h.2
    refine ⟨max c.1 r, hsr.trans (le_max_right _ _), max_lt h.1 hrt, ?_⟩
    exact List.forall_mem_cons.2
      ⟨le_max_left _ _, fun d hd => (hrest d hd).trans (le_max_right _ _)⟩

/-- There is an edge where the signal turns to the target and has held another value for some time. -/
theorem mem_edgesTo_iff [DecidableEq α] {changes : List (τ × α)} (h : Increasing changes) {t : τ}
    {v : α} : t ∈ edgesTo v changes ↔ valueAt changes t = some v ∧
      ∃ s < t, ∃ u ≠ v, ∀ r, s ≤ r → r < t → valueAt changes r = some u := by
  constructor
  · intro ht
    obtain ⟨xs, ys, u, rfl, hu, huv⟩ := exists_split_of_mem_edgesFrom v ht
    refine ⟨valueAt_of_mem h (by simp), ?_⟩
    obtain ⟨hinit, hys, hxs⟩ := List.pairwise_append.1 h
    rcases List.eq_nil_or_concat' xs with rfl | ⟨init, c, rfl⟩
    · simp at hu
    refine ⟨c.1, hxs c (by simp) (t, v) List.mem_cons_self, u, huv, fun r hcr hrt => ?_⟩
    have hbefore : ∀ d ∈ init ++ [c], d.1 ≤ r := by
      intro d hd
      rcases List.mem_append.1 hd with hd | hd
      · exact ((List.pairwise_append.1 hinit).2.2 d hd c (by simp)).le.trans hcr
      · rwa [List.mem_singleton.1 hd]
    have hafter : After ((t, v) :: ys) r :=
      after_cons.2 ⟨hrt, fun d hd => hrt.trans ((List.pairwise_cons.1 hys).1 d hd)⟩
    rw [valueAt_append hbefore hafter, hu]
  · rintro ⟨ht, s, hst, u, huv, hs⟩
    obtain ⟨xs, ys, rfl, hxs, hys⟩ := exists_split_before h t
    -- right before `t` the last change is to the other value
    obtain ⟨r, hsr, hrt, hxsr⟩ := exists_behind_of_before hst hxs
    have hlast : lastValue none xs = some u := by
      rw [← hs r hsr hrt, valueAt_append hxsr fun c hc => hrt.trans_le (hys c hc)]
    rw [valueAt_append_of_le fun c hc => (hxs c hc).le, hlast] at ht
    rw [edgesTo, edgesFrom_append, hlast]
    refine List.mem_append_right _ ?_
    -- the first change from `t` on is the one that makes the difference
    cases ys with
    | nil => exact absurd (Option.some.inj ht) huv
    | cons c rest =>
      have hrest : After rest c.1 := (List.pairwise_cons.1 (List.pairwise_append.1 h).2.1).1
      rcases (hys c List.mem_cons_self).lt_or_eq with hlate | rfl
      · rw [takeWhile_le_eq_nil_of_after (after_cons.2 ⟨hlate, hrest.mono hlate.le⟩)] at ht
        exact absurd (Option.some.inj ht) huv
      · rw [List.takeWhile_cons, if_pos (by simp), takeWhile_le_eq_nil_of_after hrest,
          lastValue_cons, lastValue_nil] at ht
        have hv : c.2 = v := Option.some.inj ht
        rw [show c = (c.1, c.2) from rfl, edgesFrom_cons, hv]
        simp [huv]

/-- Where the value in force changes from one time to the next, there is an edge. -/
theorem mem_edgesTo_of_next [DecidableEq α] {changes : List (τ × α)} (h : Increasing changes)
    {s t : τ} {u v : α} (hst : s < t) (hnext : ∀ r, s < r → t ≤ r)
    (hs : valueAt changes s = some u) (ht : valueAt changes t = some v) (huv : u ≠ v) :
    t ∈ edgesTo v changes := by
  refine (mem_edgesTo_iff h).2 ⟨ht, s, hst, u, huv, fun r hsr hrt => ?_⟩
  rcases hsr.lt_or_eq with hsr | rfl
  · exact absurd hrt (not_lt.2 (hnext r hsr))
  · exact hs

/-! ## Order of the edges -/

/-- The edges of a recording with strictly increasing times are strictly increasing. -/
theorem pairwise_edgesFrom [DecidableEq α] (target : α) {prev : Option α}
    {changes : List (τ × α)} (h : Increasing changes) :
    (edgesFrom target prev changes).Pairwise (· < ·) := by
  induction changes generalizing prev with
  | nil => simp
  | cons c rest ih =>
    obtain ⟨s, v⟩ := c
    obtain ⟨hs, hrest⟩ := List.pairwise_cons.mp h
    have hlt : ∀ t ∈ edgesFrom target (some v) rest, s < t := fun t ht =>
      hs _ (exists_mem_of_mem_edgesFrom target ht)
    cases prev with
    | none => exact ih hrest
    | some p =>
      simp only [edgesFrom]
      split
      · exact List.pairwise_cons.mpr ⟨hlt, ih hrest⟩
      · exact ih hrest

/-- Recordings with the same values have the same edges. -/
theorem edgesTo_congr [DecidableEq α] {xs ys : List (τ × α)} (hxs : Increasing xs)
    (hys : Increasing ys) (h : valueAt xs = valueAt ys) (v : α) : edgesTo v xs = edgesTo v ys := by
  apply List.Pairwise.eq_of_mem_iff (r := (· < ·))
  · exact pairwise_edgesFrom v hxs
  · exact pairwise_edgesFrom v hys
  · intro t
    rw [mem_edgesTo_iff hxs, mem_edgesTo_iff hys, h]

end Order

end Timeline
