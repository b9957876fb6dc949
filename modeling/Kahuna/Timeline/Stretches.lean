import Kahuna.Timeline.Basic

/-!
# Signals that rest outside stretches of time

A clock is away from its idle level during its pulses, a select line is active during transfers. Such
a signal takes one value over some stretches of time and rests at another between them.

* `stretchChanges`: the changes of such a signal;
* `valueAt_stretchChanges`: the value in force at each time;
* `edgesFrom_inside`, `edgesFrom_outside`: the edges are the beginnings and the ends of the stretches.
-/

namespace Timeline

variable {τ α : Type*}

/-- A stretch of time, from its first time to its end, which it has or not. -/
structure Stretch (τ : Type*) where
  start : τ
  stop : Option τ
  deriving DecidableEq, Repr

/-- The changes at the beginnings and at the ends of some stretches. -/
def stretchChanges (inside outside : α) (stretches : List (Stretch τ)) : List (τ × α) :=
  stretches.flatMap fun s => (s.start, inside) :: s.stop.toList.map fun stop => (stop, outside)

/-- The signal changes at the beginning of a stretch. -/
theorem start_mem_stretchChanges {inside outside : α} {stretches : List (Stretch τ)}
    {s : Stretch τ} (hs : s ∈ stretches) :
    (s.start, inside) ∈ stretchChanges inside outside stretches :=
  List.mem_flatMap.2 ⟨s, hs, List.mem_cons_self⟩

section Order

variable [LinearOrder τ]

/-- The time lies in the stretch. -/
def Stretch.Covers (s : Stretch τ) (t : τ) : Prop := s.start ≤ t ∧ ∀ stop ∈ s.stop, t < stop

instance (s : Stretch τ) (t : τ) : Decidable (s.Covers t) :=
  inferInstanceAs (Decidable (s.start ≤ t ∧ ∀ stop ∈ s.stop, t < stop))

/-- The stretches follow each other behind a time, each behind the end of the one before it. -/
def Follow : τ → List (Stretch τ) → Prop
  | _, [] => True
  | free, ⟨start, some stop⟩ :: rest => free < start ∧ start < stop ∧ Follow stop rest
  | free, ⟨start, none⟩ :: rest => free < start ∧ rest = []

variable {free t : τ} {inside outside : α} {stretches : List (Stretch τ)}

/-- All changes are behind the time that the stretches follow. -/
theorem Follow.after (h : Follow free stretches) :
    After (stretchChanges inside outside stretches) free := by
  induction stretches generalizing free with
  | nil => simp [stretchChanges]
  | cons s rest ih =>
    obtain ⟨start, _ | stop⟩ := s
    · obtain ⟨hstart, rfl⟩ := h
      simpa [stretchChanges] using hstart
    · obtain ⟨hstart, hstop, hrest⟩ := h
      have hafter := (ih hrest).mono (hstart.trans hstop).le
      show After ((start, inside) :: (stop, outside) :: stretchChanges inside outside rest) free
      exact after_cons.2 ⟨hstart, after_cons.2 ⟨hstart.trans hstop, hafter⟩⟩

theorem Follow.increasing (h : Follow free stretches) :
    Increasing ((free, outside) :: stretchChanges inside outside stretches) := by
  induction stretches generalizing free with
  | nil => simp [stretchChanges, Increasing]
  | cons s rest ih =>
    refine List.pairwise_cons.2 ⟨h.after, ?_⟩
    obtain ⟨start, _ | stop⟩ := s
    · obtain ⟨-, rfl⟩ := h
      simp [stretchChanges]
    · obtain ⟨-, hstop, hrest⟩ := h
      refine List.pairwise_cons.2 ⟨?_, ih hrest⟩
      exact after_cons.2 ⟨hstop, hrest.after.mono hstop.le⟩

/-- A change after which nothing happens until some time is in force at that time. -/
theorem valueAt_cons_of_after {u : τ} {v : α} {changes : List (τ × α)} (hu : u ≤ t)
    (hafter : After changes t) : valueAt ((u, v) :: changes) t = some v := by
  rw [← List.singleton_append, valueAt_append (by simpa using hu) hafter]
  rfl

/-- A change that others follow at or before a time has no effect at that time. -/
theorem valueAt_cons_cons {a b : τ} {u v : α} {rest : List (τ × α)} (hab : a ≤ b) (hb : b ≤ t) :
    valueAt ((a, u) :: (b, v) :: rest) t = valueAt ((b, v) :: rest) t := by
  rw [valueAt, valueAt, List.takeWhile_cons, if_pos (by simpa using hab.trans hb),
    List.takeWhile_cons, if_pos (by simpa using hb), lastValue_cons, lastValue_cons, lastValue_cons]

/-- The value in force is that of the stretch, or that between the stretches. -/
theorem valueAt_stretchChanges (h : Follow free stretches) (t : τ) :
    valueAt ((free, outside) :: stretchChanges inside outside stretches) t
      = if free ≤ t then some (if ∃ s ∈ stretches, s.Covers t then inside else outside)
        else none := by
  by_cases hfree : free ≤ t
  case neg =>
    rw [if_neg hfree, valueAt, takeWhile_le_eq_nil_of_after, lastValue_nil]
    exact after_cons.2 ⟨not_le.1 hfree, h.after.mono (not_le.1 hfree).le⟩
  rw [if_pos hfree]
  induction stretches generalizing free with
  | nil => simpa using valueAt_cons_of_after hfree (by simp [stretchChanges])
  | cons s rest ih =>
    rcases lt_or_ge t s.start with hbefore | hstart
    · -- before the stretch nothing has changed
      have hafter : After (stretchChanges inside outside (s :: rest)) t := by
        obtain ⟨start, _ | stop⟩ := s
        · obtain ⟨-, rfl⟩ := h
          simpa [stretchChanges] using hbefore
        · obtain ⟨-, hstop, hrest⟩ := h
          exact after_cons.2 ⟨hbefore, after_cons.2 ⟨hbefore.trans hstop,
            hrest.after.mono (hbefore.trans hstop).le⟩⟩
      have hnone : ¬ ∃ s' ∈ s :: rest, s'.Covers t := by
        rintro ⟨s', hs', hle, -⟩
        have hlt : t < s'.start := hafter _ (start_mem_stretchChanges hs')
        exact absurd hle (not_le.2 hlt)
      rw [valueAt_cons_of_after hfree hafter, if_neg hnone]
    · obtain ⟨start, _ | stop⟩ := s
      · obtain ⟨hlt, rfl⟩ := h
        rw [if_pos ⟨_, List.mem_cons_self, hstart, by simp⟩]
        show valueAt [(free, outside), (start, inside)] t = _
        rw [valueAt_cons_cons hlt.le hstart]
        exact valueAt_cons_of_after hstart (by simp)
      · obtain ⟨hlt, hstop, hrest⟩ := h
        show valueAt ((free, outside) :: (start, inside) :: (stop, outside)
          :: stretchChanges inside outside rest) t = _
        rw [valueAt_cons_cons hlt.le hstart]
        rcases lt_or_ge t stop with hinside | hbehind
        · rw [valueAt_cons_of_after hstart (after_cons.2 ⟨hinside, hrest.after.mono hinside.le⟩),
            if_pos ⟨_, List.mem_cons_self, hstart, by simpa using hinside⟩]
        · -- behind the stretch it is a signal that rests from its end on
          rw [valueAt_cons_cons hstop.le hbehind, ih hrest hbehind]
          have hnot : ¬ Stretch.Covers ⟨start, some stop⟩ t :=
            fun hcovers => absurd (hcovers.2 stop rfl) (not_lt.2 hbehind)
          simp only [List.exists_mem_cons_iff, hnot, false_or]

/-- The value in force is that of the stretches exactly in a stretch. -/
theorem valueAt_stretchChanges_eq_inside (hne : inside ≠ outside) (h : Follow free stretches)
    (t : τ) : valueAt ((free, outside) :: stretchChanges inside outside stretches) t = some inside ↔
      ∃ s ∈ stretches, s.Covers t := by
  rw [valueAt_stretchChanges h]
  constructor
  · intro hinside
    by_contra hnone
    rw [if_neg hnone] at hinside
    split at hinside
    · exact hne (Option.some.inj hinside).symm
    · cases hinside
  · rintro ⟨s, hs, hcovers⟩
    have hmem : (s.start, inside) ∈ stretchChanges inside outside stretches :=
      start_mem_stretchChanges hs
    have hlt : free < s.start := h.after _ hmem
    rw [if_pos (hlt.le.trans hcovers.1), if_pos ⟨s, hs, hcovers⟩]

section Edges

variable [DecidableEq α]

/-- The signal turns to the value of the stretches at their beginnings. -/
theorem edgesFrom_inside (hne : inside ≠ outside) (stretches : List (Stretch τ))
    (h : Follow free stretches) :
    edgesFrom inside (some outside) (stretchChanges inside outside stretches)
      = stretches.map Stretch.start := by
  induction stretches generalizing free with
  | nil => simp [stretchChanges]
  | cons s rest ih =>
    obtain ⟨start, _ | stop⟩ := s
    · obtain ⟨-, rfl⟩ := h
      simp [stretchChanges, edgesFrom_cons, hne.symm]
    · obtain ⟨-, -, hrest⟩ := h
      show edgesFrom inside (some outside)
        ((start, inside) :: (stop, outside) :: stretchChanges inside outside rest) = _
      rw [edgesFrom_cons, edgesFrom_cons, ih hrest]
      simp [hne.symm]

/-- The signal turns to the value between the stretches at their ends. -/
theorem edgesFrom_outside (hne : inside ≠ outside) (stretches : List (Stretch τ))
    (h : Follow free stretches) :
    edgesFrom outside (some outside) (stretchChanges inside outside stretches)
      = stretches.filterMap Stretch.stop := by
  induction stretches generalizing free with
  | nil => simp [stretchChanges]
  | cons s rest ih =>
    obtain ⟨start, _ | stop⟩ := s
    · obtain ⟨-, rfl⟩ := h
      simp [stretchChanges, edgesFrom_cons, hne]
    · obtain ⟨-, -, hrest⟩ := h
      show edgesFrom outside (some outside)
        ((start, inside) :: (stop, outside) :: stretchChanges inside outside rest) = _
      rw [edgesFrom_cons, edgesFrom_cons, ih hrest]
      simp [hne]

end Edges

end Order

end Timeline
