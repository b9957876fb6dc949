import Kahuna.Bisection.Basic
import Kahuna.MemoryViewer.Basic

/-!
# The time table

The model of the search in the time table of a file, with the checks that a difference of unsigned numbers and
an access to a slice come with.

* `binarySearch_spec`: the search ends, at an entry with the greatest time that is not too late;
* `timeToTimeTableIdx_of_lt`, `querySignal_of_lt`: before the first entry nothing is searched for.
-/

namespace Wellen

open Wave Bisection

/-- A difference of unsigned numbers. -/
def checkedSub (a b : ℕ) : Run ℕ :=
  if b ≤ a then .ok (a - b) else .error (.expect "attempt to subtract with overflow")

/-- The loop of `binary_search`. -/
def binarySearchLoop (times : List ℕ) (needle lowerIdx upperIdx : ℕ) : Run ℕ :=
  if lowerIdx ≤ upperIdx then
    let midIdx := lowerIdx + (upperIdx - lowerIdx) / 2
    match times[midIdx]? with
    | some time =>
      match compare time needle with
      | .lt => binarySearchLoop times needle (midIdx + 1) upperIdx
      | .eq => .ok midIdx
      | .gt => if 0 < midIdx then binarySearchLoop times needle lowerIdx (midIdx - 1) else checkedSub midIdx 1
    | none => .error .outOfBounds
  else checkedSub lowerIdx 1
termination_by upperIdx + 1 - lowerIdx

/-- `binary_search`. -/
def binarySearch (times : List ℕ) (needle : ℕ) : Run ℕ := do
  let upperIdx ← checkedSub times.length 1
  binarySearchLoop times needle 0 upperIdx

/-- `time_to_time_table_idx`. -/
def WellenContainer.timeToTimeTableIdx (f : WellenContainer) (time : ℕ) : Run (Option ℕ) :=
  if time < 2 ^ 64 then
    match f.timeTable.head? with
    | none => .ok none
    | some first =>
      if time < first then .ok none
      else do
        let idx ← binarySearch f.timeTable time
        let found ← Run.index f.timeTable idx
        if found ≤ time then return some idx else .error (.assertion "table[idx] <= time")
  else .error (.expect "unsupported time!")

/-! ## The search -/

variable {times : List ℕ} {needle first idx lowerIdx upperIdx time : ℕ}

/-- An entry that is not too late, and as late as any other one that is not. It is the last one of these, unless
it is at the very time that was looked for. -/
def Latest (times : List ℕ) (needle idx : ℕ) : Prop :=
  ∃ time, times[idx]? = some time ∧ time ≤ needle ∧
    ∀ j t, times[j]? = some t → t ≤ needle → j ≤ idx ∨ t = needle ∧ time = needle

/-- Where the bounds meet, the entry before them is the last one that is not too late. -/
theorem latest_of_around (hfirst : times.head? = some first) (hle : first ≤ needle)
    (h : Around times needle lowerIdx lowerIdx) : 0 < lowerIdx ∧ Latest times needle (lowerIdx - 1) := by
  have hpos : 0 < lowerIdx := by
    by_contra hzero
    have := h.greater 0 first (by omega) (by rw [← List.head?_eq_getElem?, hfirst])
    omega
  have hlt : lowerIdx - 1 < times.length := by
    have := h.le_length
    omega
  have hget : times[lowerIdx - 1]? = some times[lowerIdx - 1] := List.getElem?_eq_getElem hlt
  refine ⟨hpos, times[lowerIdx - 1], hget, (h.less _ _ (by omega) hget).le, fun j t hj ht => .inl ?_⟩
  by_contra hlate
  have := h.greater j t (by omega) hj
  omega

theorem binarySearchLoop_spec (hs : times.Pairwise (· ≤ ·)) (hfirst : times.head? = some first)
    (hle : first ≤ needle) (h : Around times needle lowerIdx (upperIdx + 1)) :
    ∃ idx, binarySearchLoop times needle lowerIdx upperIdx = .ok idx ∧ Latest times needle idx := by
  induction hn : upperIdx + 1 - lowerIdx using Nat.strong_induction_on generalizing lowerIdx upperIdx with
  | h n ih =>
    rw [binarySearchLoop]
    split
    next hbounds =>
      have hmid : lowerIdx + (upperIdx - lowerIdx) / 2 ≤ upperIdx := by omega
      generalize hmidIdx : lowerIdx + (upperIdx - lowerIdx) / 2 = midIdx at hmid ⊢
      have hlt : midIdx < times.length := by
        have := h.le_length
        omega
      have hget : times[midIdx]? = some times[midIdx] := List.getElem?_eq_getElem hlt
      simp only [hget]
      rcases lt_trichotomy times[midIdx] needle with hless | heq | hgreater
      · rw [Nat.compare_eq_lt.2 hless]
        exact ih _ (by omega) (h.raise hs (by omega) hget hless) rfl
      · rw [Nat.compare_eq_eq.2 heq]
        refine ⟨midIdx, rfl, times[midIdx], hget, heq.le, fun j t hj ht => ?_⟩
        rcases Nat.lt_or_ge midIdx j with hmj | hjm
        · -- an entry at the same time further behind
          have hge := le_of_sorted hs hmj.le hget hj
          exact .inr ⟨by omega, heq⟩
        · exact .inl hjm
      · rw [Nat.compare_eq_gt.2 hgreater]
        have hpos : 0 < midIdx := by
          rw [Nat.pos_iff_ne_zero]
          rintro rfl
          rw [← List.head?_eq_getElem?, hfirst, Option.some.injEq] at hget
          omega
        have hcut := h.cut hs (by omega) hget hgreater
        rw [← Nat.sub_add_cancel hpos] at hcut
        simp only [if_pos hpos]
        exact ih _ (by omega) hcut rfl
    next hbounds =>
      have hmeet : upperIdx + 1 = lowerIdx := by
        have := h.le
        omega
      obtain ⟨hpos, hlatest⟩ := latest_of_around hfirst hle (hmeet ▸ h)
      exact ⟨lowerIdx - 1, if_pos hpos, hlatest⟩

/-- From the first entry on the search finds one. -/
theorem binarySearch_spec (hs : times.Pairwise (· ≤ ·)) (hfirst : times.head? = some first)
    (hle : first ≤ needle) : ∃ idx, binarySearch times needle = .ok idx ∧ Latest times needle idx := by
  have hpos : 1 ≤ times.length := by
    rw [Nat.one_le_iff_ne_zero, ne_eq, List.length_eq_zero_iff]
    rintro rfl
    cases hfirst
  have hwhole : Around times needle 0 (times.length - 1 + 1) := by
    rw [Nat.sub_add_cancel hpos]
    exact .whole times needle
  obtain ⟨idx, hsearch, hlatest⟩ := binarySearchLoop_spec hs hfirst hle hwhole
  refine ⟨idx, ?_, hlatest⟩
  rw [binarySearch, checkedSub, if_pos hpos]
  exact hsearch

namespace WellenContainer

variable {f : WellenContainer}

/-- From the first entry on the assertion holds. -/
theorem timeToTimeTableIdx_of_le (hs : f.timeTable.Pairwise (· ≤ ·)) (hfirst : f.timeTable.head? = some first)
    (hle : first ≤ time) (htime : time < 2 ^ 64) :
    ∃ idx, f.timeToTimeTableIdx time = .ok (some idx) ∧ Latest f.timeTable time idx := by
  obtain ⟨idx, hsearch, hlatest⟩ := binarySearch_spec hs hfirst hle
  obtain ⟨found, hfound, hle', -⟩ := id hlatest
  refine ⟨idx, ?_, hlatest⟩
  rw [timeToTimeTableIdx, if_pos htime, hfirst]
  simp only [if_neg (not_lt.2 hle), hsearch, bind, Except.bind, Run.index_eq_ok hfound, if_pos hle']
  rfl

/-- Before the first entry there is nothing to be searched for. -/
theorem timeToTimeTableIdx_of_lt (hfirst : f.timeTable.head? = some first) (hlt : time < first)
    (htime : time < 2 ^ 64) : f.timeToTimeTableIdx time = .ok none := by
  rw [timeToTimeTableIdx, if_pos htime, hfirst]
  exact if_pos hlt

/-- A query goes by whether an index is found. -/
theorem hasBegun_eq (hs : f.timeTable.Pairwise (· ≤ ·)) (time : ℕ) :
    f.hasBegun time = Option.isSome <$> f.timeToTimeTableIdx time := by
  by_cases htime : time < 2 ^ 64
  · rw [hasBegun, if_pos htime]
    cases hfirst : f.timeTable.head? with
    | none =>
      rw [timeToTimeTableIdx, if_pos htime, hfirst]
      rfl
    | some first =>
      rcases Nat.lt_or_ge time first with hlt | hle
      · rw [timeToTimeTableIdx_of_lt hfirst hlt htime, Option.any_some, decide_eq_false (not_le.2 hlt)]
        rfl
      · obtain ⟨idx, hidx, -⟩ := timeToTimeTableIdx_of_le hs hfirst hle htime
        rw [hidx, Option.any_some, decide_eq_true hle]
        rfl
  · rw [hasBegun, timeToTimeTableIdx, if_neg htime, if_neg htime]
    rfl

/-- Before the first entry a signal has no value. -/
theorem querySignal_of_lt (signal : Signal) (hfirst : f.timeTable.head? = some first) (hlt : time < first)
    (htime : time < 2 ^ 64) : ∃ res, f.querySignal signal time = .ok res ∧ res.current = none := by
  have hbegun : f.hasBegun time = .ok false := by
    rw [hasBegun, if_pos htime, hfirst, Option.any_some, decide_eq_false (not_le.2 hlt)]
  simp only [querySignal, hbegun, bind, Except.bind, pure, Except.pure, Bool.false_eq_true, if_false]
  exact ⟨_, rfl, rfl⟩

end WellenContainer

/-! ## The whole search -/

/-- From the first entry on the search ends at an entry as late as any other one that is not too late. Before the
first entry it is not called, and a signal has no value. -/
theorem timeTable_search :
    (∀ (times : List ℕ) (first needle : ℕ), times.Pairwise (· ≤ ·) → times.head? = some first → first ≤ needle →
      ∃ idx, binarySearch times needle = .ok idx ∧ Latest times needle idx) ∧
    ∀ (f : WellenContainer) (first needle : ℕ), f.timeTable.head? = some first → needle < first →
      needle < 2 ^ 64 → f.timeToTimeTableIdx needle = .ok none ∧
        ∀ signal, ∃ res, f.querySignal signal needle = .ok res ∧ res.current = none :=
  ⟨fun _ _ _ hs hfirst hle => binarySearch_spec hs hfirst hle,
    fun _ _ _ hfirst hlt htime => ⟨WellenContainer.timeToTimeTableIdx_of_lt hfirst hlt htime,
      fun signal => WellenContainer.querySignal_of_lt signal hfirst hlt htime⟩⟩

/-- Of two entries at the time that is looked for, the first one is found. -/
theorem binarySearch_not_last : ¬ ∀ (times : List ℕ) (first needle : ℕ), times.Pairwise (· ≤ ·) →
    times.head? = some first → first ≤ needle → ∃ idx, binarySearch times needle = .ok idx ∧
      (∃ time, times[idx]? = some time ∧ time ≤ needle) ∧
        ∀ j t, times[j]? = some t → t ≤ needle → j ≤ idx := by
  intro h
  obtain ⟨idx, hsearch, -, hlast⟩ := h [1, 1] 1 1 (by simp) rfl le_rfl
  have hzero : binarySearch [1, 1] 1 = .ok 0 := by
    rw [binarySearch, checkedSub]
    simp [binarySearchLoop, bind, Except.bind]
  obtain rfl := Except.ok.inj (hzero.symm.trans hsearch)
  exact absurd (hlast 1 1 rfl le_rfl) (by decide)

end Wellen
