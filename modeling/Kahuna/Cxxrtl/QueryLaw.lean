import Kahuna.Cxxrtl.Populate
import Kahuna.FiniteMap.Keys
import Kahuna.Transition.Basic
import Mathlib.Data.Int.ConditionallyCompleteOrder
import Mathlib.Order.Bounds.Basic

/-!
# What a query should answer

A query asks for the value of a variable at a time, and for the next time at which there is something new.
The answer should be the value in the last sample at or before the time, and the time of the first sample
after it. The samples are kept in an ordered map, and the two halves of it that `query` looks at are those
before the time and from the time on.

- `Answers`: what the answer should be;
- `mem_samples_iff`: the samples that the tasks have inserted;
- `query_answers_iff`: when the answer is what it should be.
-/

namespace Cxxrtl

open Wave (VariableRef VariableValue)

/-- Samples that were unpacked: times and values. -/
abbrev Samples := List (ℤ × ValueMap)

namespace Samples

/-- The times of the samples. -/
def times (samples : Samples) : Set ℤ := {time | ∃ m, (time, m) ∈ samples}

/-- The variable has a value in the last of the samples whose times are in a set. -/
def HasLastValue (samples : Samples) (var : VariableRef) (s : Set ℤ) : Prop :=
  ∃ time m, IsGreatest (samples.times ∩ s) time ∧ (time, m) ∈ samples ∧ (m.get (variableKey var)).isSome

/-- What a query should answer: the value in the last sample at or before the time, with the time of the
sample, and the time of the first sample after it. -/
structure Answers (samples : Samples) (var : VariableRef) (queryTime : ℤ) (result : QueryResult) : Prop where
  current (time : ℕ) (value : VariableValue) : result.current = some (time, value) ↔
    IsGreatest (samples.times ∩ Set.Iic queryTime) time ∧
      ∃ m, ((time : ℤ), m) ∈ samples ∧ m.get (variableKey var) = some value
  next (time : ℕ) : result.next = some time ↔ IsLeast (samples.times ∩ Set.Ioi queryTime) time

end Samples

namespace QueryContainer

variable {decode : String → Option (List UInt8)} {q : QueryContainer} {samples : Samples}
  {var : VariableRef} {queryTime time : ℤ} {m : ValueMap}

/-! ## What is stored -/

/-- The samples that some workers of the tasks have inserted, in their order. -/
def samplesOf (decode : String → Option (List UInt8)) (tasks : List FillTask) (works : List (ℕ × ℕ)) :
    Samples :=
  (inserts decode { variableValues := .empty, tasks } works).map Prod.snd

/-- The container then. -/
def filled (decode : String → Option (List UInt8)) (tasks : List FillTask) (works : List (ℕ × ℕ)) :
    QueryContainer :=
  workAll decode { variableValues := .empty, tasks } works

/-- The container holds these samples, and their times are those of samples. -/
structure Holds (q : QueryContainer) (samples : Samples) : Prop where
  mem_iff {time : ℤ} {m : ValueMap} : (time, m) ∈ samples ↔ q.variableValues.get time = some m
  nonneg {time : ℤ} : time ∈ samples.times → 0 ≤ time

/-- The container holds the samples that were inserted, when each has a time of its own. -/
theorem holds_filled {tasks : List FillTask} {works : List (ℕ × ℕ)}
    (h : ((samplesOf decode tasks works).map Prod.fst).Nodup) :
    (filled decode tasks works).Holds (samplesOf decode tasks works) := by
  have hinserts : (inserts decode { variableValues := .empty, tasks } works).Pairwise
      fun e e' => e.2.1 ≠ e'.2.1 := by
    rw [samplesOf, List.map_map, List.Nodup, List.pairwise_map] at h
    exact h
  refine ⟨fun {time m} => ?_, fun {time} htime => ?_⟩
  · rw [filled, get_workAll, samplesOf]
    -- at most one of the samples is for the time
    have hlast : ∀ e, lastInsert (inserts decode { variableValues := .empty, tasks } works) time = some e ↔
        e ∈ inserts decode { variableValues := .empty, tasks } works ∧ e.2.1 = time := by
      intro e
      constructor
      · intro he
        have hmem := List.mem_filter.1 (List.mem_of_getLast? he)
        exact ⟨hmem.1, eq_of_beq hmem.2⟩
      · rintro ⟨hmem, rfl⟩
        rw [lastInsert]
        obtain ⟨pre, post, hsplit⟩ := List.append_of_mem hmem
        rw [hsplit, List.pairwise_append] at hinserts
        obtain ⟨-, hpost, -⟩ := hinserts
        have hnone : post.filter (fun e' => e'.2.1 == e.2.1) = [] := by
          rw [List.filter_eq_nil_iff]
          intro e' he' heq
          exact (List.pairwise_cons.1 hpost).1 e' he' (eq_of_beq heq).symm
        rw [hsplit, List.filter_append, List.filter_cons_of_pos (by simp), hnone, List.getLast?_concat]
    cases hcase : lastInsert (inserts decode { variableValues := .empty, tasks } works) time with
    | none =>
      refine iff_of_false (fun hmem => ?_) (by simp)
      obtain ⟨e, he, heq⟩ := List.mem_map.1 hmem
      rw [(hlast e).2 ⟨he, by rw [heq]⟩] at hcase
      cases hcase
    | some e =>
      obtain ⟨i, time', m'⟩ := e
      obtain ⟨hmem, rfl⟩ := (hlast _).1 hcase
      constructor
      · intro hmem'
        obtain ⟨⟨i', e'⟩, he', rfl⟩ := List.mem_map.1 hmem'
        have hsame := (hlast (i', _, m)).2 ⟨he', rfl⟩
        rw [hcase] at hsame
        obtain ⟨-, rfl⟩ : i = i' ∧ m' = m := by simpa using hsame
        rfl
      · intro hm
        obtain rfl := Option.some.inj hm
        exact List.mem_map.2 ⟨_, hmem, rfl⟩
  · obtain ⟨m, hm⟩ := htime
    obtain ⟨e, he, heq⟩ := List.mem_map.1 hm
    obtain ⟨task, -, sample, -, hfill⟩ := exists_sample_of_mem_inserts he
    simp only [FillTask.fillVariableValues, Except.bind_eq_ok] at hfill
    obtain ⟨offsets, -, values, -, hret⟩ := hfill
    rw [← Except.ok.inj hret] at heq
    obtain rfl : ((sample.time.asFemtoseconds : ℕ) : ℤ) = time := congrArg Prod.fst heq
    exact Int.natCast_nonneg _

/-! ## The two halves -/

namespace Holds

variable (h : q.Holds samples)

include h

theorem mem_keys_iff : time ∈ q.variableValues.keys ↔ time ∈ samples.times := by
  rw [← FiniteMap.isSome_get_iff, Option.isSome_iff_exists]
  exact exists_congr fun m => h.mem_iff.symm

/-- There is one sample for a time. -/
theorem eq_of_mem {m' : ValueMap} (hm : (time, m) ∈ samples) (hm' : (time, m') ∈ samples) : m = m' :=
  Option.some.inj ((h.mem_iff.1 hm).symm.trans (h.mem_iff.1 hm'))

theorem lastBefore_eq_some_iff :
    q.lastBefore queryTime = some time ↔ IsGreatest (samples.times ∩ Set.Iio queryTime) time := by
  rw [lastBefore, List.max?_eq_some_iff]
  simp only [List.mem_filter, decide_eq_true_eq, h.mem_keys_iff, IsGreatest, upperBounds, Set.mem_inter_iff,
    Set.mem_Iio, Set.mem_ofPred_eq]

theorem firstFrom_eq_some_iff :
    q.firstFrom queryTime = some time ↔ IsLeast (samples.times ∩ Set.Ici queryTime) time := by
  rw [firstFrom, List.min?_eq_some_iff]
  simp only [List.mem_filter, decide_eq_true_eq, h.mem_keys_iff, IsLeast, lowerBounds, Set.mem_inter_iff,
    Set.mem_Ici, Set.mem_ofPred_eq]

/-- Without a sample before the time, or without a value in the last one, the answer is empty. -/
theorem query_eq_default (hnone : ¬ samples.HasLastValue var (Set.Iio queryTime)) :
    q.query var queryTime = .default := by
  rw [query]
  cases hlast : q.lastBefore queryTime with
  | none => rfl
  | some time =>
    have hgreatest := h.lastBefore_eq_some_iff.1 hlast
    obtain ⟨m, hm⟩ := hgreatest.1.1
    have hvalue : m.get (variableKey var) = none := by
      rw [← Option.not_isSome_iff_eq_none]
      exact fun hsome => hnone ⟨time, m, hgreatest, hm, hsome⟩
    simp only [h.mem_iff.1 hm, Option.bind_some, hvalue]
    cases toBigUint time <;> rfl

/-- With a value in the last sample before the time, the answer is that, and the first time from there on. -/
theorem query_eq_of_value {time : ℕ} {value : VariableValue}
    (hgreatest : IsGreatest (samples.times ∩ Set.Iio queryTime) (time : ℤ)) (hm : ((time : ℤ), m) ∈ samples)
    (hvalue : m.get (variableKey var) = some value) :
    q.query var queryTime
      = { current := some (time, value), next := (q.firstFrom queryTime).bind toBigUint } := by
  rw [query, h.lastBefore_eq_some_iff.2 hgreatest]
  have htime : toBigUint time = some time := by simp [toBigUint]
  simp only [htime, h.mem_iff.1 hm, Option.bind_some, hvalue]

/-- A value in the last of some samples, with its time. -/
theorem exists_of_hasLastValue {s : Set ℤ} (hvalue : samples.HasLastValue var s) :
    ∃ (time : ℕ) (m : ValueMap) (value : VariableValue), IsGreatest (samples.times ∩ s) (time : ℤ) ∧
      ((time : ℤ), m) ∈ samples ∧ m.get (variableKey var) = some value := by
  obtain ⟨time, m, hgreatest, hm, hsome⟩ := hvalue
  obtain ⟨value, hvalue⟩ := Option.isSome_iff_exists.1 hsome
  obtain ⟨time, rfl⟩ := Int.eq_ofNat_of_zero_le (h.nonneg hgreatest.1.1)
  exact ⟨time, m, value, hgreatest, hm, hvalue⟩

/-- When there are samples after a time, one of them is the first. -/
theorem exists_isLeast_of_after {time : ℤ} (htime : time ∈ samples.times) (hlt : queryTime < time) :
    ∃ first : ℕ, IsLeast (samples.times ∩ Set.Ioi queryTime) (first : ℤ) := by
  have hsome : (q.firstFrom (queryTime + 1)).isSome := by
    rw [firstFrom, List.isSome_min?_iff]
    exact List.ne_nil_of_mem (List.mem_filter.2 ⟨h.mem_keys_iff.2 htime, decide_eq_true hlt⟩)
  obtain ⟨first, hfirst⟩ := Option.isSome_iff_exists.1 hsome
  have hleast := h.firstFrom_eq_some_iff.1 hfirst
  have hsame : Set.Ici (queryTime + 1) = Set.Ioi queryTime := by
    ext k
    exact Int.add_one_le_iff
  rw [hsame] at hleast
  obtain ⟨first, rfl⟩ := Int.eq_ofNat_of_zero_le (h.nonneg hleast.1.1)
  exact ⟨first, hleast⟩

/-- An empty answer is right when there is neither a value nor a sample after the time. -/
theorem answers_default_iff : samples.Answers var queryTime .default ↔
    (∀ time ∈ samples.times, time ≤ queryTime) ∧ ¬ samples.HasLastValue var (Set.Iic queryTime) := by
  constructor
  · refine fun hanswers => ⟨fun time htime => ?_, fun hvalue => ?_⟩
    · by_contra hlt
      obtain ⟨first, hfirst⟩ := h.exists_isLeast_of_after htime (not_le.1 hlt)
      have hnext := (hanswers.next first).2 hfirst
      cases hnext
    · obtain ⟨time, m, value, hgreatest, hm, hvalue⟩ := h.exists_of_hasLastValue hvalue
      have hcurrent := (hanswers.current time value).2 ⟨hgreatest, m, hm, hvalue⟩
      cases hcurrent
  · rintro ⟨hafter, hnone⟩
    refine ⟨fun time value => iff_of_false nofun ?_, fun time => iff_of_false nofun ?_⟩
    · rintro ⟨hgreatest, m, hm, hvalue⟩
      exact hnone ⟨time, m, hgreatest, hm, by rw [hvalue]; rfl⟩
    · intro hleast
      exact absurd (hafter _ hleast.1.1) (not_le.2 hleast.1.2)

/-- An answer with the value in the last sample before the time is right unless there is a sample at it. -/
theorem answers_of_value_iff (hvalue : samples.HasLastValue var (Set.Iio queryTime)) :
    samples.Answers var queryTime (q.query var queryTime) ↔ queryTime ∉ samples.times := by
  obtain ⟨time, m, value, hgreatest, hm, hvalue⟩ := h.exists_of_hasLastValue hvalue
  rw [h.query_eq_of_value hgreatest hm hvalue]
  constructor
  · intro hanswers hmem
    -- the sample at the time would be the last one
    have hcurrent := ((hanswers.current time value).1 rfl).1.2 ⟨hmem, Set.mem_Iic.2 le_rfl⟩
    exact absurd hgreatest.1.2 (not_lt.2 hcurrent)
  · intro hnot
    have hle : samples.times ∩ Set.Iic queryTime = samples.times ∩ Set.Iio queryTime := by
      ext k
      rw [Set.mem_inter_iff, Set.mem_inter_iff, Set.mem_Iic, Set.mem_Iio]
      refine and_congr_right fun hk => ⟨fun hle => hle.lt_of_ne ?_, le_of_lt⟩
      rintro rfl
      exact hnot hk
    have hge : samples.times ∩ Set.Ici queryTime = samples.times ∩ Set.Ioi queryTime := by
      ext k
      rw [Set.mem_inter_iff, Set.mem_inter_iff, Set.mem_Ici, Set.mem_Ioi]
      refine and_congr_right fun hk => ⟨fun hle => hle.lt_of_ne ?_, le_of_lt⟩
      rintro rfl
      exact hnot hk
    refine ⟨fun time' value' => ?_, fun next => ?_⟩
    · rw [hle]
      constructor
      · intro heq
        obtain ⟨rfl, rfl⟩ : time = time' ∧ value = value' := by simpa using heq
        exact ⟨hgreatest, m, hm, hvalue⟩
      · rintro ⟨hgreatest', m', hm', hvalue'⟩
        obtain rfl : time = time' := by exact_mod_cast hgreatest.unique hgreatest'
        obtain rfl := h.eq_of_mem hm hm'
        rw [Option.some.inj (hvalue.symm.trans hvalue')]
    · rw [← hge, ← h.firstFrom_eq_some_iff, Option.bind_eq_some_iff]
      constructor
      · rintro ⟨first, hfirst, hnext⟩
        rw [toBigUint] at hnext
        obtain ⟨hpos, rfl⟩ := Option.ite_none_right_eq_some.1 hnext |>.imp_right Option.some.inj
        rwa [Int.toNat_of_nonneg hpos]
      · exact fun hfirst => ⟨next, hfirst, by simp [toBigUint]⟩

end Holds

/-- The answer of a query is what it should be exactly when there is no sample at the time of the query and
the last sample before it has a value of the variable; or when there is no sample after the time, and the
variable has a value neither in the last sample before it nor in the last one at or before it. -/
theorem query_answers_iff (decode : String → Option (List UInt8)) (tasks : List FillTask)
    (works : List (ℕ × ℕ)) (hdistinct : ((samplesOf decode tasks works).map Prod.fst).Nodup)
    (var : VariableRef) (queryTime : ℤ) :
    (samplesOf decode tasks works).Answers var queryTime ((filled decode tasks works).query var queryTime) ↔
      queryTime ∉ (samplesOf decode tasks works).times ∧
          (samplesOf decode tasks works).HasLastValue var (Set.Iio queryTime) ∨
        (∀ time ∈ (samplesOf decode tasks works).times, time ≤ queryTime) ∧
          ¬ (samplesOf decode tasks works).HasLastValue var (Set.Iio queryTime) ∧
          ¬ (samplesOf decode tasks works).HasLastValue var (Set.Iic queryTime) := by
  have h := holds_filled hdistinct
  by_cases hvalue : (samplesOf decode tasks works).HasLastValue var (Set.Iio queryTime)
  · rw [h.answers_of_value_iff hvalue]
    tauto
  · rw [h.query_eq_default hvalue, h.answers_default_iff]
    tauto

/-- A task for one signal, with a sample at the start and one ten femtoseconds later. -/
def clockTask : FillTask :=
  { vars := [topSignal "clk"]
    itemInfo := FiniteMap.empty.insert (["top"], "clk") { width := 1 }
    data := [{ time := .zero, itemValues := "AQAAAA==" },
      { time := .fromFemtoseconds 10, itemValues := "AQAAAA==" }]
    panicked := false }

/-- The value of the signal in both samples. -/
def clockValues : ValueMap := FiniteMap.empty.insert (["top"], "clk") (.bigUint 1)

/-- Between the two samples the answer is right. -/
theorem query_answers_iff_between :
    Samples.Answers [(0, clockValues), (10, clockValues)] (topSignal "clk") 5
      ((filled (fun _ => some [1, 0, 0, 0]) [clockTask] [(0, 0), (0, 0)]).query (topSignal "clk") 5) := by
  have hsamples : samplesOf (fun _ => some [1, 0, 0, 0]) [clockTask] [(0, 0), (0, 0)]
      = [(0, clockValues), (10, clockValues)] := by rfl
  have hanswers := query_answers_iff (fun _ => some [1, 0, 0, 0]) [clockTask] [(0, 0), (0, 0)]
    (by rw [hsamples]; decide) (topSignal "clk") 5
  rw [hsamples] at hanswers
  refine hanswers.2 (.inl ⟨by simp [Samples.times], 0, clockValues, ⟨by simp [Samples.times], ?_⟩, by simp, rfl⟩)
  rintro time ⟨⟨m, hm⟩, hlt⟩
  rw [Set.mem_Iio] at hlt
  simp only [List.mem_cons, Prod.mk.injEq, List.not_mem_nil, or_false] at hm
  omega

/-- At the time of a sample the query answers with that time as the next one. -/
theorem not_query_answers_atSample :
    ¬ ∀ (decode : String → Option (List UInt8)) (tasks : List FillTask) (works : List (ℕ × ℕ)),
      ((samplesOf decode tasks works).map Prod.fst).Nodup → ∀ (var : VariableRef) (queryTime : ℤ),
        (samplesOf decode tasks works).Answers var queryTime
          ((filled decode tasks works).query var queryTime) := by
  intro hall
  have hanswers := hall (fun _ => some [1, 0, 0, 0]) [clockTask] [(0, 0), (0, 0)] (by decide)
    (topSignal "clk") 10
  have hnext : ((filled (fun _ => some [1, 0, 0, 0]) [clockTask] [(0, 0), (0, 0)]).query
      (topSignal "clk") 10).next = some 10 := by decide
  exact lt_irrefl _ (Set.mem_Ioi.1 ((hanswers.next 10).1 hnext).1.2)

end QueryContainer

end Cxxrtl
