import Kahuna.Cxxrtl.QueryContainer

/-!
# Two replies with samples

Each reply with samples is unpacked by a task of its own. The tasks run next to each other and write to the
same map, one time after the other and in any order. What a query finds at a time is what was inserted there
last, whichever task has done it.

- `get_workAll`: the values at a time are those that were inserted there last.
- `later_content_iff`: the content is that of the later reply when, at each of its times, no task inserts
  other values after it.
-/

namespace Cxxrtl

open Wave (VariableRef)

namespace QueryContainer

variable {decode : String → Option (List UInt8)} {q : QueryContainer}

/-- What a worker inserts: the task, the time and the values. -/
def inserted (decode : String → Option (List UInt8)) (q : QueryContainer) (i j : ℕ) :
    Option (ℕ × ℤ × ValueMap) :=
  q.tasks[i]?.bind fun task => task.data[j]?.bind fun sample =>
    (task.fillVariableValues decode sample).toOption.map fun entry => (i, entry)

/-- The container after the steps of some workers. -/
def workAll (decode : String → Option (List UInt8)) (q : QueryContainer) (works : List (ℕ × ℕ)) :
    QueryContainer :=
  works.foldl (fun q w => q.work decode w.1 w.2) q

/-- What the workers insert, in their order. -/
def inserts (decode : String → Option (List UInt8)) : QueryContainer → List (ℕ × ℕ) → List (ℕ × ℤ × ValueMap)
  | _, [] => []
  | q, w :: works => (q.inserted decode w.1 w.2).toList ++ inserts decode (q.work decode w.1 w.2) works

/-- What was inserted last at a time. -/
def lastInsert (inserts : List (ℕ × ℤ × ValueMap)) (time : ℤ) : Option (ℕ × ℤ × ValueMap) :=
  (inserts.filter fun e => e.2.1 == time).getLast?

/-- A worker inserts the values of its sample, or nothing. -/
theorem get_work (i j : ℕ) (time : ℤ) :
    (q.work decode i j).variableValues.get time =
      match q.inserted decode i j with
      | some (_, t, values) => if time = t then some values else q.variableValues.get time
      | none => q.variableValues.get time := by
  unfold work inserted
  cases htask : q.tasks[i]? with
  | none => rfl
  | some task =>
    cases hsample : task.data[j]? with
    | none => simp [hsample]
    | some sample =>
      cases hfill : task.fillVariableValues decode sample with
      | error _ => simp [hsample, hfill, Except.toOption]
      | ok entry =>
        obtain ⟨t, values⟩ := entry
        simp [hsample, hfill, Except.toOption, insert, FiniteMap.get_insert]

theorem lastInsert_append (as bs : List (ℕ × ℤ × ValueMap)) (time : ℤ) :
    lastInsert (as ++ bs) time = (lastInsert bs time).or (lastInsert as time) := by
  rw [lastInsert, List.filter_append, List.getLast?_append]
  rfl

/-- The values at a time are those that were inserted there last, or were there before. -/
theorem get_workAll (works : List (ℕ × ℕ)) (time : ℤ) :
    (q.workAll decode works).variableValues.get time =
      match lastInsert (inserts decode q works) time with
      | some (_, _, values) => some values
      | none => q.variableValues.get time := by
  induction works generalizing q with
  | nil => rfl
  | cons w works ih =>
    show ((q.work decode w.1 w.2).workAll decode works).variableValues.get time = _
    rw [ih, inserts, lastInsert_append]
    cases hlast : lastInsert (inserts decode (q.work decode w.1 w.2) works) time with
    | some _ => rfl
    | none =>
      simp only [Option.none_or, get_work]
      cases hinserted : q.inserted decode w.1 w.2 with
      | none => rfl
      | some e =>
        obtain ⟨i, t, values⟩ := e
        by_cases htime : t = time
        · simp [lastInsert, htime]
        · simp [lastInsert, htime, Ne.symm htime]

/-- What a task makes of a sample depends on its variables and items. -/
theorem fillVariableValues_congr {task task' : FillTask} (hvars : task'.vars = task.vars)
    (hinfo : task'.itemInfo = task.itemInfo) (sample : CxxrtlSample) :
    task'.fillVariableValues decode sample = task.fillVariableValues decode sample := by
  rw [FillTask.fillVariableValues, FillTask.fillVariableValues, hvars, hinfo]

/-- A task keeps its variables and items, and has some of its samples left. -/
theorem exists_task_of_work {i j k : ℕ} {task' : FillTask} (h : (q.work decode i j).tasks[k]? = some task') :
    ∃ task, q.tasks[k]? = some task ∧ task'.vars = task.vars ∧ task'.itemInfo = task.itemInfo ∧
      ∀ sample ∈ task'.data, sample ∈ task.data := by
  unfold work at h
  split at h
  · exact ⟨task', h, rfl, rfl, fun _ hs => hs⟩
  next task htask =>
    split at h
    · exact ⟨task', h, rfl, rfl, fun _ hs => hs⟩
    · have hset : ∀ left : FillTask, left.vars = task.vars → left.itemInfo = task.itemInfo →
          (∀ sample ∈ left.data, sample ∈ task.data) → (q.tasks.set i left)[k]? = some task' →
          ∃ task, q.tasks[k]? = some task ∧ task'.vars = task.vars ∧ task'.itemInfo = task.itemInfo ∧
            ∀ sample ∈ task'.data, sample ∈ task.data := by
        intro left hvars hinfo hdata hget
        rw [List.getElem?_set] at hget
        split at hget
        next hik =>
          subst hik
          obtain ⟨-, hget⟩ := Option.ite_none_right_eq_some.1 hget
          obtain rfl := Option.some.inj hget
          exact ⟨task, htask, hvars, hinfo, hdata⟩
        next => exact ⟨task', hget, rfl, rfl, fun _ hs => hs⟩
      split at h
      · exact hset { task with data := task.data.eraseIdx j, panicked := true } rfl rfl
          (fun _ hs => List.mem_of_mem_eraseIdx hs) h
      · exact hset { task with data := task.data.eraseIdx j } rfl rfl
          (fun _ hs => List.mem_of_mem_eraseIdx hs) h

/-- Whatever is inserted, a task has made it of one of its samples. -/
theorem exists_sample_of_mem_inserts {works : List (ℕ × ℕ)} {e : ℕ × ℤ × ValueMap}
    (h : e ∈ inserts decode q works) :
    ∃ task, q.tasks[e.1]? = some task ∧
      ∃ sample ∈ task.data, task.fillVariableValues decode sample = .ok e.2 := by
  induction works generalizing q with
  | nil => exact absurd h List.not_mem_nil
  | cons w works ih =>
    rw [inserts, List.mem_append, Option.mem_toList] at h
    rcases h with h | h
    · simp only [inserted, Option.bind_eq_some_iff, Option.map_eq_some_iff] at h
      obtain ⟨task, htask, sample, hsample, entry, hentry, rfl⟩ := h
      refine ⟨task, htask, sample, List.mem_of_getElem? hsample, ?_⟩
      match hfill : task.fillVariableValues decode sample with
      | .ok _ =>
        rw [hfill] at hentry
        exact congrArg Except.ok (Option.some.inj hentry)
      | .error _ =>
        rw [hfill] at hentry
        cases hentry
    · obtain ⟨task', htask', sample, hsample, hfill⟩ := ih h
      obtain ⟨task, htask, hvars, hinfo, hdata⟩ := exists_task_of_work htask'
      exact ⟨task, htask, sample, hdata sample hsample, by
        rw [← fillVariableValues_congr hvars hinfo]
        exact hfill⟩

/-- A query whose last time before it is the given one is answered with the values there. -/
theorem query_current {var : VariableRef} {queryTime : ℤ} {time : ℕ} {m : ValueMap}
    (hget : q.variableValues.get time = some m) (hlast : q.lastBefore queryTime = some (time : ℤ)) :
    (q.query var queryTime).current = (m.get (variableKey var)).map fun v => (time, v) := by
  have htime : toBigUint time = some time := by simp [toBigUint]
  rw [query, hlast]
  simp only [htime, hget, Option.bind_some]
  cases m.get (variableKey var) with
  | none => rfl
  | some _ => rfl

end QueryContainer

/-! ## Two calls -/

/-- The values are those that a task makes of one of its samples for the time. -/
def FillTask.Has (decode : String → Option (List UInt8)) (task : FillTask) (time : ℤ) (m : ValueMap) : Prop :=
  ∃ sample ∈ task.data, ∃ values, task.fillVariableValues decode sample = .ok (time, values) ∧
    ∀ k, m.get k = values.get k

/-- At the time of a sample the container has the values of the task, and queries find them. -/
def QueryContainer.Shows (decode : String → Option (List UInt8)) (q : QueryContainer) (task : FillTask)
    (time : ℕ) : Prop :=
  ∃ m, q.variableValues.get time = some m ∧ task.Has decode time m ∧
    ∀ var queryTime, q.lastBefore queryTime = some (time : ℤ) →
      (q.query var queryTime).current = (m.get (variableKey var)).map fun v => (time, v)

open QueryContainer

/-- After two calls of `populate`, and any steps of the tasks, the content at the times of the later call is
that of the later call exactly when, at each of these times, what was inserted last is from the later call,
or is the same as what the later call has there. -/
theorem later_content_iff (decode : String → Option (List UInt8)) (q : QueryContainer)
    (vars vars' : List VariableRef) (itemInfo itemInfo' : ItemMap) (data data' : List CxxrtlSample)
    (works : List (ℕ × ℕ)) :
    (∀ sample ∈ data', (((q.populate vars itemInfo data).populate vars' itemInfo' data').workAll decode
        works).Shows decode { vars := vars', itemInfo := itemInfo', data := data', panicked := false }
        sample.time.asFemtoseconds) ↔
      ∀ sample ∈ data',
        match lastInsert (inserts decode ((q.populate vars itemInfo data).populate vars' itemInfo' data')
          works) sample.time.asFemtoseconds with
        | some (i, _, m) => i = q.tasks.length + 1 ∨
          FillTask.Has decode { vars := vars', itemInfo := itemInfo', data := data', panicked := false }
            sample.time.asFemtoseconds m
        | none => ∃ m, q.variableValues.get sample.time.asFemtoseconds = some m ∧
          FillTask.Has decode { vars := vars', itemInfo := itemInfo', data := data', panicked := false }
            sample.time.asFemtoseconds m := by
  let later : FillTask := { vars := vars', itemInfo := itemInfo', data := data', panicked := false }
  let start := (q.populate vars itemInfo data).populate vars' itemInfo' data'
  refine forall₂_congr fun sample _ => ?_
  have hget : (start.workAll decode works).variableValues.get sample.time.asFemtoseconds = _ :=
    get_workAll works sample.time.asFemtoseconds
  have hshows : (start.workAll decode works).Shows decode later sample.time.asFemtoseconds ↔
      ∃ m, (start.workAll decode works).variableValues.get sample.time.asFemtoseconds = some m ∧
        later.Has decode sample.time.asFemtoseconds m :=
    ⟨fun ⟨m, hm, hhas, _⟩ => ⟨m, hm, hhas⟩,
      fun ⟨m, hm, hhas⟩ => ⟨m, hm, hhas, fun _ _ hlast => query_current hm hlast⟩⟩
  show (start.workAll decode works).Shows decode later sample.time.asFemtoseconds ↔ _
  rw [hshows, hget]
  match hlast : lastInsert (inserts decode start works) sample.time.asFemtoseconds with
  | none => exact Iff.rfl
  | some (i, t, m) =>
    refine ⟨fun ⟨m', hm', hhas⟩ => .inr ?_, fun h => ⟨m, rfl, ?_⟩⟩
    · obtain rfl := Option.some.inj hm'
      exact hhas
    · rcases h with rfl | hhas
      · -- what the later task has inserted is made of one of its samples
        obtain ⟨hmem, htime⟩ := List.mem_filter.1 (List.mem_of_getLast? hlast)
        obtain ⟨task, htask, sample', hsample', hfill⟩ := exists_sample_of_mem_inserts hmem
        have htasks : start.tasks[q.tasks.length + 1]? = some later := by
          show (q.tasks ++ [_] ++ [later])[q.tasks.length + 1]? = _
          rw [List.getElem?_append_right (by simp)]
          simp
        obtain rfl := Option.some.inj (htasks.symm.trans htask)
        obtain rfl := eq_of_beq htime
        exact ⟨sample', hsample', m, hfill, fun _ => rfl⟩
      · exact hhas

/-- Two items of eight bits. -/
def twoItems : ItemMap :=
  (FiniteMap.empty.insert (["top"], "clk") { width := 8 }).insert (["top"], "rst") { width := 8 }

/-- A sample with the values of both. -/
def twoValues : CxxrtlSample := { time := .zero, itemValues := "AQAAAAIAAAA=" }

/-- The task for both variables. -/
def laterTask : FillTask :=
  { vars := [topSignal "clk", topSignal "rst"], itemInfo := twoItems, data := [twoValues], panicked := false }

/-- A task for the first variable inserts after that for both. -/
def overtaken : QueryContainer :=
  ((QueryContainer.empty.populate [topSignal "clk"] twoItems [twoValues]).populate laterTask.vars twoItems
    [twoValues]).workAll (fun _ => some [1, 0, 0, 0, 2, 0, 0, 0]) [(1, 0), (0, 0)]

/-- A variable is added between two calls, and the task of the earlier call inserts last. At the time of
both, the new variable has no value. -/
theorem later_content_overwritten :
    ¬ ∀ (decode : String → Option (List UInt8)) (q : QueryContainer) (vars vars' : List VariableRef)
      (itemInfo itemInfo' : ItemMap) (data data' : List CxxrtlSample) (works : List (ℕ × ℕ)),
      (∀ task ∈ (((q.populate vars itemInfo data).populate vars' itemInfo' data').workAll decode works).tasks,
        task.Ended) →
      ∀ sample ∈ data', (((q.populate vars itemInfo data).populate vars' itemInfo' data').workAll decode
        works).Shows decode { vars := vars', itemInfo := itemInfo', data := data', panicked := false }
        sample.time.asFemtoseconds := by
  intro hall
  have hended : ∀ task ∈ overtaken.tasks, task.Ended := by
    intro task htask
    have hdata : overtaken.tasks.map FillTask.data = [[], []] := by rfl
    have hmem := List.mem_map_of_mem (f := FillTask.data) htask
    rw [hdata] at hmem
    exact .inl (by simpa using hmem)
  obtain ⟨m, hget, ⟨sample, hsample, values, hfill, hsame⟩, -⟩ :=
    hall _ .empty [topSignal "clk"] [topSignal "clk", topSignal "rst"] twoItems twoItems [twoValues] [twoValues]
      [(1, 0), (0, 0)] hended twoValues (List.mem_singleton_self _)
  obtain rfl := List.mem_singleton.1 hsample
  have hget : overtaken.variableValues.get 0 = some m := hget
  have hfill : laterTask.fillVariableValues (fun _ => some [1, 0, 0, 0, 2, 0, 0, 0]) twoValues =
      .ok (0, values) := hfill
  have hnone : (overtaken.variableValues.get 0).map (fun m => m.get (["top"], "rst")) = some none := by rfl
  have htwo : (laterTask.fillVariableValues (fun _ => some [1, 0, 0, 0, 2, 0, 0, 0]) twoValues).toOption.map
      (fun e => e.2.get (["top"], "rst")) = some (some (.bigUint 2)) := by rfl
  rw [hget] at hnone
  rw [hfill] at htwo
  have habsurd := (Option.some.inj hnone).symm.trans ((hsame _).trans (Option.some.inj htwo))
  cases habsurd

end Cxxrtl
