import Kahuna.MemoryViewer.Basic

/-!
# What a wave container answers

Drawing asks the wave container for variables and values. A container that is connected to a CXXRTL server
sends commands when it is asked, so it is another one afterwards, but it would answer as before: new data
comes with the messages of the server only.

- `Like`: containers that give the same answers.
- `Source.rows`: the rows for the answers of the container as it is.
- `computeRows_asks`: they are the rows that are computed.
-/

namespace Cxxrtl

open Wave (ScopeRef VariableRef)

theorem CachedData.fetchIfNeeded_fst {α σ : Type} (c : CachedData α) (f : σ → σ) (s : σ) :
    (c.fetchIfNeeded f s).1 = c.get := by
  match c with
  | .uncached _ | .waiting _ | .filled _ => rfl

namespace CxxrtlContainer

/-- Containers that hold the same data. -/
structure SameData (c c' : CxxrtlContainer) : Prop where
  moduleItems (strs : List String) : ((c'.data.moduleItemCache.get strs).getD .empty).get =
    ((c.data.moduleItemCache.get strs).getD .empty).get
  allItems : c'.data.allItemsCache.get = c.data.allItemsCache.get
  status : c'.data.simulationStatus.get = c.data.simulationStatus.get
  queryResult : c'.data.queryResult.get = c.data.queryResult.get
  values : c'.data.intervalQueryCache = c.data.intervalQueryCache

variable {c c' c'' : CxxrtlContainer}

theorem SameData.refl (c : CxxrtlContainer) : SameData c c := ⟨fun _ => rfl, rfl, rfl, rfl, rfl⟩

theorem SameData.trans (h : SameData c c') (h' : SameData c' c'') : SameData c c'' where
  moduleItems strs := (h'.moduleItems strs).trans (h.moduleItems strs)
  allItems := h'.allItems.trans h.allItems
  status := h'.status.trans h.status
  queryResult := h'.queryResult.trans h.queryResult
  values := h'.values.trans h.values

/-- A cache that waits holds what it held before. -/
theorem Send.sameData {cb : Callback} (h : Send c cb c') : SameData c c' := by
  match h with
  | .listScopes _ | .runSimulation _ | .pauseSimulation => exact ⟨fun _ => rfl, rfl, rfl, rfl, rfl⟩
  | .listItems hcache => exact ⟨fun _ => rfl, by rw [hcache]; rfl, rfl, rfl, rfl⟩
  | .listItemsIn scope hcache =>
    refine ⟨fun strs => ?_, rfl, rfl, rfl, rfl⟩
    show (((c.data.moduleItemCache.insert scope _).get strs).getD .empty).get = _
    rw [FiniteMap.get_insert]
    split
    next heq =>
      rw [heq, hcache]
      rfl
    next => rfl
  | .getSimulationStatus hcache => exact ⟨fun _ => rfl, rfl, by rw [hcache]; rfl, rfl, rfl⟩
  | .queryInterval hcache _ _ => exact ⟨fun _ => rfl, rfl, rfl, by rw [hcache]; rfl, rfl⟩
  | .referenceItems vars =>
    obtain ⟨loadedSignals, signalIndexMap, heq⟩ := exists_foldl_addSignal vars c.data
    refine ⟨fun strs => ?_, ?_, ?_, ?_, ?_⟩
    all_goals simp only [send, heq]

/-- A call sends commands, and changes no data. -/
theorem sameData_call (c : CxxrtlContainer) (call : Call) : SameData c (call.apply c) :=
  call.keeps (.refl c) fun _ _ _ hc _ hsend => hc.trans hsend.sameData

theorem variablesInModule_fst (c : CxxrtlContainer) (module : ScopeRef) :
    (c.variablesInModule module).1 =
      (((c.data.moduleItemCache.get module.strs).getD .empty).get.getD FiniteMap.empty).keys.map fun k =>
        { path := { strs := k.1, id := none }, name := k.2, id := none, index := none } := by
  simp only [variablesInModule, fetchItemsInModule, CachedData.fetchIfNeeded_fst]

theorem variableMeta_fst (c : CxxrtlContainer) (var : VariableRef) :
    (c.variableMeta var).1 =
      (c.data.allItemsCache.get.bind fun d => d.get (variableKey var)).map CxxrtlItem.width := by
  simp only [variableMeta, fetchItem, fetchAllItems, CachedData.fetchIfNeeded_fst]

theorem queryVariable_fst (c : CxxrtlContainer) (var : VariableRef) (time : ℕ) :
    (c.queryVariable var time).1 = c.data.simulationStatus.get.bind fun _ =>
      c.data.allItemsCache.get.map fun _ =>
        (c.data.queryResult.get.map fun _ => c.data.intervalQueryCache.query var time).getD .default := by
  have hmax : c.maxTimestamp.1 = c.data.simulationStatus.get.map CxxrtlSimulationStatus.latestTime :=
    maxTimestamp_fst
  unfold queryVariable
  rcases htime : c.maxTimestamp with ⟨_ | maxTimestamp, c₁⟩
  all_goals rw [htime] at hmax
  · rw [Option.map_eq_none_iff.1 hmax.symm]
    rfl
  obtain ⟨status, hstatus, -⟩ := Option.map_eq_some_iff.1 hmax.symm
  have hitems : c₁.fetchAllItems.1 = c.data.allItemsCache.get :=
    fetchAllItems_send.2.1.trans (congrArg (fun p => p.2.data.allItemsCache.get) htime).symm
  dsimp only
  rcases hfetch : c₁.fetchAllItems with ⟨_ | info, c₂⟩
  all_goals rw [hfetch] at hitems
  · rw [hstatus, ← hitems]
    rfl
  -- the other caches are as they were
  have hqueryResult : c₂.data.queryResult = c.data.queryResult :=
    (congrArg (fun p => p.2.data.queryResult) hfetch).symm.trans
      (congrArg (fun p => p.2.data.queryResult) htime).symm
  have hvalues : c₂.data.intervalQueryCache = c.data.intervalQueryCache :=
    (congrArg (fun p => p.2.data.intervalQueryCache) hfetch).symm.trans
      (congrArg (fun p => p.2.data.intervalQueryCache) htime).symm
  rw [hstatus, ← hitems]
  simp only [CachedData.fetchIfNeeded_fst, hqueryResult, hvalues]
  rfl

end CxxrtlContainer

end Cxxrtl

namespace MemoryViewer

open Wave Wellen Asking
open Cxxrtl (Call CxxrtlContainer QueryResult)

namespace WaveContainer

variable {w w' : WaveContainer}

/-- The variables of a scope, as the container has them. -/
def vars (w : WaveContainer) (scope : ScopeRef) : List VariableRef := (w.variablesInScope scope).1

/-- What the container answers to a query. -/
def query (w : WaveContainer) (var : VariableRef) (time : ℕ) : Run (Option QueryResult) :=
  Prod.fst <$> w.queryVariable var time

/-- What the container answers when it is asked for the metadata of a variable. -/
def metadata (w : WaveContainer) (var : VariableRef) : Run (Option VariableMeta) :=
  Prod.fst <$> w.variableMeta var

/-- Containers that give the same answers. -/
structure Like (w w' : WaveContainer) : Prop where
  vars (scope : ScopeRef) : w'.vars scope = w.vars scope
  query (var : VariableRef) (time : ℕ) : w'.query var time = w.query var time
  metadata (var : VariableRef) : w'.metadata var = w.metadata var

instance : Std.Refl Like := ⟨fun _ => ⟨fun _ => rfl, fun _ _ => rfl, fun _ => rfl⟩⟩

instance : IsTrans WaveContainer Like where
  trans _ _ _ h h' :=
    { vars scope := (h'.vars scope).trans (h.vars scope)
      query var time := (h'.query var time).trans (h.query var time)
      metadata var := (h'.metadata var).trans (h.metadata var) }

theorem Like.symm (h : Like w w') : Like w' w :=
  ⟨fun scope => (h.vars scope).symm, fun var time => (h.query var time).symm,
    fun var => (h.metadata var).symm⟩

/-- A CXXRTL container answers from its data. -/
theorem like_of_sameData {c c' : CxxrtlContainer} (h : c.SameData c') :
    Like (.cxxrtl c) (.cxxrtl c') where
  vars scope := by
    show (c'.variablesInModule scope).1 = (c.variablesInModule scope).1
    rw [c'.variablesInModule_fst, c.variablesInModule_fst, h.moduleItems]
  query var time := by
    show Except.ok (c'.queryVariable var time).1 = Except.ok (c.queryVariable var time).1
    rw [c'.queryVariable_fst, c.queryVariable_fst, h.status, h.allItems, h.queryResult, h.values]
  metadata var := by
    show Except.ok (some (VariableMeta.mk var ((c'.variableMeta var).1.map UInt32.toNat) none)) =
      Except.ok (some (VariableMeta.mk var ((c.variableMeta var).1.map UInt32.toNat) none))
    rw [c'.variableMeta_fst, c.variableMeta_fst, h.allItems]

/-- The calls of a CXXRTL container change none of its answers. -/
theorem like_onCxxrtl (call : Call) (w : WaveContainer) : Like w (w.onCxxrtl call.apply) := by
  match w with
  | .wellen _ _ | .empty => exact Std.Refl.refl _
  | .cxxrtl c => exact like_of_sameData (c.sameData_call call)

theorem variablesInScope_eq (w : WaveContainer) (scope : ScopeRef) :
    w.variablesInScope scope = (w.vars scope, w.onCxxrtl (Call.variablesInModule scope).apply) := by
  match w with
  | .wellen _ _ | .empty | .cxxrtl _ => rfl

theorem queryVariable_asks (w : WaveContainer) (var : VariableRef) (time : ℕ) :
    Asks Like w (w.query var time) (w.queryVariable var time) where
  answer := rfl
  kept {a w'} h := by
    match w with
    | .wellen f declared =>
      obtain ⟨result, -, h⟩ := Except.bind_eq_ok.1 h
      cases h
      exact Std.Refl.refl _
    | .empty =>
      cases h
      exact Std.Refl.refl _
    | .cxxrtl c =>
      cases h
      exact like_onCxxrtl (.queryVariable var time) (.cxxrtl c)

theorem variableMeta_asks (w : WaveContainer) (var : VariableRef) :
    Asks Like w (w.metadata var) (w.variableMeta var) where
  answer := rfl
  kept {a w'} h := by
    match w with
    | .wellen f declared =>
      obtain ⟨result, -, h⟩ := Except.bind_eq_ok.1 h
      cases h
      exact Std.Refl.refl _
    | .empty =>
      cases h
      exact Std.Refl.refl _
    | .cxxrtl c =>
      cases h
      exact like_onCxxrtl (.variableMeta var) (.cxxrtl c)

/-- Whether the next change after the start of a range lies in front of its end. -/
def changedIn (w : WaveContainer) (var : VariableRef) (range : Option (ℕ × ℕ)) : Run Bool :=
  match range with
  | none => .ok false
  | some (startTime, endTime) => do
    let result ← w.query var startTime
    return (result.bind QueryResult.next).any fun nextChange => startTime < nextChange ∧ nextChange < endTime

theorem changedInRange_asks (w : WaveContainer) (var : VariableRef) (range : Option (ℕ × ℕ)) :
    Asks Like w (w.changedIn var range) (changedInRange w var range) := by
  match range with
  | none => exact Asks.pure false
  | some (startTime, endTime) =>
    refine (w.queryVariable_asks var startTime).bind fun result w₁ _ _ => ?_
    exact Asks.pure _

theorem Like.changedIn (h : Like w w') (var : VariableRef) (range : Option (ℕ × ℕ)) :
    w'.changedIn var range = w.changedIn var range := by
  match range with
  | none => rfl
  | some (startTime, endTime) => simp only [WaveContainer.changedIn, h.query]

/-- What the container answers for the row of a variable. -/
def reading (cursor : ℕ) (filterRange highlightRange : Option (ℕ × ℕ)) (w : WaveContainer)
    (var : VariableRef) : Run (Option Reading) :=
  match rowIndex var with
  | none => .ok none
  | some index => do
    match (← w.query var cursor).bind QueryResult.current with
    | none => return none
    | some (changeTime, rawValue) =>
      let changedForFilter ← w.changedIn var filterRange
      let changedForHighlight ← w.changedIn var highlightRange
      let metadata ← w.metadata var
      let changedAtCursor := changeTime == cursor
      return some { index, rawValue, metadata, changedAtCursor, changedForFilter, changedForHighlight }

theorem Like.reading (h : Like w w') (cursor : ℕ) (filterRange highlightRange : Option (ℕ × ℕ)) :
    w'.reading cursor filterRange highlightRange = w.reading cursor filterRange highlightRange := by
  funext var
  simp only [WaveContainer.reading, h.query, h.changedIn, h.metadata]

/-- The container is not asked twice for the same range, which would not change the answer. -/
theorem readVariable_asks (cursor : ℕ) (filterRange highlightRange : Option (ℕ × ℕ)) (w : WaveContainer)
    (var : VariableRef) : Asks Like w (w.reading cursor filterRange highlightRange var)
      (readVariable cursor filterRange highlightRange w var) := by
  unfold WaveContainer.reading readVariable
  match rowIndex var with
  | none => exact Asks.pure none
  | some index =>
    refine (w.queryVariable_asks var cursor).bind fun result w₁ _ hw₁ => ?_
    dsimp only
    match result.bind QueryResult.current with
    | none => exact Asks.pure none
    | some (changeTime, rawValue) =>
      have hfilter := (w₁.changedInRange_asks var filterRange).congr (hw₁.changedIn var _)
      refine hfilter.bind fun changedForFilter w₂ hchanged hw₂ => ?_
      have hhighlight : Asks Like w₂ (w.changedIn var highlightRange)
          (changedInHighlightRange changedForFilter filterRange highlightRange w₂ var) := by
        unfold changedInHighlightRange
        split
        next heq =>
          have hanswer : .ok changedForFilter = w.changedIn var filterRange := by
            rw [← hfilter.answer, hchanged]
            rfl
          exact (Asks.pure changedForFilter).congr (heq ▸ hanswer)
        next =>
          refine (w₂.changedInRange_asks var highlightRange).congr ?_
          rw [hw₂.changedIn, hw₁.changedIn]
      refine hhighlight.bind fun changedForHighlight w₃ _ hw₃ => ?_
      have hmetadata : Asks Like w₃ (w.metadata var) (w₃.variableMeta var) := by
        refine (w₃.variableMeta_asks var).congr ?_
        rw [hw₃.metadata, hw₂.metadata, hw₁.metadata]
      exact hmetadata.bind fun metadata w₄ _ _ => Asks.pure _

end WaveContainer

open WaveContainer

namespace Source

/-- The variables of the scope, in the order of their rows. -/
def vars (source : Source) : List VariableRef := sortByIndex (source.container.vars source.key.scope)

/-- The row of a variable, for the answers of the container as it is. -/
def row (env : Env) (source : Source) (var : VariableRef) : Run (Option MemoryRow) :=
  Option.map (Reading.row env source.key.valueFormat) <$>
    source.container.reading source.key.cursor (source.range source.key.filterMode)
      (source.range source.key.highlightMode) var

/-- The rows for the answers of the container as it is. -/
def rows (env : Env) (source : Source) : Run (List MemoryRow) := answers (source.row env) source.vars

/-- The rows that are computed are those for the answers of the container as it is, and it would answer
the same afterwards. -/
theorem computeRows_asks (env : Env) (source : Source) :
    Asks Like source.container (source.rows env) (source.computeRows env) := by
  let w := source.container.onCxxrtl (Cxxrtl.Call.variablesInModule source.key.scope).apply
  have hw : Like source.container w := like_onCxxrtl _ _
  let filterRange := source.range source.key.filterMode
  let highlightRange := source.range source.key.highlightMode
  have hread : Asks Like w (answers (w.reading source.key.cursor filterRange highlightRange) source.vars)
      (readAll (readVariable source.key.cursor filterRange highlightRange) source.vars w) :=
    Asks.readAll (readVariable_asks _ _ _) (fun h => h.reading _ _ _) _ _
  have hrows : source.computeRows env =
      (fun p : List Reading × WaveContainer => (p.1.map (Reading.row env source.key.valueFormat), p.2)) <$>
        readAll (readVariable source.key.cursor filterRange highlightRange) source.vars w := by
    unfold computeRows readings
    rw [variablesInScope_eq]
    rfl
  rw [hrows]
  refine (Asks.of_like hw (hread.map _)).congr ?_
  rw [hw.reading]
  exact (answers_map _ _ _).symm

end Source

end MemoryViewer
