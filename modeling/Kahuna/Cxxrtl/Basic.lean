import Kahuna.Cxxrtl.QueryContainer
import Mathlib.Logic.Function.Iterate

/-!
# The CXXRTL container

The model of `cxxrtl_container.rs`. The container asks a simulation server for what it shows. It keeps
the answers in caches: a cache that is out of date is asked for once, and holds what it held until the
answer comes. Each command is sent together with a callback, and the callbacks wait in a queue for the
replies, which are taken in the order in which the commands were sent.
-/

namespace Cxxrtl

open Wave (ScopeRef VariableRef)

/-! ## Messages -/

/-- `SimulationStatusType`. -/
inductive SimulationStatusType where
  | running
  | paused
  | finished
  deriving DecidableEq, Repr

/-- `CxxrtlSimulationStatus`. -/
structure CxxrtlSimulationStatus where
  status : SimulationStatusType
  latestTime : CxxrtlTimestamp
  deriving DecidableEq, Repr

/-- `Diagnostic`. -/
inductive Diagnostic where
  | assert
  | assume
  | print
  deriving DecidableEq, Repr

/-- `CxxrtlCommand`. -/
inductive CxxrtlCommand where
  | listScopes (scope : Option String)
  | listItems (scope : Option String)
  | getSimulationStatus
  | queryInterval (interval : CxxrtlTimestamp × CxxrtlTimestamp) (collapse : Bool) (items : Option String)
      (itemValuesEncoding : String) (diagnostics : Bool)
  | referenceItems (reference : String) (items : List (List String))
  | runSimulation (untilTime : Option CxxrtlTimestamp) (untilDiagnostics : List Diagnostic)
      (sampleItemValues : Bool)
  | pauseSimulation
  deriving DecidableEq, Repr

/-- `CSMessage`, from the client to the server. -/
inductive CSMessage where
  | greeting (version : ℤ)
  | command (command : CxxrtlCommand)
  deriving DecidableEq, Repr

/-- `CommandResponse`. A scope holds no data. -/
inductive CommandResponse where
  | listScopes (scopes : List String)
  | listItems (items : FiniteMap String CxxrtlItem)
  | getSimulationStatus (status : CxxrtlSimulationStatus)
  | queryInterval (samples : List CxxrtlSample)
  | referenceItems
  | runSimulation
  | pauseSimulation (time : CxxrtlTimestamp)

/-- `Event`. The cause of a pause is not read. -/
inductive Event where
  | simulationPaused (time : CxxrtlTimestamp)
  | simulationFinished (time : CxxrtlTimestamp)
  deriving DecidableEq, Repr

/-- The status that an event tells of. -/
def Event.status : Event → CxxrtlSimulationStatus
  | .simulationPaused time => { status := .paused, latestTime := time }
  | .simulationFinished time => { status := .finished, latestTime := time }

/-- `SCMessage`, from the server to the client. -/
inductive SCMessage where
  | greeting
  | response (response : CommandResponse)
  | error (message : String)
  | event (event : Event)

/-! ## Caches -/

/-- `CachedData`. -/
inductive CachedData (α : Type) where
  /-- Out of date, with the data held before if that is still useful. -/
  | uncached (prev : Option α)
  /-- Out of date, and new data has been asked for. -/
  | waiting (prev : Option α)
  /-- Up to date. -/
  | filled (val : α)
  deriving DecidableEq, Repr

namespace CachedData

variable {α σ : Type}

/-- `empty`. -/
def empty : CachedData α := .uncached none

/-- `make_uncached`. -/
def makeUncached : CachedData α → CachedData α
  | .uncached prev => .uncached prev
  | .waiting prev => .uncached prev
  | .filled prev => .uncached (some prev)

/-- `get`. -/
def get : CachedData α → Option α
  | .uncached prev => prev
  | .waiting prev => prev
  | .filled val => some val

/-- `fetch_if_needed`: the value, and the cache and what `f` changes afterwards. -/
def fetchIfNeeded (c : CachedData α) (f : σ → σ) (s : σ) : Option α × CachedData α × σ :=
  match c with
  | .uncached prev => (prev, .waiting prev, f s)
  | .waiting prev => (prev, .waiting prev, s)
  | .filled val => (some val, .filled val, s)

/-- A cache is asked for and waits, or it stays as it is. -/
theorem fetchIfNeeded_cases (c : CachedData α) {f : σ → σ} {s : σ} :
    (∃ prev, c = .uncached prev ∧ c.fetchIfNeeded f s = (prev, .waiting prev, f s)) ∨
      c.fetchIfNeeded f s = (c.get, c, s) := by
  match c with
  | .uncached prev => exact .inl ⟨prev, rfl, rfl⟩
  | .waiting _ => exact .inr rfl
  | .filled _ => exact .inr rfl

/-- Data has been asked for and is not there yet. -/
def isWaiting : CachedData α → Bool
  | .waiting _ => true
  | _ => false

@[simp]
theorem isWaiting_makeUncached (c : CachedData α) : c.makeUncached.isWaiting = false := by
  match c with
  | .uncached _ => rfl
  | .waiting _ => rfl
  | .filled _ => rfl

@[simp]
theorem isWaiting_filled (val : α) : (filled val).isWaiting = false := rfl

end CachedData

/-- `CxxrtlData`. A scope has no data besides its path. -/
structure CxxrtlData where
  scopesCache : CachedData (List ScopeKey)
  moduleItemCache : FiniteMap ScopeKey (CachedData ItemMap)
  allItemsCache : CachedData ItemMap
  /-- The end of the interval whose values are in the `intervalQueryCache`. -/
  queryResult : CachedData CxxrtlTimestamp
  intervalQueryCache : QueryContainer
  loadedSignals : List VariableRef
  signalIndexMap : FiniteMap VariableKey ℕ
  simulationStatus : CachedData CxxrtlSimulationStatus
  /-- The number of `InvalidateDrawCommands` that were sent to the user interface. -/
  msgChannel : ℕ

namespace CxxrtlData

/-- The data of a new container. -/
def new : CxxrtlData where
  scopesCache := .empty
  moduleItemCache := FiniteMap.empty
  allItemsCache := .empty
  queryResult := .empty
  intervalQueryCache := .empty
  loadedSignals := []
  signalIndexMap := FiniteMap.empty
  simulationStatus := .empty
  msgChannel := 0

/-- `trigger_redraw`. -/
def triggerRedraw (data : CxxrtlData) : CxxrtlData := { data with msgChannel := data.msgChannel + 1 }

/-- `invalidate_query_result`. -/
def invalidateQueryResult (data : CxxrtlData) : CxxrtlData :=
  { data with queryResult := data.queryResult.makeUncached }.triggerRedraw

/-- `on_simulation_status_update`. -/
def onSimulationStatusUpdate (data : CxxrtlData) (status : CxxrtlSimulationStatus) : CxxrtlData :=
  { data with simulationStatus := .filled status }.triggerRedraw.invalidateQueryResult

end CxxrtlData

/-- `str::split(' ')`. -/
def splitSpaces (s : String) : List String := (s.toList.splitOn ' ').map String.ofList

/-- `item_list_to_hash_map`. The parts of a split name are never empty. -/
def itemListToHashMap (items : FiniteMap String CxxrtlItem) : ItemMap :=
  items.entries.foldl (fun m e =>
    let sp := splitSpaces e.1
    m.insert (sp.dropLast, sp.getLast?.getD "") e.2) FiniteMap.empty

/-! ## Callbacks -/

/-- The callbacks of the commands, with what each of them has captured. -/
inductive Callback where
  | listScopes
  | listItems
  | listItemsIn (scope : ScopeKey)
  | queryInterval (maxTimestamp : CxxrtlTimestamp) (loadedSignals : List VariableRef) (info : ItemMap)
  | referenceItems
  | getSimulationStatus
  | runSimulation
  | pauseSimulation

/-- What a callback makes of a response. With `expect_response!` it returns early on a response of another
kind. -/
def Callback.call (response : CommandResponse) (data : CxxrtlData) : Callback → CxxrtlData
  | .listScopes =>
    match response with
    | .listScopes scopes => { data with scopesCache := .filled (scopes.map splitSpaces) }
    | _ => data
  | .listItems =>
    match response with
    | .listItems items => { data with allItemsCache := .filled (itemListToHashMap items) }
    | _ => data
  | .listItemsIn scope =>
    match response with
    | .listItems items =>
      let cache := data.moduleItemCache.insert scope (.filled (itemListToHashMap items))
      { data with moduleItemCache := cache }
    | _ => data
  | .queryInterval maxTimestamp loadedSignals info =>
    match response with
    | .queryInterval samples =>
      { data with
        queryResult := .filled maxTimestamp
        intervalQueryCache := data.intervalQueryCache.populate loadedSignals info samples }
    | _ => data
  -- the response is not looked at
  | .referenceItems => data.invalidateQueryResult
  | .getSimulationStatus =>
    match response with
    | .getSimulationStatus status => data.onSimulationStatusUpdate status
    | _ => data
  -- nor is it here, and the response does not say the time
  | .runSimulation =>
    { data with simulationStatus := .filled { status := .running, latestTime := .zero } }
  | .pauseSimulation =>
    match response with
    | .pauseSimulation time => data.onSimulationStatusUpdate { status := .paused, latestTime := time }
    | _ => data

/-- `CSSender`: the messages to the server, and the callbacks for its replies. -/
structure CSSender where
  csMessages : List CSMessage
  callbackQueue : List Callback

/-- `run_command`. -/
def CSSender.runCommand (s : CSSender) (command : CxxrtlCommand) (f : Callback) : CSSender where
  callbackQueue := s.callbackQueue ++ [f]
  csMessages := s.csMessages ++ [.command command]

/-- `CxxrtlContainer`. A message that cannot be parsed is in the channel as its text. -/
structure CxxrtlContainer where
  data : CxxrtlData
  sending : CSSender
  scMessages : List (Except String SCMessage)

/-- `DEFAULT_REFERENCE`. -/
def defaultReference : String := "ALL_VARIABLES"

/-- `cxxrtl_repr` of a scope. -/
def scopeRepr (strs : ScopeKey) : String := " ".intercalate strs

/-- The full path of a variable, as the server writes it. -/
def keyRepr (k : VariableKey) : String := " ".intercalate (k.1 ++ [k.2])

/-- `cxxrtl_repr` of a variable. -/
def variableRepr (r : VariableRef) : String := keyRepr (variableKey r)

namespace CxxrtlContainer

/-- `new`. -/
def new : CxxrtlContainer where
  data := .new
  sending := { csMessages := [.greeting 0], callbackQueue := [] }
  scMessages := []

/-! ## Messages of the server -/

/-- The effect of an event. -/
def onEvent (c : CxxrtlContainer) (event : Event) : CxxrtlContainer :=
  { c with data := c.data.onSimulationStatusUpdate event.status }

/-- The effect of a response. -/
def onResponse (c : CxxrtlContainer) (response : CommandResponse) : CxxrtlContainer :=
  match c.sending.callbackQueue with
  | [] => c
  | cb :: rest =>
    { c with data := cb.call response c.data, sending := { c.sending with callbackQueue := rest } }

/-- The effect of an error. -/
def onError (c : CxxrtlContainer) : CxxrtlContainer :=
  { c with sending := { c.sending with callbackQueue := c.sending.callbackQueue.tail } }

/-- One pass of the loop of `tick`, for a message. -/
def onMessage (c : CxxrtlContainer) : Except String SCMessage → CxxrtlContainer
  | .error _ => c
  | .ok .greeting => c
  | .ok (.response response) => c.onResponse response
  | .ok (.error _) => c.onError
  | .ok (.event event) => c.onEvent event

/-- `try_recv` and one pass of the loop. -/
def receive (c : CxxrtlContainer) : CxxrtlContainer :=
  match c.scMessages with
  | [] => c
  | msg :: rest => { c with scMessages := rest }.onMessage msg

/-- `tick`: the loop ends when no message is left. -/
def tick (c : CxxrtlContainer) : CxxrtlContainer := receive^[c.scMessages.length] c

/-! ## Calls of the client -/

/-- `get_scopes`. -/
def getScopes (c : CxxrtlContainer) : List ScopeKey × CxxrtlContainer :=
  let (scopes, cache, sending) := c.data.scopesCache.fetchIfNeeded
    (fun s => s.runCommand (.listScopes none) .listScopes) c.sending
  (scopes.getD [], { c with data := { c.data with scopesCache := cache }, sending })

/-- `fetch_all_items`. -/
def fetchAllItems (c : CxxrtlContainer) : Option ItemMap × CxxrtlContainer :=
  let (items, cache, sending) := c.data.allItemsCache.fetchIfNeeded
    (fun s => s.runCommand (.listItems none) .listItems) c.sending
  (items, { c with data := { c.data with allItemsCache := cache }, sending })

/-- `fetch_item`: all items are fetched. -/
def fetchItem (c : CxxrtlContainer) (var : VariableRef) : Option CxxrtlItem × CxxrtlContainer :=
  let (items, c) := c.fetchAllItems
  (items.bind fun d => d.get (variableKey var), c)

/-- `fetch_items_in_module`. -/
def fetchItemsInModule (c : CxxrtlContainer) (scope : ScopeRef) : ItemMap × CxxrtlContainer :=
  let entry := (c.data.moduleItemCache.get scope.strs).getD .empty
  let (items, cache, sending) := entry.fetchIfNeeded
    (fun s => s.runCommand (.listItems (some (scopeRepr scope.strs))) (.listItemsIn scope.strs)) c.sending
  -- the entry is changed in place, and only when the items are asked for
  let moduleItemCache := match entry with
    | .uncached _ => c.data.moduleItemCache.insert scope.strs cache
    | _ => c.data.moduleItemCache
  (items.getD FiniteMap.empty, { c with data := { c.data with moduleItemCache }, sending })

/-- `modules`. -/
def modules (c : CxxrtlContainer) : List ScopeRef × CxxrtlContainer :=
  let (scopes, c) := c.getScopes
  (scopes.map fun strs => { strs, id := none }, c)

/-- `root_modules`: the root scope has the empty path. -/
def rootModules (c : CxxrtlContainer) : List ScopeRef × CxxrtlContainer :=
  let (_, c) := c.getScopes
  ([{ strs := [], id := none }], c)

/-- `module_exists`. -/
def moduleExists (c : CxxrtlContainer) (module : ScopeRef) : Bool × CxxrtlContainer :=
  let (scopes, c) := c.getScopes
  (scopes.contains module.strs, c)

/-- `child_scopes`. -/
def childScopes (c : CxxrtlContainer) (parent : ScopeRef) : List ScopeRef × CxxrtlContainer :=
  let (scopes, c) := c.getScopes
  let isChild (strs : ScopeKey) : Bool :=
    strs.length == parent.strs.length + 1 && strs.take parent.strs.length == parent.strs
  ((scopes.filter isChild).map fun strs => { strs, id := none }, c)

/-- `variables_in_module`. -/
def variablesInModule (c : CxxrtlContainer) (module : ScopeRef) : List VariableRef × CxxrtlContainer :=
  let (items, c) := c.fetchItemsInModule module
  (items.keys.map fun k => { path := { strs := k.1, id := none }, name := k.2, id := none, index := none }, c)

/-- `no_variables_in_module`. -/
def noVariablesInModule (c : CxxrtlContainer) (module : ScopeRef) : Bool × CxxrtlContainer :=
  let (items, c) := c.fetchItemsInModule module
  (items.keys.isEmpty, c)

/-- `variable_meta`, of which only the number of bits depends on the server. -/
def variableMeta (c : CxxrtlContainer) (var : VariableRef) : Option UInt32 × CxxrtlContainer :=
  let (item, c) := c.fetchItem var
  (item.map CxxrtlItem.width, c)

/-- `max_displayed_timestamp`. -/
def maxDisplayedTimestamp (c : CxxrtlContainer) : Option CxxrtlTimestamp := c.data.queryResult.get

/-- `raw_simulation_status`. -/
def rawSimulationStatus (c : CxxrtlContainer) : Option CxxrtlSimulationStatus × CxxrtlContainer :=
  let (status, cache, sending) := c.data.simulationStatus.fetchIfNeeded
    (fun s => s.runCommand .getSimulationStatus .getSimulationStatus) c.sending
  (status, { c with data := { c.data with simulationStatus := cache }, sending })

/-- `simulation_status`. -/
def simulationStatus (c : CxxrtlContainer) : Option SimulationStatusType × CxxrtlContainer :=
  let (status, c) := c.rawSimulationStatus
  (status.map CxxrtlSimulationStatus.status, c)

/-- `max_timestamp`. -/
def maxTimestamp (c : CxxrtlContainer) : Option CxxrtlTimestamp × CxxrtlContainer :=
  let (status, c) := c.rawSimulationStatus
  (status.map CxxrtlSimulationStatus.latestTime, c)

/-- `query_variable`. The status and the items of the design must be there before the server is asked for
values. -/
def queryVariable (c : CxxrtlContainer) (var : VariableRef) (time : ℕ) :
    Option QueryResult × CxxrtlContainer :=
  match c.maxTimestamp with
  | (none, c) => (none, c)
  | (some maxTimestamp, c) =>
    match c.fetchAllItems with
    | (none, c) => (none, c)
    | (some info, c) =>
      let command := .queryInterval (.zero, maxTimestamp) true (some defaultReference) "base64(u32)" false
      let (cached, queryResult, sending) := c.data.queryResult.fetchIfNeeded
        (fun s => s.runCommand command (.queryInterval maxTimestamp c.data.loadedSignals info)) c.sending
      let res := (cached.map fun _ => c.data.intervalQueryCache.query var time).getD .default
      (some res, { c with data := { c.data with queryResult }, sending })

/-- A signal is entered into the list of the loaded ones, unless it is there. -/
def addSignal (data : CxxrtlData) (varref : VariableRef) : CxxrtlData :=
  match data.signalIndexMap.get (variableKey varref) with
  | some _ => data
  | none =>
    { data with
      signalIndexMap := data.signalIndexMap.insert (variableKey varref) data.loadedSignals.length
      loadedSignals := data.loadedSignals ++ [varref] }

/-- The items that a list of signals stands for. -/
def referencedItems (signals : List VariableRef) : List (List String) :=
  signals.map fun s => [variableRepr s]

/-- `load_variables`. -/
def loadVariables (c : CxxrtlContainer) (vars : List VariableRef) : CxxrtlContainer :=
  let data := vars.foldl addSignal c.data
  let command := .referenceItems defaultReference (referencedItems data.loadedSignals)
  { c with data, sending := c.sending.runCommand command .referenceItems }

/-- `unpause`. -/
def unpause (c : CxxrtlContainer) : CxxrtlContainer :=
  let (status, c) := c.rawSimulationStatus
  let duration := match status with
    | none => CxxrtlTimestamp.fromFemtoseconds 100000000
    | some s => CxxrtlTimestamp.fromFemtoseconds (s.latestTime.asFemtoseconds + 100000000)
  { c with sending := c.sending.runCommand (.runSimulation (some duration) [] true) .runSimulation }

/-- `pause`. -/
def pause (c : CxxrtlContainer) : CxxrtlContainer :=
  { c with sending := c.sending.runCommand .pauseSimulation .pauseSimulation }

end CxxrtlContainer

end Cxxrtl
