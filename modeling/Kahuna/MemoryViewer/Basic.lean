import Kahuna.Asking.Basic
import Kahuna.Cxxrtl.Connection
import Kahuna.Text.Basic
import Kahuna.Wave.Update
import Kahuna.Wellen.Enumeration

/-!
# The memory viewer

The model of `memory_viewer.rs`: the rows for the variables of a scope, the cache that holds the rows of the
last key, and a frame that takes the rows from it. The values come from a wave container of any kind.

The translators are a parameter. The values that a CXXRTL server sends are decoded by another one.
-/

/-! ## Asking a wave container -/

namespace Wellen.WellenContainer

open Wave (VariableRef)
open Cxxrtl (QueryResult)

/-- `time_to_time_table_idx`, whether there is an entry at or before a time. -/
def hasBegun (f : WellenContainer) (time : ℕ) : Run Bool :=
  if time < 2 ^ 64 then .ok (f.timeTable.head?.any (· ≤ time)) else .error (.expect "unsupported time!")

/-- What a signal says of a time. -/
def querySignal (f : WellenContainer) (signal : Signal) (time : ℕ) : Run QueryResult := do
  let begun ← f.hasBegun time
  let before := if begun then signal.changes.filter fun change => change.1.toNat ≤ time else []
  match before.getLast? with
  | some (offsetTime, value) =>
    let next := signal.changes.find? fun change => time < change.1.toNat
    return { current := some (offsetTime.toNat, value), next := next.map fun change => change.1.toNat }
  | none =>
    -- there is no change at or before the time
    let first := if f.timeTable = [] then none else signal.changes.head?
    return { current := none, next := first.map fun change => change.1.toNat }

/-- `query_variable`, with nothing where it fails. -/
def queryVariable (f : WellenContainer) (var : VariableRef) (time : ℕ) :
    Run (Option QueryResult) := do
  match ← f.waves.getVar var with
  | none => return none
  | some v =>
    match f.signals.get v.signalRef with
    -- if the signal has not been loaded yet, the result is empty
    | none => return none
    | some signal => some <$> f.querySignal signal time

end Wellen.WellenContainer

namespace MemoryViewer

open Wave Wellen
open Cxxrtl (CxxrtlContainer QueryResult SCMessage)

/-- What a file declares of a variable: type, direction, encoding and names of values. -/
abbrev Declaration := ℕ

/-- `VariableMeta`. -/
structure VariableMeta where
  var : VariableRef
  numBits : Option ℕ
  declaration : Option Declaration
  deriving DecidableEq

/-- `WaveContainer`. -/
inductive WaveContainer where
  /-- A file, with the number of bits of a variable and what else is declared of it. -/
  | wellen (f : WellenContainer) (declared : VarId → Option ℕ × Declaration)
  | empty
  | cxxrtl (c : CxxrtlContainer)

namespace WaveContainer

/-- `variables_in_scope`. -/
def variablesInScope (w : WaveContainer) (scope : ScopeRef) : List VariableRef × WaveContainer :=
  match w with
  | .wellen f _ => (Wellen.variablesInScope f.hierarchy scope, w)
  | .empty => ([], w)
  | .cxxrtl c =>
    let (vars, c) := c.variablesInModule scope
    (vars, .cxxrtl c)

/-- `query_variable`, with nothing where it fails. -/
def queryVariable (w : WaveContainer) (var : VariableRef) (time : ℕ) :
    Run (Option QueryResult × WaveContainer) :=
  match w with
  | .wellen f _ => do
    let result ← f.queryVariable var time
    return (result, w)
  | .empty => .ok (none, w)
  | .cxxrtl c =>
    let (result, c) := c.queryVariable var time
    .ok (result, .cxxrtl c)

/-- `varmeta`, with nothing where it fails. -/
def variableMeta (w : WaveContainer) (var : VariableRef) :
    Run (Option VariableMeta × WaveContainer) :=
  match w with
  | .wellen f declared => do
    let v ← f.waves.getVar var
    let id := v.bind fun _ => f.waves.getVarRef var
    return (id.map fun id =>
      { var := var, numBits := (declared id).1, declaration := some (declared id).2 }, w)
  | .empty => .ok (none, w)
  | .cxxrtl c =>
    let (width, c) := c.variableMeta var
    .ok (some { var := var, numBits := width.map UInt32.toNat, declaration := none }, .cxxrtl c)

/-- `load_variables`. The loading that is started has its end in a message of its own. -/
def loadVariables (w : WaveContainer) (vars : List VariableRef) : Run WaveContainer :=
  match w with
  | .wellen f declared => do
    let (_, f) ← f.loadVariables vars
    return .wellen f declared
  | .empty => .ok w
  | .cxxrtl c => .ok (.cxxrtl (c.loadVariables vars))

/-- `wellen_add_body` and `load_parameters`. A body that is refused changes nothing. -/
def addBody (w : WaveContainer) (body : BodyResult) : WaveContainer :=
  match w with
  | .wellen f declared =>
    let f := match f.addBody body with
      | .ok (_, f) => f
      | .error _ => f
    .wellen f.loadAllParams.2 declared
  | w => w

/-- `on_signals_loaded`. -/
def onSignalsLoaded (w : WaveContainer) (res : LoadSignalsResult) : WaveContainer :=
  match w with
  | .wellen f declared => .wellen (f.onSignalsLoaded res).2 declared
  | w => w

/-- A change of a CXXRTL container. -/
def onCxxrtl (f : CxxrtlContainer → CxxrtlContainer) (w : WaveContainer) : WaveContainer :=
  match w with
  | .cxxrtl c => .cxxrtl (f c)
  | w => w

end WaveContainer

/-! ## Rows -/

/-- `ChangeModes`. -/
inductive ChangeModes where
  | allValues
  | changedAtCursor
  | changedBtwCursorAndMarker (markerIndex : ℕ)
  deriving DecidableEq, Repr

/-- `ValueKind`. -/
inductive ValueKind where
  | normal
  | undef
  | highImp
  | custom (color : UInt32)
  | warn
  | dontCare
  | weak
  | error
  | event
  deriving DecidableEq, Repr

/-- `MemoryRow`. -/
structure MemoryRow where
  index : ℤ
  value : String
  kind : ValueKind
  changedAtCursor : Bool
  changedForFilter : Bool
  changedForHighlight : Bool
  deriving DecidableEq, Repr

/-- `MemoryViewerCacheKey`. -/
structure MemoryViewerCacheKey where
  scope : ScopeRef
  cursor : ℕ
  valueFormat : String
  filterMode : ChangeModes
  highlightMode : ChangeModes
  deriving DecidableEq, Repr

/-- The derived comparison, which compares the scopes as references are compared. -/
def MemoryViewerCacheKey.eq (a b : MemoryViewerCacheKey) : Bool :=
  a.scope.eq b.scope && a.cursor == b.cursor && a.valueFormat == b.valueFormat &&
    a.filterMode == b.filterMode && a.highlightMode == b.highlightMode

/-- `MemoryViewerCache`. -/
structure MemoryViewerCache where
  key : MemoryViewerCacheKey
  rows : List MemoryRow
  deriving DecidableEq, Repr

/-- The times of the markers. -/
abbrev Markers := FiniteMap ℕ ℤ

/-- `BigInt::to_biguint`. -/
def toBigUint (time : ℤ) : Option ℕ := Cxxrtl.QueryContainer.toBigUint time

/-- `change_range`. -/
def changeRange (mode : ChangeModes) (cursor : ℕ) (markers : Markers) : Option (ℕ × ℕ) :=
  match mode with
  | .changedBtwCursorAndMarker markerIndex =>
    ((markers.get markerIndex).bind toBigUint).map fun markerTime =>
      if cursor ≤ markerTime then (cursor, markerTime) else (markerTime, cursor)
  | _ => none

/-- `parse_index_from_name`. -/
def parseIndexFromName (name : String) : Option ℤ :=
  parseI64 (((Text.trim name.toList).dropWhile (· == '[')).takeWhile (· != ']'))

/-- The index of the row of a variable. -/
def rowIndex (varRef : VariableRef) : Option ℤ := varRef.index.or (parseIndexFromName varRef.name)

/-- The variables, sorted by their indices. -/
def sortByIndex (vars : List VariableRef) : List VariableRef :=
  vars.insertionSort fun a b => a.index.getD (2 ^ 63 - 1) ≤ b.index.getD (2 ^ 63 - 1)

/-- `VariableValue::to_string`. -/
def valueText (value : VariableValue) : String :=
  match value with
  | .bigUint value => toString value
  | .string text => text

/-- What the program is given besides what it does. -/
structure Env where
  /-- The first value that the translator with a name makes of a value, if it succeeds. -/
  translate : String → VariableMeta → VariableValue → Option (String × ValueKind)
  /-- How the values of a sample are decoded. -/
  decode : String → Option (List UInt8)

/-- What the rows are computed from. -/
structure Source where
  key : MemoryViewerCacheKey
  container : WaveContainer
  markers : Markers

/-- What the container has answered for a row. -/
structure Reading where
  index : ℤ
  rawValue : VariableValue
  metadata : Option VariableMeta
  changedAtCursor : Bool
  changedForFilter : Bool
  changedForHighlight : Bool
  deriving DecidableEq

/-- The text that is displayed for a value, and its kind. -/
def displayValue (env : Env) (valueFormat : String) (metadata : Option VariableMeta)
    (rawValue : VariableValue) : String × ValueKind :=
  (metadata.bind fun metadata => env.translate valueFormat metadata rawValue).getD
    (valueText rawValue, .normal)

/-- What a row shows of the answers. -/
def Reading.row (env : Env) (valueFormat : String) (r : Reading) : MemoryRow :=
  let (value, kind) := displayValue env valueFormat r.metadata r.rawValue
  { index := r.index
    value
    kind
    changedAtCursor := r.changedAtCursor
    changedForFilter := r.changedForFilter
    changedForHighlight := r.changedForHighlight }

/-- The closure `changed_in_range`: the next change after the start lies in front of the end. -/
def changedInRange (w : WaveContainer) (varRef : VariableRef) (range : Option (ℕ × ℕ)) :
    Run (Bool × WaveContainer) :=
  match range with
  | none => .ok (false, w)
  | some (startTime, endTime) => do
    let (result, w) ← w.queryVariable varRef startTime
    let next := result.bind QueryResult.next
    return (next.any fun nextChange => startTime < nextChange ∧ nextChange < endTime, w)

/-- The container is asked again when the ranges differ. -/
def changedInHighlightRange (changedForFilter : Bool) (filterRange highlightRange : Option (ℕ × ℕ))
    (w : WaveContainer) (varRef : VariableRef) : Run (Bool × WaveContainer) :=
  if filterRange = highlightRange then .ok (changedForFilter, w)
  else changedInRange w varRef highlightRange

/-- One pass of the loop over the variables, as far as the container is asked. -/
def readVariable (cursor : ℕ) (filterRange highlightRange : Option (ℕ × ℕ)) (w : WaveContainer)
    (varRef : VariableRef) : Run (Option Reading × WaveContainer) :=
  match rowIndex varRef with
  | none => .ok (none, w)
  | some index => do
    let (result, w) ← w.queryVariable varRef cursor
    match result.bind QueryResult.current with
    | none => return (none, w)
    | some (changeTime, rawValue) =>
      let (changedForFilter, w) ← changedInRange w varRef filterRange
      let (changedForHighlight, w) ←
        changedInHighlightRange changedForFilter filterRange highlightRange w varRef
      let (metadata, w) ← w.variableMeta varRef
      let changedAtCursor := changeTime == cursor
      return (some { index, rawValue, metadata, changedAtCursor, changedForFilter, changedForHighlight }, w)

namespace Source

/-- The times between the cursor and the marker of a mode. -/
def range (source : Source) (mode : ChangeModes) : Option (ℕ × ℕ) :=
  changeRange mode source.key.cursor source.markers

/-- The loop over the variables, as far as the container is asked. -/
def readings (source : Source) : Run (List Reading × WaveContainer) :=
  let (vars, w) := source.container.variablesInScope source.key.scope
  let filterRange := source.range source.key.filterMode
  let highlightRange := source.range source.key.highlightMode
  Asking.readAll (readVariable source.key.cursor filterRange highlightRange) (sortByIndex vars) w

/-- The rows that are computed without the cache. -/
def computeRows (env : Env) (source : Source) : Run (List MemoryRow × WaveContainer) := do
  let (readings, w) ← source.readings
  return (readings.map (Reading.row env source.key.valueFormat), w)

end Source

/-! ## The state -/

/-- `MemoryViewerState`, as far as the rows depend on it. -/
structure MemoryViewerState where
  isOpen : Bool
  scope : Option ScopeRef
  name : Option String
  valueFormat : String
  filterMode : ChangeModes
  highlightMode : ChangeModes
  valueColumnCount : ℕ
  deriving DecidableEq, Repr

/-- The implementation of `Default`. -/
def MemoryViewerState.default : MemoryViewerState where
  isOpen := false
  scope := none
  name := none
  valueFormat := "Hexadecimal"
  filterMode := .allValues
  highlightMode := .allValues
  valueColumnCount := 1

/-- `WaveData`, as far as the viewer reads it. -/
structure Waves where
  /-- The wave container, none for transactions. -/
  inner : Option WaveContainer
  cursor : Option ℤ
  markers : Markers

/-- The state of the program, as far as the viewer reads it. -/
structure SystemState where
  waves : Option Waves
  /-- The cursor and the markers of a state that was opened before its waveform. -/
  previousWaves : Option (Option ℤ × Markers)
  memoryViewer : MemoryViewerState
  memoryViewerCache : Option MemoryViewerCache

/-- What the user leaves the controls of the window at. -/
structure Controls where
  isOpen : Bool
  filterMode : ChangeModes
  highlightMode : ChangeModes
  valueFormat : String
  valueColumnCount : ℕ
  deriving DecidableEq, Repr

namespace MemoryViewerState

/-- The rows that are left by the filter. -/
def visibleRows (v : MemoryViewerState) (rows : List MemoryRow) : List MemoryRow :=
  rows.filter fun row =>
    match v.filterMode with
    | .allValues => true
    | .changedAtCursor => row.changedAtCursor
    | .changedBtwCursorAndMarker _ => row.changedForFilter

/-- The viewer after its controls were drawn under `rows`. -/
def control (v : MemoryViewerState) (controls : Controls) (rows : List MemoryRow) : MemoryViewerState :=
  let v :=
    { v with
      isOpen := controls.isOpen
      -- several columns take no filter
      filterMode := if 1 < controls.valueColumnCount then .allValues else controls.filterMode
      highlightMode := controls.highlightMode
      valueFormat := controls.valueFormat }
  { v with valueColumnCount := max 1 (min controls.valueColumnCount (max 1 (v.visibleRows rows).length)) }

end MemoryViewerState

namespace SystemState

/-- The program before a waveform is loaded. -/
def new (previousWaves : Option (Option ℤ × Markers)) : SystemState where
  waves := none
  previousWaves := previousWaves
  memoryViewer := .default
  memoryViewerCache := none

/-- What the rows of a frame are computed from, if the window is open and has something to show. -/
def source (s : SystemState) : Option Source :=
  if s.memoryViewer.isOpen then
    s.memoryViewer.scope.bind fun scope =>
      s.waves.bind fun waves =>
        (waves.cursor.bind toBigUint).bind fun cursor =>
          waves.inner.map fun container =>
            { key :=
                { scope
                  cursor
                  valueFormat := s.memoryViewer.valueFormat
                  filterMode := s.memoryViewer.filterMode
                  highlightMode := s.memoryViewer.highlightMode }
              container
              markers := waves.markers }
  else none

/-- The rows that a frame takes from the cache: those of an equal key, unless there are none. -/
def cachedRows (s : SystemState) (key : MemoryViewerCacheKey) : Option (List MemoryRow) :=
  ((s.memoryViewerCache.filter fun cache => cache.key.eq key).map MemoryViewerCache.rows).filter (· ≠ [])

/-- The state with another wave container. -/
def withContainer (s : SystemState) (w : WaveContainer) : SystemState :=
  { s with waves := s.waves.map fun waves => { waves with inner := some w } }

/-- The rows of a frame, with the state after them. -/
def frameRows (env : Env) (s : SystemState) (source : Source) : Run (List MemoryRow × SystemState) :=
  match s.cachedRows source.key with
  | some rows =>
    .ok (rows, s.withContainer (source.container.variablesInScope source.key.scope).2)
  | none => do
    let (rows, w) ← source.computeRows env
    return (rows, { s.withContainer w with memoryViewerCache := some { key := source.key, rows } })

/-- `draw_memory_viewer_window`: the rows that are shown, if any, and the state after the frame. -/
def draw (env : Env) (s : SystemState) (controls : Controls) : Run (Option (List MemoryRow) × SystemState) :=
  if s.memoryViewer.isOpen then
    match s.source with
    -- the controls are not drawn, but the window may be closed
    | none => .ok (none, { s with memoryViewer := { s.memoryViewer with isOpen := controls.isOpen } })
    | some source => do
      let (rows, s) ← s.frameRows env source
      return (some rows, { s with memoryViewer := s.memoryViewer.control controls rows })
  else .ok (none, s)

/-- A change of the waveform data, if there is any. -/
def onWaves (f : Waves → Waves) (s : SystemState) : SystemState := { s with waves := s.waves.map f }

/-- A change of the wave container, if there is one. -/
def onContainer (f : WaveContainer → WaveContainer) (s : SystemState) : SystemState :=
  s.onWaves fun waves => { waves with inner := waves.inner.map f }

/-- `Message::OpenMemoryViewer`. -/
def openMemoryViewer (s : SystemState) (scope : ScopeRef) (name : Option String) : Run SystemState :=
  match s.waves.bind Waves.inner with
  | none => .ok s
  | some w => do
    let (siblingVariables, w) := w.variablesInScope scope
    let w ← w.loadVariables siblingVariables
    let memoryViewer := { s.memoryViewer with isOpen := true, scope := some scope, name }
    return { s.withContainer w with memoryViewer }

/-- `on_waves_loaded`: the cursor and the markers are kept, taken from a state, or there are none. -/
def onWavesLoaded (s : SystemState) (newWaves : WaveContainer) (loadOptions : LoadOptions) : SystemState :=
  match (if loadOptions = .clear then none else s.waves), s.previousWaves with
  | some waves, _ => { s with waves := some { waves with inner := some newWaves } }
  | none, some (cursor, markers) =>
    { s with waves := some { inner := some newWaves, cursor, markers }, previousWaves := none }
  | none, none => { s with waves := some { inner := some newWaves, cursor := none, markers := .empty } }

/-- `load_state`: the cursor and the markers are taken from the loaded state, if it has waveform data. -/
def loadState (s : SystemState) (loaded : Option (Option ℤ × Markers)) : SystemState :=
  { s.onWaves fun waves =>
      match loaded with
      | some (cursor, markers) => { waves with cursor, markers }
      | none => waves with
    previousWaves := none }

end SystemState

/-- What happens to the program. -/
inductive Event where
  /-- The cursor is set, or moved to a transition. -/
  | cursorSet (time : Option ℤ)
  | markerSet (markerIndex : ℕ) (time : ℤ)
  | markerRemoved (markerIndex : ℕ)
  /-- Undo or redo brings back the markers of another canvas. -/
  | canvasRestored (markers : Markers)
  | stateLoaded (loaded : Option (Option ℤ × Markers))
  | wavesLoaded (newWaves : WaveContainer) (loadOptions : LoadOptions)
  | transactionStreamsLoaded
  | waveBodyLoaded (body : BodyResult)
  | variablesAdded (vars : List VariableRef)
  | signalsLoaded (res : LoadSignalsResult)
  /-- Another part of the user interface calls a CXXRTL container. -/
  | cxxrtlCalled (call : Cxxrtl.Call)
  /-- A server has sent a message. -/
  | messageSent (msg : Except String SCMessage)
  | tick
  /-- A task fills in the values of one of the samples that are left. -/
  | samplesFilled (i j : ℕ)
  | openMemoryViewer (scope : ScopeRef) (name : Option String)
  | draw (controls : Controls)

namespace SystemState

/-- The step of an event. -/
def step (env : Env) (s : SystemState) (event : Event) : Run SystemState :=
  match event with
  | .cursorSet time => .ok (s.onWaves fun waves => { waves with cursor := time })
  | .markerSet i time => .ok (s.onWaves fun waves => { waves with markers := waves.markers.insert i time })
  | .markerRemoved i => .ok (s.onWaves fun waves => { waves with markers := waves.markers.remove i })
  | .canvasRestored markers => .ok (s.onWaves fun waves => { waves with markers })
  | .stateLoaded loaded => .ok (s.loadState loaded)
  | .wavesLoaded newWaves loadOptions => .ok (s.onWavesLoaded newWaves loadOptions)
  | .transactionStreamsLoaded =>
    .ok { s with waves := some { inner := none, cursor := none, markers := .empty } }
  | .waveBodyLoaded body =>
    if s.waves.isSome then .ok (s.onContainer (·.addBody body))
    else .error (.expect "Waves should be loaded at this point!")
  | .variablesAdded vars =>
    match s.waves.bind Waves.inner with
    | none => .ok s
    | some w => s.withContainer <$> w.loadVariables vars
  | .signalsLoaded res =>
    if s.waves.isSome then .ok (s.onContainer (·.onSignalsLoaded res))
    else .error (.expect "Waves should be loaded at this point!")
  | .cxxrtlCalled call => .ok (s.onContainer (·.onCxxrtl call.apply))
  | .messageSent msg =>
    .ok (s.onContainer (·.onCxxrtl fun c => { c with scMessages := c.scMessages ++ [msg] }))
  | .tick => .ok (s.onContainer (·.onCxxrtl CxxrtlContainer.tick))
  | .samplesFilled i j =>
    .ok (s.onContainer (·.onCxxrtl fun c =>
      { c with data := { c.data with
          intervalQueryCache := c.data.intervalQueryCache.work env.decode i j } }))
  | .openMemoryViewer scope name => s.openMemoryViewer scope name
  | .draw controls => Prod.snd <$> s.draw env controls

end SystemState

end MemoryViewer
