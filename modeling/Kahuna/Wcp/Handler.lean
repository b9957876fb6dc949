import Kahuna.View.Motion
import Kahuna.Wave.Bijection
import Kahuna.Wave.Names

/-!
# The waveform control protocol

The model of the messages of `surfer-wcp` and of what `wcp_handler.rs` does with those of a client. A message is
handled on the state of the program, and the handler answers it, or panics. Numbers stand for item references on both
sides.

Left out are the colours of items, and what becomes of a load that is started: its waveform arrives as another
message.
-/

namespace Wcp

open Wave ItemTree

/-! ## Messages -/

/-- `ItemInfo`. -/
structure ItemInfo where
  name : String
  t : String
  id : DisplayedItemRef
  deriving DecidableEq, Repr

/-- `MarkerInfo`. -/
structure MarkerInfo where
  time : ℤ
  name : Option String
  moveFocus : Bool
  deriving DecidableEq, Repr

/-- `WcpResponse`. -/
inductive WcpResponse where
  | getItemList (ids : List DisplayedItemRef)
  | getItemInfo (results : List ItemInfo)
  | addItems (ids : List DisplayedItemRef)
  | addVariables (ids : List DisplayedItemRef)
  | addScope (ids : List DisplayedItemRef)
  | addMarkers (ids : List DisplayedItemRef)
  | ack
  deriving DecidableEq, Repr

/-- `WcpEvent`. -/
inductive WcpEvent where
  | waveformsLoaded (source : String)
  | gotoDeclaration (variableName : String)
  | addDrivers (variableName : String)
  | addLoads (variableName : String)
  deriving DecidableEq, Repr

/-- `WcpSCMessage`: what the server sends. -/
inductive WcpSCMessage where
  | greeting (version : String) (commands : List String)
  | response (result : WcpResponse)
  | error (error : String) (arguments : List String) (message : String)
  | event (event : WcpEvent)
  deriving DecidableEq, Repr

/-- `WcpCommand`. -/
inductive WcpCommand where
  | getItemList
  | getItemInfo (ids : List DisplayedItemRef)
  | setItemColor (id : DisplayedItemRef) (color : String)
  | addVariables (names : List String)
  | addScope (scope : String) (recursive : Bool)
  | addItems (items : List String) (recursive : Bool)
  | addMarkers (markers : List MarkerInfo)
  | reload
  | setViewportTo (timestamp : ℤ)
  | setViewportRange (start stop : ℤ)
  | removeItems (ids : List DisplayedItemRef)
  | focusItem (id : DisplayedItemRef)
  | clear
  | load (source : String)
  | zoomToFit (viewportIdx : ℕ)
  | setCursor (timestamp : ℤ)
  | shutdown
  deriving DecidableEq, Repr

/-- `WcpCSMessage`: what a client sends. -/
inductive WcpCSMessage where
  | greeting (version : String) (commands : List String)
  | command (command : WcpCommand)
  deriving DecidableEq, Repr

/-- `create_error`, without arguments as all callers have it. -/
def WcpSCMessage.createError (error message : String) : WcpSCMessage := .error error [] message

/-! ## The program -/

/-- `WaveSource`. -/
inductive WaveSource where
  | file (path : String)
  | data
  | dragAndDrop (path : Option String)
  | url (url : String)
  | cxxrtl (url : Option String)
  deriving DecidableEq, Repr

/-- A load of a waveform that is started. -/
structure Load where
  source : WaveSource
  options : LoadOptions
  deriving DecidableEq, Repr

/-- `WcpClientCapabilities`. -/
structure WcpClientCapabilities where
  waveformsLoaded : Bool
  gotoDeclaration : Bool
  addDrivers : Bool
  addLoads : Bool
  deriving DecidableEq, Repr

/-- The part of the program that the handler uses. Viewports, the largest time and the source belong to the waveform
data, and are not looked at without it. -/
structure App where
  state : SystemState
  viewports : List View.Viewport
  maxTimestamp : Option ℤ
  source : WaveSource
  wcpGreeted : Bool
  wcpClientCapabilities : WcpClientCapabilities
  /-- The loads that were started. -/
  started : List Load

/-- `url_to_wavesource`. -/
def urlToWavesource (url : String) : Option WaveSource :=
  if "https://".toList <+: url.toList ∨ "http://".toList <+: url.toList then some (.url url)
  else (Text.stripPrefix "cxxrtl+tcp://".toList url.toList).map fun address =>
    .cxxrtl (some (String.ofList address))

/-- `string_to_wavesource`. -/
def stringToWavesource (path : String) : WaveSource := (urlToWavesource path).getD (.file path)

/-- The scope that a text names. -/
def scopeFromHierarchyString (s : String) : ScopeRef :=
  { strs := (s.toList.splitOn '.').map String.ofList, id := none }

/-- The name of an item, and the kind of it. -/
def itemInfo (env : Env) (w : WaveData) (id : DisplayedItemRef) (item : DisplayedItem) : ItemInfo :=
  let (name, t) : String × String :=
    match item with
    | .variable_ v => (v.manualName.getD (env.itemName w id), "Variable")
    | .divider name => (name.getD "Name not found!", "Divider")
    | .marker name _ => (name.getD "Name not found!", "Marker")
    | .timeLine name => (name.getD "Name not found!", "TimeLine")
    | .placeholder p => (p.manualName.getD "Name not found!", "Placeholder")
    | .stream displayName => (displayName, "Stream")
    | .group name => (name, "Group")
    | .decoder d => (d.manualName.getD d.displayName, "Decoder")
  { name, t, id }

/-- `{:?}` of a reference. -/
def idText (id : DisplayedItemRef) : String := "DisplayedItemRef(" ++ toString id ++ ")"

/-- `get_displayed_items`. -/
def getDisplayedItems (w : WaveData) : List DisplayedItemRef := w.itemsTree.iterVisible.map Node.itemRef

/-- `add_marker`, with the reference of the item. -/
def addMarkerRef (w : WaveData) (location : ℤ) (name : Option String) (moveFocus : Bool) :
    Run (Option DisplayedItemRef × WaveData) :=
  if WaveData.maxMarkers ≤ w.markers.size then .ok (none, w)
  else
    match (List.range WaveData.maxMarkers).find? fun idx => (w.markers.get idx).isNone with
    | none => .ok (none, w)
    | some idx => do
      let (itemRef, w) ← w.insertItem (.marker name idx) none moveFocus
      return (some itemRef, { w with markers := w.markers.insert idx location })

/-- The message that adds a marker does the same. -/
theorem addMarker_eq (w : WaveData) (location : ℤ) (name : Option String) (moveFocus : Bool) :
    w.addMarker location name moveFocus = Prod.snd <$> addMarkerRef w location name moveFocus := by
  unfold WaveData.addMarker addMarkerRef
  by_cases hfull : WaveData.maxMarkers ≤ w.markers.size
  · rw [if_pos hfull, if_pos hfull]
    rfl
  · rw [if_neg hfull, if_neg hfull]
    cases (List.range WaveData.maxMarkers).find? fun idx => (w.markers.get idx).isNone with
    | none => rfl
    | some idx =>
      dsimp only
      cases w.insertItem (.marker name idx) none moveFocus with
      | error p => rfl
      | ok r => rfl

/-- The loop of `add_markers`, which ends at the first marker that cannot be added. -/
def addMarkersLoop : List MarkerInfo → WaveData → Run (Option (List DisplayedItemRef) × WaveData)
  | [], w => .ok (some [], w)
  | marker :: rest, w => do
    let (id, w) ← addMarkerRef w marker.time marker.name marker.moveFocus
    match id with
    | none => return (none, w)
    | some id =>
      let (ids, w) ← addMarkersLoop rest w
      return (ids.map (id :: ·), w)

/-- The answer to `add_markers`. -/
def addMarkersAnswer (ids : Option (List DisplayedItemRef)) : WcpSCMessage :=
  match ids with
  | some ids => .response (.addMarkers ids)
  | none => .createError "add_markers" "Cannot add marker"

/-- The loop of `get_item_info`, which ends at the first item that does not exist. -/
def getItemInfo (env : Env) (w : WaveData) : List DisplayedItemRef → Except DisplayedItemRef (List ItemInfo)
  | [] => .ok []
  | id :: rest =>
    match w.displayedItems.get id with
    | none => .error id
    | some item => (itemInfo env w id item :: ·) <$> getItemInfo env w rest

/-! ## The handler -/

/-- What the handler does with a message: the new state and the answer. -/
abbrev Handled := App × Option WcpSCMessage

namespace App

/-- `send_response`. -/
def sendResponse (app : App) (result : WcpResponse) : Handled := (app, some (.response result))

/-- `send_error`. -/
def sendError (app : App) (error message : String) : Handled := (app, some (.createError error message))

/-- The state is updated. -/
def update (env : Env) (app : App) (message : Message) : Run App := do
  let state ← app.state.update env message
  return { app with state }

/-- A change of a viewport, without which there is none. -/
def modifyViewport (app : App) (viewportIdx : ℕ) (f : View.Viewport → View.Viewport) : Run App :=
  match app.viewports[viewportIdx]? with
  | none => .error .outOfBounds
  | some v => .ok { app with viewports := app.viewports.set viewportIdx (f v) }

/-- A change of a viewport of a file that has been loaded. -/
def onViewport (app : App) (viewportIdx : ℕ) (f : View.Viewport → ℤ → View.Viewport) : Run App :=
  match app.state.user.waves, app.maxTimestamp with
  | some _, some maxTimestamp => app.modifyViewport viewportIdx (f · maxTimestamp)
  | _, _ => .ok app

/-- `Message::ZoomToFit`, for which the file need not have been loaded. -/
def zoomToFit (app : App) (viewportIdx : ℕ) : Run App :=
  match app.state.user.waves with
  | none => .ok app
  | some _ => app.modifyViewport viewportIdx View.Viewport.zoomToFit

/-- A load is started. -/
def start (app : App) (load : Load) : App := { app with started := app.started ++ [load] }

/-- `Message::ReloadWaveform`, of which the items that are still there are kept. -/
def reloadWaveform (app : App) : App :=
  match app.state.user.waves, app.source with
  | some _, .file path => app.start ⟨.file path, .keepAvailable⟩
  | some _, .dragAndDrop (some path) => app.start ⟨.file path, .keepAvailable⟩
  | some _, .url url => app.start ⟨.url url, .keepAvailable⟩
  -- can't reload
  | _, _ => app

/-- `Message::CursorSet`. -/
def cursorSet (app : App) (time : ℤ) : Run App := do
  let state ← app.state.onWaves fun w => .ok { w with cursor := some time }
  return { app with state }

/-- `Message::ItemColorChange`, of which only the canvas is seen here. -/
def itemColorChange (env : Env) (app : App) (color : String) : App :=
  { app with state := app.state.saveCurrentCanvas env ("Change item color to " ++ color) }

/-- The waveform data is changed after the canvas was saved, and the change is answered. -/
def edit (env : Env) (app : App) (text error message : String) (f : WaveData → Run (WcpSCMessage × WaveData)) :
    Run Handled :=
  match app.state.user.waves with
  | none => .ok (app.sendError error message)
  | some w => do
    let state := app.state.saveCurrentCanvas env text
    let (answer, w) ← f w
    return ({ app with state := { state with user := { state.user with waves := some w } } }, some answer)

/-- Variables are added, and the answer has their references. -/
def addVariables (env : Env) (app : App) (text error message : String) (refs : WaveData → List VariableRef)
    (ignoreFailures : Bool) (response : List DisplayedItemRef → WcpResponse) : Run Handled :=
  app.edit env text error message fun w => do
    let (ids, w) ← w.addVariables (refs w) none ignoreFailures
    return (.response (response ids), w)

/-- `get_scope`. -/
def getScope (env : Env) (scope : ScopeRef) (recursive : Bool) (w : WaveData) : List VariableRef :=
  w.getScope env w.inner.hierarchy.depth scope recursive

/-- The variables of `add_items`: each text is taken for a variable and for a scope. -/
def itemRefs (env : Env) (items : List String) (recursive : Bool) (w : WaveData) : List VariableRef :=
  items.flatMap fun item =>
    VariableRef.fromHierarchyString item :: getScope env (scopeFromHierarchyString item) recursive w

/-- The commands of `handle_wcp_cs_message`. -/
def handleCommand (env : Env) (app : App) (command : WcpCommand) : Run Handled :=
  match command with
  | .getItemList =>
    match app.state.user.waves with
    | some w => .ok (app.sendResponse (.getItemList (getDisplayedItems w)))
    | none => .ok (app.sendError "No waveform loaded" "No waveform loaded")
  | .getItemInfo ids =>
    match app.state.user.waves with
    -- the name of another command, as the source has it
    | none => .ok (app.sendError "remove_items" "No waveform loaded")
    | some w =>
      match Wcp.getItemInfo env w ids with
      | .ok results => .ok (app.sendResponse (.getItemInfo results))
      | .error id => .ok (app.sendError "get_item_info" ("No item with id " ++ idText id))
  | .addVariables names =>
    app.addVariables env ("Add " ++ toString names.length ++ " variables") "add_variables"
      "Can't add signals. No waveform loaded" (fun _ => names.map VariableRef.fromHierarchyString) false .addVariables
  | .addScope scope recursive =>
    app.addVariables env ("Add scope " ++ scope) "scope_add" "No waveform loaded"
      (getScope env (scopeFromHierarchyString scope) recursive) false .addScope
  | .addItems items recursive =>
    app.addVariables env ("Add " ++ toString items.length ++ " items") "add_items"
      "Can't add items. No waveform loaded" (itemRefs env items recursive) true .addItems
  | .addMarkers markers =>
    app.edit env ("Add " ++ toString markers.length ++ " markers") "add_markers" "No waveform loaded" fun w => do
      let (ids, w) ← addMarkersLoop markers w
      return (addMarkersAnswer ids, w)
  | .reload => .ok (app.reloadWaveform.sendResponse .ack)
  | .setViewportTo timestamp => do
    let app ← app.onViewport 0 fun v maxTimestamp => v.goToTime timestamp maxTimestamp
    return app.sendResponse .ack
  | .setViewportRange start stop => do
    let app ← app.onViewport 0 fun v maxTimestamp => v.zoomToRange start stop maxTimestamp
    return app.sendResponse .ack
  | .setItemColor id color =>
    match app.state.user.waves with
    | none => .ok (app.sendError "set_item_color" "No waveform loaded")
    | some w =>
      match WaveData.visibleIndexOf w.itemsTree id with
      | some _ => .ok ((app.itemColorChange env color).sendResponse .ack)
      | none => .ok (app.sendError "set_item_color" ("Item " ++ idText id ++ " not found"))
  | .removeItems ids =>
    match app.state.user.waves with
    | none => .ok (app.sendError "remove_items" "No waveform loaded")
    | some _ => do
      let app ← app.update env (.removeItems ids)
      return app.sendResponse .ack
  | .focusItem id =>
    match app.state.user.waves with
    | none => .ok (app.sendError "remove_items" "No waveform loaded")
    | some w =>
      match WaveData.visibleIndexOf w.itemsTree id with
      | some vidx => do
        let app ← app.update env (.focusItem vidx)
        return app.sendResponse .ack
      | none => .ok (app.sendError "focus_item" ("No item with ID " ++ idText id))
  | .clear =>
    match app.state.user.waves with
    | none => .ok (app.sendResponse .ack)
    | some w => do
      let app ← app.update env (.removeItems (getDisplayedItems w))
      return app.sendResponse .ack
  | .load source =>
    match stringToWavesource source with
    | .url url => .ok ((app.start ⟨.url url, .clear⟩).sendResponse .ack)
    | .file path => .ok ((app.start ⟨.file path, .clear⟩).sendResponse .ack)
    | _ => .ok (app.sendError "load" (source ++ " is not legal wave source"))
  | .zoomToFit viewportIdx => do
    let app ← app.zoomToFit viewportIdx
    return app.sendResponse .ack
  | .setCursor timestamp => do
    let app ← app.cursorSet timestamp
    return app.sendResponse .ack
  -- should not reach this place
  | .shutdown => .ok (app, none)

/-- The commands that the server says it has. -/
def greetingCommands : List String :=
  ["add_variables", "set_viewport_to", "cursor_set", "reload", "add_scope", "add_items", "get_item_list",
    "set_item_color", "get_item_info", "clear_item", "focus_item", "clear", "load", "zoom_to_fit", "add_markers",
    "set_viewport_range_to"]

/-- The greeting of a client, of which only the first version is known. -/
def handleGreeting (app : App) (version : String) (commands : List String) : Handled :=
  if version = "0" then
    ({ app with
        wcpClientCapabilities :=
          { waveformsLoaded := commands.contains "waveforms_loaded"
            gotoDeclaration := commands.contains "goto_declaration"
            addDrivers := commands.contains "add_drivers"
            addLoads := commands.contains "add_loads" }
        wcpGreeted := true },
      some (.greeting "0" greetingCommands))
  else app.sendError "greeting" ("Surfer only supports WCP version 0, client requested " ++ version)

/-- `handle_wcp_cs_message`. -/
def handleWcpCsMessage (env : Env) (app : App) (message : WcpCSMessage) : Run Handled :=
  match message with
  | .greeting version commands => .ok (app.handleGreeting version commands)
  | .command command =>
    if app.wcpGreeted then app.handleCommand env command
    else .ok (app.sendError "WCP server has not received greeting messages" "")

end App

end Wcp
