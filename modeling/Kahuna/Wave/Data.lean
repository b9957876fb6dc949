import Kahuna.Decoders.Settings
import Kahuna.FiniteMap.Basic

/-!
# Waveform data and the items displayed for it

The model of `wave_data.rs`, of `displayed_item.rs` and of the marker operations of `marker.rs`. The
items are kept in a map, under the references that the nodes of the tree carry.

Left out is what only drawing, scrolling and searching use: colours, formats of fields, display
names of variables, viewports, and the data of transaction streams. The order in which a `HashMap`
is traversed is unspecified; here it is the order of the entries.
-/

namespace Wave

open ItemTree Decoders

/-! ## Items -/

/-- Identifies all rows produced by one configured decoder. -/
abbrev DecoderInstance := ℕ

/-- A variable on display. -/
structure DisplayedVariable where
  variableRef : VariableRef
  manualName : Option String
  format : Option String
  deriving DecidableEq, Repr

/-- A variable that the waveform does not have. -/
structure DisplayedPlaceholder where
  variableRef : VariableRef
  manualName : Option String
  format : Option String
  deriving DecidableEq, Repr

/-- One output row of a protocol decoder. -/
structure DisplayedDecoder where
  instance_ : DecoderInstance
  settings : DecoderSettings
  bindings : RoleBindings
  /-- Index into the output rows of the decoder. -/
  lane : ℕ
  displayName : String
  manualName : Option String
  deriving DecidableEq, Repr

/-- An item on display. -/
inductive DisplayedItem where
  | variable_ (v : DisplayedVariable)
  | divider (name : Option String)
  | marker (name : Option String) (idx : ℕ)
  | timeLine (name : Option String)
  | placeholder (p : DisplayedPlaceholder)
  | stream (displayName : String)
  | group (name : String)
  | decoder (d : DisplayedDecoder)
  deriving DecidableEq, Repr

namespace DisplayedItem

/-- Whether the item is a group. -/
def isGroup (item : DisplayedItem) : Bool :=
  match item with
  | .group _ => true
  | _ => false

/-- Whether the item is a placeholder. -/
def isPlaceholder (item : DisplayedItem) : Bool :=
  match item with
  | .placeholder _ => true
  | _ => false

end DisplayedItem

/-- `into_placeholder`: placeholders do not refer to currently loaded variables. -/
def DisplayedVariable.intoPlaceholder (v : DisplayedVariable) : DisplayedPlaceholder :=
  { variableRef := v.variableRef.clearId, manualName := v.manualName, format := v.format }

/-- `into_variable`. -/
def DisplayedPlaceholder.intoVariable (p : DisplayedPlaceholder) (updated : VariableRef) :
    DisplayedVariable :=
  { variableRef := updated, manualName := p.manualName, format := p.format }

/-- `DisplayedVariable::update`, after a new waveform has been loaded. -/
def DisplayedVariable.update (v : DisplayedVariable) (newWaves : WaveContainer)
    (keepUnavailable : Bool) : Option DisplayedItem :=
  match newWaves.updateVariableRef v.variableRef with
  | none => if keepUnavailable then some (.placeholder v.intoPlaceholder) else none
  | some newRef => some (.variable_ { v with variableRef := newRef })

/-! ## Waveform data -/

/-- Key of an annotation. -/
abbrev AnnotationId := ℕ

/-- An annotation, as far as its items are concerned. -/
structure Annotation where
  id : AnnotationId
  /-- The items the annotation is attached to. -/
  attached : List DisplayedItemRef
  deriving DecidableEq, Repr

/-- A group of the annotation list. -/
structure AnnotationGroup where
  name : String
  cycleCounter : ℕ
  annotations : List AnnotationId
  deriving DecidableEq, Repr

/-- The focused transaction: its reference and the transaction, both by its number. -/
abbrev FocusedTransaction := Option ℕ × Option ℕ

/-- A loaded waveform with all that is displayed of it. -/
structure WaveData where
  inner : WaveContainer
  itemsTree : DisplayedItemTree
  displayedItems : FiniteMap DisplayedItemRef DisplayedItem
  /-- The last item reference handed out. -/
  displayItemRefCounter : ℕ
  /-- The next decoder instance to hand out. -/
  nextDecoderInstance : ℕ
  cursor : Option ℤ
  markers : FiniteMap ℕ ℤ
  selectedAnnotation : Option AnnotationId
  annotations : List Annotation
  annotationGroups : List AnnotationGroup
  annotationListVisible : Bool
  annotationCounter : ℤ
  focusedItem : Option ℕ
  focusedTransaction : FocusedTransaction
  /-- Counts the reloads of the waveform. -/
  cacheGeneration : ℕ

namespace WaveData

/-- The waveform data of a file that was just loaded. -/
def loaded (inner : WaveContainer) : WaveData :=
  { inner
    itemsTree := { items := [] }
    displayedItems := .empty
    displayItemRefCounter := 0
    nextDecoderInstance := 0
    cursor := none
    markers := .empty
    selectedAnnotation := none
    annotations := []
    annotationGroups := []
    annotationListVisible := false
    annotationCounter := 0
    focusedItem := none
    focusedTransaction := (none, none)
    cacheGeneration := 0 }

/-- Whether the item of a node is a group. -/
def isGroup (w : WaveData) (node : Node) : Bool :=
  (w.displayedItems.get node.itemRef).any DisplayedItem.isGroup

/-! ### Inserting -/

/-- `insert_position`: in front of the first element of an unfolded group, behind a folded group,
otherwise behind the item at its level. -/
def insertPosition (w : WaveData) (vidx : Option ℕ) : Option TargetPosition := do
  let vidx ← vidx
  let itemIndex ← w.itemsTree.toDisplayed vidx
  let node ← w.itemsTree.items[itemIndex]?
  let item ← w.displayedItems.get node.itemRef
  if item.isGroup then
    if node.unfolded then some ⟨itemIndex + 1, wrappingAdd node.level 1⟩
    else
      match w.itemsTree.toDisplayed (vidx + 1) with
      | some idx => some ⟨idx, node.level⟩
      | none => some ⟨w.itemsTree.items.length, node.level⟩
  else some ⟨itemIndex + 1, node.level⟩

/-- The insert position as last item. -/
def endInsertPosition (w : WaveData) : TargetPosition := ⟨w.itemsTree.items.length, 0⟩

/-- The place an item is inserted at: the given one, or the one at the focus, or the end. -/
def targetOrFocus (w : WaveData) (target : Option TargetPosition) : TargetPosition :=
  (target.or (w.insertPosition w.focusedItem)).getD w.endInsertPosition

/-- `insert_item`: insert an item, and move the focus to it if there is one. -/
def insertItem (w : WaveData) (newItem : DisplayedItem) (target : Option TargetPosition)
    (moveFocus : Bool) : Run (DisplayedItemRef × WaveData) :=
  let itemRef := w.displayItemRefCounter + 1
  match w.itemsTree.insertItem itemRef (w.targetOrFocus target) with
  | (.error _, _) => .error .unwrap
  | (.ok insertIndex, tree) =>
    .ok (itemRef,
      { w with
        itemsTree := tree.xselectAllVisible false
        displayedItems := w.displayedItems.insert itemRef newItem
        displayItemRefCounter := itemRef
        focusedItem :=
          if moveFocus then w.focusedItem.bind fun _ => tree.visible.findIdx? (· == insertIndex)
          else w.focusedItem })

/-- The loop of `add_variables`. -/
def addVariablesLoop (ignoreFailures : Bool) :
    List VariableRef → TargetPosition → WaveData → Run (List DisplayedItemRef × WaveData)
  | [], _, w => .ok ([], w)
  | v :: rest, target, w =>
    match w.inner.variableMeta v with
    | .error p => .error p
    | .ok none =>
      if ignoreFailures then addVariablesLoop ignoreFailures rest target w else .ok ([], w)
    | .ok (some _) => do
      let item := .variable_ { variableRef := v, manualName := none, format := none }
      let (itemRef, w) ← w.insertItem item (some target) true
      let (itemRefs, w) ← addVariablesLoop ignoreFailures rest ⟨target.before + 1, target.level⟩ w
      return (itemRef :: itemRefs, w)

/-- `add_variables`: one item per variable, in order. -/
def addVariables (w : WaveData) (refs : List VariableRef) (target : Option TargetPosition)
    (ignoreFailures : Bool) : Run (List DisplayedItemRef × WaveData) :=
  match w.inner.loadVariables refs with
  | .error p => .error p
  | .ok () => addVariablesLoop ignoreFailures refs (w.targetOrFocus target) w

/-- `add_divider`. -/
def addDivider (w : WaveData) (name : Option String) (vidx : Option ℕ) :
    Run (DisplayedItemRef × WaveData) :=
  w.insertItem (.divider name) (w.insertPosition vidx) true

/-- `add_timeline`. -/
def addTimeline (w : WaveData) (vidx : Option ℕ) : Run (DisplayedItemRef × WaveData) :=
  w.insertItem (.timeLine none) (w.insertPosition vidx) true

/-- `add_group`. -/
def addGroup (w : WaveData) (name : String) (target : Option TargetPosition) :
    Run (DisplayedItemRef × WaveData) :=
  w.insertItem (.group name) target true

/-! ### Removing -/

/-- What is dropped together with a removed node: its item, the marker of a marker item, and the
annotations that are attached to it. -/
def forgetItem (w : WaveData) (removed : DisplayedItemRef) : WaveData :=
  { w with
    displayedItems := w.displayedItems.remove removed
    markers :=
      match w.displayedItems.get removed with
      | some (.marker _ idx) => w.markers.remove idx
      | _ => w.markers
    annotations := w.annotations.filter fun a => !a.attached.contains removed }

/-- The focus after a removal: on the same item, else at the same visible index, else on the last
visible item. -/
def refocus (tree : DisplayedItemTree) (focusedItem : Option ℕ)
    (focusedItemRef : Option DisplayedItemRef) : Option ℕ :=
  focusedItemRef.bind fun itemRef =>
    match tree.iterVisible.findIdx? (·.itemRef == itemRef) with
    | some vidx => some vidx
    | none =>
      if (focusedItem.bind tree.toDisplayed).isSome then focusedItem
      else if tree.iterVisible.length = 0 then none else some (tree.iterVisible.length - 1)

/-- `remove_displayed_item`: remove a single item with what is below it. -/
def removeDisplayedItem (w : WaveData) (id : DisplayedItemRef) : Run WaveData :=
  match w.itemsTree.items.findIdx? (·.itemRef == id) with
  | none => .ok w
  | some idx =>
    let focusedItemRef := (w.focusedItem.bind w.itemsTree.getVisible).map Node.itemRef
    match w.itemsTree.removeRecursive idx with
    | .error p => .error p
    | .ok (removed, tree) =>
      let w' := removed.foldl forgetItem w
      .ok
        { w' with
          itemsTree := tree
          focusedItem := refocus tree w.focusedItem focusedItemRef }

/-- Remove several items, one after the other. -/
def removeDisplayedItems (w : WaveData) : List DisplayedItemRef → Run WaveData
  | [] => .ok w
  | id :: rest => do
    let w ← w.removeDisplayedItem id
    w.removeDisplayedItems rest

/-- `remove_placeholders`. -/
def removePlaceholders (w : WaveData) : WaveData :=
  let (removed, tree) := w.itemsTree.drainRecursiveIf fun node =>
    (w.displayedItems.get node.itemRef).any DisplayedItem.isPlaceholder
  { w with
    itemsTree := tree
    displayedItems := removed.foldl FiniteMap.remove w.displayedItems }

/-! ### Decoders -/

/-- The loop of `add_decoder` over the lanes, last lane first. -/
def addLanes (decoder : ℕ → DisplayedDecoder) (target : Option TargetPosition) :
    List ℕ → WaveData → Run WaveData
  | [], w => .ok w
  | lane :: rest, w => do
    let (_, w) ← w.insertItem (.decoder (decoder lane)) target (lane == 0)
    addLanes decoder target rest w

/-- `add_decoder`: one row per output lane, all sharing a fresh instance. Each insert goes before the
same target, so walking the lanes backwards leaves them in order. -/
def addDecoder (w : WaveData) (protocol : Protocol) (signals : List VariableRef)
    (target : Option TargetPosition) : Run (DecoderInstance × WaveData) := do
  let instance_ := w.nextDecoderInstance
  let settings := DecoderSettings.forProtocol protocol
  let bindings := RoleBindings.guess protocol signals
  let decoder (lane : ℕ) : DisplayedDecoder :=
    { instance_
      settings
      bindings
      lane
      displayName := protocol.display ++ " " ++ settings.laneNames[lane]?.getD ""
      manualName := none }
  let lanes := (List.range settings.laneNames.length).reverse
  let w ← addLanes decoder target lanes { w with nextDecoderInstance := instance_ + 1 }
  return (instance_, w)

/-- New settings and bindings for one row. The generated name is kept in step with the protocol. -/
def configureRow (settings : DecoderSettings) (bindings : RoleBindings) (d : DisplayedDecoder) :
    DisplayedDecoder :=
  { d with
    settings
    bindings
    displayName :=
      match settings.laneNames[d.lane]? with
      | some name => settings.protocol.display ++ " " ++ name
      | none => d.displayName }

/-- `configure_decoder`: apply new settings to every row of one decoder. -/
def configureDecoder (w : WaveData) (instance_ : DecoderInstance) (settings : DecoderSettings)
    (bindings : RoleBindings) : WaveData :=
  { w with
    displayedItems := w.displayedItems.updateValues fun _ item =>
      match item with
      | .decoder d =>
        if d.instance_ = instance_ then some (.decoder (configureRow settings bindings d))
        else some (.decoder d)
      | item => some item }

/-- The variable of a node. -/
def variableOf (w : WaveData) (node : Node) : Option VariableRef :=
  match w.displayedItems.get node.itemRef with
  | some (.variable_ v) => some v.variableRef
  | _ => none

/-- The loop of `signals_of`: a group contributes the variables inside it. -/
def signalsLoop (w : WaveData) (items : List DisplayedItemRef) : List Node → List VariableRef
  | [] => []
  | node :: rest =>
    let own :=
      if items.contains node.itemRef then
        if w.isGroup node then
          (rest.takeWhile fun n => node.level < n.level).filterMap w.variableOf
        else (w.variableOf node).toList
      else []
    own ++ signalsLoop w items rest

/-- `dedup_by` with the comparison of references: the first of neighbouring equal ones is kept. -/
def dedupRefs : List VariableRef → List VariableRef
  | [] => []
  | r :: rest =>
    match dedupRefs rest with
    | [] => [r]
    | r' :: rest' => if r.eq r' then r :: rest' else r :: r' :: rest'

/-- `signals_of`: the variables referenced by `items`, in tree order. -/
def signalsOf (w : WaveData) (items : List DisplayedItemRef) : List VariableRef :=
  dedupRefs (w.signalsLoop items w.itemsTree.items)

/-! ### Markers -/

/-- The number of markers there may be; they are numbered below it. -/
def maxMarkers : ℕ := 255

/-- `add_marker`: a marker with the first free number. -/
def addMarker (w : WaveData) (location : ℤ) (name : Option String) (moveFocus : Bool) :
    Run WaveData :=
  if maxMarkers ≤ w.markers.size then .ok w
  else
    match (List.range maxMarkers).find? fun idx => (w.markers.get idx).isNone with
    | none => .ok w
    | some idx => do
      let (_, w) ← w.insertItem (.marker name idx) none moveFocus
      return { w with markers := w.markers.insert idx location }

/-- The item of a marker is created if it does not exist. -/
def ensureMarker (w : WaveData) (idx : ℕ) : Run WaveData :=
  if (w.markers.get idx).isSome then .ok w
  else Prod.snd <$> w.insertItem (.marker none idx) none true

/-- `set_marker_position`. -/
def setMarkerPosition (w : WaveData) (idx : ℕ) (location : ℤ) : Run WaveData := do
  let w ← w.ensureMarker idx
  return { w with markers := w.markers.insert idx location }

/-- `move_marker_to_cursor`. -/
def moveMarkerToCursor (w : WaveData) (idx : ℕ) : Run WaveData :=
  match w.cursor with
  | some location => w.setMarkerPosition idx location
  | none => .ok w

/-- `remove_marker`. -/
def removeMarker (w : WaveData) (idx : ℕ) : Run WaveData :=
  let entry := w.displayedItems.entries.find? fun e =>
    match e.2 with
    | .marker _ i => i == idx
    | _ => false
  match entry with
  | some e => w.removeDisplayedItem e.1
  | none => .ok w

/-- `numbered_marker_time`. -/
def numberedMarkerTime (w : WaveData) (idx : ℕ) : Run ℤ :=
  match w.markers.get idx with
  | some time => .ok time
  | none => .error .unwrap

/-- `str::parse::<u8>`: decimal digits, after an optional plus sign. -/
def parseU8 (text : List Char) : Option ℕ :=
  let digits : List Char :=
    match text with
    | '+' :: rest => rest
    | _ => text
  let value : ℕ := digits.foldl (fun n c => n * 10 + (c.toNat - '0'.toNat)) 0
  if digits ≠ [] ∧ digits.all Char.isDigit ∧ value ≤ 255 then some value else none

/-- `resolve_marker_name`: a number after `#`, or the number of a marker of that name. -/
def resolveMarkerName (w : WaveData) (name : String) : Option ℕ :=
  match name.toList with
  | '#' :: idText => parseU8 idText
  | _ =>
    w.displayedItems.entries.findSome? fun e =>
      match e.2 with
      | .marker (some n) idx => if n = name then some idx else none
      | _ => none

/-! ### Annotations -/

/-- The group that new annotations go to, `DEFAULT_GROUP_NAME`. -/
def defaultGroupName : String := "Ungrouped"

/-- `add_annotation_to_group`, which takes the first group of the name; without one, nothing
happens. -/
def addToGroup (name : String) (id : AnnotationId) : List AnnotationGroup → List AnnotationGroup
  | [] => []
  | group :: rest =>
    if group.name = name then { group with annotations := group.annotations ++ [id] } :: rest
    else group :: addToGroup name id rest

/-- `remove_annotation_from_group`, which takes the annotation out of the first group that has it;
`none` when no group has it. -/
def removeFromGroups (id : AnnotationId) : List AnnotationGroup → Option (List AnnotationGroup)
  | [] => none
  | group :: rest =>
    if group.annotations.contains id then
      some ({ group with cycleCounter := 0, annotations := group.annotations.erase id } :: rest)
    else (removeFromGroups id rest).map (group :: ·)

/-- The annotation that `Message::RectangleAdded` or `Message::ArrowAdded` creates. -/
def addAnnotation (w : WaveData) (id : AnnotationId) (attached : List DisplayedItemRef) :
    WaveData :=
  { w with
    annotationCounter := w.annotationCounter + 1
    annotations := w.annotations ++ [{ id, attached }]
    annotationGroups := addToGroup defaultGroupName id w.annotationGroups }

/-- `Message::RemoveAnnotation`. -/
def removeAnnotation (w : WaveData) (id : AnnotationId) : WaveData :=
  { w with
    annotations := w.annotations.filter fun a => a.id != id
    annotationGroups := (removeFromGroups id w.annotationGroups).getD w.annotationGroups }

/-- `Message::CreateAnnotationGroup`. -/
def createAnnotationGroup (w : WaveData) (name : String) : WaveData :=
  { w with
    annotationGroups := w.annotationGroups ++ [{ name, cycleCounter := 0, annotations := [] }] }

/-- `delete_group`: the first group of the name. -/
def deleteGroup (w : WaveData) (name : String) : WaveData :=
  { w with annotationGroups := w.annotationGroups.eraseP fun group => group.name == name }

/-- `remove_all_annotations_from_group`: every group of the name is emptied. -/
def removeAllAnnotationsFromGroup (w : WaveData) (name : String) : WaveData :=
  { w with
    annotations := w.annotations.filter fun a =>
      !w.annotationGroups.any fun group => group.name == name && group.annotations.contains a.id
    annotationGroups := w.annotationGroups.map fun group =>
      if group.name = name then { group with cycleCounter := 0, annotations := [] } else group }

/-- `Message::UpdateAnnotationGroup`. Without a name the annotation is only taken out of its group,
and without a group nothing happens. -/
def updateAnnotationGroup (w : WaveData) (id : AnnotationId) (name : Option String) : WaveData :=
  match removeFromGroups id w.annotationGroups with
  | none => w
  | some groups =>
    { w with
      annotationGroups :=
        match name with
        | some name => addToGroup name id groups
        | none => groups }

/-! ### Reloading -/

/-- One step of `update_displayed_items`. A number just looked up is in range, so asking for its
variable does not panic. -/
def updateItem (waves : WaveContainer) (keepUnavailable : Bool) (item : DisplayedItem) :
    Option DisplayedItem :=
  match item with
  | .variable_ v => v.update waves keepUnavailable
  | .placeholder p =>
    match waves.updateVariableRef p.variableRef with
    | none => if keepUnavailable then some (.placeholder p) else none
    | some newRef =>
      match waves.variableMeta newRef with
      | .ok (some _) => some (.variable_ (p.intoVariable newRef))
      | _ => some (.placeholder p)
  -- keep without a change
  | item => some item

/-- Remove the nodes of dropped items from the tree. Only variables and placeholders are dropped,
and no more than one node may go for each. -/
def dropNodes : List DisplayedItemRef → DisplayedItemTree → Run DisplayedItemTree
  | [], tree => .ok tree
  | id :: rest, tree =>
    let (removed, tree) := tree.drainRecursiveIf fun node => node.itemRef == id
    if 1 < removed.length then
      .error (.assertion "more elements removed then should be possible")
    else dropNodes rest tree

/-- `update_displayed_items`: the items for a new container. -/
def updateDisplayedItems (waves : WaveContainer)
    (items : FiniteMap DisplayedItemRef DisplayedItem) (keepUnavailable : Bool)
    (tree : DisplayedItemTree) :
    Run (FiniteMap DisplayedItemRef DisplayedItem × DisplayedItemTree) := do
  let dropped := (items.entries.filter fun e =>
    (updateItem waves keepUnavailable e.2).isNone).map Sigma.fst
  let tree ← dropNodes dropped tree
  return (items.updateValues fun _ item => updateItem waves keepUnavailable item, tree)

/-- The variables on display. -/
def variableRefs (items : FiniteMap DisplayedItemRef DisplayedItem) : List VariableRef :=
  items.entries.filterMap fun e =>
    match e.2 with
    | .variable_ v => some v.variableRef
    | _ => none

/-- `update_metadata` and `load_waves`, as far as they can fail: every variable has metadata. -/
def updateMetadata (waves : WaveContainer) : List VariableRef → Run Unit
  | [] => .ok ()
  | r :: rest =>
    match waves.variableMeta r with
    | .error p => .error p
    | .ok none => .error .unwrap
    | .ok (some _) => updateMetadata waves rest

/-- `update_with_waves`: the same display for a new container. -/
def updateWithWaves (w : WaveData) (newWaves : WaveContainer) (keepUnavailable : Bool) :
    Run WaveData := do
  let (items, tree) ←
    updateDisplayedItems newWaves w.displayedItems keepUnavailable w.itemsTree
  updateMetadata newWaves (variableRefs items)
  return { w with
    inner := newWaves
    itemsTree := tree
    displayedItems := items
    selectedAnnotation := none
    annotationGroups := []
    annotationListVisible := false
    cacheGeneration := w.cacheGeneration + 1 }

/-- `update_with_items`: another display for the same container. -/
def updateWithItems (w : WaveData) (newItems : FiniteMap DisplayedItemRef DisplayedItem)
    (itemsTree : DisplayedItemTree) : Run WaveData := do
  let (items, tree) ← updateDisplayedItems w.inner newItems true itemsTree
  updateMetadata w.inner (variableRefs items)
  return { w with
    itemsTree := tree
    displayedItems := items
    displayItemRefCounter := (items.keys.max?).getD 0 }

end WaveData

end Wave
