import Kahuna.Wave.Data

/-!
# Messages

The model of `SystemState::update` for the messages that add, move, select, fold, group and remove
items, of undo and redo, and of loading waveforms and states (`lib.rs`, `state.rs`).
-/

namespace Wave

open ItemTree Decoders

/-- What the update depends on besides the state. -/
structure Env where
  /-- The largest number of undo steps. -/
  undoStackSize : ℕ
  /-- Whether `numeric_sort` puts the first name in front of the second, or finds them equal. -/
  numericLe : String → String → Bool
  /-- The name an item is shown with. -/
  itemName : WaveData → DisplayedItemRef → String
  /-- How the number of an annotation is written for debugging. -/
  idText : AnnotationId → String
  /-- How an optional name is written for debugging. -/
  nameText : Option String → String

/-- An environment with the default number of undo steps, for names that are in order. -/
def defaultEnv : Env :=
  { undoStackSize := 50
    numericLe := fun _ _ => true
    itemName := fun _ _ => ""
    idText := fun id => toString id
    nameText := fun name => name.getD "" }

/-- What undo and redo restore, with the text of the step between it and the next canvas. -/
structure CanvasState where
  message : String
  focusedItem : Option ℕ
  focusedTransaction : FocusedTransaction
  itemsTree : DisplayedItemTree
  displayedItems : FiniteMap DisplayedItemRef DisplayedItem
  markers : FiniteMap ℕ ℤ
  annotations : List Annotation
  annotationGroup : List AnnotationGroup
  annotationList : Bool
  selectedAnnotation : Option AnnotationId
  annotationCounter : ℤ

/-- The state that is saved to a file. -/
structure UserState where
  waves : Option WaveData
  /-- The waveform data of a state that was opened before its waveform. -/
  previousWaves : Option WaveData
  dragStarted : Bool
  dragSourceIdx : Option ℕ
  dragTargetIdx : Option TargetPosition
  showDecoderDialog : Option DecoderInstance

/-- The state of the program. The last element of a `Vec` used as a stack is the head here. -/
structure SystemState where
  user : UserState
  undoStack : List CanvasState
  redoStack : List CanvasState
  /-- The number of the next annotation. -/
  annotationIdSource : ℕ

/-- Which waveform items to keep when a waveform is loaded. -/
inductive LoadOptions where
  | clear
  | keepAvailable
  | keepAll
  deriving DecidableEq, Repr

/-- Which items a message is about. -/
inductive MessageTarget where
  | explicit (vidx : ℕ)
  | currentSelection
  deriving DecidableEq, Repr

/-- The messages. -/
inductive Message where
  | addVariables (vars : List VariableRef)
  | addDivider (name : Option String) (vidx : Option ℕ)
  | addTimeLine (vidx : Option ℕ)
  | addScope (scope : ScopeRef) (recursive : Bool)
  | addScopeAsGroup (scope : ScopeRef) (recursive : Bool)
  | addMarker (time : ℤ) (name : Option String) (moveFocus : Bool)
  | setMarker (id : ℕ) (time : ℤ)
  | removeMarker (id : ℕ)
  | moveMarkerToCursor (idx : ℕ)
  | resolveMarkerSet (name : String) (time : ℤ)
  | resolveMarkerRemove (name : String)
  | addDraggedVariables (refs : List VariableRef)
  | decoderAdd (protocol : Protocol) (items : Option (List DisplayedItemRef))
  | decoderConfigure (instance_ : DecoderInstance) (settings : DecoderSettings)
      (bindings : RoleBindings)
  | focusItem (idx : ℕ)
  | unfocusItem
  | focusTransaction (txRef tx : Option ℕ)
  | moveFocus (direction : MoveDir) (count : ℕ) (select : Bool)
  | itemSelectRange (selectTo : ℕ)
  | itemSelectAll
  | itemSelectionClear
  | setItemSelected (vidx : ℕ) (selected : Bool)
  | toggleItemSelected (vidx : Option ℕ)
  | removeVisibleItems (target : MessageTarget)
  | removeItems (items : List DisplayedItemRef)
  | removePlaceholders
  | moveFocusedItem (direction : MoveDir) (count : ℕ)
  | variableDragStarted (vidx : ℕ)
  | variableDragTargetChanged (position : TargetPosition)
  | variableDragFinished
  | groupNew (name : Option String) (before : Option ℕ) (items : Option (List DisplayedItemRef))
  | groupDissolve (itemRef : Option DisplayedItemRef)
  | groupFold (itemRef : Option DisplayedItemRef)
  | groupUnfold (itemRef : Option DisplayedItemRef)
  | groupFoldRecursive (itemRef : Option DisplayedItemRef)
  | groupUnfoldRecursive (itemRef : Option DisplayedItemRef)
  | groupFoldAll
  | groupUnfoldAll
  | rectangleAdded (waveFrom waveTo : Option DisplayedItemRef)
  | arrowAdded (wavePointFrom wavePointTo : Option DisplayedItemRef)
  | removeAnnotation (id : AnnotationId)
  | annotationClicked (id : Option AnnotationId)
  | toggleAnnotationListVisibility
  | createAnnotationGroup (name : String)
  | deleteAnnotationGroup (name : String)
  | deleteAllAnnotationInGroup (name : String)
  | updateAnnotationGroup (id : AnnotationId) (name : Option String)
  | undo (count : ℕ)
  | redo (count : ℕ)
  | wavesLoaded (newWaves : WaveContainer) (loadOptions : LoadOptions)
  | loadState (loaded : UserState)

/-! ## Items -/

namespace WaveData

/-- The variables of a scope, sorted by name. -/
def sortedVariables (env : Env) (w : WaveData) (scope : ScopeRef) : List VariableRef :=
  (w.inner.variablesInScope scope).insertionSort fun a b => env.numericLe a.name b.name

/-- `get_scope`, for scopes nested no deeper than `depth`. -/
def getScope (env : Env) (w : WaveData) : ℕ → ScopeRef → Bool → List VariableRef
  | 0, scope, _ => w.sortedVariables env scope
  | depth + 1, scope, recursive =>
    w.sortedVariables env scope ++
      if recursive then
        (w.inner.childScopes scope).flatMap fun child => getScope env w depth child true
      else []

/-- The loop of `add_scope_as_group` over the scopes inside the scope. -/
def addScopesAsGroups (add : ScopeRef → TargetPosition → WaveData → Run (TargetPosition × WaveData))
    (level : ℕ) : List ScopeRef → TargetPosition → WaveData → Run (TargetPosition × WaveData)
  | [], pos, w => .ok (pos, w)
  | scope :: rest, pos, w => do
    let (pos, w) ← add scope pos w
    addScopesAsGroups add level rest ⟨pos.before, level⟩ w

/-- The group of `add_scope_as_group` with the variables of the scope. Returns the position behind
them. -/
def addScopeVariables (env : Env) (scope : ScopeRef) (pos : TargetPosition) (w : WaveData) :
    Run (TargetPosition × WaveData) := do
  let refs := w.sortedVariables env scope
  let (_, w) ← w.addGroup scope.name (some pos)
  let level := wrappingAdd pos.level 1
  let (itemRefs, w) ← w.addVariables refs (some ⟨pos.before + 1, level⟩) false
  return (⟨pos.before + 1 + itemRefs.length, level⟩, w)

/-- `add_scope_as_group`, for scopes nested no deeper than `depth`: a group with the variables of
the scope and, if `recursive`, with a group for each of its scopes. Returns the position behind. -/
def addScopeAsGroup (env : Env) :
    ℕ → Bool → ScopeRef → TargetPosition → WaveData → Run (TargetPosition × WaveData)
  | 0, _, scope, pos, w => addScopeVariables env scope pos w
  | depth + 1, recursive, scope, pos, w => do
    let children := w.inner.childScopes scope
    let (intoGroup, w) ← addScopeVariables env scope pos w
    if recursive then
      addScopesAsGroups (addScopeAsGroup env depth true) intoGroup.level children intoGroup w
    else return (intoGroup, w)

/-- `index_for_ref_or_focus`. -/
def indexForRefOrFocus (w : WaveData) (itemRef : Option DisplayedItemRef) : Option ℕ :=
  match itemRef with
  | some itemRef => w.itemsTree.items.findIdx? (·.itemRef == itemRef)
  | none => w.focusedItem.bind w.itemsTree.toDisplayed

/-- `iter_visible_selected`: the references of the visible selected nodes. -/
def visibleSelected (w : WaveData) : List DisplayedItemRef :=
  (w.itemsTree.iterVisible.filter Node.selected).map Node.itemRef

/-! ## Focus -/

/-- `Message::FocusItem`, whose limit is the number of all items. -/
def focusItem (w : WaveData) (idx : ℕ) : WaveData :=
  if idx < w.displayedItems.size then { w with focusedItem := some idx } else w

/-- The new focus of `Message::MoveFocus`. Without a focus, moving down starts in front of the first
item: `usize::MAX` wraps around when `count` is added. -/
def movedFocus (w : WaveData) (direction : MoveDir) (count visibleItems : ℕ) : ℕ :=
  match direction with
  | .up => w.focusedItem.getD visibleItems - count
  | .down =>
    match w.focusedItem with
    | some vidx => min (vidx + count) (visibleItems - 1)
    | none => if count = 0 then visibleItems - 1 else min (count - 1) (visibleItems - 1)

/-- `Message::MoveFocus`. -/
def moveFocus (w : WaveData) (direction : MoveDir) (count : ℕ) (select : Bool) : WaveData :=
  let visibleItems := w.itemsTree.visible.length
  if visibleItems = 0 then w
  else
    let vidx := w.movedFocus direction count visibleItems
    let tree :=
      if select then
        (match w.focusedItem with
          | some focused => w.itemsTree.xselect focused true
          | none => w.itemsTree).xselect vidx true
      else w.itemsTree
    { w with itemsTree := tree, focusedItem := some vidx }

/-- `Message::ToggleItemSelected`. -/
def toggleItemSelected (w : WaveData) (vidx : Option ℕ) : WaveData :=
  match (vidx.or w.focusedItem).bind w.itemsTree.toDisplayed with
  | none => w
  | some item =>
    { w with
      itemsTree := w.itemsTree.modifyWhere (· == item) fun x => { x with selected := !x.selected } }

/-! ## Moving -/

/-- The loop of `Message::MoveFocusedItem`. -/
def moveItemTimes (direction : MoveDir) : ℕ → ℕ → WaveData → Run (ℕ × WaveData)
  | 0, vidx, w => .ok (vidx, w)
  | count + 1, vidx, w => do
    let (result, tree) ← w.itemsTree.moveItem vidx direction w.isGroup
    match result with
    | .error _ => .error (.expect "move failed for unknown reason")
    | .ok vidx => moveItemTimes direction count vidx { w with itemsTree := tree }

/-- `Message::MoveFocusedItem`. -/
def moveFocusedItem (w : WaveData) (direction : MoveDir) (count : ℕ) : Run WaveData :=
  match w.focusedItem with
  | none => .ok w
  | some vidx => do
    let (vidx, w) ← moveItemTimes direction count vidx w
    return { w with focusedItem := some vidx }

/-- The items a drag moves: the visible selected ones, the focused one and the dragged one. -/
def draggedItems (w : WaveData) (source : ℕ) : List ℕ :=
  w.itemsTree.visible.filter (fun i => (w.itemsTree.items[i]?).any Node.selected)
    ++ (w.focusedItem.bind w.itemsTree.toDisplayed).toList
    ++ (w.itemsTree.toDisplayed source).toList

/-- The visible index of an item. -/
def visibleIndexOf (tree : DisplayedItemTree) (itemRef : DisplayedItemRef) : Option ℕ :=
  tree.iterVisible.findIdx? (·.itemRef == itemRef)

/-- The reordering of `Message::VariableDragFinished`. The focus follows its item. -/
def dragFinished (w : WaveData) (source : ℕ) (target : TargetPosition) : Run WaveData := do
  let focusedItemRef := (w.focusedItem.bind w.itemsTree.getVisible).map Node.itemRef
  let (_, tree) ← w.itemsTree.moveItems (w.draggedItems source) target
  return { w with itemsTree := tree, focusedItem := focusedItemRef.bind (visibleIndexOf tree) }

/-! ## Groups -/

/-- The position `Message::GroupNew` is passed, or the one at the focus. -/
def passedOrFocused (w : WaveData) (before : Option ℕ) : Option TargetPosition :=
  (before.bind fun before =>
    (w.itemsTree.items[before]?).map fun node => (⟨before, node.level⟩ : TargetPosition)).or
    (w.insertPosition w.focusedItem)

/-- The items `Message::GroupNew` moves. The focused item comes along when it is the anchor. -/
def groupedItems (w : WaveData) (before : Option ℕ) (items : Option (List DisplayedItemRef)) :
    Run (List DisplayedItemRef) :=
  let itemRefs := items.getD w.visibleSelected
  if before.isNone && (w.passedOrFocused before).isSome then
    match (w.focusedItem.bind w.itemsTree.toDisplayed).bind fun i => w.itemsTree.items[i]? with
    | none => .error (.expect "Inconsistent state")
    | some node => .ok (itemRefs ++ [node.itemRef])
  else .ok itemRefs

/-- The item indices of the nodes of some items. -/
def indicesOf (tree : DisplayedItemTree) (itemRefs : List DisplayedItemRef) : List ℕ :=
  (List.range tree.items.length).filter fun i =>
    (tree.items[i]?).any fun node => itemRefs.contains node.itemRef

/-- `Message::GroupNew`: a new group, and the items moved into it if that succeeds. -/
def groupNew (w : WaveData) (name : Option String) (before : Option ℕ)
    (items : Option (List DisplayedItemRef)) : Run WaveData := do
  let target := (w.passedOrFocused before).getD w.endInsertPosition
  let itemRefs ← w.groupedItems before items
  if itemRefs = [] then return w
  else
    let (groupRef, w) ← w.addGroup (name.getD "Group") (some target)
    let (_, tree) ← w.itemsTree.moveItems (indicesOf w.itemsTree itemRefs)
      ⟨target.before + 1, saturatingAdd target.level 1⟩
    let tree := tree.xselectAllVisible false
    return { w with itemsTree := tree, focusedItem := visibleIndexOf tree groupRef }

/-- `Message::GroupDissolve`. -/
def groupDissolve (w : WaveData) (itemRef : Option DisplayedItemRef) : Run WaveData :=
  match w.indexForRefOrFocus itemRef with
  | none => .ok w
  | some itemIndex => do
    let (removed, tree) ← w.itemsTree.removeDissolve itemIndex
    return { w with itemsTree := tree, displayedItems := w.displayedItems.remove removed }

/-- The focus when an item is folded: it is dropped when it may be folded away. -/
def focusAfterFold (w : WaveData) (item : ℕ) : Run (Option ℕ) :=
  match w.focusedItem with
  | none => .ok none
  | some focused =>
    match w.itemsTree.toDisplayed focused with
    | none => .error (.expect "Inconsistent state")
    | some idx =>
      match w.itemsTree.subtreeContains item idx with
      | .error p => .error p
      | .ok contained => .ok (if contained then none else some focused)

/-- Fold or unfold a node, with all below it if `recursive`. -/
def foldNode (tree : DisplayedItemTree) (item : ℕ) (unfold recursive : Bool) :
    Run DisplayedItemTree :=
  if recursive then tree.xfoldRecursive item unfold else tree.xfold item unfold

/-- `Message::GroupFold`, `Message::GroupUnfold` and their recursive forms. -/
def groupFold (w : WaveData) (itemRef : Option DisplayedItemRef) (unfold recursive : Bool) :
    Run WaveData :=
  match w.indexForRefOrFocus itemRef with
  | none => .ok w
  | some item => do
    let focusedItem ← w.focusAfterFold item
    let tree ← foldNode w.itemsTree item unfold recursive
    return { w with itemsTree := tree, focusedItem }

/-- The focus when all is folded or unfolded: it is dropped when it is folded away. -/
def focusAfterFoldAll (w : WaveData) (unfold : Bool) : Run (Option ℕ) :=
  match w.focusedItem with
  | none => .ok none
  | some focused =>
    match w.itemsTree.getVisible focused with
    | none => .error (.expect "Inconsistent state")
    | some node => .ok (if !unfold && 0 < node.level then none else some focused)

/-- `Message::GroupFoldAll` and `Message::GroupUnfoldAll`. -/
def groupFoldAll (w : WaveData) (unfold : Bool) : Run WaveData := do
  let focusedItem ← w.focusAfterFoldAll unfold
  return { w with itemsTree := w.itemsTree.xfoldAll unfold, focusedItem }

/-- The items `Message::DecoderAdd` takes its signals from: an explicit list, else the selection,
else every item. -/
def decoderItems (w : WaveData) (items : Option (List DisplayedItemRef)) : List DisplayedItemRef :=
  items.getD <|
    if w.visibleSelected = [] then w.itemsTree.items.map Node.itemRef else w.visibleSelected

/-- `Message::RemoveVisibleItems` for the selection and the focused item. -/
def removeSelection (w : WaveData) : Run WaveData :=
  w.removeDisplayedItems
    (w.visibleSelected ++ ((w.focusedItem.bind w.itemsTree.getVisible).map Node.itemRef).toList)

/-- `Message::RemoveItems`, from the largest reference to the smallest. -/
def removeItems (w : WaveData) (items : List DisplayedItemRef) : Run WaveData :=
  w.removeDisplayedItems (items.insertionSort fun a b => b ≤ a)

/-! ## Undo and redo -/

/-- `current_canvas_state`. -/
def currentCanvasState (w : WaveData) (message : String) : CanvasState :=
  { message
    focusedItem := w.focusedItem
    focusedTransaction := w.focusedTransaction
    itemsTree := w.itemsTree
    displayedItems := w.displayedItems
    markers := w.markers
    annotations := w.annotations
    annotationGroup := w.annotationGroups
    annotationList := w.annotationListVisible
    selectedAnnotation := w.selectedAnnotation
    annotationCounter := w.annotationCounter }

/-- The waveform data with another canvas. -/
def restore (w : WaveData) (c : CanvasState) : WaveData :=
  { w with
    focusedItem := c.focusedItem
    focusedTransaction := c.focusedTransaction
    itemsTree := c.itemsTree
    displayedItems := c.displayedItems
    markers := c.markers
    annotations := c.annotations
    annotationGroups := c.annotationGroup
    annotationListVisible := c.annotationList
    selectedAnnotation := c.selectedAnnotation
    annotationCounter := c.annotationCounter }

/-- The loop of `Message::Undo`, from one stack to the other. `Message::Redo` is the same with the
stacks exchanged. The text of a step goes along with it from stack to stack. -/
def exchangeCanvas : ℕ → WaveData → List CanvasState → List CanvasState →
    WaveData × List CanvasState × List CanvasState
  | 0, w, stack, other => (w, stack, other)
  | _ + 1, w, [], other => (w, [], other)
  | count + 1, w, c :: stack, other =>
    exchangeCanvas count (w.restore c) stack (w.currentCanvasState c.message :: other)

end WaveData

/-! ## The state -/

namespace SystemState

/-- Change the waveform data; nothing happens without a waveform. -/
def onWaves (σ : SystemState) (f : WaveData → Run WaveData) : Run SystemState :=
  match σ.user.waves with
  | none => .ok σ
  | some w => do
    let w ← f w
    return { σ with user := { σ.user with waves := some w } }

/-- `save_current_canvas`: push the canvas to the undo stack and forget what was undone. -/
def saveCurrentCanvas (env : Env) (σ : SystemState) (message : String) : SystemState :=
  match σ.user.waves with
  | none => σ
  | some w =>
    let undoStack := w.currentCanvasState message :: σ.undoStack
    -- the oldest canvas is dropped when the stack has grown too large
    { σ with
      undoStack := if env.undoStackSize < undoStack.length then undoStack.dropLast else undoStack
      redoStack := [] }

/-- Save the canvas, then change the waveform data. -/
def edit (env : Env) (σ : SystemState) (message : String) (f : WaveData → Run WaveData) :
    Run SystemState :=
  (σ.saveCurrentCanvas env message).onWaves f

/-- `Message::Undo`. -/
def undo (σ : SystemState) (count : ℕ) : SystemState :=
  match σ.user.waves with
  | none => σ
  | some w =>
    let (w, undoStack, redoStack) := w.exchangeCanvas count σ.undoStack σ.redoStack
    { σ with user := { σ.user with waves := some w }, undoStack, redoStack }

/-- `Message::Redo`. -/
def redo (σ : SystemState) (count : ℕ) : SystemState :=
  match σ.user.waves with
  | none => σ
  | some w =>
    let (w, redoStack, undoStack) := w.exchangeCanvas count σ.redoStack σ.undoStack
    { σ with user := { σ.user with waves := some w }, undoStack, redoStack }

/-- `Message::DecoderAdd`. Without signals only the canvas was saved. -/
def decoderAdd (env : Env) (σ : SystemState) (protocol : Protocol)
    (items : Option (List DisplayedItemRef)) : Run SystemState :=
  let σ := σ.saveCurrentCanvas env ("Add " ++ protocol.display ++ " decoder")
  match σ.user.waves with
  | none => .ok σ
  | some w =>
    let signals := w.signalsOf (w.decoderItems items)
    if signals = [] then .ok σ
    else do
      let (instance_, w) ← w.addDecoder protocol signals (w.insertPosition w.focusedItem)
      let user := { σ.user with waves := some w, showDecoderDialog := some instance_ }
      return { σ with user }

/-- `Message::AddDraggedVariables`. -/
def addDraggedVariables (σ : SystemState) (refs : List VariableRef) : Run SystemState :=
  match σ.user.waves with
  | none => .ok σ
  | some w => do
    let (_, w) ← { w with focusedItem := none }.addVariables refs σ.user.dragTargetIdx false
    let user := { σ.user with waves := some w, dragSourceIdx := none, dragTargetIdx := none }
    return { σ with user }

/-- `Message::VariableDragFinished`. The source and the target are taken one after the other. -/
def variableDragFinished (env : Env) (σ : SystemState) : Run SystemState :=
  let user := { σ.user with dragStarted := false }
  match user.dragSourceIdx with
  | none => .ok { σ with user }
  | some source =>
    let user := { user with dragSourceIdx := none }
    match user.dragTargetIdx with
    | none => .ok { σ with user }
    | some target =>
      { σ with user := { user with dragTargetIdx := none } }.edit env "Drag item"
        (·.dragFinished source target)

/-- The default group of the annotation list. -/
def ungrouped : AnnotationGroup :=
  { name := WaveData.defaultGroupName, cycleCounter := 0, annotations := [] }

/-- The state after a first waveform was loaded. -/
def fresh (inner : WaveContainer) : SystemState where
  user :=
    { waves := some { WaveData.loaded inner with annotationGroups := [ungrouped] }
      previousWaves := none
      dragStarted := false
      dragSourceIdx := none
      dragTargetIdx := none
      showDecoderDialog := none }
  undoStack := []
  redoStack := []
  annotationIdSource := 0

/-- `on_waves_loaded`. -/
def onWavesLoaded (σ : SystemState) (newWaves : WaveContainer) (loadOptions : LoadOptions) :
    Run SystemState :=
  let keepAll := loadOptions = .keepAll
  match (if loadOptions = .clear then none else σ.user.waves), σ.user.previousWaves with
  | some w, _ => do
    let w ← w.updateWithWaves newWaves keepAll
    return { σ with user := { σ.user with waves := some w } }
  | none, some old => do
    let w ← old.updateWithWaves newWaves keepAll
    return { σ with user := { σ.user with waves := some w, previousWaves := none } }
  | none, none =>
    let w := { WaveData.loaded newWaves with annotationGroups := [ungrouped] }
    .ok { σ with user := { σ.user with waves := some w } }

/-- The waveform data with the display of a loaded state. The counter of decoder instances stays
with the waveform. -/
def withDisplay (w new : WaveData) : Run WaveData := do
  let w ← w.updateWithItems new.displayedItems new.itemsTree
  return { w with
    cursor := new.cursor
    markers := new.markers
    focusedItem := new.focusedItem
    annotations := new.annotations
    annotationGroups := new.annotationGroups
    annotationListVisible := new.annotationListVisible
    annotationCounter := new.annotationCounter
    selectedAnnotation := new.selectedAnnotation }

/-- `load_state`: everything but the waveform is taken from the loaded state. -/
def loadState (σ : SystemState) (loaded : UserState) : Run SystemState :=
  let user :=
    { loaded with
      waves := σ.user.waves
      previousWaves := none
      dragStarted := false
      dragSourceIdx := none
      dragTargetIdx := none }
  match σ.user.waves, loaded.waves with
  | some w, some new => do
    let w ← withDisplay w new
    return { σ with user := { user with waves := some w } }
  | _, _ => .ok { σ with user }

/-! ## Messages -/

/-- The text of a step that depends on the waveform data; none is kept without a waveform. -/
def stepText (σ : SystemState) (text : WaveData → String) : String := σ.user.waves.elim "" text

/-- The text of `Message::AddVariables`. -/
def addVariablesText (vars : List VariableRef) : String :=
  match vars with
  | [v] => "Add variable " ++ v.name
  | vars => "Add " ++ toString vars.length ++ " variables"

/-- The text of `Message::RemoveVisibleItems` for one item. -/
def removeOneText (env : Env) (vidx : ℕ) (w : WaveData) : String :=
  match (w.itemsTree.getVisible vidx).filter fun node =>
      (w.displayedItems.get node.itemRef).isSome with
  | some node => "Remove item " ++ env.itemName w node.itemRef
  | none => "Remove one item"

/-- The text of `Message::RemoveItems`. -/
def removeItemsText (env : Env) (items : List DisplayedItemRef) (w : WaveData) : String :=
  match items with
  | [itemRef] =>
    if (w.displayedItems.get itemRef).isSome then "Remove item " ++ env.itemName w itemRef else ""
  | items => "Remove " ++ toString items.length ++ " items"

/-- The text of `Message::GroupFold` and its kin. -/
def foldText (unfold recursive : Bool) : String :=
  (if unfold then "Unfold group" else "Fold group") ++ if recursive then " recursive" else ""

/-- The text of `Message::GroupFoldAll` and `Message::GroupUnfoldAll`, as the source has it. -/
def foldAllText (unfold : Bool) : String := if unfold then "Fold all groups" else "Unfold all groups"

/-- The display of `MoveDir`. -/
def directionText (direction : MoveDir) : String :=
  match direction with
  | .up => "up"
  | .down => "down"

/-- `Message::AddMarker`. -/
def addMarker (env : Env) (σ : SystemState) (time : ℤ) (name : Option String) (moveFocus : Bool) :
    Run SystemState :=
  let text :=
    match name with
    | some name => "Add marker " ++ name ++ " at " ++ toString time
    | none => "Add marker at " ++ toString time
  σ.edit env text (·.addMarker time name moveFocus)

/-- `Message::SetMarker`. -/
def setMarker (env : Env) (σ : SystemState) (id : ℕ) (time : ℤ) : Run SystemState :=
  σ.edit env ("Set marker " ++ toString id ++ " to " ++ toString time) (·.setMarkerPosition id time)

/-- `Message::RemoveMarker`, which cannot be undone. -/
def removeMarker (σ : SystemState) (id : ℕ) : Run SystemState := σ.onWaves (·.removeMarker id)

/-- `Message::ResolveMarkerSet`: set the marker of that name, or add one. -/
def resolveMarkerSet (env : Env) (σ : SystemState) (name : String) (time : ℤ) : Run SystemState :=
  match σ.user.waves with
  | none => .ok σ
  | some w =>
    match w.resolveMarkerName name with
    | some id => σ.setMarker env id time
    | none => σ.addMarker env time (some name) true

/-- `Message::ResolveMarkerRemove`. -/
def resolveMarkerRemove (σ : SystemState) (name : String) : Run SystemState :=
  match σ.user.waves.bind (·.resolveMarkerName name) with
  | some id => σ.removeMarker id
  | none => .ok σ

/-- `Message::FocusTransaction`. Only a focus without its transaction can be undone. -/
def focusTransaction (env : Env) (σ : SystemState) (txRef tx : Option ℕ) : Run SystemState :=
  let σ :=
    match txRef, tx with
    | some id, none => σ.saveCurrentCanvas env ("Focus Transaction id: " ++ toString id)
    | _, _ => σ
  σ.onWaves fun w => .ok { w with focusedTransaction := (txRef, tx.or w.focusedTransaction.2) }

/-- `Message::RectangleAdded` and `Message::ArrowAdded`: the number is used up even without a
waveform. -/
def annotationAdded (env : Env) (σ : SystemState) (kind : String)
    (attached : List DisplayedItemRef) : Run SystemState :=
  let id := σ.annotationIdSource
  { σ with annotationIdSource := id + 1 }.edit env ("Add " ++ kind ++ " " ++ env.idText id)
    fun w => .ok <| w.addAnnotation id attached

/-- `SystemState::update`. -/
def update (env : Env) (σ : SystemState) (message : Message) : Run SystemState :=
  match message with
  | .addVariables vars =>
    if vars = [] then .ok σ
    else σ.edit env (addVariablesText vars) fun w => Prod.snd <$> w.addVariables vars none false
  | .addDivider name vidx => σ.edit env "Add divider" fun w => Prod.snd <$> w.addDivider name vidx
  | .addTimeLine vidx => σ.edit env "Add timeline" fun w => Prod.snd <$> w.addTimeline vidx
  | .addScope scope recursive =>
    σ.edit env ("Add scope " ++ scope.name) fun w =>
      Prod.snd <$> w.addVariables (w.getScope env w.inner.hierarchy.depth scope recursive) none false
  | .addScopeAsGroup scope recursive =>
    σ.edit env ("Add scope " ++ scope.name ++ " as group") fun w =>
      let target := (w.insertPosition w.focusedItem).getD w.endInsertPosition
      Prod.snd <$> WaveData.addScopeAsGroup env w.inner.hierarchy.depth recursive scope target w
  | .addMarker time name moveFocus => σ.addMarker env time name moveFocus
  | .setMarker id time => σ.setMarker env id time
  | .removeMarker id => σ.removeMarker id
  | .moveMarkerToCursor idx => σ.edit env "Move marker" (·.moveMarkerToCursor idx)
  | .resolveMarkerSet name time => σ.resolveMarkerSet env name time
  | .resolveMarkerRemove name => σ.resolveMarkerRemove name
  | .addDraggedVariables refs => σ.addDraggedVariables refs
  | .decoderAdd protocol items => σ.decoderAdd env protocol items
  | .decoderConfigure instance_ settings bindings =>
    σ.edit env "Configure decoder" fun w => .ok (w.configureDecoder instance_ settings bindings)
  | .focusItem idx => σ.onWaves fun w => .ok (w.focusItem idx)
  | .unfocusItem => σ.onWaves fun w => .ok { w with focusedItem := none }
  | .focusTransaction txRef tx => σ.focusTransaction env txRef tx
  | .moveFocus direction count select => σ.onWaves fun w => .ok (w.moveFocus direction count select)
  | .itemSelectRange selectTo =>
    σ.onWaves fun w =>
      match w.focusedItem with
      | none => .ok w
      | some selectFrom =>
        .ok { w with itemsTree := w.itemsTree.xselectVisibleRange selectFrom selectTo true }
  | .itemSelectAll =>
    σ.onWaves fun w => .ok { w with itemsTree := w.itemsTree.xselectAllVisible true }
  | .itemSelectionClear =>
    σ.onWaves fun w => .ok { w with itemsTree := w.itemsTree.xselectAllVisible false }
  | .setItemSelected vidx selected =>
    σ.onWaves fun w => .ok { w with itemsTree := w.itemsTree.xselect vidx selected }
  | .toggleItemSelected vidx => σ.onWaves fun w => .ok (w.toggleItemSelected vidx)
  | .removeVisibleItems (.explicit vidx) =>
    σ.edit env (σ.stepText (removeOneText env vidx)) fun w =>
      match w.itemsTree.getVisible vidx with
      | none => .ok w
      | some node => w.removeDisplayedItem node.itemRef
  | .removeVisibleItems .currentSelection =>
    σ.edit env "Remove selected items" WaveData.removeSelection
  | .removeItems items => σ.edit env (σ.stepText (removeItemsText env items)) (·.removeItems items)
  | .removePlaceholders => σ.onWaves fun w => .ok w.removePlaceholders
  | .moveFocusedItem direction count =>
    σ.edit env ("Move item " ++ directionText direction ++ ", " ++ toString count)
      (·.moveFocusedItem direction count)
  | .variableDragStarted vidx =>
    .ok { σ with
      user :=
        { σ.user with dragStarted := true, dragSourceIdx := some vidx, dragTargetIdx := none } }
  | .variableDragTargetChanged position =>
    .ok { σ with user := { σ.user with dragTargetIdx := some position } }
  | .variableDragFinished => σ.variableDragFinished env
  | .groupNew name before items =>
    σ.edit env ("Create group " ++ name.getD "") (·.groupNew name before items)
  | .groupDissolve itemRef => σ.edit env "Dissolve group" (·.groupDissolve itemRef)
  | .groupFold itemRef => σ.edit env (foldText false false) (·.groupFold itemRef false false)
  | .groupUnfold itemRef => σ.edit env (foldText true false) (·.groupFold itemRef true false)
  | .groupFoldRecursive itemRef => σ.edit env (foldText false true) (·.groupFold itemRef false true)
  | .groupUnfoldRecursive itemRef => σ.edit env (foldText true true) (·.groupFold itemRef true true)
  | .groupFoldAll => σ.edit env (foldAllText false) (·.groupFoldAll false)
  | .groupUnfoldAll => σ.edit env (foldAllText true) (·.groupFoldAll true)
  | .rectangleAdded waveFrom waveTo =>
    -- a rectangle is attached to the items of both corners, an arrow to that of its head
    σ.annotationAdded env "rectangle" (waveFrom.toList ++ waveTo.toList)
  | .arrowAdded _ wavePointTo => σ.annotationAdded env "arrow" wavePointTo.toList
  | Message.removeAnnotation id =>
    σ.edit env ("Removed annotation " ++ env.idText id) fun w => .ok <| w.removeAnnotation id
  | .annotationClicked id => σ.onWaves fun w => .ok { w with selectedAnnotation := id }
  | .toggleAnnotationListVisibility =>
    σ.onWaves fun w => .ok { w with annotationListVisible := !w.annotationListVisible }
  | .createAnnotationGroup name =>
    σ.edit env ("Added annotation group " ++ name) fun w => .ok (w.createAnnotationGroup name)
  | .deleteAnnotationGroup name =>
    σ.edit env ("Removed annotation group " ++ name) fun w => .ok (w.deleteGroup name)
  | .deleteAllAnnotationInGroup name =>
    σ.edit env ("Removed annotation group " ++ name ++ " and all it's annotations")
      fun w => .ok (w.removeAllAnnotationsFromGroup name)
  | .updateAnnotationGroup id name =>
    σ.edit env ("Added " ++ env.idText id ++ " to " ++ env.nameText name)
      fun w => .ok (w.updateAnnotationGroup id name)
  | .undo count => .ok (σ.undo count)
  | .redo count => .ok (σ.redo count)
  | .wavesLoaded newWaves loadOptions => σ.onWavesLoaded newWaves loadOptions
  | .loadState loaded => σ.loadState loaded

end SystemState

end Wave
