import Kahuna.History.Basic
import Kahuna.Wave.Edits

/-!
# What a message does to the items

Which items a message can add, and that it keeps all others, removes them or drops them.

- `Message.effect`, `update_edited`: the edits of the messages that neither undo nor load.
- `Grows`, `update_grows`: the items after a message are old ones, or of a given kind.
- `update_container`: which messages change the container and its generation.
-/

namespace Wave

open ItemTree Decoders

namespace WaveData

variable {w w' : WaveData} {added : DisplayedItem → Prop}

/-- The items of `w'` are items of `w` or satisfy `added`; the container and the counters that belong
to it are the same. -/
structure Grows (added : DisplayedItem → Prop) (w w' : WaveData) : Prop where
  inner : w'.inner = w.inner
  nextDecoderInstance : w'.nextDecoderInstance = w.nextDecoderInstance
  cacheGeneration : w'.cacheGeneration = w.cacheGeneration
  get {k : DisplayedItemRef} {item : DisplayedItem} : w'.displayedItems.get k = some item →
    w.displayedItems.get k = some item ∨ added item

/-- An edit adds the items that it may add. -/
theorem get_of_edit {e : Effect} {c c' : Contents} (h : Edit e c c') {k : DisplayedItemRef}
    {item : DisplayedItem} (hget : c'.items.get k = some item) :
    c.items.get k = some item ∨ e.adds item := by
  have hkept : ∀ {ks : List DisplayedItemRef},
      (ks.foldl FiniteMap.remove c.items).get k = some item → c.items.get k = some item := by
    intro ks hget
    rw [FiniteMap.get_removeAll] at hget
    split at hget
    · cases hget
    · exact hget
  have hinsert : ∀ {k' item'}, e.adds item' → (c.items.insert k' item').get k = some item →
      c.items.get k = some item ∨ e.adds item := by
    intro k' item' hadds hget
    rw [FiniteMap.get_insert] at hget
    split at hget
    · exact .inr (Option.some.inj hget ▸ hadds)
    · exact .inl hget
  cases h with
  | rearrange | moveMarker | annotate => exact .inl hget
  | add hadds => exact hinsert hadds hget
  | addMarker hadds => exact hinsert hadds hget
  | remove =>
    rw [(Contents.foldl_forget _ _).2.1] at hget
    exact .inl (hkept hget)
  | drop => exact .inl (hkept hget)

/-- A change that consists of edits adds the items that they may add. -/
theorem Edited.grows {e : Effect} (h : Edited e w w') : Grows e.adds w w' := by
  refine ⟨h.inner, h.nextDecoderInstance, h.cacheGeneration, fun {k item} hget => ?_⟩
  have hall : ∀ c, Relation.ReflTransGen (Edit e) w.contents c → c.items.get k = some item →
      w.displayedItems.get k = some item ∨ e.adds item := by
    intro c hc
    induction hc with
    | refl => exact .inl
    | tail _ hedit ih => exact fun hget => (get_of_edit hedit hget).elim ih .inr
  exact hall _ h.edits hget

/-! ## Undo and redo -/

/-- One round of the loop: a canvas is exchanged with the one on display, which takes over the text
of the step. -/
def swapCanvas (w : WaveData) (c : CanvasState) : WaveData × CanvasState :=
  (w.restore c, w.currentCanvasState c.message)

theorem exchangeCanvas_eq (count : ℕ) (w : WaveData) (stack other : List CanvasState) :
    w.exchangeCanvas count stack other = History.exchange swapCanvas count w stack other := by
  induction count generalizing w stack other with
  | zero => rfl
  | succ count ih =>
    match stack with
    | [] => rfl
    | c :: stack => exact ih _ _ _

/-- Undo and redo only exchange canvases. -/
theorem exchangeCanvas_all {P : FiniteMap DisplayedItemRef DisplayedItem → Prop} (count : ℕ)
    (stack other : List CanvasState) (hw : P w.displayedItems)
    (hstack : ∀ c ∈ stack, P c.displayedItems) (hother : ∀ c ∈ other, P c.displayedItems) :
    let (w', stack', other') := w.exchangeCanvas count stack other
    w'.inner = w.inner ∧ w'.nextDecoderInstance = w.nextDecoderInstance ∧
      w'.cacheGeneration = w.cacheGeneration ∧ P w'.displayedItems ∧
      (∀ c ∈ stack', P c.displayedItems) ∧ ∀ c ∈ other', P c.displayedItems := by
  -- what the loop keeps of the waveform data, whose items keep `P`
  let Keeps (w' : WaveData) : Prop :=
    w'.inner = w.inner ∧ w'.nextDecoderInstance = w.nextDecoderInstance ∧
      w'.cacheGeneration = w.cacheGeneration ∧ P w'.displayedItems
  have hall := @History.exchange_all _ _ swapCanvas count w stack other Keeps
    (fun c => P c.displayedItems)
    (fun _ _ h hc => ⟨⟨h.1, h.2.1, h.2.2.1, hc⟩, h.2.2.2⟩) ⟨rfl, rfl, rfl, hw⟩ hstack hother
  rw [← exchangeCanvas_eq] at hall
  obtain ⟨⟨hinner, hnext, hgen, hitems⟩, hstack', hother'⟩ := hall
  exact ⟨hinner, hnext, hgen, hitems, hstack', hother'⟩

end WaveData

/-! ## Messages -/

/-- The items a message adds, decoder rows apart. -/
def Message.Adds (env : Env) (w : WaveData) (m : Message) (item : DisplayedItem) : Prop :=
  match m with
  | .addVariables refs | .addDraggedVariables refs => ∃ r ∈ refs, item = WaveData.variableItem r
  | .addScope scope recursive =>
    ∃ r ∈ w.getScope env w.inner.hierarchy.depth scope recursive, item = WaveData.variableItem r
  | .addScopeAsGroup scope _ =>
    (∃ name, item = .group name) ∨
      ∃ s, w.ScopeBelow scope s ∧ ∃ r ∈ w.sortedVariables env s, item = WaveData.variableItem r
  | .addDivider .. => ∃ name, item = .divider name
  | .addTimeLine .. => ∃ name, item = .timeLine name
  | .addMarker .. | .setMarker .. | .moveMarkerToCursor .. | .resolveMarkerSet .. =>
    ∃ name idx, item = .marker name idx
  | .groupNew .. => ∃ name, item = .group name
  | _ => False

/-- The messages that neither concern decoders, nor undo, nor load. -/
def Message.Ordinary (m : Message) : Prop :=
  match m with
  | .decoderAdd .. | .decoderConfigure .. | .undo _ | .redo _ | .wavesLoaded .. | .loadState _ =>
    False
  | _ => True

/-- The items a message removes: some that it names, with all below them. -/
def Message.Removes (w : WaveData) (m : Message) (k : DisplayedItemRef) : Prop :=
  match m with
  | .removeVisibleItems (.explicit vidx) =>
    ∃ node, w.itemsTree.getVisible vidx = some node ∧ w.itemsTree.Covers node.itemRef k
  | .removeVisibleItems .currentSelection =>
    ∃ a ∈ w.visibleSelected ++ ((w.focusedItem.bind w.itemsTree.getVisible).map Node.itemRef).toList,
      w.itemsTree.Covers a k
  | .removeItems items => ∃ a ∈ items, w.itemsTree.Covers a k
  | .removeMarker idx =>
    ∃ a name, w.displayedItems.get a = some (.marker name idx) ∧ w.itemsTree.Covers a k
  | .resolveMarkerRemove text =>
    ∃ idx, w.resolveMarkerName text = some idx ∧
      ∃ a name, w.displayedItems.get a = some (.marker name idx) ∧ w.itemsTree.Covers a k
  | _ => False

/-- The items a message drops, but not what belongs to them: the one it dissolves, or placeholders with
all below them. -/
def Message.Drops (w : WaveData) (m : Message) (k : DisplayedItemRef) : Prop :=
  match m with
  | .groupDissolve itemRef =>
    ∃ i node, w.indexForRefOrFocus itemRef = some i ∧ w.itemsTree.items[i]? = some node ∧
      node.itemRef = k
  | .removePlaceholders =>
    ∃ a p, w.displayedItems.get a = some (.placeholder p) ∧ w.itemsTree.Covers a k
  | _ => False

/-- What is dropped was in the tree. -/
theorem Message.Drops.mem_refs {w : WaveData} {m : Message} {k : DisplayedItemRef} (h : m.Drops w k) :
    k ∈ w.itemsTree.refs := by
  cases m with
  | groupDissolve itemRef =>
    obtain ⟨i, node, -, hnode, rfl⟩ := h
    exact List.mem_map_of_mem (List.mem_of_getElem? hnode)
  | removePlaceholders =>
    obtain ⟨a, p, -, hcovers⟩ := h
    exact hcovers.mem_refs
  | _ => exact h.elim

/-- The messages about annotations and their groups. -/
def Message.Annotates (m : Message) : Prop :=
  match m with
  | .rectangleAdded .. | .arrowAdded .. | Message.removeAnnotation _ | .createAnnotationGroup _
  | .deleteAnnotationGroup _ | .deleteAllAnnotationInGroup _ | .updateAnnotationGroup .. => True
  | _ => False

/-- What a message does to the waveform data, when all it changes besides are the undo stack, the drag that
is going on and the dialog. Undo, redo and loading are left out. -/
def Message.change (env : Env) (σ : SystemState) (m : Message) : Option (WaveData → Run WaveData) :=
  match m with
  | .addVariables vars =>
    some fun w => if vars = [] then .ok w else Prod.snd <$> w.addVariables vars none false
  | .addDivider name vidx => some fun w => Prod.snd <$> w.addDivider name vidx
  | .addTimeLine vidx => some fun w => Prod.snd <$> w.addTimeline vidx
  | .addScope scope recursive => some fun w =>
    Prod.snd <$> w.addVariables (w.getScope env w.inner.hierarchy.depth scope recursive) none false
  | .addScopeAsGroup scope recursive => some fun w =>
    Prod.snd <$> WaveData.addScopeAsGroup env w.inner.hierarchy.depth recursive scope
      ((w.insertPosition w.focusedItem).getD w.endInsertPosition) w
  | .addMarker time name focus => some (·.addMarker time name focus)
  | .setMarker id time => some (·.setMarkerPosition id time)
  | .removeMarker id => some (·.removeMarker id)
  | .moveMarkerToCursor idx => some (·.moveMarkerToCursor idx)
  | .resolveMarkerSet name time => some fun w =>
    match w.resolveMarkerName name with
    | some id => w.setMarkerPosition id time
    | none => w.addMarker time (some name) true
  | .resolveMarkerRemove name => some fun w =>
    match w.resolveMarkerName name with
    | some id => w.removeMarker id
    | none => .ok w
  | .addDraggedVariables refs => some fun w =>
    Prod.snd <$> { w with focusedItem := none }.addVariables refs σ.user.dragTargetIdx false
  | .decoderAdd protocol items => some fun w =>
    let signals := w.signalsOf (w.decoderItems items)
    if signals = [] then .ok w
    else Prod.snd <$> w.addDecoder protocol signals (w.insertPosition w.focusedItem)
  | .decoderConfigure instance_ settings bindings =>
    some fun w => .ok (w.configureDecoder instance_ settings bindings)
  | .focusItem idx => some fun w => .ok (w.focusItem idx)
  | .unfocusItem => some fun w => .ok { w with focusedItem := none }
  | .focusTransaction txRef tx => some fun w =>
    .ok { w with focusedTransaction := (txRef, tx.or w.focusedTransaction.2) }
  | .moveFocus direction count select => some fun w => .ok (w.moveFocus direction count select)
  | .itemSelectRange selectTo => some fun w =>
    match w.focusedItem with
    | none => .ok w
    | some selectFrom =>
      .ok { w with itemsTree := w.itemsTree.xselectVisibleRange selectFrom selectTo true }
  | .itemSelectAll => some fun w => .ok { w with itemsTree := w.itemsTree.xselectAllVisible true }
  | .itemSelectionClear => some fun w => .ok { w with itemsTree := w.itemsTree.xselectAllVisible false }
  | .setItemSelected vidx selected =>
    some fun w => .ok { w with itemsTree := w.itemsTree.xselect vidx selected }
  | .toggleItemSelected vidx => some fun w => .ok (w.toggleItemSelected vidx)
  | .removeVisibleItems (.explicit vidx) => some fun w =>
    match w.itemsTree.getVisible vidx with
    | none => .ok w
    | some node => w.removeDisplayedItem node.itemRef
  | .removeVisibleItems .currentSelection => some WaveData.removeSelection
  | .removeItems items => some (·.removeItems items)
  | .removePlaceholders => some fun w => .ok w.removePlaceholders
  | .moveFocusedItem direction count => some (·.moveFocusedItem direction count)
  | .variableDragStarted _ | .variableDragTargetChanged _ => some .ok
  | .variableDragFinished => some fun w =>
    match σ.user.dragSourceIdx, σ.user.dragTargetIdx with
    | some source, some target => w.dragFinished source target
    | _, _ => .ok w
  | .groupNew name before items => some (·.groupNew name before items)
  | .groupDissolve itemRef => some (·.groupDissolve itemRef)
  | .groupFold itemRef => some (·.groupFold itemRef false false)
  | .groupUnfold itemRef => some (·.groupFold itemRef true false)
  | .groupFoldRecursive itemRef => some (·.groupFold itemRef false true)
  | .groupUnfoldRecursive itemRef => some (·.groupFold itemRef true true)
  | .groupFoldAll => some (·.groupFoldAll false)
  | .groupUnfoldAll => some (·.groupFoldAll true)
  | .rectangleAdded waveFrom waveTo =>
    some fun w => .ok (w.addAnnotation σ.annotationIdSource (waveFrom.toList ++ waveTo.toList))
  | .arrowAdded _ wavePointTo =>
    some fun w => .ok (w.addAnnotation σ.annotationIdSource wavePointTo.toList)
  | Message.removeAnnotation id => some fun w => .ok (w.removeAnnotation id)
  | .annotationClicked id => some fun w => .ok { w with selectedAnnotation := id }
  | .toggleAnnotationListVisibility =>
    some fun w => .ok { w with annotationListVisible := !w.annotationListVisible }
  | .createAnnotationGroup name => some fun w => .ok (w.createAnnotationGroup name)
  | .deleteAnnotationGroup name => some fun w => .ok (w.deleteGroup name)
  | .deleteAllAnnotationInGroup name => some fun w => .ok (w.removeAllAnnotationsFromGroup name)
  | .updateAnnotationGroup id name => some fun w => .ok (w.updateAnnotationGroup id name)
  | .undo _ | .redo _ | .wavesLoaded .. | .loadState _ => none

/-- What a message may do to the contents. -/
def Message.effect (env : Env) (w : WaveData) (m : Message) : Effect where
  adds := m.Adds env w
  removes := m.Removes w
  drops := m.Drops w
  annotates := m.Annotates

namespace SystemState

variable {env : Env} {σ σ' : SystemState} {w w' : WaveData}

/-- The canvases that undo and redo can restore. -/
def snapshots (σ : SystemState) : List CanvasState := σ.undoStack ++ σ.redoStack

/-- `σ'` has the waveform data `w'` where `σ` has `w`, and no new snapshot but the one of `w`. -/
structure Changed (σ : SystemState) (w : WaveData) (σ' : SystemState) (w' : WaveData) : Prop where
  waves : σ'.user.waves = some w'
  previousWaves : σ'.user.previousWaves = σ.user.previousWaves
  snapshots : ∀ c ∈ σ'.snapshots, c ∈ σ.snapshots ∨ ∃ message, c = w.currentCanvasState message

/-- Saving the canvas adds one snapshot. -/
theorem saveCurrentCanvas_snapshots (env : Env) (message : String)
    (hw : σ.user.waves = some w) :
    ∀ c ∈ (σ.saveCurrentCanvas env message).snapshots,
      c ∈ σ.snapshots ∨ ∃ message, c = w.currentCanvasState message := by
  intro c hc
  simp only [saveCurrentCanvas, hw, SystemState.snapshots, List.append_nil] at hc
  have hmem : c ∈ w.currentCanvasState message :: σ.undoStack := by
    split at hc
    · exact List.mem_of_mem_dropLast hc
    · exact hc
  rcases List.mem_cons.1 hmem with rfl | hundo
  · exact .inr ⟨message, rfl⟩
  · exact .inl (List.mem_append_left _ hundo)

@[simp]
theorem saveCurrentCanvas_user (env : Env) (σ : SystemState) (message : String) :
    (σ.saveCurrentCanvas env message).user = σ.user := by
  unfold saveCurrentCanvas
  split <;> rfl

/-- What changing the waveform data does when it succeeds. -/
theorem onWaves_eq_ok {f : WaveData → Run WaveData} (hw : σ.user.waves = some w)
    (h : σ.onWaves f = .ok σ') :
    ∃ w', f w = .ok w' ∧ σ' = { σ with user := { σ.user with waves := some w' } } := by
  simp only [onWaves, hw, Except.bind_eq_ok] at h
  obtain ⟨w', hf, h⟩ := h
  cases h
  exact ⟨w', hf, rfl⟩

theorem changed_edit {message : String} {f : WaveData → Run WaveData}
    (hw : σ.user.waves = some w) (h : σ.edit env message f = .ok σ') :
    ∃ w', f w = .ok w' ∧ Changed σ w σ' w' := by
  have hw' : (σ.saveCurrentCanvas env message).user.waves = some w := by simpa using hw
  obtain ⟨w', hf, rfl⟩ := onWaves_eq_ok hw' h
  exact ⟨w', hf, rfl, by simp, saveCurrentCanvas_snapshots env message hw⟩

/-- What an edit does, whether it goes through or not. -/
theorem edit_eq_map {message : String} {f : WaveData → Run WaveData} (hw : σ.user.waves = some w) :
    ∃ g : WaveData → SystemState, (∀ w', Changed σ w (g w') w') ∧ σ.edit env message f = g <$> f w := by
  refine ⟨fun w' => { σ.saveCurrentCanvas env message with user := { σ.user with waves := some w' } },
    fun w' => ⟨rfl, rfl, saveCurrentCanvas_snapshots env message hw⟩, ?_⟩
  simp only [edit, onWaves, saveCurrentCanvas_user, hw]
  rfl

theorem onWaves_eq_map {f : WaveData → Run WaveData} (hw : σ.user.waves = some w) :
    ∃ g : WaveData → SystemState, (∀ w', Changed σ w (g w') w') ∧ σ.onWaves f = g <$> f w := by
  refine ⟨fun w' => { σ with user := { σ.user with waves := some w' } },
    fun w' => ⟨rfl, rfl, fun c hc => .inl hc⟩, ?_⟩
  simp only [onWaves, hw]
  rfl

/-- Nothing changes but what is not on display. -/
theorem ok_eq_map {σ' : SystemState} (hw' : σ'.user.waves = some w)
    (hprevious : σ'.user.previousWaves = σ.user.previousWaves) (hundo : σ'.undoStack = σ.undoStack)
    (hredo : σ'.redoStack = σ.redoStack) :
    ∃ g : WaveData → SystemState, (∀ w', Changed σ w (g w') w') ∧
      (.ok σ' : Run SystemState) = g <$> (.ok w : Run WaveData) := by
  refine ⟨fun w' => { σ' with user := { σ'.user with waves := some w' } },
    fun w' => ⟨rfl, hprevious, fun c hc => .inl ?_⟩, ?_⟩
  · rw [SystemState.snapshots] at hc ⊢
    rwa [← hundo, ← hredo]
  · show _ = Except.ok { σ' with user := { σ'.user with waves := some w } }
    rw [← hw']

/-- What a message does, when all that is displayed comes from the waveform data: the function of the
waveform data decides whether it goes through. -/
theorem update_change {m : Message} {f : WaveData → Run WaveData} (hm : m.change env σ = some f)
    (hw : σ.user.waves = some w) :
    ∃ g : WaveData → SystemState, (∀ w', Changed σ w (g w') w') ∧ σ.update env m = g <$> f w := by
  cases m with
  | addVariables vars =>
    obtain rfl := Option.some.inj hm
    simp only [update]
    split
    · exact ok_eq_map hw rfl rfl rfl
    · exact edit_eq_map hw
  | resolveMarkerSet name time =>
    obtain rfl := Option.some.inj hm
    simp only [update, resolveMarkerSet, hw]
    cases w.resolveMarkerName name with
    | some id => exact edit_eq_map hw
    | none => exact edit_eq_map hw
  | resolveMarkerRemove text =>
    obtain rfl := Option.some.inj hm
    simp only [update, resolveMarkerRemove, hw, Option.bind_some]
    cases w.resolveMarkerName text with
    | some id => exact onWaves_eq_map hw
    | none => exact ok_eq_map hw rfl rfl rfl
  | addDraggedVariables refs =>
    obtain rfl := Option.some.inj hm
    refine ⟨fun w' => { σ with
      user := { σ.user with waves := some w', dragSourceIdx := none, dragTargetIdx := none } },
      fun w' => ⟨rfl, rfl, fun c hc => .inl hc⟩, ?_⟩
    simp only [update, addDraggedVariables, hw]
    generalize WaveData.addVariables _ _ _ _ = run
    cases run <;> rfl
  | decoderAdd protocol items =>
    obtain rfl := Option.some.inj hm
    have hsaved := saveCurrentCanvas_snapshots env ("Add " ++ protocol.display ++ " decoder") hw
    simp only [update, decoderAdd, saveCurrentCanvas_user, hw]
    split
    · -- without signals the canvas is saved all the same
      refine ⟨fun w' => { σ.saveCurrentCanvas env ("Add " ++ protocol.display ++ " decoder") with
        user := { σ.user with waves := some w' } }, fun w' => ⟨rfl, rfl, hsaved⟩, ?_⟩
      show _ = Except.ok { σ.saveCurrentCanvas env ("Add " ++ protocol.display ++ " decoder") with
        user := { σ.user with waves := some w } }
      rw [← hw, ← saveCurrentCanvas_user env σ ("Add " ++ protocol.display ++ " decoder")]
    · refine ⟨fun w' => { σ.saveCurrentCanvas env ("Add " ++ protocol.display ++ " decoder") with
        user := { σ.user with waves := some w', showDecoderDialog := some w.nextDecoderInstance } },
        fun w' => ⟨rfl, rfl, hsaved⟩, ?_⟩
      simp only [WaveData.addDecoder]
      generalize WaveData.addLanes _ _ _ _ = run
      cases run <;> rfl
  | variableDragFinished =>
    obtain rfl := Option.some.inj hm
    simp only [update, variableDragFinished]
    cases hsource : σ.user.dragSourceIdx with
    | none => exact ok_eq_map hw rfl rfl rfl
    | some source =>
      cases htarget : σ.user.dragTargetIdx with
      | none => exact ok_eq_map hw rfl rfl rfl
      | some target =>
        -- source and target are taken before the canvas is saved
        let user :=
          { σ.user with dragStarted := false, dragSourceIdx := none, dragTargetIdx := none }
        obtain ⟨g, hg, heq⟩ := @edit_eq_map env { σ with user } w "Drag item" (·.dragFinished source target) hw
        exact ⟨g, fun w' => ⟨(hg w').waves, (hg w').previousWaves, (hg w').snapshots⟩, heq⟩
  | focusTransaction txRef tx =>
    obtain rfl := Option.some.inj hm
    simp only [update, focusTransaction]
    split
    · exact edit_eq_map hw
    · exact onWaves_eq_map hw
  | rectangleAdded waveFrom waveTo | arrowAdded wavePointFrom wavePointTo =>
    obtain rfl := Option.some.inj hm
    simp only [update, annotationAdded]
    obtain ⟨g, hg, heq⟩ := @edit_eq_map env { σ with annotationIdSource := σ.annotationIdSource + 1 } w
      _ _ hw
    exact ⟨g, fun w' => ⟨(hg w').waves, (hg w').previousWaves, (hg w').snapshots⟩, heq⟩
  | variableDragStarted vidx | variableDragTargetChanged position =>
    obtain rfl := Option.some.inj hm
    exact ok_eq_map hw rfl rfl rfl
  | removeVisibleItems target =>
    cases target with
    | explicit vidx | currentSelection =>
      obtain rfl := Option.some.inj hm
      exact edit_eq_map hw
  | removeMarker | focusItem | unfocusItem | moveFocus | itemSelectRange | itemSelectAll
  | itemSelectionClear | setItemSelected | toggleItemSelected | removePlaceholders | annotationClicked
  | toggleAnnotationListVisibility =>
    obtain rfl := Option.some.inj hm
    exact onWaves_eq_map hw
  | undo | redo | wavesLoaded | loadState => cases hm
  | _ =>
    obtain rfl := Option.some.inj hm
    exact edit_eq_map hw

/-- A change of the waveform data that goes through. -/
theorem change_of_update {m : Message} {f : WaveData → Run WaveData} (hm : m.change env σ = some f)
    (hw : σ.user.waves = some w) (h : σ.update env m = .ok σ') :
    ∃ w', f w = .ok w' ∧ Changed σ w σ' w' := by
  obtain ⟨g, hg, heq⟩ := update_change hm hw
  rw [heq, Except.map_eq_ok] at h
  obtain ⟨w', hf, rfl⟩ := h
  exact ⟨w', hf, hg w'⟩

/-- What adding a decoder does. -/
theorem decoderAdd_eq_ok {protocol : Protocol} {items : Option (List DisplayedItemRef)}
    (hw : σ.user.waves = some w) (h : σ.update env (.decoderAdd protocol items) = .ok σ') :
    ∃ w', Changed σ w σ' w' ∧
      (w' = w ∨ ∃ instance_,
        w.addDecoder protocol (w.signalsOf (w.decoderItems items)) (w.insertPosition w.focusedItem)
          = .ok (instance_, w')) := by
  obtain ⟨w', hf, hchanged⟩ := change_of_update rfl hw h
  refine ⟨w', hchanged, ?_⟩
  simp only at hf
  split at hf
  · cases hf
    exact .inl rfl
  · rw [Except.map_eq_ok] at hf
    obtain ⟨⟨instance_, _⟩, hadd, rfl⟩ := hf
    exact .inr ⟨instance_, hadd⟩

/-- What an ordinary message does to the waveform data consists of edits. -/
theorem edited_change {m : Message} (hord : m.Ordinary) {f : WaveData → Run WaveData}
    (hm : m.change env σ = some f) (h : f w = .ok w') : WaveData.Edited (m.effect env w) w w' := by
  cases m with
  | addVariables vars =>
    obtain rfl := Option.some.inj hm
    simp only at h
    split at h
    · cases h
      exact .refl
    · rw [Except.map_eq_ok] at h
      obtain ⟨⟨_, w₁⟩, h₁, rfl⟩ := h
      exact WaveData.edited_addVariables h₁ fun r hr => ⟨r, hr, rfl⟩
  | addDivider name vidx =>
    obtain rfl := Option.some.inj hm
    rw [Except.map_eq_ok] at h
    obtain ⟨⟨_, w₁⟩, h₁, rfl⟩ := h
    exact WaveData.edited_insertItem h₁ ⟨name, rfl⟩ rfl
  | addTimeLine vidx =>
    obtain rfl := Option.some.inj hm
    rw [Except.map_eq_ok] at h
    obtain ⟨⟨_, w₁⟩, h₁, rfl⟩ := h
    exact WaveData.edited_insertItem h₁ ⟨none, rfl⟩ rfl
  | addScope scope recursive =>
    obtain rfl := Option.some.inj hm
    rw [Except.map_eq_ok] at h
    obtain ⟨⟨_, w₁⟩, h₁, rfl⟩ := h
    exact WaveData.edited_addVariables h₁ fun r hr => ⟨r, hr, rfl⟩
  | addScopeAsGroup scope recursive =>
    obtain rfl := Option.some.inj hm
    rw [Except.map_eq_ok] at h
    obtain ⟨⟨_, w₁⟩, h₁, rfl⟩ := h
    exact WaveData.edited_addScopeAsGroup h₁ (fun name => .inl ⟨name, rfl⟩)
      fun s hs r hr => .inr ⟨s, hs, r, hr, rfl⟩
  | addMarker time name moveFocus =>
    obtain rfl := Option.some.inj hm
    exact WaveData.edited_addMarker h fun name idx => ⟨name, idx, rfl⟩
  | setMarker id time =>
    obtain rfl := Option.some.inj hm
    exact WaveData.edited_setMarkerPosition h fun name idx => ⟨name, idx, rfl⟩
  | moveMarkerToCursor idx =>
    obtain rfl := Option.some.inj hm
    simp only [WaveData.moveMarkerToCursor] at h
    split at h
    · exact WaveData.edited_setMarkerPosition h fun name idx => ⟨name, idx, rfl⟩
    · cases h
      exact .refl
  | removeMarker id =>
    obtain rfl := Option.some.inj hm
    exact WaveData.edited_removeMarker h fun a k name hget hk => ⟨a, name, hget, hk⟩
  | resolveMarkerSet name time =>
    obtain rfl := Option.some.inj hm
    simp only at h
    split at h
    · exact WaveData.edited_setMarkerPosition h fun name idx => ⟨name, idx, rfl⟩
    · exact WaveData.edited_addMarker h fun name idx => ⟨name, idx, rfl⟩
  | resolveMarkerRemove text =>
    obtain rfl := Option.some.inj hm
    simp only at h
    split at h
    next idx hidx =>
      exact WaveData.edited_removeMarker h fun a k name hget hk => ⟨idx, hidx, a, name, hget, hk⟩
    next =>
      cases h
      exact .refl
  | addDraggedVariables refs =>
    obtain rfl := Option.some.inj hm
    rw [Except.map_eq_ok] at h
    obtain ⟨⟨_, w₁⟩, h₁, rfl⟩ := h
    refine WaveData.Edited.trans ?_ (WaveData.edited_addVariables h₁ fun r hr => ⟨r, hr, rfl⟩)
    exact .of_perm rfl rfl rfl rfl (.refl _)
  | removeVisibleItems target =>
    cases target with
    | explicit vidx =>
      obtain rfl := Option.some.inj hm
      simp only at h
      split at h
      · cases h
        exact .refl
      next node hnode =>
        refine (WaveData.edited_removeDisplayedItem h fun k hk => ?_).1
        exact ⟨node, hnode, hk⟩
    | currentSelection =>
      obtain rfl := Option.some.inj hm
      exact WaveData.edited_removeDisplayedItems h fun a ha k hk => ⟨a, ha, hk⟩
  | removeItems items =>
    obtain rfl := Option.some.inj hm
    refine WaveData.edited_removeDisplayedItems h fun a ha k hk => ?_
    exact ⟨a, (List.mem_insertionSort _).1 ha, hk⟩
  | removePlaceholders =>
    obtain rfl := Option.some.inj hm
    cases h
    exact WaveData.edited_removePlaceholders w fun a k p hget hk => ⟨a, p, hget, hk⟩
  | moveFocusedItem direction count =>
    obtain rfl := Option.some.inj hm
    exact WaveData.edited_moveFocusedItem h
  | variableDragFinished =>
    obtain rfl := Option.some.inj hm
    simp only at h
    split at h
    · exact WaveData.edited_dragFinished h
    · cases h
      exact .refl
  | groupNew name before items =>
    obtain rfl := Option.some.inj hm
    exact WaveData.edited_groupNew h fun name => ⟨name, rfl⟩
  | groupDissolve itemRef =>
    obtain rfl := Option.some.inj hm
    exact WaveData.edited_groupDissolve h fun i node hi hnode => ⟨i, node, hi, hnode, rfl⟩
  | groupFold itemRef | groupUnfold itemRef | groupFoldRecursive itemRef
  | groupUnfoldRecursive itemRef =>
    obtain rfl := Option.some.inj hm
    exact WaveData.edited_groupFold h
  | groupFoldAll | groupUnfoldAll =>
    obtain rfl := Option.some.inj hm
    exact WaveData.edited_groupFoldAll h
  | focusItem idx =>
    obtain rfl := Option.some.inj hm
    cases h
    exact WaveData.edited_focusItem w idx
  | moveFocus direction count select =>
    obtain rfl := Option.some.inj hm
    cases h
    exact WaveData.edited_moveFocus w direction count select
  | itemSelectRange selectTo =>
    obtain rfl := Option.some.inj hm
    simp only at h
    split at h <;> cases h
    · exact .refl
    · exact .of_perm rfl rfl rfl rfl (.of_eq (DisplayedItemTree.refs_xselectVisibleRange _ _ _ _))
  | toggleItemSelected vidx =>
    obtain rfl := Option.some.inj hm
    cases h
    exact WaveData.edited_toggleItemSelected w vidx
  | itemSelectAll | itemSelectionClear =>
    obtain rfl := Option.some.inj hm
    cases h
    exact .of_perm rfl rfl rfl rfl (.of_eq (DisplayedItemTree.refs_xselectAllVisible _ _))
  | setItemSelected vidx selected =>
    obtain rfl := Option.some.inj hm
    cases h
    exact .of_perm rfl rfl rfl rfl (.of_eq (DisplayedItemTree.refs_xselect _ _ _))
  | unfocusItem | annotationClicked id | toggleAnnotationListVisibility | focusTransaction txRef tx =>
    obtain rfl := Option.some.inj hm
    cases h
    exact .of_perm rfl rfl rfl rfl (.refl _)
  | rectangleAdded waveFrom waveTo | arrowAdded wavePointFrom wavePointTo | removeAnnotation id
  | createAnnotationGroup name | deleteAnnotationGroup name | deleteAllAnnotationInGroup name =>
    obtain rfl := Option.some.inj hm
    cases h
    exact ⟨rfl, rfl, rfl, .single (.annotate trivial)⟩
  | updateAnnotationGroup id name =>
    obtain rfl := Option.some.inj hm
    cases h
    unfold WaveData.updateAnnotationGroup
    split
    · exact .refl
    · exact ⟨rfl, rfl, rfl, .single (.annotate trivial)⟩
  | variableDragStarted vidx | variableDragTargetChanged position =>
    obtain rfl := Option.some.inj hm
    cases h
    exact .refl
  | decoderAdd | decoderConfigure | undo | redo | wavesLoaded | loadState => exact hord.elim

/-- An ordinary message has a change. -/
theorem exists_change {m : Message} (hord : m.Ordinary) (env : Env) (σ : SystemState) :
    ∃ f, m.change env σ = some f := by
  cases m with
  | removeVisibleItems target => cases target <;> exact ⟨_, rfl⟩
  | decoderAdd | decoderConfigure | undo | redo | wavesLoaded | loadState => exact hord.elim
  | _ => exact ⟨_, rfl⟩

/-- An ordinary message consists of edits. -/
theorem update_edited {m : Message} (hm : m.Ordinary) (hw : σ.user.waves = some w)
    (h : σ.update env m = .ok σ') :
    ∃ w', Changed σ w σ' w' ∧ WaveData.Edited (m.effect env w) w w' := by
  obtain ⟨f, hchange⟩ := exists_change hm env σ
  obtain ⟨w', hf, hchanged⟩ := change_of_update hchange hw h
  exact ⟨w', hchanged, edited_change hm hchange hf⟩

/-- What an ordinary message does to the items. -/
theorem update_grows {m : Message} (hm : m.Ordinary) (hw : σ.user.waves = some w)
    (h : σ.update env m = .ok σ') :
    ∃ w', Changed σ w σ' w' ∧ WaveData.Grows (m.Adds env w) w w' := by
  obtain ⟨w', hchanged, hedited⟩ := update_edited hm hw h
  exact ⟨w', hchanged, hedited.grows⟩

/-- What a message does to the container: only loading a waveform changes it, and counts the
generations. -/
theorem update_container {m : Message} (hw : σ.user.waves = some w)
    (hprevious : σ.user.previousWaves = none) (h : σ.update env m = .ok σ') :
    ∃ w', σ'.user.waves = some w' ∧ σ'.user.previousWaves = none ∧
      match m with
      | .wavesLoaded newWaves loadOptions =>
        w'.inner = newWaves ∧
          w'.cacheGeneration = if loadOptions = .clear then 0 else w.cacheGeneration + 1
      | _ => w'.inner = w.inner ∧ w'.cacheGeneration = w.cacheGeneration := by
  by_cases hord : m.Ordinary
  · obtain ⟨w', hchanged, hgrows⟩ := update_grows hord hw h
    refine ⟨w', hchanged.waves, hchanged.previousWaves.trans hprevious, ?_⟩
    cases m
    case wavesLoaded => exact hord.elim
    all_goals exact ⟨hgrows.inner, hgrows.cacheGeneration⟩
  cases m with
  | decoderAdd protocol items =>
    obtain ⟨w', hchanged, rfl | ⟨instance_, hadd⟩⟩ := decoderAdd_eq_ok hw h
    · exact ⟨_, hchanged.waves, hchanged.previousWaves.trans hprevious, rfl, rfl⟩
    · refine ⟨w', hchanged.waves, hchanged.previousWaves.trans hprevious, ?_⟩
      simp only [WaveData.addDecoder, Except.bind_eq_ok] at hadd
      obtain ⟨w₁, hlanes, hret⟩ := hadd
      cases hret
      have hedited := WaveData.edited_addLanes hlanes
      exact ⟨hedited.inner, hedited.cacheGeneration⟩
  | decoderConfigure instance_ settings bindings =>
    obtain ⟨w', hf, hchanged⟩ := changed_edit hw h
    cases hf
    exact ⟨_, hchanged.waves, hchanged.previousWaves.trans hprevious, rfl, rfl⟩
  | undo count =>
    have hexchange := w.exchangeCanvas_all (P := fun _ => True) count σ.undoStack σ.redoStack
      trivial (fun _ _ => trivial) fun _ _ => trivial
    simp only [update, undo, hw] at h
    cases h
    exact ⟨_, rfl, hprevious, hexchange.1, hexchange.2.2.1⟩
  | redo count =>
    have hexchange := w.exchangeCanvas_all (P := fun _ => True) count σ.redoStack σ.undoStack
      trivial (fun _ _ => trivial) fun _ _ => trivial
    simp only [update, redo, hw] at h
    cases h
    exact ⟨_, rfl, hprevious, hexchange.1, hexchange.2.2.1⟩
  | wavesLoaded newWaves loadOptions =>
    simp only [update, onWavesLoaded, hw, hprevious] at h
    by_cases hclear : loadOptions = .clear
    · subst hclear
      simp only [if_true] at h
      cases h
      exact ⟨_, rfl, rfl, rfl, rfl⟩
    · simp only [if_neg hclear, Except.bind_eq_ok, WaveData.updateWithWaves] at h
      obtain ⟨w', ⟨⟨items, tree⟩, -, _, -, hret⟩, h⟩ := h
      cases hret
      cases h
      exact ⟨_, rfl, rfl, rfl, (if_neg hclear).symm⟩
  | loadState loaded =>
    simp only [update, loadState, hw] at h
    cases hloaded : loaded.waves with
    | none =>
      rw [hloaded] at h
      cases h
      exact ⟨w, rfl, rfl, rfl, rfl⟩
    | some new =>
      rw [hloaded] at h
      simp only [Except.bind_eq_ok, withDisplay, WaveData.updateWithItems] at h
      obtain ⟨w', ⟨w₁, ⟨⟨items, tree⟩, -, _, -, hret⟩, hw'⟩, h⟩ := h
      cases hret
      cases hw'
      cases h
      exact ⟨_, rfl, rfl, rfl, rfl⟩
  | _ => exact absurd trivial hord

end SystemState

end Wave
