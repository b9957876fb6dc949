import Kahuna.Wave.Scopes
import Kahuna.Wave.UndoRedo
import Kahuna.Wcp.Handler

/-!
# What a client adds

The answers to the commands that add items, and what the display is after them.

* `addedInOrder_of_answer`: the references that a client is told are new, consecutive, and those of its items in the
  order it named them;
* `unchanged_of_error`: an error leaves the program as it was, but for markers that do not fit any more.
-/

namespace Wcp

open Wave ItemTree WaveData

/-! ## Items in order -/

/-- Items have been added, and got the next references. -/
structure AddedInOrder (w : WaveData) (ids : List DisplayedItemRef) (contents : List DisplayedItem) (w' : WaveData) :
    Prop where
  ids_eq : ids = List.range' (w.displayItemRefCounter + 1) contents.length
  counter : w'.displayItemRefCounter = w.displayItemRefCounter + contents.length
  items : ids.map w'.displayedItems.get = contents.map some
  refs : w'.itemsTree.refs.Perm (ids ++ w.itemsTree.refs)
  kept : ∀ k ≤ w.displayItemRefCounter, w'.displayedItems.get k = w.displayedItems.get k

variable {w w₁ w' : WaveData} {ids ids' : List DisplayedItemRef} {contents contents' : List DisplayedItem}

namespace AddedInOrder

theorem nil (w : WaveData) : AddedInOrder w [] [] w := ⟨rfl, rfl, rfl, .refl _, fun _ _ => rfl⟩

theorem append (h : AddedInOrder w ids contents w₁) (h' : AddedInOrder w₁ ids' contents' w') :
    AddedInOrder w (ids ++ ids') (contents ++ contents') w' where
  ids_eq := by
    rw [h.ids_eq, h'.ids_eq, h.counter, List.length_append, ← List.range'_append_1, Nat.add_right_comm]
  counter := by rw [h'.counter, h.counter, List.length_append, Nat.add_assoc]
  items := by
    -- what was added first has smaller references
    have hstays : ids.map w'.displayedItems.get = ids.map w₁.displayedItems.get := by
      refine List.map_congr_left fun k hk => h'.kept k ?_
      rw [h.ids_eq, List.mem_range'_1] at hk
      rw [h.counter]
      omega
    rw [List.map_append, List.map_append, hstays, h.items, h'.items]
  refs := by
    refine h'.refs.trans ((h.refs.append_left ids').trans ?_)
    rw [← List.append_assoc]
    exact List.perm_append_comm.append_right _
  kept k hk := by
    rw [h'.kept k (hk.trans (h.counter ▸ Nat.le_add_right _ _)), h.kept k hk]

/-- Only the items count. -/
theorem congr (h : AddedInOrder w ids contents w₁) (hitems : w'.displayedItems = w₁.displayedItems)
    (htree : w'.itemsTree = w₁.itemsTree) (hcounter : w'.displayItemRefCounter = w₁.displayItemRefCounter) :
    AddedInOrder w ids contents w' :=
  ⟨h.ids_eq, hcounter.trans h.counter, hitems ▸ h.items, htree ▸ h.refs, hitems ▸ h.kept⟩

end AddedInOrder

theorem addedInOrder_insertItem {item : DisplayedItem} {target : Option TargetPosition} {moveFocus : Bool}
    {id : DisplayedItemRef} (h : w.insertItem item target moveFocus = .ok (id, w')) :
    AddedInOrder w [id] [item] w' := by
  have hrefs := insertItem_refs h
  obtain ⟨index, tree, -, rfl, rfl⟩ := insertItem_eq_ok h
  refine ⟨rfl, rfl, ?_, hrefs, fun k hk => ?_⟩
  · rw [List.map_singleton, List.map_singleton, FiniteMap.get_insert, if_pos rfl]
  · rw [FiniteMap.get_insert, if_neg (Nat.lt_succ_of_le hk).ne]

/-! ## Variables -/

/-- The file has the variable. -/
def isKnown (inner : WaveContainer) (r : VariableRef) : Bool :=
  match inner.variableMeta r with
  | .ok (some _) => true
  | _ => false

/-- The variables that are added: those that the file has, up to the first that it does not have unless failures are
ignored. -/
def found (inner : WaveContainer) (ignoreFailures : Bool) (refs : List VariableRef) : List VariableRef :=
  if ignoreFailures then refs.filter (isKnown inner) else refs.takeWhile (isKnown inner)

theorem addedInOrder_addVariablesLoop {ignoreFailures : Bool} {refs : List VariableRef} {target : TargetPosition}
    (h : addVariablesLoop ignoreFailures refs target w = .ok (ids, w')) :
    AddedInOrder w ids ((found w.inner ignoreFailures refs).map variableItem) w' := by
  induction refs generalizing target w ids with
  | nil =>
    cases h
    cases ignoreFailures <;> exact .nil _
  | cons r rest ih =>
    rw [addVariablesLoop] at h
    split at h
    · cases h
    next hmeta =>
      -- the file does not have the variable: it is skipped, or the loop ends
      have hknown : isKnown w.inner r = false := by rw [isKnown, hmeta]
      split at h
      next hignore =>
        subst hignore
        have hfound : found w.inner true (r :: rest) = found w.inner true rest := by
          simp only [found, if_true, List.filter_cons, hknown, Bool.false_eq_true, if_false]
        rw [hfound]
        exact ih h
      next hstop =>
        cases h
        rw [found, if_neg hstop, List.takeWhile_cons, hknown]
        exact .nil _
    next meta_ hmeta =>
      simp only [Except.bind_eq_ok] at h
      obtain ⟨⟨id, w₁⟩, hinsert, ⟨ids, w₂⟩, hrest, h⟩ := h
      cases h
      -- the rest is looked up in the same file
      have hinner : w₁.inner = w.inner := by
        obtain ⟨index, tree, -, -, rfl⟩ := insertItem_eq_ok hinsert
        rfl
      have hknown : isKnown w.inner r = true := by rw [isKnown, hmeta]
      have hfound : found w.inner ignoreFailures (r :: rest) = r :: found w.inner ignoreFailures rest := by
        cases ignoreFailures
        · simp only [found, Bool.false_eq_true, if_false, List.takeWhile_cons, hknown, if_true]
        · simp only [found, if_true, List.filter_cons, hknown]
      rw [hfound]
      have hall := (addedInOrder_insertItem hinsert).append (ih hrest)
      rw [hinner] at hall
      exact hall

theorem addedInOrder_addVariables {ignoreFailures : Bool} {refs : List VariableRef} {target : Option TargetPosition}
    (h : w.addVariables refs target ignoreFailures = .ok (ids, w')) :
    AddedInOrder w ids ((found w.inner ignoreFailures refs).map variableItem) w' := by
  unfold addVariables at h
  split at h
  · cases h
  · exact addedInOrder_addVariablesLoop h

/-! ## Markers -/

/-- While there are fewer markers than there may be, one of their numbers is free. -/
theorem exists_free_marker (h : w.markers.size < maxMarkers) :
    ∃ idx, (List.range maxMarkers).find? (fun idx => (w.markers.get idx).isNone) = some idx := by
  rw [← Option.isSome_iff_exists, List.find?_isSome]
  by_contra hnone
  push Not at hnone
  -- all numbers would be keys
  have hsub : List.range maxMarkers ⊆ w.markers.keys := by
    intro idx hidx
    have hget := hnone idx hidx
    exact FiniteMap.isSome_get_iff.1 (Option.ne_none_iff_isSome.1 (mt Option.isNone_iff_eq_none.2 hget))
  have hle := (List.subperm_of_subset List.nodup_range hsub).length_le
  rw [List.length_range] at hle
  have hsize : w.markers.keys.length = w.markers.size := List.length_map _
  omega

/-- What adding a marker does. -/
theorem addMarkerRef_eq_ok {marker : MarkerInfo} {id : Option DisplayedItemRef}
    (h : addMarkerRef w marker.time marker.name marker.moveFocus = .ok (id, w')) :
    (id = none ∧ w' = w ∧ maxMarkers ≤ w.markers.size) ∨
      ∃ k idx, id = some k ∧ w.markers.size < maxMarkers ∧ w'.markers.size = w.markers.size + 1 ∧
        AddedInOrder w [k] [.marker marker.name idx] w' ∧ idx < maxMarkers ∧ w.markers.get idx = none ∧
        w'.markers = w.markers.insert idx marker.time := by
  unfold addMarkerRef at h
  split at h
  next hfull =>
    cases h
    exact .inl ⟨rfl, rfl, hfull⟩
  next hfull =>
    rw [not_le] at hfull
    obtain ⟨idx, hidx⟩ := exists_free_marker hfull
    rw [hidx] at h
    simp only [Except.bind_eq_ok] at h
    obtain ⟨⟨k, w₁⟩, hinsert, h⟩ := h
    cases h
    -- the number was free, so there is one marker more
    have hfree : w.markers.get idx = none := by simpa using List.find?_some hidx
    have hmarkers : w₁.markers = w.markers := by
      obtain ⟨index, tree, -, -, rfl⟩ := insertItem_eq_ok hinsert
      rfl
    refine .inr ⟨k, idx, rfl, hfull, ?_, (addedInOrder_insertItem hinsert).congr rfl rfl rfl, ?_, hfree, ?_⟩
    · show (w₁.markers.insert idx marker.time).size = _
      rw [hmarkers]
      exact FiniteMap.size_insert_of_get_eq_none hfree
    · exact List.mem_range.1 (List.mem_of_find?_eq_some hidx)
    · show w₁.markers.insert idx marker.time = _
      rw [hmarkers]

/-- The markers that fit are added, and if there are more of them the command fails. -/
theorem addMarkersLoop_take {markers : List MarkerInfo} {ids : Option (List DisplayedItemRef)}
    (h : addMarkersLoop markers w = .ok (ids, w')) :
    ∃ added, addMarkersLoop (markers.take (maxMarkers - w.markers.size)) w = .ok (some added, w') ∧
      ids = if markers.length ≤ maxMarkers - w.markers.size then some added else none := by
  induction markers generalizing w ids with
  | nil =>
    cases h
    rw [List.take_nil]
    exact ⟨[], rfl, by rw [List.length_nil, if_pos (Nat.zero_le _)]⟩
  | cons marker rest ih =>
    simp only [addMarkersLoop, Except.bind_eq_ok] at h
    obtain ⟨⟨id, w₁⟩, hadd, h⟩ := h
    rcases addMarkerRef_eq_ok hadd with ⟨rfl, rfl, hfull⟩ | ⟨k, idx, rfl, hlt, hsize, -⟩
    · cases h
      rw [Nat.sub_eq_zero_of_le hfull, List.take_zero]
      exact ⟨[], rfl, by rw [if_neg (by simp)]⟩
    · simp only [Except.bind_eq_ok] at h
      obtain ⟨⟨ids', w₂⟩, hrest, h⟩ := h
      cases h
      obtain ⟨added, htake, hids⟩ := ih hrest
      -- one marker less fits
      have hroom : maxMarkers - w.markers.size = maxMarkers - w₁.markers.size + 1 := by omega
      refine ⟨k :: added, ?_, ?_⟩
      · rw [hroom, List.take_succ_cons]
        simp only [addMarkersLoop, Except.bind_eq_ok]
        refine ⟨_, hadd, ?_⟩
        simp only [Except.bind_eq_ok]
        exact ⟨_, htake, rfl⟩
      · rw [hids, hroom, List.length_cons]
        by_cases hfits : rest.length ≤ maxMarkers - w₁.markers.size
        · rw [if_pos hfits, if_pos (Nat.succ_le_succ hfits)]
          rfl
        · rw [if_neg hfits, if_neg (mt Nat.le_of_succ_le_succ hfits)]
          rfl

/-- The item and the time of a marker. -/
def IsMarker (w : WaveData) (marker : MarkerInfo) (item : DisplayedItem) : Prop :=
  ∃ idx, item = .marker marker.name idx ∧ w.markers.get idx = some marker.time

theorem addedInOrder_addMarkersLoop {markers : List MarkerInfo}
    (h : addMarkersLoop markers w = .ok (some ids, w')) :
    ∃ contents, AddedInOrder w ids contents w' ∧ List.Forall₂ (IsMarker w') markers contents ∧
      ∀ idx time, w.markers.get idx = some time → w'.markers.get idx = some time := by
  induction markers generalizing w ids with
  | nil =>
    cases h
    exact ⟨[], .nil _, .nil, fun _ _ h => h⟩
  | cons marker rest ih =>
    simp only [addMarkersLoop, Except.bind_eq_ok] at h
    obtain ⟨⟨id, w₁⟩, hadd, h⟩ := h
    rcases addMarkerRef_eq_ok hadd with ⟨rfl, -, -⟩ | ⟨k, idx, rfl, -, -, hadded, -, hfree, hmarkers⟩
    · cases h
    simp only [Except.bind_eq_ok] at h
    obtain ⟨⟨ids', w₂⟩, hrest, h⟩ := h
    cases ids' with
    | none => cases h
    | some ids' =>
      cases h
      obtain ⟨contents, hall, hitems, hkept⟩ := ih hrest
      refine ⟨.marker marker.name idx :: contents, hadded.append hall, .cons ⟨idx, rfl, ?_⟩ hitems, ?_⟩
      · apply hkept
        rw [hmarkers, FiniteMap.get_insert, if_pos rfl]
      · intro idx' time hget
        apply hkept
        rw [hmarkers, FiniteMap.get_insert, if_neg, hget]
        -- the number was free
        rintro rfl
        rw [hfree] at hget
        cases hget

/-! ## Answers -/

namespace App

variable {env : Env} {app app' : App} {answer : Option WcpSCMessage}

/-- The canvas has been saved, and the waveform data is another one. -/
def edited (env : Env) (app : App) (text : String) (w : WaveData) : App :=
  let state := app.state.saveCurrentCanvas env text
  { app with state := { state with user := { state.user with waves := some w } } }

theorem edit_eq_ok {text error message : String} {f : WaveData → Run (WcpSCMessage × WaveData)}
    (h : app.edit env text error message f = .ok (app', answer)) :
    (app.state.user.waves = none ∧ app' = app ∧ answer = some (.createError error message)) ∨
      ∃ w w' a, app.state.user.waves = some w ∧ f w = .ok (a, w') ∧ app' = app.edited env text w' ∧
        answer = some a := by
  unfold edit at h
  cases hw : app.state.user.waves with
  | none =>
    rw [hw] at h
    cases h
    exact .inl ⟨rfl, rfl, rfl⟩
  | some w =>
    rw [hw] at h
    simp only [Except.bind_eq_ok] at h
    obtain ⟨⟨a, w'⟩, hf, h⟩ := h
    cases h
    exact .inr ⟨w, w', a, rfl, hf, rfl, rfl⟩

theorem addVariables_eq_ok {text error message : String} {refs : WaveData → List VariableRef} {ignoreFailures : Bool}
    {response : List DisplayedItemRef → WcpResponse}
    (h : app.addVariables env text error message refs ignoreFailures response = .ok (app', answer)) :
    (app.state.user.waves = none ∧ app' = app ∧ answer = some (.createError error message)) ∨
      ∃ w w' ids, app.state.user.waves = some w ∧
        AddedInOrder w ids ((found w.inner ignoreFailures (refs w)).map variableItem) w' ∧
        app' = app.edited env text w' ∧ answer = some (.response (response ids)) := by
  rcases edit_eq_ok h with hnone | ⟨w, w', a, hw, hf, rfl, rfl⟩
  · exact .inl hnone
  · simp only [Except.bind_eq_ok] at hf
    obtain ⟨⟨ids, w₁⟩, hadd, hf⟩ := hf
    cases hf
    exact .inr ⟨w, w₁, ids, hw, addedInOrder_addVariables hadd, rfl, rfl⟩

theorem addMarkers_eq_ok {markers : List MarkerInfo}
    (h : app.handleCommand env (.addMarkers markers) = .ok (app', answer)) :
    (app.state.user.waves = none ∧ app' = app ∧ answer = some (.createError "add_markers" "No waveform loaded")) ∨
      ∃ w w' ids, app.state.user.waves = some w ∧ addMarkersLoop markers w = .ok (ids, w') ∧
        app' = app.edited env ("Add " ++ toString markers.length ++ " markers") w' ∧
        answer = some (addMarkersAnswer ids) := by
  rcases edit_eq_ok h with hnone | ⟨w, w', a, hw, hf, rfl, rfl⟩
  · exact .inl hnone
  · simp only [Except.bind_eq_ok] at hf
    obtain ⟨⟨ids, w₁⟩, hadd, hf⟩ := hf
    cases hf
    exact .inr ⟨w, w₁, ids, hw, hadd, rfl, rfl⟩

end App

/-- The references that an answer tells of added items. -/
def WcpResponse.addedIds : WcpResponse → Option (List DisplayedItemRef)
  | .addItems ids => some ids
  | .addVariables ids => some ids
  | .addScope ids => some ids
  | .addMarkers ids => some ids
  | _ => none

/-- The items that a command asks for. -/
def Asked (env : Env) (w w' : WaveData) (contents : List DisplayedItem) : WcpCommand → Prop
  | .addVariables names =>
    contents = ((names.map VariableRef.fromHierarchyString).takeWhile (isKnown w.inner)).map variableItem
  | .addScope scope recursive =>
    contents = (App.getScope env (scopeFromHierarchyString scope) recursive w).map variableItem
  | .addItems items recursive =>
    contents = ((App.itemRefs env items recursive w).filter (isKnown w.inner)).map variableItem
  | .addMarkers markers => List.Forall₂ (IsMarker w') markers contents
  | _ => False

/-- The file has the variables of its scopes. -/
theorem isKnown_of_mem_getScope {env : Env} {depth : ℕ} {scope : ScopeRef} {recursive : Bool} {r : VariableRef}
    (h : r ∈ w.getScope env depth scope recursive) : isKnown w.inner r = true := by
  have hown : ∀ {scope}, r ∈ w.sortedVariables env scope → isKnown w.inner r = true := by
    intro scope hr
    obtain ⟨v, hv⟩ := exists_variableMeta hr
    rw [isKnown, hv]
  induction depth generalizing scope recursive with
  | zero => exact hown h
  | succ depth ih =>
    rw [getScope, List.mem_append] at h
    rcases h with h | h
    · exact hown h
    · split at h
      · obtain ⟨child, -, hchild⟩ := List.mem_flatMap.1 h
        exact ih hchild
      · cases h

/-- The commands that add items. -/
def WcpCommand.adds : WcpCommand → Bool
  | .addVariables _ => true
  | .addScope _ _ => true
  | .addItems _ _ => true
  | .addMarkers _ => true
  | _ => false

/-- The response to a command. -/
def WcpCommand.Accepts : WcpCommand → WcpResponse → Prop
  | .getItemList, .getItemList _ => True
  | .getItemInfo ids, .getItemInfo results => results.map ItemInfo.id = ids
  | .addVariables names, .addVariables ids => ids.length ≤ names.length
  | .addScope _ _, .addScope _ => True
  | .addItems _ _, .addItems _ => True
  | .addMarkers markers, .addMarkers ids => ids.length = markers.length
  | .reload, .ack => True
  | .setViewportTo _, .ack => True
  | .setViewportRange _ _, .ack => True
  | .setItemColor _ _, .ack => True
  | .removeItems _, .ack => True
  | .focusItem _, .ack => True
  | .clear, .ack => True
  | .load _, .ack => True
  | .zoomToFit _, .ack => True
  | .setCursor _, .ack => True
  | _, _ => False

/-- Only the commands that add items are answered with references. -/
theorem addedIds_of_accepts {command : WcpCommand} {r : WcpResponse} (h : command.Accepts r)
    (hadds : command.adds = false) : r.addedIds = none := by
  cases r with
  | getItemList ids => rfl
  | getItemInfo results => rfl
  | ack => rfl
  | _ =>
    -- the command is the one that adds the items
    cases command with
    | addVariables | addScope | addItems | addMarkers => cases hadds
    | _ => exact h.elim

/-- The information is that of the items that were asked for. -/
theorem map_id_getItemInfo {env : Env} {ids : List DisplayedItemRef} {results : List ItemInfo}
    (h : Wcp.getItemInfo env w ids = .ok results) : results.map ItemInfo.id = ids := by
  induction ids generalizing results with
  | nil =>
    cases h
    rfl
  | cons id rest ih =>
    rw [Wcp.getItemInfo] at h
    split at h
    · cases h
    · rw [Except.map_eq_ok] at h
      obtain ⟨infos, hinfos, rfl⟩ := h
      rw [List.map_cons, ih hinfos]
      rfl

/-- An answer without references: none at all, a response, or an error that has changed nothing. -/
def Plain (command : WcpCommand) (app : App) (handled : Handled) : Prop :=
  (command = .shutdown ∧ handled = (app, none)) ∨
    command ≠ .shutdown ∧
      ((∃ r, handled.2 = some (.response r) ∧ r.addedIds = none) ∨ ∃ e m, handled = app.sendError e m)

namespace App

variable {env : Env} {app app' : App} {command : WcpCommand} {handled : Handled}

/-- A command that changes the state and is acknowledged. -/
theorem accepts_of_bind {x : Run App} (haccepts : command.Accepts .ack)
    (h : (do let app ← x; return app.sendResponse .ack : Run Handled) = .ok handled) :
    (∃ r, handled.2 = some (.response r) ∧ command.Accepts r) ∨ ∃ e m, handled = app.sendError e m := by
  rw [Except.bind_eq_ok] at h
  obtain ⟨app₁, -, h⟩ := h
  cases h
  exact .inl ⟨.ack, rfl, haccepts⟩

/-- A command that adds nothing is answered by a response of its kind, or is refused and changes nothing. -/
theorem accepts_of_handleCommand (h : app.handleCommand env command = .ok handled) (hadds : command.adds = false)
    (hne : command ≠ .shutdown) :
    (∃ r, handled.2 = some (.response r) ∧ command.Accepts r) ∨ ∃ e m, handled = app.sendError e m := by
  cases command with
  | getItemList =>
    simp only [handleCommand] at h
    split at h
    · cases h
      exact .inl ⟨_, rfl, trivial⟩
    · cases h
      exact .inr ⟨_, _, rfl⟩
  | getItemInfo ids =>
    simp only [handleCommand] at h
    split at h
    · cases h
      exact .inr ⟨_, _, rfl⟩
    · split at h
      next hresults =>
        cases h
        exact .inl ⟨_, rfl, map_id_getItemInfo hresults⟩
      · cases h
        exact .inr ⟨_, _, rfl⟩
  | setItemColor id color =>
    simp only [handleCommand] at h
    split at h
    · cases h
      exact .inr ⟨_, _, rfl⟩
    · split at h
      · cases h
        exact .inl ⟨_, rfl, trivial⟩
      · cases h
        exact .inr ⟨_, _, rfl⟩
  | removeItems ids =>
    simp only [handleCommand] at h
    split at h
    · cases h
      exact .inr ⟨_, _, rfl⟩
    · exact accepts_of_bind trivial h
  | focusItem id =>
    simp only [handleCommand] at h
    split at h
    · cases h
      exact .inr ⟨_, _, rfl⟩
    · split at h
      · exact accepts_of_bind trivial h
      · cases h
        exact .inr ⟨_, _, rfl⟩
  | clear =>
    simp only [handleCommand] at h
    split at h
    · -- without a waveform there is nothing to clear, which is no error
      cases h
      exact .inl ⟨_, rfl, trivial⟩
    · exact accepts_of_bind trivial h
  | load source =>
    simp only [handleCommand] at h
    split at h
    · cases h
      exact .inl ⟨_, rfl, trivial⟩
    · cases h
      exact .inl ⟨_, rfl, trivial⟩
    · cases h
      exact .inr ⟨_, _, rfl⟩
  | reload =>
    cases h
    exact .inl ⟨_, rfl, trivial⟩
  | setViewportTo timestamp => exact accepts_of_bind trivial h
  | setViewportRange start stop => exact accepts_of_bind trivial h
  | zoomToFit viewportIdx => exact accepts_of_bind trivial h
  | setCursor timestamp => exact accepts_of_bind trivial h
  | shutdown => exact absurd rfl hne
  | addVariables names => cases hadds
  | addScope scope recursive => cases hadds
  | addItems items recursive => cases hadds
  | addMarkers markers => cases hadds

/-- The commands that add nothing. -/
theorem plain_of_handleCommand (h : app.handleCommand env command = .ok handled) (hadds : command.adds = false) :
    Plain command app handled := by
  by_cases hne : command = .shutdown
  · subst hne
    cases h
    exact .inl ⟨rfl, rfl⟩
  · rcases accepts_of_handleCommand h hadds hne with ⟨r, hanswer, haccepts⟩ | herror
    · exact .inr ⟨hne, .inl ⟨r, hanswer, addedIds_of_accepts haccepts hadds⟩⟩
    · exact .inr ⟨hne, .inr herror⟩

end App

/-- The references in the answer to a command are the next ones, one for each item that was asked for. -/
theorem addedInOrder_of_handleCommand {env : Env} {app app' : App} {command : WcpCommand} {r : WcpResponse}
    (h : app.handleCommand env command = .ok (app', some (.response r))) (hids : r.addedIds = some ids) :
    ∃ w w' contents, app.state.user.waves = some w ∧ app'.state.user.waves = some w' ∧
      AddedInOrder w ids contents w' ∧ Asked env w w' contents command := by
  cases hadds : command.adds with
  | false =>
    rcases App.plain_of_handleCommand h hadds with ⟨-, hnone⟩ | ⟨-, ⟨r', hr, hnone⟩ | ⟨e, m, herror⟩⟩
    · cases hnone
    · cases hr
      rw [hids] at hnone
      cases hnone
    · cases herror
  | true =>
    cases command with
    | addVariables names =>
      rcases App.addVariables_eq_ok h with ⟨-, -, herror⟩ | ⟨w, w', ids', hw, hadded, rfl, hr⟩
      · cases herror
      · cases hr
        cases hids
        exact ⟨w, w', _, hw, rfl, hadded, rfl⟩
    | addScope scope recursive =>
      rcases App.addVariables_eq_ok h with ⟨-, -, herror⟩ | ⟨w, w', ids', hw, hadded, rfl, hr⟩
      · cases herror
      · cases hr
        cases hids
        refine ⟨w, w', _, hw, rfl, hadded, ?_⟩
        -- the variables come from the file, so the loop does not stop at any of them
        rw [Asked, found, if_neg Bool.false_ne_true, List.takeWhile_eq_self_iff.2]
        exact fun r hr => isKnown_of_mem_getScope hr
    | addItems items recursive =>
      rcases App.addVariables_eq_ok h with ⟨-, -, herror⟩ | ⟨w, w', ids', hw, hadded, rfl, hr⟩
      · cases herror
      · cases hr
        cases hids
        exact ⟨w, w', _, hw, rfl, hadded, rfl⟩
    | addMarkers markers =>
      rcases App.addMarkers_eq_ok h with ⟨-, -, herror⟩ | ⟨w, w', ids', hw, hloop, rfl, hr⟩
      · cases herror
      · cases ids' with
        | none => cases hr
        | some ids' =>
          cases hr
          cases hids
          obtain ⟨contents, hadded, hitems, -⟩ := addedInOrder_addMarkersLoop hloop
          exact ⟨w, w', contents, hw, rfl, hadded, hitems⟩
    | _ => cases hadds

/-- Only a command is answered with references. -/
theorem exists_command_of_addedIds {env : Env} {app app' : App} {message : WcpCSMessage} {r : WcpResponse}
    (h : app.handleWcpCsMessage env message = .ok (app', some (.response r))) :
    ∃ command, message = .command command ∧ app.wcpGreeted = true ∧
      app.handleCommand env command = .ok (app', some (.response r)) := by
  cases message with
  | greeting version commands =>
    simp only [App.handleWcpCsMessage, App.handleGreeting] at h
    split at h
    · cases h
    · cases h
  | command command =>
    simp only [App.handleWcpCsMessage] at h
    split at h
    next hgreeted => exact ⟨command, rfl, hgreeted, h⟩
    · cases h

/-- A program that shows a file without variables, and has not been asked for anything. -/
def App.idle (w : WaveData) : App where
  state := { SystemState.fresh Session.noWaveform with
    user := { (SystemState.fresh Session.noWaveform).user with waves := some w } }
  viewports := [View.Viewport.default]
  maxTimestamp := none
  source := .data
  wcpGreeted := true
  wcpClientCapabilities := ⟨false, false, false, false⟩
  started := []

/-- All numbers but the last are taken. -/
def oneFree : WaveData :=
  { WaveData.loaded Session.noWaveform with
    markers := (List.range 254).foldl (fun m idx => m.insert idx 0) .empty }

/-- A message that is answered, as can be tested. -/
theorem exists_of_answers {x : Run Handled} {answer : Option WcpSCMessage}
    (h : x.toOption.any (fun r => r.2 = answer) = true) : ∃ app', x = .ok (app', answer) := by
  match x with
  | .ok (app', a) =>
    have ha : a = answer := by simpa [Except.toOption] using h
    exact ⟨app', by rw [ha]⟩
  | .error p => cases h

/-- An error leaves the program as it was, with one exception: of markers for which there is no room, those that fit
are added before the error. One undo takes them away. -/
theorem unchanged_of_error (env : Env) (app app' : App) (message : WcpCSMessage) (e m : String) (args : List String)
    (h : app.handleWcpCsMessage env message = .ok (app', some (.error e args m))) :
    app' = app ∨ ∃ markers w w' ids, message = .command (.addMarkers markers) ∧ app.state.user.waves = some w ∧
      maxMarkers - w.markers.size < markers.length ∧
      addMarkersLoop (markers.take (maxMarkers - w.markers.size)) w = .ok (some ids, w') ∧
      app' = app.edited env ("Add " ++ toString markers.length ++ " markers") w' ∧
      (1 ≤ env.undoStackSize → ∃ w'', (app'.state.undo 1).user.waves = some w'' ∧
        ∀ text, w''.currentCanvasState text = w.currentCanvasState text) := by
  have hvariables : ∀ {text error message : String} {refs : WaveData → List VariableRef} {ignoreFailures : Bool}
      {response : List DisplayedItemRef → WcpResponse},
      app.addVariables env text error message refs ignoreFailures response = .ok (app', some (.error e args m)) →
        app' = app := by
    intro text error message refs ignoreFailures response h
    rcases App.addVariables_eq_ok h with ⟨-, rfl, -⟩ | ⟨w, w', ids, -, -, -, hr⟩
    · rfl
    · cases hr
  cases message with
  | greeting version commands =>
    simp only [App.handleWcpCsMessage, App.handleGreeting] at h
    split at h
    · cases h
    · cases h
      exact .inl rfl
  | command command =>
    simp only [App.handleWcpCsMessage] at h
    split at h
    swap
    · cases h
      exact .inl rfl
    cases hadds : command.adds with
    | false =>
      rcases App.plain_of_handleCommand h hadds with ⟨-, hnone⟩ | ⟨-, ⟨r, hr, -⟩ | ⟨e', m', herror⟩⟩
      · cases hnone
      · cases hr
      · cases herror
        exact .inl rfl
    | true =>
      cases command with
      | addVariables names => exact .inl (hvariables h)
      | addScope scope recursive => exact .inl (hvariables h)
      | addItems items recursive => exact .inl (hvariables h)
      | addMarkers markers =>
        rcases App.addMarkers_eq_ok h with ⟨-, rfl, -⟩ | ⟨w, w', ids, hw, hloop, rfl, hr⟩
        · exact .inl rfl
        · obtain ⟨added, htake, hids⟩ := addMarkersLoop_take hloop
          -- all of them would have been answered with their references
          have hroom : maxMarkers - w.markers.size < markers.length := by
            by_contra hle
            rw [if_pos (not_lt.1 hle)] at hids
            subst hids
            cases hr
          exact .inr ⟨markers, w, w', added, rfl, hw, hroom, htake, rfl, fun hsize => SystemState.undo_edited hsize hw ⟨rfl, rfl⟩⟩
      | _ => cases hadds

/-- Of two markers one fits. -/
theorem unchanged_of_error_oneFree : ∃ app', (App.idle oneFree).handleWcpCsMessage defaultEnv
      (.command (.addMarkers [⟨5, some "a", false⟩, ⟨6, none, false⟩]))
        = .ok (app', some (.error "add_markers" [] "Cannot add marker")) ∧
    (app' = App.idle oneFree ∨ ∃ markers w w' ids,
      WcpCSMessage.command (.addMarkers [⟨5, some "a", false⟩, ⟨6, none, false⟩]) = .command (.addMarkers markers) ∧
      (App.idle oneFree).state.user.waves = some w ∧ maxMarkers - w.markers.size < markers.length ∧
      addMarkersLoop (markers.take (maxMarkers - w.markers.size)) w = .ok (some ids, w') ∧
      app' = (App.idle oneFree).edited defaultEnv ("Add " ++ toString markers.length ++ " markers") w' ∧
      (1 ≤ defaultEnv.undoStackSize → ∃ w'', (app'.state.undo 1).user.waves = some w'' ∧
        ∀ text, w''.currentCanvasState text = w.currentCanvasState text)) := by
  have hrun : ((App.idle oneFree).handleWcpCsMessage defaultEnv
      (.command (.addMarkers [⟨5, some "a", false⟩, ⟨6, none, false⟩]))).toOption.any
      (fun r => r.2 = some (.error "add_markers" [] "Cannot add marker")) = true := by decide +kernel
  obtain ⟨app', hok⟩ := exists_of_answers hrun
  exact ⟨app', hok, unchanged_of_error defaultEnv _ app' _ _ _ _ hok⟩

end Wcp
