import Kahuna.Wave.Layers

/-!
# Only groups have children, and adding never panics

`insert_item` panics when the position that `insert_position` returns is refused. In a layered display it is
refused in one case: the item is an unfolded group of the largest level, so that the level below it wraps
around, and the item behind it is not at the top.

- `Message.KeepsLayers`: when a message keeps a display layered;
- `inserts_iff`: when an item can be inserted;
- `Session.adds_safely`: in every run that keeps displays layered, only groups have children, and items can be
  inserted everywhere but there.
-/

namespace Wave

open ItemTree Decoders

/-! ## Messages -/

/-- When a message keeps the display layered. Loading a waveform or a state is left out.

- Scopes are not nested past the largest level.
- Variables are dropped at a place that is offered.
- The keyboard does not indent past the largest level.
- What is dragged, or moved into a new group, lands well. -/
def Message.KeepsLayers (σ : SystemState) (w : WaveData) (m : Message) : Prop :=
  match m with
  | .addScopeAsGroup scope recursive =>
    w.ScopeFits (if recursive then w.inner.hierarchy.depth else 0) scope
      ((w.insertPosition w.focusedItem).getD w.endInsertPosition).level
  | .addDraggedVariables _ =>
    ∀ target, σ.user.dragTargetIdx = some target → Offered w.itemsTree w.isGroup target
  | .moveFocusedItem direction count =>
    ∀ vidx, w.focusedItem = some vidx → WaveData.NeverAround w.isGroup direction count vidx w.itemsTree
  | .variableDragFinished =>
    ∀ source target, σ.user.dragSourceIdx = some source → σ.user.dragTargetIdx = some target →
      w.LandsWell (w.draggedItems source) target
  | .groupNew _ before items =>
    ∀ itemRefs, w.groupedItems before items = .ok itemRefs → w.GroupsWell before itemRefs
  | .wavesLoaded .. | .loadState _ => False
  | _ => True

namespace SystemState

variable {env : Env} {σ : SystemState} {w w' : WaveData}

/-- A change of the waveform data keeps the display layered. -/
theorem layered_change {m : Message} (h : w.Layered) (hkeeps : m.KeepsLayers σ w)
    {f : WaveData → Run WaveData} (hm : m.change env σ = some f) (hrun : f w = .ok w') : w'.Layered := by
  cases m with
  | addVariables vars =>
    obtain rfl := Option.some.inj hm
    simp only at hrun
    split at hrun
    · cases hrun
      exact h
    · rw [Except.map_eq_ok] at hrun
      obtain ⟨⟨_, w₁⟩, h₁, rfl⟩ := hrun
      exact WaveData.layered_addVariables h (by simp) h₁
  | addDivider name vidx =>
    obtain rfl := Option.some.inj hm
    rw [Except.map_eq_ok] at hrun
    obtain ⟨⟨_, w₁⟩, h₁, rfl⟩ := hrun
    exact WaveData.layered_insertItem h h₁
      (WaveData.hosts_targetOrFocus fun p hp => WaveData.hosts_insertPosition hp)
  | addTimeLine vidx =>
    obtain rfl := Option.some.inj hm
    rw [Except.map_eq_ok] at hrun
    obtain ⟨⟨_, w₁⟩, h₁, rfl⟩ := hrun
    exact WaveData.layered_insertItem h h₁
      (WaveData.hosts_targetOrFocus fun p hp => WaveData.hosts_insertPosition hp)
  | addScope scope recursive =>
    obtain rfl := Option.some.inj hm
    rw [Except.map_eq_ok] at hrun
    obtain ⟨⟨_, w₁⟩, h₁, rfl⟩ := hrun
    exact WaveData.layered_addVariables h (by simp) h₁
  | addScopeAsGroup scope recursive =>
    obtain rfl := Option.some.inj hm
    rw [Except.map_eq_ok] at hrun
    obtain ⟨⟨_, w₁⟩, h₁, rfl⟩ := hrun
    have hhosts := @WaveData.hosts_targetOrFocus w none (by simp)
    exact (WaveData.layered_addScopeAsGroup h hhosts hkeeps h₁).layered
  | addMarker time name moveFocus =>
    obtain rfl := Option.some.inj hm
    exact WaveData.layered_addMarker h hrun
  | setMarker id time =>
    obtain rfl := Option.some.inj hm
    exact WaveData.layered_setMarkerPosition h hrun
  | moveMarkerToCursor idx =>
    obtain rfl := Option.some.inj hm
    simp only [WaveData.moveMarkerToCursor] at hrun
    split at hrun
    · exact WaveData.layered_setMarkerPosition h hrun
    · cases hrun
      exact h
  | removeMarker id =>
    obtain rfl := Option.some.inj hm
    exact WaveData.layered_removeMarker h hrun
  | resolveMarkerSet name time =>
    obtain rfl := Option.some.inj hm
    simp only at hrun
    split at hrun
    · exact WaveData.layered_setMarkerPosition h hrun
    · exact WaveData.layered_addMarker h hrun
  | resolveMarkerRemove text =>
    obtain rfl := Option.some.inj hm
    simp only at hrun
    split at hrun
    · exact WaveData.layered_removeMarker h hrun
    · cases hrun
      exact h
  | addDraggedVariables refs =>
    obtain rfl := Option.some.inj hm
    rw [Except.map_eq_ok] at hrun
    obtain ⟨⟨_, w₁⟩, h₁, rfl⟩ := hrun
    have hunfocused : WaveData.Layered { w with focusedItem := none } := h.of_shape rfl rfl rfl rfl
    exact WaveData.layered_addVariables hunfocused
      (fun p hp => hosts_of_offered (fun _ hgroup => hgroup) (hkeeps p hp)) h₁
  | decoderAdd protocol items =>
    obtain rfl := Option.some.inj hm
    simp only at hrun
    split at hrun
    · cases hrun
      exact h
    · rw [Except.map_eq_ok] at hrun
      obtain ⟨⟨instance_, _⟩, hadd, rfl⟩ := hrun
      simp only [WaveData.addDecoder, Except.bind_eq_ok] at hadd
      obtain ⟨w₁, hlanes, hret⟩ := hadd
      cases hret
      have hnext : WaveData.Layered { w with nextDecoderInstance := w.nextDecoderInstance + 1 } :=
        h.of_shape rfl rfl rfl rfl
      exact WaveData.layered_addLanes hnext (fun p hp => WaveData.hosts_insertPosition hp) hlanes
  | decoderConfigure instance_ settings bindings =>
    obtain rfl := Option.some.inj hm
    cases hrun
    exact WaveData.layered_configureDecoder h instance_ settings bindings
  | removeVisibleItems target =>
    cases target with
    | explicit vidx =>
      obtain rfl := Option.some.inj hm
      simp only at hrun
      split at hrun
      · cases hrun
        exact h
      · exact WaveData.layered_removeDisplayedItem h hrun
    | currentSelection =>
      obtain rfl := Option.some.inj hm
      exact WaveData.layered_removeDisplayedItems h hrun
  | removeItems items =>
    obtain rfl := Option.some.inj hm
    exact WaveData.layered_removeDisplayedItems h hrun
  | removePlaceholders =>
    obtain rfl := Option.some.inj hm
    cases hrun
    exact WaveData.layered_removePlaceholders h
  | moveFocusedItem direction count =>
    obtain rfl := Option.some.inj hm
    exact WaveData.layered_moveFocusedItem h hkeeps hrun
  | variableDragFinished =>
    obtain rfl := Option.some.inj hm
    simp only at hrun
    split at hrun
    next source target hsource htarget =>
      exact WaveData.layered_dragFinished h (hkeeps source target hsource htarget) hrun
    next =>
      cases hrun
      exact h
  | groupNew name before items =>
    obtain rfl := Option.some.inj hm
    exact WaveData.layered_groupNew h hkeeps hrun
  | groupDissolve itemRef =>
    obtain rfl := Option.some.inj hm
    exact WaveData.layered_groupDissolve h hrun
  | groupFold itemRef | groupUnfold itemRef | groupFoldRecursive itemRef
  | groupUnfoldRecursive itemRef =>
    obtain rfl := Option.some.inj hm
    exact WaveData.layered_groupFold h hrun
  | groupFoldAll | groupUnfoldAll =>
    obtain rfl := Option.some.inj hm
    exact WaveData.layered_groupFoldAll h hrun
  | focusItem idx =>
    obtain rfl := Option.some.inj hm
    cases hrun
    unfold WaveData.focusItem
    split
    · exact h.of_shape rfl rfl rfl rfl
    · exact h
  | moveFocus direction count select =>
    obtain rfl := Option.some.inj hm
    cases hrun
    exact WaveData.layered_moveFocus h direction count select
  | itemSelectRange selectTo =>
    obtain rfl := Option.some.inj hm
    simp only at hrun
    split at hrun <;> cases hrun
    · exact h
    · exact h.of_shape (DisplayedItemTree.map_xselectVisibleRange (fun _ _ => rfl) _ _ _ _)
        (DisplayedItemTree.refs_xselectVisibleRange _ _ _ _) rfl rfl
  | toggleItemSelected vidx =>
    obtain rfl := Option.some.inj hm
    cases hrun
    exact WaveData.layered_toggleItemSelected h vidx
  | itemSelectAll | itemSelectionClear =>
    obtain rfl := Option.some.inj hm
    cases hrun
    exact h.of_shape (DisplayedItemTree.map_xselectAllVisible (fun _ _ => rfl) _ _)
      (DisplayedItemTree.refs_xselectAllVisible _ _) rfl rfl
  | setItemSelected vidx selected =>
    obtain rfl := Option.some.inj hm
    cases hrun
    exact h.of_shape (DisplayedItemTree.map_xselect (fun _ _ => rfl) _ _ _)
      (DisplayedItemTree.refs_xselect _ _ _) rfl rfl
  | updateAnnotationGroup id name =>
    obtain rfl := Option.some.inj hm
    cases hrun
    unfold WaveData.updateAnnotationGroup
    split
    · exact h
    · exact h.of_shape rfl rfl rfl rfl
  | wavesLoaded | loadState => exact hkeeps.elim
  | undo | redo => cases hm
  | variableDragStarted vidx | variableDragTargetChanged position =>
    obtain rfl := Option.some.inj hm
    cases hrun
    exact h
  | _ =>
    obtain rfl := Option.some.inj hm
    cases hrun
    exact h.of_shape rfl rfl rfl rfl

end SystemState

/-! ## Inserting -/

namespace WaveData

variable {w : WaveData} {vidx : Option ℕ} {position : TargetPosition}

/-- An item can be inserted at the position of a visible index. -/
def Inserts (w : WaveData) (vidx : Option ℕ) (item : DisplayedItem) (moveFocus : Bool) : Prop :=
  ∃ r, w.insertItem item (w.insertPosition vidx) moveFocus = .ok r

/-- The visible index is that of an unfolded group of the largest level, and the item behind it is not at the
top. -/
def IntoDeepest (w : WaveData) (vidx : Option ℕ) : Prop :=
  ∃ v idx node next, vidx = some v ∧ w.itemsTree.toDisplayed v = some idx ∧
    w.itemsTree.items[idx]? = some node ∧ node.level = maxLevel ∧ node.unfolded = true ∧
    w.isGroup node = true ∧ w.itemsTree.items[idx + 1]? = some next ∧ 0 < next.level

/-- The visible index is that of an item that is no group, and the item behind it is deeper. -/
def BehindOwner (w : WaveData) (vidx : Option ℕ) : Prop :=
  ∃ v idx node next, vidx = some v ∧ w.itemsTree.toDisplayed v = some idx ∧
    w.itemsTree.items[idx]? = some node ∧ w.isGroup node = false ∧
    w.itemsTree.items[idx + 1]? = some next ∧ node.level < next.level

/-- Every node with a deeper one right behind it is that of a group. -/
def OnlyGroupsOwn (w : WaveData) : Prop :=
  ∀ i node next, w.itemsTree.items[i]? = some node → w.itemsTree.items[i + 1]? = some next →
    node.level < next.level → w.isGroup node = true

/-- The index whose position is taken: the one that is passed, or the focus when it has none. -/
def anchor (w : WaveData) (vidx : Option ℕ) : Option ℕ :=
  if (w.insertPosition vidx).isSome then vidx else w.focusedItem

theorem targetOrFocus_insertPosition (w : WaveData) (vidx : Option ℕ) :
    w.targetOrFocus (w.insertPosition vidx)
      = (w.insertPosition (w.anchor vidx)).getD w.endInsertPosition := by
  rw [targetOrFocus, anchor]
  cases hposition : w.insertPosition vidx with
  | none => simp
  | some position => simp [hposition]

/-- An item can be inserted when its place is not refused. -/
theorem inserts_iff_checkLocation {item : DisplayedItem} {moveFocus : Bool} :
    w.Inserts vidx item moveFocus ↔
      checkLocation w.itemsTree.items (w.targetOrFocus (w.insertPosition vidx)) = .ok () := by
  rw [Inserts, insertItem, DisplayedItemTree.insertItem]
  cases checkLocation w.itemsTree.items (w.targetOrFocus (w.insertPosition vidx)) with
  | error e =>
    refine ⟨?_, ?_⟩
    · rintro ⟨r, hr⟩
      cases hr
    · intro h
      cases h
  | ok u => exact ⟨fun _ => rfl, fun _ => ⟨_, rfl⟩⟩

theorem Layered.onlyGroupsOwn (h : w.Layered) : w.OnlyGroupsOwn := by
  intro i node next hnode hnext hlt
  obtain ⟨hi, rfl⟩ := List.getElem?_eq_some_iff.1 hnode
  obtain ⟨hi', rfl⟩ := List.getElem?_eq_some_iff.1 hnext
  exact Outline.parentsIn_iff_getElem.1 h.parents i hi' hlt

/-- A node is at most one level deeper than the one before it. -/
theorem level_le_succ {t : DisplayedItemTree} (h : t.WellFormed) {i : ℕ} {node next : Node}
    (hnode : t.items[i]? = some node) (hnext : t.items[i + 1]? = some next) :
    next.level ≤ node.level + 1 := by
  have hsteps := h.steps
  rw [← List.take_append_drop (i + 1) t.items] at hsteps
  have hdrop := (Outline.stepsFrom_append.1 hsteps).2
  obtain ⟨hi, rfl⟩ := List.getElem?_eq_some_iff.1 hnode
  rw [List.take_succ_eq_append_getElem hi, Outline.boundAfter_concat] at hdrop
  exact hdrop.head_le next (by rw [List.head?_drop, hnext]; rfl)

/-- The end is never refused. -/
theorem checkLocation_end (w : WaveData) : checkLocation w.itemsTree.items w.endInsertPosition = .ok () :=
  checkLocation_of_bounds le_rfl (fun _ => rfl) (fun _ _ => Nat.zero_le _)
    fun x hx => by simp [endInsertPosition] at hx

/-- The position of a visible index, by the node that is found there. -/
theorem insertPosition_eq {v idx : ℕ} {node : Node} {item : DisplayedItem}
    (hidx : w.itemsTree.toDisplayed v = some idx) (hnode : w.itemsTree.items[idx]? = some node)
    (hitem : w.displayedItems.get node.itemRef = some item) :
    w.insertPosition (some v) = some
      (if item.isGroup then
        if node.unfolded then ⟨idx + 1, wrappingAdd node.level 1⟩
        else ⟨subtreeEnd w.itemsTree.items idx, node.level⟩
      else ⟨idx + 1, node.level⟩) := by
  simp only [insertPosition, Option.bind_eq_bind, Option.bind_some, hidx, hnode, hitem]
  split
  next hgroup =>
    split
    next => rfl
    next hfolded =>
      -- the place is behind what the group hides
      have hplace := getD_toDisplayed_succ hidx
      rw [DisplayedItemTree.nextVisibleItem, hnode] at hplace
      simp only [hfolded, Bool.false_eq_true, if_false] at hplace
      rw [← hplace]
      split
      next n hn => rw [hn, Option.getD_some]
      next hn => rw [hn, Option.getD_none]
  next => rfl

/-- What a visible index with a position shows. -/
theorem exists_of_insertPosition (hposition : w.insertPosition vidx = some position) :
    ∃ v idx node item, vidx = some v ∧ w.itemsTree.toDisplayed v = some idx ∧
      w.itemsTree.items[idx]? = some node ∧ w.displayedItems.get node.itemRef = some item := by
  simp only [insertPosition, Option.bind_eq_bind, Option.bind_eq_some_iff] at hposition
  obtain ⟨v, hv, idx, hidx, node, hnode, item, hitem, -⟩ := hposition
  exact ⟨v, idx, node, item, hv, hidx, hnode, hitem⟩

/-- The position of a visible index is refused in two cases only. -/
theorem checkLocation_insertPosition_iff (hwf : w.itemsTree.WellFormed)
    (hposition : w.insertPosition vidx = some position) :
    checkLocation w.itemsTree.items position = .ok () ↔ ¬ w.IntoDeepest vidx ∧ ¬ w.BehindOwner vidx := by
  obtain ⟨v, idx, node, item, rfl, hidx, hnode, hitem⟩ := exists_of_insertPosition hposition
  rw [insertPosition_eq hidx hnode hitem] at hposition
  obtain rfl := Option.some.inj hposition
  have hlt : idx < w.itemsTree.items.length := lt_of_toDisplayed hidx
  obtain ⟨hlt', hget⟩ := List.getElem?_eq_some_iff.1 hnode
  have hfits := hwf.fits node (List.mem_of_getElem? hnode)
  have hisGroup : w.isGroup node = item.isGroup := by rw [isGroup, hitem, Option.any_some]
  -- what the two cases say of the node found
  have hdeepest : w.IntoDeepest (some v) ↔ node.level = maxLevel ∧ node.unfolded = true ∧
      w.isGroup node = true ∧ ∃ next, w.itemsTree.items[idx + 1]? = some next ∧ 0 < next.level := by
    constructor
    · rintro ⟨v', idx', node', next, hv, hidx', hnode', hlevel, hunfolded, hgroup, hnext, hpos⟩
      obtain rfl := Option.some.inj hv
      obtain rfl := Option.some.inj (hidx.symm.trans hidx')
      obtain rfl := Option.some.inj (hnode.symm.trans hnode')
      exact ⟨hlevel, hunfolded, hgroup, next, hnext, hpos⟩
    · rintro ⟨hlevel, hunfolded, hgroup, next, hnext, hpos⟩
      exact ⟨v, idx, node, next, rfl, hidx, hnode, hlevel, hunfolded, hgroup, hnext, hpos⟩
  have howner : w.BehindOwner (some v) ↔ w.isGroup node = false ∧
      ∃ next, w.itemsTree.items[idx + 1]? = some next ∧ node.level < next.level := by
    constructor
    · rintro ⟨v', idx', node', next, hv, hidx', hnode', hgroup, hnext, hdeeper⟩
      obtain rfl := Option.some.inj hv
      obtain rfl := Option.some.inj (hidx.symm.trans hidx')
      obtain rfl := Option.some.inj (hnode.symm.trans hnode')
      exact ⟨hgroup, next, hnext, hdeeper⟩
    · rintro ⟨hgroup, next, hnext, hdeeper⟩
      exact ⟨v, idx, node, next, rfl, hidx, hnode, hgroup, hnext, hdeeper⟩
  -- the node itself is the one before the place right behind it
  have hlast : ∀ z ∈ (w.itemsTree.items.take (idx + 1)).getLast?, z = node := by
    intro z hz
    rw [List.take_succ_eq_append_getElem hlt', List.getLast?_concat, hget] at hz
    exact (Option.some.inj hz).symm
  rw [hdeepest, howner, hisGroup]
  split
  next hgroup =>
    simp only [hgroup, Bool.true_eq_false, false_and, not_false_eq_true, and_true, true_and]
    split
    next hunfolded =>
      by_cases hmax : node.level = maxLevel
      · -- the level below the largest one is level 0
        have hwrap : wrappingAdd node.level 1 = 0 := by rw [hmax]; rfl
        rw [hwrap]
        constructor
        · rintro hcheck ⟨-, -, next, hnext, hpos⟩
          obtain ⟨-, -, hbehind⟩ := bounds_of_checkLocation hwf.steps hwf.fits hcheck
          have hle : next.level ≤ 0 := hbehind next (by rw [List.head?_drop]; exact hnext)
          omega
        · intro hnot
          refine checkLocation_of_bounds hlt (fun hzero => rfl) (fun _ _ => Nat.zero_le _) fun x hx => ?_
          by_contra hpos
          exact hnot ⟨hmax, hunfolded, x, hx, not_le.1 hpos⟩
      · have hwrap : wrappingAdd node.level 1 = node.level + 1 :=
          Nat.mod_eq_of_lt (Nat.succ_lt_succ (lt_of_le_of_ne hfits hmax))
        rw [hwrap]
        refine iff_of_true ?_ fun hdeep => hmax hdeep.1
        refine checkLocation_of_bounds hlt (by simp) (fun z hz => ?_) fun x hx => level_le_succ hwf hnode hx
        rw [hlast z hz, saturatingAdd]
        exact le_min le_rfl (lt_of_le_of_ne hfits hmax)
    next hfolded =>
      refine iff_of_true ?_ fun hdeep => hfolded hdeep.2.1
      refine checkLocation_of_bounds (Outline.subtreeEnd_le_length hlt) (fun hzero => ?_)
        (fun z hz => ?_) fun x hx => ?_
      · have hpos : idx < subtreeEnd w.itemsTree.items idx := Outline.lt_subtreeEnd hlt
        have hzero' : subtreeEnd w.itemsTree.items idx = 0 := hzero
        omega
      · have hle := le_of_lastBefore_subtreeEnd hlt (z := (z.level, z.itemRef)) (by
          rw [lastBefore_eq_map, Option.mem_def.1 hz]
          rfl)
        rw [levelAt_of_lt hlt, hget] at hle
        rw [saturatingAdd]
        exact le_min (Nat.le_succ_of_le hle) hfits
      · have hle := head_drop_subtreeEnd hlt x (by rw [List.head?_drop]; exact hx)
        rwa [levelAt_of_lt hlt, hget] at hle
  next hgroup =>
    rw [Bool.not_eq_true] at hgroup
    simp only [hgroup, Bool.false_eq_true, false_and, and_false, not_false_eq_true, true_and]
    constructor
    · rintro hcheck ⟨next, hnext, hdeeper⟩
      obtain ⟨-, -, hbehind⟩ := bounds_of_checkLocation hwf.steps hwf.fits hcheck
      exact absurd hdeeper (not_lt.2 (hbehind next (by rw [List.head?_drop]; exact hnext)))
    · intro hnot
      refine checkLocation_of_bounds hlt (by simp) (fun z hz => ?_) fun x hx => ?_
      · rw [hlast z hz, saturatingAdd]
        exact le_min (Nat.le_succ _) hfits
      · by_contra hdeeper
        exact hnot ⟨x, hx, not_le.1 hdeeper⟩

/-- Where only groups have children, the position of a visible index is refused in one case only. -/
theorem checkLocation_insertPosition (h : w.Layered) (hposition : w.insertPosition vidx = some position) :
    checkLocation w.itemsTree.items position = .ok () ↔ ¬ w.IntoDeepest vidx := by
  rw [checkLocation_insertPosition_iff h.wellFormed hposition]
  refine and_iff_left ?_
  rintro ⟨v, idx, node, next, -, -, hnode, hgroup, hnext, hdeeper⟩
  rw [h.onlyGroupsOwn idx node next hnode hnext hdeeper] at hgroup
  cases hgroup

/-- Items can be inserted everywhere but into a group of the largest level. -/
theorem inserts_iff (h : w.Layered) {item : DisplayedItem} {moveFocus : Bool} :
    w.Inserts vidx item moveFocus ↔ ¬ w.IntoDeepest (w.anchor vidx) := by
  rw [inserts_iff_checkLocation, targetOrFocus_insertPosition]
  cases hposition : w.insertPosition (w.anchor vidx) with
  | some position => exact checkLocation_insertPosition h hposition
  | none =>
    refine iff_of_true (checkLocation_end w) ?_
    rintro ⟨v, idx, node, next, hv, hidx, hnode, -, -, hgroup, -⟩
    -- a group has a position
    obtain ⟨item, hitem⟩ := h.exists_item hnode
    rw [hv] at hposition
    simp only [insertPosition, Option.bind_eq_bind, Option.bind_some, hidx, hnode, hitem] at hposition
    rw [isGroup, hitem, Option.any_some] at hgroup
    rw [if_pos hgroup] at hposition
    split_ifs at hposition
    split at hposition <;> cases hposition

end WaveData

/-! ## Runs -/

namespace Session

variable {F : Type} {ftr : FtrParser F} {env : Env} {s s' : Session F}

/-- When a message keeps all displays layered. A file of streams is loaded before anything can be undone. -/
def KeepsLayers (s : Session F) (m : SessionMessage F) : Prop :=
  s.KeepsRefs m ∧ ∀ w, s.state.user.waves = some w →
    match m with
    | .wave m => m.KeepsLayers s.state w
    | _ => True

/-- The empty display is layered. -/
theorem layered_loaded (inner : WaveContainer) : (WaveData.loaded inner).display.Layered :=
  ⟨⟨trivial, by simp [WaveData.display, WaveData.loaded]⟩, Outline.parentsIn_nil⟩

/-- One step keeps all displays layered. -/
theorem layered_step {m : SessionMessage F} (hinv : ∃ w, s.state.Shows Display.Layered w)
    (hkeeps : s.KeepsLayers m) (h : s.update ftr env m = .ok s') :
    ∃ w', s'.state.Shows Display.Layered w' := by
  obtain ⟨w, hinv⟩ := hinv
  have hlayered : w.Layered := ⟨hinv.display, hinv.refsSound.display⟩
  have hw := hkeeps.2 w hinv.refsSound.waves
  refine shows_step hinv hkeeps.1 (fun m' hm' => ?_) (fun w' hstreams => ?_) (layered_loaded _) h
  · subst hm'
    refine ⟨?_, fun f w' hf hrun => (SystemState.layered_change hlayered hw hf hrun).display⟩
    cases m' with
    | wavesLoaded | loadState => exact hw.elim
    | _ => trivial
  · exact (WaveData.layered_insertsStreams hlayered hstreams).display

/-- In every run that keeps displays layered, only groups have items below them, and an item can be inserted
everywhere but into an unfolded group of the largest level with something behind it that is not at the top. -/
theorem adds_safely {inner : WaveContainer}
    (h : Transition.Reachable (update ftr env) KeepsLayers (fresh inner) s) :
    ∀ w, s.state.user.waves = some w → w.OnlyGroupsOwn ∧
      ∀ (focusedItem vidx : Option ℕ) (item : DisplayedItem) (moveFocus : Bool),
        WaveData.Inserts { w with focusedItem } vidx item moveFocus ↔
          ¬ w.IntoDeepest (WaveData.anchor { w with focusedItem } vidx) := by
  have hstart : ∃ w, (fresh inner : Session F).state.Shows Display.Layered w := by
    refine ⟨_, ⟨rfl, rfl, refsSound_empty rfl rfl, ?_⟩, layered_loaded inner, ?_⟩ <;>
      simp [fresh, SystemState.fresh, SystemState.snapshots]
  obtain ⟨w, hinv⟩ := h.invariant hstart fun _ _ _ hinv hm hstep => layered_step hinv hm hstep
  intro w' hw'
  obtain rfl : w = w' := Option.some.inj (hinv.refsSound.waves.symm.trans hw')
  have hlayered : w.Layered := ⟨hinv.display, hinv.refsSound.display⟩
  refine ⟨hlayered.onlyGroupsOwn, fun focusedItem vidx item moveFocus => ?_⟩
  have hfocused : WaveData.Layered { w with focusedItem } := hlayered.of_shape rfl rfl rfl rfl
  exact WaveData.inserts_iff hfocused

/-! ### A group that is dropped below itself -/

/-- The drop places are those that are offered, and nothing is loaded. -/
def DropsOffered (s : Session F) (m : SessionMessage F) : Prop :=
  match m with
  | .wave (.variableDragTargetChanged position) =>
    ∀ w, s.state.user.waves = some w → Offered w.itemsTree w.isGroup position
  | .wave (.wavesLoaded ..) | .wave (.loadState _) | .transactionStreamsLoaded _ => False
  | _ => True

/-- The same, for drop places that are offered at some visible index. -/
def dropsOffered (s : Session F) (m : SessionMessage F) : Bool :=
  match m with
  | .wave (.variableDragTargetChanged position) =>
    s.state.user.waves.all fun w => (List.range (w.itemsTree.items.length + 1)).any fun vidx =>
      position.before = (w.itemsTree.toDisplayed vidx).getD w.itemsTree.items.length &&
        decide ((w.itemsTree.validLevelsVisible vidx w.isGroup).1 ≤ position.level ∧
          position.level < (w.itemsTree.validLevelsVisible vidx w.isGroup).2)
  | .wave (.wavesLoaded ..) | .wave (.loadState _) | .transactionStreamsLoaded _ => false
  | _ => true

theorem dropsOffered_of_check (s : Session F) (m : SessionMessage F) (h : s.dropsOffered m = true) :
    s.DropsOffered m := by
  cases m with
  | wave m =>
    cases m with
    | variableDragTargetChanged position =>
      intro w hw
      simp only [dropsOffered, hw, Option.all_some, List.any_eq_true, Bool.and_eq_true,
        decide_eq_true_eq] at h
      obtain ⟨vidx, -, hbefore, hlevels⟩ := h
      exact ⟨vidx, hbefore, hlevels⟩
    | wavesLoaded | loadState => cases h
    | _ => trivial
  | transactionStreamsLoaded => cases h
  | _ => trivial

/-- The checks of messages that add, remove, group and drag. -/
def keepsLayers (s : Session F) (m : SessionMessage F) : Bool :=
  match m with
  | .wave (.addDivider ..) | .wave (.focusItem _) | .wave (.variableDragStarted _)
  | .wave (.variableDragTargetChanged _) => true
  | .wave (.groupNew _ before items) =>
    s.state.user.waves.all fun w =>
      match w.groupedItems before items with
      | .error _ => true
      | .ok itemRefs =>
        decide (Unnested w.itemsTree (WaveData.indicesOf w.itemsTree itemRefs)) &&
          !itemRefs.contains (w.displayItemRefCounter + 1) &&
          (WaveData.indicesOf w.itemsTree itemRefs).all fun root =>
            ItemTree.subtreeEnd w.itemsTree.items root ≠ (w.groupPlace before).before ||
              (w.groupPlace before).level ≤ levelAt w.itemsTree.items root
  | .wave .variableDragFinished =>
    s.state.user.waves.all fun w =>
      match s.state.user.dragSourceIdx, s.state.user.dragTargetIdx with
      | some source, some target =>
        decide (Unnested w.itemsTree (w.draggedItems source)) &&
          (lastStaying w.itemsTree.items (w.draggedItems source) target.before).all fun z =>
            z.level + 1 ≠ target.level || w.isGroup z
      | _, _ => true
  | _ => false

theorem keepsLayers_of_check (s : Session F) (m : SessionMessage F) (h : s.keepsLayers m = true) :
    s.KeepsLayers m := by
  cases m with
  | wave m =>
    cases m with
    | addDivider | focusItem | variableDragStarted | variableDragTargetChanged =>
      exact ⟨trivial, fun _ _ => trivial⟩
    | groupNew name before items =>
      refine ⟨trivial, fun w hw itemRefs hitemRefs => ?_⟩
      simp only [keepsLayers, hw, Option.all_some, hitemRefs, Bool.and_eq_true, decide_eq_true_eq,
        Bool.not_eq_true', List.all_eq_true, Bool.or_eq_true] at h
      refine ⟨h.1.1, by simpa using h.1.2, ?_⟩
      rintro ⟨root, hroot, hend, hlevel⟩
      rcases h.2 root hroot with hne | hle
      · exact absurd hend hne
      · exact absurd hlevel (not_lt.2 hle)
    | variableDragFinished =>
      refine ⟨trivial, fun w hw source target hsource htarget => ?_⟩
      simp only [keepsLayers, hw, Option.all_some, hsource, htarget, Bool.and_eq_true,
        decide_eq_true_eq] at h
      refine ⟨h.1, .inr fun z hz hlevel => ?_⟩
      have hall := h.2
      rw [Option.mem_def.1 hz, Option.all_some, Bool.or_eq_true, decide_eq_true_eq] at hall
      exact hall.resolve_left (not_not.2 hlevel)
    | _ => cases h
  | _ => cases h

/-- Two dividers are put into a group, and one of them is dragged out again. -/
theorem adds_safely_draggedOut :
    ∃ s w, Transition.checkedRun (update busFtr defaultEnv) keepsLayers (fresh noWaveform)
        [.wave (.addDivider (some "a") none), .wave (.addDivider (some "b") none),
          .wave (.groupNew none none (some [1, 2])), .wave (.focusItem 2), .wave (.variableDragStarted 2),
          .wave (.variableDragTargetChanged ⟨3, 0⟩), .wave .variableDragFinished] = some s ∧
      s.state.user.waves = some w ∧ w.itemsTree.shape = [(0, 3), (1, 1), (0, 2)] ∧ w.OnlyGroupsOwn := by
  obtain ⟨s, hrun, hreach, htest⟩ := Transition.exists_reachable_of_checkedRun (update busFtr defaultEnv)
    KeepsLayers (fresh noWaveform) keepsLayers
    [.wave (.addDivider (some "a") none), .wave (.addDivider (some "b") none),
      .wave (.groupNew none none (some [1, 2])), .wave (.focusItem 2), .wave (.variableDragStarted 2),
      .wave (.variableDragTargetChanged ⟨3, 0⟩), .wave .variableDragFinished]
    (fun s => s.state.user.waves.any fun w => w.itemsTree.shape = [(0, 3), (1, 1), (0, 2)])
    keepsLayers_of_check (by decide)
  obtain ⟨w, hw, hshape⟩ := (Option.any_eq_true _ _).1 htest
  exact ⟨s, w, hrun, hw, by simpa using hshape, (adds_safely hreach w hw).1⟩

/-- An empty group is dropped right below itself, one level deeper: the divider above it becomes its parent,
and nothing can be inserted behind the divider any more. -/
theorem not_addsSafely_groupBelowItself :
    ¬ ∀ (F : Type) (ftr : FtrParser F) (env : Env) (inner : WaveContainer) (s : Session F),
      Transition.Reachable (update ftr env) DropsOffered (fresh inner) s →
        ∀ w, s.state.user.waves = some w → w.OnlyGroupsOwn ∧
          ∀ (focusedItem vidx : Option ℕ) (item : DisplayedItem) (moveFocus : Bool),
            WaveData.Inserts { w with focusedItem } vidx item moveFocus := by
  intro h
  obtain ⟨s, -, hreach, htest⟩ := Transition.exists_reachable_of_checkedRun (update busFtr defaultEnv)
    DropsOffered (fresh noWaveform) dropsOffered
    [.wave (.addDivider (some "a") none), .wave (.addDivider (some "b") none),
      .wave (.groupNew none none (some [2])), .wave (.removeItems [2]), .wave (.variableDragStarted 1),
      .wave (.variableDragTargetChanged ⟨2, 1⟩), .wave .variableDragFinished]
    (fun s => s.state.user.waves.any fun w =>
      w.itemsTree.shape = [(0, 1), (1, 3)] ∧
        checkLocation w.itemsTree.items (w.targetOrFocus (w.insertPosition (some 0))) ≠ .ok ())
    dropsOffered_of_check (by decide)
  obtain ⟨w, hw, hshape⟩ := (Option.any_eq_true _ _).1 htest
  rw [decide_eq_true_eq] at hshape
  have hinserts := (h Unit busFtr defaultEnv noWaveform s hreach w hw).2 w.focusedItem (some 0)
    (.divider none) false
  exact hshape.2 (WaveData.inserts_iff_checkLocation.1 hinserts)

end Session

end Wave
