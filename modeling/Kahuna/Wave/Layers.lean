import Kahuna.ItemTree.Insertion
import Kahuna.Wave.Displays

/-!
# Groups and what is in them

Only groups should have items below them. `insert_position` relies on it: behind an item that is no group
it takes the place right behind, at the level of the item, which is no place if the item behind is deeper.

- `Display.Layered`: levels are right, and only groups have items below them;
- `WaveData.Layered`: the same for the waveform data, with references that are in step;
- `layered_insertItem`, `layered_moveItemTimes`, `layered_groupNew`, ...: one lemma for each operation.
-/

namespace Wave

open ItemTree Decoders

/-- The reference of a group. -/
def IsGroupIn (items : FiniteMap DisplayedItemRef DisplayedItem) (k : DisplayedItemRef) : Prop :=
  (items.get k).any DisplayedItem.isGroup = true

instance (items : FiniteMap DisplayedItemRef DisplayedItem) : DecidablePred (IsGroupIn items) :=
  fun k => inferInstanceAs (Decidable ((items.get k).any DisplayedItem.isGroup = true))

/-- The levels are right, and only groups have items below them. -/
structure Display.Layered (d : Display) : Prop where
  wellFormed : d.tree.WellFormed
  parents : d.tree.ParentsAre (IsGroupIn d.items)

namespace WaveData

variable {w w' : WaveData} {item : DisplayedItem} {target : Option TargetPosition}
  {position : TargetPosition} {moveFocus : Bool} {itemRef : DisplayedItemRef}

/-- The references of the groups. -/
abbrev IsGroupRef (w : WaveData) : DisplayedItemRef → Prop := IsGroupIn w.displayedItems

/-- A layered display whose tree and items are in step. -/
structure Layered (w : WaveData) : Prop where
  display : w.display.Layered
  refs : w.contents.RefsSound

namespace Layered

theorem wellFormed (h : w.Layered) : w.itemsTree.WellFormed := h.display.wellFormed

theorem parents (h : w.Layered) : w.itemsTree.ParentsAre w.IsGroupRef := h.display.parents

/-- The item of a node. -/
theorem exists_item (h : w.Layered) {node : Node} {i : ℕ} (hnode : w.itemsTree.items[i]? = some node) :
    ∃ item, w.displayedItems.get node.itemRef = some item :=
  Option.isSome_iff_exists.1 ((h.refs.inStep.mem_iff _).1 (List.mem_map_of_mem (List.mem_of_getElem? hnode)))

/-- Folding, selecting and focusing change neither levels nor references. -/
theorem of_shape (h : w.Layered) (hlevels : w'.itemsTree.items.map Node.level = w.itemsTree.items.map Node.level)
    (hrefs : w'.itemsTree.refs = w.itemsTree.refs) (hitems : w'.displayedItems = w.displayedItems)
    (hcounter : w'.displayItemRefCounter = w.displayItemRefCounter) : w'.Layered where
  display := by
    refine ⟨wellFormed_of_levels h.wellFormed hlevels, ?_⟩
    show w'.itemsTree.ParentsAre (IsGroupIn w'.displayedItems)
    rw [hitems]
    exact parentsAre_of_shape h.parents hlevels hrefs
  refs := h.refs.congr hrefs hitems hcounter

/-- Moving changes neither the items nor, up to their order, the references. -/
theorem of_moved (h : w.Layered) {tree : DisplayedItemTree} (hwf : tree.WellFormed)
    (hparents : tree.ParentsAre w.IsGroupRef) (hperm : tree.refs.Perm w.itemsTree.refs)
    (focusedItem : Option ℕ) : Layered { w with itemsTree := tree, focusedItem } :=
  ⟨⟨hwf, hparents⟩, h.refs.inStep.perm hperm, h.refs.le_counter⟩

end Layered

/-! ## Inserting -/

/-- The places that `insert_position` returns have a group before them, or are not below what is before
them. -/
theorem hosts_insertPosition {vidx : Option ℕ} (hposition : w.insertPosition vidx = some position) :
    w.itemsTree.Hosts w.IsGroupRef position := by
  simp only [insertPosition, Option.bind_eq_bind, Option.bind_eq_some_iff] at hposition
  obtain ⟨v, rfl, idx, hidx, node, hnode, item, hitem, hposition⟩ := hposition
  split at hposition
  next hgroup =>
    have hkind : w.IsGroupRef node.itemRef := by rw [IsGroupRef, IsGroupIn, hitem]; exact hgroup
    split at hposition
    next hunfolded =>
      obtain rfl := Option.some.inj hposition
      intro z hz _
      rw [lastBefore_succ hnode] at hz
      obtain rfl := Option.some.inj hz
      exact hkind
    next hfolded =>
      -- behind what is folded away
      have hplace := getD_toDisplayed_succ hidx
      have hnext := @hosts_nextVisibleItem w.itemsTree w.IsGroupRef idx node.level node hnode (.inl le_rfl)
      rw [← hplace] at hnext
      split at hposition
      next next hnextIdx =>
        obtain rfl := Option.some.inj hposition
        rwa [hnextIdx] at hnext
      next hnextIdx =>
        obtain rfl := Option.some.inj hposition
        rwa [hnextIdx] at hnext
  next =>
    obtain rfl := Option.some.inj hposition
    intro z hz hlt
    rw [lastBefore_succ hnode] at hz
    obtain rfl := Option.some.inj hz
    exact absurd hlt (lt_irrefl _)

/-- So have the places items are inserted at, when none is passed. -/
theorem hosts_targetOrFocus (hhosts : ∀ p, target = some p → w.itemsTree.Hosts w.IsGroupRef p) :
    w.itemsTree.Hosts w.IsGroupRef (w.targetOrFocus target) := by
  cases target with
  | some p => exact hhosts p rfl
  | none =>
    rw [targetOrFocus, Option.none_or]
    cases hfocus : w.insertPosition w.focusedItem with
    | some p => exact hosts_insertPosition hfocus
    | none => exact fun z _ hlt => absurd hlt (Nat.not_lt_zero _)

/-- A new item does not change what the others are. -/
theorem isGroupRef_insertItem (h : w.Layered) (hrun : w.insertItem item target moveFocus = .ok (itemRef, w'))
    {k : DisplayedItemRef} (hk : w.IsGroupRef k) : w'.IsGroupRef k := by
  obtain ⟨index, tree, -, -, rfl⟩ := insertItem_eq_ok hrun
  have hold : k ≠ w.displayItemRefCounter + 1 := by
    rintro rfl
    have hsome : (w.displayedItems.get (w.displayItemRefCounter + 1)).isSome :=
      Option.isSome_of_any hk
    exact absurd (h.refs.le_counter _ hsome) (Nat.not_succ_le_self _)
  show ((w.displayedItems.insert _ item).get k).any _ = true
  rwa [FiniteMap.get_insert, if_neg hold]

/-- Inserting at a place below a group, or not below what is before it, keeps the display layered. -/
theorem layered_insertItem (h : w.Layered) (hrun : w.insertItem item target moveFocus = .ok (itemRef, w'))
    (hhosts : w.itemsTree.Hosts w.IsGroupRef (w.targetOrFocus target)) : w'.Layered := by
  have hkeeps : ∀ {k}, w.IsGroupRef k → w'.IsGroupRef k := isGroupRef_insertItem h hrun
  have hrefs := insertItem_refs hrun
  obtain ⟨index, tree, hinsert, -, rfl⟩ := insertItem_eq_ok hrun
  have hparents := parentsAre_insertItem h.wellFormed h.parents hinsert hhosts
  refine ⟨⟨wellFormed_xselectAllVisible ?_ false, ?_⟩, h.refs.add item hrefs⟩
  · have hwf := wellFormed_insertItem h.wellFormed (w.displayItemRefCounter + 1) (w.targetOrFocus target)
    rwa [hinsert] at hwf
  · refine (parentsAre_of_shape (t := tree) (hparents.imp fun k _ hk => hkeeps hk) ?_ ?_)
    · exact DisplayedItemTree.map_xselectAllVisible (fun _ _ => rfl) tree false
    · exact DisplayedItemTree.refs_xselectAllVisible tree false

/-- A place up to the one that an item is inserted at stays what it was. -/
theorem hosts_insertItem (h : w.Layered) (hrun : w.insertItem item target moveFocus = .ok (itemRef, w'))
    (hle : position.before ≤ (w.targetOrFocus target).before)
    (hhosts : w.itemsTree.Hosts w.IsGroupRef position) : w'.itemsTree.Hosts w'.IsGroupRef position := by
  have hkeeps : ∀ {k}, w.IsGroupRef k → w'.IsGroupRef k := isGroupRef_insertItem h hrun
  obtain ⟨index, tree, hinsert, -, rfl⟩ := insertItem_eq_ok hrun
  intro z hz hlt
  have hz' : z ∈ w.itemsTree.lastBefore position.before := by
    rw [← (lastBefore_insertItem hinsert).1 _ hle, ← lastBefore_xselectAllVisible tree false]
    exact hz
  exact hkeeps (hhosts z hz' hlt)

/-- The new item stands right before the next place. -/
theorem lastBefore_succ_insertItem (hrun : w.insertItem item (some position) moveFocus = .ok (itemRef, w')) :
    w'.itemsTree.lastBefore (position.before + 1) = some (position.level, itemRef) ∧
      (w'.IsGroupRef itemRef ↔ item.isGroup = true) := by
  obtain ⟨index, tree, hinsert, rfl, rfl⟩ := insertItem_eq_ok hrun
  refine ⟨?_, ?_⟩
  · show (tree.xselectAllVisible false).lastBefore _ = _
    rw [lastBefore_xselectAllVisible]
    exact (lastBefore_insertItem hinsert).2
  · show ((w.displayedItems.insert _ item).get _).any _ = true ↔ _
    rw [FiniteMap.get_insert, if_pos rfl, Option.any_some]

/-- Variables are added one behind the other. -/
theorem layered_addVariablesLoop {ignoreFailures : Bool} {refs : List VariableRef}
    {itemRefs : List DisplayedItemRef} (h : w.Layered) (hhosts : w.itemsTree.Hosts w.IsGroupRef position)
    (hrun : addVariablesLoop ignoreFailures refs position w = .ok (itemRefs, w')) :
    w'.Layered ∧
      w'.itemsTree.Hosts w'.IsGroupRef ⟨position.before + itemRefs.length, position.level⟩ ∧
      ∀ m, (∀ z ∈ w.itemsTree.lastBefore position.before, m ≤ z.1) → m ≤ position.level →
        ∀ z ∈ w'.itemsTree.lastBefore (position.before + itemRefs.length), m ≤ z.1 := by
  induction refs generalizing position w itemRefs with
  | nil =>
    cases hrun
    exact ⟨h, hhosts, fun m hm _ => hm⟩
  | cons r rest ih =>
    simp only [addVariablesLoop] at hrun
    split at hrun
    · cases hrun
    · split at hrun
      · exact ih h hhosts hrun
      · cases hrun
        exact ⟨h, hhosts, fun m hm _ => hm⟩
    · simp only [Except.bind_eq_ok] at hrun
      obtain ⟨⟨itemRef, w₁⟩, h₁, ⟨itemRefs₂, w₂⟩, h₂, hrun⟩ := hrun
      cases hrun
      obtain ⟨hlast, -⟩ := lastBefore_succ_insertItem h₁
      -- the next variable is not below the one that was just added
      have hnext : w₁.itemsTree.Hosts w₁.IsGroupRef ⟨position.before + 1, position.level⟩ := by
        intro z hz hlt
        rw [hlast] at hz
        obtain rfl := Option.some.inj hz
        exact absurd hlt (lt_irrefl _)
      obtain ⟨hlayered, hend, hdeep⟩ := ih (layered_insertItem h h₁ hhosts) hnext h₂
      have hlength : position.before + 1 + itemRefs₂.length
          = position.before + (itemRef :: itemRefs₂).length := by
        rw [List.length_cons]
        omega
      simp only [hlength] at hend hdeep
      refine ⟨hlayered, hend, fun m _ hm => hdeep m (fun z hz => ?_) hm⟩
      rw [hlast] at hz
      obtain rfl := Option.some.inj hz
      exact hm

theorem layered_addVariables {ignoreFailures : Bool} {refs : List VariableRef}
    {itemRefs : List DisplayedItemRef} (h : w.Layered)
    (hhosts : ∀ p, target = some p → w.itemsTree.Hosts w.IsGroupRef p)
    (hrun : w.addVariables refs target ignoreFailures = .ok (itemRefs, w')) : w'.Layered := by
  unfold addVariables at hrun
  split at hrun
  · cases hrun
  · exact (layered_addVariablesLoop h (hosts_targetOrFocus hhosts) hrun).1

/-! ### Scopes -/

/-- The scope and those inside it, as far down as the scopes are added, are nested so little that their
variables stand at levels that there are. -/
def ScopeFits (w : WaveData) : ℕ → ScopeRef → ℕ → Prop
  | 0, _, level => level < maxLevel
  | depth + 1, scope, level =>
    level < maxLevel ∧ ∀ child ∈ w.inner.childScopes scope, ScopeFits w depth child (level + 1)

theorem scopeFits_congr (hinner : w'.inner = w.inner) {depth : ℕ} {scope : ScopeRef} {level : ℕ} :
    w'.ScopeFits depth scope level ↔ w.ScopeFits depth scope level := by
  induction depth generalizing scope level with
  | zero => rfl
  | succ depth ih => simp only [ScopeFits, hinner, ih]

theorem ScopeFits.level_lt {depth : ℕ} {scope : ScopeRef} {level : ℕ} (h : w.ScopeFits depth scope level) :
    level < maxLevel := by
  cases depth with
  | zero => exact h
  | succ depth => exact h.1

/-- Edits of any kind. -/
def anyEffect : Effect where
  adds _ := True
  removes _ := True
  drops _ := True
  annotates := True

/-- What a part of `add_scope_as_group` does when it starts at a level: the nodes in front of the place it
returns are not shallower. -/
structure ScopeAdded (level : ℕ) (pos : TargetPosition) (w : WaveData) : Prop where
  layered : w.Layered
  hosts : w.itemsTree.Hosts w.IsGroupRef pos
  deep : ∀ z ∈ w.itemsTree.lastBefore pos.before, level ≤ z.1

theorem layered_addScopeVariables {env : Env} {scope : ScopeRef} {pos pos' : TargetPosition} (h : w.Layered)
    (hhosts : w.itemsTree.Hosts w.IsGroupRef pos) (hlevel : pos.level < maxLevel)
    (hrun : addScopeVariables env scope pos w = .ok (pos', w')) :
    ScopeAdded pos.level pos' w' ∧ pos'.level = pos.level + 1 := by
  simp only [addScopeVariables, Except.bind_eq_ok] at hrun
  obtain ⟨⟨groupRef, w₁⟩, h₁, ⟨itemRefs, w₂⟩, h₂, hrun⟩ := hrun
  cases hrun
  have hwrap : wrappingAdd pos.level 1 = pos.level + 1 := Nat.mod_eq_of_lt (Nat.succ_lt_succ hlevel)
  obtain ⟨hlast, hgroup⟩ := lastBefore_succ_insertItem h₁
  rw [hwrap] at h₂ ⊢
  unfold addVariables at h₂
  split at h₂
  · cases h₂
  -- the group is right before its first variable
  have hinto : w₁.itemsTree.Hosts w₁.IsGroupRef ⟨pos.before + 1, pos.level + 1⟩ := by
    intro z hz _
    rw [hlast] at hz
    obtain rfl := Option.some.inj hz
    exact hgroup.2 rfl
  obtain ⟨hlayered, hend, hdeep⟩ :=
    layered_addVariablesLoop (layered_insertItem h h₁ hhosts) hinto h₂
  refine ⟨⟨hlayered, hend, hdeep pos.level (fun z hz => ?_) (Nat.le_succ _)⟩, rfl⟩
  rw [hlast] at hz
  obtain rfl := Option.some.inj hz
  exact le_rfl

/-- Scopes are added one behind the other, each of them by itself. -/
theorem layered_addScopesAsGroups
    {add : ScopeRef → TargetPosition → WaveData → Run (TargetPosition × WaveData)} {level m : ℕ}
    {scopes : List ScopeRef} {pos pos' : TargetPosition} (hm : m ≤ level)
    (hadd : ∀ scope ∈ scopes, ∀ (w₁ w₂ : WaveData) (pos₁ pos₂ : TargetPosition), w₁.inner = w.inner →
      w₁.Layered → w₁.itemsTree.Hosts w₁.IsGroupRef pos₁ → pos₁.level = level →
      add scope pos₁ w₁ = .ok (pos₂, w₂) → w₂.inner = w₁.inner ∧ ScopeAdded level pos₂ w₂)
    (h : ScopeAdded m pos w) (hpos : pos.level = level)
    (hrun : addScopesAsGroups add level scopes pos w = .ok (pos', w')) : ScopeAdded m pos' w' := by
  induction scopes generalizing w pos with
  | nil =>
    cases hrun
    exact h
  | cons scope rest ih =>
    simp only [addScopesAsGroups, Except.bind_eq_ok] at hrun
    obtain ⟨⟨pos₁, w₁⟩, h₁, h₂⟩ := hrun
    obtain ⟨hinner, hadded⟩ := hadd scope List.mem_cons_self _ _ _ _ rfl h.layered h.hosts hpos h₁
    refine ih (fun s hs v₁ v₂ p₁ p₂ hv => ?_) ⟨hadded.layered, fun z hz hlt => ?_, fun z hz => ?_⟩ rfl h₂
    · exact hadd s (List.mem_cons_of_mem _ hs) v₁ v₂ p₁ p₂ (hv.trans hinner)
    · -- what is in the scope before is not shallower than the scope
      exact absurd hlt (not_lt.2 (hadded.deep z hz))
    · exact hm.trans (hadded.deep z hz)

theorem layered_addScopeAsGroup {env : Env} {depth : ℕ} {recursive : Bool} {scope : ScopeRef}
    {pos pos' : TargetPosition} (h : w.Layered) (hhosts : w.itemsTree.Hosts w.IsGroupRef pos)
    (hfits : w.ScopeFits (if recursive then depth else 0) scope pos.level)
    (hrun : addScopeAsGroup env depth recursive scope pos w = .ok (pos', w')) :
    ScopeAdded pos.level pos' w' := by
  induction depth generalizing recursive scope pos pos' w w' with
  | zero => exact (layered_addScopeVariables h hhosts hfits.level_lt hrun).1
  | succ depth ih =>
    simp only [addScopeAsGroup, Except.bind_eq_ok] at hrun
    obtain ⟨⟨intoGroup, w₁⟩, h₁, h₂⟩ := hrun
    obtain ⟨hadded, hinto⟩ := layered_addScopeVariables h hhosts hfits.level_lt h₁
    have hinner : w₁.inner = w.inner :=
      (edited_addScopeVariables (e := anyEffect) h₁ (fun _ => trivial) fun _ _ => trivial).inner
    split at h₂
    next hrecursive =>
      rw [if_pos hrecursive] at hfits
      rw [show intoGroup.level = pos.level + 1 from hinto] at h₂
      refine layered_addScopesAsGroups (show pos.level ≤ pos.level + 1 from Nat.le_succ _)
        (fun child hchild v₁ v₂ p₁ p₂ hv hlayered hplace hp hrun' => ?_) hadded hinto h₂
      have hchildFits : v₁.ScopeFits (if true then depth else 0) child (pos.level + 1) :=
        (scopeFits_congr (hv.trans hinner)).2 (hfits.2 child hchild)
      have hedited : Edited anyEffect v₁ v₂ :=
        edited_addScopeAsGroup hrun' (fun _ => trivial) fun _ _ _ _ => trivial
      rw [← hp] at hchildFits ⊢
      exact ⟨hedited.inner, ih hlayered hplace hchildFits hrun'⟩
    next =>
      cases h₂
      exact hadded

/-! ### Rows and markers -/

/-- The rows of a decoder are all inserted at the same place. -/
theorem layered_addLanes {decoder : ℕ → DisplayedDecoder} {lanes : List ℕ} (h : w.Layered)
    (hhosts : ∀ p, target = some p → w.itemsTree.Hosts w.IsGroupRef p)
    (hrun : addLanes decoder target lanes w = .ok w') : w'.Layered := by
  induction lanes generalizing w with
  | nil =>
    cases hrun
    exact h
  | cons lane rest ih =>
    simp only [addLanes, Except.bind_eq_ok] at hrun
    obtain ⟨⟨_, w₁⟩, h₁, h₂⟩ := hrun
    refine ih (layered_insertItem h h₁ (hosts_targetOrFocus hhosts)) (fun p hp => ?_) h₂
    subst hp
    exact hosts_insertItem h h₁ le_rfl (hhosts p rfl)

theorem layered_addMarker {location : ℤ} {name : Option String} (h : w.Layered)
    (hrun : w.addMarker location name moveFocus = .ok w') : w'.Layered := by
  unfold addMarker at hrun
  split at hrun
  · cases hrun
    exact h
  · split at hrun
    · cases hrun
      exact h
    · simp only [Except.bind_eq_ok] at hrun
      obtain ⟨⟨_, w₁⟩, h₁, hrun⟩ := hrun
      cases hrun
      have hlayered := layered_insertItem h h₁ (hosts_targetOrFocus (by simp))
      exact ⟨hlayered.display, hlayered.refs.congr rfl rfl rfl⟩

theorem layered_setMarkerPosition {idx : ℕ} {location : ℤ} (h : w.Layered)
    (hrun : w.setMarkerPosition idx location = .ok w') : w'.Layered := by
  simp only [setMarkerPosition, Except.bind_eq_ok, ensureMarker] at hrun
  obtain ⟨w₁, h₁, hrun⟩ := hrun
  cases hrun
  suffices hlayered : w₁.Layered from ⟨hlayered.display, hlayered.refs.congr rfl rfl rfl⟩
  split at h₁
  · cases h₁
    exact h
  · rw [Except.map_eq_ok] at h₁
    obtain ⟨⟨_, w₂⟩, h₂, rfl⟩ := h₁
    exact layered_insertItem h h₂ (hosts_targetOrFocus (by simp))

/-! ## Removing -/

/-- Items that are taken out do not change what the others are. -/
theorem isGroupRef_of_kept (hrefs : w'.contents.RefsSound)
    (hkept : ∀ k item, w'.displayedItems.get k = some item → w.displayedItems.get k = some item)
    {k : DisplayedItemRef} (hmem : k ∈ w'.itemsTree.refs) (hk : w.IsGroupRef k) : w'.IsGroupRef k := by
  obtain ⟨item, hitem⟩ := Option.isSome_iff_exists.1 ((hrefs.inStep.mem_iff k).1 hmem)
  have hitem' : w'.displayedItems.get k = some item := hitem
  rw [IsGroupRef, IsGroupIn, hitem']
  rwa [IsGroupRef, IsGroupIn, hkept k item hitem'] at hk

/-- Taking subtrees out of the tree, and their items out of the map, keeps the display layered. -/
theorem Layered.of_kept (hrefs : w'.contents.RefsSound) (hwf : w'.itemsTree.WellFormed)
    (hparents : w'.itemsTree.ParentsAre w.IsGroupRef)
    (hkept : ∀ k item, w'.displayedItems.get k = some item → w.displayedItems.get k = some item) :
    w'.Layered :=
  ⟨⟨hwf, hparents.imp fun _ hmem hk => isGroupRef_of_kept hrefs hkept hmem hk⟩, hrefs⟩

/-- Removing items adds none. -/
theorem kept_of_edited {e : Effect} (hedited : Edited e w w') (hadds : ∀ item, ¬ e.adds item) :
    ∀ k item, w'.displayedItems.get k = some item → w.displayedItems.get k = some item :=
  fun _ item hitem => (hedited.grows.get hitem).resolve_right (hadds item)

/-- Edits that only take items out. -/
def takesOut : Effect where
  adds _ := False
  removes _ := True
  drops _ := True
  annotates := False

theorem layered_removeDisplayedItem {id : DisplayedItemRef} (h : w.Layered)
    (hrun : w.removeDisplayedItem id = .ok w') : w'.Layered := by
  have hedited : Edited takesOut w w' := (edited_removeDisplayedItem hrun fun _ _ => trivial).1
  have hrefs := h.refs.edits hedited.edits
  have hkept := kept_of_edited hedited fun _ hadds => hadds
  unfold removeDisplayedItem at hrun
  split at hrun
  · cases hrun
    exact h
  next idx hidx =>
    simp only at hrun
    split at hrun
    · cases hrun
    next removed tree hremove =>
      cases hrun
      refine .of_kept hrefs ?_ (parentsAre_removeRecursive h.parents hremove) hkept
      refine (preserves_removeRecursive h.wellFormed idx tree ?_).1
      rw [Operation.apply, hremove]
      rfl

theorem layered_removeDisplayedItems {ids : List DisplayedItemRef} (h : w.Layered)
    (hrun : w.removeDisplayedItems ids = .ok w') : w'.Layered := by
  induction ids generalizing w with
  | nil =>
    cases hrun
    exact h
  | cons id rest ih =>
    simp only [removeDisplayedItems, Except.bind_eq_ok] at hrun
    obtain ⟨w₁, h₁, h₂⟩ := hrun
    exact ih (layered_removeDisplayedItem h h₁) h₂

theorem layered_removeMarker {idx : ℕ} (h : w.Layered) (hrun : w.removeMarker idx = .ok w') :
    w'.Layered := by
  simp only [removeMarker] at hrun
  split at hrun
  · exact layered_removeDisplayedItem h hrun
  · cases hrun
    exact h

theorem layered_removePlaceholders (h : w.Layered) : w.removePlaceholders.Layered := by
  have hedited : Edited takesOut w w.removePlaceholders :=
    edited_removePlaceholders w fun _ _ _ _ _ => trivial
  refine .of_kept (h.refs.edits hedited.edits) ?_ (parentsAre_drainRecursiveIf h.parents _)
    (kept_of_edited hedited fun _ hadds => hadds)
  exact (preserves_drainRecursiveIf h.wellFormed _ _ rfl).1

theorem layered_groupDissolve {itemRef : Option DisplayedItemRef} (h : w.Layered)
    (hrun : w.groupDissolve itemRef = .ok w') : w'.Layered := by
  have hedited : Edited takesOut w w' := edited_groupDissolve hrun fun _ _ _ _ => trivial
  have hrefs := h.refs.edits hedited.edits
  have hkept := kept_of_edited hedited fun _ hadds => hadds
  unfold groupDissolve at hrun
  split at hrun
  · cases hrun
    exact h
  next i hi =>
    simp only [Except.bind_eq_ok] at hrun
    obtain ⟨⟨removed, tree⟩, hdissolve, hrun⟩ := hrun
    cases hrun
    refine .of_kept hrefs ?_ (parentsAre_removeDissolve h.wellFormed h.parents hdissolve) hkept
    refine (preserves_removeDissolve h.wellFormed i tree ?_).1
    rw [Operation.apply, hdissolve]
    rfl

/-! ## Moving -/

/-- The keyboard indents around at none of some moves. -/
def NeverAround (f : Node → Bool) (direction : MoveDir) : ℕ → ℕ → DisplayedItemTree → Prop
  | 0, _, _ => True
  | count + 1, vidx, t =>
    ¬ IndentsAround t vidx direction f ∧
      ∀ vidx' t', t.moveItem vidx direction f = .ok (.ok vidx', t') →
        NeverAround f direction count vidx' t'

theorem layered_moveItemTimes {direction : MoveDir} {count vidx vidx' : ℕ} (h : w.Layered)
    (hnever : NeverAround w.isGroup direction count vidx w.itemsTree)
    (hrun : moveItemTimes direction count vidx w = .ok (vidx', w')) : w'.Layered := by
  induction count generalizing vidx w with
  | zero =>
    cases hrun
    exact h
  | succ count ih =>
    simp only [moveItemTimes, Except.bind_eq_ok] at hrun
    obtain ⟨⟨result, tree⟩, hmove, hrun⟩ := hrun
    cases result with
    | error e => cases hrun
    | ok vidx₁ =>
      obtain ⟨hround, hnext⟩ := hnever
      obtain ⟨idx, hidx, hmoves⟩ := movesItem_of_ok hmove
      have hpast : direction = .up → ¬ IndentsPastMax w.itemsTree vidx w.isGroup := by
        rintro rfl ⟨i, nodeIdx, node, hi, hmax, hpred, hnode, hlevel, hgroup, hunfolded, hbehind⟩
        exact hround ⟨i, nodeIdx, node, rfl, hi, hmax, hpred, hnode, hlevel, hgroup, hunfolded,
          Nat.zero_lt_of_lt hbehind⟩
      refine ih (h.of_moved (wellFormed_moveItem h.wellFormed hpast hmove)
        (parentsAre_movesItem h.wellFormed h.parents (fun _ _ hgroup => hgroup) hidx hround hmoves)
        (DisplayedItemTree.refs_moveItem hmove) w.focusedItem) (hnext _ _ hmove) hrun

theorem layered_moveFocusedItem {direction : MoveDir} {count : ℕ} (h : w.Layered)
    (hnever : ∀ vidx, w.focusedItem = some vidx →
      NeverAround w.isGroup direction count vidx w.itemsTree)
    (hrun : w.moveFocusedItem direction count = .ok w') : w'.Layered := by
  unfold moveFocusedItem at hrun
  split at hrun
  · cases hrun
    exact h
  next vidx hvidx =>
    simp only [Except.bind_eq_ok] at hrun
    obtain ⟨⟨vidx', w₁⟩, h₁, hrun⟩ := hrun
    cases hrun
    have hlayered := layered_moveItemTimes h (hnever vidx hvidx) h₁
    exact hlayered.of_shape rfl rfl rfl rfl

/-- Where some items are taken out and put back: none of them is inside another one, and the last item that
stays before the place is a group, or is not one level above the place. -/
def LandsWell (w : WaveData) (indices : List ℕ) (target : TargetPosition) : Prop :=
  Unnested w.itemsTree indices ∧
    (Refused w.itemsTree indices target ∨
      ∀ z ∈ lastStaying w.itemsTree.items indices target.before, z.level + 1 = target.level →
        w.IsGroupRef z.itemRef)

theorem layered_moveItems {indices : List ℕ} {target : TargetPosition} {result : Except MoveError Unit}
    {tree : DisplayedItemTree} (h : w.Layered) (hlands : w.LandsWell indices target)
    (hrun : w.itemsTree.moveItems indices target = .ok (result, tree)) (focusedItem : Option ℕ) :
    Layered { w with itemsTree := tree, focusedItem } :=
  h.of_moved (wellFormed_moveItems h.wellFormed hlands.1 hrun)
    (parentsAre_moveItems h.wellFormed h.parents hlands.1 hlands.2 hrun)
    (DisplayedItemTree.refs_moveItems hrun) focusedItem

theorem layered_dragFinished {source : ℕ} {target : TargetPosition} (h : w.Layered)
    (hlands : w.LandsWell (w.draggedItems source) target)
    (hrun : w.dragFinished source target = .ok w') : w'.Layered := by
  simp only [dragFinished, Except.bind_eq_ok] at hrun
  obtain ⟨⟨_, tree⟩, hmove, hrun⟩ := hrun
  cases hrun
  exact layered_moveItems h hlands hmove _

/-! ## Groups -/

/-- The place of a new group. -/
def groupPlace (w : WaveData) (before : Option ℕ) : TargetPosition :=
  (w.passedOrFocused before).getD w.endInsertPosition

/-- Some items are moved into a new group: none of them is inside another one, the new group is not named,
and if it would become part of an item it is to contain, then the last item that stays before it is a group,
or is not at its level. -/
def GroupsWell (w : WaveData) (before : Option ℕ) (itemRefs : List DisplayedItemRef) : Prop :=
  Unnested w.itemsTree (indicesOf w.itemsTree itemRefs) ∧ w.displayItemRefCounter + 1 ∉ itemRefs ∧
    ((∃ root ∈ indicesOf w.itemsTree itemRefs,
        subtreeEnd w.itemsTree.items root = (w.groupPlace before).before ∧
          levelAt w.itemsTree.items root < (w.groupPlace before).level) →
      ∀ z ∈ lastStaying w.itemsTree.items (indicesOf w.itemsTree itemRefs) (w.groupPlace before).before,
        z.level = (w.groupPlace before).level → w.IsGroupRef z.itemRef)

theorem mem_indicesOf {tree : DisplayedItemTree} {itemRefs : List DisplayedItemRef} {i : ℕ} :
    i ∈ indicesOf tree itemRefs ↔ ∃ y, tree.shape[i]? = some y ∧ y.2 ∈ itemRefs := by
  rw [indicesOf, List.mem_filter, List.mem_range, DisplayedItemTree.shape, List.getElem?_map]
  constructor
  · rintro ⟨hi, hany⟩
    rw [List.getElem?_eq_getElem hi, Option.any_some, List.contains_iff_mem] at hany
    exact ⟨_, by rw [List.getElem?_eq_getElem hi]; rfl, hany⟩
  · rintro ⟨y, hy, hmem⟩
    obtain ⟨node, hnode, rfl⟩ := Option.map_eq_some_iff.1 hy
    rw [hnode, Option.any_some, List.contains_iff_mem]
    exact ⟨(List.getElem?_eq_some_iff.1 hnode).1, hmem⟩

/-- The new group is not among the items that are moved; the others are where they were, or one behind. -/
theorem mem_indicesOf_inserted {tree tree' : DisplayedItemTree} {n : ℕ} {x : ℕ × DisplayedItemRef}
    {itemRefs : List DisplayedItemRef} (h : Inserted tree n x tree') (hx : x.2 ∉ itemRefs) {j : ℕ} :
    j ∈ indicesOf tree' itemRefs ↔
      ∃ i ∈ indicesOf tree itemRefs, i < tree.items.length ∧ j = behind n i := by
  rw [mem_indicesOf]
  constructor
  · rintro ⟨y, hy, hmem⟩
    have hj : j ≠ n := by
      rintro rfl
      rw [h.getElem?_new] at hy
      obtain rfl := Option.some.inj hy
      exact hx hmem
    obtain ⟨i, rfl⟩ := exists_behind hj
    rw [h.getElem?_behind] at hy
    refine ⟨i, mem_indicesOf.2 ⟨y, hy, hmem⟩, ?_, rfl⟩
    have hi := (List.getElem?_eq_some_iff.1 hy).1
    rwa [DisplayedItemTree.shape, List.length_map] at hi
  · rintro ⟨i, hi, -, rfl⟩
    obtain ⟨y, hy, hmem⟩ := mem_indicesOf.1 hi
    exact ⟨y, by rwa [h.getElem?_behind], hmem⟩

/-- The place of a new group is below a group, or not below what is before it. -/
theorem hosts_groupPlace (h : w.Layered) (before : Option ℕ) :
    w.itemsTree.Hosts w.IsGroupRef (w.groupPlace before) := by
  rw [groupPlace]
  cases hplace : w.passedOrFocused before with
  | none => exact fun z _ hlt => absurd hlt (Nat.not_lt_zero _)
  | some place =>
    rw [passedOrFocused, Option.or_eq_some_iff] at hplace
    rcases hplace with hpassed | ⟨-, hfocused⟩
    · rw [Option.bind_eq_some_iff] at hpassed
      obtain ⟨n, rfl, hn⟩ := hpassed
      obtain ⟨node, hnode, rfl⟩ := Option.map_eq_some_iff.1 hn
      exact hosts_front h.parents hnode
    · exact hosts_insertPosition hfocused

/-- The items that are moved into a new group land well. -/
theorem landsWell_inserted {before : Option ℕ} {itemRefs : List DisplayedItemRef} {groupRef : DisplayedItemRef}
    (hgroups : w.GroupsWell before itemRefs) (hw' : w'.Layered)
    (hkeeps : ∀ {k}, w.IsGroupRef k → w'.IsGroupRef k) (hgroupRef : groupRef = w.displayItemRefCounter + 1)
    (hgroup : w'.IsGroupRef groupRef)
    (hinserted : Inserted w.itemsTree (w.groupPlace before).before ((w.groupPlace before).level, groupRef)
      w'.itemsTree) :
    w'.LandsWell (indicesOf w'.itemsTree itemRefs)
      ⟨(w.groupPlace before).before + 1, saturatingAdd (w.groupPlace before).level 1⟩ := by
  obtain ⟨hunnested, hnew, hstays⟩ := hgroups
  have hindices := fun j => mem_indicesOf_inserted hinserted (j := j)
    (show groupRef ∉ itemRefs by rwa [hgroupRef])
  refine ⟨hunnested.inserted hinserted (fun i hi => List.mem_range.1 (List.mem_filter.1 hi).1)
    fun j hj => ?_, ?_⟩
  · obtain ⟨i, hi, -, rfl⟩ := (hindices j).1 hj
    exact ⟨i, hi, rfl⟩
  rcases lastStaying_inserted hinserted hindices with hself | ⟨root, hroot, hlt, hend⟩ |
    ⟨hold, root, hroot', hlt, hin, hroot, hend, hlevel⟩
  · -- the new group stays in front of its items
    refine .inr fun z hz _ => ?_
    rw [(Prod.mk.inj (hself z hz)).2]
    exact hgroup
  · exact .inl (.inr ⟨root, hroot, .inl ⟨hlt, hend⟩⟩)
  · by_cases hmax : (w.groupPlace before).level = maxLevel
    · -- the new group would be moved past the largest level
      refine .inl (.inr ⟨root, hroot', .inr ⟨_, hlt.le, hin, ?_⟩⟩)
      have hroot₀ := hinserted.levelAt_behind root
      rw [behind, if_pos hlt] at hroot₀
      rw [hroot₀, hinserted.levelAt_new, hmax, saturatingAdd]
      rw [hmax] at hlevel
      show maxLevel + _ < min (maxLevel + 1) maxLevel + maxLevel
      omega
    · refine .inr fun z hz hone => ?_
      obtain ⟨y, hy, hyLevel, hyRef⟩ := hold z hz
      rw [← hyRef]
      refine hkeeps (hstays ⟨root, hroot, hend, hlevel⟩ y hy ?_)
      have hone' : z.level + 1 = min ((w.groupPlace before).level + 1) maxLevel := hone
      have hn : (w.groupPlace before).before < w'.itemsTree.items.length := by
        rw [hinserted.length_items]
        exact Nat.lt_succ_of_le hinserted.le
      have hfits := hw'.wellFormed.fits _ (List.getElem_mem hn)
      rw [← levelAt_of_lt hn, hinserted.levelAt_new] at hfits
      omega

theorem layered_groupNew {name : Option String} {before : Option ℕ}
    {items : Option (List DisplayedItemRef)} (h : w.Layered)
    (hgroups : ∀ itemRefs, w.groupedItems before items = .ok itemRefs → w.GroupsWell before itemRefs)
    (hrun : w.groupNew name before items = .ok w') : w'.Layered := by
  simp only [groupNew, Except.bind_eq_ok] at hrun
  obtain ⟨itemRefs, hitemRefs, hrun⟩ := hrun
  split at hrun
  · cases hrun
    exact h
  simp only [Except.bind_eq_ok] at hrun
  obtain ⟨⟨groupRef, w₁⟩, h₁, ⟨result, tree⟩, hmove, hrun⟩ := hrun
  cases hrun
  have hw₁ := layered_insertItem h h₁ (hosts_groupPlace h before)
  have hgroup := (lastBefore_succ_insertItem h₁).2.2 rfl
  have hkeeps : ∀ {k}, w.IsGroupRef k → w₁.IsGroupRef k := isGroupRef_insertItem h h₁
  have hlands : w₁.LandsWell (indicesOf w₁.itemsTree itemRefs)
      ⟨(w.groupPlace before).before + 1, saturatingAdd (w.groupPlace before).level 1⟩ := by
    obtain ⟨index, tree₁, hinsert, hgroupRef, htree₁⟩ := insertItem_eq_ok h₁
    refine landsWell_inserted (hgroups itemRefs hitemRefs) hw₁ hkeeps hgroupRef hgroup ?_
    have htree := inserted_of_ok hinsert
    refine ⟨htree.le, ?_⟩
    rw [htree₁, hgroupRef]
    exact (shape_xselectAllVisible tree₁ false).trans htree.shape
  have hmoved := layered_moveItems hw₁ hlands hmove w₁.focusedItem
  exact hmoved.of_shape (DisplayedItemTree.map_xselectAllVisible (fun _ _ => rfl) tree false)
    (DisplayedItemTree.refs_xselectAllVisible tree false) rfl rfl

/-! ## Folding and selecting -/

theorem layered_groupFold {itemRef : Option DisplayedItemRef} {unfold recursive : Bool} (h : w.Layered)
    (hrun : w.groupFold itemRef unfold recursive = .ok w') : w'.Layered := by
  unfold groupFold at hrun
  split at hrun
  · cases hrun
    exact h
  next item hitem =>
    simp only [Except.bind_eq_ok] at hrun
    obtain ⟨focusedItem, -, tree, hfold, hrun⟩ := hrun
    cases hrun
    unfold foldNode at hfold
    split at hfold
    · exact h.of_shape (DisplayedItemTree.map_xfoldRecursive (fun _ _ _ => rfl) hfold)
        (DisplayedItemTree.refs_xfoldRecursive hfold) rfl rfl
    · exact h.of_shape (DisplayedItemTree.map_xfold (fun _ _ _ => rfl) hfold)
        (DisplayedItemTree.refs_xfold hfold) rfl rfl

theorem layered_groupFoldAll {unfold : Bool} (h : w.Layered) (hrun : w.groupFoldAll unfold = .ok w') :
    w'.Layered := by
  simp only [groupFoldAll, Except.bind_eq_ok] at hrun
  obtain ⟨focusedItem, -, hrun⟩ := hrun
  cases hrun
  exact h.of_shape (DisplayedItemTree.map_xfoldAll (fun _ _ _ => rfl) _ _)
    (DisplayedItemTree.refs_xfoldAll _ _) rfl rfl

/-- Moving the focus only selects. -/
theorem map_moveFocus {α : Type} {g : Node → α} (hg : ∀ node selected, g { node with selected } = g node)
    (w : WaveData) (direction : MoveDir) (count : ℕ) (select : Bool) :
    (w.moveFocus direction count select).itemsTree.items.map g = w.itemsTree.items.map g := by
  simp only [moveFocus]
  split
  · rfl
  · dsimp only
    split
    · rw [DisplayedItemTree.map_xselect hg]
      split
      · rw [DisplayedItemTree.map_xselect hg]
      · rfl
    · rfl

theorem layered_moveFocus (h : w.Layered) (direction : MoveDir) (count : ℕ) (select : Bool) :
    (w.moveFocus direction count select).Layered := by
  have hrest : (w.moveFocus direction count select).displayedItems = w.displayedItems ∧
      (w.moveFocus direction count select).displayItemRefCounter = w.displayItemRefCounter := by
    simp only [moveFocus]
    split <;> exact ⟨rfl, rfl⟩
  exact h.of_shape (map_moveFocus (fun _ _ => rfl) w direction count select)
    (map_moveFocus (fun _ _ => rfl) w direction count select) hrest.1 hrest.2

theorem layered_toggleItemSelected (h : w.Layered) (vidx : Option ℕ) :
    (w.toggleItemSelected vidx).Layered := by
  unfold toggleItemSelected
  split
  · exact h
  · exact h.of_shape (DisplayedItemTree.map_modifyWhere _ _ fun _ => rfl)
      (DisplayedItemTree.map_modifyWhere _ _ fun _ => rfl) rfl rfl

/-! ## Decoders and streams -/

/-- New settings of a decoder do not change what is a group. -/
theorem layered_configureDecoder (h : w.Layered) (instance_ : DecoderInstance) (settings : DecoderSettings)
    (bindings : RoleBindings) : (w.configureDecoder instance_ settings bindings).Layered := by
  have hrefs := h.refs.revalued (revalued_configureDecoder w instance_ settings bindings)
  refine ⟨⟨h.wellFormed, h.parents.imp fun k _ hk => ?_⟩, hrefs⟩
  rw [IsGroupRef, IsGroupIn, Option.any_eq_true] at hk
  obtain ⟨item, hitem, hgroup⟩ := hk
  show ((w.displayedItems.updateValues _).get k).any _ = true
  rw [FiniteMap.get_updateValues, hitem, Option.bind_some]
  cases item with
  | group name => rfl
  | _ => cases hgroup

theorem layered_insertsStreams (h : w.Layered) (hstreams : InsertsStreams w w') : w'.Layered := by
  induction hstreams with
  | refl => exact h
  | insert hinsert _ ih => exact ih (layered_insertItem h hinsert (hosts_targetOrFocus (by simp)))

end WaveData

end Wave
