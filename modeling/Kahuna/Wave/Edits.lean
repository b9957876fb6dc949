import Kahuna.FiniteMap.Keys
import Kahuna.ItemTree.References
import Kahuna.Transition.Basic
import Kahuna.Wave.Update
import Mathlib.Logic.Relation

/-!
# The edits that changes of a display are made of

The tree, the item map, the markers and the annotations are changed by many operations, but in few ways.
This file names these ways and says which of them each operation uses.

- `Contents`: what a display holds, without what only the view depends on.
- `Edit`: a single change of the contents.
- `Edited`: a change of the waveform data that consists of edits, with one lemma for each operation.
-/

namespace Wave

open ItemTree Decoders

/-- The number of a marker item. -/
def DisplayedItem.markerIdx (item : DisplayedItem) : Option ℕ :=
  match item with
  | .marker _ idx => some idx
  | _ => none

/-- What is on display, and the last item reference handed out. -/
structure Contents where
  /-- The references of the tree, in order. -/
  refs : List DisplayedItemRef
  items : FiniteMap DisplayedItemRef DisplayedItem
  counter : ℕ
  markers : FiniteMap ℕ ℤ
  annotations : List Annotation
  groups : List AnnotationGroup

/-- The contents without an item, its marker and the annotations that are attached to it. -/
def Contents.forget (c : Contents) (removed : DisplayedItemRef) : Contents :=
  { c with
    items := c.items.remove removed
    markers :=
      match c.items.get removed with
      | some (.marker _ idx) => c.markers.remove idx
      | _ => c.markers
    annotations := c.annotations.filter fun a => !a.attached.contains removed }

/-- What forgetting items leaves of the contents. -/
theorem Contents.foldl_forget (removed : List DisplayedItemRef) (c : Contents) :
    (removed.foldl forget c).refs = c.refs ∧
      (removed.foldl forget c).items = removed.foldl FiniteMap.remove c.items ∧
      (removed.foldl forget c).counter = c.counter ∧ (removed.foldl forget c).groups = c.groups := by
  induction removed generalizing c with
  | nil => exact ⟨rfl, rfl, rfl, rfl⟩
  | cons k rest ih => exact ih (c.forget k)

/-- The contents of the waveform data. -/
def WaveData.contents (w : WaveData) : Contents where
  refs := w.itemsTree.refs
  items := w.displayedItems
  counter := w.displayItemRefCounter
  markers := w.markers
  annotations := w.annotations
  groups := w.annotationGroups

/-- The contents of a snapshot, which does not hold the counter. -/
def CanvasState.contents (counter : ℕ) (c : CanvasState) : Contents where
  refs := c.itemsTree.refs
  items := c.displayedItems
  counter := counter
  markers := c.markers
  annotations := c.annotations
  groups := c.annotationGroup

/-- What a change may do to the contents. -/
structure Effect where
  /-- The items that may be added. -/
  adds : DisplayedItem → Prop
  /-- The items that may be removed with all that belongs to them. -/
  removes : DisplayedItemRef → Prop
  /-- The items that may be taken out of the tree and the item map only. -/
  drops : DisplayedItemRef → Prop
  /-- Whether annotations and their groups may change. -/
  annotates : Prop

/-- Only rows of one decoder are added. -/
def Effect.addsRows (decoder : ℕ → DisplayedDecoder) : Effect where
  adds item := ∃ lane, item = .decoder (decoder lane)
  removes _ := False
  drops _ := False
  annotates := False

/-- The ways to change the contents. -/
inductive Edit (e : Effect) : Contents → Contents → Prop
  | rearrange {c : Contents} {refs : List DisplayedItemRef} :
      refs.Perm c.refs → Edit e c { c with refs }
  | add {c : Contents} {refs : List DisplayedItemRef} {item : DisplayedItem} :
      e.adds item → item.markerIdx = none → refs.Perm ((c.counter + 1) :: c.refs) →
      Edit e c
        { c with refs, items := c.items.insert (c.counter + 1) item, counter := c.counter + 1 }
  | addMarker {c : Contents} {refs : List DisplayedItemRef} {name : Option String} {idx : ℕ}
      {location : ℤ} :
      e.adds (.marker name idx) → c.markers.get idx = none →
      refs.Perm ((c.counter + 1) :: c.refs) →
      Edit e c
        { c with
          refs
          items := c.items.insert (c.counter + 1) (.marker name idx)
          counter := c.counter + 1
          markers := c.markers.insert idx location }
  | moveMarker {c : Contents} {idx : ℕ} {location : ℤ} :
      (c.markers.get idx).isSome → Edit e c { c with markers := c.markers.insert idx location }
  | remove {c : Contents} {refs removed : List DisplayedItemRef} :
      c.refs.Perm (removed ++ refs) → (∀ k ∈ removed, e.removes k) →
      Edit e c (removed.foldl Contents.forget { c with refs })
  | drop {c : Contents} {refs dropped : List DisplayedItemRef} :
      c.refs.Perm (dropped ++ refs) → (∀ k ∈ dropped, e.drops k) →
      Edit e c { c with refs, items := dropped.foldl FiniteMap.remove c.items }
  | annotate {c : Contents} {annotations : List Annotation} {groups : List AnnotationGroup} :
      e.annotates → Edit e c { c with annotations, groups }

/-- References are handed out in order. -/
theorem Edit.counter_le {e : Effect} {c c' : Contents} (h : Edit e c c') : c.counter ≤ c'.counter := by
  cases h with
  | rearrange | moveMarker | drop | annotate => exact le_rfl
  | add | addMarker => exact Nat.le_succ _
  | remove => rw [(Contents.foldl_forget _ _).2.2.1]

namespace WaveData

variable {w w' w'' : WaveData} {e : Effect}

/-- `w'` comes from `w` by edits; the container and the counters that belong to it are the same. -/
structure Edited (e : Effect) (w w' : WaveData) : Prop where
  inner : w'.inner = w.inner
  nextDecoderInstance : w'.nextDecoderInstance = w.nextDecoderInstance
  cacheGeneration : w'.cacheGeneration = w.cacheGeneration
  edits : Relation.ReflTransGen (Edit e) w.contents w'.contents

namespace Edited

theorem refl : Edited e w w := ⟨rfl, rfl, rfl, .refl⟩

theorem trans (h : Edited e w w') (h' : Edited e w' w'') : Edited e w w'' where
  inner := h'.inner.trans h.inner
  nextDecoderInstance := h'.nextDecoderInstance.trans h.nextDecoderInstance
  cacheGeneration := h'.cacheGeneration.trans h.cacheGeneration
  edits := h.edits.trans h'.edits

theorem counter_le (h : Edited e w w') : w.displayItemRefCounter ≤ w'.displayItemRefCounter := by
  have hall : ∀ c, Relation.ReflTransGen (Edit e) w.contents c → w.contents.counter ≤ c.counter := by
    intro c hc
    induction hc with
    | refl => exact le_rfl
    | tail _ hedit ih => exact ih.trans hedit.counter_le
  exact hall _ h.edits

/-- Moving, folding, selecting and focusing do not change the contents, up to their order. -/
theorem of_perm (hinner : w'.inner = w.inner)
    (hnext : w'.nextDecoderInstance = w.nextDecoderInstance)
    (hgeneration : w'.cacheGeneration = w.cacheGeneration)
    (hcontents : w'.contents = { w.contents with refs := w'.itemsTree.refs })
    (hperm : w'.itemsTree.refs.Perm w.itemsTree.refs) : Edited e w w' := by
  refine ⟨hinner, hnext, hgeneration, .single ?_⟩
  rw [hcontents]
  exact .rearrange hperm

end Edited

/-! ## Inserting -/

/-- What inserting an item does when it succeeds. -/
theorem insertItem_eq_ok {item : DisplayedItem} {target : Option TargetPosition} {moveFocus : Bool}
    {itemRef : DisplayedItemRef} (h : w.insertItem item target moveFocus = .ok (itemRef, w')) :
    ∃ index tree,
      w.itemsTree.insertItem (w.displayItemRefCounter + 1) (w.targetOrFocus target)
        = (.ok index, tree) ∧
      itemRef = w.displayItemRefCounter + 1 ∧
      w' = { w with
        itemsTree := tree.xselectAllVisible false
        displayedItems := w.displayedItems.insert (w.displayItemRefCounter + 1) item
        displayItemRefCounter := w.displayItemRefCounter + 1
        focusedItem :=
          if moveFocus then w.focusedItem.bind fun _ => tree.visible.findIdx? (· == index)
          else w.focusedItem } := by
  simp only [insertItem] at h
  rcases hinsert : w.itemsTree.insertItem (w.displayItemRefCounter + 1) (w.targetOrFocus target)
    with ⟨_ | index, tree⟩
  · rw [hinsert] at h
    cases h
  · rw [hinsert] at h
    cases h
    exact ⟨index, tree, rfl, rfl, rfl⟩

/-- Inserting an item adds its reference. -/
theorem insertItem_refs {item : DisplayedItem} {target : Option TargetPosition} {moveFocus : Bool}
    {itemRef : DisplayedItemRef} (h : w.insertItem item target moveFocus = .ok (itemRef, w')) :
    w'.itemsTree.refs.Perm ((w.displayItemRefCounter + 1) :: w.itemsTree.refs) := by
  obtain ⟨index, tree, hinsert, -, rfl⟩ := insertItem_eq_ok h
  show (tree.xselectAllVisible false).refs.Perm _
  rw [DisplayedItemTree.refs_xselectAllVisible]
  exact DisplayedItemTree.refs_insertItem hinsert

theorem edited_insertItem {item : DisplayedItem} {target : Option TargetPosition} {moveFocus : Bool}
    {itemRef : DisplayedItemRef} (h : w.insertItem item target moveFocus = .ok (itemRef, w'))
    (hadds : e.adds item) (hmarker : item.markerIdx = none) : Edited e w w' := by
  have hrefs := insertItem_refs h
  obtain ⟨index, tree, -, -, rfl⟩ := insertItem_eq_ok h
  exact ⟨rfl, rfl, rfl, .single (.add hadds hmarker hrefs)⟩

/-- An item for a variable. -/
def variableItem (r : VariableRef) : DisplayedItem :=
  .variable_ { variableRef := r, manualName := none, format := none }

theorem edited_addVariablesLoop {refs : List VariableRef} {target : TargetPosition}
    {ignoreFailures : Bool} {itemRefs : List DisplayedItemRef}
    (h : addVariablesLoop ignoreFailures refs target w = .ok (itemRefs, w'))
    (hadds : ∀ r ∈ refs, e.adds (variableItem r)) : Edited e w w' := by
  induction refs generalizing target w itemRefs with
  | nil =>
    cases h
    exact .refl
  | cons r rest ih =>
    rw [List.forall_mem_cons] at hadds
    simp only [addVariablesLoop] at h
    split at h
    · cases h
    · split at h
      · exact ih h hadds.2
      · cases h
        exact .refl
    · simp only [Except.bind_eq_ok] at h
      obtain ⟨⟨itemRef, w₁⟩, h₁, ⟨itemRefs₂, w₂⟩, h₂, h⟩ := h
      cases h
      exact (edited_insertItem h₁ hadds.1 rfl).trans (ih h₂ hadds.2)

theorem edited_addVariables {refs : List VariableRef} {target : Option TargetPosition}
    {ignoreFailures : Bool} {itemRefs : List DisplayedItemRef}
    (h : w.addVariables refs target ignoreFailures = .ok (itemRefs, w'))
    (hadds : ∀ r ∈ refs, e.adds (variableItem r)) : Edited e w w' := by
  unfold addVariables at h
  split at h
  · cases h
  · exact edited_addVariablesLoop h hadds

/-- The scopes inside a scope, at any depth, the scope itself included. -/
def ScopeBelow (w : WaveData) : ScopeRef → ScopeRef → Prop :=
  Relation.ReflTransGen fun scope child => child ∈ w.inner.childScopes scope

theorem edited_addScopeVariables {env : Env} {scope : ScopeRef} {pos pos' : TargetPosition}
    (h : addScopeVariables env scope pos w = .ok (pos', w')) (hgroup : ∀ name, e.adds (.group name))
    (hadds : ∀ r ∈ w.sortedVariables env scope, e.adds (variableItem r)) : Edited e w w' := by
  simp only [addScopeVariables, Except.bind_eq_ok] at h
  obtain ⟨⟨_, w₁⟩, h₁, ⟨_, w₂⟩, h₂, h⟩ := h
  cases h
  exact (edited_insertItem h₁ (hgroup _) rfl).trans (edited_addVariables h₂ hadds)

/-- The variables of a scope depend on the container only. -/
theorem sortedVariables_congr (env : Env) (h : w'.inner = w.inner) (scope : ScopeRef) :
    w'.sortedVariables env scope = w.sortedVariables env scope := by
  simp [sortedVariables, h]

theorem edited_addScopesAsGroups
    {add : ScopeRef → TargetPosition → WaveData → Run (TargetPosition × WaveData)} {level : ℕ}
    {scopes : List ScopeRef} {pos pos' : TargetPosition}
    (hadd : ∀ scope ∈ scopes, ∀ (w₁ w₂ : WaveData) (pos₁ pos₂ : TargetPosition),
      w₁.inner = w.inner → add scope pos₁ w₁ = .ok (pos₂, w₂) → Edited e w₁ w₂)
    (h : addScopesAsGroups add level scopes pos w = .ok (pos', w')) : Edited e w w' := by
  induction scopes generalizing w pos with
  | nil =>
    cases h
    exact .refl
  | cons scope rest ih =>
    simp only [addScopesAsGroups, Except.bind_eq_ok] at h
    obtain ⟨⟨pos₁, w₁⟩, h₁, h₂⟩ := h
    have hfirst := hadd scope List.mem_cons_self _ _ _ _ rfl h₁
    refine hfirst.trans (ih (fun s hs v₁ v₂ p₁ p₂ hv h => ?_) h₂)
    exact hadd s (List.mem_cons_of_mem _ hs) v₁ v₂ p₁ p₂ (hv.trans hfirst.inner) h

theorem edited_addScopeAsGroup {env : Env} {depth : ℕ} {recursive : Bool} {scope : ScopeRef}
    {pos pos' : TargetPosition}
    (h : addScopeAsGroup env depth recursive scope pos w = .ok (pos', w'))
    (hgroup : ∀ name, e.adds (.group name))
    (hadds : ∀ s, w.ScopeBelow scope s → ∀ r ∈ w.sortedVariables env s, e.adds (variableItem r)) :
    Edited e w w' := by
  induction depth generalizing recursive scope pos pos' w w' with
  | zero => exact edited_addScopeVariables h hgroup (hadds scope .refl)
  | succ depth ih =>
    simp only [addScopeAsGroup, Except.bind_eq_ok] at h
    obtain ⟨⟨intoGroup, w₁⟩, h₁, h₂⟩ := h
    have hown := edited_addScopeVariables h₁ hgroup (hadds scope .refl)
    split at h₂
    · refine hown.trans (edited_addScopesAsGroups (fun child hchild v₁ v₂ p₁ p₂ hv h => ?_) h₂)
      have hinner : v₁.inner = w.inner := hv.trans hown.inner
      refine ih h fun s hs r hr => ?_
      rw [sortedVariables_congr env hinner] at hr
      have hbelow : w.ScopeBelow child s := by
        simpa only [ScopeBelow, hinner] using hs
      exact hadds s (.head hchild hbelow) r hr
    · cases h₂
      exact hown

/-- The rows of a new decoder. -/
theorem edited_addLanes {decoder : ℕ → DisplayedDecoder} {target : Option TargetPosition}
    {lanes : List ℕ} (h : addLanes decoder target lanes w = .ok w') :
    Edited (.addsRows decoder) w w' := by
  induction lanes generalizing w with
  | nil =>
    cases h
    exact .refl
  | cons lane rest ih =>
    simp only [addLanes, Except.bind_eq_ok] at h
    obtain ⟨⟨_, w₁⟩, h₁, h₂⟩ := h
    have hfirst : Edited (.addsRows decoder) w w₁ := edited_insertItem h₁ ⟨lane, rfl⟩ rfl
    exact hfirst.trans (ih h₂)

/-! ## Removing and rearranging -/

theorem contents_forgetItems (w : WaveData) (removed : List DisplayedItemRef) :
    (removed.foldl forgetItem w).contents = removed.foldl Contents.forget w.contents := by
  induction removed generalizing w with
  | nil => rfl
  | cons k rest ih => exact ih (w.forgetItem k)

theorem forgetItems_container (w : WaveData) (removed : List DisplayedItemRef) :
    (removed.foldl forgetItem w).inner = w.inner ∧
      (removed.foldl forgetItem w).nextDecoderInstance = w.nextDecoderInstance ∧
      (removed.foldl forgetItem w).cacheGeneration = w.cacheGeneration := by
  induction removed generalizing w with
  | nil => exact ⟨rfl, rfl, rfl⟩
  | cons k rest ih => exact ih (w.forgetItem k)

/-- Forgetting items does not depend on the tree. -/
theorem foldl_forget_refs (removed refs : List DisplayedItemRef) (c : Contents) :
    removed.foldl Contents.forget { c with refs } = { removed.foldl Contents.forget c with refs } := by
  induction removed generalizing c with
  | nil => rfl
  | cons k rest ih => exact ih (c.forget k)

/-- Removing an item removes what its node covers, and nothing covers more than before. -/
theorem edited_removeDisplayedItem {id : DisplayedItemRef} (h : w.removeDisplayedItem id = .ok w')
    (hremoves : ∀ k, w.itemsTree.Covers id k → e.removes k) :
    Edited e w w' ∧ ∀ a k, w'.itemsTree.Covers a k → w.itemsTree.Covers a k := by
  unfold removeDisplayedItem at h
  split at h
  · cases h
    exact ⟨.refl, fun _ _ hcovers => hcovers⟩
  next idx hidx =>
    simp only at h
    split at h
    · cases h
    next removed tree hremove =>
      cases h
      obtain ⟨hlt, hfound, -⟩ := List.findIdx?_eq_some_iff_getElem.1 hidx
      have hid : w.itemsTree.items[idx].itemRef = id := by simpa using hfound
      obtain ⟨hcovered, hkept⟩ := DisplayedItemTree.covers_of_removeRecursive hremove
        (List.getElem?_eq_getElem hlt)
      obtain ⟨hinner, hnext, hgeneration⟩ := forgetItems_container w removed
      refine ⟨⟨hinner, hnext, hgeneration, .single ?_⟩, hkept⟩
      have hcontents := contents_forgetItems w removed
      have hedit : Edit e w.contents (removed.foldl Contents.forget
          { w.contents with refs := tree.refs }) :=
        .remove (DisplayedItemTree.refs_removeRecursive hremove)
          fun k hk => hremoves k (hid ▸ hcovered k hk)
      rw [foldl_forget_refs, ← hcontents] at hedit
      exact hedit

theorem edited_removeDisplayedItems {ids : List DisplayedItemRef}
    (h : w.removeDisplayedItems ids = .ok w')
    (hremoves : ∀ a ∈ ids, ∀ k, w.itemsTree.Covers a k → e.removes k) : Edited e w w' := by
  induction ids generalizing w with
  | nil =>
    cases h
    exact .refl
  | cons id rest ih =>
    rw [List.forall_mem_cons] at hremoves
    simp only [removeDisplayedItems, Except.bind_eq_ok] at h
    obtain ⟨w₁, h₁, h₂⟩ := h
    obtain ⟨hfirst, hkept⟩ := edited_removeDisplayedItem h₁ hremoves.1
    exact hfirst.trans (ih h₂ fun a ha k hk => hremoves.2 a ha k (hkept a k hk))

theorem edited_removePlaceholders (w : WaveData)
    (hdrops : ∀ a k p, w.displayedItems.get a = some (.placeholder p) → w.itemsTree.Covers a k →
      e.drops k) : Edited e w w.removePlaceholders := by
  refine ⟨rfl, rfl, rfl, .single (.drop (w.itemsTree.refs_drainRecursiveIf _) fun k hk => ?_)⟩
  obtain ⟨m, hm, hmk, node, hnode, hplaceholder⟩ := DisplayedItemTree.covers_of_drainRecursiveIf hk
  obtain ⟨item, hitem, hplaceholder⟩ := (Option.any_eq_true _ _).1 hplaceholder
  cases item with
  | placeholder p => exact hdrops node.itemRef k p hitem ⟨m, hm, hmk, node, hnode, rfl⟩
  | _ => cases hplaceholder

theorem edited_groupDissolve {itemRef : Option DisplayedItemRef}
    (h : w.groupDissolve itemRef = .ok w')
    (hdrops : ∀ i node, w.indexForRefOrFocus itemRef = some i → w.itemsTree.items[i]? = some node →
      e.drops node.itemRef) : Edited e w w' := by
  unfold groupDissolve at h
  split at h
  · cases h
    exact .refl
  next i hi =>
    simp only [Except.bind_eq_ok] at h
    obtain ⟨⟨removed, tree⟩, hdissolve, h⟩ := h
    cases h
    obtain ⟨hperm, node, hnode, rfl⟩ := DisplayedItemTree.refs_removeDissolve hdissolve
    have hdropped : ∀ k ∈ [node.itemRef], e.drops k := by
      simpa using hdrops i node hi hnode
    exact ⟨rfl, rfl, rfl, .single (.drop hperm hdropped)⟩

theorem edited_moveItemTimes {direction : MoveDir} {count vidx vidx' : ℕ}
    (h : moveItemTimes direction count vidx w = .ok (vidx', w')) : Edited e w w' := by
  induction count generalizing vidx w with
  | zero =>
    cases h
    exact .refl
  | succ count ih =>
    simp only [moveItemTimes, Except.bind_eq_ok] at h
    obtain ⟨⟨result, tree⟩, hmove, h⟩ := h
    split at h
    · cases h
    · refine Edited.trans ?_ (ih h)
      exact .of_perm rfl rfl rfl rfl (DisplayedItemTree.refs_moveItem hmove)

theorem edited_moveFocusedItem {direction : MoveDir} {count : ℕ}
    (h : w.moveFocusedItem direction count = .ok w') : Edited e w w' := by
  unfold moveFocusedItem at h
  split at h
  · cases h
    exact .refl
  · simp only [Except.bind_eq_ok] at h
    obtain ⟨⟨vidx, w₁⟩, h₁, h⟩ := h
    cases h
    exact (edited_moveItemTimes h₁).trans (.of_perm rfl rfl rfl rfl (.refl _))

theorem edited_dragFinished {source : ℕ} {target : TargetPosition}
    (h : w.dragFinished source target = .ok w') : Edited e w w' := by
  simp only [dragFinished, Except.bind_eq_ok] at h
  obtain ⟨⟨_, tree⟩, hmove, h⟩ := h
  cases h
  exact .of_perm rfl rfl rfl rfl (DisplayedItemTree.refs_moveItems hmove)

theorem edited_groupNew {name : Option String} {before : Option ℕ}
    {items : Option (List DisplayedItemRef)} (h : w.groupNew name before items = .ok w')
    (hgroup : ∀ name, e.adds (.group name)) : Edited e w w' := by
  simp only [groupNew, Except.bind_eq_ok] at h
  obtain ⟨itemRefs, -, h⟩ := h
  split at h
  · cases h
    exact .refl
  · simp only [Except.bind_eq_ok] at h
    obtain ⟨⟨groupRef, w₁⟩, h₁, ⟨_, tree⟩, hmove, h⟩ := h
    cases h
    refine (edited_insertItem h₁ (hgroup _) rfl).trans (.of_perm rfl rfl rfl rfl ?_)
    show (tree.xselectAllVisible false).refs.Perm _
    rw [DisplayedItemTree.refs_xselectAllVisible]
    exact DisplayedItemTree.refs_moveItems hmove

theorem edited_groupFold {itemRef : Option DisplayedItemRef} {unfold recursive : Bool}
    (h : w.groupFold itemRef unfold recursive = .ok w') : Edited e w w' := by
  unfold groupFold at h
  split at h
  · cases h
    exact .refl
  next item hitem =>
    simp only [Except.bind_eq_ok] at h
    obtain ⟨focusedItem, -, tree, hfold, h⟩ := h
    cases h
    have hrefs : tree.refs = w.itemsTree.refs := by
      unfold foldNode at hfold
      split at hfold
      · exact DisplayedItemTree.refs_xfoldRecursive hfold
      · exact DisplayedItemTree.refs_xfold hfold
    exact .of_perm rfl rfl rfl rfl (.of_eq hrefs)

theorem edited_groupFoldAll {unfold : Bool} (h : w.groupFoldAll unfold = .ok w') :
    Edited e w w' := by
  simp only [groupFoldAll, Except.bind_eq_ok] at h
  obtain ⟨focusedItem, -, h⟩ := h
  cases h
  exact .of_perm rfl rfl rfl rfl (.of_eq (DisplayedItemTree.refs_xfoldAll _ _))

/-! ## Focusing and selecting -/

theorem edited_focusItem (w : WaveData) (idx : ℕ) : Edited e w (w.focusItem idx) := by
  unfold focusItem
  split
  · exact .of_perm rfl rfl rfl rfl (.refl _)
  · exact .refl

theorem edited_moveFocus (w : WaveData) (direction : MoveDir) (count : ℕ) (select : Bool) :
    Edited e w (w.moveFocus direction count select) := by
  simp only [moveFocus]
  split
  · exact .refl
  · refine .of_perm rfl rfl rfl rfl ?_
    dsimp only
    split
    · rw [DisplayedItemTree.refs_xselect]
      split
      · rw [DisplayedItemTree.refs_xselect]
      · rfl
    · rfl

theorem edited_toggleItemSelected (w : WaveData) (vidx : Option ℕ) :
    Edited e w (w.toggleItemSelected vidx) := by
  unfold toggleItemSelected
  split
  · exact .refl
  · exact .of_perm rfl rfl rfl rfl (.of_eq (DisplayedItemTree.map_modifyWhere _ _ fun _ => rfl))

/-! ## Markers -/

/-- An item for a marker, with the entry of the marker. -/
theorem edited_insertMarker {name : Option String} {idx : ℕ} {location : ℤ} {moveFocus : Bool}
    {itemRef : DisplayedItemRef}
    (h : w.insertItem (.marker name idx) none moveFocus = .ok (itemRef, w'))
    (hadds : e.adds (.marker name idx)) (hfree : w.markers.get idx = none) :
    Edited e w { w' with markers := w'.markers.insert idx location } := by
  have hrefs := insertItem_refs h
  obtain ⟨index, tree, -, -, rfl⟩ := insertItem_eq_ok h
  exact ⟨rfl, rfl, rfl, .single (.addMarker hadds hfree hrefs)⟩

theorem edited_addMarker {location : ℤ} {name : Option String} {moveFocus : Bool}
    (h : w.addMarker location name moveFocus = .ok w')
    (hadds : ∀ name idx, e.adds (.marker name idx)) : Edited e w w' := by
  unfold addMarker at h
  split at h
  · cases h
    exact .refl
  · split at h
    · cases h
      exact .refl
    next idx hidx =>
      simp only [Except.bind_eq_ok] at h
      obtain ⟨⟨_, w₁⟩, h₁, h⟩ := h
      cases h
      have hfree : w.markers.get idx = none := by simpa using List.find?_some hidx
      exact edited_insertMarker h₁ (hadds _ _) hfree

theorem edited_setMarkerPosition {idx : ℕ} {location : ℤ}
    (h : w.setMarkerPosition idx location = .ok w')
    (hadds : ∀ name idx, e.adds (.marker name idx)) : Edited e w w' := by
  simp only [setMarkerPosition, Except.bind_eq_ok, ensureMarker] at h
  obtain ⟨w₁, h₁, h⟩ := h
  cases h
  split at h₁
  next hsome =>
    cases h₁
    exact ⟨rfl, rfl, rfl, .single (.moveMarker hsome)⟩
  next hnone =>
    rw [Except.map_eq_ok] at h₁
    obtain ⟨⟨_, w₂⟩, h₂, rfl⟩ := h₁
    exact edited_insertMarker h₂ (hadds _ _) (Option.not_isSome_iff_eq_none.1 hnone)

theorem edited_removeMarker {idx : ℕ} (h : w.removeMarker idx = .ok w')
    (hremoves : ∀ a k name, w.displayedItems.get a = some (.marker name idx) →
      w.itemsTree.Covers a k → e.removes k) : Edited e w w' := by
  simp only [removeMarker] at h
  split at h
  next entry hentry =>
    obtain ⟨a, item⟩ := entry
    have hget : w.displayedItems.get a = some item :=
      AList.mem_lookup_iff.2 (List.mem_of_find?_eq_some hentry)
    have hmarker := List.find?_some hentry
    cases item with
    | marker name i =>
      obtain rfl : i = idx := by simpa using hmarker
      exact (edited_removeDisplayedItem h fun k hk => hremoves a k name hget hk).1
    | _ => cases hmarker
  · cases h
    exact .refl

end WaveData

end Wave
