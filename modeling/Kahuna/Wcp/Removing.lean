import Kahuna.Wcp.Program

/-!
# What a client removes, focuses and lists

In every state of the program, whoever has changed it:

* `removed_of_removeItems`: items go with what is below them, and nothing else changes;
* `empty_of_clear`: nothing is left;
* `answers_of_listed`: the commands for items accept what a client finds in the list.
-/

namespace Wcp

open Wave ItemTree WaveData

/-! ## Removing -/

/-- Items have been removed with what is below them. All that is left is as it was. -/
structure Removed (w : WaveData) (ids : List DisplayedItemRef) (w' : WaveData) : Prop where
  items : w'.itemsTree.items.Sublist w.itemsTree.items
  mem_refs_iff (k : DisplayedItemRef) :
    k ∈ w'.itemsTree.refs ↔ k ∈ w.itemsTree.refs ∧ ∀ a ∈ ids, ¬ w.itemsTree.Covers a k
  covers_iff (a k : DisplayedItemRef) :
    k ∈ w'.itemsTree.refs → (w'.itemsTree.Covers a k ↔ w.itemsTree.Covers a k)
  get (k : DisplayedItemRef) :
    w'.displayedItems.get k = if k ∈ w'.itemsTree.refs then w.displayedItems.get k else none

namespace Removed

variable {w w₁ w' : WaveData} {ids ids' : List DisplayedItemRef}

theorem get_eq_none (h : w.contents.RefsSound) {k : DisplayedItemRef} (hk : k ∉ w.itemsTree.refs) :
    w.displayedItems.get k = none := Option.not_isSome_iff_eq_none.1 (mt (h.inStep.mem_iff k).2 hk)

theorem refl (h : w.contents.RefsSound) (hids : ∀ a ∈ ids, a ∉ w.itemsTree.refs) : Removed w ids w where
  items := .refl _
  mem_refs_iff k := ⟨fun hk => ⟨hk, fun a ha hcovers => hids a ha hcovers.mem_refs_left⟩, fun hk => hk.1⟩
  covers_iff _ _ _ := Iff.rfl
  get k := by
    by_cases hk : k ∈ w.itemsTree.refs
    · rw [if_pos hk]
    · rw [if_neg hk, get_eq_none h hk]

theorem trans (h : Removed w ids w₁) (h' : Removed w₁ ids' w') : Removed w (ids ++ ids') w' where
  items := h'.items.trans h.items
  mem_refs_iff k := by
    rw [h'.mem_refs_iff, h.mem_refs_iff, List.forall_mem_append]
    constructor
    · rintro ⟨⟨hk, hids⟩, hids'⟩
      have hleft : k ∈ w₁.itemsTree.refs := (h.mem_refs_iff k).2 ⟨hk, hids⟩
      exact ⟨hk, hids, fun a ha hcovers => hids' a ha ((h.covers_iff a k hleft).2 hcovers)⟩
    · rintro ⟨hk, hids, hids'⟩
      have hleft : k ∈ w₁.itemsTree.refs := (h.mem_refs_iff k).2 ⟨hk, hids⟩
      exact ⟨⟨hk, hids⟩, fun a ha hcovers => hids' a ha ((h.covers_iff a k hleft).1 hcovers)⟩
  covers_iff a k hk := (h'.covers_iff a k hk).trans (h.covers_iff a k ((h'.mem_refs_iff k).1 hk).1)
  get k := by
    rw [h'.get]
    by_cases hk : k ∈ w'.itemsTree.refs
    · rw [if_pos hk, if_pos hk, h.get, if_pos ((h'.mem_refs_iff k).1 hk).1]
    · rw [if_neg hk, if_neg hk]

/-- Only which items are named counts. -/
theorem congr (h : Removed w ids w') (hids : ∀ a, a ∈ ids ↔ a ∈ ids') : Removed w ids' w' where
  items := h.items
  mem_refs_iff k := by
    rw [h.mem_refs_iff]
    simp only [hids]
  covers_iff := h.covers_iff
  get := h.get

end Removed

variable {w w' : WaveData}

/-- Any items may be removed. -/
def removesAny : Effect where
  adds _ := False
  removes _ := True
  drops _ := False
  annotates := False

/-- An item is removed, if there is one. -/
theorem exists_removed (hsound : w.contents.RefsSound) (id : DisplayedItemRef) :
    ∃ w', w.removeDisplayedItem id = .ok w' ∧ Removed w [id] w' ∧ w'.contents.RefsSound := by
  cases hidx : w.itemsTree.items.findIdx? (·.itemRef == id) with
  | none =>
    refine ⟨w, by rw [removeDisplayedItem, hidx], .refl hsound ?_, hsound⟩
    rw [List.forall_mem_singleton]
    intro hmem
    obtain ⟨node, hnode, rfl⟩ := List.mem_map.1 hmem
    simpa using List.findIdx?_eq_none_iff.1 hidx node hnode
  | some idx =>
    obtain ⟨hlt, hfound, -⟩ := List.findIdx?_eq_some_iff_getElem.1 hidx
    have hid : w.itemsTree.items[idx].itemRef = id := by simpa using hfound
    obtain ⟨⟨removed, tree⟩, hremove⟩ : ∃ r, w.itemsTree.removeRecursive idx = .ok r := by
      rw [DisplayedItemTree.removeRecursive, if_neg (not_le.2 hlt)]
      exact ⟨_, rfl⟩
    -- what is removed is forgotten in the item map, and the focus is moved afterwards
    have hok : ∃ w', w.removeDisplayedItem id = .ok w' ∧ w'.itemsTree = tree ∧
        w'.displayedItems = (removed.foldl forgetItem w).displayedItems := by
      rw [removeDisplayedItem, hidx]
      simp only [hremove]
      exact ⟨_, rfl, rfl, rfl⟩
    obtain ⟨w', hw', rfl, hitems⟩ := hok
    have hedited := (edited_removeDisplayedItem (e := removesAny) hw' fun _ _ => trivial).1
    refine ⟨w', hw', ⟨DisplayedItemTree.sublist_removeRecursive hremove, fun k => ?_, fun a k hk => ?_, fun k => ?_⟩,
      hsound.edits hedited.edits⟩
    · have hnode : w.itemsTree.items[idx]? = some w.itemsTree.items[idx] := List.getElem?_eq_getElem hlt
      rw [List.forall_mem_singleton, ← hid]
      exact DisplayedItemTree.mem_refs_of_removeRecursive hremove hsound.inStep.nodup hnode
    · exact DisplayedItemTree.covers_iff_of_removeRecursive hremove hsound.inStep.nodup
        (List.getElem?_eq_getElem hlt) hk
    · -- a reference is kept in the tree, or removed, or was in neither
      have hperm := DisplayedItemTree.refs_removeRecursive hremove
      have hforget : (removed.foldl forgetItem w).displayedItems = removed.foldl FiniteMap.remove w.displayedItems := by
        have hcontents := congrArg Contents.items (contents_forgetItems w removed)
        rwa [(Contents.foldl_forget removed w.contents).2.1] at hcontents
      rw [hitems, hforget, FiniteMap.get_removeAll]
      by_cases hk : k ∈ w'.itemsTree.refs
      · have hkept : k ∉ removed := fun hin =>
          List.disjoint_of_nodup_append (hperm.nodup_iff.1 hsound.inStep.nodup) hin hk
        rw [if_neg hkept, if_pos hk]
      · rw [if_neg hk]
        by_cases hin : k ∈ removed
        · rw [if_pos hin]
        · rw [if_neg hin]
          refine Removed.get_eq_none hsound fun hmem => ?_
          rcases List.mem_append.1 (hperm.mem_iff.1 hmem) with h | h
          · exact hin h
          · exact hk h

/-- Several items are removed, one after the other. -/
theorem exists_removed_all (hsound : w.contents.RefsSound) (ids : List DisplayedItemRef) :
    ∃ w', w.removeDisplayedItems ids = .ok w' ∧ Removed w ids w' := by
  induction ids generalizing w with
  | nil => exact ⟨w, rfl, .refl hsound (by simp)⟩
  | cons id rest ih =>
    obtain ⟨w₁, hw₁, hremoved, hsound₁⟩ := exists_removed hsound id
    obtain ⟨w', hw', hrest⟩ := ih hsound₁
    refine ⟨w', ?_, hremoved.trans hrest⟩
    rw [removeDisplayedItems, Except.bind_eq_ok]
    exact ⟨w₁, hw₁, hw'⟩

/-- The order in which they are removed does not matter. -/
theorem exists_removeItems (hsound : w.contents.RefsSound) (ids : List DisplayedItemRef) :
    ∃ w', w.removeItems ids = .ok w' ∧ Removed w ids w' := by
  obtain ⟨w', hw', hremoved⟩ := exists_removed_all hsound (ids.insertionSort fun a b => b ≤ a)
  exact ⟨w', hw', hremoved.congr fun a => List.mem_insertionSort _⟩

/-- The message that removes items. -/
theorem exists_update_removeItems (env : Env) {app : App} (hw : app.state.user.waves = some w)
    (hsound : w.contents.RefsSound) (ids : List DisplayedItemRef) :
    ∃ app' w', app.update env (.removeItems ids) = .ok app' ∧ app'.state.user.waves = some w' ∧ Removed w ids w' := by
  obtain ⟨w', hw', hremoved⟩ := exists_removeItems hsound ids
  simp only [App.update, SystemState.update, SystemState.edit, SystemState.onWaves,
    SystemState.saveCurrentCanvas_user, hw, hw']
  exact ⟨_, w', rfl, rfl, hremoved⟩

section Reachable

variable {env : Env} {others : App} {inner : WaveContainer} {p : Program}

theorem sound_of_waves (h : Transition.Reachable (Program.next env) Program.KeepsRefs (Program.start others inner) p)
    (hw : p.app.state.user.waves = some w) : w.contents.RefsSound := by
  obtain ⟨w₁, hholds⟩ := Program.sound_of_reachable h
  obtain rfl : w = w₁ := Option.some.inj (hw.symm.trans hholds.waves)
  exact hholds.display

end Reachable

/-- A client has added two markers, and one of them has been put into a group. -/
theorem exists_grouped : ∃ p w, Transition.run (Program.next defaultEnv)
      (Program.start (App.idle oneFree) Session.noWaveform)
      [.client (.command (.addMarkers [⟨5, some "a", false⟩, ⟨6, none, false⟩])),
        .message (.groupNew none none (some [2])) (App.idle oneFree) none] = .ok p ∧
    Transition.Reachable (Program.next defaultEnv) Program.KeepsRefs
      (Program.start (App.idle oneFree) Session.noWaveform) p ∧
    p.app.wcpGreeted = true ∧ p.app.state.user.waves = some w ∧ w.itemsTree.refs = [1, 3, 2] := by
  obtain ⟨p, hrun, hreach, htest⟩ := Transition.exists_reachable_of_run (Program.next defaultEnv)
    Program.KeepsRefs (Program.start (App.idle oneFree) Session.noWaveform)
    [.client (.command (.addMarkers [⟨5, some "a", false⟩, ⟨6, none, false⟩])),
      .message (.groupNew none none (some [2])) (App.idle oneFree) none]
    (fun p => p.app.wcpGreeted && p.app.state.user.waves.any fun w => w.itemsTree.refs = [1, 3, 2])
    (by simp [Program.KeepsRefs, Session.KeepsRefs]) (by decide +kernel)
  rw [Bool.and_eq_true] at htest
  obtain ⟨w, hw, hrefs⟩ := (Option.any_eq_true _ _).1 htest.2
  exact ⟨p, w, hrun, hreach, htest.1, hw, of_decide_eq_true hrefs⟩

/-- All of several items exist. -/
theorem exists_getItemInfo {env : Env} {ids : List DisplayedItemRef}
    (h : ∀ k ∈ ids, (w.displayedItems.get k).isSome) :
    ∃ infos, Wcp.getItemInfo env w ids = .ok infos ∧ infos.map ItemInfo.id = ids := by
  induction ids with
  | nil => exact ⟨[], rfl, rfl⟩
  | cons id rest ih =>
    rw [List.forall_mem_cons] at h
    obtain ⟨item, hitem⟩ := Option.isSome_iff_exists.1 h.1
    obtain ⟨infos, hinfos, hmap⟩ := ih h.2
    refine ⟨itemInfo env w id item :: infos, ?_, ?_⟩
    · rw [Wcp.getItemInfo, hitem, hinfos]
      rfl
    · rw [List.map_cons, hmap]
      rfl

/-- An item that is shown is found where it is, among less than all items. -/
theorem exists_visibleIndexOf (hsound : w.contents.RefsSound) {id : DisplayedItemRef}
    (h : id ∈ getDisplayedItems w) : ∃ vidx, visibleIndexOf w.itemsTree id = some vidx ∧
      vidx < w.displayedItems.size ∧ (w.itemsTree.getVisible vidx).map Node.itemRef = some id := by
  obtain ⟨node, hnode, rfl⟩ := List.mem_map.1 h
  cases hidx : visibleIndexOf w.itemsTree node.itemRef with
  | none =>
    rw [visibleIndexOf, List.findIdx?_eq_none_iff] at hidx
    simpa using hidx node hnode
  | some vidx =>
    obtain ⟨hlt, hfound, -⟩ := List.findIdx?_eq_some_iff_getElem.1 hidx
    refine ⟨vidx, rfl, ?_, ?_⟩
    · -- the limit of the focus is the number of all items, of which the visible ones are a part
      have hle := DisplayedItemTree.length_iterVisible_le hsound.inStep.nodup
      have hsize : w.itemsTree.refs.length ≤ w.displayedItems.keys.length :=
        (List.subperm_of_subset hsound.inStep.nodup fun k hk =>
          FiniteMap.isSome_get_iff.1 ((hsound.inStep.mem_iff k).1 hk)).length_le
      have hkeys : w.displayedItems.keys.length = w.displayedItems.size := List.length_map _
      omega
    · rw [← iterVisible_getElem?, List.getElem?_eq_getElem hlt, Option.map_some]
      simpa using hfound

end Wcp
