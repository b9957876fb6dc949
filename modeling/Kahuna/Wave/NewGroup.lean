import Kahuna.ItemTree.Gathering
import Kahuna.Wave.Layers

/-!
# New groups

`GroupNew` inserts a group first, and then moves the items into it. The second step may be refused. Then the
error is logged, and the empty group stays.

- `AllOrNothing`: what the message is meant to do;
- `groupNew_allOrNothing_iff`: when it does.
-/

namespace Wave

open ItemTree Outline DisplayedItemTree SystemState

namespace WaveData

variable {w w' : WaveData} {name : Option String} {before : Option ℕ} {items : Option (List DisplayedItemRef)}
  {itemRefs : List DisplayedItemRef}

/-- Nothing has changed, or there is a new group with exactly the items that were to be moved into it. -/
def AllOrNothing (w : WaveData) (name : Option String) (before : Option ℕ)
    (items : Option (List DisplayedItemRef)) (w' : WaveData) : Prop :=
  w' = w ∨ ∃ itemRefs groupRef, w.groupedItems before items = .ok itemRefs ∧
    Grouped w.itemsTree w'.itemsTree itemRefs groupRef ∧
    w'.displayedItems = w.displayedItems.insert groupRef (.group (name.getD "Group"))

theorem indicesOf_eq (tree : DisplayedItemTree) (itemRefs : List DisplayedItemRef) :
    indicesOf tree itemRefs = givenIndices itemRefs tree.items :=
  (indicesFrom_eq_filter _ _).symm

/-- Selecting does not matter. -/
theorem grouped_xselectAllVisible {t t' : DisplayedItemTree} {groupRef : DisplayedItemRef} {selected : Bool} :
    Grouped t (t'.xselectAllVisible selected) itemRefs groupRef ↔ Grouped t t' itemRefs groupRef := by
  have hlineages : lineages (t'.xselectAllVisible selected).items = lineages t'.items :=
    lineages_congr (shape_xselectAllVisible t' selected)
  constructor
  · intro h
    refine ⟨h.given, h.new, ?_, ?_, ?_⟩
    · rw [← refs_xselectAllVisible t' selected]
      exact h.refs
    · rw [← h.below, lineagesBelow, lineagesBelow, hlineages]
    · rw [← h.beside, lineagesBeside, lineagesBeside, hlineages]
  · intro h
    refine ⟨h.given, h.new, ?_, ?_, ?_⟩
    · rw [refs_xselectAllVisible]
      exact h.refs
    · rw [← h.below, lineagesBelow, lineagesBelow, hlineages]
    · rw [← h.beside, lineagesBeside, lineagesBeside, hlineages]

/-- The items are moved into the new group, all of them or none. -/
theorem allOrNothing_iff (hwf : w.itemsTree.WellFormed) (hrefs : w.contents.RefsSound)
    (hitems : w.groupedItems before items = .ok itemRefs) :
    (∃ w', w.groupNew name before items = .ok w' ∧ w.AllOrNothing name before items w') ↔
      itemRefs = [] ∨ CanGather w.itemsTree (w.groupPlace before) itemRefs := by
  have hnodup : w.itemsTree.refs.Nodup := hrefs.inStep.nodup
  have hnew : w.displayItemRefCounter + 1 ∉ w.itemsTree.refs := hrefs.next_free
  by_cases hne : itemRefs = []
  · refine iff_of_true ⟨w, ?_, .inl rfl⟩ (.inl hne)
    simp only [groupNew, hitems, hne]
    rfl
  rw [or_iff_right hne]
  constructor
  · rintro ⟨w', hrun, hall⟩
    simp only [groupNew, Except.bind_eq_ok] at hrun
    obtain ⟨itemRefs', hitems', hrun⟩ := hrun
    obtain rfl := Except.ok.inj (hitems'.symm.trans hitems)
    rw [if_neg hne] at hrun
    simp only [Except.bind_eq_ok] at hrun
    obtain ⟨⟨groupRef, w₁⟩, h₁, ⟨result, tree⟩, hmove, hrun⟩ := hrun
    cases hrun
    obtain ⟨index, tree₁, hinsert, hgroupRef, rfl⟩ := insertItem_eq_ok h₁
    rcases hall with hsame | ⟨itemRefs', groupRef', hitems', hgrouped, -⟩
    · -- a reference was handed out
      have hcounter := congrArg displayItemRefCounter hsame
      exact absurd hcounter (Nat.succ_ne_self _)
    obtain rfl := Except.ok.inj (hitems'.symm.trans hitems)
    dsimp only at hmove hgrouped
    rw [indicesOf_eq] at hmove
    rw [grouped_xselectAllVisible] at hgrouped
    have hperm : tree.refs.Perm ((w.displayItemRefCounter + 1) :: w.itemsTree.refs) :=
      (refs_moveItems hmove).trans (insertItem_refs h₁)
    obtain rfl : groupRef' = w.displayItemRefCounter + 1 := by
      have hmem := hperm.mem_iff.1 (hgrouped.refs.mem_iff.2 List.mem_cons_self)
      exact (List.mem_cons.1 hmem).resolve_right hgrouped.new
    exact canGather_of_grouped hwf hnodup hnew hne hinsert hmove hgrouped
  · intro hgather
    obtain ⟨t₀, t', hinsert, hmoves, hgrouped⟩ := grouped_of_canGather hwf hnodup hnew hne hgather
    obtain ⟨w₁, hadd, htree, hdisplayed⟩ : ∃ w₁, w.addGroup (name.getD "Group") (some (w.groupPlace before))
          = .ok (w.displayItemRefCounter + 1, w₁) ∧ w₁.itemsTree = t₀.xselectAllVisible false ∧
        w₁.displayedItems = w.displayedItems.insert (w.displayItemRefCounter + 1) (.group (name.getD "Group")) := by
      have htarget : w.targetOrFocus (some (w.groupPlace before)) = w.groupPlace before := rfl
      rw [addGroup, insertItem]
      simp only [htarget, hinsert]
      exact ⟨_, rfl, rfl, rfl⟩
    rw [← htree, ← indicesOf_eq] at hmoves
    have hrun : w.groupNew name before items = .ok { w₁ with
        itemsTree := t'.xselectAllVisible false
        focusedItem := visibleIndexOf (t'.xselectAllVisible false) (w.displayItemRefCounter + 1) } := by
      rw [groupPlace] at hadd hmoves
      simp only [groupNew, hitems, bind, Except.bind, if_neg hne, hadd, hmoves, pure, Except.pure]
    exact ⟨_, hrun, .inr ⟨itemRefs, _, hitems, grouped_xselectAllVisible.2 hgrouped, hdisplayed⟩⟩

end WaveData

/-- The items to be moved are known: with the focus as the anchor, the focused item is one of them. -/
theorem WaveData.exists_groupedItems (w : WaveData) (before : Option ℕ) (items : Option (List DisplayedItemRef)) :
    ∃ itemRefs, w.groupedItems before items = .ok itemRefs := by
  rw [groupedItems]
  split
  next hanchor =>
    rw [Bool.and_eq_true, Option.isNone_iff_eq_none] at hanchor
    obtain ⟨rfl, hplace⟩ := hanchor
    obtain ⟨place, hplace⟩ := Option.isSome_iff_exists.1 hplace
    rw [passedOrFocused, Option.bind_none, Option.none_or] at hplace
    simp only [insertPosition, Option.bind_eq_bind, Option.bind_eq_some_iff] at hplace
    obtain ⟨vidx, hfocus, idx, hidx, node, hnode, -⟩ := hplace
    simp only [hfocus, Option.bind_some, hidx, hnode]
    exact ⟨_, rfl⟩
  next => exact ⟨_, rfl⟩

/-- When a new group gets all of the items, or nothing changes. -/
theorem groupNew_allOrNothing_iff (env : Env) {σ : SystemState} {w : WaveData} (hw : σ.user.waves = some w)
    (hwf : w.itemsTree.WellFormed) (hrefs : w.contents.RefsSound) (name : Option String) (before : Option ℕ)
    (items : Option (List DisplayedItemRef)) :
    ∃ itemRefs, w.groupedItems before items = .ok itemRefs ∧
      ((∃ σ' w', σ.update env (.groupNew name before items) = .ok σ' ∧ σ'.user.waves = some w' ∧
          w.AllOrNothing name before items w') ↔
        itemRefs = [] ∨ CanGather w.itemsTree (w.groupPlace before) itemRefs) := by
  obtain ⟨itemRefs, hitems⟩ := w.exists_groupedItems before items
  refine ⟨itemRefs, hitems, ?_⟩
  have hchange : (Message.groupNew name before items).change env σ = some (·.groupNew name before items) := rfl
  have hiff : (∃ w', w.groupNew name before items = .ok w' ∧ w.AllOrNothing name before items w') ↔ _ :=
    WaveData.allOrNothing_iff hwf hrefs hitems
  obtain ⟨g, hchanged, hupdate⟩ := update_change hchange hw
  rw [← hiff, hupdate]
  constructor
  · rintro ⟨σ', w', hrun, hw', hall⟩
    rcases hnew : w.groupNew name before items with p | w₁
    · rw [hnew] at hrun
      cases hrun
    · rw [hnew] at hrun
      cases hrun
      obtain rfl := Option.some.inj ((hchanged w₁).waves.symm.trans hw')
      exact ⟨w₁, rfl, hall⟩
  · rintro ⟨w', hrun, hall⟩
    rw [hrun]
    exact ⟨g w', w', rfl, (hchanged w').waves, hall⟩

/-- A divider is put into a group, which has the focus then. -/
def dividerInGroup : Run SystemState :=
  Transition.run (update defaultEnv) (fresh { hierarchy := .flat [], signals _ := none })
    [.addDivider none none, .focusItem 0, .groupNew none none none]

/-- The group would become part of itself when it is put into a new group, and the new group stays empty. -/
theorem not_allOrNothing_dividerInGroup : ∃ σ σ' w w', dividerInGroup = .ok σ ∧ σ.user.waves = some w ∧
    σ.update defaultEnv (.groupNew none none none) = .ok σ' ∧ σ'.user.waves = some w' ∧
    ¬ w.AllOrNothing none none none w' := by
  obtain ⟨σ, hσ⟩ := Except.exists_of_isSome (x := dividerInGroup) (by decide)
  obtain ⟨σ', hσ'⟩ := Except.exists_of_isSome
    (x := dividerInGroup.bind fun σ => σ.update defaultEnv (.groupNew none none none)) (by decide)
  have htest : dividerInGroup.toOption.any (fun σ => σ.user.waves.any fun w =>
      w.itemsTree.refs = [2, 1] ∧ w.displayItemRefCounter = 2 ∧ w.focusedItem = some 0 ∧
        (w.groupedItems none none).toOption = some [2]) = true := by
    decide
  have htest' : (dividerInGroup.bind fun σ =>
      σ.update defaultEnv (.groupNew none none none)).toOption.any (fun σ' => σ'.user.waves.any fun w' =>
        w'.displayItemRefCounter = 3 ∧ w'.itemsTree.items
          = [⟨2, 0, true, false⟩, ⟨3, 1, true, false⟩, ⟨1, 1, true, false⟩]) = true := by
    decide
  rw [hσ'] at htest'
  rw [hσ] at htest hσ'
  change (some σ).any _ = true at htest
  change (some σ').any _ = true at htest'
  simp only [Option.any_some, Option.any_eq_true, decide_eq_true_eq] at htest htest'
  obtain ⟨w, hw, hrefs, hcounter, hfocus, hitems⟩ := htest
  obtain ⟨w', hw', hcounter', htree⟩ := htest'
  refine ⟨σ, σ', w, w', hσ, hw, hσ', hw', ?_⟩
  rintro (hsame | ⟨itemRefs, groupRef, hitems', hgrouped, -⟩)
  · rw [hsame, hcounter] at hcounter'
    exact absurd hcounter' (by decide)
  · rw [hitems'] at hitems
    obtain rfl := Option.some.inj hitems
    have hmem := hgrouped.refs.mem_iff.2 List.mem_cons_self
    rw [DisplayedItemTree.refs, htree] at hmem
    have hnew := hgrouped.new
    rw [hrefs] at hnew
    have hnodup : w.itemsTree.refs.Nodup := by
      rw [hrefs]
      decide
    obtain rfl : groupRef = 3 := by
      simp only [List.map_cons, List.map_nil, List.mem_cons, List.not_mem_nil, or_false, not_or] at hmem hnew
      rcases hmem with hmem | hmem | hmem
      · exact absurd hmem hnew.1
      · exact hmem
      · exact absurd hmem hnew.2
    have htree' : w'.itemsTree.items = [⟨2, 0, true, false⟩] ++ ⟨3, 1, true, false⟩ :: [⟨1, 1, true, false⟩] := htree
    exact not_grouped_of_empty hnodup (by simp) htree' (by simp) hgrouped

/-- A single divider. -/
def oneDivider : SystemState :=
  { fresh { hierarchy := .flat [], signals _ := none } with
    user := { (fresh { hierarchy := .flat [], signals _ := none }).user with
      waves := some { WaveData.loaded { hierarchy := .flat [], signals _ := none } with
        itemsTree := { items := [⟨1, 0, true, false⟩] }
        displayedItems := FiniteMap.empty.insert 1 (.divider none)
        displayItemRefCounter := 1 } } }

theorem groupNew_allOrNothing_oneDivider : ∃ σ' w w', oneDivider.user.waves = some w ∧
    oneDivider.update defaultEnv (.groupNew none none (some [1])) = .ok σ' ∧ σ'.user.waves = some w' ∧
    w.AllOrNothing none none (some [1]) w' := by
  set w := { WaveData.loaded { hierarchy := .flat [], signals _ := none } with
    itemsTree := { items := [⟨1, 0, true, false⟩] }
    displayedItems := FiniteMap.empty.insert 1 (.divider none)
    displayItemRefCounter := 1 } with hw
  have hrefs : w.contents.RefsSound :=
    (Session.refsSound_empty (c := (WaveData.loaded { hierarchy := .flat [], signals _ := none }).contents)
      rfl rfl).add _ (.refl _)
  obtain ⟨itemRefs, hitems, hiff⟩ := groupNew_allOrNothing_iff defaultEnv (σ := oneDivider) rfl
    ⟨by decide, by decide⟩ hrefs none none (some [1])
  obtain rfl : [1] = itemRefs := Except.ok.inj hitems
  obtain ⟨σ', w', hrun, hw', hall⟩ := hiff.2 (.inr ⟨by decide, by decide, by decide, by decide, by decide⟩)
  exact ⟨σ', w, w', rfl, hrun, hw', hall⟩

end Wave
