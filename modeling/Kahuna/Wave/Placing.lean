import Kahuna.ItemTree.Placing
import Kahuna.Wave.Inserting

/-!
# Items that are put in side by side

Decoders and scopes bring several items at once. They are inserted one by one, each at a place that depends on
those before it, and should end up side by side in the order they are meant to have.

- `AddsBlock`: new items stand side by side, and all others stay what they were;
- `addsBlock_insertItem`, `AddsBlock.addsBlock`: one item, and items put in among items;
- `Anchored`: the place of the next item stays the same, with `Anchored.insertItem` for one step;
- `accepts_iff`: when the place is accepted.
-/

namespace Wave

open ItemTree Outline DisplayedItemTree

namespace WaveData

variable {w w₁ w₂ : WaveData} {target : Option TargetPosition} {position : TargetPosition}
  {item : DisplayedItem} {moveFocus : Bool} {n k : ℕ} {block block' : List (ℕ × DisplayedItemRef)}
  {contents contents' : List (ℕ × DisplayedItem)}

/-! ## Blocks of items -/

/-- `w'` is `w` with new items in front of index `n`, side by side: their levels and references are `block`,
their levels and what they are is `contents`. -/
structure AddsBlock (w : WaveData) (n : ℕ) (block : List (ℕ × DisplayedItemRef))
    (contents : List (ℕ × DisplayedItem)) (w' : WaveData) : Prop where
  inserted : InsertedAll w.itemsTree n block w'.itemsTree
  contents_eq : block.map (fun x => (x.1, w'.displayedItems.get x.2)) = contents.map fun c => (c.1, some c.2)
  new : ∀ x ∈ block, w.displayItemRefCounter < x.2 ∧ x.2 ≤ w'.displayItemRefCounter
  nodup : (block.map Prod.snd).Nodup
  kept : ∀ r ≤ w.displayItemRefCounter, w'.displayedItems.get r = w.displayedItems.get r
  counter_le : w.displayItemRefCounter ≤ w'.displayItemRefCounter
  inner : w'.inner = w.inner
  wellFormed : w'.itemsTree.WellFormed

theorem addsBlock_nil (hwf : w.itemsTree.WellFormed) (hn : n ≤ w.itemsTree.items.length) :
    AddsBlock w n [] [] w :=
  ⟨insertedAll_nil hn, rfl, by simp, List.nodup_nil, fun _ _ => rfl, le_rfl, rfl, hwf⟩

/-- What inserting an item leaves. -/
theorem addsBlock_insertItem (hwf : w.itemsTree.WellFormed)
    (hcheck : checkLocation w.itemsTree.items (w.targetOrFocus target) = .ok ()) (item : DisplayedItem)
    (moveFocus : Bool) : ∃ w', w.insertItem item target moveFocus = .ok (w.displayItemRefCounter + 1, w') ∧
      AddsBlock w (w.targetOrFocus target).before
        [((w.targetOrFocus target).level, w.displayItemRefCounter + 1)]
        [((w.targetOrFocus target).level, item)] w' := by
  obtain ⟨tree, hinsert⟩ := exists_insertItem hcheck (w.displayItemRefCounter + 1)
  have hrun : ∃ w', w.insertItem item target moveFocus = .ok (w.displayItemRefCounter + 1, w') := by
    rw [insertItem, hinsert]
    exact ⟨_, rfl⟩
  obtain ⟨w', hrun⟩ := hrun
  refine ⟨w', hrun, ?_⟩
  obtain ⟨index, tree', hinsert', -, rfl⟩ := insertItem_eq_ok hrun
  obtain rfl : tree = tree' := congrArg Prod.snd (hinsert.symm.trans hinsert')
  refine ⟨insertedAll_xselectAllVisible.2 (inserted_of_ok hinsert).insertedAll, ?_, ?_, by simp, ?_, ?_, rfl, ?_⟩
  · simp [FiniteMap.get_insert]
  · simp
  · intro r hr
    show (w.displayedItems.insert _ _).get r = _
    rw [FiniteMap.get_insert, if_neg (Nat.lt_succ_of_le hr).ne]
  · exact Nat.le_succ _
  · refine wellFormed_xselectAllVisible ?_ false
    have hkeeps := wellFormed_insertItem hwf (w.displayItemRefCounter + 1) (w.targetOrFocus target)
    rwa [hinsert] at hkeeps

/-- An item that was inserted was not refused. -/
theorem checkLocation_of_insertItem {r : DisplayedItemRef × WaveData}
    (h : w.insertItem item target moveFocus = .ok r) :
    checkLocation w.itemsTree.items (w.targetOrFocus target) = .ok () := by
  obtain ⟨itemRef, w'⟩ := r
  obtain ⟨index, tree, hinsert, -, -⟩ := insertItem_eq_ok h
  rw [DisplayedItemTree.insertItem] at hinsert
  split at hinsert
  · cases hinsert
  next hcheck => exact hcheck

/-- Items that are put in among the new ones. -/
theorem AddsBlock.addsBlock (h : AddsBlock w n block contents w₁) (hk : k ≤ block.length)
    (h' : AddsBlock w₁ (n + k) block' contents' w₂) :
    AddsBlock w n (block.take k ++ (block' ++ block.drop k)) (contents.take k ++ (contents' ++ contents.drop k))
      w₂ := by
  have hstays : block.map (fun x => (x.1, w₂.displayedItems.get x.2))
      = block.map fun x => (x.1, w₁.displayedItems.get x.2) :=
    List.map_congr_left fun x hx => by rw [h'.kept x.2 (h.new x hx).2]
  have hpieces : ∀ x, x ∈ block.take k ∨ x ∈ block.drop k → x ∈ block := by
    rintro x (hx | hx)
    · exact List.mem_of_mem_take hx
    · exact List.mem_of_mem_drop hx
  refine ⟨h.inserted.insertedAll hk h'.inserted, ?_, ?_, ?_, ?_, h.counter_le.trans h'.counter_le,
    h'.inner.trans h.inner, h'.wellFormed⟩
  · have hold := hstays.trans h.contents_eq
    rw [List.map_append, List.map_append, List.map_append, List.map_append, h'.contents_eq,
      List.map_take, List.map_drop, hold, List.map_take, List.map_drop]
  · intro x hx
    rw [List.mem_append, List.mem_append] at hx
    rcases hx with hx | hx | hx
    · exact ⟨(h.new x (hpieces x (.inl hx))).1, (h.new x (hpieces x (.inl hx))).2.trans h'.counter_le⟩
    · exact ⟨h.counter_le.trans_lt (h'.new x hx).1, (h'.new x hx).2⟩
    · exact ⟨(h.new x (hpieces x (.inr hx))).1, (h.new x (hpieces x (.inr hx))).2.trans h'.counter_le⟩
  · -- the references of the second block are larger than those of the first one
    have hperm : (block.take k ++ (block' ++ block.drop k)).Perm (block' ++ block) := by
      conv_rhs => rw [← List.take_append_drop k block]
      rw [← List.append_assoc, ← List.append_assoc]
      exact List.perm_append_comm.append_right _
    rw [(hperm.map Prod.snd).nodup_iff, List.map_append, List.nodup_append]
    refine ⟨h'.nodup, h.nodup, fun r hr r' hr' heq => ?_⟩
    obtain ⟨x, hx, rfl⟩ := List.mem_map.1 hr
    obtain ⟨y, hy, rfl⟩ := List.mem_map.1 hr'
    exact absurd heq ((h.new y hy).2.trans_lt (h'.new x hx).1).ne'
  · intro r hr
    rw [h'.kept r (hr.trans h.counter_le), h.kept r hr]

/-- A block has as many items as nodes. -/
theorem AddsBlock.length_eq (h : AddsBlock w n block contents w₁) : block.length = contents.length := by
  have hlen := congrArg List.length h.contents_eq
  simpa using hlen

/-- The nodes of a block have the levels of its items. -/
theorem AddsBlock.levels_eq (h : AddsBlock w n block contents w₁) :
    block.map Prod.fst = contents.map Prod.fst := by
  have hlevels := congrArg (List.map Prod.fst) h.contents_eq
  rwa [List.map_map, List.map_map] at hlevels

/-- Items that are put in behind the new ones. -/
theorem AddsBlock.append (h : AddsBlock w n block contents w₁)
    (h' : AddsBlock w₁ (n + block.length) block' contents' w₂) :
    AddsBlock w n (block ++ block') (contents ++ contents') w₂ := by
  have hall := h.addsBlock le_rfl h'
  rwa [List.take_length, List.drop_length, List.append_nil, h.length_eq, List.take_length, List.drop_length,
    List.append_nil] at hall

/-- Items that are put in before the new ones. -/
theorem AddsBlock.prepend (h : AddsBlock w n block contents w₁) (h' : AddsBlock w₁ n block' contents' w₂) :
    AddsBlock w n (block' ++ block) (contents' ++ contents) w₂ := by
  simpa using h.addsBlock (Nat.zero_le _) (k := 0) h'

/-- All others keep their parents. -/
def KeepsParents (w : WaveData) (n b : ℕ) (w' : WaveData) : Prop :=
  ∀ i < w.itemsTree.items.length, parentOf Node.level w'.itemsTree.items (makeRoom n b i)
    = (parentOf Node.level w.itemsTree.items i).map (makeRoom n b)

/-- They do when the place is accepted, and no new item is shallower than it. -/
theorem AddsBlock.keepsParents (h : AddsBlock w position.before block contents w₁)
    (hwf : w.itemsTree.WellFormed) (hcheck : checkLocation w.itemsTree.items position = .ok ())
    (hdeep : ∀ x ∈ block, position.level ≤ x.1) : w.KeepsParents position.before block.length w₁ := by
  obtain ⟨-, -, -, hbehind⟩ := (checkLocation_iff hwf).1 hcheck
  exact fun i hi => h.inserted.parentOf_eq (fun y hy z hz => (hbehind y hy).trans (hdeep z hz)) hi

/-! ## Accepted places -/

/-- The place for new items is accepted. Without a given place it is that of the focused item, which is refused in
two cases. -/
def Accepts (w : WaveData) (target : Option TargetPosition) : Prop :=
  match target with
  | some position => checkLocation w.itemsTree.items position = .ok ()
  | none => ¬ w.IntoDeepest w.focusedItem ∧ ¬ w.BehindOwner w.focusedItem

/-- A place is given, or there is a visible item at the focus. -/
def HasPlace (w : WaveData) (target : Option TargetPosition) : Prop :=
  target.isSome = true ∨ ∃ vidx, w.focusedItem = some vidx ∧ (w.itemsTree.toDisplayed vidx).isSome = true

/-- Each visible node has an item, so there is a position at each of them. -/
theorem isSome_insertPosition_iff (hrefs : w.contents.RefsSound) {vidx : Option ℕ} :
    (w.insertPosition vidx).isSome = true ↔ ∃ v, vidx = some v ∧ (w.itemsTree.toDisplayed v).isSome = true := by
  constructor
  · intro h
    obtain ⟨position, hposition⟩ := Option.isSome_iff_exists.1 h
    obtain ⟨v, idx, node, item, hv, hidx, -, -⟩ := exists_of_insertPosition hposition
    exact ⟨v, hv, Option.isSome_iff_exists.2 ⟨idx, hidx⟩⟩
  · rintro ⟨v, rfl, h⟩
    obtain ⟨idx, hidx⟩ := Option.isSome_iff_exists.1 h
    have hlt : idx < w.itemsTree.items.length := lt_of_toDisplayed hidx
    have hnode : w.itemsTree.items[idx]? = some w.itemsTree.items[idx] := List.getElem?_eq_getElem hlt
    obtain ⟨item, hitem⟩ := Option.isSome_iff_exists.1
      ((hrefs.inStep.mem_iff _).1 (List.mem_map_of_mem (List.mem_of_getElem? hnode)))
    have hitem' : w.displayedItems.get w.itemsTree.items[idx].itemRef = some item := hitem
    rw [insertPosition_eq hidx hnode hitem', Option.isSome_some]

theorem hasPlace_iff (hrefs : w.contents.RefsSound) :
    w.HasPlace target ↔ target.isSome = true ∨ (w.insertPosition w.focusedItem).isSome = true := by
  rw [HasPlace, isSome_insertPosition_iff hrefs]

/-- When the place for new items is accepted. -/
theorem accepts_iff (hwf : w.itemsTree.WellFormed) (hrefs : w.contents.RefsSound) :
    w.Accepts target ↔ checkLocation w.itemsTree.items (w.targetOrFocus target) = .ok () := by
  cases target with
  | some position => rfl
  | none =>
    rw [Accepts, targetOrFocus, Option.none_or]
    cases hposition : w.insertPosition w.focusedItem with
    | some position => rw [Option.getD_some, checkLocation_insertPosition_iff hwf hposition]
    | none =>
      have hnone : ¬ ∃ v, w.focusedItem = some v ∧ (w.itemsTree.toDisplayed v).isSome = true := by
        rw [← isSome_insertPosition_iff hrefs, hposition]
        simp
      rw [Option.getD_none]
      refine iff_of_true ⟨?_, ?_⟩ (checkLocation_end w)
      · rintro ⟨v, idx, -, -, hv, hidx, -⟩
        exact hnone ⟨v, hv, by rw [hidx]; rfl⟩
      · rintro ⟨v, idx, -, -, hv, hidx, -⟩
        exact hnone ⟨v, hv, by rw [hidx]; rfl⟩

/-! ## The same place again -/

/-- The place is given, or it is the one at the focus. -/
def Anchored (w : WaveData) (target : Option TargetPosition) (position : TargetPosition) : Prop :=
  target = some position ∨ target = none ∧ w.insertPosition w.focusedItem = some position

theorem Anchored.targetOrFocus_eq (h : w.Anchored target position) : w.targetOrFocus target = position := by
  rcases h with rfl | ⟨rfl, hfocus⟩
  · rfl
  · rw [targetOrFocus, hfocus]
    rfl

/-- What inserting an item does to the tree, to the items and to the focus. -/
theorem inserted_of_insertItem (h : w.insertItem item target moveFocus = .ok (k, w₁)) :
    InsertedAll w.itemsTree (w.targetOrFocus target).before
        [((w.targetOrFocus target).level, w.displayItemRefCounter + 1)] w₁.itemsTree ∧
      w₁.displayedItems = w.displayedItems.insert (w.displayItemRefCounter + 1) item ∧
      (moveFocus = false → w₁.focusedItem = w.focusedItem) := by
  obtain ⟨index, tree, hinsert, -, rfl⟩ := insertItem_eq_ok h
  refine ⟨insertedAll_xselectAllVisible.2 (inserted_of_ok hinsert).insertedAll, rfl, ?_⟩
  rintro rfl
  rfl

/-- What stands in front of the new item looks the same. -/
theorem take_looks_of_insertItem (h : w.insertItem item target moveFocus = .ok (k, w₁)) {i : ℕ}
    (hi : i ≤ (w.targetOrFocus target).before) : w₁.itemsTree.looks.take i = w.itemsTree.looks.take i := by
  obtain ⟨index, tree, hinsert, -, rfl⟩ := insertItem_eq_ok h
  show (tree.xselectAllVisible false).looks.take i = _
  rw [looks_xselectAllVisible, take_looks_insertItem hinsert hi]

/-- An item that does not take the focus leaves the place where it was. -/
theorem Anchored.insertItem (h : w.Anchored target position)
    (hrefs : ∀ r ∈ w.itemsTree.refs, r ≤ w.displayItemRefCounter)
    (hrun : w.insertItem item target false = .ok (k, w₁)) : w₁.Anchored target position := by
  have hplace := h.targetOrFocus_eq
  rcases h with rfl | ⟨rfl, hfocus⟩
  · exact .inl rfl
  refine .inr ⟨rfl, ?_⟩
  obtain ⟨v, idx, node, item', hv, hidx, hnode, hitem⟩ := exists_of_insertPosition hfocus
  have hposition := insertPosition_eq hidx hnode hitem
  rw [← hv, hfocus] at hposition
  have hlt : idx < w.itemsTree.items.length := lt_of_toDisplayed hidx
  obtain ⟨hlt', hget⟩ := List.getElem?_eq_some_iff.1 hnode
  -- the place is behind the focused node
  have hbehind : idx + 1 ≤ position.before := by
    have hend : idx < subtreeEnd w.itemsTree.items idx := Outline.lt_subtreeEnd hlt
    rw [Option.some.inj hposition]
    split_ifs
    · exact le_rfl
    · exact hend
    · exact le_rfl
  have htake := take_looks_of_insertItem hrun (hplace.symm ▸ hbehind)
  have hidx' : w₁.itemsTree.toDisplayed v = some idx := (toDisplayed_congr htake).2 hidx
  obtain ⟨node', hnode', hlevel, hitemRef, hunfolded⟩ : ∃ node', w₁.itemsTree.items[idx]? = some node' ∧
      node'.level = node.level ∧ node'.itemRef = node.itemRef ∧ node'.unfolded = node.unfolded := by
    have hlook := congrArg (·[idx]?) htake
    simp only [List.getElem?_take, if_pos (Nat.lt_succ_self idx), looks, List.getElem?_map, hnode,
      Option.map_some, Option.map_eq_some_iff, Prod.mk.injEq] at hlook
    exact hlook
  obtain ⟨hinserted, hitems, hstays⟩ := inserted_of_insertItem hrun
  have hitem' : w₁.displayedItems.get node'.itemRef = some item' := by
    have hle := hrefs node.itemRef (List.mem_map_of_mem (List.mem_of_getElem? hnode))
    rw [hitems, FiniteMap.get_insert, hitemRef, if_neg (Nat.lt_succ_of_le hle).ne, hitem]
  rw [hplace] at hinserted
  rw [hstays rfl, hv, insertPosition_eq hidx' hnode' hitem', hlevel, hunfolded, hposition]
  congr 1
  split_ifs at hposition ⊢ with hgroup hopen
  · rfl
  · rw [Option.some.inj hposition] at hinserted
    have hend := hinserted.subtreeEnd_eq hlt rfl fun x hx => by
      obtain rfl := Option.some.inj hx
      rw [levelAt_of_lt hlt, hget]
    rw [hend]
  · rfl

end WaveData

end Wave
