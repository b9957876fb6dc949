import Kahuna.ItemTree.Shown

/-!
# Nodes that are put in side by side

Several nodes are put in one after the other, each at a place next to those before it. Together they are a
block: the tree is what it was, with the block in front of one index. Whether the next place is accepted can be
read off the levels of the block and of its neighbours.

- `checkLocation_iff`: what is accepted, as bounds on the level;
- `InsertedAll`: a block is put in, with `InsertedAll.insertedAll` for one more inside it;
- `InsertedAll.checkLocation_iff`: which places in the block are accepted;
- `InsertedAll.parentOf_eq`, `InsertedAll.parentOf_siblings`: all others keep their parents, and nodes of one level
  share theirs;
- `toDisplayed_congr`: nodes that are put in behind a node do not change where it is shown.
-/

namespace ItemTree

open Outline DisplayedItemTree

variable {t t' t'' : DisplayedItemTree} {position : TargetPosition} {n k l : ℕ}
  {block : List (ℕ × DisplayedItemRef)} {x : ℕ × DisplayedItemRef}

/-! ## Accepted places -/

theorem length_shape (t : DisplayedItemTree) : t.shape.length = t.items.length := List.length_map _

/-- A place is accepted when its level is between those that the nodes before it and behind it leave. -/
theorem checkLocation_iff (h : t.WellFormed) : checkLocation t.items position = .ok () ↔
    position.before ≤ t.items.length ∧ position.level ≤ maxLevel ∧
      position.level ≤ boundAfter Prod.fst 0 (t.shape.take position.before) ∧
        ∀ x ∈ (t.shape.drop position.before).head?, x.1 ≤ position.level := by
  have hbound : boundAfter Prod.fst 0 (t.shape.take position.before)
      = boundAfter Node.level 0 (t.items.take position.before) := by
    rw [boundAfter, boundAfter, DisplayedItemTree.shape, ← List.map_take, List.foldl_map]
  have hhead : (∀ x ∈ (t.shape.drop position.before).head?, x.1 ≤ position.level) ↔
      ∀ node ∈ (t.items.drop position.before).head?, node.level ≤ position.level := by
    rw [DisplayedItemTree.shape, ← List.map_drop, List.head?_map]
    cases (t.items.drop position.before).head? <;> simp
  rw [hbound, hhead]
  constructor
  · intro hcheck
    obtain ⟨hlevel, hmax, hbehind⟩ := bounds_of_checkLocation h.steps h.fits hcheck
    exact ⟨before_le_of_checkLocation hcheck, hmax, hlevel, hbehind⟩
  · rintro ⟨hle, hmax, hlevel, hbehind⟩
    refine checkLocation_of_bounds hle (fun hzero => ?_) (fun z hz => ?_) fun x hx => ?_
    · rw [hzero] at hlevel
      exact Nat.le_zero.1 hlevel
    · obtain ⟨pre, hpre⟩ := List.getLast?_eq_some_iff.1 hz
      rw [hpre, boundAfter_concat] at hlevel
      rw [saturatingAdd]
      exact le_min hlevel hmax
    · exact hbehind x (by rw [List.head?_drop]; exact hx)

/-- Parents can be read off levels and references. -/
theorem parentOf_shape (t : DisplayedItemTree) (i : ℕ) :
    parentOf Prod.fst t.shape i = parentOf Node.level t.items i :=
  parentOf_comp Prod.fst (fun node : Node => (node.level, node.itemRef)) t.items i

/-! ## Blocks -/

/-- `t'` is `t` with nodes of the levels and references in `block` in front of index `n`, as far as levels and
references go. -/
structure InsertedAll (t : DisplayedItemTree) (n : ℕ) (block : List (ℕ × DisplayedItemRef))
    (t' : DisplayedItemTree) : Prop where
  le : n ≤ t.items.length
  shape : t'.shape = t.shape.take n ++ (block ++ t.shape.drop n)

theorem insertedAll_nil (h : n ≤ t.items.length) : InsertedAll t n [] t :=
  ⟨h, by rw [List.nil_append, List.take_append_drop]⟩

/-- Selecting does not matter. -/
theorem insertedAll_xselectAllVisible {selected : Bool} :
    InsertedAll t n block (t'.xselectAllVisible selected) ↔ InsertedAll t n block t' :=
  ⟨fun h => ⟨h.le, by rw [← h.shape, shape_xselectAllVisible]⟩,
    fun h => ⟨h.le, by rw [shape_xselectAllVisible, h.shape]⟩⟩

namespace InsertedAll

variable (h : InsertedAll t n block t')

include h

theorem length_take : (t.shape.take n).length = n := by
  rw [List.length_take, length_shape, Nat.min_eq_left h.le]

theorem length_items : t'.items.length = t.items.length + block.length := by
  have hle := h.le
  rw [← length_shape, h.shape]
  simp only [List.length_append, List.length_take, List.length_drop, length_shape]
  omega

/-- What stands before a place in the block, and behind it. -/
theorem take_drop_shape (hk : k ≤ block.length) : t'.shape.take (n + k) = t.shape.take n ++ block.take k ∧
    t'.shape.drop (n + k) = block.drop k ++ t.shape.drop n := by
  have hlen := h.length_take
  rw [h.shape]
  refine ⟨?_, ?_⟩
  · rw [List.take_append, List.take_of_length_le (by omega), hlen, Nat.add_sub_cancel_left,
      List.take_append_of_le_length hk]
  · rw [List.drop_append, List.drop_of_length_le (by omega), hlen, Nat.add_sub_cancel_left,
      List.drop_append_of_le_length hk, List.nil_append]

/-- A second block is put into the first one. -/
theorem insertedAll {block' : List (ℕ × DisplayedItemRef)} (hk : k ≤ block.length)
    (h' : InsertedAll t' (n + k) block' t'') :
    InsertedAll t n (block.take k ++ (block' ++ block.drop k)) t'' := by
  obtain ⟨htake, hdrop⟩ := h.take_drop_shape hk
  refine ⟨h.le, ?_⟩
  rw [h'.shape, htake, hdrop]
  simp only [List.append_assoc]

/-- Which places in the block are accepted. -/
theorem checkLocation_iff (hwf : t'.WellFormed) (hk : k ≤ block.length) :
    checkLocation t'.items ⟨n + k, l⟩ = .ok () ↔
      l ≤ maxLevel ∧ l ≤ boundAfter Prod.fst 0 (t.shape.take n ++ block.take k) ∧
        ∀ x ∈ (block.drop k ++ t.shape.drop n).head?, x.1 ≤ l := by
  obtain ⟨htake, hdrop⟩ := h.take_drop_shape hk
  have hlen := h.length_items
  have hle := h.le
  rw [ItemTree.checkLocation_iff hwf, htake, hdrop]
  exact and_iff_right (show n + k ≤ t'.items.length by omega)

/-- All others keep their parents, when the block is at least as deep as what is behind it. -/
theorem parentOf_eq (hbehind : ∀ y ∈ (t.shape.drop n).head?, ∀ z ∈ block, y.1 ≤ z.1) {i : ℕ}
    (hi : i < t.items.length) :
    parentOf Node.level t'.items (makeRoom n block.length i)
      = (parentOf Node.level t.items i).map (makeRoom n block.length) := by
  have hinsert := @parentOf_insert _ Prod.fst (t.shape.take n) (t.shape.drop n) block hbehind i
    (by rwa [List.take_append_drop, length_shape])
  rwa [h.length_take, List.take_append_drop, ← h.shape, parentOf_shape, parentOf_shape] at hinsert

/-- A subtree ends where it did, when the block is put in behind it and starts with no deeper node. -/
theorem subtreeEnd_eq {i : ℕ} (hi : i < t.items.length) (hn : n = subtreeEnd t.items i)
    (hlevel : ∀ x ∈ block.head?, x.1 ≤ levelAt t.items i) :
    subtreeEnd t'.items i = subtreeEnd t.items i := by
  have hlen := h.length_items
  have hin : i < n := hn ▸ Outline.lt_subtreeEnd hi
  have hle := h.le
  -- in front of the block the levels are the same
  have hsame : ∀ j < n, levelAt t'.items j = levelAt t.items j := by
    intro j hj
    rw [levelAt_eq_shape, levelAt_eq_shape, h.shape,
      List.getElem?_append_left (by rwa [h.length_take]), List.getElem?_take, if_pos hj]
  have hi' : i < t'.items.length := by omega
  rw [← hn]
  refine Outline.subtreeEnd_eq hi' hin (by omega) (fun j hij hjn hj => ?_) fun hn' => ?_
  · have hdeep := level_lt_of_lt_subtreeEnd hi hij (hn ▸ hjn) (by omega)
    have hi₀ := hsame i hin
    have hj₀ := hsame j hjn
    rw [levelAt_of_lt hi', levelAt_of_lt hi] at hi₀
    rw [levelAt_of_lt hj, levelAt_of_lt (by omega)] at hj₀
    rwa [hi₀, hj₀]
  · rw [← levelAt_of_lt hn', ← levelAt_of_lt hi', hsame i hin, levelAt_eq_shape, h.shape]
    obtain ⟨-, hdrop⟩ := h.take_drop_shape (Nat.zero_le _)
    rw [← h.shape, ← List.head?_drop]
    rw [Nat.add_zero, List.drop_zero] at hdrop
    rw [hdrop]
    cases block with
    | cons x block => exact hlevel x rfl
    | nil =>
      -- without a block it is the node that was there
      have hend := head_drop_subtreeEnd hi
      rw [← hn] at hend
      rw [List.nil_append, DisplayedItemTree.shape, ← List.map_drop, List.head?_map]
      cases hhead : (t.items.drop n).head? with
      | none => exact Nat.zero_le _
      | some y => exact hend y hhead

/-- Nodes of one level that stand side by side have one parent. -/
theorem parentOf_siblings {refs : List DisplayedItemRef} (hblock : block = refs.map (l, ·)) {i j : ℕ}
    (hi : i < refs.length) (hj : j < refs.length) :
    parentOf Node.level t'.items (n + i) = parentOf Node.level t'.items (n + j) := by
  have hparent : ∀ i < refs.length, parentOf Node.level t'.items (n + i)
      = lastBelow Prod.fst l (t.shape.take n) := by
    intro i hi
    have hget : block[i]? = some (l, refs[i]) := by simp [hblock, hi]
    have hsame : ∀ y ∈ block.take i, l ≤ y.1 := by
      intro y hy
      rw [hblock] at hy
      obtain ⟨r, -, rfl⟩ := List.mem_map.1 (List.mem_of_mem_take hy)
      exact le_rfl
    have hlt : n + i < (t.shape.take n ++ block).length := by
      rw [List.length_append, h.length_take, hblock, List.length_map]
      omega
    have hright := @parentOf_append_right _ Prod.fst _ (t.shape.take n) block i hget
    rw [h.length_take, lastBelow_eq_none.2 hsame] at hright
    rw [← parentOf_shape, h.shape, ← List.append_assoc, parentOf_append_left hlt, hright]
    rfl
  rw [hparent i hi, hparent j hj]

end InsertedAll

/-- One node is a block. -/
theorem Inserted.insertedAll (h : Inserted t n x t') : InsertedAll t n [x] t' := ⟨h.le, h.shape⟩

/-! ## Where nodes are shown -/

/-- What a node looks like, apart from the selection. -/
def DisplayedItemTree.looks (t : DisplayedItemTree) : List (ℕ × DisplayedItemRef × Bool) :=
  t.items.map fun node => (node.level, node.itemRef, node.unfolded)

theorem length_looks (t : DisplayedItemTree) : t.looks.length = t.items.length := List.length_map _

/-- Selecting does not matter. -/
@[simp]
theorem looks_xselectAllVisible (t : DisplayedItemTree) (selected : Bool) :
    (t.xselectAllVisible selected).looks = t.looks :=
  map_xselectAllVisible (fun _ _ => rfl) t selected

/-- The visible nodes are found by looks. -/
theorem visible_eq_looks (t : DisplayedItemTree) :
    t.visible = shownFrom (fun look => look.1) (fun look => look.2.2) none 0 t.looks := by
  rw [visible_eq, looks, shownFrom_map]

/-- Where a node is shown does not depend on what stands behind it. -/
theorem toDisplayed_congr {vidx idx : ℕ} (h : t'.looks.take (idx + 1) = t.looks.take (idx + 1)) :
    t'.toDisplayed vidx = some idx ↔ t.toDisplayed vidx = some idx := by
  have hcongr := @shownFrom_getElem?_congr _ (fun look => look.1) (fun look => look.2.2) none 0 vidx idx
    t'.looks t.looks h
  rw [Nat.zero_add] at hcongr
  rw [toDisplayed, toDisplayed, visible_eq_looks, visible_eq_looks, hcongr]

/-- What the nodes look like after one was put in. -/
theorem looks_insertItem {item : DisplayedItemRef} {index : ℕ}
    (h : t.insertItem item position = (.ok index, t')) :
    t'.looks = t.looks.take position.before
      ++ (position.level, item, true) :: t.looks.drop position.before := by
  rw [insertItem] at h
  split at h
  · cases h
  · cases h
    simp only [looks, List.map_append, List.map_cons, List.map_take, List.map_drop]

/-- What stands in front of the new node looks the same. -/
theorem take_looks_insertItem {item : DisplayedItemRef} {index i : ℕ}
    (h : t.insertItem item position = (.ok index, t')) (hi : i ≤ position.before) :
    t'.looks.take i = t.looks.take i := by
  have hle := (inserted_of_ok h).le
  have hlen : i ≤ (t.looks.take position.before).length := by
    rw [List.length_take, length_looks]
    omega
  rw [looks_insertItem h, List.take_append_of_le_length hlen, List.take_take, Nat.min_eq_left hi]

end ItemTree
