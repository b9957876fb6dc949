import Kahuna.Outline.Basic
import Kahuna.Panic
import Mathlib.Data.List.Dedup
import Mathlib.Data.List.Sort

/-!
# The tree of displayed items

The model of `displayed_item_tree.rs`. The items of a waveform view form a tree, which is stored as
a flat list of nodes with nesting levels, that is, as an outline. Positions come in two kinds: item
indices count all nodes, visible indices only those that no folded ancestor hides.

Code that panics is modelled in `Run`. Levels are `u8`: they are natural numbers here, and the
arithmetic on them says where it saturates, is checked, or wraps as in the release profile.
-/

namespace ItemTree

/-- Key of a displayed item. -/
abbrev DisplayedItemRef := ℕ

/-- A node of the tree. -/
structure Node where
  itemRef : DisplayedItemRef
  /-- Nesting level of the node. -/
  level : ℕ
  /-- Whether a subtree of this node (if it exists) is shown. -/
  unfolded : Bool
  selected : Bool
  deriving DecidableEq, Repr

/-- Why a move is refused. -/
inductive MoveError where
  | invalidIndex
  | invalidLevel
  | circularMove
  | levelTooDeep
  deriving DecidableEq, Repr

/-- The direction of a keyboard move. -/
inductive MoveDir where
  | up
  | down
  deriving DecidableEq, Repr

/-- Where to insert: before which item index, and at which level. -/
structure TargetPosition where
  before : ℕ
  level : ℕ
  deriving DecidableEq, Repr

/-- The tree, a flat list of nodes in order. -/
structure DisplayedItemTree where
  items : List Node
  deriving DecidableEq, Repr

/-- The largest level. -/
def maxLevel : ℕ := 255

/-- `u8::saturating_add`. -/
def saturatingAdd (a b : ℕ) : ℕ := min (a + b) maxLevel

/-- Addition of `u8` in the release profile. -/
def wrappingAdd (a b : ℕ) : ℕ := (a + b) % (maxLevel + 1)

/-- The level of the node at an index. -/
def levelAt (items : List Node) (i : ℕ) : ℕ := (items[i]?).elim 0 Node.level

/-- The index past the end of the subtree that starts at `start`, an index of a node. -/
def subtreeEnd (items : List Node) (start : ℕ) : ℕ := Outline.subtreeEnd Node.level items start

/-- `self.items[start..end]`, for bounds that are in order and in range. -/
def slice (items : List Node) (start end_ : ℕ) : List Node := (items.take end_).drop start

/-! ## Levels -/

/-- `check_location`: whether the requested indentation is right for the position. -/
def checkLocation (items : List Node) (target : TargetPosition) : Except MoveError Unit :=
  if items.length < target.before then .error .invalidIndex
  else
    let before := if target.before = 0 then none else items[target.before - 1]?
    let after := items[target.before]?
    let validRange : ℕ × ℕ :=
      match before.map Node.level, after.map Node.level with
      -- the first element cannot be indented
      | none, _ => (0, 0)
      -- the last element may be unindented completely, or indented into the one before
      | some before, none => (0, saturatingAdd before 1)
      | some before, some after =>
        -- an element before a child must become a child too, or the child changes its parent
        if before < after then (after, after)
        else if after = before then (before, saturatingAdd after 1)
        else (after, saturatingAdd before 1)
    if validRange.1 ≤ target.level ∧ target.level ≤ validRange.2 then .ok ()
    else .error .invalidLevel

/-- The loop of `shift_subtree_to_level`: each level is corrected by `target - first`, up to the
first for which the result is no `u8`. The nodes before it stay corrected. -/
def shiftLevels (target first : ℕ) : List Node → List Node × Except MoveError Unit
  | [] => ([], .ok ())
  | node :: rest =>
    if target + node.level < first ∨ maxLevel < target + node.level - first then
      (node :: rest, .error .invalidLevel)
    else
      let (rest, result) := shiftLevels target first rest
      ({ node with level := target + node.level - first } :: rest, result)

/-- `shift_subtree_to_level`: the nodes with their root at `target`. -/
def shiftSubtreeToLevel (nodes : List Node) (target : ℕ) : List Node × Except MoveError Unit :=
  match nodes with
  | [] => ([], .ok ())
  | root :: _ => shiftLevels target root.level nodes

namespace DisplayedItemTree

/-! ## Visible nodes -/

/-- The index of the next visible node, the number of nodes when there is none. -/
def nextVisibleItem (items : List Node) (i : ℕ) : ℕ :=
  match items[i]? with
  | some node => if node.unfolded then i + 1 else subtreeEnd items i
  | none => i + 1

/-- The visible indices from `i` on. Each step moves forward, so as many steps as there are nodes
are enough. -/
def visibleFrom (items : List Node) : ℕ → ℕ → List ℕ
  | 0, _ => []
  | steps + 1, i =>
    if i < items.length then i :: visibleFrom items steps (nextVisibleItem items i) else []

/-- The item indices of the visible nodes, in order. -/
def visible (t : DisplayedItemTree) : List ℕ := visibleFrom t.items t.items.length 0

/-- `iter_visible`: the visible nodes. -/
def iterVisible (t : DisplayedItemTree) : List Node := t.visible.filterMap fun i => t.items[i]?

/-- `get_visible`: the n-th visible node. -/
def getVisible (t : DisplayedItemTree) (vidx : ℕ) : Option Node :=
  t.visible[vidx]?.bind fun i => t.items[i]?

/-- `to_displayed`: the item index of the n-th visible node. -/
def toDisplayed (t : DisplayedItemTree) (vidx : ℕ) : Option ℕ := t.visible[vidx]?

/-- Whether the node at an item index has children. -/
def hasChildren (t : DisplayedItemTree) (i : ℕ) : Bool :=
  match t.items[i]?, t.items[i + 1]? with
  | some node, some next => decide (node.level < next.level)
  | _, _ => false

/-! ## Adding and removing -/

/-- Insert an unfolded node for `item`. -/
def insertItem (t : DisplayedItemTree) (item : DisplayedItemRef) (position : TargetPosition) :
    Except MoveError ℕ × DisplayedItemTree :=
  match checkLocation t.items position with
  | .error e => (.error e, t)
  | .ok () =>
    let node : Node :=
      { itemRef := item, level := position.level, unfolded := true, selected := false }
    (.ok position.before,
      { items := t.items.take position.before ++ node :: t.items.drop position.before })

/-- Remove a node and its subtree. -/
def removeRecursive (t : DisplayedItemTree) (item : ℕ) :
    Run (List DisplayedItemRef × DisplayedItemTree) :=
  if t.items.length ≤ item then .error .outOfBounds
  else
    let end_ := subtreeEnd t.items item
    .ok ((slice t.items item end_).map Node.itemRef,
      { items := t.items.take item ++ t.items.drop end_ })

/-- Remove a node and move its children in its place. The levels of the children are at least 1. -/
def removeDissolve (t : DisplayedItemTree) (item : ℕ) :
    Run (DisplayedItemRef × DisplayedItemTree) :=
  match t.items[item]? with
  | none => .error .outOfBounds
  | some node =>
    let end_ := subtreeEnd t.items item
    .ok (node.itemRef,
      { items := t.items.take item
          ++ (slice t.items (item + 1) end_).map (fun x => { x with level := x.level - 1 })
          ++ t.items.drop end_ })

/-- The loop of `drain_recursive_if`. Each step drops a node or moves past one, so as many steps as
there are nodes are enough. -/
def drainLoop (f : Node → Bool) :
    ℕ → ℕ → List DisplayedItemRef → List Node → List DisplayedItemRef × List Node
  | 0, _, removed, items => (removed, items)
  | steps + 1, idx, removed, items =>
    match items[idx]? with
    | none => (removed, items)
    | some node =>
      if f node then
        let end_ := subtreeEnd items idx
        drainLoop f steps idx (removed ++ (slice items idx end_).map Node.itemRef)
          (items.take idx ++ items.drop end_)
      else drainLoop f steps (idx + 1) removed items

/-- Remove every subtree whose root satisfies `f`. -/
def drainRecursiveIf (t : DisplayedItemTree) (f : Node → Bool) :
    List DisplayedItemRef × DisplayedItemTree :=
  let (removed, items) := drainLoop f t.items.length 0 [] t.items
  (removed, { items })

/-! ## Moving -/

/-- The loop over the indices of `move_items`, from back to front: each subtree is taken out of
`result` and put in front of `extracted`, and the target is adapted when it lies behind. The extents
of the subtrees are those of the old tree. -/
def moveLoop (items : List Node) (level : ℕ) :
    List ℕ → List Node → List Node → ℕ → Run (Except MoveError (List Node × List Node × ℕ))
  | [], result, extracted, target => .ok (.ok (result, extracted, target))
  | start :: rest, result, extracted, target =>
    -- `subtree_end` indexes `self.items`
    if items.length ≤ start then .error .outOfBounds
    else
      let end_ := subtreeEnd items start
      if start + 1 ≤ target ∧ target < end_ then .ok (.error .circularMove)
      else
        let target := if start < target then target - (end_ - start) else target
        -- `result[start..end]`
        if result.length < end_ then .error .outOfBounds
        else
          match shiftSubtreeToLevel (slice result start end_) level with
          | (_, .error e) => .ok (.error e)
          | (moved, .ok ()) =>
            moveLoop items level rest (result.take start ++ result.drop end_) (moved ++ extracted)
              target

/-- The indices in the order in which they are taken out: sorted from back to front, without
duplicates. Consecutive duplicates of a sorted list are all its duplicates. -/
def backToFront (indices : List ℕ) : List ℕ := (indices.insertionSort (fun a b => b ≤ a)).dedup

/-- Move several items to a place. The tree is only changed at the end. -/
def moveItems (t : DisplayedItemTree) (indices : List ℕ) (target : TargetPosition) :
    Run (Except MoveError Unit × DisplayedItemTree) :=
  if indices.getLast?.any (fun idx => t.items.length ≤ idx) then .ok (.error .invalidIndex, t)
  else
    match moveLoop t.items target.level (backToFront indices) t.items [] target.before with
    | .error p => .error p
    | .ok (.error e) => .ok (.error e, t)
    | .ok (.ok (result, extracted, shiftedTarget)) =>
      match checkLocation result ⟨shiftedTarget, target.level⟩ with
      | .error e => .ok (.error e, t)
      | .ok () =>
        .ok (.ok (), { items := result.take shiftedTarget ++ extracted ++ result.drop shiftedTarget })

/-- The loop of `visible_predecessor`, which looks at the nodes before `idx` from back to front. -/
def visiblePredecessorLoop (items : List Node) (startLevel : ℕ) : ℕ → ℕ → ℕ → ℕ
  | 0, candidate, _ => candidate
  | idx + 1, candidate, limitLevel =>
    let lookingLevel := levelAt items idx
    let unfolded := (items[idx]?).elim true Node.unfolded
    -- subtrees deeper than what was found already are ignored; a folded node hides the subtree
    let candidate := if lookingLevel < limitLevel ∧ ¬ unfolded then idx else candidate
    let limitLevel := if lookingLevel < limitLevel then lookingLevel else limitLevel
    if lookingLevel ≤ startLevel ∨ idx = 0 then candidate
    else visiblePredecessorLoop items startLevel idx candidate limitLevel

/-- The visible node before the node at `idx`, whatever its level. -/
def visiblePredecessor (t : DisplayedItemTree) (idx : ℕ) : Option ℕ :=
  if idx = 0 ∨ t.items.length < idx then none
  else
    some (visiblePredecessorLoop t.items (levelAt t.items idx) idx (idx - 1)
      (levelAt t.items (idx - 1)))

/-- Shift a subtree of the tree to a level in place. -/
def shiftInPlace (t : DisplayedItemTree) (start end_ level : ℕ) :
    Except MoveError Unit × DisplayedItemTree :=
  let (nodes, result) := shiftSubtreeToLevel (slice t.items start end_) level
  (result, { items := t.items.take start ++ nodes ++ t.items.drop end_ })

/-- Move a visible node and its subtree up or down by one visible node. `f` tells which nodes may
have children. -/
def moveItem (t : DisplayedItemTree) (vidx : ℕ) (direction : MoveDir) (f : Node → Bool) :
    Run (Except MoveError ℕ × DisplayedItemTree) :=
  match t.toDisplayed vidx with
  | none => .ok (.error .invalidIndex, t)
  | some idx =>
    let thisLevel := levelAt t.items idx
    let end_ := subtreeEnd t.items idx
    let shifted (level : ℕ) : Run (Except MoveError ℕ × DisplayedItemTree) :=
      let (result, t) := t.shiftInPlace idx end_ level
      .ok (result.map fun _ => vidx, t)
    let moved (target : TargetPosition) (newIndex : ℕ) :
        Run (Except MoveError ℕ × DisplayedItemTree) :=
      match t.moveItems [idx] target with
      | .error p => .error p
      | .ok (result, t) => .ok (result.map fun _ => newIndex, t)
    match direction with
    | .down =>
      match t.items[end_]? with
      -- at the end, but maybe still down in the hierarchy
      | none => shifted (thisLevel - 1)
      | some node =>
        -- the next node is less indented
        if node.level < thisLevel then shifted (thisLevel - 1)
        -- the next node is a sibling: move into it, or jump over it
        else if node.unfolded && f node then
          moved ⟨end_ + 1, wrappingAdd node.level 1⟩ (vidx + 1)
        else moved ⟨subtreeEnd t.items end_, thisLevel⟩ (vidx + 1)
    | .up =>
      match t.visiblePredecessor idx with
      | none => .ok (.ok vidx, t)
      | some nodeIdx =>
        match t.items[nodeIdx]? with
        | none => .error .outOfBounds
        | some node =>
          if (thisLevel ≤ node.level ∧ f node ∧ node.unfolded) ∨ thisLevel < node.level then
            shifted (wrappingAdd thisLevel 1)
          else moved ⟨nodeIdx, node.level⟩ (vidx - 1)

/-- The range of valid levels for inserting above a visible index, upper bound excluded. `f` tells
which nodes may have children. -/
def validLevelsVisible (t : DisplayedItemTree) (item : ℕ) (f : Node → Bool) : ℕ × ℕ :=
  if item = 0 then (0, 1)
  else
    let deepest (node : Node) : ℕ :=
      saturatingAdd node.level (1 + if f node && node.unfolded then 1 else 0)
    match (t.iterVisible.drop (item - 1)).take 2 with
    | [] => (0, 1)
    | [last] => (0, deepest last)
    | pre :: post :: _ => (post.level, deepest pre)

/-! ## Folding and selecting -/

/-- Change the nodes at the indices that satisfy `p`. -/
def modifyWhere (t : DisplayedItemTree) (p : ℕ → Bool) (f : Node → Node) : DisplayedItemTree :=
  { items := t.items.mapIdx fun i node => if p i then f node else node }

/-- Fold or unfold one node. -/
def xfold (t : DisplayedItemTree) (item : ℕ) (unfolded : Bool) : Run DisplayedItemTree :=
  if t.items.length ≤ item then .error .outOfBounds
  else
    let t := t.modifyWhere (· == item) fun x => { x with unfolded }
    if unfolded then .ok t
    else
      let end_ := subtreeEnd t.items item
      .ok (t.modifyWhere (fun i => item ≤ i && i < end_) fun x => { x with selected := false })

/-- Fold or unfold all nodes. -/
def xfoldAll (t : DisplayedItemTree) (unfolded : Bool) : DisplayedItemTree :=
  { items := t.items.map fun x =>
      { x with
        unfolded
        selected := if !unfolded && 0 < x.level then false else x.selected } }

/-- Fold or unfold a node and all below it. -/
def xfoldRecursive (t : DisplayedItemTree) (item : ℕ) (unfolded : Bool) : Run DisplayedItemTree :=
  if t.items.length ≤ item then .error .outOfBounds
  else
    let end_ := subtreeEnd t.items item
    let t := t.modifyWhere (· == item) fun x => { x with unfolded }
    .ok (t.modifyWhere (fun i => item + 1 ≤ i && i < end_) fun x =>
      { x with unfolded, selected := if unfolded then x.selected else false })

/-- Select or deselect one visible node. -/
def xselect (t : DisplayedItemTree) (vidx : ℕ) (selected : Bool) : DisplayedItemTree :=
  match t.toDisplayed vidx with
  | some idx => t.modifyWhere (· == idx) fun x => { x with selected }
  | none => t

/-- Select or deselect all visible nodes. -/
def xselectAllVisible (t : DisplayedItemTree) (selected : Bool) : DisplayedItemTree :=
  let visible := t.visible
  t.modifyWhere (fun i => visible.contains i) fun x => { x with selected }

/-- Select or deselect a range of visible nodes, bounds included. -/
def xselectVisibleRange (t : DisplayedItemTree) (start end_ : ℕ) (selected : Bool) :
    DisplayedItemTree :=
  let range := if start < end_ then (start, end_ + 1) else (end_, start + 1)
  let visible := (t.visible.drop range.1).take (range.2 - range.1)
  t.modifyWhere (fun i => visible.contains i) fun x => { x with selected }

/-- `subtree_contains`, which measures the subtree of `candidate`. -/
def subtreeContains (t : DisplayedItemTree) (root candidate : ℕ) : Run Bool :=
  if t.items.length ≤ candidate then .error .outOfBounds
  else .ok (decide (root ≤ candidate ∧ candidate < subtreeEnd t.items candidate))

end DisplayedItemTree

end ItemTree

/-!
## What folding and selecting leave as it is

Folding and selecting change marks on the nodes: whether a node is unfolded, and whether it is selected.
Whatever is read off the nodes without these marks stays, such as levels and references.

- `map_modifyWhere`: the general case, for changes at some indices;
- `map_xselect`, `map_xselectAllVisible`, `map_xselectVisibleRange`: what does not depend on the selection;
- `map_xfold`, `map_xfoldAll`, `map_xfoldRecursive`: what does not depend on folding either.
-/

namespace ItemTree

namespace DisplayedItemTree

variable {t t' : DisplayedItemTree} {β : Type*} {g : Node → β}

theorem map_modifyWhere (t : DisplayedItemTree) (p : ℕ → Bool) {f : Node → Node}
    (hf : ∀ node, g (f node) = g node) : (t.modifyWhere p f).items.map g = t.items.map g := by
  refine List.ext_getElem (by simp [modifyWhere]) fun i hi hi' => ?_
  simp only [modifyWhere, List.getElem_map, List.getElem_mapIdx]
  split
  · exact hf _
  · rfl

/-! ## Selecting -/

section Selecting

variable (hg : ∀ (node : Node) (selected : Bool), g { node with selected } = g node)

include hg

theorem map_xselect (t : DisplayedItemTree) (vidx : ℕ) (selected : Bool) :
    (t.xselect vidx selected).items.map g = t.items.map g := by
  rw [xselect]
  split
  · exact map_modifyWhere t _ fun node => hg node selected
  · rfl

theorem map_xselectAllVisible (t : DisplayedItemTree) (selected : Bool) :
    (t.xselectAllVisible selected).items.map g = t.items.map g :=
  map_modifyWhere t _ fun node => hg node selected

theorem map_xselectVisibleRange (t : DisplayedItemTree) (start end_ : ℕ) (selected : Bool) :
    (t.xselectVisibleRange start end_ selected).items.map g = t.items.map g :=
  map_modifyWhere t _ fun node => hg node selected

end Selecting

/-! ## Folding -/

section Folding

variable (hg : ∀ (node : Node) (unfolded selected : Bool), g { node with unfolded, selected } = g node)

include hg

theorem map_xfold {item : ℕ} {unfolded : Bool} (h : t.xfold item unfolded = .ok t') :
    t'.items.map g = t.items.map g := by
  rw [xfold] at h
  split at h
  · cases h
  -- the node itself is folded or unfolded
  have hnode := map_modifyWhere t (· == item) fun node => hg node unfolded node.selected
  simp only at h
  split at h
  · rw [← Except.ok.inj h]
    exact hnode
  · rw [← Except.ok.inj h]
    exact (map_modifyWhere _ _ fun node => hg node node.unfolded false).trans hnode

theorem map_xfoldAll (t : DisplayedItemTree) (unfolded : Bool) :
    (t.xfoldAll unfolded).items.map g = t.items.map g := by
  rw [xfoldAll, List.map_map]
  exact List.map_congr_left fun node _ => hg node unfolded _

theorem map_xfoldRecursive {item : ℕ} {unfolded : Bool} (h : t.xfoldRecursive item unfolded = .ok t') :
    t'.items.map g = t.items.map g := by
  rw [xfoldRecursive] at h
  split at h
  · cases h
  · rw [← Except.ok.inj h]
    exact (map_modifyWhere _ _ fun node => hg node unfolded _).trans
      (map_modifyWhere t _ fun node => hg node unfolded node.selected)

end Folding

end DisplayedItemTree

end ItemTree
