import Kahuna.ItemTree.Atomic
import Kahuna.ItemTree.Folds
import Kahuna.ItemTree.Parents
import Kahuna.Outline.Marks
import Kahuna.Transition.Basic

/-!
# Selected nodes are visible

Only visible nodes can be selected, and folding takes the selection away from what it hides. So a node can only
be selected and hidden when it is moved to a place that is.

- `SelectsVisible`: all selected nodes are visible;
- `Gesture`: what a user does to the tree;
- `PlaceShown`: the place of a move is shown;
- `selectsVisible_of_reachable`: in which runs all selected nodes are visible.
-/

namespace ItemTree

open Outline DisplayedItemTree

variable {t t' : DisplayedItemTree} {item i idx vidx m : ℕ} {limit : Option ℕ} {selected unfolded : Bool}
  {f : Node → Bool} {indices roots : List ℕ} {target : TargetPosition}

/-- All selected nodes of a list are shown. -/
def SelectedShown (limit : Option ℕ) (items : List Node) : Prop :=
  AllShown Node.level Node.unfolded Node.selected limit items

/-- Every selected node is visible: all nodes it is below are unfolded. -/
def DisplayedItemTree.SelectsVisible (t : DisplayedItemTree) : Prop :=
  ∀ i, ∀ node ∈ t.items[i]?, node.selected = true →
    i ∈ t.visible ∧ ∀ j, t.Under i j → ∀ above ∈ t.items[j]?, above.unfolded = true

theorem selectsVisible_iff_shown :
    t.SelectsVisible ↔ ∀ i, ∀ node ∈ t.items[i]?, node.selected = true → t.Shown i := by
  refine forall_congr' fun i => forall_congr' fun node => forall_congr' fun hnode => forall_congr' fun _ => ?_
  have hi : i < t.items.length := (List.getElem?_eq_some_iff.1 hnode).1
  rw [mem_visible_iff, ← shown_iff_under hi]
  tauto

theorem selectsVisible_iff : t.SelectsVisible ↔ SelectedShown none t.items := by
  rw [selectsVisible_iff_shown, SelectedShown, allShown_iff]
  constructor
  · intro h i hi hselected
    have hget : t.items[i]? = some t.items[i] := List.getElem?_eq_getElem hi
    exact h i _ hget hselected _ hget
  · intro h i node hnode hselected node' hnode'
    obtain ⟨hi, rfl⟩ := List.getElem?_eq_some_iff.1 hnode
    obtain rfl : t.items[i] = node' := Option.some.inj (hnode.symm.trans hnode')
    exact h i hi hselected

/-! ## Selecting -/

/-- Visible nodes are selected or deselected. -/
theorem selectsVisible_modifyWhere (h : t.SelectsVisible) {p : ℕ → Bool} (hp : ∀ i, p i = true → i ∈ t.visible) :
    (t.modifyWhere p fun x => { x with selected }).SelectsVisible := by
  rw [selectsVisible_iff_shown] at h ⊢
  intro i node hnode hselected
  have hlevels : (t.modifyWhere p fun x => { x with selected }).items.map Node.level = t.items.map Node.level :=
    map_modifyWhere t p fun _ => rfl
  have hshown : t.Shown i := by
    rw [Option.mem_def, getElem?_modifyWhere, Option.map_eq_some_iff] at hnode
    obtain ⟨old, hold, rfl⟩ := hnode
    cases hpi : p i with
    | true => exact (mem_visible_iff.1 (hp i hpi)).2
    | false =>
      rw [hpi, if_neg (by simp)] at hselected
      exact h i old hold hselected
  have hi : i < (t.modifyWhere p fun x => { x with selected }).items.length :=
    (List.getElem?_eq_some_iff.1 hnode).1
  have hi' : i < t.items.length := by
    have hlen := congrArg List.length hlevels
    rw [List.length_map, List.length_map] at hlen
    rwa [← hlen]
  -- the nodes above it are as they were
  rw [shown_iff_under hi'] at hshown
  rw [shown_iff_under hi]
  intro j hunder above habove
  rw [Under, subtreeEnd_congr hlevels] at hunder
  rw [Option.mem_def, getElem?_modifyWhere, Option.map_eq_some_iff] at habove
  obtain ⟨old, hold, rfl⟩ := habove
  have hunfolded := hshown j hunder old hold
  split
  · exact hunfolded
  · exact hunfolded

theorem selectsVisible_xselect (h : t.SelectsVisible) (vidx : ℕ) (selected : Bool) :
    (t.xselect vidx selected).SelectsVisible := by
  rw [DisplayedItemTree.xselect]
  split
  next idx hidx =>
    refine selectsVisible_modifyWhere h fun i hi => ?_
    rw [beq_iff_eq.1 hi]
    exact List.mem_of_getElem? hidx
  next => exact h

theorem selectsVisible_xselectAllVisible (h : t.SelectsVisible) (selected : Bool) :
    (t.xselectAllVisible selected).SelectsVisible :=
  selectsVisible_modifyWhere h fun _ hi => List.contains_iff_mem.1 hi

theorem selectsVisible_xselectVisibleRange (h : t.SelectsVisible) (start end_ : ℕ) (selected : Bool) :
    (t.xselectVisibleRange start end_ selected).SelectsVisible :=
  selectsVisible_modifyWhere h fun _ hi => List.mem_of_mem_drop (List.mem_of_mem_take (List.contains_iff_mem.1 hi))

/-! ## Folding -/

/-- Nodes are folded and unfolded, and what gets hidden is deselected. -/
theorem selectsVisible_refolded {marks : ℕ → Option Bool} {deselects : ℕ → Bool} (h : t.SelectsVisible)
    (hfold : Refolded t t' marks deselects)
    (hhides : ∀ i j, i < t.items.length → t.Under i j → marks j = some false → deselects i = true) :
    t'.SelectsVisible := by
  rw [selectsVisible_iff_shown] at h ⊢
  intro i node hnode hselected
  rw [Option.mem_def, hfold i, Option.map_eq_some_iff] at hnode
  obtain ⟨old, hold, rfl⟩ := hnode
  rw [Bool.and_eq_true, Bool.not_eq_true'] at hselected
  have hi : i < t.items.length := (List.getElem?_eq_some_iff.1 hold).1
  have hshown := h i old hold hselected.1
  rw [shown_iff_under hi] at hshown
  rw [hfold.shown_iff hi]
  intro j hunder above habove
  cases hmarks : marks j with
  | none => exact hshown j hunder above habove
  | some unfolded =>
    cases unfolded with
    | true => rfl
    | false =>
      rw [hhides i j hi hunder hmarks] at hselected
      cases hselected.2

/-- What is below a node of a subtree is in the subtree. -/
theorem lt_subtreeEnd_of_under {j : ℕ} (hunder : t.Under i j) (hj : item ≤ j) (hend : j < subtreeEnd t.items item)
    (hitem : item < t.items.length) : i < subtreeEnd t.items item := by
  rcases hj.lt_or_eq with hj | rfl
  · exact hunder.2.trans_le (subtreeEnd_le_of_lt hitem hj hend)
  · exact hunder.2

theorem selectsVisible_xfold (h : t.SelectsVisible) (hrun : t.xfold item unfolded = .ok t') :
    t'.SelectsVisible := by
  obtain ⟨hitem, hfold⟩ := refolded_xfold hrun
  refine selectsVisible_refolded h hfold fun i j hi hunder hmarks => ?_
  split at hmarks
  next hj =>
    subst hj
    cases hmarks
    simp [hunder.1.le, hunder.2]
  next => cases hmarks

theorem selectsVisible_xfoldRecursive (h : t.SelectsVisible) (hrun : t.xfoldRecursive item unfolded = .ok t') :
    t'.SelectsVisible := by
  obtain ⟨hitem, hfold⟩ := refolded_xfoldRecursive hrun
  refine selectsVisible_refolded h hfold fun i j hi hunder hmarks => ?_
  split at hmarks
  next hj =>
    cases hmarks
    have hend := lt_subtreeEnd_of_under hunder hj.1 hj.2 hitem
    have hlt := hunder.1
    simp [hend]
    omega
  next => cases hmarks

theorem selectsVisible_xfoldAll (h : t.SelectsVisible) (unfolded : Bool) :
    (t.xfoldAll unfolded).SelectsVisible := by
  refine selectsVisible_refolded h (refolded_xfoldAll t unfolded) fun i j hi hunder hmarks => ?_
  cases hmarks
  -- what is not at the outermost level is deselected
  have hlt := (lt_subtreeEnd_iff hunder.1 hi).1 hunder.2 i hunder.1 le_rfl
  simp
  omega

/-! ## Other places -/

/-- A new node is not selected. -/
theorem selectsVisible_insertItem (hwf : t.WellFormed) (h : t.SelectsVisible) (item : DisplayedItemRef)
    (position : TargetPosition) : (t.insertItem item position).2.SelectsVisible := by
  rw [insertItem]
  split
  next => exact h
  next hcheck =>
    obtain ⟨-, -, hbehind⟩ := bounds_of_checkLocation hwf.steps hwf.fits hcheck
    rw [selectsVisible_iff] at h ⊢
    rw [← List.take_append_drop position.before t.items] at h
    set node : Node := { itemRef := item, level := position.level, unfolded := true, selected := false }
    have hge : ∀ y ∈ [node], position.level ≤ y.level := List.forall_mem_singleton.2 le_rfl
    refine (allShown_between hge hbehind).2 ⟨h, ?_⟩
    exact allShown_of_unmarked (List.forall_mem_singleton.2 rfl)

/-- A subtree that is shown, at a place that is shown. -/
theorem selectedShown_movedSubtree (h : SelectedShown none t.items) (hidx : idx < t.items.length)
    (hshown : t.Shown idx) (hplace : Shows limit m) : SelectedShown limit (movedSubtree t.items m idx) := by
  obtain ⟨pre, x, sub, rest, heq, hget, rfl, htake, hslice, -, hbelow⟩ := exists_split hidx
  rw [SelectedShown, heq, allShown_subtree hbelow] at h
  have hlevel : levelAt t.items pre.length = x.level := by rw [levelAt, hget]; rfl
  let relevelled (y : Node) : Node × Node := (y, relevel t.items m pre.length y)
  have hfst : (sub.map relevelled).map Prod.fst = sub := by
    rw [List.map_map]
    exact List.map_id' sub
  have hsnd : (sub.map relevelled).map Prod.snd = sub.map (relevel t.items m pre.length) := List.map_map
  have hmarks : ∀ y, Releveled Node.unfolded Node.selected y (relevel t.items m pre.length y) :=
    fun y => ⟨rfl, rfl⟩
  have hroot : (relevel t.items m pre.length x).level = m := by
    simp only [relevel, hlevel]
    omega
  have hmoved := @AllShown.subtree _ Node.level Node.unfolded Node.selected _ limit x
    (relevel t.items m pre.length x) (sub.map relevelled) (by rw [hfst]; exact h.2)
    ((shown_length heq).1 hshown) (by rwa [hroot]) (hmarks x) (List.forall_mem_map.2 hbelow.deeper)
    (List.forall_mem_map.2 fun y _ => hmarks y) ?_
  · rw [hsnd] at hmoved
    rw [movedSubtree, hslice]
    exact hmoved
  · rw [List.pairwise_map]
    refine List.pairwise_of_forall_mem_list fun y hy z hz hlt => ?_
    simp only [relevelled, relevel, hlevel] at hlt ⊢
    omega

/-- Subtrees that are shown, one behind the other at a place that is shown. -/
theorem selectedShown_flatMap (hwf : t.WellFormed) (h : SelectedShown none t.items)
    (hroots : ∀ root ∈ roots, root < t.items.length ∧ t.Shown root) (hplace : Shows limit m) :
    SelectedShown limit (roots.flatMap (movedSubtree t.items m)) := by
  induction roots generalizing limit with
  | nil => trivial
  | cons root roots ih =>
    rw [List.forall_mem_cons] at hroots
    obtain ⟨hlt, hshown⟩ := hroots.1
    obtain ⟨-, hge⟩ := stepsFrom_movedSubtree hwf.steps hlt (le_refl m)
    rw [List.flatMap_cons, SelectedShown, allShown_append]
    refine ⟨selectedShown_movedSubtree h hlt hshown hplace, ih hroots.2 ?_⟩
    exact ((agree_limitAfter hge).shows_iff le_rfl).1 hplace

/-- The place is shown among the nodes that stay. -/
def PlaceShown (t : DisplayedItemTree) (indices : List ℕ) (target : TargetPosition) : Prop :=
  Shows (limitAfter (survivors t.items indices (t.items.take target.before))) target.level

/-- Nothing that is moved is selected. -/
def MovesUnselected (t : DisplayedItemTree) (indices : List ℕ) : Prop :=
  ∀ i ∈ indices, ∀ k, i ≤ k → k < subtreeEnd t.items i → ∀ node ∈ t.items[k]?, node.selected = false

/-- The place is one for a node among the nodes that stay. -/
def IsPlace (t : DisplayedItemTree) (indices : List ℕ) (target : TargetPosition) : Prop :=
  checkLocation (survivors t.items indices t.items) ⟨shiftedTarget t.items indices target.before, target.level⟩
    = .ok ()

theorem survivors_backToFront (items : List Node) (indices : List ℕ) (xs : List Node) :
    survivors items (backToFront indices).reverse xs = survivors items indices xs :=
  survivors_congr fun _ => List.mem_reverse.trans mem_backToFront

/-- Nodes that are not selected stay so. -/
theorem not_selected_of_movesUnselected (h : MovesUnselected t indices) {root : ℕ} (hroot : root ∈ indices) :
    ∀ node ∈ movedSubtree t.items m root, node.selected = false := by
  intro node hnode
  obtain ⟨old, hold, rfl⟩ := List.mem_map.1 hnode
  obtain ⟨j, hj, rfl⟩ := List.mem_drop_iff_getElem.1 hold
  rw [List.length_take] at hj
  have hget : t.items[root + j]? = some t.items[root + j] := List.getElem?_eq_getElem (by omega)
  have hunselected := h root hroot (root + j) (Nat.le_add_right _ _) (by omega) _ hget
  rw [List.getElem_take]
  exact hunselected

/-- Visible nodes are moved to a place that is shown, or none of what is moved is selected. -/
theorem selectsVisible_moveItems (hwf : t.WellFormed) (h : t.SelectsVisible) (hunnested : Unnested t indices)
    (hroots : ∀ i ∈ indices, t.Shown i)
    (hsafe : Refused t indices target ∨ ¬ IsPlace t indices target ∨ PlaceShown t indices target ∨
      MovesUnselected t indices)
    {result : Except MoveError Unit} (hrun : t.moveItems indices target = .ok (result, t')) :
    t'.SelectsVisible := by
  rcases hsafe with hrefused | hsafe
  · rwa [eq_of_refused hunnested hrefused hwf hrun]
  rcases moveItems_cases hunnested hrun with ⟨rfl, -⟩ | ⟨hrange, hloop, hcheck, rfl, rfl⟩
  · exact h
  have hdone : ∀ d ∈ (backToFront indices).reverse, d ∈ indices := fun d hd =>
    mem_backToFront.1 (List.mem_reverse.1 hd)
  have hbefore : target.before ≤ t.items.length := le_of_shiftedTarget_le (before_le_of_checkLocation hcheck)
  have hsteps := stepsFrom_survivors hwf.steps fun d hd => hrange d (hdone d hd)
  have hfits : ∀ node ∈ survivors t.items (backToFront indices).reverse t.items, node.level ≤ maxLevel :=
    fun node hnode => hwf.fits node (keepAt_sublist.subset hnode)
  obtain ⟨-, -, hbehind⟩ := bounds_of_checkLocation hsteps hfits hcheck
  have hge := (stepsFrom_flatMap_movedSubtree hwf.steps (fun d hd => hrange d (hdone d hd))
    (le_refl target.level)).2
  rw [selectsVisible_iff] at h ⊢
  have hstay : SelectedShown none (survivors t.items (backToFront indices).reverse t.items) :=
    AllShown.keepAt h (closed_uncovered fun d hd => hrange d (hdone d hd))
  rw [← List.take_append_drop (shiftedTarget t.items (backToFront indices).reverse target.before)
    (survivors t.items (backToFront indices).reverse t.items)] at hstay
  rw [List.append_assoc]
  refine (allShown_between hge hbehind).2 ⟨hstay, ?_⟩
  show SelectedShown (limitAfter _) _
  rw [take_survivors _ _ hbefore, survivors_backToFront]
  rcases hsafe with hplace | hplace | hunselected
  · rw [IsPlace, shiftedTarget, ← survivors_backToFront, ← survivors_backToFront _ _ (t.items.take _)] at hplace
    exact absurd hcheck hplace
  · exact selectedShown_flatMap hwf h (fun d hd => ⟨hrange d (hdone d hd), hroots d (hdone d hd)⟩) hplace
  · refine allShown_of_unmarked fun node hnode => ?_
    obtain ⟨d, hd, hnode⟩ := List.mem_flatMap.1 hnode
    exact not_selected_of_movesUnselected hunselected (hdone d hd) node hnode

/-! ## Moves by the keyboard -/

/-- The place of a node that is shown is shown. -/
theorem shows_levelAt (hidx : idx < t.items.length) (hshown : t.Shown idx) :
    Shows (limitAfter (t.items.take idx)) (levelAt t.items idx) := by
  rw [levelAt_of_lt hidx]
  exact hshown _ (List.getElem?_eq_getElem hidx)

/-- A shift by one level goes as far as it can. -/
theorem exists_shiftLevels_succ (first : ℕ) (nodes : List Node) : ∃ zs : List (Node × Node),
    zs.map Prod.fst = nodes ∧ zs.map Prod.snd = (shiftLevels (first + 1) first nodes).1 ∧
      (∀ z ∈ zs, Releveled Node.unfolded Node.selected z.1 z.2 ∧ z.1.level ≤ z.2.level ∧
        z.2.level ≤ z.1.level + 1) ∧
      zs.Pairwise fun a b => a.2.level < b.2.level → a.1.level < b.1.level := by
  induction nodes with
  | nil => exact ⟨[], rfl, rfl, by simp, .nil⟩
  | cons node rest ih =>
    rw [shiftLevels]
    split
    next =>
      -- this node and those behind it stay
      have hsame : ∀ g : Node × Node → Node, (∀ y, g (y, y) = y) →
          ((node :: rest).map fun y => (y, y)).map g = node :: rest := fun g hg => by
        have hid : g ∘ (fun y => (y, y)) = id := funext hg
        rw [List.map_map, hid, List.map_id]
      refine ⟨(node :: rest).map fun y => (y, y), hsame _ fun _ => rfl, hsame _ fun _ => rfl, ?_, ?_⟩
      · exact List.forall_mem_map.2 fun y _ => ⟨⟨rfl, rfl⟩, le_rfl, Nat.le_succ _⟩
      · exact List.pairwise_map.2 (List.pairwise_of_forall fun _ _ hlt => hlt)
    next =>
      obtain ⟨zs, hfst, hsnd, hlevels, hpairs⟩ := ih
      refine ⟨(node, { node with level := first + 1 + node.level - first }) :: zs, ?_, ?_, ?_, ?_⟩
      · rw [List.map_cons, hfst]
      · rw [List.map_cons, hsnd]
      · refine List.forall_mem_cons.2 ⟨⟨⟨rfl, rfl⟩, ?_, ?_⟩, hlevels⟩ <;> (dsimp only; omega)
      · refine List.pairwise_cons.2 ⟨fun z hz hlt => ?_, hpairs⟩
        obtain ⟨-, -, hle⟩ := hlevels z hz
        dsimp only at hlt ⊢
        omega

/-- A subtree is indented, or as much of it as can be. -/
theorem selectsVisible_indent (h : t.SelectsVisible) (hidx : idx < t.items.length) (hshown : t.Shown idx)
    (hfit : levelAt t.items idx < maxLevel)
    (hshows : Shows (limitAfter (t.items.take idx)) (levelAt t.items idx + 1)) :
    (t.shiftInPlace idx (subtreeEnd t.items idx) (levelAt t.items idx + 1)).2.SelectsVisible := by
  rw [selectsVisible_iff, SelectedShown] at h ⊢
  obtain ⟨pre, x, sub, rest, heq, hget, rfl, htake, hslice, hrest, hbelow⟩ := exists_split hidx
  rw [htake] at hshows
  rw [levelAt_split heq] at hshows hfit ⊢
  obtain ⟨zs, hfst, hsnd, hlevels, hpairs⟩ := exists_shiftLevels_succ x.level sub
  have hitems : (t.shiftInPlace pre.length (subtreeEnd t.items pre.length) (x.level + 1)).2.items
      = pre ++ ({ x with level := x.level + 1 } :: zs.map Prod.snd ++ rest) := by
    have hroot : x.level + 1 + x.level - x.level = x.level + 1 := by omega
    rw [shiftInPlace_snd, hslice, htake, hrest, hsnd, shiftSubtreeToLevel, shiftLevels, if_neg (by omega), hroot]
    simp
  have hdeeper : ∀ z ∈ zs, x.level < z.1.level := fun z hz => hbelow.deeper z.1 (hfst ▸ List.mem_map_of_mem hz)
  rw [heq, allShown_subtree hbelow, ← hfst] at h
  rw [hitems]
  have hge : ∀ y ∈ { x with level := x.level + 1 } :: zs.map Prod.snd, x.level + 1 ≤ y.level :=
    List.forall_mem_cons.2 ⟨le_rfl, List.forall_mem_map.2 fun z hz => (hdeeper z hz).trans_le (hlevels z hz).2.1⟩
  refine (allShown_between hge fun y hy => (hbelow.behind y hy).trans (Nat.le_succ _)).2 ⟨h.1, ?_⟩
  exact AllShown.subtree h.2 ((shown_length heq).1 hshown) hshows ⟨rfl, rfl⟩ hdeeper
    (fun z hz => (hlevels z hz).1) hpairs

/-- A subtree is shifted to a level that is shown, in front of nodes that are not deeper. -/
theorem selectsVisible_shiftInPlace (hwf : t.WellFormed) (h : t.SelectsVisible) (hidx : idx < t.items.length)
    (hshown : t.Shown idx) (hshows : Shows (limitAfter (t.items.take idx)) m)
    (hbehind : ∀ y ∈ (t.items.drop (subtreeEnd t.items idx)).head?, y.level ≤ m)
    (hrun : t.shiftInPlace idx (subtreeEnd t.items idx) m = (.ok (), t')) : t'.SelectsVisible := by
  have hge := (stepsFrom_movedSubtree hwf.steps hidx (le_refl m)).2
  rw [selectsVisible_iff] at h ⊢
  have hmoved := selectedShown_movedSubtree h hidx hshown hshows
  obtain ⟨pre, x, sub, rest, heq, hget, rfl, htake, hslice, hrest, hbelow⟩ := exists_split hidx
  rw [htake] at hmoved
  rw [SelectedShown, heq, allShown_subtree hbelow] at h
  rw [shiftInPlace_of_ok hidx hrun, htake, hrest, List.append_assoc]
  rw [hrest] at hbehind
  exact (allShown_between hge hbehind).2 ⟨h.1, hmoved⟩

/-- What is left when one subtree is taken out, before a place behind it. -/
theorem survivors_take_singleton {items : List Node} {n : ℕ} (hidx : idx < items.length)
    (hn : subtreeEnd items idx ≤ n) (hlen : n ≤ items.length) :
    survivors items [idx] (items.take n) = items.take idx ++ slice items (subtreeEnd items idx) n := by
  have hlt : idx < subtreeEnd items idx := lt_subtreeEnd hidx
  rw [survivors_singleton hidx (by rw [List.length_take]; omega), List.take_take, Nat.min_eq_left (by omega), slice]

/-- One node that is shown is moved to a place that is shown. -/
theorem selectsVisible_moveOne (hwf : t.WellFormed) (h : t.SelectsVisible) (hshown : t.Shown idx)
    (hplace : PlaceShown t [idx] target) {result : Except MoveError Unit}
    (hrun : t.moveItems [idx] target = .ok (result, t')) : t'.SelectsVisible :=
  selectsVisible_moveItems hwf h (unnested_singleton t idx) (List.forall_mem_singleton.2 hshown)
    (.inr (.inr (.inl hplace))) hrun

/-- A node is indented behind a visible node that it becomes a child of, or that is deeper. -/
theorem selectsVisible_under (hwf : t.WellFormed) (h : t.SelectsVisible) (hidx : t.toDisplayed vidx = some idx)
    (hround : ¬ IndentsAround t vidx .up f) {nodeIdx : ℕ} {node : Node}
    (hpred : t.visiblePredecessor idx = some nodeIdx) (hnode : t.items[nodeIdx]? = some node)
    (hinto : (levelAt t.items idx ≤ node.level ∧ f node ∧ node.unfolded) ∨ levelAt t.items idx < node.level) :
    (t.shiftInPlace idx (subtreeEnd t.items idx) (wrappingAdd (levelAt t.items idx) 1)).2.SelectsVisible := by
  obtain ⟨hlt, hshown, -⟩ := toDisplayed_eq_some_iff.1 hidx
  have hfits : levelAt t.items idx ≤ maxLevel := by
    rw [levelAt_of_lt hlt]
    exact hwf.fits _ (List.getElem_mem hlt)
  rcases hfits.lt_or_eq with hfit | hmax
  · rw [wrappingAdd_one hfit]
    obtain ⟨pre, y, below, htake, hends, hpred'⟩ :=
      exists_endsIn hlt (levelAt_visiblePredecessor hpred).1 hshown
    obtain rfl : pre.length = nodeIdx := Option.some.inj (hpred'.symm.trans hpred)
    have hget : (t.items.take idx)[pre.length]? = some y := by simp [htake]
    have hlen : pre.length < idx := visiblePredecessor_lt hpred
    rw [List.getElem?_take, if_pos hlen] at hget
    obtain rfl := Option.some.inj (hnode.symm.trans hget)
    have hadopts : Adopts f (t.items.take idx) (levelAt t.items idx) := ⟨pre, node, below, htake, hends, hinto⟩
    exact selectsVisible_indent h hlt hshown hfit hadopts.shows
  · -- the node comes to stand at level 0, and nothing behind it is deeper
    have hwrap : wrappingAdd (levelAt t.items idx) 1 = 0 := by rw [hmax]; rfl
    have hnodeFits := hwf.fits node (List.mem_of_getElem? hnode)
    obtain ⟨hle, hgroup, hunfolded⟩ := hinto.resolve_right (by omega)
    have hend := subtreeEnd_of_maxLevel hwf hlt hmax
    have hbehind : ∀ y ∈ (t.items.drop (subtreeEnd t.items idx)).head?, y.level ≤ 0 := by
      intro y hy
      rw [hend, List.head?_drop] at hy
      by_contra hdeep
      refine hround ⟨idx, nodeIdx, node, rfl, hidx, hmax, hpred, hnode, by omega, hgroup, hunfolded, ?_⟩
      rw [levelAt, Option.mem_def.1 hy]
      exact not_le.1 hdeep
    have hok : (t.shiftInPlace idx (subtreeEnd t.items idx) 0).1 = .ok () := by
      obtain ⟨pre, x, sub, rest, heq, -, rfl, -, -, -, hbelow⟩ := exists_split hlt
      rw [shiftInPlace_split heq hbelow fun y hy => ?_]
      have hfits := hwf.fits y (mem_items_of_mem_subtree heq hy)
      omega
    rw [hwrap]
    exact selectsVisible_shiftInPlace hwf h hlt hshown (fun l _ => Nat.zero_le l) hbehind (Prod.ext hok rfl)

/-- A move by the keyboard does not hide what is selected, unless it indents past the largest level. -/
theorem selectsVisible_movesItem (hwf : t.WellFormed) (h : t.SelectsVisible) {vidx' : ℕ} {direction : MoveDir}
    (hidx : t.toDisplayed vidx = some idx) (hround : ¬ IndentsAround t vidx direction f)
    (hmove : MovesItem t f vidx idx direction vidx' t') : t'.SelectsVisible := by
  obtain ⟨hlt, hshown, -⟩ := toDisplayed_eq_some_iff.1 hidx
  have hshows := shows_levelAt hlt hshown
  have hend : idx < subtreeEnd t.items idx := lt_subtreeEnd hlt
  cases hmove with
  | stays => exact h
  | out hbehind hshift =>
    refine selectsVisible_shiftInPlace hwf h hlt hshown (hshows.mono (Nat.sub_le _ _)) (fun y hy => ?_) hshift
    have hless := hbehind y hy
    omega
  | @into node _ hnode hle hunfolded hgroup hmoves =>
    -- the place is below an unfolded node that is shown
    refine selectsVisible_moveOne hwf h hshown ?_ hmoves
    obtain ⟨hin, rfl⟩ := List.getElem?_eq_some_iff.1 hnode
    have hlevel : t.items[subtreeEnd t.items idx].level ≤ levelAt t.items idx :=
      head_drop_subtreeEnd hlt _ (by rw [List.head?_drop]; exact hnode)
    have hslice : slice t.items (subtreeEnd t.items idx) (subtreeEnd t.items idx + 1)
        = [t.items[subtreeEnd t.items idx]] := by
      rw [slice, List.take_succ_eq_append_getElem hin, List.drop_left' (by rw [List.length_take]; omega)]
    rw [PlaceShown, survivors_take_singleton hlt (Nat.le_succ _) hin, hslice, limitAfter_append_eq,
      limitAfter_cons, limitStep_of_shows (hshows.mono hlevel), if_pos hunfolded]
    exact shows_none
  | @past node _ hnode hle hleaf hmoves =>
    -- the place is behind a sibling
    refine selectsVisible_moveOne hwf h hshown ?_ hmoves
    obtain ⟨hin, rfl⟩ := List.getElem?_eq_some_iff.1 hnode
    obtain ⟨sub, hsub, hge⟩ := exists_slice_eq_cons hin
    have hpassed : subtreeEnd t.items idx < subtreeEnd t.items (subtreeEnd t.items idx) := lt_subtreeEnd hin
    rw [PlaceShown, survivors_take_singleton hlt hpassed.le (subtreeEnd_le_length hin), hsub, limitAfter_append_eq]
    exact ((agree_limitAfter fun y hy => hle.trans (hge y hy)).shows_iff le_rfl).1 hshows
  | @under nodeIdx node _ hpred hnode hinto hshift =>
    have hunder := selectsVisible_under hwf h hidx hround hpred hnode hinto
    rwa [hshift] at hunder
  | @before nodeIdx node _ hpred hnode hle hmoves =>
    -- the place is that of a visible node
    refine selectsVisible_moveOne hwf h hshown ?_ hmoves
    obtain ⟨p, hpred', -, hshown', -⟩ :=
      visiblePredecessor_spec hlt (levelAt_visiblePredecessor hpred).1 hshown
    obtain rfl := Option.some.inj (hpred.symm.trans hpred')
    have hplace := hshown' node hnode
    rwa [PlaceShown, survivors_take nodeIdx (List.forall_mem_singleton.2 (visiblePredecessor_lt hpred).le)]

/-- So it is when the move fails. -/
theorem selectsVisible_moveItem (hwf : t.WellFormed) (h : t.SelectsVisible) {direction : MoveDir}
    (hround : ¬ IndentsAround t vidx direction f) {result : Except MoveError ℕ}
    (hrun : t.moveItem vidx direction f = .ok (result, t')) : t'.SelectsVisible := by
  rcases result with e | vidx'
  · rcases moveItem_error_cases hrun with rfl | ⟨idx, hidx, ⟨rfl, hshift⟩ | ⟨rfl, haddend, hshift⟩⟩
    · exact h
    · have hok := shiftInPlace_outdent_ok hwf (lt_of_toDisplayed hidx)
      rw [hshift] at hok
      cases hok
    · simp only [Move.addend, hidx, Option.bind_some, Option.bind_eq_some_iff] at haddend
      obtain ⟨nodeIdx, hpred, node, hnode, hlevel⟩ := haddend
      split at hlevel
      next hinto =>
        have hunder := selectsVisible_under hwf h hidx hround hpred hnode hinto
        rwa [hshift] at hunder
      next => cases hlevel
  · obtain ⟨idx, hidx, hmove⟩ := movesItem_of_ok hrun
    exact selectsVisible_movesItem hwf h hidx hround hmove

/-! ## Runs -/

/-- What the user drags: the visible nodes that are selected, the one with the focus, and the one the drag
started at. -/
def DisplayedItemTree.dragged (t : DisplayedItemTree) (focused : Option ℕ) (source : ℕ) : List ℕ :=
  t.visible.filter (fun i => (t.items[i]?).any Node.selected) ++ (focused.bind t.toDisplayed).toList
    ++ (t.toDisplayed source).toList

/-- What the user does to the tree. Moves by the keyboard tell which nodes may have children. -/
inductive Gesture where
  | insertItem (item : DisplayedItemRef) (position : TargetPosition)
  | xselect (vidx : ℕ) (selected : Bool)
  | xselectAllVisible (selected : Bool)
  | xselectVisibleRange (start end_ : ℕ) (selected : Bool)
  | xfold (item : ℕ) (unfolded : Bool)
  | xfoldRecursive (item : ℕ) (unfolded : Bool)
  | xfoldAll (unfolded : Bool)
  | moveItem (vidx : ℕ) (direction : MoveDir) (f : Node → Bool)
  | drag (focused : Option ℕ) (source : ℕ) (target : TargetPosition)

namespace Gesture

/-- The tree afterwards, also when an insertion or a move is refused. -/
def apply (t : DisplayedItemTree) : Gesture → Run DisplayedItemTree
  | insertItem item position => .ok (t.insertItem item position).2
  | xselect vidx selected => .ok (t.xselect vidx selected)
  | xselectAllVisible selected => .ok (t.xselectAllVisible selected)
  | xselectVisibleRange start end_ selected => .ok (t.xselectVisibleRange start end_ selected)
  | xfold item unfolded => t.xfold item unfolded
  | xfoldRecursive item unfolded => t.xfoldRecursive item unfolded
  | xfoldAll unfolded => .ok (t.xfoldAll unfolded)
  | moveItem vidx direction f => (t.moveItem vidx direction f).map Prod.snd
  | drag focused source target => (t.moveItems (t.dragged focused source) target).map Prod.snd

/-- What leaves selected nodes in view. No move by the keyboard indents past the largest level. In a drag no
dragged node is inside of another one, and the move is refused, its place is shown, or nothing that is moved is
selected. -/
def KeepsInView (t : DisplayedItemTree) : Gesture → Prop
  | moveItem vidx direction f => ¬ IndentsAround t vidx direction f
  | drag focused source target =>
    let indices := t.dragged focused source
    Unnested t indices ∧ (Refused t indices target ∨ ¬ IsPlace t indices target ∨ PlaceShown t indices target ∨
      MovesUnselected t indices)
  | _ => True

end Gesture

/-- What is dragged is visible. -/
theorem shown_of_mem_dragged {focused : Option ℕ} {source : ℕ} (h : i ∈ t.dragged focused source) : t.Shown i := by
  have hvisible : ∀ {vidx}, t.toDisplayed vidx = some i → i ∈ t.visible := List.mem_of_getElem?
  simp only [DisplayedItemTree.dragged, List.mem_append, List.mem_filter, Option.mem_toList,
    Option.bind_eq_some_iff] at h
  refine (mem_visible_iff.1 ?_).2
  rcases h with (⟨h, -⟩ | ⟨vidx, -, h⟩) | h
  · exact h
  · exact hvisible h
  · exact hvisible h

theorem wellFormed_gesture (hwf : t.WellFormed) {gesture : Gesture} (hkeeps : gesture.KeepsInView t)
    (hrun : gesture.apply t = .ok t') : t'.WellFormed := by
  cases gesture with
  | insertItem item position =>
    rw [← Except.ok.inj hrun]
    exact wellFormed_insertItem hwf item position
  | xselect vidx selected =>
    rw [← Except.ok.inj hrun]
    exact wellFormed_xselect hwf vidx selected
  | xselectAllVisible selected =>
    rw [← Except.ok.inj hrun]
    exact wellFormed_xselectAllVisible hwf selected
  | xselectVisibleRange start end_ selected =>
    rw [← Except.ok.inj hrun]
    exact wellFormed_xselectVisibleRange hwf start end_ selected
  | xfold item unfolded => exact wellFormed_xfold hwf hrun
  | xfoldRecursive item unfolded => exact wellFormed_xfoldRecursive hwf hrun
  | xfoldAll unfolded =>
    rw [← Except.ok.inj hrun]
    exact wellFormed_xfoldAll hwf unfolded
  | moveItem vidx direction f =>
    obtain ⟨result, hmove⟩ := snd_eq_of_map_snd hrun
    refine wellFormed_moveItem hwf ?_ hmove
    rintro rfl ⟨idx, nodeIdx, node, hidx, hmax, hpred, hnode, hlevel, hf, hunfolded, hnext⟩
    exact hkeeps ⟨idx, nodeIdx, node, rfl, hidx, hmax, hpred, hnode, hlevel, hf, hunfolded, by omega⟩
  | drag focused source target =>
    obtain ⟨result, hmove⟩ := snd_eq_of_map_snd hrun
    exact wellFormed_moveItems hwf hkeeps.1 hmove

/-- One step. -/
theorem selectsVisible_gesture (hwf : t.WellFormed) (h : t.SelectsVisible) {gesture : Gesture}
    (hkeeps : gesture.KeepsInView t) (hrun : gesture.apply t = .ok t') : t'.SelectsVisible := by
  cases gesture with
  | insertItem item position =>
    rw [← Except.ok.inj hrun]
    exact selectsVisible_insertItem hwf h item position
  | xselect vidx selected =>
    rw [← Except.ok.inj hrun]
    exact selectsVisible_xselect h vidx selected
  | xselectAllVisible selected =>
    rw [← Except.ok.inj hrun]
    exact selectsVisible_xselectAllVisible h selected
  | xselectVisibleRange start end_ selected =>
    rw [← Except.ok.inj hrun]
    exact selectsVisible_xselectVisibleRange h start end_ selected
  | xfold item unfolded => exact selectsVisible_xfold h hrun
  | xfoldRecursive item unfolded => exact selectsVisible_xfoldRecursive h hrun
  | xfoldAll unfolded =>
    rw [← Except.ok.inj hrun]
    exact selectsVisible_xfoldAll h unfolded
  | moveItem vidx direction f =>
    obtain ⟨result, hmove⟩ := snd_eq_of_map_snd hrun
    exact selectsVisible_moveItem hwf h hkeeps hmove
  | drag focused source target =>
    obtain ⟨result, hmove⟩ := snd_eq_of_map_snd hrun
    exact selectsVisible_moveItems hwf h hkeeps.1 (fun i hi => shown_of_mem_dragged hi) hkeeps.2 hmove

/-- No node. -/
def emptyTree : DisplayedItemTree := { items := [] }

/-- In every run from the empty tree whose steps keep what is selected in view, all selected nodes are
visible. -/
theorem selectsVisible_of_reachable (h : Transition.Reachable Gesture.apply Gesture.KeepsInView emptyTree t) :
    t.SelectsVisible := by
  have hstart : emptyTree.WellFormed ∧ emptyTree.SelectsVisible :=
    ⟨⟨trivial, by simp [emptyTree]⟩, by simp [SelectsVisible, emptyTree]⟩
  refine (h.invariant (I := fun t => t.WellFormed ∧ t.SelectsVisible) hstart ?_).2
  exact fun s gesture s' hs hkeeps hstep =>
    ⟨wellFormed_gesture hs.1 hkeeps hstep, selectsVisible_gesture hs.1 hs.2 hkeeps hstep⟩

/-- A selected node is dragged behind another one. -/
theorem selectsVisible_of_reachable_drag : ∃ t, Transition.run Gesture.apply emptyTree
    [.insertItem 1 ⟨0, 0⟩, .insertItem 2 ⟨1, 0⟩, .xselect 0 true, .drag none 0 ⟨2, 0⟩] = .ok t ∧
      t.items = [⟨2, 0, true, false⟩, ⟨1, 0, true, true⟩] ∧ t.SelectsVisible := by
  refine ⟨{ items := [⟨2, 0, true, false⟩, ⟨1, 0, true, true⟩] }, by decide, rfl, ?_⟩
  let t₁ : DisplayedItemTree := { items := [⟨1, 0, true, false⟩] }
  let t₂ : DisplayedItemTree := { items := [⟨1, 0, true, false⟩, ⟨2, 0, true, false⟩] }
  let t₃ : DisplayedItemTree := { items := [⟨1, 0, true, true⟩, ⟨2, 0, true, false⟩] }
  let insert₁ : Gesture := .insertItem 1 ⟨0, 0⟩
  let insert₂ : Gesture := .insertItem 2 ⟨1, 0⟩
  let select : Gesture := .xselect 0 true
  have h₁ : Transition.Reachable Gesture.apply Gesture.KeepsInView emptyTree t₁ :=
    .step (a := insert₁) .start trivial rfl
  have h₂ : Transition.Reachable Gesture.apply Gesture.KeepsInView emptyTree t₂ := h₁.step (a := insert₂) trivial rfl
  have h₃ : Transition.Reachable Gesture.apply Gesture.KeepsInView emptyTree t₃ := h₂.step (a := select) trivial rfl
  have hplace : PlaceShown t₃ (t₃.dragged none 0) ⟨2, 0⟩ := by
    show Shows _ _
    decide
  have hkeeps : (Gesture.drag none 0 ⟨2, 0⟩).KeepsInView t₃ := ⟨by decide, .inr (.inr (.inl hplace))⟩
  exact selectsVisible_of_reachable (h₃.step hkeeps (by decide))

/-- A group is folded, and the node behind it is selected and dragged below the child of the group. -/
def behindFolded : List Gesture :=
  [.insertItem 1 ⟨0, 0⟩, .insertItem 2 ⟨1, 1⟩, .insertItem 3 ⟨2, 0⟩, .xfold 0 false, .xselect 1 true,
    .drag none 1 ⟨3, 1⟩]

/-- The dragged node is hidden by the folded group, and stays selected. -/
theorem not_selectsVisible_behindFolded :
    ∃ t, Transition.run Gesture.apply emptyTree behindFolded = .ok t ∧ ¬ t.SelectsVisible := by
  refine ⟨{ items := [⟨1, 0, false, false⟩, ⟨2, 1, true, false⟩, ⟨3, 1, true, true⟩] }, by decide, ?_⟩
  intro h
  have hvisible := (h 2 ⟨3, 1, true, true⟩ rfl rfl).1
  revert hvisible
  decide

end ItemTree
