import Kahuna.ItemTree.MoveItems
import Kahuna.ItemTree.Basic
import Kahuna.Outline.Ancestors
import Mathlib.Data.List.InsertIdx

/-!
# Well-formed trees

A tree is well formed when its first node has level 0 and no node is more than one level deeper than the
one before it. Every operation of `displayed_item_tree.rs` is meant to keep trees well formed, and taking
nodes out is meant to leave the ancestors of all other nodes as they are.

* `WellFormed`: the invariant;
* `lineages`: the ancestors of each node, by their references;
* `Operation`, `Operation.Preserves`: the operations and what they promise;
* `wellFormed_moveItems`, `wellFormed_moveItem`: what moves keep well formed;
* `operations_preserve`: the operations keep their promise, except that `move_items` may not when a
  selected node lies in the subtree of another one, and that `move_item` does not when it indents a node
  past the largest level.
-/

namespace ItemTree

open Outline DisplayedItemTree

/-- The invariant of the tree. Levels are `u8`. -/
structure DisplayedItemTree.WellFormed (t : DisplayedItemTree) : Prop where
  steps : StepsFrom Node.level 0 t.items
  fits : ∀ node ∈ t.items, node.level ≤ maxLevel

/-! ## Lineages -/

/-- The reference of each node, with those of its ancestors from the innermost on. -/
def lineages (items : List Node) : List (DisplayedItemRef × List DisplayedItemRef) :=
  (items.map Node.itemRef).zip ((paths Node.level items).map (List.map Node.itemRef))

/-- The lineages with the node at `item` left out of the ancestors. -/
def lineagesWithout (item : ℕ) (items : List Node) :
    List (DisplayedItemRef × List DisplayedItemRef) :=
  (items.map Node.itemRef).zip
    ((paths (fun x : Node × ℕ => x.1.level) items.zipIdx).map fun path =>
      (path.filter (·.2 ≠ item)).map (·.1.itemRef))

/-- The lineages of the nodes that do not satisfy `f` and have no ancestor that does. -/
def lineagesOutside (f : Node → Bool) (items : List Node) :
    List (DisplayedItemRef × List DisplayedItemRef) :=
  ((items.zip (paths Node.level items)).filter fun m => !f m.1 && !m.2.any f).map fun m =>
    (m.1.itemRef, m.2.map Node.itemRef)

/-! ## Operations -/

/-- A call of an operation of the tree. -/
inductive Operation where
  | insertItem (item : DisplayedItemRef) (position : TargetPosition)
  | removeRecursive (item : ℕ)
  | removeDissolve (item : ℕ)
  | drainRecursiveIf (f : Node → Bool)
  | moveItem (vidx : ℕ) (direction : MoveDir) (f : Node → Bool)
  | moveItems (indices : List ℕ) (target : TargetPosition)
  | xfold (item : ℕ) (unfolded : Bool)
  | xfoldAll (unfolded : Bool)
  | xfoldRecursive (item : ℕ) (unfolded : Bool)
  | xselect (vidx : ℕ) (selected : Bool)
  | xselectAllVisible (selected : Bool)
  | xselectVisibleRange (start end_ : ℕ) (selected : Bool)

namespace Operation

/-- The tree after the call, whether it is refused or not. -/
def apply (t : DisplayedItemTree) : Operation → Run DisplayedItemTree
  | insertItem item position => .ok (t.insertItem item position).2
  | removeRecursive item => (t.removeRecursive item).map Prod.snd
  | removeDissolve item => (t.removeDissolve item).map Prod.snd
  | drainRecursiveIf f => .ok (t.drainRecursiveIf f).2
  | moveItem vidx direction f => (t.moveItem vidx direction f).map Prod.snd
  | moveItems indices target => (t.moveItems indices target).map Prod.snd
  | xfold item unfolded => t.xfold item unfolded
  | xfoldAll unfolded => .ok (t.xfoldAll unfolded)
  | xfoldRecursive item unfolded => t.xfoldRecursive item unfolded
  | xselect vidx selected => .ok (t.xselect vidx selected)
  | xselectAllVisible selected => .ok (t.xselectAllVisible selected)
  | xselectVisibleRange start end_ selected => .ok (t.xselectVisibleRange start end_ selected)

/-- What an operation that takes nodes out does to the ancestors of the nodes that stay. -/
def KeepsAncestors (t t' : DisplayedItemTree) : Operation → Prop
  | removeRecursive item =>
    lineages t'.items
      = (lineages t.items).take item ++ (lineages t.items).drop (subtreeEnd t.items item)
  | removeDissolve item => lineages t'.items = (lineagesWithout item t.items).eraseIdx item
  | drainRecursiveIf f => lineages t'.items = lineagesOutside f t.items
  | _ => True

/-- A call that goes through leaves a well-formed tree with the ancestors that it should have. -/
def Preserves (t : DisplayedItemTree) (op : Operation) : Prop :=
  ∀ t', op.apply t = .ok t' → t'.WellFormed ∧ op.KeepsAncestors t t'

end Operation

variable {t t' : DisplayedItemTree}

/-! ## Adding and removing -/

/-- A place that was checked lets a node in. -/
theorem bounds_of_checkLocation {items : List Node} {target : TargetPosition}
    (hsteps : StepsFrom Node.level 0 items) (hfits : ∀ node ∈ items, node.level ≤ maxLevel)
    (h : checkLocation items target = .ok ()) :
    target.level ≤ boundAfter Node.level 0 (items.take target.before) ∧
      target.level ≤ maxLevel ∧ ∀ x ∈ (items.drop target.before).head?, x.level ≤ target.level := by
  have hbefore := before_le_of_checkLocation h
  rw [checkLocation, if_neg (by omega)] at h
  cases hpos : target.before with
  | zero =>
    rw [hpos] at h
    have hlevel : target.level = 0 := by simpa using h
    refine ⟨by omega, by omega, fun x hx => ?_⟩
    have hhead := hsteps.head_le x hx
    omega
  | succ k =>
    have hk : k < items.length := by omega
    have htake : items.take (k + 1) = items.take k ++ [items[k]] := List.take_succ_eq_append_getElem hk
    rw [htake, boundAfter_concat]
    have hfit := hfits items[k] (List.getElem_mem hk)
    simp only [hpos, Nat.add_one_ne_zero, if_false, Nat.add_sub_cancel, List.getElem?_eq_getElem hk,
      Option.map_some] at h
    have hrange : ∀ {lo hi : ℕ}, (if lo ≤ target.level ∧ target.level ≤ hi then Except.ok ()
        else Except.error MoveError.invalidLevel) = Except.ok () →
          lo ≤ target.level ∧ target.level ≤ hi := by
      intro lo hi h
      by_contra hnot
      rw [if_neg hnot] at h
      cases h
    rw [List.head?_drop]
    cases hafter : items[k + 1]? with
    | none =>
      simp only [hafter, Option.map_none, saturatingAdd] at h
      have hlevel := hrange h
      exact ⟨by omega, by omega, by simp⟩
    | some after =>
      have hfit' := hfits after (List.mem_of_getElem? hafter)
      have hle : after.level ≤ items[k].level + 1 := by
        have hdrop := (stepsFrom_append.1 (List.take_append_drop (k + 1) items ▸ hsteps)).2
        rw [htake, boundAfter_concat] at hdrop
        exact hdrop.head_le after (by rw [List.head?_drop, hafter]; rfl)
      simp only [hafter, Option.map_some, saturatingAdd] at h
      have hlevel := hrange h
      have hbounds : after.level ≤ target.level ∧ target.level ≤ items[k].level + 1 ∧
          target.level ≤ maxLevel := by
        split_ifs at hlevel <;> omega
      refine ⟨hbounds.2.1, hbounds.2.2, fun x hx => ?_⟩
      obtain rfl : after = x := by simpa using hx
      exact hbounds.1

theorem wellFormed_insertItem (h : t.WellFormed) (item : DisplayedItemRef)
    (position : TargetPosition) : (t.insertItem item position).2.WellFormed := by
  rw [insertItem]
  cases hcheck : checkLocation t.items position with
  | error e => exact h
  | ok u =>
    obtain ⟨hbound, hmax, hafter⟩ := bounds_of_checkLocation h.steps h.fits hcheck
    have hsplit := List.take_append_drop position.before t.items
    have hsteps := h.steps
    rw [← hsplit, stepsFrom_append] at hsteps
    refine ⟨stepsFrom_append.2 ⟨hsteps.1, hbound, ?_⟩, ?_⟩
    · exact hsteps.2.of_head_le fun x hx => (hafter x hx).trans (Nat.le_succ _)
    · intro node hnode
      rcases List.mem_append.1 hnode with hnode | hnode
      · exact h.fits node (List.mem_of_mem_take hnode)
      rcases List.mem_cons.1 hnode with rfl | hnode
      · exact hmax
      · exact h.fits node (List.mem_of_mem_drop hnode)

/-- A list cut around the subtree of a node. -/
theorem exists_split {items : List Node} {i : ℕ} (hi : i < items.length) : ∃ pre x sub rest,
    items = pre ++ x :: (sub ++ rest) ∧ items[i]? = some x ∧ i = pre.length ∧
      items.take i = pre ∧ slice items i (subtreeEnd items i) = x :: sub ∧
        items.drop (subtreeEnd items i) = rest ∧ Below Node.level x sub rest := by
  obtain ⟨pre, sub, rest, heq, hpre, hend, hbelow⟩ := @exists_subtree_split _ Node.level items i hi
  have hend' : subtreeEnd items i = (pre ++ items[i] :: sub).length := by
    rw [subtreeEnd, hend, List.length_append, List.length_cons]
    omega
  have heq' : items = (pre ++ items[i] :: sub) ++ rest := by
    rw [List.append_assoc, List.cons_append]
    exact heq
  have hget : items[i]? = some items[i] := List.getElem?_eq_getElem hi
  generalize items[i] = x at *
  refine ⟨pre, x, sub, rest, heq, hget, hpre.symm, ?_, ?_, ?_, hbelow⟩
  · rw [heq, List.take_left' hpre]
  · rw [slice, hend', heq', List.take_left, List.drop_left' hpre]
  · rw [hend', heq', List.drop_left]

theorem lineages_remove {pre sub rest : List Node} {x : Node} (hbelow : Below Node.level x sub rest) :
    lineages (pre ++ rest) = (lineages (pre ++ x :: (sub ++ rest))).take pre.length
      ++ (lineages (pre ++ x :: (sub ++ rest))).drop (pre.length + 1 + sub.length) := by
  have hpre : (pre ++ x :: (sub ++ rest)).take pre.length = pre := List.take_left
  have hrest : (pre ++ x :: (sub ++ rest)).drop (pre.length + 1 + sub.length) = rest := by
    rw [← List.cons_append, ← List.append_assoc, List.drop_left']
    rw [List.length_append, List.length_cons]
    omega
  rw [lineages, lineages, paths_remove hbelow, List.zip_eq_zipWith, List.zip_eq_zipWith,
    List.take_zipWith, List.drop_zipWith, ← List.map_take, ← List.map_drop, ← List.map_take,
    ← List.map_drop, hpre, hrest, List.map_append, List.map_append, List.zipWith_append]
  simp [paths]

theorem preserves_removeRecursive (h : t.WellFormed) (item : ℕ) :
    (Operation.removeRecursive item).Preserves t := by
  intro t' hrun
  have hlt : item < t.items.length := by
    by_contra hle
    simp [Operation.apply, removeRecursive, not_lt.1 hle, Except.map] at hrun
  have hrun' : t' = { items := t.items.take item ++ t.items.drop (subtreeEnd t.items item) } := by
    simpa [Operation.apply, removeRecursive, not_le.2 hlt, Except.map, eq_comm] using hrun
  obtain ⟨pre, x, sub, rest, heq, -, rfl, hpre, -, hrest, hbelow⟩ := exists_split hlt
  have hend : subtreeEnd t.items pre.length = pre.length + 1 + sub.length := by
    rw [heq]
    exact subtreeEnd_split pre hbelow
  subst hrun'
  rw [hpre, hrest]
  refine ⟨⟨stepsFrom_remove (heq ▸ h.steps) hbelow, fun node hnode => h.fits node ?_⟩, ?_⟩
  · rw [heq]
    simp only [List.mem_append, List.mem_cons] at hnode ⊢
    tauto
  · show lineages (pre ++ rest) = _
    rw [hend, lineages_remove hbelow, heq]

/-- The levels decide whether a tree is well formed. -/
theorem wellFormed_of_levels (h : t.WellFormed)
    (hlevels : t'.items.map Node.level = t.items.map Node.level) : t'.WellFormed := by
  have hsteps : ∀ items : List Node, StepsFrom Node.level 0 items
      ↔ StepsFrom id 0 (items.map Node.level) := fun items =>
    (@stepsFrom_map _ _ id 0 Node.level items).symm
  refine ⟨(hsteps _).2 (hlevels ▸ (hsteps _).1 h.steps), fun node hnode => ?_⟩
  have hmem : node.level ∈ t.items.map Node.level := hlevels ▸ List.mem_map_of_mem hnode
  obtain ⟨node', hnode', hlevel⟩ := List.mem_map.1 hmem
  exact hlevel ▸ h.fits node' hnode'

theorem eraseIdx_zip {α β : Type*} (xs : List α) (ys : List β) (i : ℕ) :
    (xs.zip ys).eraseIdx i = (xs.eraseIdx i).zip (ys.eraseIdx i) := by
  induction xs generalizing ys i with
  | nil => simp
  | cons x xs ih =>
    cases ys with
    | nil => simp
    | cons y ys =>
      cases i with
      | zero => rfl
      | succ i => simp [ih]

/-- The node one level up. -/
def raised (node : Node) : Node := { node with level := node.level - 1 }

/-- Nodes with labels have the ancestors that the nodes have. -/
theorem map_paths_labelled (labelled : List (Node × ℕ)) :
    (paths (fun x : Node × ℕ => x.1.level) labelled).map (List.map fun x => x.1.itemRef)
      = (paths Node.level (labelled.map Prod.fst)).map (List.map Node.itemRef) := by
  have hpaths := @pathsFrom_map _ _ Node.level Prod.fst [] labelled
  rw [List.map_nil] at hpaths
  rw [paths, paths, hpaths, List.map_map]
  refine List.map_congr_left fun path _ => ?_
  rw [Function.comp_apply, List.map_map]
  rfl

theorem lineages_dissolve {pre sub rest : List Node} {x : Node}
    (hsteps : StepsFrom Node.level 0 (pre ++ x :: (sub ++ rest)))
    (hbelow : Below Node.level x sub rest) :
    lineages (pre ++ (sub.map raised ++ rest))
      = (lineagesWithout pre.length (pre ++ x :: (sub ++ rest))).eraseIdx pre.length := by
  -- the nodes with their old indices
  let raise : Node × ℕ → Node × ℕ := fun y => (raised y.1, y.2)
  set old := (pre ++ x :: (sub ++ rest)).zipIdx with hold
  set subOld := sub.zipIdx (pre.length + 1) with hsubOld
  set restOld := rest.zipIdx (pre.length + 1 + sub.length) with hrestOld
  have hsplit : old = pre.zipIdx ++ (x, pre.length) :: (subOld ++ restOld) := by
    rw [hold, List.zipIdx_append, List.zipIdx_cons, List.zipIdx_append, Nat.zero_add]
  have hnew : pre ++ (sub.map raised ++ rest)
      = (pre.zipIdx ++ (subOld.map raise ++ restOld)).map Prod.fst := by
    have hsub : (subOld.map raise).map Prod.fst
        = sub.map raised := by
      conv_rhs => rw [← List.zipIdx_map_fst (pre.length + 1) sub]
      rw [List.map_map, List.map_map]
      rfl
    rw [List.map_append, List.map_append, List.zipIdx_map_fst, hsub, List.zipIdx_map_fst]
  have hstepsOld : StepsFrom (fun y : Node × ℕ => y.1.level) 0 old := by
    rw [← List.zipIdx_map_fst 0 (pre ++ x :: (sub ++ rest))] at hsteps
    exact stepsFrom_map.1 hsteps
  have hbelowOld : Below (fun y : Node × ℕ => y.1.level) (x, pre.length) subOld restOld := by
    refine ⟨fun y hy => hbelow.deeper y.1 (List.fst_mem_of_mem_zipIdx hy), fun y hy => ?_⟩
    rw [List.head?_zipIdx, Option.mem_def, Option.map_eq_some_iff] at hy
    obtain ⟨z, hz, rfl⟩ := hy
    exact hbelow.behind z hz
  have hkept : ∀ y ∈ pre.zipIdx ++ (subOld ++ restOld), decide (y.2 ≠ pre.length) = true := by
    intro y hy
    rw [decide_eq_true_eq]
    rcases List.mem_append.1 hy with hy | hy
    · have hlt := List.snd_lt_of_mem_zipIdx hy
      omega
    rcases List.mem_append.1 hy with hy | hy
    · have hle := List.le_snd_of_mem_zipIdx hy
      omega
    · have hle := List.le_snd_of_mem_zipIdx hy
      omega
  have hpaths : (paths (fun y : Node × ℕ => y.1.level)
        (pre.zipIdx ++ (subOld.map raise ++ restOld))).map (List.map fun y => y.1.itemRef)
      = ((paths (fun y : Node × ℕ => y.1.level) old).eraseIdx pre.zipIdx.length).map
          fun path => (path.filter fun y => y.2 ≠ pre.length).map fun y => y.1.itemRef := by
    rw [hsplit] at hstepsOld ⊢
    exact paths_dissolve (fun _ => rfl) (fun _ => rfl) hstepsOld hbelowOld (by simp) hkept
  have hrefs : (pre ++ (sub.map raised ++ rest)).map Node.itemRef
      = ((pre ++ x :: (sub ++ rest)).map Node.itemRef).eraseIdx pre.length := by
    rw [List.map_append, List.map_append, List.map_append, List.map_map, List.map_cons,
      List.map_append, List.eraseIdx_append_of_length_le (by simp), List.length_map, Nat.sub_self]
    rfl
  rw [List.length_zipIdx] at hpaths
  rw [lineages, hrefs, hnew, ← map_paths_labelled, hpaths,
    ← List.eraseIdx_map, ← eraseIdx_zip]
  rfl

/-! ## Folding and selecting -/

theorem wellFormed_xfold (h : t.WellFormed) {item : ℕ} {unfolded : Bool}
    (hrun : t.xfold item unfolded = .ok t') : t'.WellFormed :=
  wellFormed_of_levels h (map_xfold (fun _ _ _ => rfl) hrun)

theorem wellFormed_xfoldAll (h : t.WellFormed) (unfolded : Bool) :
    (t.xfoldAll unfolded).WellFormed :=
  wellFormed_of_levels h (map_xfoldAll (fun _ _ _ => rfl) t unfolded)

theorem wellFormed_xfoldRecursive (h : t.WellFormed) {item : ℕ} {unfolded : Bool}
    (hrun : t.xfoldRecursive item unfolded = .ok t') : t'.WellFormed :=
  wellFormed_of_levels h (map_xfoldRecursive (fun _ _ _ => rfl) hrun)

theorem wellFormed_xselect (h : t.WellFormed) (vidx : ℕ) (selected : Bool) :
    (t.xselect vidx selected).WellFormed :=
  wellFormed_of_levels h (map_xselect (fun _ _ => rfl) t vidx selected)

theorem wellFormed_xselectAllVisible (h : t.WellFormed) (selected : Bool) :
    (t.xselectAllVisible selected).WellFormed :=
  wellFormed_of_levels h (map_xselectAllVisible (fun _ _ => rfl) t selected)

theorem wellFormed_xselectVisibleRange (h : t.WellFormed) (start end_ : ℕ) (selected : Bool) :
    (t.xselectVisibleRange start end_ selected).WellFormed :=
  wellFormed_of_levels h (map_xselectVisibleRange (fun _ _ => rfl) t start end_ selected)

/-! ## Dissolving -/

/-- A node is dissolved: its children take its place. -/
theorem preserves_removeDissolve (h : t.WellFormed) (item : ℕ) :
    (Operation.removeDissolve item).Preserves t := by
  intro t' hrun
  have hlt : item < t.items.length := by
    by_contra hle
    simp [Operation.apply, removeDissolve, List.getElem?_eq_none (not_lt.1 hle), Except.map] at hrun
  obtain ⟨pre, x, sub, rest, heq, hget, rfl, hpre, hslice, hrest, hbelow⟩ := exists_split hlt
  have hslice' : slice t.items (pre.length + 1) (subtreeEnd t.items pre.length) = sub := by
    rw [slice, ← List.tail_drop, ← slice, hslice]
    rfl
  have hrun' : t' = { items := pre ++ (sub.map raised ++ rest) } := by
    have hraised : sub.map raised = sub.map fun x => { x with level := x.level - 1 } := rfl
    simpa [Operation.apply, removeDissolve, hget, hpre, hslice', hrest, Except.map, eq_comm, hraised]
      using hrun
  subst hrun'
  refine ⟨⟨stepsFrom_dissolve (fun _ => rfl) (heq ▸ h.steps) hbelow, fun node hnode => ?_⟩, ?_⟩
  · have hfits := h.fits
    rw [heq] at hfits
    simp only [List.mem_append, List.mem_cons, List.mem_map] at hnode hfits
    rcases hnode with hnode | ⟨y, hy, rfl⟩ | hnode
    · exact hfits node (.inl hnode)
    · exact (Nat.sub_le _ _).trans (hfits y (.inr (.inr (.inl hy))))
    · exact hfits node (.inr (.inr (.inr hnode)))
  · show lineages (pre ++ _) = _
    rw [heq]
    exact lineages_dissolve (heq ▸ h.steps) hbelow

/-! ## Draining -/

/-- The loop keeps the nodes that are in no subtree of a node that satisfies `f`. -/
theorem drainLoop_eq (f : Node → Bool) {steps : ℕ} {done todo : List Node}
    (removed : List DisplayedItemRef) (hsteps : todo.length ≤ steps)
    (hdone : ∀ y ∈ openedAfter Node.level [] done, f y = false) :
    (drainLoop f steps done.length removed (done ++ todo)).2
      = done ++ (pruneFrom Node.level f (openedAfter Node.level [] done) todo).map Prod.fst := by
  induction steps generalizing done todo removed with
  | zero =>
    obtain rfl : todo = [] := List.length_eq_zero_iff.1 (by omega)
    rfl
  | succ steps ih =>
    cases todo with
    | nil => simp [drainLoop, pruneFrom]
    | cons x todo =>
      rw [List.length_cons] at hsteps
      have hget : (done ++ x :: todo)[done.length]? = some x := by simp
      simp only [drainLoop, hget]
      cases hx : f x with
      | false =>
        have hopened : openedAfter Node.level [] (done ++ [x])
            = x :: (openedAfter Node.level [] done).filter (·.level < x.level) := by
          rw [openedAfter_append]
          rfl
        have hdone' : ∀ y ∈ openedAfter Node.level [] (done ++ [x]), f y = false := by
          rw [hopened]
          exact List.forall_mem_cons.2 ⟨hx, fun y hy => hdone y (List.mem_of_mem_filter hy)⟩
        have hih := @ih (done ++ [x]) todo removed (by omega) hdone'
        rw [hopened, List.length_append, List.length_singleton, List.append_assoc,
          List.append_assoc] at hih
        rw [if_neg (by simp), pruneFrom_cons_of_false hdone hx]
        exact hih
      | true =>
        obtain ⟨sub, rest, rfl, hbelow⟩ := exists_below Node.level x todo
        have hend : subtreeEnd (done ++ x :: (sub ++ rest)) done.length
            = done.length + 1 + sub.length := subtreeEnd_split done hbelow
        have hdrop : (done ++ x :: (sub ++ rest)).drop (done.length + 1 + sub.length) = rest := by
          rw [← List.cons_append, ← List.append_assoc, List.drop_left']
          rw [List.length_append, List.length_cons]
          omega
        rw [List.length_append] at hsteps
        rw [if_pos rfl, hend, hdrop, List.take_left, ih _ (by omega) hdone,
          pruneFrom_cons_of_true hx hbelow]

/-- What is left when all subtrees of some nodes are taken out. -/
theorem DisplayedItemTree.items_drainRecursiveIf (t : DisplayedItemTree) (f : Node → Bool) :
    (t.drainRecursiveIf f).2.items = (pruneFrom Node.level f [] t.items).map Prod.fst := by
  have hloop := @drainLoop_eq f t.items.length [] t.items [] le_rfl (by simp [openedAfter])
  simpa [drainRecursiveIf, openedAfter] using hloop

theorem preserves_drainRecursiveIf (h : t.WellFormed) (f : Node → Bool) :
    (Operation.drainRecursiveIf f).Preserves t := by
  intro t' hrun
  obtain rfl : (t.drainRecursiveIf f).2 = t' := by simpa [Operation.apply] using hrun
  have hitems := t.items_drainRecursiveIf f
  have hsub : ∀ node ∈ (t.drainRecursiveIf f).2.items, node ∈ t.items := by
    rw [hitems]
    refine List.forall_mem_map.2 fun m hm => ?_
    exact (List.of_mem_zip (List.mem_of_mem_filter hm)).1
  refine ⟨⟨?_, fun node hnode => h.fits node (hsub node hnode)⟩, ?_⟩
  · rw [hitems]
    exact stepsFrom_pruneFrom h.steps (by simp)
  · show lineages _ = lineagesOutside f t.items
    have hpaths : paths Node.level ((pruneFrom Node.level f [] t.items).map Prod.fst)
        = (pruneFrom Node.level f [] t.items).map Prod.snd := pathsFrom_pruneFrom (by simp)
    rw [hitems, lineages, hpaths, List.map_map, List.map_map, List.zip_map']
    rfl

/-! ## Moving several items -/

/-- No selected node lies inside the subtree of another one. -/
def Unnested (t : DisplayedItemTree) (indices : List ℕ) : Prop :=
  ∀ i ∈ indices, ∀ j ∈ indices, i < t.items.length → ¬ (i < j ∧ j < subtreeEnd t.items i)

instance (t : DisplayedItemTree) (indices : List ℕ) : Decidable (Unnested t indices) :=
  inferInstanceAs (Decidable
    (∀ i ∈ indices, ∀ j ∈ indices, i < t.items.length → ¬ (i < j ∧ j < subtreeEnd t.items i)))

/-- Shifted levels are `u8`. -/
theorem shiftLevels_fits {target first : ℕ} {nodes : List Node}
    (h : ∀ node ∈ nodes, node.level ≤ maxLevel) :
    ∀ node ∈ (shiftLevels target first nodes).1, node.level ≤ maxLevel := by
  induction nodes with
  | nil => simp [shiftLevels]
  | cons node rest ih =>
    rw [List.forall_mem_cons] at h
    rw [shiftLevels]
    split
    · exact List.forall_mem_cons.2 h
    next hgood =>
      refine List.forall_mem_cons.2 ⟨?_, ih h.2⟩
      show target + node.level - first ≤ maxLevel
      omega

theorem shiftSubtreeToLevel_fits {target : ℕ} {nodes : List Node}
    (h : ∀ node ∈ nodes, node.level ≤ maxLevel) :
    ∀ node ∈ (shiftSubtreeToLevel nodes target).1, node.level ≤ maxLevel := by
  cases nodes with
  | nil => simp [shiftSubtreeToLevel]
  | cons root rest => exact shiftLevels_fits h

/-- The loop extracts nodes whose levels are `u8`. -/
theorem fits_of_moveLoop {items : List Node} {level : ℕ} {todo : List ℕ}
    {result extracted : List Node} {target : ℕ} {out : List Node × List Node × ℕ}
    (h : moveLoop items level todo result extracted target = .ok (.ok out))
    (hresult : ∀ node ∈ result, node.level ≤ maxLevel)
    (hextracted : ∀ node ∈ extracted, node.level ≤ maxLevel) :
    ∀ node ∈ out.2.1, node.level ≤ maxLevel := by
  induction todo generalizing result extracted target with
  | nil =>
    simp only [moveLoop, Except.ok.injEq] at h
    subst h
    exact hextracted
  | cons start rest ih =>
    obtain ⟨-, moved, target', hshift, hrest⟩ := moveLoop_cons_of_ok h
    have hmoved : ∀ node ∈ moved, node.level ≤ maxLevel := by
      have hfits := @shiftSubtreeToLevel_fits level (slice result start (subtreeEnd items start))
        fun node hnode => hresult node (List.mem_of_mem_take (List.mem_of_mem_drop hnode))
      rwa [hshift] at hfits
    refine ih hrest (fun node hnode => ?_) (List.forall_mem_append.2 ⟨hmoved, hextracted⟩)
    rcases List.mem_append.1 hnode with hnode | hnode
    · exact hresult node (List.mem_of_mem_take hnode)
    · exact hresult node (List.mem_of_mem_drop hnode)

/-- A node that is taken along takes its subtree along. -/
theorem closed_uncovered {items : List Node} {done : List ℕ} (hdone : ∀ d ∈ done, d < items.length) :
    ∀ j k, j < k → k < Outline.subtreeEnd Node.level items j → j < items.length →
      uncovered items done (0 + j) = false → uncovered items done (0 + k) = false := by
  intro j k hjk hk hj hp
  rw [Nat.zero_add] at hp ⊢
  rw [uncovered, Bool.not_eq_false', List.any_eq_true] at hp ⊢
  obtain ⟨d, hd, hcovers⟩ := hp
  simp only [covers, Bool.and_eq_true, decide_eq_true_eq] at hcovers
  refine ⟨d, hd, ?_⟩
  have hend : subtreeEnd items j ≤ subtreeEnd items d := by
    rcases hcovers.1.lt_or_eq with hlt | rfl
    · exact subtreeEnd_le_of_lt (hdone d hd) hlt hcovers.2
    · exact le_rfl
  have hk' : k < subtreeEnd items j := hk
  simp only [covers, Bool.and_eq_true, decide_eq_true_eq]
  omega

/-- What is left after some subtrees are taken out has levels that rise by one at most. -/
theorem stepsFrom_survivors {items : List Node} {done : List ℕ}
    (h : StepsFrom Node.level 0 items) (hdone : ∀ d ∈ done, d < items.length) :
    StepsFrom Node.level 0 (survivors items done items) := stepsFrom_keepAt h (closed_uncovered hdone)

/-- A moved subtree starts at the level it is moved to, and its levels rise by one at most. -/
theorem stepsFrom_movedSubtree {items : List Node} {level start bound : ℕ}
    (h : StepsFrom Node.level 0 items) (hstart : start < items.length) (hbound : level ≤ bound) :
    StepsFrom Node.level bound (movedSubtree items level start) ∧
      ∀ node ∈ movedSubtree items level start, level ≤ node.level := by
  obtain ⟨pre, x, sub, rest, heq, hget, rfl, -, hslice, -, hbelow⟩ := exists_split hstart
  have hlevel : levelAt items pre.length = x.level := by rw [levelAt, hget]; rfl
  have hge : ∀ y ∈ x :: sub, x.level ≤ y.level :=
    List.forall_mem_cons.2 ⟨le_rfl, fun y hy => (hbelow.deeper y hy).le⟩
  have hsteps : StepsFrom Node.level (boundAfter Node.level 0 pre) (x :: sub) := by
    rw [heq, ← List.cons_append] at h
    exact (stepsFrom_append.1 (stepsFrom_append.1 h).2).1
  rw [movedSubtree, hslice]
  constructor
  · refine stepsFrom_map.2 (stepsFrom_shift (fun l => level + l - x.level) ?_ ?_ hsteps ?_)
    · intro y _
      rw [← hlevel]
      rfl
    · intro y hy z hz hyz
      have hy := hge y hy
      have hz := hge z hz
      omega
    · intro y hy
      obtain rfl : x = y := by simpa using hy
      omega
  · refine List.forall_mem_map.2 fun y hy => ?_
    have hy := hge y hy
    show level ≤ level + y.level - levelAt items pre.length
    omega

/-- Moved subtrees next to each other. -/
theorem stepsFrom_flatMap_movedSubtree {items : List Node} {level bound : ℕ} {roots : List ℕ}
    (h : StepsFrom Node.level 0 items) (hroots : ∀ d ∈ roots, d < items.length)
    (hbound : level ≤ bound) :
    StepsFrom Node.level bound (roots.flatMap (movedSubtree items level)) ∧
      ∀ node ∈ roots.flatMap (movedSubtree items level), level ≤ node.level := by
  induction roots generalizing bound with
  | nil => exact ⟨trivial, by simp⟩
  | cons root roots ih =>
    rw [List.forall_mem_cons] at hroots
    obtain ⟨hsteps, hge⟩ := stepsFrom_movedSubtree h hroots.1 hbound
    have hbound' := le_boundAfter hbound fun x hx => (hge x hx).trans (Nat.le_succ _)
    obtain ⟨hsteps', hge'⟩ := ih hroots.2 hbound'
    rw [List.flatMap_cons]
    exact ⟨stepsFrom_append.2 ⟨hsteps, hsteps'⟩, List.forall_mem_append.2 ⟨hge, hge'⟩⟩

/-- Nodes put between others fit in, when what stands behind them is not deeper than they are. -/
theorem wellFormed_between {pre moved rest : List Node} {m bound : ℕ}
    (hpre : StepsFrom Node.level 0 pre) (hm : m ≤ boundAfter Node.level 0 pre)
    (hmoved : StepsFrom Node.level (boundAfter Node.level 0 pre) moved)
    (hge : ∀ node ∈ moved, m ≤ node.level) (hrest : StepsFrom Node.level bound rest)
    (hbehind : ∀ y ∈ rest.head?, y.level ≤ m)
    (hfits : ∀ node ∈ pre ++ moved ++ rest, node.level ≤ maxLevel) :
    ({ items := pre ++ moved ++ rest } : DisplayedItemTree).WellFormed := by
  refine ⟨?_, hfits⟩
  show StepsFrom Node.level 0 (pre ++ moved ++ rest)
  rw [List.append_assoc]
  refine stepsFrom_append.2 ⟨hpre, stepsFrom_append.2 ⟨hmoved, ?_⟩⟩
  refine hrest.of_head_le fun y hy => (hbehind y hy).trans ?_
  exact le_boundAfter hm fun z hz => (hge z hz).trans (Nat.le_succ _)

/-- The subtrees of a selection without nesting follow each other from back to front. -/
theorem Unnested.disjoint {indices : List ℕ} (hunnested : Unnested t indices)
    (hrange : ∀ i ∈ indices, i < t.items.length) :
    (backToFront indices).Pairwise (fun a b => subtreeEnd t.items b ≤ a) := by
  refine (pairwise_backToFront indices).imp_of_mem fun {a b} ha hb hab => ?_
  rw [mem_backToFront] at ha hb
  have hnot := hunnested b hb a ha (hrange b hb)
  omega

/-- A move without nesting is refused and changes nothing, or puts the subtrees into what they leave, at a
place that was checked. -/
theorem moveItems_cases {indices : List ℕ} (hunnested : Unnested t indices) {target : TargetPosition}
    {result : Except MoveError Unit} (hrun : t.moveItems indices target = .ok (result, t')) :
    (t' = t ∧ result ≠ .ok ()) ∨ (∀ i ∈ indices, i < t.items.length) ∧
      let done := (backToFront indices).reverse
      let rest := survivors t.items done t.items
      let moved := done.flatMap (movedSubtree t.items target.level)
      let shifted := shiftedTarget t.items done target.before
      moveLoop t.items target.level (backToFront indices) t.items [] target.before
          = .ok (.ok (rest, moved, shifted)) ∧
        checkLocation rest ⟨shifted, target.level⟩ = .ok () ∧
        result = .ok () ∧ t' = { items := rest.take shifted ++ moved ++ rest.drop shifted } := by
  by_cases hrange : ∀ i ∈ indices, i < t.items.length
  · have hin : ∀ i ∈ backToFront indices, i < t.items.length :=
      fun i hi => hrange i (mem_backToFront.1 hi)
    rcases moveItems_of_disjoint (hunnested.disjoint hrange) hin target
      with ⟨e, hmoves⟩ | ⟨hloop, hcheck, hmoves⟩
    · rw [hmoves] at hrun
      obtain ⟨rfl, rfl⟩ := Prod.mk.inj (Except.ok.inj hrun)
      exact .inl ⟨rfl, fun heq => by cases heq⟩
    · rw [hmoves] at hrun
      obtain ⟨rfl, rfl⟩ := Prod.mk.inj (Except.ok.inj hrun)
      exact .inr ⟨hrange, hloop, hcheck, rfl, rfl⟩
  · -- the largest index is out of range: it is refused when it is the last, and panics otherwise
    cases hlast : indices.getLast?.any fun idx => t.items.length ≤ idx with
    | true =>
      rw [moveItems, if_pos hlast] at hrun
      obtain ⟨rfl, rfl⟩ := Prod.mk.inj (Except.ok.inj hrun)
      exact .inl ⟨rfl, fun heq => by cases heq⟩
    | false =>
      push Not at hrange
      obtain ⟨i, hi, hle⟩ := hrange
      rw [← mem_backToFront] at hi
      have hsorted := pairwise_backToFront indices
      rw [moveItems_eq hlast] at hrun
      cases hback : backToFront indices with
      | nil => simp [hback] at hi
      | cons start rest =>
        rw [hback] at hi hsorted
        have hstart : t.items.length ≤ start := by
          rcases List.mem_cons.1 hi with rfl | hi
          · exact hle
          · exact hle.trans ((List.pairwise_cons.1 hsorted).1 i hi).le
        rw [hback, moveLoop, if_pos hstart] at hrun
        cases hrun

/-- A move without nesting leaves a well-formed tree, whether it is refused or not. -/
theorem wellFormed_moveItems (h : t.WellFormed) {indices : List ℕ} (hunnested : Unnested t indices)
    {target : TargetPosition} {result : Except MoveError Unit}
    (hrun : t.moveItems indices target = .ok (result, t')) : t'.WellFormed := by
  rcases moveItems_cases hunnested hrun with ⟨rfl, -⟩ | ⟨hrange, hloop, hcheck, -, rfl⟩
  · exact h
  have hdone : ∀ d ∈ (backToFront indices).reverse, d < t.items.length :=
    fun d hd => hrange d (mem_backToFront.1 (List.mem_reverse.1 hd))
  have hsub : ∀ node ∈ survivors t.items (backToFront indices).reverse t.items, node ∈ t.items :=
    fun node hnode => keepAt_sublist.subset hnode
  have hsteps := stepsFrom_survivors h.steps hdone
  have hfits := fun node hnode => h.fits node (hsub node hnode)
  have hmovedFits := fits_of_moveLoop hloop h.fits (by simp)
  -- the subtrees go to a place that was checked
  obtain ⟨hbound, -, hafter⟩ := bounds_of_checkLocation hsteps hfits hcheck
  obtain ⟨hmoved, hge⟩ := stepsFrom_flatMap_movedSubtree h.steps hdone hbound
  rw [← List.take_append_drop (shiftedTarget t.items (backToFront indices).reverse target.before)
    (survivors t.items (backToFront indices).reverse t.items), stepsFrom_append] at hsteps
  refine wellFormed_between hsteps.1 hbound hmoved hge hsteps.2 hafter fun node hnode => ?_
  rcases List.mem_append.1 hnode with hnode | hnode
  · rcases List.mem_append.1 hnode with hnode | hnode
    · exact hfits node (List.mem_of_mem_take hnode)
    · exact hmovedFits node hnode
  · exact hfits node (List.mem_of_mem_drop hnode)

/-! ## Moving one item -/

/-- The visible node before a node is not deeper than the node right before it. -/
theorem levelAt_visiblePredecessorLoop {items : List Node} {startLevel idx candidate limitLevel m : ℕ}
    (hcandidate : levelAt items candidate ≤ m) (hlimit : limitLevel ≤ m) :
    levelAt items (visiblePredecessorLoop items startLevel idx candidate limitLevel) ≤ m := by
  induction idx generalizing candidate limitLevel with
  | zero => exact hcandidate
  | succ idx ih =>
    rw [visiblePredecessorLoop]
    have hcandidate' : levelAt items (if levelAt items idx < limitLevel ∧
        ¬ (items[idx]?.elim true Node.unfolded) then idx else candidate) ≤ m := by
      split
      next hlow => exact hlow.1.le.trans hlimit
      next => exact hcandidate
    split
    · exact hcandidate'
    · refine ih hcandidate' ?_
      split
      next hlow => exact hlow.le.trans hlimit
      next => exact hlimit

theorem levelAt_visiblePredecessor {idx nodeIdx : ℕ} (h : t.visiblePredecessor idx = some nodeIdx) :
    0 < idx ∧ levelAt t.items nodeIdx ≤ levelAt t.items (idx - 1) := by
  rw [visiblePredecessor] at h
  split at h
  next => cases h
  next hrange =>
    rw [not_or] at hrange
    refine ⟨Nat.pos_of_ne_zero hrange.1, ?_⟩
    rw [← Option.some.inj h]
    exact levelAt_visiblePredecessorLoop le_rfl le_rfl

/-- Subtrees that are shifted up in the numbering keep rising by one at most, also when the shift stops
at a node that would become too deep. -/
theorem stepsFrom_shiftLevels {target first bound : ℕ} {nodes : List Node} (hle : first ≤ target)
    (h : StepsFrom Node.level bound nodes) :
    StepsFrom Node.level (bound + (target - first)) (shiftLevels target first nodes).1 ∧
      ∀ m, (∀ node ∈ nodes, m ≤ node.level) →
        ∀ node ∈ (shiftLevels target first nodes).1, m ≤ node.level := by
  induction nodes generalizing bound with
  | nil => exact ⟨trivial, by simp [shiftLevels]⟩
  | cons node rest ih =>
    rw [shiftLevels]
    split
    · exact ⟨h.mono (Nat.le_add_right _ _), fun m hm => hm⟩
    next hgood =>
      obtain ⟨hsteps, hge⟩ := ih h.2
      have hnode := h.1
      refine ⟨⟨?_, hsteps.mono ?_⟩, fun m hm => ?_⟩
      · show target + node.level - first ≤ bound + (target - first)
        omega
      · show node.level + 1 + (target - first) ≤ target + node.level - first + 1
        omega
      · rw [List.forall_mem_cons] at hm
        refine List.forall_mem_cons.2 ⟨?_, hge m hm.2⟩
        show m ≤ target + node.level - first
        omega

/-- Subtrees can always be shifted down in the numbering. -/
theorem shiftLevels_eq_map {target first : ℕ} {nodes : List Node} (hle : target ≤ first)
    (hge : ∀ node ∈ nodes, first ≤ node.level) (hfits : ∀ node ∈ nodes, node.level ≤ maxLevel) :
    shiftLevels target first nodes
      = (nodes.map fun node => { node with level := target + node.level - first }, .ok ()) := by
  induction nodes with
  | nil => rfl
  | cons node rest ih =>
    rw [List.forall_mem_cons] at hge hfits
    rw [shiftLevels, if_neg (by omega), ih hge.2 hfits.2]
    rfl

/-- A subtree of a well-formed tree. -/
theorem stepsFrom_subtree {pre sub rest : List Node} {x : Node}
    (h : StepsFrom Node.level 0 (pre ++ x :: (sub ++ rest))) :
    StepsFrom Node.level 0 pre ∧ x.level ≤ boundAfter Node.level 0 pre ∧
      StepsFrom Node.level x.level (x :: sub) ∧ StepsFrom Node.level
        (boundAfter Node.level x.level (x :: sub)) rest := by
  rw [stepsFrom_append, ← List.cons_append, stepsFrom_append] at h
  obtain ⟨hpre, hsub, hrest⟩ := h
  exact ⟨hpre, hsub.1, ⟨le_rfl, hsub.2⟩, hrest⟩

theorem shiftInPlace_snd (t : DisplayedItemTree) (start end_ level : ℕ) :
    (t.shiftInPlace start end_ level).2 =
      { items := t.items.take start ++ (shiftSubtreeToLevel (slice t.items start end_) level).1
          ++ t.items.drop end_ } := rfl

/-- A subtree that is shifted in place has levels that are `u8`. -/
theorem fits_shiftInPlace (h : t.WellFormed) (idx end_ level : ℕ) :
    ∀ node ∈ (t.shiftInPlace idx end_ level).2.items, node.level ≤ maxLevel := by
  have hshifted := @shiftSubtreeToLevel_fits level (slice t.items idx end_) fun node hnode =>
    h.fits node (List.mem_of_mem_take (List.mem_of_mem_drop hnode))
  intro node hnode
  rcases List.mem_append.1 hnode with hnode | hnode
  · rcases List.mem_append.1 hnode with hnode | hnode
    · exact h.fits node (List.mem_of_mem_take hnode)
    · exact hshifted node hnode
  · exact h.fits node (List.mem_of_mem_drop hnode)

/-- A subtree is indented under what stands before it. -/
theorem wellFormed_indent (h : t.WellFormed) {idx level : ℕ} (hidx : idx < t.items.length)
    (hle : levelAt t.items idx ≤ level)
    (hbound : level ≤ boundAfter Node.level 0 (t.items.take idx)) :
    (t.shiftInPlace idx (subtreeEnd t.items idx) level).2.WellFormed := by
  have hfits := fits_shiftInPlace h idx (subtreeEnd t.items idx) level
  obtain ⟨pre, x, sub, rest, heq, hget, rfl, hpre, hslice, hrest, hbelow⟩ := exists_split hidx
  have hlevel : levelAt t.items pre.length = x.level := by rw [levelAt, hget]; rfl
  obtain ⟨hstepsPre, hx, hstepsSub, hstepsRest⟩ := stepsFrom_subtree (heq ▸ h.steps)
  rw [hlevel] at hle
  rw [hpre] at hbound
  obtain ⟨hshifted, hge⟩ := stepsFrom_shiftLevels hle hstepsSub
  have hge := hge x.level (List.forall_mem_cons.2 ⟨le_rfl, fun y hy => (hbelow.deeper y hy).le⟩)
  rw [shiftInPlace_snd, hpre, hslice, hrest] at hfits ⊢
  exact wellFormed_between hstepsPre hx (hshifted.mono (by omega)) hge hstepsRest hbelow.behind hfits

/-- A subtree is moved out, up to the level of what stands behind it. -/
theorem wellFormed_outdent (h : t.WellFormed) {idx level : ℕ} (hidx : idx < t.items.length)
    (hle : level ≤ levelAt t.items idx)
    (hbehind : ∀ y ∈ (t.items.drop (subtreeEnd t.items idx)).head?, y.level ≤ level) :
    (t.shiftInPlace idx (subtreeEnd t.items idx) level).2.WellFormed := by
  have hfits := fits_shiftInPlace h idx (subtreeEnd t.items idx) level
  have hall := h.fits
  obtain ⟨pre, x, sub, rest, heq, hget, rfl, hpre, hslice, hrest, hbelow⟩ := exists_split hidx
  have hlevel : levelAt t.items pre.length = x.level := by rw [levelAt, hget]; rfl
  obtain ⟨hstepsPre, hx, -, hstepsRest⟩ := stepsFrom_subtree (heq ▸ h.steps)
  rw [hlevel] at hle
  rw [hrest] at hbehind
  obtain ⟨hmoved, hge⟩ := stepsFrom_movedSubtree h.steps hidx (hle.trans hx)
  have hshifted : (shiftSubtreeToLevel (x :: sub) level).1 = movedSubtree t.items level pre.length := by
    rw [shiftSubtreeToLevel, shiftLevels_eq_map hle, movedSubtree, hslice]
    · refine List.map_congr_left fun node _ => ?_
      rw [relevel, hlevel]
    · exact List.forall_mem_cons.2 ⟨le_rfl, fun y hy => (hbelow.deeper y hy).le⟩
    · intro node hnode
      refine hall node ?_
      rw [heq, ← List.cons_append]
      exact List.mem_append_right _ (List.mem_append_left _ hnode)
  rw [shiftInPlace_snd, hpre, hslice, hrest, hshifted] at hfits ⊢
  exact wellFormed_between hstepsPre (hle.trans hx) hmoved hge hstepsRest hbehind hfits

/-- Indenting a node of the largest level wraps around to level 0. -/
def IndentsPastMax (t : DisplayedItemTree) (vidx : ℕ) (f : Node → Bool) : Prop :=
  ∃ idx nodeIdx node, t.toDisplayed vidx = some idx ∧ levelAt t.items idx = maxLevel ∧
    t.visiblePredecessor idx = some nodeIdx ∧ t.items[nodeIdx]? = some node ∧
      node.level = maxLevel ∧ f node = true ∧ node.unfolded = true ∧ 1 < levelAt t.items (idx + 1)

/-- Visible nodes are nodes of the tree. -/
theorem lt_of_toDisplayed {vidx idx : ℕ} (h : t.toDisplayed vidx = some idx) :
    idx < t.items.length := by
  have hvisible : ∀ steps i, ∀ j ∈ visibleFrom t.items steps i, j < t.items.length := by
    intro steps
    induction steps with
    | zero => simp [visibleFrom]
    | succ steps ih =>
      intro i
      rw [visibleFrom]
      split
      next hi => exact List.forall_mem_cons.2 ⟨hi, ih _⟩
      next => simp
  exact hvisible _ _ idx (List.mem_of_getElem? h)

/-- A node at the largest level has no nodes below it. -/
theorem sub_eq_nil_of_maxLevel {pre sub rest : List Node} {x : Node}
    (hfits : ∀ node ∈ pre ++ x :: (sub ++ rest), node.level ≤ maxLevel)
    (hbelow : Below Node.level x sub rest) (hx : x.level = maxLevel) : sub = [] := by
  rw [List.eq_nil_iff_forall_not_mem]
  intro y hy
  have hlt := hbelow.deeper y hy
  have hle := hfits y (by simp [hy])
  omega

/-- What a wrapped level does. -/
theorem shiftInPlace_maxLevel (h : t.WellFormed) {idx : ℕ} (hidx : idx < t.items.length)
    (hmax : levelAt t.items idx = maxLevel) :
    (t.shiftInPlace idx (subtreeEnd t.items idx) 0).2.WellFormed ↔ levelAt t.items (idx + 1) ≤ 1 := by
  have hfits := fits_shiftInPlace h idx (subtreeEnd t.items idx) 0
  have hall := h.fits
  obtain ⟨pre, x, sub, rest, heq, hget, rfl, hpre, hslice, hrest, hbelow⟩ := exists_split hidx
  have hlevel : levelAt t.items pre.length = x.level := by rw [levelAt, hget]; rfl
  obtain ⟨hstepsPre, hx, -, hstepsRest⟩ := stepsFrom_subtree (heq ▸ h.steps)
  obtain rfl : sub = [] := sub_eq_nil_of_maxLevel (heq ▸ hall) hbelow (hlevel.symm.trans hmax)
  have hnext : levelAt t.items (pre.length + 1) = rest.head?.elim 0 Node.level := by
    rw [levelAt, heq, List.getElem?_append_right (by omega), Nat.add_sub_cancel_left,
      List.nil_append, List.getElem?_cons_succ, List.head?_eq_getElem?]
  have hshifted : (shiftSubtreeToLevel [x] 0).1 = [{ x with level := 0 }] := by
    rw [shiftSubtreeToLevel, shiftLevels, if_neg (by omega)]
    simp [shiftLevels]
  rw [shiftInPlace_snd, hpre, hslice, hrest, hshifted] at hfits ⊢
  rw [hnext]
  constructor
  · intro hwf
    have hsteps := (stepsFrom_append.1 hwf.steps).2
    rw [boundAfter_concat] at hsteps
    cases hhead : rest.head? with
    | none => exact Nat.zero_le _
    | some y => exact hsteps.head_le y hhead
  · intro hle
    refine ⟨stepsFrom_append.2 ⟨stepsFrom_append.2 ⟨hstepsPre, Nat.zero_le _, trivial⟩, ?_⟩, hfits⟩
    rw [boundAfter_concat]
    refine hstepsRest.of_head_le fun y hy => ?_
    rw [Option.mem_def.1 hy] at hle
    exact hle

/-- A move to another place ends as the moving of items does. -/
theorem moved_eq_ok {run : Run (Except MoveError Unit × DisplayedItemTree)} {newIndex : ℕ}
    {result : Except MoveError ℕ}
    (h : (match run with
      | .error p => .error p
      | .ok (result, t) => .ok (result.map fun _ => newIndex, t) :
        Run (Except MoveError ℕ × DisplayedItemTree)) = .ok (result, t')) :
    ∃ r, run = .ok (r, t') := by
  cases run with
  | error p => cases h
  | ok out =>
    obtain ⟨-, rfl⟩ := Prod.mk.inj (Except.ok.inj h)
    exact ⟨out.1, rfl⟩

/-- What moving an item does: nothing, a move to another place, a step out, or an indentation. -/
theorem moveItem_cases {vidx : ℕ} {direction : MoveDir} {f : Node → Bool}
    {result : Except MoveError ℕ} (hrun : t.moveItem vidx direction f = .ok (result, t')) :
    t' = t ∨ ∃ idx, t.toDisplayed vidx = some idx ∧
      ((∃ target r, t.moveItems [idx] target = .ok (r, t')) ∨
        direction = .down ∧
          (∀ y ∈ (t.items.drop (subtreeEnd t.items idx)).head?, y.level < levelAt t.items idx) ∧
          t' = (t.shiftInPlace idx (subtreeEnd t.items idx) (levelAt t.items idx - 1)).2 ∨
        direction = .up ∧ ∃ nodeIdx node, t.visiblePredecessor idx = some nodeIdx ∧
          t.items[nodeIdx]? = some node ∧
          ((levelAt t.items idx ≤ node.level ∧ f node ∧ node.unfolded) ∨
            levelAt t.items idx < node.level) ∧
          t' = (t.shiftInPlace idx (subtreeEnd t.items idx)
            (wrappingAdd (levelAt t.items idx) 1)).2) := by
  rw [moveItem] at hrun
  cases hidx : t.toDisplayed vidx with
  | none =>
    rw [hidx] at hrun
    exact .inl (Prod.mk.inj (Except.ok.inj hrun)).2.symm
  | some idx =>
    rw [hidx] at hrun
    simp only at hrun
    cases direction with
    | down =>
      simp only at hrun
      have hhead : (t.items.drop (subtreeEnd t.items idx)).head?
          = t.items[subtreeEnd t.items idx]? := List.head?_drop
      cases hend : t.items[subtreeEnd t.items idx]? with
      | none =>
        rw [hend] at hrun hhead
        refine .inr ⟨idx, rfl, .inr (.inl ⟨rfl, by simp [hhead], ?_⟩)⟩
        exact (Prod.mk.inj (Except.ok.inj hrun)).2.symm
      | some node =>
        rw [hend] at hrun hhead
        simp only at hrun
        split at hrun
        next hless =>
          refine .inr ⟨idx, rfl, .inr (.inl ⟨rfl, by simpa [hhead] using hless, ?_⟩)⟩
          exact (Prod.mk.inj (Except.ok.inj hrun)).2.symm
        next =>
          split at hrun
          next => exact .inr ⟨idx, rfl, .inl ⟨_, moved_eq_ok hrun⟩⟩
          next => exact .inr ⟨idx, rfl, .inl ⟨_, moved_eq_ok hrun⟩⟩
    | up =>
      simp only at hrun
      cases hpred : t.visiblePredecessor idx with
      | none =>
        rw [hpred] at hrun
        exact .inl (Prod.mk.inj (Except.ok.inj hrun)).2.symm
      | some nodeIdx =>
        rw [hpred] at hrun
        simp only at hrun
        cases hnode : t.items[nodeIdx]? with
        | none =>
          rw [hnode] at hrun
          cases hrun
        | some node =>
          rw [hnode] at hrun
          simp only at hrun
          split at hrun
          next hinto =>
            refine .inr ⟨idx, rfl, .inr (.inr ⟨rfl, nodeIdx, node, hpred, hnode, hinto, ?_⟩)⟩
            exact (Prod.mk.inj (Except.ok.inj hrun)).2.symm
          next => exact .inr ⟨idx, rfl, .inl ⟨_, moved_eq_ok hrun⟩⟩

/-- One item is never nested. -/
theorem unnested_singleton (t : DisplayedItemTree) (idx : ℕ) : Unnested t [idx] := by
  intro i hi j hj _
  rw [List.mem_singleton.1 hi, List.mem_singleton.1 hj]
  omega

/-- What stands before a node lets a node one level deeper in, when the visible node before it is at the
level of the node or deeper. -/
theorem le_boundAfter_take {idx nodeIdx : ℕ} {node : Node} (hidx : idx < t.items.length)
    (hpred : t.visiblePredecessor idx = some nodeIdx) (hnode : t.items[nodeIdx]? = some node) :
    node.level + 1 ≤ boundAfter Node.level 0 (t.items.take idx) := by
  obtain ⟨hpos, hle⟩ := levelAt_visiblePredecessor hpred
  have hlevel : levelAt t.items nodeIdx = node.level := by rw [levelAt, hnode]; rfl
  obtain ⟨k, rfl⟩ := Nat.exists_eq_succ_of_ne_zero hpos.ne'
  have hk : k < t.items.length := by omega
  rw [Nat.succ_sub_one, levelAt_of_lt hk, hlevel] at hle
  rw [List.take_succ_eq_append_getElem hk, boundAfter_concat]
  omega

/-- Indenting past the largest level goes through and leaves a tree that is not well formed. -/
theorem exists_moveItem_of_indentsPastMax (h : t.WellFormed) {vidx : ℕ} {f : Node → Bool}
    (hpast : IndentsPastMax t vidx f) :
    ∃ result t', t.moveItem vidx .up f = .ok (result, t') ∧ ¬ t'.WellFormed := by
  obtain ⟨idx, nodeIdx, node, hidx, hmax, hpred, hnode, hlevel, hf, hunfolded, hnext⟩ := hpast
  have hinto : (levelAt t.items idx ≤ node.level ∧ f node = true ∧ node.unfolded = true) ∨
      levelAt t.items idx < node.level := .inl ⟨by omega, hf, hunfolded⟩
  have hwrap : wrappingAdd (levelAt t.items idx) 1 = 0 := by rw [hmax]; rfl
  refine ⟨(t.shiftInPlace idx (subtreeEnd t.items idx) 0).1.map fun _ => vidx,
    (t.shiftInPlace idx (subtreeEnd t.items idx) 0).2, ?_, ?_⟩
  · rw [moveItem, hidx]
    simp only [hpred, hnode, if_pos hinto, hwrap]
  · rw [shiftInPlace_maxLevel h (lt_of_toDisplayed hidx) hmax]
    omega

/-- Moving one item leaves a well-formed tree, whether the move is refused or not, unless it is indented
past the largest level. -/
theorem wellFormed_moveItem (h : t.WellFormed) {vidx : ℕ} {direction : MoveDir} {f : Node → Bool}
    {result : Except MoveError ℕ} (hsafe : direction = .up → ¬ IndentsPastMax t vidx f)
    (hrun : t.moveItem vidx direction f = .ok (result, t')) : t'.WellFormed := by
  rcases moveItem_cases hrun with rfl | ⟨idx, hidx, ⟨target, r, hmoves⟩ | ⟨rfl, hbehind, rfl⟩ |
    ⟨rfl, nodeIdx, node, hpred, hnode, hinto, rfl⟩⟩
  · exact h
  · exact wellFormed_moveItems h (unnested_singleton t idx) hmoves
  · refine wellFormed_outdent h (lt_of_toDisplayed hidx) (Nat.sub_le _ _) fun y hy => ?_
    have hlt := hbehind y hy
    omega
  · have hlt := lt_of_toDisplayed hidx
    have hfits : ∀ {i} (hi : i < t.items.length), levelAt t.items i ≤ maxLevel := fun hi => by
      rw [levelAt_of_lt hi]
      exact h.fits _ (List.getElem_mem hi)
    have hnodeFits := h.fits node (List.mem_of_getElem? hnode)
    rcases (hfits hlt).lt_or_eq with hlevel | hmax
    · have hwrap : wrappingAdd (levelAt t.items idx) 1 = levelAt t.items idx + 1 :=
        Nat.mod_eq_of_lt (Nat.succ_lt_succ hlevel)
      have hbound := le_boundAfter_take hlt hpred hnode
      rw [hwrap]
      refine wellFormed_indent h hlt (Nat.le_succ _) ?_
      rcases hinto with hinto | hinto <;> omega
    · -- at the largest level there is room only when the next node is at level 0 or 1
      have hwrap : wrappingAdd (levelAt t.items idx) 1 = 0 := by rw [hmax]; rfl
      rw [hwrap, shiftInPlace_maxLevel h hlt hmax]
      by_contra hnext
      rcases hinto with ⟨hle, hf, hunfolded⟩ | hlt'
      · exact hsafe rfl ⟨idx, nodeIdx, node, hidx, hmax, hpred, hnode, by omega, hf, hunfolded,
          not_le.1 hnext⟩
      · omega

/-! ## All operations -/

namespace Operation

/-- The calls that keep their promise: no selected node lies inside the subtree of another one, and no
node is indented past the largest level. -/
def Safe (t : DisplayedItemTree) : Operation → Prop
  | moveItems indices _ => Unnested t indices
  | moveItem vidx .up f => ¬ IndentsPastMax t vidx f
  | _ => True

/-- The call moves a selection of several items. -/
def IsMoveItems : Operation → Prop
  | moveItems _ _ => True
  | _ => False

end Operation

/-- A call of an operation that is not one of those that take nodes out promises no more than a
well-formed tree. -/
theorem preserves_of_wellFormed {op : Operation} (hkeeps : ∀ t', op.KeepsAncestors t t')
    (h : ∀ t', op.apply t = .ok t' → t'.WellFormed) : op.Preserves t :=
  fun t' hrun => ⟨h t' hrun, hkeeps t'⟩

theorem snd_eq_of_map_snd {α β : Type} {x : Run (α × β)} {b : β} (h : x.map Prod.snd = .ok b) :
    ∃ a, x = .ok (a, b) := by
  cases x with
  | error e => cases h
  | ok p => exact ⟨p.1, by rw [← Except.ok.inj h]⟩

theorem preserves_of_safe (h : t.WellFormed) {op : Operation} (hsafe : op.Safe t) :
    op.Preserves t := by
  cases op with
  | insertItem item position =>
    refine preserves_of_wellFormed (fun _ => trivial) fun t' hrun => ?_
    rw [← Except.ok.inj hrun]
    exact wellFormed_insertItem h item position
  | removeRecursive item => exact preserves_removeRecursive h item
  | removeDissolve item => exact preserves_removeDissolve h item
  | drainRecursiveIf f => exact preserves_drainRecursiveIf h f
  | moveItem vidx direction f =>
    refine preserves_of_wellFormed (fun _ => trivial) fun t' hrun => ?_
    obtain ⟨r, hrun⟩ := snd_eq_of_map_snd hrun
    refine wellFormed_moveItem h ?_ hrun
    rintro rfl
    exact hsafe
  | moveItems indices target =>
    refine preserves_of_wellFormed (fun _ => trivial) fun t' hrun => ?_
    obtain ⟨r, hrun⟩ := snd_eq_of_map_snd hrun
    exact wellFormed_moveItems h hsafe hrun
  | xfold item unfolded =>
    exact preserves_of_wellFormed (fun _ => trivial) fun t' hrun => wellFormed_xfold h hrun
  | xfoldAll unfolded =>
    refine preserves_of_wellFormed (fun _ => trivial) fun t' hrun => ?_
    rw [← Except.ok.inj hrun]
    exact wellFormed_xfoldAll h unfolded
  | xfoldRecursive item unfolded =>
    exact preserves_of_wellFormed (fun _ => trivial) fun t' hrun => wellFormed_xfoldRecursive h hrun
  | xselect vidx selected =>
    refine preserves_of_wellFormed (fun _ => trivial) fun t' hrun => ?_
    rw [← Except.ok.inj hrun]
    exact wellFormed_xselect h vidx selected
  | xselectAllVisible selected =>
    refine preserves_of_wellFormed (fun _ => trivial) fun t' hrun => ?_
    rw [← Except.ok.inj hrun]
    exact wellFormed_xselectAllVisible h selected
  | xselectVisibleRange start end_ selected =>
    refine preserves_of_wellFormed (fun _ => trivial) fun t' hrun => ?_
    rw [← Except.ok.inj hrun]
    exact wellFormed_xselectVisibleRange h start end_ selected

/-- Every call of an operation on a well-formed tree keeps its promise when no selected node lies inside
the subtree of another one, and no node is indented past the largest level. Of a call that does not move
a selection this is the exact condition. -/
theorem operations_preserve (t : DisplayedItemTree) (h : t.WellFormed) (op : Operation) :
    (op.Safe t → op.Preserves t) ∧ (¬ op.IsMoveItems → op.Preserves t → op.Safe t) := by
  refine ⟨preserves_of_safe h, fun hmoves hpreserves => ?_⟩
  cases op with
  | moveItems indices target => exact absurd trivial hmoves
  | moveItem vidx direction f =>
    cases direction with
    | down => trivial
    | up =>
      intro hpast
      obtain ⟨result, t', hrun, hnot⟩ := exists_moveItem_of_indentsPastMax h hpast
      refine hnot (hpreserves t' ?_).1
      show (t.moveItem vidx .up f).map Prod.snd = .ok t'
      rw [hrun]
      rfl
  | _ => trivial

/-- A group with one node in it, next to a group in a group. -/
def twoGroups : DisplayedItemTree :=
  { items := [⟨0, 0, true, true⟩, ⟨1, 1, true, true⟩, ⟨2, 0, true, false⟩, ⟨3, 1, true, false⟩,
      ⟨4, 2, true, false⟩] }

/-- When the first group and the node in it are moved to the end, the second group goes with them, and
what was in it is left without a root. -/
theorem not_preserves_nestedSelection :
    twoGroups.WellFormed ∧ ¬ (Operation.moveItems [0, 1] ⟨5, 0⟩).Preserves twoGroups := by
  refine ⟨⟨by decide, by decide⟩, fun h => ?_⟩
  have hrun : (Operation.moveItems [0, 1] ⟨5, 0⟩).apply twoGroups = .ok
      { items := [⟨3, 1, true, false⟩, ⟨4, 2, true, false⟩, ⟨0, 0, true, true⟩,
          ⟨2, 0, true, false⟩, ⟨1, 0, true, true⟩] } := by decide
  have hsteps := (h _ hrun).1.steps
  revert hsteps
  decide

/-- The second group is dissolved. -/
theorem operations_preserve_dissolve : twoGroups.WellFormed ∧
    (Operation.removeDissolve 2).Preserves twoGroups := by
  have hwf : twoGroups.WellFormed := ⟨by decide, by decide⟩
  exact ⟨hwf, (operations_preserve twoGroups hwf (.removeDissolve 2)).1 trivial⟩

end ItemTree
