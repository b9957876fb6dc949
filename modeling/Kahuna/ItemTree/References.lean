import Kahuna.ItemTree.WellFormed

/-!
# The references of a tree

What the operations of the tree do to the references of its nodes: moving, folding and selecting rearrange
them, and the operations that take nodes out report each reference they take out.

- `refs_insertItem`, `refs_removeRecursive`, `refs_drainRecursiveIf`, `refs_moveItems`: one lemma for each
  operation;
- `Covers`: which references are taken out together with a node.
-/

namespace ItemTree

open Outline

namespace DisplayedItemTree

variable {t t' : DisplayedItemTree}

/-- The references of the nodes, in order. -/
def refs (t : DisplayedItemTree) : List DisplayedItemRef := t.items.map Node.itemRef

/-! ## Folding and selecting -/

@[simp]
theorem refs_xselect (t : DisplayedItemTree) (vidx : ℕ) (selected : Bool) :
    (t.xselect vidx selected).refs = t.refs := map_xselect (fun _ _ => rfl) t vidx selected

@[simp]
theorem refs_xselectAllVisible (t : DisplayedItemTree) (selected : Bool) :
    (t.xselectAllVisible selected).refs = t.refs := map_xselectAllVisible (fun _ _ => rfl) t selected

@[simp]
theorem refs_xselectVisibleRange (t : DisplayedItemTree) (start end_ : ℕ) (selected : Bool) :
    (t.xselectVisibleRange start end_ selected).refs = t.refs :=
  map_xselectVisibleRange (fun _ _ => rfl) t start end_ selected

@[simp]
theorem refs_xfoldAll (t : DisplayedItemTree) (unfolded : Bool) : (t.xfoldAll unfolded).refs = t.refs :=
  map_xfoldAll (fun _ _ _ => rfl) t unfolded

theorem refs_xfold {item : ℕ} {unfolded : Bool} (h : t.xfold item unfolded = .ok t') :
    t'.refs = t.refs := map_xfold (fun _ _ _ => rfl) h

theorem refs_xfoldRecursive {item : ℕ} {unfolded : Bool} (h : t.xfoldRecursive item unfolded = .ok t') :
    t'.refs = t.refs := map_xfoldRecursive (fun _ _ _ => rfl) h

/-! ## Adding and removing -/

theorem refs_insertItem {item : DisplayedItemRef} {position : TargetPosition} {index : ℕ}
    (h : t.insertItem item position = (.ok index, t')) : t'.refs.Perm (item :: t.refs) := by
  rw [insertItem] at h
  split at h
  · cases h
  · cases h
    rw [refs, refs, List.map_append, List.map_cons]
    refine List.perm_middle.trans (.cons _ ?_)
    rw [← List.map_append, List.take_append_drop]

/-- A stretch of a list, and what is around it. -/
theorem perm_slice (items : List Node) {start end_ : ℕ} (h : start ≤ end_) :
    items.Perm (slice items start end_ ++ (items.take start ++ items.drop end_)) := by
  have hsplit : items.take start ++ slice items start end_ ++ items.drop end_ = items := by
    have htake : items.take start = (items.take end_).take start := by
      rw [List.take_take, Nat.min_eq_left h]
    rw [htake, slice, List.take_append_drop, List.take_append_drop]
  conv_lhs => rw [← hsplit]
  rw [← List.append_assoc]
  exact List.perm_append_comm.append_right _

theorem refs_removeRecursive {item : ℕ} {removed : List DisplayedItemRef}
    (h : t.removeRecursive item = .ok (removed, t')) : t.refs.Perm (removed ++ t'.refs) := by
  rw [removeRecursive] at h
  split at h
  · cases h
  next hitem =>
    cases h
    rw [refs, refs, ← List.map_append]
    exact (perm_slice t.items (lt_subtreeEnd (not_le.1 hitem)).le).map _

theorem refs_removeDissolve {item : ℕ} {removed : DisplayedItemRef}
    (h : t.removeDissolve item = .ok (removed, t')) :
    t.refs.Perm (removed :: t'.refs) ∧ ∃ node, t.items[item]? = some node ∧ node.itemRef = removed := by
  rw [removeDissolve] at h
  split at h
  · cases h
  next node hnode =>
    cases h
    refine ⟨?_, node, hnode, rfl⟩
    obtain ⟨pre, x, sub, rest, heq, hget, -, hpre, hslice, hrest, -⟩ :=
      exists_split (List.getElem?_eq_some_iff.1 hnode).1
    have hsub : slice t.items (item + 1) (subtreeEnd t.items item) = sub := by
      rw [slice, ← List.drop_drop, ← slice, hslice, List.drop_one, List.tail_cons]
    obtain rfl : node = x := Option.some.inj (hnode.symm.trans hget)
    rw [refs, refs, hpre, hsub, hrest, heq]
    simp only [List.map_append, List.map_cons, List.map_map, Function.comp_def, List.append_assoc]
    exact List.perm_middle

/-- The loop takes out stretches of the nodes. -/
theorem refs_drainLoop (f : Node → Bool) (steps idx : ℕ) (removed : List DisplayedItemRef)
    (items : List Node) :
    ((drainLoop f steps idx removed items).1 ++ (drainLoop f steps idx removed items).2.map
      Node.itemRef).Perm (removed ++ items.map Node.itemRef) := by
  induction steps generalizing idx removed items with
  | zero => exact .refl _
  | succ steps ih =>
    rw [drainLoop]
    cases hget : items[idx]? with
    | none => exact .refl _
    | some node =>
      simp only
      split
      · refine (ih _ _ _).trans ?_
        have hidx : idx < items.length := (List.getElem?_eq_some_iff.1 hget).1
        have hle : idx ≤ subtreeEnd items idx := (lt_subtreeEnd hidx).le
        have hslice := (perm_slice items hle).map Node.itemRef
        rw [List.map_append] at hslice
        rw [List.append_assoc]
        exact hslice.symm.append_left _
      · exact ih _ _ _

theorem refs_drainRecursiveIf (t : DisplayedItemTree) (f : Node → Bool) :
    t.refs.Perm ((t.drainRecursiveIf f).1 ++ (t.drainRecursiveIf f).2.refs) :=
  (refs_drainLoop f t.items.length 0 [] t.items).symm

/-- No node that satisfies the predicate is left. -/
theorem not_of_mem_drainRecursiveIf {f : Node → Bool} {node : Node}
    (h : node ∈ (t.drainRecursiveIf f).2.items) : f node = false := by
  rw [items_drainRecursiveIf] at h
  obtain ⟨m, hm, rfl⟩ := List.mem_map.1 h
  have hkept := (List.mem_filter.1 hm).2
  rw [Bool.and_eq_true, Bool.not_eq_true'] at hkept
  exact hkept.1

/-! ## Moving -/

theorem refs_moveLoop {items : List Node} {level : ℕ} {todo : List ℕ} {result extracted : List Node}
    {target : ℕ} {out : List Node × List Node × ℕ}
    (h : moveLoop items level todo result extracted target = .ok (.ok out)) :
    ((out.1 ++ out.2.1).map Node.itemRef).Perm ((result ++ extracted).map Node.itemRef) := by
  induction todo generalizing result extracted target with
  | nil =>
    simp only [moveLoop, Except.ok.injEq] at h
    subst h
    exact .refl _
  | cons start rest ih =>
    obtain ⟨hlen, moved, target', hshift, hrest⟩ := moveLoop_cons_of_ok h
    refine (ih hrest).trans ?_
    have hlt : start < items.length := by
      by_contra hge
      simp [moveLoop, not_lt.1 hge] at h
    have hle : start ≤ subtreeEnd items start := (lt_subtreeEnd hlt).le
    have hmoved := map_itemRef_shift (slice result start (subtreeEnd items start)) level
    rw [hshift] at hmoved
    have hslice := (perm_slice result hle).map Node.itemRef
    simp only [List.map_append] at hslice ⊢
    rw [hmoved, ← List.append_assoc]
    exact (List.perm_append_comm.trans hslice.symm).append_right _

theorem refs_moveItems {indices : List ℕ} {target : TargetPosition} {result : Except MoveError Unit}
    (h : t.moveItems indices target = .ok (result, t')) : t'.refs.Perm t.refs := by
  cases hlast : indices.getLast?.any (fun idx => t.items.length ≤ idx) with
  | true =>
    rw [moveItems, hlast] at h
    cases h
    exact .refl _
  | false =>
    cases result with
    | ok u =>
      obtain ⟨rest, extracted, shifted, hloop, hitems⟩ := moveItems_of_ok hlast h
      have hperm := refs_moveLoop hloop
      rw [List.append_nil] at hperm
      rw [refs, hitems]
      refine (List.Perm.map _ ?_).trans hperm
      rw [List.append_assoc]
      refine (List.perm_append_comm.append_left _).trans ?_
      rw [← List.append_assoc, List.take_append_drop]
    | error e =>
      -- a refused move leaves the tree alone
      rw [moveItems_eq hlast] at h
      split at h
      · cases h
      · cases h
        exact .refl _
      · split at h
        · cases h
          exact .refl _
        · cases h

theorem refs_shiftInPlace {idx : ℕ} (hidx : idx < t.items.length) (level : ℕ) :
    (t.shiftInPlace idx (subtreeEnd t.items idx) level).2.refs.Perm t.refs := by
  have hle : idx ≤ subtreeEnd t.items idx := (lt_subtreeEnd hidx).le
  have hslice := (perm_slice t.items hle).map Node.itemRef
  rw [List.map_append] at hslice
  rw [shiftInPlace_snd, refs, List.map_append, List.map_append, map_itemRef_shift]
  refine .trans ?_ hslice.symm
  rw [List.map_append, ← List.append_assoc]
  exact List.perm_append_comm.append_right _

theorem refs_moveItem {vidx : ℕ} {direction : MoveDir} {f : Node → Bool} {result : Except MoveError ℕ}
    (h : t.moveItem vidx direction f = .ok (result, t')) : t'.refs.Perm t.refs := by
  rcases moveItem_cases h with rfl | ⟨idx, hidx, ⟨target, r, hmoves⟩ | ⟨-, -, rfl⟩ |
    ⟨-, nodeIdx, node, -, -, -, rfl⟩⟩
  · exact .refl _
  · exact refs_moveItems hmoves
  · exact refs_shiftInPlace (lt_of_toDisplayed hidx) _
  · exact refs_shiftInPlace (lt_of_toDisplayed hidx) _

/-! ## What is taken out together -/

/-- The node of `k` is the node of `a`, or lies below it. -/
def Covers (t : DisplayedItemTree) (a k : DisplayedItemRef) : Prop :=
  ∃ m ∈ t.items.zip (paths Node.level t.items),
    m.1.itemRef = k ∧ ∃ node ∈ m.1 :: m.2, node.itemRef = a

theorem Covers.mem_refs {a k : DisplayedItemRef} (h : t.Covers a k) : k ∈ t.refs := by
  obtain ⟨m, hm, rfl, -⟩ := h
  exact List.mem_map_of_mem (List.of_mem_zip hm).1

/-- The nodes with their ancestors, cut around a subtree. -/
theorem zip_paths_subtree {pre sub rest : List Node} {x : Node} (hbelow : Below Node.level x sub rest) :
    (pre ++ x :: (sub ++ rest)).zip (paths Node.level (pre ++ x :: (sub ++ rest)))
      = pre.zip (paths Node.level pre)
        ++ ((x :: sub).zip (pathsFrom Node.level (openedAfter Node.level [] pre) (x :: sub))
          ++ rest.zip (pathsFrom Node.level (openedAfter Node.level [] pre) rest)) := by
  rw [paths, pathsFrom_append, pathsFrom_subtree hbelow, List.zip_append length_pathsFrom.symm,
    ← List.cons_append, List.zip_append length_pathsFrom.symm]
  rfl

/-- The root of a subtree covers all of its nodes. -/
theorem mem_path_of_subtree {sub opened : List Node} {x : Node} (hdeeper : ∀ y ∈ sub, x.level < y.level)
    {m : Node × List Node} (hm : m ∈ (x :: sub).zip (pathsFrom Node.level opened (x :: sub))) :
    x ∈ m.1 :: m.2 := by
  rw [pathsFrom, List.zip_cons_cons, List.mem_cons] at hm
  rcases hm with rfl | hm
  · exact List.mem_cons_self
  · have hroot : x ∈ x :: opened.filter (·.level < x.level) := List.mem_cons_self
    exact List.mem_cons_of_mem _ (mem_of_mem_pathsFrom hroot hdeeper m.2 (List.of_mem_zip hm).2)

theorem covers_of_removeRecursive {item : ℕ} {removed : List DisplayedItemRef}
    (h : t.removeRecursive item = .ok (removed, t')) {node : Node} (hnode : t.items[item]? = some node) :
    (∀ k ∈ removed, t.Covers node.itemRef k) ∧ ∀ a k, t'.Covers a k → t.Covers a k := by
  obtain ⟨pre, x, sub, rest, heq, hget, -, hpre, hslice, hrest, hbelow⟩ :=
    exists_split (List.getElem?_eq_some_iff.1 hnode).1
  obtain rfl : node = x := Option.some.inj (hnode.symm.trans hget)
  rw [removeRecursive, if_neg (not_le.2 (List.getElem?_eq_some_iff.1 hnode).1)] at h
  simp only [hslice, hpre, hrest] at h
  cases h
  have hzip := @zip_paths_subtree pre sub rest node hbelow
  rw [← heq] at hzip
  constructor
  · intro k hk
    obtain ⟨y, hy, rfl⟩ := List.mem_map.1 hk
    rw [← List.map_fst_zip (length_pathsFrom.ge : (node :: sub).length ≤
      (pathsFrom Node.level (openedAfter Node.level [] pre) (node :: sub)).length)] at hy
    obtain ⟨m, hm, rfl⟩ := List.mem_map.1 hy
    refine ⟨m, ?_, rfl, node, mem_path_of_subtree hbelow.deeper hm, rfl⟩
    rw [hzip, List.mem_append, List.mem_append]
    exact .inr (.inl hm)
  · rintro a k ⟨m, hm, hk⟩
    refine ⟨m, ?_, hk⟩
    rw [paths, pathsFrom_append, List.zip_append length_pathsFrom.symm, List.mem_append] at hm
    rw [hzip, List.mem_append, List.mem_append]
    exact hm.imp_right .inr

/-- What is drained is covered by a node that satisfies the predicate. -/
theorem covers_of_drainRecursiveIf {f : Node → Bool} {k : DisplayedItemRef}
    (hk : k ∈ (t.drainRecursiveIf f).1) :
    ∃ m ∈ t.items.zip (paths Node.level t.items),
      m.1.itemRef = k ∧ ∃ node ∈ m.1 :: m.2, f node = true := by
  let keep : Node × List Node → Bool := fun m => !f m.1 && !m.2.any f
  let members := t.items.zip (paths Node.level t.items)
  have hrefs : t.refs = members.map fun m => m.1.itemRef := by
    rw [refs, ← List.map_fst_zip (length_pathsFrom.ge : t.items.length ≤ (paths Node.level t.items).length),
      List.map_map]
    rfl
  have hkept : (t.drainRecursiveIf f).2.refs = (members.filter keep).map fun m => m.1.itemRef := by
    rw [refs, items_drainRecursiveIf, List.map_map]
    rfl
  have hperm := t.refs_drainRecursiveIf f
  rw [hrefs, hkept] at hperm
  have hsplit := (List.filter_append_perm keep members).map fun m => m.1.itemRef
  rw [List.map_append] at hsplit
  have hremoved := (List.perm_append_right_iff _).1 ((List.perm_append_comm.trans hsplit).trans hperm)
  obtain ⟨m, hm, rfl⟩ := List.mem_map.1 (hremoved.mem_iff.2 hk)
  rw [List.mem_filter] at hm
  refine ⟨m, hm.1, rfl, ?_⟩
  by_contra hnone
  push Not at hnone
  rw [List.forall_mem_cons] at hnone
  have hkeep : keep m = true := by simpa [keep] using hnone
  simp [hkeep] at hm

/-- Something is drained only when a node satisfies the predicate. -/
theorem exists_of_drainRecursiveIf {f : Node → Bool} {k : DisplayedItemRef}
    (hk : k ∈ (t.drainRecursiveIf f).1) : ∃ node ∈ t.items, f node = true := by
  obtain ⟨m, hm, -, node, hnode, hf⟩ := covers_of_drainRecursiveIf hk
  obtain ⟨hitem, hpath⟩ := List.of_mem_zip hm
  refine ⟨node, ?_, hf⟩
  rcases List.mem_cons.1 hnode with rfl | hnode
  · exact hitem
  · exact forall_mem_pathsFrom (P := (· ∈ t.items)) (by simp) (fun y hy => hy) m.2 hpath node hnode

end DisplayedItemTree

end ItemTree
