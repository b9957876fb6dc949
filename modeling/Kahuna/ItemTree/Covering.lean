import Kahuna.ItemTree.Iterators
import Kahuna.ItemTree.References

/-!
# What is left when nodes are taken out

A node is taken out with everything that it covers, and nothing else goes.

* `mem_refs_of_removeRecursive`: the references that are left;
* `covers_iff_of_removeRecursive`: what is left is covered by the nodes that covered it;
* `exists_visible_covers`: every node is covered by one that is shown;
* `nodup_iterVisible`: the nodes that are shown are distinct.
-/

namespace ItemTree

open Outline

namespace DisplayedItemTree

variable {t t' : DisplayedItemTree} {a k : DisplayedItemRef}

/-- A node that covers another one is in the tree. -/
theorem Covers.mem_refs_left (h : t.Covers a k) : a ∈ t.refs := by
  obtain ⟨m, hm, -, node, hnode, rfl⟩ := h
  obtain ⟨hitem, hpath⟩ := List.of_mem_zip hm
  refine List.mem_map_of_mem ?_
  rcases List.mem_cons.1 hnode with rfl | hnode
  · exact hitem
  · exact forall_mem_pathsFrom (P := (· ∈ t.items)) (by simp) (fun _ h => h) m.2 hpath node hnode

theorem covers_self (h : k ∈ t.refs) : t.Covers k k := by
  obtain ⟨node, hnode, rfl⟩ := List.mem_map.1 h
  obtain ⟨i, hi, rfl⟩ := List.getElem_of_mem hnode
  have hi' : i < (paths Node.level t.items).length := by rwa [paths, length_pathsFrom]
  refine ⟨(t.items[i], (paths Node.level t.items)[i]), ?_, rfl, t.items[i], List.mem_cons_self, rfl⟩
  rw [← List.getElem_zip (h := by rw [List.length_zip]; exact lt_min hi hi')]
  exact List.getElem_mem _

/-- A node covers those in its subtree. -/
theorem covers_of_lt_subtreeEnd {i j : ℕ} (hi : i < t.items.length) (hji : j < i) (hend : i < subtreeEnd t.items j) :
    t.Covers t.items[j].itemRef t.items[i].itemRef := by
  have hi' : i < (paths Node.level t.items).length := by rwa [paths, length_pathsFrom]
  refine ⟨(t.items[i], (paths Node.level t.items)[i]), ?_, rfl, t.items[j], List.mem_cons_of_mem _ ?_, rfl⟩
  · rw [← List.getElem_zip (h := by rw [List.length_zip]; exact lt_min hi hi')]
    exact List.getElem_mem _
  · exact (mem_paths_iff hi hi').2 ⟨j, hji, rfl, hend⟩

/-- Every node is covered by one that is shown. -/
theorem exists_visible_covers (h : k ∈ t.refs) : ∃ node ∈ t.iterVisible, t.Covers node.itemRef k := by
  obtain ⟨node, hnode, rfl⟩ := List.mem_map.1 h
  obtain ⟨i, hi, rfl⟩ := List.getElem_of_mem hnode
  -- the first node whose subtree has it
  let above : ℕ → Prop := fun j => j = i ∨ j < i ∧ i < subtreeEnd t.items j
  have hex : ∃ j, above j := ⟨i, .inl rfl⟩
  classical
  let j := Nat.find hex
  have hj : above j := Nat.find_spec hex
  have hji : j ≤ i := hj.elim (fun h => h.le) fun h => h.1.le
  have hjl : j < t.items.length := hji.trans_lt hi
  have hshown : t.Shown j := by
    refine (shown_iff hjl).2 fun l hl hend => ?_
    exfalso
    refine Nat.find_min hex hl (.inr ⟨hl.trans_le hji, ?_⟩)
    rcases hj with hj | ⟨-, hj⟩
    · exact hj ▸ hend
    · exact hj.trans_le (Outline.subtreeEnd_le_of_lt (hl.trans hjl) hl hend)
  have hmem : t.items[j] ∈ t.iterVisible :=
    List.mem_filterMap.2 ⟨j, mem_visible_iff.2 ⟨hjl, hshown⟩, List.getElem?_eq_getElem hjl⟩
  refine ⟨t.items[j], hmem, ?_⟩
  rcases hj with hj | ⟨hlt, hend⟩
  · have heq : t.items[j] = t.items[i] := by congr
    rw [heq]
    exact covers_self (List.mem_map_of_mem hnode)
  · exact covers_of_lt_subtreeEnd hi hlt hend

/-! ## What is shown -/

theorem map_iterVisible (t : DisplayedItemTree) :
    t.iterVisible.map Node.itemRef = t.visible.filterMap fun i => t.refs[i]? := by
  rw [iterVisible, List.map_filterMap]
  simp only [refs, List.getElem?_map]

theorem mem_refs_of_mem_iterVisible (h : k ∈ t.iterVisible.map Node.itemRef) : k ∈ t.refs := by
  rw [map_iterVisible, List.mem_filterMap] at h
  obtain ⟨i, -, hi⟩ := h
  exact List.mem_of_getElem? hi

/-- The visible nodes have distinct references. -/
theorem nodup_iterVisible (h : t.refs.Nodup) : (t.iterVisible.map Node.itemRef).Nodup := by
  rw [map_iterVisible]
  refine List.Nodup.filterMap (fun i j k hi hj => ?_) ((visible_increasing t).imp fun h => h.ne)
  obtain ⟨hilt, hik⟩ := List.getElem?_eq_some_iff.1 hi
  obtain ⟨hjlt, hjk⟩ := List.getElem?_eq_some_iff.1 hj
  exact (h.getElem_inj_iff).1 (hik.trans hjk.symm)

theorem length_iterVisible_le (h : t.refs.Nodup) : t.iterVisible.length ≤ t.refs.length := by
  rw [← List.length_map Node.itemRef]
  exact (List.subperm_of_subset (nodup_iterVisible h) fun _ => mem_refs_of_mem_iterVisible).length_le

section Removing

variable {item : ℕ} {removed : List DisplayedItemRef} {node : Node}

/-- The nodes that are left are in the order they had. -/
theorem sublist_removeRecursive (h : t.removeRecursive item = .ok (removed, t')) : t'.items.Sublist t.items := by
  rw [removeRecursive] at h
  split at h
  · cases h
  next hitem =>
    cases h
    have hle : item ≤ subtreeEnd t.items item := (lt_subtreeEnd (not_le.1 hitem)).le
    conv_rhs => rw [← List.take_append_drop item t.items]
    exact (List.Sublist.refl _).append (List.drop_sublist_drop_left _ hle)

/-- A node that is left has its ancestors. -/
theorem mem_zip_of_removeRecursive (h : t.removeRecursive item = .ok (removed, t')) (hnodup : t.refs.Nodup)
    (hnode : t.items[item]? = some node) {m : Node × List Node} (hm : m ∈ t.items.zip (paths Node.level t.items))
    (hk : m.1.itemRef ∈ t'.refs) : m ∈ t'.items.zip (paths Node.level t'.items) := by
  have hdisjoint := List.disjoint_of_nodup_append ((refs_removeRecursive h).nodup_iff.1 hnodup)
  obtain ⟨pre, x, sub, rest, heq, hget, -, hpre, hslice, hrest, hbelow⟩ :=
    exists_split (List.getElem?_eq_some_iff.1 hnode).1
  rw [removeRecursive, if_neg (not_le.2 (List.getElem?_eq_some_iff.1 hnode).1)] at h
  simp only [hslice, hpre, hrest] at h
  cases h
  have hzip := @zip_paths_subtree pre sub rest x hbelow
  rw [← heq] at hzip
  rw [hzip, List.mem_append, List.mem_append] at hm
  rw [paths, pathsFrom_append, List.zip_append length_pathsFrom.symm, List.mem_append]
  rcases hm with hm | hm | hm
  · exact .inl hm
  · exact absurd hk (hdisjoint (List.mem_map_of_mem (List.of_mem_zip hm).1))
  · exact .inr hm

/-- The references that are left are those that the node does not cover. -/
theorem mem_refs_of_removeRecursive (h : t.removeRecursive item = .ok (removed, t')) (hnodup : t.refs.Nodup)
    (hnode : t.items[item]? = some node) : k ∈ t'.refs ↔ k ∈ t.refs ∧ ¬ t.Covers node.itemRef k := by
  have hperm := refs_removeRecursive h
  have hdisjoint := List.disjoint_of_nodup_append (hperm.nodup_iff.1 hnodup)
  obtain ⟨hcovered, -⟩ := covers_of_removeRecursive h hnode
  constructor
  · intro hk
    refine ⟨hperm.mem_iff.2 (List.mem_append_right _ hk), ?_⟩
    rintro ⟨m, hm, rfl, hpath⟩
    have hleft : t'.Covers node.itemRef m.1.itemRef :=
      ⟨m, mem_zip_of_removeRecursive h hnodup hnode hm hk, rfl, hpath⟩
    -- the node itself has been taken out
    refine hdisjoint ?_ hleft.mem_refs_left
    rw [removeRecursive, if_neg (not_le.2 (List.getElem?_eq_some_iff.1 hnode).1)] at h
    obtain ⟨pre, x, sub, rest, -, hget, -, -, hslice, -, -⟩ := exists_split (List.getElem?_eq_some_iff.1 hnode).1
    obtain rfl : node = x := Option.some.inj (hnode.symm.trans hget)
    simp only [hslice] at h
    cases h
    exact List.mem_cons_self
  · rintro ⟨hk, hnot⟩
    rcases List.mem_append.1 (hperm.mem_iff.1 hk) with hremoved | hleft
    · exact absurd (hcovered k hremoved) hnot
    · exact hleft

/-- What is left is covered by the nodes that covered it. -/
theorem covers_iff_of_removeRecursive (h : t.removeRecursive item = .ok (removed, t')) (hnodup : t.refs.Nodup)
    (hnode : t.items[item]? = some node) (hk : k ∈ t'.refs) : t'.Covers a k ↔ t.Covers a k := by
  refine ⟨(covers_of_removeRecursive h hnode).2 a k, ?_⟩
  rintro ⟨m, hm, rfl, hpath⟩
  exact ⟨m, mem_zip_of_removeRecursive h hnodup hnode hm hk, rfl, hpath⟩

end Removing

end DisplayedItemTree

end ItemTree
