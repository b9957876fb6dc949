import Kahuna.ItemTree.Keyboard
import Kahuna.Outline.Gathering

/-!
# Items moved into a new group

A new group is put somewhere, and some items are moved right behind it, one level deeper. Then the group has
exactly these items below it, with all that was below them, and nothing else has moved.

- `lineages_parts`: the lineages below the root of a subtree, and beside it;
- `Grouped`: what moving items into a new group is for;
- `grouped_of_moved`: it is done, when the items are moved right behind the group;
- `not_grouped_of_nested`: it is not, when one of the items is below another one.
-/

namespace ItemTree

open Outline DisplayedItemTree

variable {t t' : DisplayedItemTree} {items opened pre sub rest : List Node} {x : Node}
  {itemRefs : List DisplayedItemRef} {groupRef : DisplayedItemRef}

/-! ## Lineages in parts -/

/-- The lineages of some nodes, when others are open before them. -/
def lineagesFrom (opened items : List Node) : List (DisplayedItemRef × List DisplayedItemRef) :=
  (items.map Node.itemRef).zip ((pathsFrom Node.level opened items).map (List.map Node.itemRef))

theorem map_fst_lineagesFrom : (lineagesFrom opened items).map Prod.fst = items.map Node.itemRef :=
  List.map_fst_zip (by simp)

theorem map_fst_lineages : (lineages items).map Prod.fst = items.map Node.itemRef :=
  @map_fst_lineagesFrom items []

/-- The lineages name nodes, and those open before them. -/
theorem mem_of_mem_lineagesFrom {l : DisplayedItemRef × List DisplayedItemRef}
    (h : l ∈ lineagesFrom opened items) :
    l.1 ∈ items.map Node.itemRef ∧ ∀ k ∈ l.2, k ∈ (opened ++ items).map Node.itemRef := by
  obtain ⟨hfst, hsnd⟩ := List.of_mem_zip (Prod.mk.eta.symm ▸ h : (l.1, l.2) ∈ lineagesFrom opened items)
  refine ⟨hfst, fun k hk => ?_⟩
  obtain ⟨path, hpath, hl⟩ := List.mem_map.1 hsnd
  rw [← hl] at hk
  obtain ⟨node, hnode, rfl⟩ := List.mem_map.1 hk
  have hmem := forall_mem_pathsFrom (P := fun y => y ∈ opened ++ items)
    (fun y hy => List.mem_append_left _ hy) (fun y hy => List.mem_append_right _ hy) path hpath node hnode
  exact List.mem_map_of_mem hmem

theorem lineages_append : lineages (pre ++ rest)
    = lineages pre ++ lineagesFrom (openedAfter Node.level [] pre) rest := by
  rw [lineages, paths, pathsFrom_append, List.map_append, List.map_append, List.zip_append (by simp)]
  rfl

theorem lineages_eq_withPaths (items : List Node) : lineages items
    = (withPaths Node.level items).map fun m => (m.1.itemRef, m.2.map Node.itemRef) := by
  rw [lineages, withPaths, List.zip_map]
  rfl

/-- The lineages of a subtree, and of what is behind it. -/
theorem lineagesFrom_subtree (h : Below Node.level x sub rest) :
    lineagesFrom opened (x :: (sub ++ rest))
      = (x.itemRef, (opened.filter (Node.level · < x.level)).map Node.itemRef) ::
        (lineages sub).map (fun l =>
          (l.1, l.2 ++ x.itemRef :: (opened.filter (Node.level · < x.level)).map Node.itemRef))
        ++ lineagesFrom opened rest := by
  set above := opened.filter (Node.level · < x.level) with habove
  have hpaths : (pathsFrom Node.level opened (x :: sub)).map (List.map Node.itemRef)
      = above.map Node.itemRef :: ((paths Node.level sub).map (List.map Node.itemRef)).map
          (· ++ x.itemRef :: above.map Node.itemRef) := by
    rw [pathsFrom_under h.deeper, paths_under h.deeper, ← habove]
    simp [Function.comp_def]
  rw [lineagesFrom, pathsFrom_subtree h, ← List.cons_append, List.map_append, List.map_append,
    List.zip_append (by simp), hpaths, List.map_cons, List.zip_cons_cons, List.zip_map_right]
  rfl

/-- The lineages of a list with a subtree in it. -/
theorem lineages_with (h : Below Node.level x sub rest) :
    ∃ above, (∀ k ∈ above, k ∈ pre.map Node.itemRef) ∧ lineages (pre ++ x :: (sub ++ rest))
      = lineages pre ++ ((x.itemRef, above) :: (lineages sub).map (fun l => (l.1, l.2 ++ x.itemRef :: above))
        ++ lineagesFrom (openedAfter Node.level [] pre) rest) := by
  refine ⟨_, fun k hk => ?_, by rw [lineages_append, lineagesFrom_subtree h]⟩
  obtain ⟨node, hnode, rfl⟩ := List.mem_map.1 hk
  obtain ⟨j, hj, rfl, -⟩ := mem_openedAfter_iff.1 (List.mem_of_mem_filter hnode)
  exact List.mem_map_of_mem (List.getElem_mem hj)

/-- The lineages of the nodes below `k`, up to `k`. -/
def lineagesBelow (k : DisplayedItemRef) (items : List Node) : List (DisplayedItemRef × List DisplayedItemRef) :=
  ((lineages items).filter fun l => k ∈ l.2).map fun l => (l.1, l.2.takeWhile (· ≠ k))

/-- The lineages of the nodes that are neither `k` nor below it. -/
def lineagesBeside (k : DisplayedItemRef) (items : List Node) : List (DisplayedItemRef × List DisplayedItemRef) :=
  (lineages items).filter fun l => l.1 ≠ k ∧ k ∉ l.2

/-- The nodes below the root of a subtree, and those beside it. -/
theorem lineages_parts (h : Below Node.level x sub rest)
    (hnodup : ((pre ++ x :: (sub ++ rest)).map Node.itemRef).Nodup) :
    lineagesBelow x.itemRef (pre ++ x :: (sub ++ rest)) = lineages sub ∧
      lineagesBeside x.itemRef (pre ++ x :: (sub ++ rest)) = lineages (pre ++ rest) := by
  obtain ⟨above, habove, hlineages⟩ := @lineages_with pre sub rest x h
  have hx : x.itemRef ∉ (pre ++ (sub ++ rest)).map Node.itemRef := by
    rw [List.map_append, List.map_cons] at hnodup
    rw [List.map_append]
    exact (List.nodup_middle.1 hnodup).notMem
  simp only [List.map_append, List.mem_append, not_or] at hx
  obtain ⟨hpre, hsub, hrest⟩ := hx
  -- neither what is before the subtree nor what is behind it is below the root
  have hbefore : ∀ l ∈ lineages pre, l.1 ≠ x.itemRef ∧ x.itemRef ∉ l.2 := by
    intro l hl
    obtain ⟨hfst, hsnd⟩ := @mem_of_mem_lineagesFrom pre [] l hl
    exact ⟨fun heq => hpre (heq ▸ hfst), fun hmem => hpre (hsnd _ hmem)⟩
  have hbehind : ∀ l ∈ lineagesFrom (openedAfter Node.level [] pre) rest, l.1 ≠ x.itemRef ∧ x.itemRef ∉ l.2 := by
    intro l hl
    obtain ⟨hfst, hsnd⟩ := mem_of_mem_lineagesFrom hl
    refine ⟨fun heq => hrest (heq ▸ hfst), fun hmem => ?_⟩
    have hmem' := hsnd _ hmem
    rw [List.map_append, List.mem_append] at hmem'
    rcases hmem' with hmem' | hmem'
    · obtain ⟨node, hnode, heq⟩ := List.mem_map.1 hmem'
      obtain ⟨j, hj, rfl, -⟩ := mem_openedAfter_iff.1 hnode
      exact hpre (heq ▸ List.mem_map_of_mem (List.getElem_mem hj))
    · exact hrest hmem'
  have hinside : ∀ l ∈ lineages sub, x.itemRef ∉ l.2 := by
    intro l hl hmem
    exact hsub ((@mem_of_mem_lineagesFrom sub [] l hl).2 _ hmem)
  have habove' : x.itemRef ∉ above := fun hmem => hpre (habove _ hmem)
  constructor
  · have hpreNil : (lineages pre).filter (fun l => x.itemRef ∈ l.2) = [] :=
      List.filter_eq_nil_iff.2 fun l hl => by simpa using (hbefore l hl).2
    have hrestNil : (lineagesFrom (openedAfter Node.level [] pre) rest).filter (fun l => x.itemRef ∈ l.2) = [] :=
      List.filter_eq_nil_iff.2 fun l hl => by simpa using (hbehind l hl).2
    have hfilter : (lineages (pre ++ x :: (sub ++ rest))).filter (fun l => x.itemRef ∈ l.2)
        = (lineages sub).map fun l => (l.1, l.2 ++ x.itemRef :: above) := by
      rw [hlineages, List.filter_append, hpreNil, List.nil_append, List.filter_append, hrestNil,
        List.append_nil, List.filter_cons_of_neg (by simpa using habove'), List.filter_eq_self]
      refine List.forall_mem_map.2 fun l _ => ?_
      simp
    rw [lineagesBelow, hfilter, List.map_map]
    refine (List.map_congr_left fun l hl => ?_).trans (List.map_id _)
    have htake : (l.2 ++ x.itemRef :: above).takeWhile (· ≠ x.itemRef) = l.2 := by
      have hpos : ∀ k ∈ l.2, decide (k ≠ x.itemRef) = true :=
        fun k hk => decide_eq_true fun heq => hinside l hl (heq ▸ hk)
      rw [List.takeWhile_append_of_pos hpos]
      simp
    rw [Function.comp_apply, htake]
    rfl
  · have hpreSelf : (lineages pre).filter (fun l => l.1 ≠ x.itemRef ∧ x.itemRef ∉ l.2) = lineages pre :=
      List.filter_eq_self.2 fun l hl => by simpa using hbefore l hl
    have hrestSelf : (lineagesFrom (openedAfter Node.level [] pre) rest).filter
        (fun l => l.1 ≠ x.itemRef ∧ x.itemRef ∉ l.2) = lineagesFrom (openedAfter Node.level [] pre) rest :=
      List.filter_eq_self.2 fun l hl => by simpa using hbehind l hl
    have hsubNil : ((lineages sub).map fun l => (l.1, l.2 ++ x.itemRef :: above)).filter
        (fun l => l.1 ≠ x.itemRef ∧ x.itemRef ∉ l.2) = [] := by
      rw [List.filter_eq_nil_iff]
      refine List.forall_mem_map.2 fun l _ => ?_
      simp
    rw [lineagesBeside, hlineages, lineages_append, List.filter_append, hpreSelf, List.filter_append, hrestSelf,
      List.filter_cons_of_neg (by simp), hsubNil, List.nil_append]

/-- Lineages depend on levels and references alone. -/
theorem lineages_congr {items' : List Node} (h : items'.map (fun node => (node.level, node.itemRef))
    = items.map fun node => (node.level, node.itemRef)) : lineages items' = lineages items := by
  have hshape : ∀ items : List Node, lineages items
      = ((items.map fun node => (node.level, node.itemRef)).map Prod.snd).zip
        ((paths Prod.fst (items.map fun node => (node.level, node.itemRef))).map (List.map Prod.snd)) := by
    intro items
    have hpaths := @pathsFrom_map (ℕ × DisplayedItemRef) Node Prod.fst (fun node => (node.level, node.itemRef)) []
      items
    rw [List.map_nil] at hpaths
    rw [lineages, paths, paths, hpaths, List.map_map, List.map_map]
    congr 1
    refine List.map_congr_left fun path _ => ?_
    rw [Function.comp_apply, List.map_map]
    rfl
  rw [hshape items', hshape items, h]

/-! ## Moved subtrees -/

/-- A moved subtree has the lineages that the subtree has. -/
theorem lineages_movedSubtree (level : ℕ) {i : ℕ} (hi : i < items.length) :
    lineages (movedSubtree items level i) = lineages (subtreeAt Node.level items i) := by
  obtain ⟨pre, x, sub, rest, heq, hget, rfl, -, hslice, -, hbelow⟩ := exists_split hi
  have hlevel : levelAt items pre.length = x.level := by rw [levelAt, hget]; rfl
  have hge : ∀ y ∈ x :: sub, x.level ≤ y.level :=
    List.forall_mem_cons.2 ⟨le_rfl, fun y hy => (hbelow.deeper y hy).le⟩
  have hsubtree : subtreeAt Node.level items pre.length = x :: sub := hslice
  have hpaths : paths Node.level ((x :: sub).map (relevel items level pre.length))
      = (paths Node.level (x :: sub)).map (List.map (relevel items level pre.length)) := by
    refine paths_map fun y hy z hz => ?_
    have hy := hge y hy
    have hz := hge z hz
    simp only [relevel, hlevel]
    omega
  rw [movedSubtree, hslice, hsubtree, lineages, lineages, hpaths, List.map_map, List.map_map]
  congr 1
  refine List.map_congr_left fun path _ => ?_
  rw [Function.comp_apply, List.map_map]
  rfl

/-- A subtree in front of others does not matter for them. -/
theorem lineages_subtree (h : Below Node.level x sub rest) :
    lineages (x :: (sub ++ rest)) = lineages (x :: sub) ++ lineages rest := by
  rw [lineages, paths, pathsFrom_subtree h, ← List.cons_append, List.map_append, List.map_append,
    List.zip_append (by simp)]
  rfl

/-- Moved subtrees stand next to each other. -/
theorem lineages_flatMap_movedSubtree (level : ℕ) {roots : List ℕ} (hroots : ∀ i ∈ roots, i < items.length) :
    lineages (roots.flatMap (movedSubtree items level))
      = roots.flatMap fun i => lineages (subtreeAt Node.level items i) := by
  induction roots with
  | nil => rfl
  | cons i roots ih =>
    rw [List.forall_mem_cons] at hroots
    obtain ⟨pre, x, sub, rest, heq, hget, rfl, -, hslice, -, hbelow⟩ := exists_split hroots.1
    have hlevel : levelAt items pre.length = x.level := by rw [levelAt, hget]; rfl
    have hmoved : movedSubtree items level pre.length
        = relevel items level pre.length x :: sub.map (relevel items level pre.length) := by
      rw [movedSubtree, hslice]
      rfl
    have hbelow' : Below Node.level (relevel items level pre.length x)
        (sub.map (relevel items level pre.length)) (roots.flatMap (movedSubtree items level)) := by
      constructor
      · refine List.forall_mem_map.2 fun y hy => ?_
        have hdeeper := hbelow.deeper y hy
        simp only [relevel, hlevel]
        omega
      · intro y hy
        have hhead := head_flatMap_movedSubtree hroots.2 level y hy
        simp only [relevel, hlevel]
        omega
    rw [List.flatMap_cons, List.flatMap_cons, ← ih hroots.2, ← lineages_movedSubtree level hroots.1, hmoved,
      List.cons_append, lineages_subtree hbelow']

/-! ## Given items -/

/-- Whether a lineage is that of a given item, or of one below it. -/
def Given (itemRefs : List DisplayedItemRef) (l : DisplayedItemRef × List DisplayedItemRef) : Bool :=
  itemRefs.contains l.1 || l.2.any itemRefs.contains

/-- The lineages of the given items and what is below them, up to the outermost of the given items. -/
def givenLineages (itemRefs : List DisplayedItemRef) (items : List Node) :
    List (DisplayedItemRef × List DisplayedItemRef) :=
  ((lineages items).filter (Given itemRefs)).map fun l => (l.1, l.2.rdropWhile fun k => !itemRefs.contains k)

/-- Some items are put into a new group: below the group are exactly the given items with what was below them,
in the old order and as deep below each other as they were. All other items keep their order and their
ancestors. -/
structure Grouped (t t' : DisplayedItemTree) (itemRefs : List DisplayedItemRef) (groupRef : DisplayedItemRef) :
    Prop where
  given : ∀ k ∈ itemRefs, k ∈ t.refs
  new : groupRef ∉ t.refs
  refs : t'.refs.Perm (groupRef :: t.refs)
  below : lineagesBelow groupRef t'.items = givenLineages itemRefs t.items
  beside : lineagesBeside groupRef t'.items = (lineages t.items).filter fun l => !Given itemRefs l

/-- The indices of the nodes of some items. -/
def givenIndices (itemRefs : List DisplayedItemRef) (items : List Node) : List ℕ :=
  indicesFrom (fun node => itemRefs.contains node.itemRef) 0 items

theorem mem_givenIndices {i : ℕ} : i ∈ givenIndices itemRefs items ↔
    ∃ node, items[i]? = some node ∧ node.itemRef ∈ itemRefs := by
  rw [givenIndices, indicesFrom_eq_filter, List.mem_filter, List.mem_range]
  constructor
  · rintro ⟨hi, hany⟩
    rw [List.getElem?_eq_getElem hi] at hany ⊢
    exact ⟨_, rfl, by simpa using hany⟩
  · rintro ⟨node, hnode, hmem⟩
    rw [hnode]
    exact ⟨(List.getElem?_eq_some_iff.1 hnode).1, by simpa using hmem⟩

/-- The indices are taken out from back to front. -/
theorem reverse_backToFront (itemRefs : List DisplayedItemRef) (items : List Node) :
    (backToFront (givenIndices itemRefs items)).reverse = givenIndices itemRefs items := by
  have hsorted : (givenIndices itemRefs items).Pairwise (· < ·) := by
    rw [givenIndices, indicesFrom_eq_filter]
    exact List.pairwise_lt_range.filter _
  have hback := List.pairwise_reverse.2 (pairwise_backToFront (givenIndices itemRefs items))
  refine @List.Perm.eq_of_pairwise _ (· < ·) _ _ (fun a b _ _ hab hba => by omega) hback hsorted ?_
  refine (List.perm_ext_iff_of_nodup (hback.imp fun h => ne_of_lt h) (hsorted.imp fun h => ne_of_lt h)).2 ?_
  exact fun i => by rw [List.mem_reverse, mem_backToFront]

/-- The lineages of the given items, one item after the other. -/
theorem givenLineages_eq (hunnested : ∀ i ∈ givenIndices itemRefs items, ∀ j ∈ givenIndices itemRefs items,
      ¬ (i < j ∧ j < subtreeEnd items i)) :
    givenLineages itemRefs items
      = (givenIndices itemRefs items).flatMap fun i => lineages (subtreeAt Node.level items i) := by
  set f : Node → Bool := fun node => itemRefs.contains node.itemRef with hf
  have hplain : Plain Node.level f items := by
    intro pre x sub rest heq hbelow hx y hy
    by_contra hfy
    rw [Bool.not_eq_false] at hfy
    obtain ⟨k, hk, rfl⟩ := List.getElem_of_mem hy
    have hroot : pre.length ∈ givenIndices itemRefs items :=
      mem_givenIndices.2 ⟨x, by rw [heq]; simp, by simpa [hf] using hx⟩
    have hchild : pre.length + 1 + k ∈ givenIndices itemRefs items := by
      refine mem_givenIndices.2 ⟨sub[k], ?_, by simpa [hf] using hfy⟩
      rw [heq, List.getElem?_append_right (by omega), show pre.length + 1 + k - pre.length = k + 1 by omega,
        List.getElem?_cons_succ, List.getElem?_append_left hk, List.getElem?_eq_getElem hk]
    have hend : subtreeEnd items pre.length = pre.length + 1 + sub.length := by
      rw [heq]
      exact subtreeEnd_split pre hbelow
    exact hunnested _ hroot _ hchild ⟨by omega, by omega⟩
  have hgather := @gatherFrom_eq _ Node.level f [] items [] (by simp) hplain
  have hdrop : ∀ path : List Node, (path.map Node.itemRef).rdropWhile (fun k => !itemRefs.contains k)
      = (path.rdropWhile fun y => !f y).map Node.itemRef := by
    intro path
    rw [List.rdropWhile, List.rdropWhile, ← List.map_reverse, List.dropWhile_map, ← List.map_reverse]
    rfl
  have hleft : givenLineages itemRefs items
      = (gatherFrom Node.level f [] items).map fun m => (m.1.itemRef, m.2.map Node.itemRef) := by
    rw [givenLineages, lineages_eq_withPaths, List.filter_map, List.map_map, gatherFrom, List.map_map, withPaths]
    congr 1
    · funext m
      rw [Function.comp_apply, hdrop]
      rfl
    · refine List.filter_congr fun m _ => ?_
      simp [Given, hf, Function.comp_def]
  rw [hleft, hgather, List.map_flatMap]
  exact List.flatMap_congr fun i _ => (lineages_eq_withPaths _).symm

/-! ## The other items -/

/-- A node is taken along when it is given, or below one that is. -/
theorem uncovered_givenIndices {i : ℕ} (hi : i < items.length) (hi' : i < (paths Node.level items).length) :
    uncovered items (givenIndices itemRefs items) i
      = (!itemRefs.contains items[i].itemRef
        && !((paths Node.level items)[i]).any fun node => itemRefs.contains node.itemRef) := by
  rw [← Bool.not_or, uncovered, Bool.not_inj_iff, Bool.eq_iff_iff, List.any_eq_true, Bool.or_eq_true,
    List.any_eq_true]
  constructor
  · rintro ⟨root, hroot, hcovers⟩
    simp only [covers, Bool.and_eq_true, decide_eq_true_eq] at hcovers
    obtain ⟨node, hnode, hmem⟩ := mem_givenIndices.1 hroot
    rcases hcovers.1.lt_or_eq with hlt | rfl
    · refine .inr ⟨node, (mem_paths_iff hi hi').2 ⟨root, hlt, ?_, hcovers.2⟩, by simpa using hmem⟩
      exact (List.getElem?_eq_some_iff.1 hnode).2
    · rw [List.getElem?_eq_getElem hi] at hnode
      obtain rfl := Option.some.inj hnode
      exact .inl (by simpa using hmem)
  · rintro (hmem | ⟨node, hnode, hmem⟩)
    · have hend : i < subtreeEnd items i := lt_subtreeEnd hi
      exact ⟨i, mem_givenIndices.2 ⟨_, List.getElem?_eq_getElem hi, by simpa using hmem⟩, by simp [covers, hend]⟩
    · obtain ⟨j, hj, rfl, hend⟩ := (mem_paths_iff hi hi').1 hnode
      have hend' : i < subtreeEnd items j := hend
      refine ⟨j, mem_givenIndices.2 ⟨_, List.getElem?_eq_getElem (hj.trans hi), by simpa using hmem⟩, ?_⟩
      simp [covers, hj.le, hend']

/-- The lineages that are given are those of the nodes that are taken along. -/
theorem given_getElem {i : ℕ} (hi : i < items.length) (hi' : i < (lineages items).length) :
    Given itemRefs (lineages items)[i] = !uncovered items (givenIndices itemRefs items) i := by
  rw [uncovered_givenIndices hi (by simpa [paths] using hi)]
  simp [Given, lineages, Function.comp_def]

/-- The items that are not taken along keep their ancestors. -/
theorem lineages_survivors (itemRefs : List DisplayedItemRef) (items : List Node) :
    lineages (survivors items (givenIndices itemRefs items) items)
      = (lineages items).filter fun l => !Given itemRefs l := by
  set f : Node → Bool := fun node => itemRefs.contains node.itemRef with hf
  have hkeep : survivors items (givenIndices itemRefs items) items
      = (pruneFrom Node.level f [] items).map Prod.fst := by
    refine keepAt_eq_map_fst (by simp) fun i hi hi' => ?_
    rw [Nat.zero_add]
    exact uncovered_givenIndices hi hi'
  have hpaths : paths Node.level ((pruneFrom Node.level f [] items).map Prod.fst)
      = (pruneFrom Node.level f [] items).map Prod.snd := pathsFrom_pruneFrom (by simp)
  rw [hkeep, lineages, hpaths, List.map_map, List.map_map, List.zip_map', lineages_eq_withPaths, List.filter_map]
  refine congrArg (List.map _) (List.filter_congr fun m _ => ?_)
  simp [Given, hf, Function.comp_def]

/-- What is left around a node that stays. -/
theorem survivors_around {done : List ℕ} {g : ℕ} (hg : g < items.length) (hstays : uncovered items done g = true) :
    survivors items done (items.take (g + 1)) = keepAt (uncovered items done) 0 (items.take g) ++ [items[g]] ∧
      survivors items done items = keepAt (uncovered items done) 0 (items.take g)
        ++ items[g] :: keepAt (uncovered items done) (g + 1) (items.drop (g + 1)) := by
  have hlen : (items.take g).length = g := by
    rw [List.length_take]
    omega
  have htake : survivors items done (items.take (g + 1))
      = keepAt (uncovered items done) 0 (items.take g) ++ [items[g]] := by
    rw [survivors, List.take_succ_eq_append_getElem hg, keepAt_append, hlen, Nat.zero_add, keepAt, if_pos hstays,
      keepAt_nil]
  refine ⟨htake, ?_⟩
  rw [survivors, keepAt_take_drop (g + 1) hg, Nat.zero_add, ← survivors, htake, List.append_assoc]
  rfl

/-- What is left behind a node is not deeper than it, if the node right behind is not. -/
theorem head_survivors_le {done : List ℕ} {g m : ℕ} (hg : g ≤ items.length) (hdone : ∀ d ∈ done, d < items.length)
    (h : ∀ y ∈ (items.drop g).head?, y.level ≤ m) :
    ∀ y ∈ (keepAt (uncovered items done) g (items.drop g)).head?, y.level ≤ m := by
  have hlen : (items.take g).length = g := by
    rw [List.length_take]
    omega
  have hkeep := @keepAt_of_remove _ Node.level (items.drop g) (fun xs => ∀ y ∈ xs.head?, y.level ≤ m)
    (fun {pre x sub rest} hbelow hhead y hy => by
      cases pre with
      | nil => exact (hbelow.behind y hy).trans (hhead x rfl)
      | cons z pre => exact hhead y hy)
    (uncovered items done) g [] h fun j k hjk hk hj hp => ?_
  · exact hkeep
  · -- subtrees of the rest are subtrees of the whole list
    have hend := @subtreeEnd_append_right _ Node.level (items.drop g) j (items.take g) hj
    rw [List.take_append_drop, hlen] at hend
    rw [List.length_drop] at hj
    have hclosed := closed_uncovered hdone (g + j) (g + k) (by omega) (by omega) (by omega)
    rw [Nat.zero_add, Nat.zero_add] at hclosed
    exact hclosed hp

/-! ## Moving the items -/

/-- A tree with a new group that has nothing below it, and the tree without the group. -/
structure WithGroup (t t₁ : DisplayedItemTree) (g : ℕ) (group : Node) : Prop where
  get : t₁.items[g]? = some group
  nodup : t₁.refs.Nodup
  behind : ∀ y ∈ t₁.items[g + 1]?, y.level ≤ group.level
  shape : t.shape = (t₁.items.take g ++ t₁.items.drop (g + 1)).map fun node => (node.level, node.itemRef)

namespace WithGroup

variable {t₁ : DisplayedItemTree} {g : ℕ} {group : Node} (h : WithGroup t t₁ g group)

include h

theorem lt : g < t₁.items.length := (List.getElem?_eq_some_iff.1 h.get).1

theorem split : t₁.items = t₁.items.take g ++ group :: ([] ++ t₁.items.drop (g + 1)) := by
  obtain ⟨hlt, hget⟩ := List.getElem?_eq_some_iff.1 h.get
  rw [List.nil_append, ← hget, ← List.drop_eq_getElem_cons hlt, List.take_append_drop]

theorem below : Below Node.level group [] (t₁.items.drop (g + 1)) :=
  ⟨by simp, fun y hy => h.behind y (by rwa [List.head?_drop] at hy)⟩

/-- Nothing is below the group, and all else is beside it. -/
theorem parts : lineagesBelow group.itemRef t₁.items = [] ∧
    lineagesBeside group.itemRef t₁.items = lineages t.items := by
  have hnodup := h.nodup
  rw [DisplayedItemTree.refs, h.split] at hnodup
  have hparts := lineages_parts h.below hnodup
  rw [← h.split] at hparts
  exact ⟨hparts.1, hparts.2.trans (lineages_congr h.shape).symm⟩

theorem perm : t₁.refs.Perm (group.itemRef :: t.refs) := by
  have hrefs : t.refs = (t₁.items.take g ++ t₁.items.drop (g + 1)).map Node.itemRef := by
    have hsnd := congrArg (List.map Prod.snd) h.shape
    rwa [DisplayedItemTree.shape, List.map_map, List.map_map] at hsnd
  rw [hrefs, ← List.map_cons, DisplayedItemTree.refs]
  conv_lhs => rw [h.split]
  exact List.perm_middle.map _

theorem new : group.itemRef ∉ t.refs := (h.perm.nodup_iff.1 h.nodup).notMem

/-- The group stays where it is when the given items are taken out: then it is not given, nor below a given
item. -/
theorem filter_given (hstays : uncovered t₁.items (givenIndices itemRefs t₁.items) g = true) :
    (lineages t₁.items).filter (Given itemRefs) = (lineages t.items).filter (Given itemRefs) := by
  rw [← h.parts.2, lineagesBeside, List.filter_filter]
  refine List.filter_congr fun l hl => ?_
  rw [eq_comm, Bool.and_eq_left_iff_imp]
  intro hgiven
  refine decide_eq_true ⟨fun heq => ?_, fun hmem => ?_⟩
  · -- this is the lineage of the group
    obtain ⟨i, hi, rfl⟩ := List.getElem_of_mem hl
    have hi' : i < t₁.items.length := by
      simpa [lineages, paths] using hi
    have hsame : t₁.refs[i]? = t₁.refs[g]? := by
      have hfst : t₁.refs[i]? = some (lineages t₁.items)[i].1 := by
        rw [DisplayedItemTree.refs, ← map_fst_lineages, List.getElem?_map, List.getElem?_eq_getElem hi,
          Option.map_some]
      rw [hfst, heq, DisplayedItemTree.refs, List.getElem?_map, h.get, Option.map_some]
    obtain rfl : i = g := by
      refine (List.getElem?_inj ?_ h.nodup).1 hsame
      rwa [DisplayedItemTree.refs, List.length_map]
    rw [given_getElem hi' hi, hstays] at hgiven
    cases hgiven
  · have hnone : l ∈ (lineages t₁.items).filter fun l => group.itemRef ∈ l.2 :=
      List.mem_filter.2 ⟨hl, decide_eq_true hmem⟩
    have hnil := h.parts.1
    rw [lineagesBelow, List.map_eq_nil_iff] at hnil
    rw [hnil] at hnone
    cases hnone

/-- What moving the given items right behind the group leaves. -/
theorem exists_moved (hwf : t₁.WellFormed) (level : ℕ)
    (hstays : uncovered t₁.items (givenIndices itemRefs t₁.items) g = true) :
    let done := givenIndices itemRefs t₁.items
    let moved := done.flatMap (movedSubtree t₁.items level)
    let shifted := shiftedTarget t₁.items done (g + 1)
    ∃ before behind, survivors t₁.items done t₁.items = before ++ group :: ([] ++ behind) ∧
      (survivors t₁.items done t₁.items).take shifted ++ moved ++ (survivors t₁.items done t₁.items).drop shifted
        = before ++ group :: (moved ++ behind) ∧
      (∀ y ∈ moved, level ≤ y.level) ∧ (∀ y ∈ behind.head?, y.level ≤ group.level) ∧
      shifted = before.length + 1 := by
  intro done moved shifted
  have hdone : ∀ d ∈ done, d < t₁.items.length := by
    intro d hd
    obtain ⟨node, hnode, -⟩ := mem_givenIndices.1 hd
    exact (List.getElem?_eq_some_iff.1 hnode).1
  obtain ⟨hlt, hget⟩ := List.getElem?_eq_some_iff.1 h.get
  obtain ⟨htake, hsurvivors⟩ := survivors_around h.lt hstays
  rw [hget] at htake hsurvivors
  set before := keepAt (uncovered t₁.items done) 0 (t₁.items.take g) with hbefore
  set behind := keepAt (uncovered t₁.items done) (g + 1) (t₁.items.drop (g + 1)) with hbehind
  have hshifted : shifted = before.length + 1 := by
    show shiftedTarget t₁.items done (g + 1) = _
    rw [shiftedTarget, htake, List.length_append, List.length_singleton]
    omega
  have hdrop : (survivors t₁.items done t₁.items).drop shifted = behind := by
    rw [hsurvivors, hshifted, List.append_cons, List.drop_left' (by simp)]
  refine ⟨before, behind, hsurvivors, ?_, (stepsFrom_flatMap_movedSubtree hwf.steps hdone le_rfl).2, ?_, hshifted⟩
  · rw [take_survivors _ _ h.lt, htake, hdrop, List.append_assoc, List.append_assoc]
    rfl
  · refine head_survivors_le h.lt hdone fun y hy => h.behind y ?_
    rwa [List.head?_drop] at hy

/-- The given items are moved into the group. -/
theorem grouped_of_moved (hwf : t₁.WellFormed) (hgiven : ∀ k ∈ itemRefs, k ∈ t.refs)
    (hunnested : Unnested t₁ (givenIndices itemRefs t₁.items))
    (hstays : uncovered t₁.items (givenIndices itemRefs t₁.items) g = true) (hperm : t'.refs.Perm t₁.refs)
    (hmoved : t'.items = (survivors t₁.items (givenIndices itemRefs t₁.items) t₁.items).take
        (shiftedTarget t₁.items (givenIndices itemRefs t₁.items) (g + 1))
      ++ (givenIndices itemRefs t₁.items).flatMap (movedSubtree t₁.items (group.level + 1))
      ++ (survivors t₁.items (givenIndices itemRefs t₁.items) t₁.items).drop
        (shiftedTarget t₁.items (givenIndices itemRefs t₁.items) (g + 1))) :
    Grouped t t' itemRefs group.itemRef := by
  obtain ⟨before, behind, hsurvivors, hitems, hdeeper, hbehind, -⟩ := h.exists_moved hwf (group.level + 1) hstays
  have hbelow : Below Node.level group ((givenIndices itemRefs t₁.items).flatMap
      (movedSubtree t₁.items (group.level + 1))) behind := ⟨hdeeper, hbehind⟩
  rw [hitems] at hmoved
  have hrange : ∀ i ∈ givenIndices itemRefs t₁.items, i < t₁.items.length := by
    intro i hi
    obtain ⟨node, hnode, -⟩ := mem_givenIndices.1 hi
    exact (List.getElem?_eq_some_iff.1 hnode).1
  have hnodup : ((before ++ group :: ((givenIndices itemRefs t₁.items).flatMap
      (movedSubtree t₁.items (group.level + 1)) ++ behind)).map Node.itemRef).Nodup := by
    rw [← hmoved]
    exact hperm.nodup_iff.2 h.nodup
  have hnodup' : ((before ++ group :: ([] ++ behind)).map Node.itemRef).Nodup := by
    rw [← hsurvivors]
    exact h.nodup.sublist (keepAt_sublist.map _)
  obtain ⟨hinside, hbeside⟩ := lineages_parts hbelow hnodup
  have hbeside' := (lineages_parts ⟨by simp, hbehind⟩ hnodup').2
  refine ⟨hgiven, h.new, hperm.trans h.perm, ?_, ?_⟩
  · rw [hmoved, hinside, lineages_flatMap_movedSubtree _ hrange,
      ← givenLineages_eq fun i hi j hj => hunnested i hi j hj (hrange i hi), givenLineages, givenLineages,
      h.filter_given hstays]
  · -- what is beside the group is what is left of the old tree without it
    rw [hmoved, hbeside, ← hbeside', ← hsurvivors, lineagesBeside, lineages_survivors, List.filter_filter,
      ← h.parts.2, lineagesBeside, List.filter_filter]
    exact List.filter_congr fun l _ => Bool.and_comm _ _

end WithGroup

/-! ## When the group does not get the items -/

/-- What lies between two members of a stretch lies in the stretch. -/
theorem sublist_middle {α : Type*} {xs ys zs l : List α} (hnodup : (xs ++ ys ++ zs).Nodup)
    (hhead : ∀ a ∈ l.head?, a ∈ ys) (hlast : ∀ c ∈ l.getLast?, c ∈ ys) (h : l.Sublist (xs ++ ys ++ zs)) :
    l.Sublist ys := by
  obtain ⟨hxy, -, hdisjoint⟩ := List.nodup_append.1 hnodup
  obtain ⟨-, -, hdisjoint'⟩ := List.nodup_append.1 hxy
  obtain ⟨l', l₃, rfl, hl', hl₃⟩ := List.sublist_append_iff.1 h
  obtain ⟨l₁, l₂, rfl, hl₁, hl₂⟩ := List.sublist_append_iff.1 hl'
  obtain rfl : l₃ = [] := by
    by_contra hne
    have hmem := hlast (l₃.getLast hne) (by simp [List.getLast?_eq_some_getLast hne])
    exact hdisjoint _ (List.mem_append_right _ hmem) _ (hl₃.subset (List.getLast_mem hne)) rfl
  obtain rfl : l₁ = [] := by
    by_contra hne
    have hmem := hhead (l₁.head hne) (by simp [List.head?_eq_some_head hne])
    exact hdisjoint' _ (hl₁.subset (List.head_mem hne)) _ hmem rfl
  simpa using hl₂

/-- Two members of a list, in their order. -/
theorem pair_sublist {α : Type*} {xs : List α} {i j : ℕ} (hij : i < j) (hj : j < xs.length) :
    [xs[i], xs[j]].Sublist xs := by
  have hi : xs[i] ∈ xs.take j := List.mem_take_iff_getElem.2 ⟨i, by omega, rfl⟩
  have hj' : xs[j] ∈ xs.drop j := List.mem_drop_iff_getElem.2 ⟨0, by omega, by simp⟩
  conv_rhs => rw [← List.take_append_drop j xs]
  exact (List.singleton_sublist.2 hi).append (List.singleton_sublist.2 hj')

namespace Grouped

variable (h : Grouped t t' itemRefs groupRef) (hnodup : t.refs.Nodup)

include h hnodup

theorem nodup : t'.refs.Nodup := h.refs.nodup_iff.2 (List.nodup_cons.2 ⟨h.new, hnodup⟩)

/-- What is below the group. -/
theorem refs_sub (hitems : t'.items = pre ++ x :: (sub ++ rest)) (hbelow : Below Node.level x sub rest)
    (hx : x.itemRef = groupRef) :
    sub.map Node.itemRef = (givenLineages itemRefs t.items).map Prod.fst := by
  have hnodup' := h.nodup hnodup
  rw [DisplayedItemTree.refs, hitems] at hnodup'
  rw [← h.below, hitems, ← hx, (lineages_parts hbelow hnodup').1, map_fst_lineages]

omit h hnodup in
theorem sublist_givenLineages (t : DisplayedItemTree) (itemRefs : List DisplayedItemRef) :
    ((givenLineages itemRefs t.items).map Prod.fst).Sublist t.refs := by
  rw [givenLineages, List.map_map, DisplayedItemTree.refs, ← map_fst_lineages]
  exact List.filter_sublist.map Prod.fst

omit hnodup in
theorem mem_givenLineages {k : DisplayedItemRef} (hk : k ∈ itemRefs) :
    k ∈ (givenLineages itemRefs t.items).map Prod.fst := by
  have hmem := h.given k hk
  rw [DisplayedItemTree.refs, ← map_fst_lineages] at hmem
  obtain ⟨l, hl, rfl⟩ := List.mem_map.1 hmem
  rw [givenLineages, List.map_map]
  exact List.mem_map_of_mem (List.mem_filter.2 ⟨hl, by simp [Given, hk]⟩)

/-- The list around the group. -/
theorem exists_around : ∃ pre x sub rest, t'.items = pre ++ x :: (sub ++ rest) ∧ Below Node.level x sub rest ∧
    x.itemRef = groupRef ∧ sub.map Node.itemRef = (givenLineages itemRefs t.items).map Prod.fst := by
  have hmem : groupRef ∈ t'.refs := h.refs.mem_iff.2 List.mem_cons_self
  obtain ⟨node, hnode, hgroup⟩ := List.mem_map.1 hmem
  obtain ⟨i, hi, rfl⟩ := List.getElem_of_mem hnode
  obtain ⟨pre, x, sub, rest, heq, hget, -, -, -, -, hbelow⟩ := exists_split hi
  rw [List.getElem?_eq_getElem hi] at hget
  obtain rfl := Option.some.inj hget
  exact ⟨pre, _, sub, rest, heq, hbelow, hgroup, h.refs_sub hnodup heq hbelow hgroup⟩

/-- None of the given items stands in front of the group. -/
theorem not_before {k : DisplayedItemRef} (hk : k ∈ itemRefs) : ¬ [k, groupRef].Sublist t'.refs := by
  intro hsub
  obtain ⟨pre, x, sub, rest, heq, -, hx, hrefs⟩ := h.exists_around hnodup
  refine not_sublist_swap (h.nodup hnodup) hsub ?_
  have hmem := h.mem_givenLineages hk
  rw [← hrefs] at hmem
  rw [DisplayedItemTree.refs, heq, List.map_append, List.map_cons, List.map_append, hx]
  refine List.Sublist.trans ?_ (List.sublist_append_right _ _)
  exact (List.singleton_sublist.2 (List.mem_append_left _ hmem)).cons_cons _

/-- What stands between two given items stands behind the first of them in the old tree as well. -/
theorem sublist_between {a k b : DisplayedItemRef} (ha : a ∈ itemRefs) (hb : b ∈ itemRefs)
    (hsub : [a, k, b].Sublist t'.refs) : [k, b].Sublist t.refs := by
  obtain ⟨pre, x, sub, rest, heq, -, hx, hrefs⟩ := h.exists_around hnodup
  have hnodup' := h.nodup hnodup
  have hitems : t'.refs = (pre ++ [x]).map Node.itemRef ++ sub.map Node.itemRef ++ rest.map Node.itemRef := by
    rw [DisplayedItemTree.refs, heq]
    simp
  rw [hitems] at hsub hnodup'
  have hmiddle := sublist_middle hnodup'
    (fun c hc => by
      obtain rfl : a = c := by simpa using hc
      rw [hrefs]
      exact h.mem_givenLineages ha)
    (fun c hc => by
      obtain rfl : b = c := by simpa using hc
      rw [hrefs]
      exact h.mem_givenLineages hb) hsub
  rw [hrefs] at hmiddle
  exact (List.sublist_cons_self _ _).trans (hmiddle.trans (sublist_givenLineages t itemRefs))

end Grouped

/-- Nothing is below a group with no deeper node behind it. -/
theorem not_grouped_of_empty (hnodup : t.refs.Nodup) (hne : itemRefs ≠ [])
    (hitems : t'.items = pre ++ x :: rest) (hbehind : ∀ y ∈ rest.head?, y.level ≤ x.level) :
    ¬ Grouped t t' itemRefs x.itemRef := by
  intro h
  obtain ⟨k, ks, rfl⟩ := List.exists_cons_of_ne_nil hne
  have hnil : ([] : List Node).map Node.itemRef = _ := h.refs_sub hnodup hitems ⟨by simp, hbehind⟩ rfl
  have hmem := h.mem_givenLineages List.mem_cons_self
  rw [← hnil] at hmem
  cases hmem

namespace WithGroup

variable {t₁ : DisplayedItemTree} {g : ℕ} {group : Node} {target : TargetPosition}
  (h : WithGroup t t₁ g group)

include h

theorem refs_sublist : t.refs.Sublist t₁.refs := by
  have hrefs : t.refs = (t₁.items.take g ++ t₁.items.drop (g + 1)).map Node.itemRef := by
    have hsnd := congrArg (List.map Prod.snd) h.shape
    rwa [DisplayedItemTree.shape, List.map_map, List.map_map] at hsnd
  rw [hrefs, DisplayedItemTree.refs]
  conv_rhs => rw [h.split]
  exact ((List.Sublist.refl _).append (List.sublist_cons_self _ _)).map _

/-- When one of the items is below another one, something else ends up between them. -/
theorem not_grouped_of_nested (hnested : ¬ Unnested t₁ (givenIndices itemRefs t₁.items))
    (hmoves : t₁.moveItems (givenIndices itemRefs t₁.items) target = .ok (.ok (), t')) :
    ¬ Grouped t t' itemRefs group.itemRef := by
  intro hgrouped
  have hgiven : ∀ {i} (hi : i < t₁.items.length), i ∈ givenIndices itemRefs t₁.items →
      t₁.items[i].itemRef ∈ itemRefs := by
    intro i hi hmem
    obtain ⟨node, hnode, hitem⟩ := mem_givenIndices.1 hmem
    rw [List.getElem?_eq_getElem hi] at hnode
    exact Option.some.inj hnode ▸ hitem
  have hrange : ∀ i ∈ givenIndices itemRefs t₁.items, i < t₁.items.length := by
    intro i hi
    obtain ⟨node, hnode, -⟩ := mem_givenIndices.1 hi
    exact (List.getElem?_eq_some_iff.1 hnode).1
  have hnested' : ∃ i ∈ givenIndices itemRefs t₁.items, ∃ j ∈ givenIndices itemRefs t₁.items,
      i < j ∧ j < subtreeEnd t₁.items i := by
    by_contra hnone
    push Not at hnone
    exact hnested fun i hi j hj _ hin => (hnone i hi j hj hin.1).not_gt hin.2
  obtain ⟨pre, start, post, nested, k, hstart, hnestedLt, hk, hroots, hmem, hin, hbehind, -, hsub⟩ :=
    exists_stray_of_nested hrange hnested' hmoves
  have hroot : ∀ {i}, i ∈ pre ++ start :: post → i ∈ givenIndices itemRefs t₁.items :=
    fun hi => mem_backToFront.1 (hroots ▸ hi)
  have hnodup : t.refs.Nodup := h.nodup.sublist h.refs_sublist
  have hback := (hgrouped.sublist_between hnodup (hgiven hstart (hroot (by simp)))
    (hgiven hnestedLt (hroot (List.mem_append_left _ hmem))) hsub).trans h.refs_sublist
  -- in the old tree the other node is behind
  refine not_sublist_swap h.nodup hback ?_
  exact (pair_sublist (hin.trans_le hbehind) hk).map Node.itemRef

/-- A group that is part of one of the items is moved behind it. -/
theorem not_grouped_of_covered (hunnested : Unnested t₁ (givenIndices itemRefs t₁.items))
    (hcovered : uncovered t₁.items (givenIndices itemRefs t₁.items) g = false)
    (hgroup : group.itemRef ∉ itemRefs)
    (hmoves : t₁.moveItems (givenIndices itemRefs t₁.items) target = .ok (.ok (), t')) :
    ¬ Grouped t t' itemRefs group.itemRef := by
  intro hgrouped
  rw [uncovered, Bool.not_eq_false', List.any_eq_true] at hcovered
  obtain ⟨root, hroot, hcovers⟩ := hcovered
  simp only [covers, Bool.and_eq_true, decide_eq_true_eq] at hcovers
  obtain ⟨node, hnode, hitem⟩ := mem_givenIndices.1 hroot
  obtain ⟨hrootLt, rfl⟩ := List.getElem?_eq_some_iff.1 hnode
  obtain ⟨hg, hget⟩ := List.getElem?_eq_some_iff.1 h.get
  have hne : root < g := by
    refine lt_of_le_of_ne hcovers.1 fun heq => hgroup ?_
    subst heq
    rwa [hget] at hitem
  have hrange : ∀ i ∈ backToFront (givenIndices itemRefs t₁.items), i < t₁.items.length := by
    intro i hi
    obtain ⟨node, hnode, -⟩ := mem_givenIndices.1 (mem_backToFront.1 hi)
    exact (List.getElem?_eq_some_iff.1 hnode).1
  have hdisjoint := hunnested.disjoint fun i hi => hrange i (mem_backToFront.2 hi)
  rcases moveItems_of_disjoint hdisjoint hrange target with ⟨e, herror⟩ | ⟨-, -, hok⟩
  · rw [hmoves] at herror
    cases herror
  rw [hmoves] at hok
  obtain rfl := (Prod.mk.inj (Except.ok.inj hok)).2
  refine hgrouped.not_before (h.nodup.sublist h.refs_sublist) hitem ?_
  -- both are in the subtree that is moved
  set roots := givenIndices itemRefs t₁.items with hroots
  have hend : subtreeEnd t₁.items root ≤ t₁.items.length := subtreeEnd_le_length hrootLt
  have hlen : (slice t₁.items root (subtreeEnd t₁.items root)).length = subtreeEnd t₁.items root - root := by
    rw [slice, List.length_drop, List.length_take, Nat.min_eq_left hend]
  have hget' : ∀ k (hk : k < (slice t₁.items root (subtreeEnd t₁.items root)).length)
      (hk' : root + k < t₁.items.length),
      (slice t₁.items root (subtreeEnd t₁.items root))[k] = t₁.items[root + k] := by
    intro k hk hk'
    simp only [slice, List.getElem_drop, List.getElem_take]
  have hpair : [t₁.items[root].itemRef, group.itemRef].Sublist
      ((movedSubtree t₁.items target.level root).map Node.itemRef) := by
    have hpos : 0 < g - root := by omega
    have hlt : g - root < (slice t₁.items root (subtreeEnd t₁.items root)).length := by omega
    have hsub := (pair_sublist hpos hlt).map Node.itemRef
    rw [List.map_cons, List.map_singleton, hget' 0 (by omega) (by omega), hget' (g - root) hlt (by omega)] at hsub
    simp only [Nat.add_zero, Nat.add_sub_cancel' hne.le, hget] at hsub
    rw [movedSubtree, List.map_map]
    exact hsub
  obtain ⟨as, bs, hsplit⟩ := List.append_of_mem (List.mem_reverse.2 (mem_backToFront.2 hroot))
  have hmoved : (movedSubtree t₁.items target.level root).Sublist
      ((backToFront roots).reverse.flatMap (movedSubtree t₁.items target.level)) := by
    rw [hsplit, List.flatMap_append, List.flatMap_cons]
    exact (List.sublist_append_left _ _).trans (List.sublist_append_right _ _)
  refine hpair.trans (List.Sublist.map _ (hmoved.trans ?_))
  exact (List.sublist_append_right _ _).trans (List.sublist_append_left _ _)

end WithGroup

/-! ## When the items can be moved -/

/-- A subtree can be shifted when its levels stay `u8`. -/
theorem shiftSubtree_ok {level i : ℕ} (hi : i < items.length)
    (hfits : ∀ k, i ≤ k → k < subtreeEnd items i → level + levelAt items k ≤ maxLevel + levelAt items i) :
    (shiftSubtreeToLevel (slice items i (subtreeEnd items i)) level).2 = .ok () := by
  obtain ⟨pre, x, sub, rest, heq, hget, rfl, -, hslice, -, hbelow⟩ := exists_split hi
  have hend : subtreeEnd items pre.length = pre.length + 1 + sub.length := by
    rw [heq]
    exact subtreeEnd_split pre hbelow
  have hroot : levelAt items pre.length = x.level := by rw [levelAt, hget]; rfl
  rw [hslice, shiftSubtree_split hbelow]
  intro node hnode
  obtain ⟨k, hk, rfl⟩ := List.getElem_of_mem hnode
  rw [List.length_cons] at hk
  have hlevel : levelAt items (pre.length + k) = (x :: sub)[k].level := by
    have hget' : items[pre.length + k]? = some (x :: sub)[k] := by
      rw [heq, ← List.cons_append, List.getElem?_append_right (by omega), Nat.add_sub_cancel_left,
        List.getElem?_append_left (by simpa using hk), List.getElem?_eq_getElem (by simpa using hk)]
    rw [levelAt, hget']
    rfl
  have hfit := hfits (pre.length + k) (by omega) (by omega)
  rw [hlevel, hroot] at hfit
  omega

/-- Items that do not contain the target and stay shallow enough can be moved, if the target is a place for
them. -/
theorem moveItems_ok {indices : List ℕ} {target : TargetPosition} (hunnested : Unnested t indices)
    (hrange : ∀ i ∈ indices, i < t.items.length)
    (houtside : ∀ i ∈ indices, ¬ (i + 1 ≤ target.before ∧ target.before < subtreeEnd t.items i))
    (hfits : ∀ i ∈ indices, ∀ k, i ≤ k → k < subtreeEnd t.items i →
      target.level + levelAt t.items k ≤ maxLevel + levelAt t.items i)
    (hcheck : checkLocation (survivors t.items (backToFront indices).reverse t.items)
      ⟨shiftedTarget t.items (backToFront indices).reverse target.before, target.level⟩ = .ok ()) :
    let done := (backToFront indices).reverse
    let result := survivors t.items done t.items
    let moved := done.flatMap (movedSubtree t.items target.level)
    let shifted := shiftedTarget t.items done target.before
    t.moveItems indices target
      = .ok (.ok (), { items := result.take shifted ++ moved ++ result.drop shifted }) := by
  have hlast : indices.getLast?.any (fun idx => t.items.length ≤ idx) = false := by
    cases hl : indices.getLast? with
    | none => rfl
    | some idx => simpa using hrange idx (List.mem_of_getLast? hl)
  have hnone : survivors t.items [] t.items = t.items := keepAt_eq_self fun _ _ _ => rfl
  have hloop := moveLoop_plain target.level target.before (fun s hs => hrange s (mem_backToFront.1 hs))
    (hunnested.disjoint hrange) (fun s _ d hd => absurd hd List.not_mem_nil) []
  rw [hnone, shiftedTarget_nil, List.append_nil, List.append_nil] at hloop
  rcases hloop with ⟨e, -, s, hs, hstops⟩ | hloop
  · -- no subtree stops the loop
    rw [mem_backToFront] at hs
    rcases hstops with hcircular | hshift
    · exact absurd hcircular (houtside s hs)
    · rw [shiftSubtree_ok (hrange s hs) (hfits s hs)] at hshift
      cases hshift
  · rw [moveItems_eq hlast, hloop]
    simp only [hcheck]

/-! ## A new group and its items -/

/-- The conditions under which all of the given items end up in a new group: they are there, none of them is
below another one, the group can be put at its place and does not become part of one of them, and none of them
becomes too deep. -/
structure CanGather (t : DisplayedItemTree) (place : TargetPosition) (itemRefs : List DisplayedItemRef) : Prop where
  given : ∀ k ∈ itemRefs, k ∈ t.refs
  unnested : Unnested t (givenIndices itemRefs t.items)
  check : checkLocation t.items place = .ok ()
  outside : ∀ i ∈ givenIndices itemRefs t.items, i < place.before → place.before ≤ subtreeEnd t.items i →
    place.level ≤ levelAt t.items i
  fits : ∀ i ∈ givenIndices itemRefs t.items, ∀ k, i ≤ k → k < subtreeEnd t.items i →
    place.level + 1 + levelAt t.items k ≤ maxLevel + levelAt t.items i

section NewGroup

variable {t₁ : DisplayedItemTree} {place : TargetPosition}
  (hinserted : Inserted t place.before (place.level, groupRef) t₁)

include hinserted

/-- The new group with nothing below it. -/
theorem exists_withGroup (hnodup : t.refs.Nodup) (hnew : groupRef ∉ t.refs)
    (hplace : ∀ y ∈ t.items[place.before]?, y.level ≤ place.level) :
    ∃ group, group.level = place.level ∧ group.itemRef = groupRef ∧ WithGroup t t₁ place.before group := by
  have hlt : place.before < t₁.items.length := by
    rw [hinserted.length_items]
    exact Nat.lt_succ_of_le hinserted.le
  have hget : t₁.items[place.before]? = some t₁.items[place.before] := List.getElem?_eq_getElem hlt
  have hshape := hinserted.getElem?_new
  rw [DisplayedItemTree.shape, List.getElem?_map, hget, Option.map_some, Option.some.injEq, Prod.mk.injEq] at hshape
  have hrefs : t₁.refs = (t.shape.take place.before).map Prod.snd
      ++ groupRef :: (t.shape.drop place.before).map Prod.snd := by
    have hsnd := congrArg (List.map Prod.snd) hinserted.shape
    rw [DisplayedItemTree.shape, List.map_map, List.map_append, List.map_cons] at hsnd
    exact hsnd
  have hold : t.refs = t.shape.map Prod.snd := by
    rw [DisplayedItemTree.shape, List.map_map]
    rfl
  refine ⟨t₁.items[place.before], hshape.1, hshape.2, hget, ?_, fun y hy => ?_, ?_⟩
  · rw [hrefs, List.nodup_middle, ← List.map_append, List.take_append_drop, ← hold, List.nodup_cons]
    exact ⟨hnew, hnodup⟩
  · -- the node behind the group stood at its place
    have hbehind := hinserted.getElem?_behind place.before
    rw [behind, if_neg (lt_irrefl _), DisplayedItemTree.shape, DisplayedItemTree.shape, List.getElem?_map,
      List.getElem?_map, Option.mem_def.1 hy, Option.map_some] at hbehind
    obtain ⟨z, hz, heq⟩ := Option.map_eq_some_iff.1 hbehind.symm
    have hle := hplace z hz
    have hlevel := congrArg Prod.fst heq
    dsimp only at hlevel
    rw [hshape.1]
    omega
  · have hdrop : t₁.shape.drop (place.before + 1) = t.shape.drop place.before := by
      rw [hinserted.shape, List.drop_append]
      have hlen : (t.shape.take place.before).length = place.before := by
        rw [List.length_take, DisplayedItemTree.shape, List.length_map, Nat.min_eq_left hinserted.le]
      rw [List.drop_of_length_le (by omega), hlen, Nat.add_sub_cancel_left]
      rfl
    have htake : t₁.shape.take place.before = t.shape.take place.before := by
      rw [hinserted.shape, List.take_append_of_le_length, List.take_take, Nat.min_self]
      rw [List.length_take, DisplayedItemTree.shape, List.length_map, Nat.min_eq_left hinserted.le]
    rw [List.map_append, List.map_take, List.map_drop]
    change t.shape = t₁.shape.take place.before ++ t₁.shape.drop (place.before + 1)
    rw [htake, hdrop, List.take_append_drop]

/-- The given items are where they were, or one behind. -/
theorem mem_givenIndices_inserted (hgroup : groupRef ∉ itemRefs) {j : ℕ} :
    j ∈ givenIndices itemRefs t₁.items ↔ ∃ i ∈ givenIndices itemRefs t.items, j = behind place.before i := by
  have hshape : ∀ (t : DisplayedItemTree) (i : ℕ), i ∈ givenIndices itemRefs t.items ↔
      ∃ y, t.shape[i]? = some y ∧ y.2 ∈ itemRefs := by
    intro t i
    rw [mem_givenIndices, DisplayedItemTree.shape, List.getElem?_map]
    simp only [Option.map_eq_some_iff, exists_exists_and_eq_and]
  simp only [hshape]
  constructor
  · rintro ⟨y, hy, hmem⟩
    have hj : j ≠ place.before := by
      rintro rfl
      rw [hinserted.getElem?_new] at hy
      obtain rfl := Option.some.inj hy
      exact hgroup hmem
    obtain ⟨i, rfl⟩ := exists_behind hj
    rw [hinserted.getElem?_behind] at hy
    exact ⟨i, ⟨y, hy, hmem⟩, rfl⟩
  · rintro ⟨i, ⟨y, hy, hmem⟩, rfl⟩
    exact ⟨y, by rwa [hinserted.getElem?_behind], hmem⟩

omit hinserted in
theorem lt_of_mem_givenIndices {i : ℕ} (hi : i ∈ givenIndices itemRefs items) : i < items.length := by
  obtain ⟨node, hnode, -⟩ := mem_givenIndices.1 hi
  exact (List.getElem?_eq_some_iff.1 hnode).1

/-- Whether a given item is below another one does not depend on the group. -/
theorem unnested_inserted_iff (hplace : ∀ y ∈ t.items[place.before]?, y.level ≤ place.level)
    (hgroup : groupRef ∉ itemRefs) :
    Unnested t₁ (givenIndices itemRefs t₁.items) ↔ Unnested t (givenIndices itemRefs t.items) := by
  have hmem := fun j => mem_givenIndices_inserted hinserted hgroup (j := j)
  constructor
  · intro hunnested i hi j hj _ ⟨hij, hend⟩
    refine hunnested _ ((hmem _).2 ⟨i, hi, rfl⟩) _ ((hmem _).2 ⟨j, hj, rfl⟩)
      (lt_of_mem_givenIndices ((hmem _).2 ⟨i, hi, rfl⟩)) ⟨behind_lt_iff.2 hij, ?_⟩
    exact (hinserted.lt_subtreeEnd_iff hplace hij (lt_of_mem_givenIndices hj)).2 hend
  · exact fun hunnested => hunnested.inserted hinserted (fun i hi => lt_of_mem_givenIndices hi)
      fun j hj => (hmem j).1 hj

/-- The group stays where it is when it does not become part of a given item. -/
theorem uncovered_inserted_iff (hgroup : groupRef ∉ itemRefs) :
    uncovered t₁.items (givenIndices itemRefs t₁.items) place.before = true ↔
      ∀ i ∈ givenIndices itemRefs t.items, i < place.before → place.before ≤ subtreeEnd t.items i →
        place.level ≤ levelAt t.items i := by
  have hmem := fun j => mem_givenIndices_inserted hinserted hgroup (j := j)
  rw [uncovered, Bool.not_eq_true', List.any_eq_false]
  constructor
  · intro hall i hi hlt hend
    by_contra hlevel
    have hi' : i ∈ givenIndices itemRefs t₁.items := (hmem i).2 ⟨i, hi, (if_pos hlt).symm⟩
    have hin := (hinserted.new_lt_subtreeEnd_iff hlt).2 ⟨hend, not_le.1 hlevel⟩
    exact hall i hi' (by simp [covers, hlt.le, hin])
  · intro hall j hj hcovers
    obtain ⟨i, hi, rfl⟩ := (hmem j).1 hj
    simp only [covers, Bool.and_eq_true, decide_eq_true_eq] at hcovers
    have hlt : i < place.before := by
      by_contra hge
      have hle := hcovers.1
      rw [behind, if_neg hge] at hle
      omega
    have hin := hcovers.2
    rw [behind, if_pos hlt] at hin
    obtain ⟨hend, hlevel⟩ := (hinserted.new_lt_subtreeEnd_iff hlt).1 hin
    exact absurd (hall i hi hlt hend) (not_le.2 hlevel)

end NewGroup

/-- Nodes are not deeper than a place in front of them that was checked. -/
theorem le_of_checkLocation (hwf : t.WellFormed) {place : TargetPosition}
    (hcheck : checkLocation t.items place = .ok ()) : ∀ y ∈ t.items[place.before]?, y.level ≤ place.level := by
  intro y hy
  refine (bounds_of_checkLocation hwf.steps hwf.fits hcheck).2.2 y ?_
  rwa [List.head?_drop]

/-- What a new group leaves, and the group in it. -/
theorem exists_inserted (hwf : t.WellFormed) (hnodup : t.refs.Nodup) (hnew : groupRef ∉ t.refs)
    {place : TargetPosition} (hcheck : checkLocation t.items place = .ok ()) :
    ∃ t₀, t.insertItem groupRef place = (.ok place.before, t₀) ∧ (t₀.xselectAllVisible false).WellFormed ∧
      Inserted t place.before (place.level, groupRef) (t₀.xselectAllVisible false) ∧
      ∃ group, group.level = place.level ∧ group.itemRef = groupRef ∧
        WithGroup t (t₀.xselectAllVisible false) place.before group := by
  obtain ⟨t₀, hinsert⟩ := exists_insertItem hcheck groupRef
  have hwf₀ := wellFormed_insertItem hwf groupRef place
  rw [hinsert] at hwf₀
  have hinserted₀ := inserted_of_ok hinsert
  have hinserted : Inserted t place.before (place.level, groupRef) (t₀.xselectAllVisible false) :=
    ⟨hinserted₀.le, (shape_xselectAllVisible t₀ false).trans hinserted₀.shape⟩
  exact ⟨t₀, hinsert, wellFormed_xselectAllVisible hwf₀ false, hinserted,
    exists_withGroup hinserted hnodup hnew (le_of_checkLocation hwf hcheck)⟩

/-- Items that can all be moved into the group are. -/
theorem grouped_of_canGather (hwf : t.WellFormed) (hnodup : t.refs.Nodup) (hnew : groupRef ∉ t.refs)
    (hne : itemRefs ≠ []) {place : TargetPosition} (h : CanGather t place itemRefs) :
    ∃ t₀ t', t.insertItem groupRef place = (.ok place.before, t₀) ∧
      (t₀.xselectAllVisible false).moveItems (givenIndices itemRefs (t₀.xselectAllVisible false).items)
        ⟨place.before + 1, saturatingAdd place.level 1⟩ = .ok (.ok (), t') ∧ Grouped t t' itemRefs groupRef := by
  obtain ⟨t₀, hinsert, hwf₁, hinserted, group, hlevel, rfl, hwith⟩ := exists_inserted hwf hnodup hnew h.check
  set t₁ := t₀.xselectAllVisible false with ht₁
  have hplace := le_of_checkLocation hwf h.check
  have hgroup : group.itemRef ∉ itemRefs := fun hmem => hnew (h.given _ hmem)
  have hmem := fun j => mem_givenIndices_inserted hinserted hgroup (j := j)
  have hunnested := (unnested_inserted_iff hinserted hplace hgroup).2 h.unnested
  have hstays := (uncovered_inserted_iff hinserted hgroup).2 h.outside
  -- the group itself is not at the largest level
  have hmax : place.level + 1 ≤ maxLevel := by
    obtain ⟨k, ks, rfl⟩ := List.exists_cons_of_ne_nil hne
    obtain ⟨node, hnode, hitem⟩ := List.mem_map.1 (h.given k List.mem_cons_self)
    obtain ⟨i, hi, rfl⟩ := List.getElem_of_mem hnode
    have hroot : i ∈ givenIndices (k :: ks) t.items :=
      mem_givenIndices.2 ⟨_, List.getElem?_eq_getElem hi, by simp [hitem]⟩
    have hend : i < subtreeEnd t.items i := lt_subtreeEnd hi
    have hfit := h.fits i hroot i le_rfl hend
    omega
  have hsat : saturatingAdd place.level 1 = place.level + 1 := Nat.min_eq_left hmax
  obtain ⟨before, behind', hsurvivors, hitems, -, hbehind, hshifted⟩ :=
    hwith.exists_moved hwf₁ (place.level + 1) hstays
  have hcheck : checkLocation (survivors t₁.items (givenIndices itemRefs t₁.items) t₁.items)
      ⟨shiftedTarget t₁.items (givenIndices itemRefs t₁.items) (place.before + 1), place.level + 1⟩ = .ok () := by
    rw [hsurvivors, hshifted]
    apply checkLocation_of_bounds
    · simp
    · simp
    · intro z hz
      dsimp only at hz
      rw [List.append_cons, List.take_left' (by simp), List.getLast?_concat] at hz
      obtain rfl := Option.some.inj hz
      rw [hlevel, hsat]
    · intro y hy
      dsimp only at hy
      rw [List.append_cons, List.getElem?_append_right (by simp), List.length_append, List.length_singleton,
        Nat.sub_self, List.nil_append] at hy
      have hle := hbehind y (by rwa [List.head?_eq_getElem?])
      show y.level ≤ place.level + 1
      omega
  have hmoves := @moveItems_ok t₁ (givenIndices itemRefs t₁.items) ⟨place.before + 1, place.level + 1⟩ hunnested
    (fun i hi => lt_of_mem_givenIndices hi) (fun j hj hin => ?_) (fun j hj k hjk hk => ?_)
    (by rw [reverse_backToFront]; exact hcheck)
  · refine ⟨t₀, _, hinsert, by rw [hsat]; exact hmoves, ?_⟩
    refine hwith.grouped_of_moved hwf₁ h.given hunnested hstays (refs_moveItems hmoves) ?_
    rw [reverse_backToFront, hlevel]
  · -- the place behind the group is in no subtree that does not contain the group
    rw [uncovered, Bool.not_eq_true', List.any_eq_false] at hstays
    refine hstays j hj ?_
    dsimp only at hin
    simp only [covers, Bool.and_eq_true, decide_eq_true_eq]
    omega
  · -- the levels are those of the old tree
    obtain ⟨i, hi, rfl⟩ := (hmem j).1 hj
    have hkn : k ≠ place.before := by
      rintro rfl
      rw [uncovered, Bool.not_eq_true', List.any_eq_false] at hstays
      exact hstays _ hj (by simp [covers, hjk, hk])
    obtain ⟨k, rfl⟩ := exists_behind hkn
    rw [hinserted.levelAt_behind, hinserted.levelAt_behind]
    have hik : i ≤ k := by
      rw [← not_lt, ← behind_lt_iff (n := place.before), not_lt]
      exact hjk
    rcases hik.lt_or_eq with hlt | rfl
    · have hkl : k < t.items.length := by
        have hend : subtreeEnd t₁.items (behind place.before i) ≤ t₁.items.length :=
          subtreeEnd_le_length (lt_of_mem_givenIndices hj)
        rw [hinserted.length_items] at hend
        have hkend := hk.trans_le hend
        rw [behind] at hkend
        split_ifs at hkend with hbefore
        · exact hbefore.trans_le hinserted.le
        · omega
      exact h.fits i hi k hlt.le ((hinserted.lt_subtreeEnd_iff hplace hlt hkl).1 hk)
    · have hend : i < subtreeEnd t.items i := lt_subtreeEnd (lt_of_mem_givenIndices hi)
      exact h.fits i hi i le_rfl hend

/-- Only items that can all be moved into the group are. -/
theorem canGather_of_grouped (hwf : t.WellFormed) (hnodup : t.refs.Nodup) (hnew : groupRef ∉ t.refs)
    (hne : itemRefs ≠ []) {place : TargetPosition} {index : ℕ} {t₀ : DisplayedItemTree}
    {result : Except MoveError Unit} (hinsert : t.insertItem groupRef place = (.ok index, t₀))
    (hmoves : (t₀.xselectAllVisible false).moveItems (givenIndices itemRefs (t₀.xselectAllVisible false).items)
      ⟨place.before + 1, saturatingAdd place.level 1⟩ = .ok (result, t'))
    (hgrouped : Grouped t t' itemRefs groupRef) : CanGather t place itemRefs := by
  have hcheck : checkLocation t.items place = .ok () := by
    rw [DisplayedItemTree.insertItem] at hinsert
    cases hcheck : checkLocation t.items place with
    | ok u => rfl
    | error e =>
      rw [hcheck] at hinsert
      cases hinsert
  obtain ⟨t₀', hinsert', hwf₁, hinserted, group, hlevel, rfl, hwith⟩ := exists_inserted hwf hnodup hnew hcheck
  obtain rfl : t₀' = t₀ := (Prod.mk.inj (hinsert'.symm.trans hinsert)).2
  set t₁ := t₀'.xselectAllVisible false with ht₁
  have hplace := le_of_checkLocation hwf hcheck
  have hgroup : group.itemRef ∉ itemRefs := fun hmem => hnew (hgrouped.given _ hmem)
  have hmem := fun j => mem_givenIndices_inserted hinserted hgroup (j := j)
  -- a move that changes nothing leaves the group empty
  have hchanged : t' ≠ t₁ := by
    rintro rfl
    exact not_grouped_of_empty hnodup hne hwith.split (fun y hy => hwith.below.behind y hy) hgrouped
  have hok : result = .ok () := by
    rcases result with e | ⟨⟩
    · exact absurd (eq_of_moveItems_error hmoves) hchanged
    · rfl
  subst hok
  have hunnested : Unnested t₁ (givenIndices itemRefs t₁.items) := by
    by_contra hnested
    exact hwith.not_grouped_of_nested hnested hmoves hgrouped
  have hstays : uncovered t₁.items (givenIndices itemRefs t₁.items) place.before = true := by
    by_contra hcovered
    exact hwith.not_grouped_of_covered hunnested (by simpa using hcovered) hgroup hmoves hgrouped
  have hmax : place.level + 1 ≤ maxLevel := by
    by_contra hlarge
    have hwf' := wellFormed_moveItems hwf₁ hunnested hmoves
    -- at the largest level the items end up beside the group
    rcases moveItems_cases hunnested hmoves with ⟨hsame, -⟩ | ⟨-, -, -, -, hmoved⟩
    · exact hchanged hsame
    obtain ⟨before, behind', -, hitems, -⟩ := hwith.exists_moved hwf₁ (saturatingAdd place.level 1) hstays
    dsimp only at hmoved
    rw [reverse_backToFront, hitems] at hmoved
    rw [hmoved] at hgrouped hwf'
    refine not_grouped_of_empty hnodup hne rfl (fun y hy => ?_) hgrouped
    have hfit := hwf'.fits y (List.mem_append_right _ (List.mem_cons_of_mem _ (List.mem_of_mem_head? hy)))
    omega
  have hsat : saturatingAdd place.level 1 = place.level + 1 := Nat.min_eq_left hmax
  refine ⟨hgrouped.given, (unnested_inserted_iff hinserted hplace hgroup).1 hunnested, hcheck,
    (uncovered_inserted_iff hinserted hgroup).1 hstays, fun i hi k hik hk => ?_⟩
  by_contra hdeep
  rw [hsat] at hmoves
  have hroot : behind place.before i ∈ givenIndices itemRefs t₁.items := (hmem _).2 ⟨i, hi, rfl⟩
  refine hchanged (eq_of_refused hunnested (.inr ⟨_, hroot, .inr ⟨behind place.before k, ?_, ?_, ?_⟩⟩) hwf₁ hmoves)
  · rw [← not_lt, behind_lt_iff, not_lt]
    exact hik
  · rcases hik.lt_or_eq with hlt | rfl
    · have hend : subtreeEnd t.items i ≤ t.items.length := subtreeEnd_le_length (lt_of_mem_givenIndices hi)
      exact (hinserted.lt_subtreeEnd_iff hplace hlt (by omega)).2 hk
    · exact lt_subtreeEnd (lt_of_mem_givenIndices hroot)
  · rw [hinserted.levelAt_behind, hinserted.levelAt_behind]
    dsimp only
    omega

end ItemTree
