import Kahuna.ItemTree.Shown

/-!
# Folding and unfolding

Folding a node hides what is below it, and takes the selection away from there. The three ways to fold, of one
node, of a subtree and of all nodes, differ in which nodes they mark and which they deselect.

- `Under`, `shown_iff_under`: the nodes below another one, and when a node is shown;
- `Refolded`: marks are changed on some nodes and others are deselected;
- `refolded_xfold`, `refolded_xfoldRecursive`, `refolded_xfoldAll`: the three ways to fold;
- `shownCount_take`: visible indices, counted.
-/

namespace ItemTree

open Outline DisplayedItemTree

variable {t t' : DisplayedItemTree} {item i j n : ℕ} {unfolded : Bool}

/-- The node at `i` is below the one at `j`. -/
def DisplayedItemTree.Under (t : DisplayedItemTree) (i j : ℕ) : Prop := j < i ∧ i < subtreeEnd t.items j

instance (t : DisplayedItemTree) (i j : ℕ) : Decidable (t.Under i j) :=
  inferInstanceAs (Decidable (j < i ∧ i < subtreeEnd t.items j))

/-- A node is shown when those above it are unfolded. -/
theorem shown_iff_under (hi : i < t.items.length) :
    t.Shown i ↔ ∀ j, t.Under i j → ∀ node ∈ t.items[j]?, node.unfolded = true := by
  rw [shown_iff hi]
  constructor
  · rintro h j ⟨hj, hend⟩ node hnode
    rw [List.getElem?_eq_getElem (hj.trans hi)] at hnode
    obtain rfl := Option.some.inj hnode
    exact h j hj hend
  · exact fun h j hj hend => h j ⟨hj, hend⟩ _ (List.getElem?_eq_getElem (hj.trans hi))

/-- The extent of a subtree depends on the levels alone. -/
theorem subtreeEnd_congr {items items' : List Node} (h : items'.map Node.level = items.map Node.level) (i : ℕ) :
    subtreeEnd items' i = subtreeEnd items i := by
  have hlevels : ∀ items : List Node, subtreeEnd items i = Outline.subtreeEnd id (items.map Node.level) i := by
    intro items
    rw [subtreeEnd, Outline.subtreeEnd, Outline.subtreeEnd, List.getElem?_map, ← List.map_drop]
    cases items[i]? with
    | none => exact (List.length_map _).symm
    | some node =>
      simp only [Option.map_some, List.findIdx_map]
      rfl
  rw [hlevels, hlevels, h]

/-! ## What folding changes -/

/-- Some nodes are folded or unfolded, and some are deselected. -/
def Refolded (t t' : DisplayedItemTree) (marks : ℕ → Option Bool) (deselects : ℕ → Bool) : Prop :=
  ∀ i : ℕ, t'.items[i]? = t.items[i]?.map fun node =>
    { node with unfolded := (marks i).getD node.unfolded, selected := node.selected && !deselects i }

namespace Refolded

variable {marks : ℕ → Option Bool} {deselects : ℕ → Bool} (h : Refolded t t' marks deselects)

include h

theorem length_items : t'.items.length = t.items.length := by
  have hnone : ∀ i : ℕ, t'.items[i]? = none ↔ t.items[i]? = none := by
    intro i
    rw [h i]
    exact Option.map_eq_none_iff
  simp only [List.getElem?_eq_none_iff] at hnone
  exact Nat.le_antisymm ((hnone _).2 le_rfl) ((hnone _).1 le_rfl)

theorem map_level : t'.items.map Node.level = t.items.map Node.level := by
  refine List.ext_getElem? fun i => ?_
  rw [List.getElem?_map, List.getElem?_map, h i, Option.map_map]
  rfl

theorem under_iff : t'.Under i j ↔ t.Under i j := by
  rw [Under, Under, subtreeEnd_congr h.map_level]

/-- Which nodes are shown afterwards. -/
theorem shown_iff (hi : i < t.items.length) :
    t'.Shown i ↔ ∀ j, t.Under i j → ∀ node ∈ t.items[j]?, (marks j).getD node.unfolded = true := by
  rw [shown_iff_under (h.length_items ▸ hi)]
  refine forall_congr' fun j => ?_
  rw [h.under_iff, h j]
  simp only [Option.mem_def, Option.map_eq_some_iff, forall_exists_index, and_imp]
  exact ⟨fun hall hunder node hnode => hall hunder _ node hnode rfl,
    fun hall hunder _ node hnode heq => heq ▸ hall hunder node hnode⟩

end Refolded

theorem getElem?_modifyWhere (t : DisplayedItemTree) (p : ℕ → Bool) (f : Node → Node) (i : ℕ) :
    (t.modifyWhere p f).items[i]? = t.items[i]?.map fun node => if p i then f node else node := by
  rw [modifyWhere, List.getElem?_mapIdx]

/-- Folding one node. -/
theorem refolded_xfold (h : t.xfold item unfolded = .ok t') :
    item < t.items.length ∧ Refolded t t' (fun i => if i = item then some unfolded else none)
      fun i => !unfolded && (item ≤ i && i < subtreeEnd t.items item) := by
  rw [xfold] at h
  split at h
  · cases h
  next hitem =>
  refine ⟨not_le.1 hitem, fun i => ?_⟩
  have hlevels : (t.modifyWhere (· == item) fun x => { x with unfolded }).items.map Node.level
      = t.items.map Node.level := map_modifyWhere t _ fun _ => rfl
  simp only [subtreeEnd_congr hlevels] at h
  cases unfolded with
  | true =>
    obtain rfl := Except.ok.inj h
    rw [getElem?_modifyWhere]
    refine congrArg (Option.map · _) (funext fun node => ?_)
    by_cases hi : i = item <;> simp [hi]
  | false =>
    obtain rfl := Except.ok.inj h
    rw [getElem?_modifyWhere, getElem?_modifyWhere, Option.map_map]
    refine congrArg (Option.map · _) (funext fun node => ?_)
    simp only [Function.comp_apply]
    cases hin : (decide (item ≤ i) && decide (i < subtreeEnd t.items item)) <;>
      by_cases hi : i = item <;> simp [hi]

/-- Folding a subtree. -/
theorem refolded_xfoldRecursive (h : t.xfoldRecursive item unfolded = .ok t') :
    item < t.items.length ∧
      Refolded t t' (fun i => if item ≤ i ∧ i < subtreeEnd t.items item then some unfolded else none)
        fun i => !unfolded && (item + 1 ≤ i && i < subtreeEnd t.items item) := by
  rw [xfoldRecursive] at h
  split at h
  · cases h
  next hitem =>
  have hlt := not_le.1 hitem
  have hend : item < subtreeEnd t.items item := lt_subtreeEnd hlt
  refine ⟨hlt, fun i => ?_⟩
  obtain rfl := Except.ok.inj h
  rw [getElem?_modifyWhere, getElem?_modifyWhere, Option.map_map]
  refine congrArg (Option.map · _) (funext fun node => ?_)
  simp only [Function.comp_apply]
  -- the root itself keeps its selection
  by_cases hi : i = item
  · subst hi
    have hnot : ¬ i + 1 ≤ i := by omega
    simp [hend, hnot]
  · cases hin : (decide (item + 1 ≤ i) && decide (i < subtreeEnd t.items item)) with
    | true =>
      simp only [Bool.and_eq_true, decide_eq_true_eq] at hin
      have hin' : item ≤ i ∧ i < subtreeEnd t.items item := by omega
      cases unfolded <;> simp [hi, hin']
    | false =>
      have hin' : ¬ (item ≤ i ∧ i < subtreeEnd t.items item) := by
        simp only [Bool.and_eq_false_iff, decide_eq_false_iff_not] at hin
        omega
      simp [hi, hin']

/-- Folding all nodes. -/
theorem refolded_xfoldAll (t : DisplayedItemTree) (unfolded : Bool) :
    Refolded t (t.xfoldAll unfolded) (fun _ => some unfolded) fun i => !unfolded && 0 < levelAt t.items i := by
  intro i
  rw [xfoldAll, List.getElem?_map]
  cases hget : t.items[i]? with
  | none => rfl
  | some node =>
    have hlevel : levelAt t.items i = node.level := by rw [levelAt, hget]; rfl
    simp only [Option.map_some, hlevel]
    cases unfolded <;> cases hpos : decide (0 < node.level) <;> simp_all

/-! ## Counting -/

instance (t : DisplayedItemTree) (i : ℕ) : Decidable (t.Shown i) :=
  inferInstanceAs (Decidable (∀ node ∈ t.items[i]?, Shows (limitAfter (t.items.take i)) node.level))

/-- The visible index of a node is the number of nodes before it that are shown. -/
theorem shownCount_take (hn : n ≤ t.items.length) :
    shownCount (t.items.take n) = ((List.range n).filter fun j => t.Shown j).length := by
  induction n with
  | zero => rfl
  | succ n ih =>
    have hget : t.items[n]? = some t.items[n] := List.getElem?_eq_getElem hn
    have hshown : t.Shown n ↔ Shows (limitAfter (t.items.take n)) t.items[n].level := by
      rw [Shown, hget]
      simp
    rw [List.take_succ_eq_append_getElem hn, shownCount, shownFrom_append_eq, List.length_append, ← shownCount,
      ih (Nat.le_of_succ_le hn), List.range_succ, List.filter_append, List.length_append]
    by_cases hn' : t.Shown n
    · simp [shownFrom, hn', hshown.1 hn']
    · simp [shownFrom, hn', hshown.not.1 hn']

/-- When fewer nodes are shown, the visible index of a node stays the same if those before it stay. -/
theorem shownCount_take_eq_iff (hn : n ≤ t.items.length) (hn' : n ≤ t'.items.length)
    (h : ∀ j, j < n → t'.Shown j → t.Shown j) :
    shownCount (t'.items.take n) = shownCount (t.items.take n) ↔ ∀ j, j < n → t.Shown j → t'.Shown j := by
  have hfilter : (List.range n).filter (fun j => t'.Shown j)
      = ((List.range n).filter fun j => t.Shown j).filter fun j => t'.Shown j := by
    rw [List.filter_filter]
    refine List.filter_congr fun j hj => ?_
    have := h j (List.mem_range.1 hj)
    by_cases hj' : t'.Shown j
    · simp [hj', this hj']
    · simp [hj']
  rw [shownCount_take hn', shownCount_take hn, hfilter, List.length_filter_eq_length_iff]
  simp

end ItemTree
