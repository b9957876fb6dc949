import Kahuna.Iteration.Basic
import Kahuna.ItemTree.Shown

/-!
# The visible iterators

The model of the three iterators over the visible nodes of a tree: `iter_visible`, `iter_visible_mut` and
`iter_visible_extra`. Each remembers the index of the node that it hands out next, and goes on from there with
`next_visible_item`.

- `exists_yields_nodes`, `yields_visible`, `exists_yields_infos`: what they hand out, node by node.
- `toDisplayed_visiblePredecessor`: a step backwards from a visible node.
-/

namespace ItemTree

open DisplayedItemTree Iteration

/-- A node stands at an index. -/
def NodeAt (items : List Node) (idx : ℕ) (node : Node) : Prop := items[idx]? = some node

/-- `VisibleItemIterator`. -/
structure VisibleItemIterator where
  items : List Node
  nextIdx : ℕ

namespace VisibleItemIterator

/-- `iter_visible`. -/
def start (items : List Node) : VisibleItemIterator := { items, nextIdx := 0 }

/-- `VisibleItemIterator::next`. -/
def next (it : VisibleItemIterator) : Option Node × VisibleItemIterator :=
  let thisIdx := it.nextIdx
  match it.items[thisIdx]? with
  | some thisItem => (some thisItem, { it with nextIdx := nextVisibleItem it.items thisIdx })
  | none => (none, it)

theorem next_of_nodeAt {it : VisibleItemIterator} {node : Node} (h : NodeAt it.items it.nextIdx node) :
    it.next = (some node, { it with nextIdx := nextVisibleItem it.items it.nextIdx }) := by
  rw [NodeAt] at h
  rw [next, h]

theorem next_of_le {it : VisibleItemIterator} (h : it.items.length ≤ it.nextIdx) : it.next = (none, it) := by
  rw [next, List.getElem?_eq_none h]

end VisibleItemIterator

/-- `VisibleItemIteratorMut`. -/
structure VisibleItemIteratorMut where
  items : List Node
  nextIdx : ℕ

namespace VisibleItemIteratorMut

/-- `iter_visible_mut`. -/
def start (items : List Node) : VisibleItemIteratorMut := { items, nextIdx := 0 }

/-- `VisibleItemIteratorMut::next`. What is handed out is a reference to the node at an index. -/
def next (it : VisibleItemIteratorMut) : Option ℕ × VisibleItemIteratorMut :=
  let thisIdx := it.nextIdx
  if thisIdx < it.items.length then
    (some thisIdx, { it with nextIdx := nextVisibleItem it.items thisIdx })
  else (none, it)

/-- A pass of a loop over the iterator, which changes the node that is handed out. -/
def pass (change : ℕ → Node → Node) (it : VisibleItemIteratorMut) : Option ℕ × VisibleItemIteratorMut :=
  match it.next with
  | (some idx, it) => (some idx, { it with items := it.items.modify idx (change idx) })
  | (none, it) => (none, it)

theorem pass_of_lt {change : ℕ → Node → Node} {it : VisibleItemIteratorMut}
    (h : it.nextIdx < it.items.length) : it.pass change =
      (some it.nextIdx, { items := it.items.modify it.nextIdx (change it.nextIdx),
                          nextIdx := nextVisibleItem it.items it.nextIdx }) := by
  rw [pass, next, if_pos h]

theorem pass_of_le {change : ℕ → Node → Node} {it : VisibleItemIteratorMut}
    (h : it.items.length ≤ it.nextIdx) : it.pass change = (none, it) := by
  rw [pass, next, if_neg (by omega)]

end VisibleItemIteratorMut

/-- `Info`. -/
structure Info where
  node : Node
  idx : ℕ
  vidx : ℕ
  hasChildren : Bool
  last : Bool
  deriving DecidableEq

/-- `VisibleItemIteratorExtraInfo`. -/
structure VisibleItemIteratorExtraInfo where
  items : List Node
  nextIdx : ℕ
  nextVidx : ℕ

namespace VisibleItemIteratorExtraInfo

/-- `iter_visible_extra`. -/
def start (items : List Node) : VisibleItemIteratorExtraInfo := { items, nextIdx := 0, nextVidx := 0 }

/-- `VisibleItemIteratorExtraInfo::next`. -/
def next (it : VisibleItemIteratorExtraInfo) : Option Info × VisibleItemIteratorExtraInfo :=
  let thisIdx := it.nextIdx
  let thisVidx := it.nextVidx
  match it.items[thisIdx]? with
  | some node =>
    let nextIdx := nextVisibleItem it.items thisIdx
    let hasChild := (it.items[thisIdx + 1]?).any fun item => node.level < item.level
    (some { node, idx := thisIdx, vidx := thisVidx, hasChildren := hasChild,
            last := decide (it.items.length ≤ nextIdx) },
      { it with nextIdx, nextVidx := thisVidx + 1 })
  | none => (none, it)

theorem next_of_nodeAt {it : VisibleItemIteratorExtraInfo} {node : Node}
    (h : NodeAt it.items it.nextIdx node) : it.next =
      (some { node, idx := it.nextIdx, vidx := it.nextVidx,
              hasChildren := (it.items[it.nextIdx + 1]?).any fun item => node.level < item.level,
              last := decide (it.items.length ≤ nextVisibleItem it.items it.nextIdx) },
        { it with nextIdx := nextVisibleItem it.items it.nextIdx, nextVidx := it.nextVidx + 1 }) := by
  rw [NodeAt] at h
  rw [next, h]

theorem next_of_le {it : VisibleItemIteratorExtraInfo} (h : it.items.length ≤ it.nextIdx) :
    it.next = (none, it) := by
  rw [next, List.getElem?_eq_none h]

end VisibleItemIteratorExtraInfo

variable {t : DisplayedItemTree} {items : List Node} {i j v idx vidx : ℕ}

/-! ## Forwards -/

/-- The indices that a walk from a place visits. -/
def WalksFrom (items : List Node) (i : ℕ) (indices : List ℕ) : Prop :=
  ∃ steps, items.length ≤ i + steps ∧ indices = visibleFrom items steps i

theorem walksFrom_visible (t : DisplayedItemTree) : WalksFrom t.items 0 t.visible :=
  ⟨t.items.length, by omega, rfl⟩

/-- A walk that visits nothing has left the tree. -/
theorem WalksFrom.le_of_nil (h : WalksFrom items i []) : items.length ≤ i := by
  obtain ⟨steps, hsteps, heq⟩ := h
  cases steps with
  | zero => exact hsteps
  | succ steps =>
    by_contra hlt
    rw [visibleFrom, if_pos (by omega)] at heq
    cases heq

/-- A walk visits the node where it is, and goes on from the next visible one. -/
theorem WalksFrom.cons {indices : List ℕ} (h : WalksFrom items i (j :: indices)) :
    j = i ∧ i < items.length ∧ WalksFrom items (nextVisibleItem items i) indices := by
  obtain ⟨steps, hsteps, heq⟩ := h
  cases steps with
  | zero => cases heq
  | succ steps =>
    rw [visibleFrom] at heq
    split at heq
    next hi =>
      obtain ⟨rfl, rfl⟩ := List.cons.inj heq
      have hnext := lt_nextVisibleItem hi
      exact ⟨rfl, hi, steps, by omega, rfl⟩
    next => cases heq

/-- What `iter_visible_extra` says of the node at an index, which is the `vidx`-th visible one. -/
structure Describes (items : List Node) (place : ℕ × ℕ) (info : Info) : Prop where
  node : NodeAt items place.1 info.node
  idx : info.idx = place.1
  vidx : info.vidx = place.2

/-- `iter_visible` hands out the visible nodes. -/
theorem exists_yields_nodes (t : DisplayedItemTree) : ∃ nodes,
    Yields VisibleItemIterator.next (.start t.items) nodes ∧ List.Forall₂ (NodeAt t.items) t.visible nodes := by
  refine Yields.exists_of_relation
    (R := fun it indices => it.items = t.items ∧ WalksFrom t.items it.nextIdx indices) ?_ ?_
    ⟨rfl, walksFrom_visible t⟩
  · rintro ⟨_, i⟩ ⟨rfl, hwalk⟩
    exact ⟨_, VisibleItemIterator.next_of_le hwalk.le_of_nil⟩
  · rintro ⟨_, i⟩ idx indices ⟨rfl, hwalk⟩
    obtain ⟨rfl, hlt, hrest⟩ := hwalk.cons
    have hnode : NodeAt t.items idx t.items[idx] := List.getElem?_eq_getElem hlt
    exact ⟨_, _, VisibleItemIterator.next_of_nodeAt hnode, hnode, rfl, hrest⟩

/-- `iter_visible_extra` hands out the visible nodes with their places. -/
theorem exists_yields_infos (t : DisplayedItemTree) : ∃ infos,
    Yields VisibleItemIteratorExtraInfo.next (.start t.items) infos ∧
      List.Forall₂ (Describes t.items) t.visible.zipIdx infos := by
  refine Yields.exists_of_relation (R := fun it places => it.items = t.items ∧
    ∃ indices, WalksFrom t.items it.nextIdx indices ∧ places = indices.zipIdx it.nextVidx) ?_ ?_
    ⟨rfl, t.visible, walksFrom_visible t, rfl⟩
  · rintro ⟨_, i, v⟩ ⟨rfl, indices, hwalk, hplaces⟩
    rw [eq_comm, List.zipIdx_eq_nil_iff] at hplaces
    subst hplaces
    exact ⟨_, VisibleItemIteratorExtraInfo.next_of_le hwalk.le_of_nil⟩
  · rintro ⟨_, i, v⟩ place places ⟨rfl, indices, hwalk, hplaces⟩
    cases indices with
    | nil => cases hplaces
    | cons idx indices =>
      rw [List.zipIdx_cons] at hplaces
      obtain ⟨rfl, rfl⟩ := List.cons.inj hplaces
      obtain ⟨rfl, hlt, hrest⟩ := hwalk.cons
      have hnode : NodeAt t.items idx t.items[idx] := List.getElem?_eq_getElem hlt
      exact ⟨_, _, VisibleItemIteratorExtraInfo.next_of_nodeAt hnode, ⟨hnode, rfl, rfl⟩, rfl, indices, hrest, rfl⟩

/-- Where the next visible node is depends on what stands from a node on. -/
theorem nextVisibleItem_congr {items' : List Node} (hlen : items.length = items'.length)
    (h : ∀ j, i ≤ j → items[j]? = items'[j]?) : nextVisibleItem items i = nextVisibleItem items' i := by
  have hend : subtreeEnd items i = subtreeEnd items' i := by
    have hdrop : items.drop (i + 1) = items'.drop (i + 1) :=
      List.ext_getElem? fun n => by rw [List.getElem?_drop, List.getElem?_drop, h _ (by omega)]
    rw [subtreeEnd, subtreeEnd, Outline.subtreeEnd, Outline.subtreeEnd, hdrop, h i le_rfl, hlen]
  rw [nextVisibleItem, nextVisibleItem, h i le_rfl, hend]

/-- `iter_visible_mut` hands out the visible nodes, whatever becomes of those that were handed out. -/
theorem yields_visible (t : DisplayedItemTree) (change : ℕ → Node → Node) :
    Yields (VisibleItemIteratorMut.pass change) (.start t.items) t.visible := by
  have hwalks : ∃ indices, Yields (VisibleItemIteratorMut.pass change) (.start t.items) indices ∧
      List.Forall₂ Eq t.visible indices := by
    refine Yields.exists_of_relation (R := fun it indices => it.items.length = t.items.length ∧
      (∀ j, it.nextIdx ≤ j → it.items[j]? = t.items[j]?) ∧ WalksFrom t.items it.nextIdx indices) ?_ ?_
      ⟨rfl, fun _ _ => rfl, walksFrom_visible t⟩
    · rintro it ⟨hlen, -, hwalk⟩
      exact ⟨it, VisibleItemIteratorMut.pass_of_le (hlen ▸ hwalk.le_of_nil)⟩
    · rintro it idx indices ⟨hlen, hsame, hwalk⟩
      obtain ⟨rfl, hlt, hrest⟩ := hwalk.cons
      have hnext := lt_nextVisibleItem hlt
      refine ⟨_, _, VisibleItemIteratorMut.pass_of_lt (hlen ▸ hlt), rfl, ?_, ?_, ?_⟩
      · rw [List.length_modify, hlen]
      · -- what was handed out is left behind
        rw [nextVisibleItem_congr hlen hsame]
        intro j hj
        have hlater : it.nextIdx < j := hnext.trans_le hj
        exact (List.getElem?_modify_ne _ _ hlater.ne).trans (hsame j hlater.le)
      · rwa [nextVisibleItem_congr hlen hsame]
  obtain ⟨indices, hyields, hall⟩ := hwalks
  rw [List.forall₂_eq_eq_eq] at hall
  exact hall ▸ hyields

/-- The visible nodes come in the order of the list. -/
theorem visible_increasing (t : DisplayedItemTree) : t.visible.Pairwise (· < ·) := by
  rw [visible_eq]
  exact Outline.shownFrom_increasing

/-! ## Backwards -/

/-- The node found backwards from a visible one is the visible one just before it. -/
theorem toDisplayed_visiblePredecessor (h : t.toDisplayed (v + 1) = some idx) :
    ∃ p, t.toDisplayed v = some p ∧ t.visiblePredecessor idx = some p := by
  obtain ⟨hidx, hshown, hcount⟩ := toDisplayed_eq_some_iff.1 h
  have hpos : 0 < idx := by
    rw [Nat.pos_iff_ne_zero]
    rintro rfl
    cases hcount
  obtain ⟨pre, x, below, htake, hends, hpred⟩ := exists_endsIn hidx hpos hshown
  have hitems : t.items = pre ++ x :: (below ++ t.items.drop idx) := by
    conv_lhs => rw [← List.take_append_drop idx t.items, htake]
    rw [List.append_assoc, List.cons_append]
  have hpre : t.items.take pre.length = pre := by
    conv_lhs => rw [hitems, List.take_left]
  rw [htake, hends.shownCount_eq] at hcount
  refine ⟨pre.length, toDisplayed_eq_some_iff.2 ⟨?_, (shown_length hitems).2 hends.shows, ?_⟩, hpred⟩
  · rw [hitems, List.length_append, List.length_cons]
    omega
  · rw [hpre]
    omega

/-- The three iterators hand out the nodes all of whose ancestors are unfolded, each once and in order, with
their visible and their flat indices, and a step backwards from one of them leads to the one before it. -/
theorem visible_iterators (t : DisplayedItemTree) : ∃ shown : List ℕ, shown.Pairwise (· < ·) ∧
    (∀ idx, idx ∈ shown ↔ idx < t.items.length ∧
      ∀ j (hj : j < t.items.length), j < idx → idx < subtreeEnd t.items j → t.items[j].unfolded = true) ∧
    (∃ nodes, Yields VisibleItemIterator.next (.start t.items) nodes ∧
      List.Forall₂ (NodeAt t.items) shown nodes) ∧
    (∀ change, Yields (VisibleItemIteratorMut.pass change) (.start t.items) shown) ∧
    (∃ infos, Yields VisibleItemIteratorExtraInfo.next (.start t.items) infos ∧
      List.Forall₂ (Describes t.items) shown.zipIdx infos) ∧
    ∀ v idx, shown[v + 1]? = some idx → ∃ p, shown[v]? = some p ∧ t.visiblePredecessor idx = some p := by
  refine ⟨t.visible, visible_increasing t, fun idx => ?_, exists_yields_nodes t, yields_visible t,
    exists_yields_infos t, fun v idx h => toDisplayed_visiblePredecessor h⟩
  rw [mem_visible_iff]
  constructor
  · rintro ⟨hidx, hshown⟩
    exact ⟨hidx, fun j _ hji hend => (shown_iff hidx).1 hshown j hji hend⟩
  · rintro ⟨hidx, hall⟩
    exact ⟨hidx, (shown_iff hidx).2 fun j hji hend => hall j (hji.trans hidx) hji hend⟩

end ItemTree
