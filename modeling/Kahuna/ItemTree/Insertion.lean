import Kahuna.ItemTree.Parents
import Kahuna.Outline.ParentOf

/-!
# Nodes that are inserted

A node that is inserted moves those behind it by one, and changes the extent of those subtrees only that it
becomes part of. So a selection without nesting stays one, and what it leaves in front of the new node is
what it left there before.

- `checkLocation_of_bounds`: where a node can be inserted;
- `Safe`, `insertItem_iff_safe`: it can be inserted wherever all others keep their parents;
- `Unnested.inserted`: a selection without nesting, after the insertion;
- `Inserted.lt_subtreeEnd_iff`, `Inserted.new_lt_subtreeEnd_iff`: subtrees, after the insertion;
- `lastStaying_inserted`: what stays in front of the place right behind the new node.
-/

namespace ItemTree

open Outline DisplayedItemTree

variable {t t' : DisplayedItemTree} {n i k : ℕ} {x : ℕ × DisplayedItemRef} {indices indices' : List ℕ}

/-! ## Where a node can be inserted -/

/-- A node can be inserted, when it is not shallower than the node behind it, and not more than one level
deeper than the node before it. -/
theorem checkLocation_of_bounds {items : List Node} {target : TargetPosition}
    (hlen : target.before ≤ items.length) (hfirst : target.before = 0 → target.level = 0)
    (hbefore : ∀ z ∈ (items.take target.before).getLast?, target.level ≤ saturatingAdd z.level 1)
    (hbehind : ∀ x ∈ items[target.before]?, x.level ≤ target.level) :
    checkLocation items target = .ok () := by
  rw [checkLocation, if_neg (not_lt.2 hlen)]
  cases hpos : target.before with
  | zero => simp [hfirst hpos]
  | succ m =>
    rw [hpos] at hlen hbefore hbehind
    have hm : m < items.length := hlen
    rw [List.take_succ_eq_append_getElem hm, List.getLast?_concat] at hbefore
    have hhigh := hbefore _ rfl
    rw [saturatingAdd] at hhigh
    simp only [Nat.add_one_ne_zero, if_false, Nat.add_sub_cancel, List.getElem?_eq_getElem hm,
      Option.map_some]
    cases hafter : items[m + 1]? with
    | none =>
      exact if_pos ⟨Nat.zero_le _, hhigh⟩
    | some after =>
      have hlow := hbehind after hafter
      refine if_pos ?_
      simp only [Option.map_some, saturatingAdd]
      split_ifs <;> dsimp only <;> omega

/-- A place that is checked is checked before a node is inserted there. -/
theorem exists_insertItem {position : TargetPosition} (h : checkLocation t.items position = .ok ())
    (item : DisplayedItemRef) : ∃ t', t.insertItem item position = (.ok position.before, t') := by
  rw [insertItem, h]
  exact ⟨_, rfl⟩

/-! ## The nodes after an insertion -/

/-- Levels and references of the nodes, in order. -/
def DisplayedItemTree.shape (t : DisplayedItemTree) : List (ℕ × DisplayedItemRef) :=
  t.items.map fun node => (node.level, node.itemRef)

theorem levelAt_eq_shape (t : DisplayedItemTree) (i : ℕ) :
    levelAt t.items i = (t.shape[i]?).elim 0 Prod.fst := by
  rw [levelAt, shape, List.getElem?_map, Option.elim_map]
  rfl

/-- Selecting does not matter. -/
@[simp]
theorem shape_xselectAllVisible (t : DisplayedItemTree) (selected : Bool) :
    (t.xselectAllVisible selected).shape = t.shape :=
  map_xselectAllVisible (fun _ _ => rfl) t selected

/-- `t'` is `t` with a node of the level and reference `x` inserted in front of index `n`, as far as levels
and references go. -/
structure Inserted (t : DisplayedItemTree) (n : ℕ) (x : ℕ × DisplayedItemRef) (t' : DisplayedItemTree) :
    Prop where
  le : n ≤ t.items.length
  shape : t'.shape = t.shape.take n ++ x :: t.shape.drop n

/-- What inserting a node does when it succeeds. -/
theorem inserted_of_ok {item : DisplayedItemRef} {position : TargetPosition} {index : ℕ}
    (h : t.insertItem item position = (.ok index, t')) :
    Inserted t position.before (position.level, item) t' := by
  rw [insertItem] at h
  cases hcheck : checkLocation t.items position with
  | error e =>
    rw [hcheck] at h
    cases h
  | ok u =>
    rw [hcheck] at h
    cases h
    refine ⟨before_le_of_checkLocation hcheck, ?_⟩
    simp only [DisplayedItemTree.shape, List.map_append, List.map_cons, List.map_take, List.map_drop]

/-- The index of a node after one has been inserted in front of `n`. -/
def behind (n i : ℕ) : ℕ := if i < n then i else i + 1

theorem behind_lt_iff {j : ℕ} : behind n i < behind n j ↔ i < j := by
  simp only [behind]
  split_ifs <;> omega

/-- Every other index is that of an old node. -/
theorem exists_behind {j : ℕ} (hj : j ≠ n) : ∃ i, j = behind n i := by
  rcases Nat.lt_or_gt_of_ne hj with hlt | hgt
  · exact ⟨j, by rw [behind, if_pos hlt]⟩
  · exact ⟨j - 1, by rw [behind, if_neg (by omega)]; omega⟩

namespace Inserted

variable (h : Inserted t n x t')

include h

theorem length_items : t'.items.length = t.items.length + 1 := by
  have hle := h.le
  have hlen := congrArg List.length h.shape
  simp only [DisplayedItemTree.shape, List.length_append, List.length_cons, List.length_take,
    List.length_drop, List.length_map] at hlen
  omega

theorem getElem?_new : t'.shape[n]? = some x := by
  have hlen : (t.shape.take n).length = n := by
    rw [List.length_take, DisplayedItemTree.shape, List.length_map, Nat.min_eq_left h.le]
  rw [h.shape, List.getElem?_append_right hlen.le, hlen, Nat.sub_self]
  rfl

theorem getElem?_behind (i : ℕ) : t'.shape[behind n i]? = t.shape[i]? := by
  have hle := h.le
  have hlen : (t.shape.take n).length = n := by
    rw [List.length_take, DisplayedItemTree.shape, List.length_map, Nat.min_eq_left h.le]
  rw [h.shape, behind]
  split
  next hlt => rw [List.getElem?_append_left (hlen.symm ▸ hlt), List.getElem?_take, if_pos hlt]
  next hge =>
    rw [List.getElem?_append_right (by omega), hlen, show i + 1 - n = i - n + 1 by omega,
      List.getElem?_cons_succ, List.getElem?_drop, Nat.add_sub_cancel' (not_lt.1 hge)]

theorem levelAt_behind (i : ℕ) : levelAt t'.items (behind n i) = levelAt t.items i := by
  rw [levelAt_eq_shape, h.getElem?_behind, levelAt_eq_shape]

theorem levelAt_new : levelAt t'.items n = x.1 := by
  rw [levelAt_eq_shape, h.getElem?_new]
  rfl

theorem take_succ : t'.shape.take (n + 1) = t.shape.take n ++ [x] := by
  have hlen : (t.shape.take n).length = n := by
    rw [List.length_take, DisplayedItemTree.shape, List.length_map, Nat.min_eq_left h.le]
  rw [h.shape, List.take_append, hlen, List.take_of_length_le (by omega), Nat.add_sub_cancel_left]
  rfl

end Inserted

/-! ## Subtrees after an insertion -/

/-- A subtree reaches as far as all nodes are deeper than its root. -/
theorem lt_subtreeEnd_iff {items : List Node} (hik : i < k) (hk : k < items.length) :
    k < subtreeEnd items i ↔ ∀ j, i < j → j ≤ k → levelAt items i < levelAt items j := by
  have hi : i < items.length := hik.trans hk
  constructor
  · intro hend j hij hjk
    rw [levelAt_of_lt hi, levelAt_of_lt (hjk.trans_lt hk)]
    exact level_lt_of_lt_subtreeEnd hi hij (hjk.trans_lt hend) _
  · intro hall
    by_contra hend
    have hend' : subtreeEnd items i < items.length := (not_lt.1 hend).trans_lt hk
    have hdeep := hall (subtreeEnd items i) (lt_subtreeEnd hi) (not_lt.1 hend)
    rw [levelAt_of_lt hi, levelAt_of_lt hend'] at hdeep
    exact absurd hdeep (not_lt.2 (level_le_of_subtreeEnd hi hend'))

/-- A selection without nesting stays one, when the new node is not selected. -/
theorem Unnested.inserted (hunnested : Unnested t indices) (h : Inserted t n x t')
    (hrange : ∀ i ∈ indices, i < t.items.length)
    (hindices : ∀ j ∈ indices', ∃ i ∈ indices, j = behind n i) : Unnested t' indices' := by
  intro a ha b hb hlt ⟨hab, hend⟩
  obtain ⟨i, hi, rfl⟩ := hindices a ha
  obtain ⟨j, hj, rfl⟩ := hindices b hb
  rw [behind_lt_iff] at hab
  have hj' : behind n j < t'.items.length := by
    rw [h.length_items]
    have hj' := hrange j hj
    rw [behind]
    split_ifs <;> omega
  refine hunnested i hi j hj (hrange i hi) ⟨hab, ?_⟩
  rw [lt_subtreeEnd_iff hab (hrange j hj)]
  rw [lt_subtreeEnd_iff (behind_lt_iff.2 hab) hj'] at hend
  intro m him hmj
  have hdeep := hend (behind n m) (behind_lt_iff.2 him) (by
    rcases hmj.lt_or_eq with hlt | rfl
    · exact (behind_lt_iff.2 hlt).le
    · exact le_rfl)
  rwa [h.levelAt_behind, h.levelAt_behind] at hdeep

/-- A subtree in front of the new node covers the same nodes there. -/
theorem Inserted.covers_iff (h : Inserted t n x t') {root : ℕ} (hi : i < n) :
    covers t'.items root i = covers t.items root i := by
  have hsame : ∀ j, j < n → levelAt t'.items j = levelAt t.items j := by
    intro j hj
    have hlevel := h.levelAt_behind j
    rwa [behind, if_pos hj] at hlevel
  have hle := h.le
  rw [Bool.eq_iff_iff]
  simp only [covers, Bool.and_eq_true, decide_eq_true_eq]
  refine and_congr_right fun hroot => ?_
  rcases hroot.lt_or_eq with hlt | rfl
  · rw [lt_subtreeEnd_iff hlt (by rw [h.length_items]; omega), lt_subtreeEnd_iff hlt (by omega)]
    refine forall_congr' fun j => forall_congr' fun _ => forall_congr' fun hj => ?_
    rw [hsame root (by omega), hsame j (by omega)]
  · have hin : root < t.items.length := by omega
    have hin' : root < t'.items.length := by rw [h.length_items]; omega
    exact ⟨fun _ => lt_subtreeEnd hin, fun _ => lt_subtreeEnd hin'⟩

/-- In front of the new node the same nodes are taken along. -/
theorem Inserted.uncovered_eq (h : Inserted t n x t')
    (hindices : ∀ j, j ∈ indices' ↔ ∃ i ∈ indices, i < t.items.length ∧ j = behind n i) (hi : i < n) :
    uncovered t'.items indices' i = uncovered t.items indices i := by
  have hle := h.le
  rw [uncovered, uncovered, Bool.not_inj_iff, Bool.eq_iff_iff, List.any_eq_true, List.any_eq_true]
  constructor
  · rintro ⟨j, hj, hcovers⟩
    obtain ⟨root, hroot, -, rfl⟩ := (hindices j).1 hj
    have hroot' : behind n root ≤ i := by
      simp only [covers, Bool.and_eq_true, decide_eq_true_eq] at hcovers
      exact hcovers.1
    have hbehind : behind n root = root := by
      rw [behind] at hroot' ⊢
      split_ifs at hroot' ⊢ <;> omega
    rw [hbehind, h.covers_iff hi] at hcovers
    exact ⟨root, hroot, hcovers⟩
  · rintro ⟨root, hroot, hcovers⟩
    have hlt : root < n := by
      simp only [covers, Bool.and_eq_true, decide_eq_true_eq] at hcovers
      omega
    have hbehind : behind n root = root := if_pos hlt
    refine ⟨root, (hindices root).2 ⟨root, hroot, hlt.trans_le hle, hbehind.symm⟩, ?_⟩
    rwa [h.covers_iff hi]

/-- Nodes that are in a subtree stay in it, when the new node is not shallower than the one behind it. -/
theorem Inserted.lt_subtreeEnd_iff (h : Inserted t n x t') (hbehind : ∀ y ∈ t.items[n]?, y.level ≤ x.1) {j : ℕ}
    (hij : i < j) (hj : j < t.items.length) :
    behind n j < subtreeEnd t'.items (behind n i) ↔ j < subtreeEnd t.items i := by
  have hj' : behind n j < t'.items.length := by
    rw [h.length_items, behind]
    split_ifs <;> omega
  rw [ItemTree.lt_subtreeEnd_iff hij hj, ItemTree.lt_subtreeEnd_iff (behind_lt_iff.2 hij) hj']
  have hle : ∀ {a b : ℕ}, behind n a ≤ behind n b ↔ a ≤ b := fun {a b} => by
    rw [← not_lt, behind_lt_iff, not_lt]
  constructor
  · intro hall m him hmj
    have hdeep := hall (behind n m) (behind_lt_iff.2 him) (hle.2 hmj)
    rwa [h.levelAt_behind, h.levelAt_behind] at hdeep
  · intro hall m him hmj
    by_cases hm : m = n
    · -- the new node is at least as deep as the one it is put in front of
      subst hm
      have hin : i < m := by
        rw [behind] at him
        split_ifs at him <;> omega
      have hmj' : m ≤ j := by
        rw [behind] at hmj
        split_ifs at hmj <;> omega
      have hdeep := hall m hin hmj'
      have hm : m < t.items.length := by omega
      have hnew := hbehind _ (List.getElem?_eq_getElem hm)
      rw [h.levelAt_behind, h.levelAt_new]
      rw [levelAt_of_lt hm] at hdeep
      omega
    · obtain ⟨k, rfl⟩ := exists_behind hm
      rw [h.levelAt_behind, h.levelAt_behind]
      exact hall k (behind_lt_iff.1 him) (hle.1 hmj)

/-- The new node becomes part of a subtree that reaches up to it and has a shallower root. -/
theorem Inserted.new_lt_subtreeEnd_iff (h : Inserted t n x t') (hin : i < n) :
    n < subtreeEnd t'.items i ↔ n ≤ subtreeEnd t.items i ∧ levelAt t.items i < x.1 := by
  have hle := h.le
  have hi : i < t.items.length := by omega
  have hbefore : ∀ j, j < n → levelAt t'.items j = levelAt t.items j := by
    intro j hj
    have hlevel := h.levelAt_behind j
    rwa [behind, if_pos hj] at hlevel
  rw [ItemTree.lt_subtreeEnd_iff hin (by rw [h.length_items]; omega), hbefore i hin]
  constructor
  · intro hall
    refine ⟨not_lt.1 fun hlt => ?_, by have := hall n hin le_rfl; rwa [h.levelAt_new] at this⟩
    have hend : i < subtreeEnd t.items i := lt_subtreeEnd hi
    have hdeep := hall (subtreeEnd t.items i) hend hlt.le
    have hl : subtreeEnd t.items i < t.items.length := by omega
    rw [hbefore _ hlt, levelAt_of_lt hl, levelAt_of_lt hi] at hdeep
    exact absurd (level_le_of_subtreeEnd hi hl) (not_le.2 hdeep)
  · rintro ⟨hend, hlevel⟩ j hij hjn
    rcases hjn.lt_or_eq with hlt | rfl
    · rw [hbefore j hlt]
      exact (ItemTree.lt_subtreeEnd_iff hij (by omega)).1 (by omega) j hij le_rfl
    · rwa [h.levelAt_new]

/-- Level and reference of the last node that stays. -/
theorem map_lastStaying (t : DisplayedItemTree) (indices : List ℕ) (n : ℕ) :
    (lastStaying t.items indices n).map (fun node => (node.level, node.itemRef))
      = (keepAt (uncovered t.items indices) 0 (t.shape.take n)).getLast? := by
  rw [lastStaying, survivors, ← List.getLast?_map, map_keepAt, List.map_take]
  rfl

/-- In front of the place right behind the new node, the new node stays, unless it has become part of a
selected subtree. Then it is the last of its subtree, or the place is inside. -/
theorem lastStaying_inserted (h : Inserted t n x t')
    (hindices : ∀ j, j ∈ indices' ↔ ∃ i ∈ indices, i < t.items.length ∧ j = behind n i) :
    (∀ z ∈ lastStaying t'.items indices' (n + 1), (z.level, z.itemRef) = x) ∨
      (∃ root ∈ indices', root < n + 1 ∧ n + 1 < subtreeEnd t'.items root) ∨
      (∀ z ∈ lastStaying t'.items indices' (n + 1), ∃ y ∈ lastStaying t.items indices n,
        y.level = z.level ∧ y.itemRef = z.itemRef) ∧
        ∃ root ∈ indices', root < n ∧ n < subtreeEnd t'.items root ∧ root ∈ indices ∧
          subtreeEnd t.items root = n ∧ levelAt t.items root < x.1 := by
  have hle := h.le
  have hlen : (t.shape.take n).length = n := by
    rw [List.length_take, DisplayedItemTree.shape, List.length_map, Nat.min_eq_left h.le]
  have hlast : (lastStaying t'.items indices' (n + 1)).map (fun node => (node.level, node.itemRef))
      = (keepAt (uncovered t'.items indices') 0 (t.shape.take n)
        ++ keepAt (uncovered t'.items indices') n [x]).getLast? := by
    rw [map_lastStaying, h.take_succ, keepAt_append, hlen, Nat.zero_add]
  cases huncovered : uncovered t'.items indices' n with
  | true =>
    refine .inl fun z hz => ?_
    rw [Option.mem_def.1 hz, Option.map_some, keepAt, if_pos huncovered, keepAt_nil,
      List.getLast?_concat] at hlast
    exact Option.some.inj hlast
  | false =>
    refine .inr ?_
    rw [uncovered, Bool.not_eq_false', List.any_eq_true] at huncovered
    obtain ⟨root', hroot', hcovers⟩ := huncovered
    simp only [covers, Bool.and_eq_true, decide_eq_true_eq] at hcovers
    obtain ⟨root, hroot, hrange, rfl⟩ := (hindices _).1 hroot'
    have hlt : root < n := by
      by_contra hge
      have hcovers' := hcovers.1
      rw [behind, if_neg hge] at hcovers'
      omega
    have hbehind : behind n root = root := if_pos hlt
    rw [hbehind] at hroot' hcovers
    by_cases hinside : n + 1 < subtreeEnd t'.items root
    · exact .inl ⟨root, hroot', by omega, hinside⟩
    have hdeep := (lt_subtreeEnd_iff hlt (by rw [h.length_items]; omega)).1 hcovers.2
    refine .inr ⟨fun z hz => ?_, root, hroot', hlt, hcovers.2, hroot, ?_, ?_⟩
    · -- in front of the new node the same subtrees are taken out
      have hnone : keepAt (uncovered t'.items indices') n [x] = [] := by
        refine keepAt_eq_nil fun i hi hi' => ?_
        obtain rfl : i = n := by
          rw [List.length_singleton] at hi'
          omega
        rw [uncovered, Bool.not_eq_false', List.any_eq_true]
        exact ⟨root, hroot', by simp [covers, hcovers]⟩
      have hsame : keepAt (uncovered t'.items indices') 0 (t.shape.take n)
          = keepAt (uncovered t.items indices) 0 (t.shape.take n) := by
        refine keepAt_congr fun i _ hi => h.uncovered_eq hindices ?_
        rwa [hlen, Nat.zero_add] at hi
      rw [hnone, List.append_nil, hsame, ← map_lastStaying, Option.mem_def.1 hz, Option.map_some] at hlast
      obtain ⟨y, hy, heq⟩ := Option.map_eq_some_iff.1 hlast.symm
      exact ⟨y, hy, congrArg Prod.fst heq, congrArg Prod.snd heq⟩
    · have hroot₀ := h.levelAt_behind root
      rw [hbehind] at hroot₀
      refine subtreeEnd_eq hrange hlt hle (fun j hj hjn hjl => ?_) fun hn => ?_
      · have hj₀ := h.levelAt_behind j
        rw [behind, if_pos hjn] at hj₀
        have hdeep' := hdeep j hj hjn.le
        rwa [hroot₀, hj₀, levelAt_of_lt hrange, levelAt_of_lt hjl] at hdeep'
      · -- otherwise the node behind the new one would be part of the subtree
        by_contra hdeeper
        have hn₀ := h.levelAt_behind n
        rw [behind, if_neg (lt_irrefl n)] at hn₀
        refine hinside ((lt_subtreeEnd_iff (by omega) (by rw [h.length_items]; omega)).2 fun j hj hjn => ?_)
        rcases hjn.lt_or_eq with hlt' | rfl
        · exact hdeep j hj (Nat.le_of_lt_succ hlt')
        · rw [hroot₀, hn₀, levelAt_of_lt hrange, levelAt_of_lt hn]
          exact not_le.1 hdeeper
    · rw [← h.levelAt_new, ← h.levelAt_behind, hbehind]
      exact hdeep n hlt le_rfl

/-! ## Safe places -/

/-- The node that is inserted for an item. -/
def newNode (item : DisplayedItemRef) (level : ℕ) : Node :=
  { itemRef := item, level, unfolded := true, selected := false }

/-- The tree with a new node at a place. -/
def withNode (t : DisplayedItemTree) (item : DisplayedItemRef) (position : TargetPosition) :
    DisplayedItemTree :=
  { items := t.items.take position.before ++ newNode item position.level :: t.items.drop position.before }

/-- A place in the list at which a new node leaves the tree well formed and all others with their parents. -/
structure Safe (t : DisplayedItemTree) (item : DisplayedItemRef) (position : TargetPosition) : Prop where
  le : position.before ≤ t.items.length
  wellFormed : (withNode t item position).WellFormed
  parentOf_eq : ∀ i, i < t.items.length →
    parentOf Node.level (withNode t item position).items (behind position.before i)
      = (parentOf Node.level t.items i).map (behind position.before)

/-- The levels between which a place is checked are safe ones. -/
theorem safe_of_checkLocation (h : t.WellFormed) (item : DisplayedItemRef) {position : TargetPosition}
    (hcheck : checkLocation t.items position = .ok ()) : Safe t item position := by
  have hle := before_le_of_checkLocation hcheck
  have hins : t.insertItem item position = (.ok position.before, withNode t item position) := by
    rw [insertItem, hcheck]
    rfl
  refine ⟨hle, ?_, fun i hi => ?_⟩
  · have hwf := wellFormed_insertItem h item position
    rwa [hins] at hwf
  · obtain ⟨-, -, hbehind⟩ := bounds_of_checkLocation h.steps h.fits hcheck
    have hlen : (t.items.take position.before).length = position.before := by
      rw [List.length_take]
      omega
    -- the new node is at least as deep as the one behind it
    have hinsert := @parentOf_insert _ Node.level (t.items.take position.before)
      (t.items.drop position.before) [newNode item position.level]
      (fun y hy => by simpa [newNode] using hbehind y hy) i (by rwa [List.take_append_drop])
    rw [List.take_append_drop, hlen] at hinsert
    exact hinsert

/-- A safe place is checked. -/
theorem Safe.checkLocation_eq {item : DisplayedItemRef} {position : TargetPosition}
    (h : Safe t item position) : checkLocation t.items position = .ok () := by
  have hsteps := h.wellFormed.steps
  rw [withNode, stepsFrom_append] at hsteps
  have hfit : position.level ≤ maxLevel :=
    h.wellFormed.fits (newNode item position.level)
      (List.mem_append_right _ List.mem_cons_self)
  have hlevel : position.level ≤ boundAfter Node.level 0 (t.items.take position.before) := hsteps.2.1
  apply checkLocation_of_bounds h.le
  · intro hzero
    rw [hzero] at hlevel
    exact Nat.le_zero.1 hlevel
  · intro z hz
    obtain ⟨pre, hpre⟩ := List.getLast?_eq_some_iff.1 hz
    rw [hpre, boundAfter_concat] at hlevel
    rw [saturatingAdd]
    omega
  · -- a node behind it that is deeper would become its child
    have hlen : (t.items.take position.before).length = position.before := by
      have := h.le
      rw [List.length_take]
      omega
    intro x hx
    refine @le_of_parentOf_insert _ Node.level (t.items.take position.before)
      (t.items.drop position.before) (newNode item position.level) (fun i hi => ?_) x ?_
    · rw [List.take_append_drop] at hi ⊢
      rw [hlen]
      exact h.parentOf_eq i hi
    · rw [List.head?_drop]
      exact hx

/-- A node is inserted exactly at the safe places, and nothing else changes. -/
theorem insertItem_iff_safe (h : t.WellFormed) (item : DisplayedItemRef) (position : TargetPosition) :
    ((∃ index, (t.insertItem item position).1 = .ok index) ↔ Safe t item position) ∧
      (∀ index, (t.insertItem item position).1 = .ok index →
        index = position.before ∧ (t.insertItem item position).2 = withNode t item position) ∧
      ∀ e, (t.insertItem item position).1 = .error e → (t.insertItem item position).2 = t := by
  rw [insertItem]
  cases hcheck : checkLocation t.items position with
  | error e =>
    refine ⟨⟨fun hok => ?_, fun hsafe => ?_⟩, fun index hok => ?_, fun _ _ => rfl⟩
    · obtain ⟨index, hok⟩ := hok
      cases hok
    · have hok := hsafe.checkLocation_eq
      rw [hcheck] at hok
      cases hok
    · cases hok
  | ok u =>
    refine ⟨⟨fun _ => safe_of_checkLocation h item hcheck, fun _ => ⟨_, rfl⟩⟩, fun index hok => ?_,
      fun e hok => ?_⟩
    · obtain rfl := Except.ok.inj hok
      exact ⟨rfl, rfl⟩
    · cases hok

/-- In front of the node of a group only a node of its level leaves it there. -/
theorem insertItem_iff_safe_twoGroups : twoGroups.WellFormed ∧ Safe twoGroups 5 ⟨1, 1⟩ ∧
    ¬ Safe twoGroups 5 ⟨1, 0⟩ := by
  have hwf : twoGroups.WellFormed := ⟨by decide, by decide⟩
  refine ⟨hwf, (insertItem_iff_safe hwf 5 ⟨1, 1⟩).1.1 ⟨1, rfl⟩, fun hsafe => ?_⟩
  obtain ⟨index, hok⟩ := (insertItem_iff_safe hwf 5 ⟨1, 0⟩).1.2 hsafe
  cases hok

end ItemTree
