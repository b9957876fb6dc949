import Kahuna.ItemTree.Moves
import Kahuna.ItemTree.References
import Kahuna.ItemTree.WellFormed
import Kahuna.Outline.ParentOf

/-!
# Visible nodes

The visible nodes are found one after the other: behind a folded node its subtree is passed over.

- `toDisplayed_succ`: which node is shown below another one;
- `iterVisible_getElem?`, `getVisible_eq_some`: visible nodes by their indices.
-/

namespace ItemTree

open Outline DisplayedItemTree

variable {t : DisplayedItemTree} {vidx idx : ℕ}

/-- The next visible node lies ahead. -/
theorem lt_nextVisibleItem {items : List Node} {i : ℕ} (hi : i < items.length) :
    i < nextVisibleItem items i := by
  rw [nextVisibleItem, List.getElem?_eq_getElem hi]
  dsimp only
  split
  · exact Nat.lt_succ_self i
  · exact lt_subtreeEnd hi

/-- With enough steps, each visible node is followed by the next one. -/
theorem visibleFrom_getElem?_succ {items : List Node} {steps start j v : ℕ}
    (hsteps : items.length ≤ start + steps) (h : (visibleFrom items steps start)[v]? = some j) :
    (visibleFrom items steps start)[v + 1]?
      = if nextVisibleItem items j < items.length then some (nextVisibleItem items j) else none := by
  induction steps generalizing start v with
  | zero => simp [visibleFrom] at h
  | succ steps ih =>
    rw [visibleFrom] at h ⊢
    by_cases hstart : start < items.length
    · have hnext := lt_nextVisibleItem hstart
      rw [if_pos hstart] at h ⊢
      rw [List.getElem?_cons_succ]
      cases v with
      | zero =>
        obtain rfl : start = j := by simpa using h
        cases steps with
        | zero =>
          -- the steps were only enough for the last node
          rw [if_neg (by omega)]
          rfl
        | succ steps =>
          rw [visibleFrom]
          split <;> rfl
      | succ v =>
        rw [List.getElem?_cons_succ] at h
        exact ih (by omega) h
    · rw [if_neg hstart] at h
      simp at h

/-- The node shown below a visible node. -/
theorem toDisplayed_succ (h : t.toDisplayed vidx = some idx) :
    t.toDisplayed (vidx + 1)
      = if nextVisibleItem t.items idx < t.items.length then some (nextVisibleItem t.items idx) else none :=
  visibleFrom_getElem?_succ (by omega) h

/-- The next visible node is at the end of a subtree, or right behind. -/
theorem nextVisibleItem_le {items : List Node} {i : ℕ} (hi : i < items.length) :
    nextVisibleItem items i ≤ items.length := by
  rw [nextVisibleItem, List.getElem?_eq_getElem hi]
  dsimp only
  split
  · exact hi
  · exact subtreeEnd_le_length hi

/-- The place below a visible node. -/
theorem getD_toDisplayed_succ (h : t.toDisplayed vidx = some idx) :
    (t.toDisplayed (vidx + 1)).getD t.items.length = nextVisibleItem t.items idx := by
  rw [toDisplayed_succ h]
  have hle := nextVisibleItem_le (lt_of_toDisplayed h)
  split
  · rfl
  · exact (Nat.le_antisymm hle (by omega)).symm

/-- The visible nodes by their visible indices. -/
theorem iterVisible_getElem? (t : DisplayedItemTree) (vidx : ℕ) :
    t.iterVisible[vidx]? = t.getVisible vidx := by
  have hall : ∀ indices : List ℕ, (∀ i ∈ indices, i < t.items.length) → ∀ v : ℕ,
      (indices.filterMap fun i => t.items[i]?)[v]? = indices[v]?.bind fun i => t.items[i]? := by
    intro indices
    induction indices with
    | nil => simp
    | cons i indices ih =>
      intro hin v
      rw [List.forall_mem_cons] at hin
      rw [List.filterMap_cons, List.getElem?_eq_getElem hin.1]
      cases v with
      | zero => simp [List.getElem?_eq_getElem hin.1]
      | succ v => exact ih hin.2 v
  refine hall t.visible (fun i hi => ?_) vidx
  obtain ⟨v, hv⟩ := List.getElem?_of_mem hi
  exact lt_of_toDisplayed hv

/-- A visible node is a node of the tree. -/
theorem getVisible_eq_some {node : Node} : t.getVisible vidx = some node ↔
    ∃ idx, t.toDisplayed vidx = some idx ∧ t.items[idx]? = some node := by
  rw [getVisible, Option.bind_eq_some_iff]
  rfl

end ItemTree

/-!
## Nodes with children

Which nodes have children depends on the levels alone: the tree does not know the items, and does not stop
a node from getting children that should have none. When the nodes with children are of a kind before an
operation, this file says for which operations they are so afterwards.

- `ParentsAre`: the nodes with children have references of a kind;
- `parentsAre_insertItem`, `parentsAre_moveItems`: where nodes come in, the node before them has to be of
  the kind, or must not become their parent;
- `parentsAre_moveItem`: the keyboard moves nodes into nodes of the kind only.
-/

namespace ItemTree

open Outline DisplayedItemTree

/-- Every node with a deeper one right behind it has a reference of the kind `p`. -/
def DisplayedItemTree.ParentsAre (t : DisplayedItemTree) (p : DisplayedItemRef → Prop) : Prop :=
  ParentsIn Node.level (fun node => p node.itemRef) t.items

instance (t : DisplayedItemTree) (p : DisplayedItemRef → Prop) [DecidablePred p] :
    Decidable (t.ParentsAre p) :=
  inferInstanceAs (Decidable (ParentsIn Node.level (fun node => p node.itemRef) t.items))

/-- The last of the nodes before a position that are not taken along. -/
def lastStaying (items : List Node) (indices : List ℕ) (before : ℕ) : Option Node :=
  (survivors items indices (items.take before)).getLast?

variable {t t' : DisplayedItemTree} {p : DisplayedItemRef → Prop}

/-- Other kinds of references, for the nodes of the tree. -/
theorem DisplayedItemTree.ParentsAre.imp {q : DisplayedItemRef → Prop} (h : t.ParentsAre p)
    (hpq : ∀ k ∈ t.refs, p k → q k) : t.ParentsAre q :=
  ParentsIn.imp h fun _ hnode => hpq _ (List.mem_map_of_mem hnode)

/-- Levels and references decide. -/
theorem parentsAre_of_shape (h : t.ParentsAre p)
    (hlevels : t'.items.map Node.level = t.items.map Node.level) (hrefs : t'.refs = t.refs) :
    t'.ParentsAre p := by
  have hpairs : ∀ items : List Node, ParentsIn Node.level (fun node => p node.itemRef) items ↔
      ((items.map Node.level).zip (items.map Node.itemRef)).IsChain fun x y => x.1 < y.1 → p x.2 := by
    intro items
    rw [List.zip_map', List.isChain_map]
    rfl
  rw [refs, refs] at hrefs
  refine (hpairs t'.items).2 ?_
  rw [hlevels, hrefs]
  exact (hpairs t.items).1 h

/-! ## Places -/

/-- Level and reference of the last node before an index. -/
def DisplayedItemTree.lastBefore (t : DisplayedItemTree) (n : ℕ) : Option (ℕ × DisplayedItemRef) :=
  ((t.items.map fun node => (node.level, node.itemRef)).take n).getLast?

/-- A node at this position gets a parent of the kind `p`, if it becomes the first child of one. -/
def DisplayedItemTree.Hosts (t : DisplayedItemTree) (p : DisplayedItemRef → Prop)
    (position : TargetPosition) : Prop :=
  ∀ z ∈ t.lastBefore position.before, z.1 < position.level → p z.2

theorem lastBefore_eq_map (t : DisplayedItemTree) (n : ℕ) :
    t.lastBefore n = (t.items.take n).getLast?.map fun node => (node.level, node.itemRef) := by
  rw [lastBefore, ← List.map_take, List.getLast?_map]

theorem hosts_iff {position : TargetPosition} : t.Hosts p position ↔
    ∀ z ∈ (t.items.take position.before).getLast?, z.level < position.level → p z.itemRef := by
  simp only [Hosts, lastBefore_eq_map, Option.mem_def, Option.map_eq_some_iff]
  constructor
  · exact fun h z hz => h _ ⟨z, hz, rfl⟩
  · rintro h _ ⟨z, hz, rfl⟩
    exact h z hz

/-- Selecting does not matter. -/
@[simp]
theorem lastBefore_xselectAllVisible (t : DisplayedItemTree) (selected : Bool) (n : ℕ) :
    (t.xselectAllVisible selected).lastBefore n = t.lastBefore n := by
  rw [lastBefore, map_xselectAllVisible (fun _ _ => rfl), lastBefore]

/-- In front of a node there is a place at its level. -/
theorem hosts_front (h : t.ParentsAre p) {n : ℕ} {node : Node} (hnode : t.items[n]? = some node) :
    t.Hosts p ⟨n, node.level⟩ := by
  rw [hosts_iff]
  intro z hz hlt
  rw [ParentsAre, ← List.take_append_drop n t.items] at h
  refine (parentsIn_append.1 h).2.2 z hz node ?_ hlt
  rw [List.head?_drop]
  exact hnode

/-- Behind a node there is a place at its level. -/
theorem lastBefore_succ {n : ℕ} {node : Node} (hnode : t.items[n]? = some node) :
    t.lastBefore (n + 1) = some (node.level, node.itemRef) := by
  obtain ⟨hn, rfl⟩ := List.getElem?_eq_some_iff.1 hnode
  rw [lastBefore_eq_map, List.take_succ_eq_append_getElem hn, List.getLast?_concat]
  rfl

/-- The last node of a subtree is its root or deeper. -/
theorem le_of_lastBefore_subtreeEnd {n : ℕ} (hn : n < t.items.length) {z : ℕ × DisplayedItemRef}
    (hz : z ∈ t.lastBefore (subtreeEnd t.items n)) : levelAt t.items n ≤ z.1 := by
  obtain ⟨pre, x, sub, rest, heq, hget, rfl, hpre, hslice, -, hbelow⟩ := exists_split hn
  have hle : pre.length ≤ subtreeEnd t.items pre.length := (lt_subtreeEnd hn).le
  have htake : t.items.take (subtreeEnd t.items pre.length) = pre ++ x :: sub := by
    have hsplit := List.take_append_drop pre.length (t.items.take (subtreeEnd t.items pre.length))
    rw [List.take_take, Nat.min_eq_left hle, hpre] at hsplit
    rw [← hsplit, ← hslice, slice]
  rw [lastBefore_eq_map, htake, List.getLast?_append_of_ne_nil _ (List.cons_ne_nil _ _), Option.mem_def,
    Option.map_eq_some_iff] at hz
  obtain ⟨node, hnode, rfl⟩ := hz
  rw [levelAt, hget]
  rcases List.mem_cons.1 (List.mem_of_getLast? hnode) with rfl | hsub
  · exact le_rfl
  · exact (hbelow.deeper node hsub).le

/-- Below a visible node there are places at its level or further out, and further in when it is unfolded
and may have children. -/
theorem hosts_nextVisibleItem {idx level : ℕ} {node : Node} (hnode : t.items[idx]? = some node)
    (hlevel : level ≤ node.level ∨ node.unfolded = true ∧ p node.itemRef) :
    t.Hosts p ⟨nextVisibleItem t.items idx, level⟩ := by
  obtain ⟨hidx, hget⟩ := List.getElem?_eq_some_iff.1 hnode
  intro z hz hlt
  rw [nextVisibleItem, hnode] at hz
  dsimp only at hz
  cases hunfolded : node.unfolded with
  | true =>
    rw [if_pos hunfolded, lastBefore_succ hnode] at hz
    obtain rfl := Option.some.inj hz
    exact (hlevel.resolve_left (by simpa using hlt)).2
  | false =>
    -- the nodes below a folded node are hidden, and at least as deep
    rw [if_neg (by simp [hunfolded])] at hz
    have hle := le_of_lastBefore_subtreeEnd hidx hz
    rw [levelAt_of_lt hidx, hget] at hle
    rcases hlevel with hlevel | ⟨hopen, -⟩
    · have hlt' : z.1 < level := hlt
      omega
    · rw [hunfolded] at hopen
      cases hopen

/-- The user interface offers a place: above or below a visible node, at one of the levels that
`valid_levels_visible` returns. -/
def Offered (t : DisplayedItemTree) (f : Node → Bool) (target : TargetPosition) : Prop :=
  ∃ vidx, target.before = (t.toDisplayed vidx).getD t.items.length ∧
    (t.validLevelsVisible vidx f).1 ≤ target.level ∧ target.level < (t.validLevelsVisible vidx f).2

/-- Every place that is offered keeps the kind of the parents, when the kind is the one the places are
offered for. -/
theorem hosts_of_offered {f : Node → Bool} (hf : ∀ node, f node = true → p node.itemRef)
    {target : TargetPosition} (h : Offered t f target) : t.Hosts p target := by
  obtain ⟨vidx, hbefore, -, hlevel⟩ := h
  -- at level 0 there is no parent
  have hroot : target.level = 0 → t.Hosts p target := by
    intro hzero z hz hlt
    omega
  cases vidx with
  | zero => exact hroot (by simpa [validLevelsVisible] using hlevel)
  | succ vidx =>
    have habove : ∀ node, t.iterVisible[vidx]? = some node → target.level
        < saturatingAdd node.level (1 + if (f node && node.unfolded) = true then 1 else 0) →
        t.Hosts p target := by
      intro node hnode hlt
      rw [iterVisible_getElem?, getVisible_eq_some] at hnode
      obtain ⟨idx, hidx, hnode⟩ := hnode
      rw [getD_toDisplayed_succ hidx] at hbefore
      have hplace : target = ⟨nextVisibleItem t.items idx, target.level⟩ := by rw [← hbefore]
      rw [hplace]
      refine hosts_nextVisibleItem hnode ?_
      rw [saturatingAdd] at hlt
      split at hlt
      next hgroup =>
        rw [Bool.and_eq_true] at hgroup
        exact .inr ⟨hgroup.2, hf node hgroup.1⟩
      next => exact .inl (by omega)
    have hdrop : ∀ {node : Node} {rest : List Node},
        ((t.iterVisible.drop vidx).take 2) = node :: rest → t.iterVisible[vidx]? = some node := by
      intro node rest heq
      have hget := congrArg (·[0]?) heq
      simpa [List.getElem?_take] using hget
    simp only [validLevelsVisible, Nat.add_one_ne_zero, if_false, Nat.add_sub_cancel] at hlevel
    split at hlevel
    next => exact hroot (by simpa using hlevel)
    next last heq => exact habove last (hdrop heq) hlevel
    next pre post rest heq => exact habove pre (hdrop heq) hlevel

/-! ## Adding and removing -/

theorem parentsAre_insertItem (hwf : t.WellFormed) (h : t.ParentsAre p) {item : DisplayedItemRef}
    {position : TargetPosition} {index : ℕ} (hrun : t.insertItem item position = (.ok index, t'))
    (hhosts : t.Hosts p position) : t'.ParentsAre p := by
  rw [insertItem] at hrun
  cases hcheck : checkLocation t.items position with
  | error e =>
    rw [hcheck] at hrun
    cases hrun
  | ok u =>
    rw [hcheck] at hrun
    cases hrun
    obtain ⟨-, -, hafter⟩ := bounds_of_checkLocation hwf.steps hwf.fits hcheck
    rw [ParentsAre, ← List.take_append_drop position.before t.items] at h
    obtain ⟨htake, hdrop, -⟩ := parentsIn_append.1 h
    -- the new node has no children, so only the node before it matters
    have hnew : ParentsIn Node.level (fun node => p node.itemRef) [⟨item, position.level, true, false⟩] :=
      parentsIn_singleton
    have hbetween := parentsIn_between htake hnew hdrop (m := position.level) (by simp) (by simp)
      (hosts_iff.1 hhosts) hafter
    rwa [List.append_assoc] at hbetween

/-- What stands before the places up to the one that a node is inserted at, and behind it. -/
theorem lastBefore_insertItem {item : DisplayedItemRef} {position : TargetPosition} {index : ℕ}
    (hrun : t.insertItem item position = (.ok index, t')) :
    (∀ n, n ≤ position.before → t'.lastBefore n = t.lastBefore n) ∧
      t'.lastBefore (position.before + 1) = some (position.level, item) := by
  rw [insertItem] at hrun
  cases hcheck : checkLocation t.items position with
  | error e =>
    rw [hcheck] at hrun
    cases hrun
  | ok u =>
    rw [hcheck] at hrun
    cases hrun
    have hlen := before_le_of_checkLocation hcheck
    refine ⟨fun n hn => ?_, ?_⟩
    · rw [lastBefore_eq_map, lastBefore_eq_map, List.take_append_of_le_length (by
        rw [List.length_take]; exact le_min hn (hn.trans hlen)), List.take_take, Nat.min_eq_left hn]
    · refine @lastBefore_succ _ position.before ⟨item, position.level, true, false⟩ ?_
      rw [List.getElem?_append_right (by rw [List.length_take]; exact Nat.min_le_left _ _),
        List.length_take, Nat.min_eq_left hlen, Nat.sub_self]
      rfl

theorem parentsAre_removeRecursive (h : t.ParentsAre p) {item : ℕ} {removed : List DisplayedItemRef}
    (hrun : t.removeRecursive item = .ok (removed, t')) : t'.ParentsAre p := by
  rw [removeRecursive] at hrun
  split at hrun
  · cases hrun
  next hlt =>
    cases hrun
    obtain ⟨pre, x, sub, rest, heq, -, -, hpre, -, hrest, hbelow⟩ := exists_split (not_le.1 hlt)
    rw [ParentsAre, heq] at h
    show ParentsIn _ _ (t.items.take item ++ t.items.drop _)
    rw [hpre, hrest]
    exact parentsIn_remove hbelow h

theorem parentsAre_removeDissolve (hwf : t.WellFormed) (h : t.ParentsAre p) {item : ℕ}
    {removed : DisplayedItemRef} (hrun : t.removeDissolve item = .ok (removed, t')) : t'.ParentsAre p := by
  rw [removeDissolve] at hrun
  split at hrun
  · cases hrun
  next node hnode =>
    cases hrun
    obtain ⟨pre, x, sub, rest, heq, -, -, hpre, hslice, hrest, hbelow⟩ :=
      exists_split (List.getElem?_eq_some_iff.1 hnode).1
    have hsub : slice t.items (item + 1) (subtreeEnd t.items item) = sub := by
      rw [slice, ← List.drop_drop, ← slice, hslice, List.drop_one, List.tail_cons]
    have hsteps := hwf.steps
    rw [ParentsAre, heq] at h
    rw [heq] at hsteps
    show ParentsIn _ _ (t.items.take item ++ _ ++ t.items.drop _)
    rw [hpre, hsub, hrest, List.append_assoc]
    exact parentsIn_dissolve (fun _ => rfl) (fun _ hp => hp) hsteps hbelow h

theorem parentsAre_drainRecursiveIf (h : t.ParentsAre p) (f : Node → Bool) :
    (t.drainRecursiveIf f).2.ParentsAre p := by
  rw [ParentsAre, items_drainRecursiveIf]
  exact pruneFrom_of_remove parentsIn_remove [] h (by simp)

/-! ## Moving -/

/-- A subtree starts with its root, and no node in it is shallower. -/
theorem exists_slice_eq_cons {items : List Node} {i : ℕ} (hi : i < items.length) : ∃ sub,
    slice items i (subtreeEnd items i) = items[i] :: sub ∧ ∀ y ∈ items[i] :: sub, items[i].level ≤ y.level := by
  obtain ⟨pre, x, sub, rest, -, hget, -, -, hslice, -, hbelow⟩ := exists_split hi
  obtain rfl := Option.some.inj (hget.symm.trans (List.getElem?_eq_getElem hi))
  exact ⟨sub, hslice, List.forall_mem_cons.2 ⟨le_rfl, fun y hy => (hbelow.deeper y hy).le⟩⟩

/-- What is behind a subtree is not deeper than its root. -/
theorem head_drop_subtreeEnd {items : List Node} {i : ℕ} (hi : i < items.length) :
    ∀ y ∈ (items.drop (subtreeEnd items i)).head?, y.level ≤ levelAt items i := by
  obtain ⟨pre, x, sub, rest, -, hget, -, -, -, hrest, hbelow⟩ := exists_split hi
  rw [hrest, levelAt, hget]
  exact hbelow.behind

/-- What some subtrees leave. -/
theorem parentsAre_survivors (h : t.ParentsAre p) {done : List ℕ}
    (hdone : ∀ d ∈ done, d < t.items.length) :
    ParentsIn Node.level (fun node => p node.itemRef) (survivors t.items done t.items) :=
  keepAt_of_remove parentsIn_remove [] h (closed_uncovered hdone)

/-- A moved subtree starts at the level it is moved to. -/
theorem head_movedSubtree {items : List Node} {start : ℕ} (hstart : start < items.length) (level : ℕ) :
    ∀ y ∈ (movedSubtree items level start).head?, y.level = level := by
  obtain ⟨pre, x, sub, rest, -, hget, -, -, hslice, -, -⟩ := exists_split hstart
  intro y hy
  rw [movedSubtree, hslice, List.map_cons, List.head?_cons] at hy
  obtain rfl := Option.some.inj hy
  show level + x.level - levelAt items start = level
  rw [levelAt, hget]
  exact Nat.add_sub_cancel _ _

/-- Moved subtrees next to each other start at the level they are moved to. -/
theorem head_flatMap_movedSubtree {items : List Node} {roots : List ℕ} (hroots : ∀ d ∈ roots, d < items.length)
    (level : ℕ) : ∀ y ∈ (roots.flatMap (movedSubtree items level)).head?, y.level = level := by
  intro y hy
  match roots with
  | [] => cases hy
  | root :: roots =>
    rw [List.forall_mem_cons] at hroots
    have hfirst := head_movedSubtree hroots.1 level
    rw [List.flatMap_cons, List.head?_append] at hy
    rcases Option.or_eq_some_iff.1 hy with hy | ⟨hnone, -⟩
    · exact hfirst y hy
    · -- a subtree has a root
      obtain ⟨pre, x, sub, rest, -, -, -, -, hslice, -, -⟩ := exists_split hroots.1
      rw [movedSubtree, hslice] at hnone
      cases hnone

theorem parentsIn_movedSubtree (h : t.ParentsAre p) {start : ℕ} (hstart : start < t.items.length)
    (level : ℕ) :
    ParentsIn Node.level (fun node => p node.itemRef) (movedSubtree t.items level start) := by
  obtain ⟨pre, x, sub, rest, heq, -, -, -, hslice, -, -⟩ := exists_split hstart
  rw [ParentsAre, heq, ← List.cons_append] at h
  rw [movedSubtree, hslice]
  refine parentsIn_map (fun y _ z _ hlt => ?_) (fun _ _ hp => hp)
    (parentsIn_append.1 (parentsIn_append.1 h).2.1).1
  have hlt' : level + y.level - levelAt t.items start < level + z.level - levelAt t.items start := hlt
  omega

/-- Moved subtrees next to each other: none of them becomes part of the one before it. -/
theorem parentsIn_flatMap_movedSubtree (hwf : t.WellFormed) (h : t.ParentsAre p) {roots : List ℕ}
    (hroots : ∀ d ∈ roots, d < t.items.length) (level : ℕ) :
    ParentsIn Node.level (fun node => p node.itemRef) (roots.flatMap (movedSubtree t.items level)) := by
  induction roots with
  | nil => exact parentsIn_nil
  | cons root roots ih =>
    rw [List.forall_mem_cons] at hroots
    have hge := (stepsFrom_movedSubtree hwf.steps hroots.1 (le_refl level)).2
    have hhead := head_flatMap_movedSubtree hroots.2 level
    rw [List.flatMap_cons]
    refine parentsIn_append.2 ⟨parentsIn_movedSubtree h hroots.1 level, ih hroots.2, fun z hz y hy hlt => ?_⟩
    exact absurd hlt (not_lt_of_getLast? hge hz (hhead y hy).le)

/-- The order in which the roots are listed does not matter for what survives. -/
theorem survivors_congr {items xs : List Node} {done done' : List ℕ} (h : ∀ d, d ∈ done ↔ d ∈ done') :
    survivors items done xs = survivors items done' xs := by
  refine keepAt_congr fun i _ _ => ?_
  rw [uncovered, uncovered, Bool.not_inj_iff, Bool.eq_iff_iff, List.any_eq_true, List.any_eq_true]
  simp only [h]

/-- The survivors before the shifted target are those before the target. -/
theorem take_survivors (items : List Node) (done : List ℕ) {target : ℕ} (htarget : target ≤ items.length) :
    (survivors items done items).take (shiftedTarget items done target)
      = survivors items done (items.take target) := by
  have hlen : shiftedTarget items done target = (survivors items done (items.take target)).length := by
    rw [shiftedTarget]
    omega
  rw [hlen, survivors, survivors, keepAt_take_drop target htarget, List.take_left]

/-- What makes a move fail: a place past the end or inside one of the moved subtrees, or a node past the
largest level. -/
def Refused (t : DisplayedItemTree) (indices : List ℕ) (target : TargetPosition) : Prop :=
  t.items.length < target.before ∨ ∃ root ∈ indices, (root < target.before ∧ target.before < subtreeEnd t.items root) ∨
    ∃ k, root ≤ k ∧ k < subtreeEnd t.items root ∧
      maxLevel + levelAt t.items root < target.level + levelAt t.items k

/-- A move that fails changes nothing. -/
theorem eq_of_refused {indices : List ℕ} (hunnested : Unnested t indices) {target : TargetPosition}
    (hrefused : Refused t indices target) (hwf : t.WellFormed) {result : Except MoveError Unit}
    (hrun : t.moveItems indices target = .ok (result, t')) : t' = t := by
  rcases moveItems_cases hunnested hrun with ⟨rfl, -⟩ | ⟨hrange, hloop, hcheck, -, -⟩
  · rfl
  rcases hrefused with hpast | ⟨root, hroot, hinside | ⟨k, hle, hk, hdeep⟩⟩
  · have hle := le_of_shiftedTarget_le (before_le_of_checkLocation hcheck)
    omega
  · exact (moveItems_into_itself hunnested hrange hroot hinside hrun).1
  · -- the loop would have stopped at the node that does not fit
    have hrootLt := hrange root hroot
    have hend : subtreeEnd t.items root ≤ t.items.length := subtreeEnd_le_length hrootLt
    have hkLt : k < t.items.length := by omega
    have hmem : t.items[k] ∈ slice t.items root (subtreeEnd t.items root) := by
      refine List.mem_of_getElem? (i := k - root) ?_
      rw [slice, List.getElem?_drop, List.getElem?_take, if_pos (by omega), Nat.add_sub_cancel' hle,
        List.getElem?_eq_getElem hkLt]
    have hmoved := fits_of_moveLoop hloop hwf.fits (by simp)
      _ (List.mem_flatMap.2 ⟨root, List.mem_reverse.2 (mem_backToFront.2 hroot), List.mem_map_of_mem hmem⟩)
    have hfits : target.level + t.items[k].level - levelAt t.items root ≤ maxLevel := hmoved
    rw [levelAt_of_lt hkLt] at hdeep
    omega

/-- A move without nesting keeps the kind of the parents, when the last node before the target that stays
is of the kind, or is not one level above the target. -/
theorem parentsAre_moveItems (hwf : t.WellFormed) (h : t.ParentsAre p) {indices : List ℕ}
    (hunnested : Unnested t indices) {target : TargetPosition}
    (hkind : Refused t indices target ∨
      ∀ z ∈ lastStaying t.items indices target.before, z.level + 1 = target.level → p z.itemRef)
    {result : Except MoveError Unit} (hrun : t.moveItems indices target = .ok (result, t')) :
    t'.ParentsAre p := by
  rcases hkind with hrefused | hlast
  · rwa [eq_of_refused hunnested hrefused hwf hrun]
  rcases moveItems_cases hunnested hrun with ⟨rfl, -⟩ | ⟨hrange, -, hcheck, -, rfl⟩
  · exact h
  have hdone : ∀ d ∈ (backToFront indices).reverse, d < t.items.length :=
    fun d hd => hrange d (mem_backToFront.1 (List.mem_reverse.1 hd))
  have hsteps := stepsFrom_survivors hwf.steps hdone
  have hfits : ∀ node ∈ survivors t.items (backToFront indices).reverse t.items, node.level ≤ maxLevel :=
    fun node hnode => hwf.fits node (keepAt_sublist.subset hnode)
  obtain ⟨hbound, -, hafter⟩ := bounds_of_checkLocation hsteps hfits hcheck
  have htarget := le_of_shiftedTarget_le (before_le_of_checkLocation hcheck)
  have hmoved := parentsIn_flatMap_movedSubtree hwf h hdone target.level
  have hhead := head_flatMap_movedSubtree hdone target.level
  have hge := (stepsFrom_flatMap_movedSubtree hwf.steps hdone (le_refl target.level)).2
  have hsurvivors := parentsAre_survivors h hdone
  rw [← List.take_append_drop (shiftedTarget t.items (backToFront indices).reverse target.before)
    (survivors t.items (backToFront indices).reverse t.items)] at hsurvivors
  obtain ⟨htake, hdrop, -⟩ := parentsIn_append.1 hsurvivors
  refine parentsIn_between htake hmoved hdrop hge hhead (fun z hz hlt => ?_) hafter
  -- the level was checked, so a shallower node before the target is exactly one level above it
  rw [take_survivors t.items _ htarget] at hz hbound
  have hz' : z ∈ lastStaying t.items indices target.before := by
    rw [lastStaying, survivors_congr fun d => (List.mem_reverse.trans mem_backToFront).symm]
    exact hz
  refine hlast z hz' ?_
  obtain ⟨init, hinit⟩ := List.getLast?_eq_some_iff.1 hz
  rw [hinit, boundAfter_concat] at hbound
  have hle : target.level ≤ z.level + 1 := hbound
  omega

/-! ## Moving by the keyboard -/

/-- A subtree that is shifted in place keeps the kind of the parents, when what is before it may be its
parent and what is behind it is not deeper. -/
theorem parentsAre_shiftInPlace (hwf : t.WellFormed) (h : t.ParentsAre p) {idx level : ℕ}
    (hidx : idx < t.items.length)
    (hbefore : ∀ z ∈ (t.items.take idx).getLast?, z.level < level → p z.itemRef)
    (hbehind : ∀ y ∈ (t.items.drop (subtreeEnd t.items idx)).head?, y.level ≤ level)
    (hshift : t.shiftInPlace idx (subtreeEnd t.items idx) level = (.ok (), t')) : t'.ParentsAre p := by
  have hge := (stepsFrom_movedSubtree hwf.steps hidx (le_refl level)).2
  have hmoved := parentsIn_movedSubtree h hidx level
  obtain ⟨pre, x, sub, rest, heq, -, -, hpre, -, hrest, hbelow⟩ := exists_split hidx
  rw [ParentsAre, heq, ← List.cons_append] at h
  obtain ⟨htake, hdrop, -⟩ := parentsIn_append.1 h
  rw [ParentsAre, shiftInPlace_of_ok hidx hshift]
  rw [hpre] at hbefore ⊢
  rw [hrest] at hbehind ⊢
  exact parentsIn_between htake hmoved (parentsIn_append.1 hdrop).2.1 hge (head_movedSubtree hidx level)
    hbefore hbehind

/-- A node of the largest level is a subtree of its own. -/
theorem subtreeEnd_of_maxLevel (hwf : t.WellFormed) {idx : ℕ} (hidx : idx < t.items.length)
    (hmax : levelAt t.items idx = maxLevel) : subtreeEnd t.items idx = idx + 1 := by
  have hfits := hwf.fits
  obtain ⟨pre, x, sub, rest, heq, hget, rfl, -, -, -, hbelow⟩ := exists_split hidx
  rw [levelAt, hget] at hmax
  rw [heq] at hfits ⊢
  obtain rfl : sub = [] := sub_eq_nil_of_maxLevel hfits hbelow hmax
  exact subtreeEnd_split pre hbelow

/-- The keyboard moves nodes into nodes that may have children only, unless it indents past the largest
level. -/
theorem parentsAre_movesItem (hwf : t.WellFormed) (h : t.ParentsAre p) {f : Node → Bool}
    (hf : ∀ node ∈ t.items, f node = true → p node.itemRef) {vidx vidx' idx : ℕ} {direction : MoveDir}
    (hidx : t.toDisplayed vidx = some idx) (hround : ¬ IndentsAround t vidx direction f)
    (hmove : MovesItem t f vidx idx direction vidx' t') : t'.ParentsAre p := by
  have hlt : idx < t.items.length := lt_of_toDisplayed hidx
  have hadjacent : ∀ n, ∀ z ∈ (t.items.take n).getLast?, ∀ y ∈ (t.items.drop n).head?,
      z.level < y.level → p z.itemRef := fun n =>
    (parentsIn_append.1 ((List.take_append_drop n t.items).symm ▸ h)).2.2
  have hhead : ∀ {n : ℕ} (hn : n < t.items.length), t.items[n] ∈ (t.items.drop n).head? := by
    intro n hn
    rw [List.head?_drop, List.getElem?_eq_getElem hn]
    rfl
  cases hmove with
  | stays => exact h
  | out hbehind hshift =>
    refine parentsAre_shiftInPlace hwf h hlt (fun z hz hlow => ?_) (fun y hy => ?_) hshift
    · -- what is shallower than the new level was shallower than the old one
      refine hadjacent idx z hz _ (hhead hlt) ?_
      rw [← levelAt_of_lt hlt]
      omega
    · have hlow := hbehind y hy
      omega
  | @into node _ hend hle hunfolded hgroup hmoves =>
    obtain ⟨hin, rfl⟩ := List.getElem?_eq_some_iff.1 hend
    refine parentsAre_moveItems hwf h (unnested_singleton t idx) (.inr fun z hz _ => ?_) hmoves
    -- the group is the last node before its first child
    have htake : (t.items.take (subtreeEnd t.items idx + 1)).drop (subtreeEnd t.items idx)
        = [t.items[subtreeEnd t.items idx]] := by
      rw [List.take_succ_eq_append_getElem hin, List.drop_left' (by rw [List.length_take]; omega)]
    have hlast : z ∈ lastStaying t.items [idx] (subtreeEnd t.items idx + 1) := hz
    rw [lastStaying, survivors_singleton hlt (by rw [List.length_take]; exact le_min (Nat.le_succ _) hin.le),
      htake, List.getLast?_concat] at hlast
    obtain rfl := Option.some.inj hlast
    exact hf _ (List.getElem_mem hin) hgroup
  | @past node _ hend hle hleaf hmoves =>
    obtain ⟨hin, rfl⟩ := List.getElem?_eq_some_iff.1 hend
    refine parentsAre_moveItems hwf h (unnested_singleton t idx) (.inr fun z hz hone => ?_) hmoves
    have hlast : z ∈ lastStaying t.items [idx] (subtreeEnd t.items (subtreeEnd t.items idx)) := hz
    have hone' : z.level + 1 = levelAt t.items idx := hone
    have hpassed : subtreeEnd t.items idx < subtreeEnd t.items (subtreeEnd t.items idx) := lt_subtreeEnd hin
    have hle' : subtreeEnd t.items (subtreeEnd t.items idx) ≤ t.items.length := subtreeEnd_le_length hin
    rw [lastStaying, survivors_singleton hlt (by rw [List.length_take]; exact le_min hpassed.le hin.le)]
      at hlast
    -- the last node of the subtree that is passed is not shallower than the moved one
    have hslice := exists_slice_eq_cons hin
    obtain ⟨sub, hsub, hge⟩ := hslice
    rw [slice] at hsub
    rw [hsub, List.getLast?_append_of_ne_nil _ (List.cons_ne_nil _ _)] at hlast
    have hge' := hge z (List.mem_of_getLast? hlast)
    omega
  | @under nodeIdx node _ hpred hnode hinto hshift =>
    by_cases hmax : levelAt t.items idx = maxLevel
    · -- a node of the largest level has no children, and comes to stand at level 0
      have hnodeFits := hwf.fits node (List.mem_of_getElem? hnode)
      obtain ⟨hle, hgroup, hunfolded⟩ := hinto.resolve_right (by omega)
      have hend := subtreeEnd_of_maxLevel hwf hlt hmax
      have hwrap : wrappingAdd (levelAt t.items idx) 1 = 0 := by rw [hmax]; rfl
      rw [hwrap] at hshift
      refine parentsAre_shiftInPlace hwf h hlt (fun z hz hlow => by omega) (fun y hy => ?_) hshift
      rw [hend, List.head?_drop] at hy
      by_contra hdeep
      refine hround ⟨idx, nodeIdx, node, rfl, hidx, hmax, hpred, hnode, by omega, hgroup, hunfolded, ?_⟩
      rw [levelAt, Option.mem_def.1 hy]
      exact not_le.1 hdeep
    obtain ⟨hpos, hlevel⟩ := levelAt_visiblePredecessor hpred
    have hfits := hwf.fits _ (List.getElem_mem hlt)
    rw [← levelAt_of_lt hlt] at hfits
    have hwrap : wrappingAdd (levelAt t.items idx) 1 = levelAt t.items idx + 1 :=
      Nat.mod_eq_of_lt (Nat.succ_lt_succ (lt_of_le_of_ne hfits hmax))
    rw [hwrap] at hshift
    have hprev : idx - 1 < t.items.length := by omega
    refine parentsAre_shiftInPlace hwf h hlt (fun z hz hlow => ?_) (fun y hy => ?_) hshift
    · obtain ⟨hin, rfl⟩ := List.getElem?_eq_some_iff.1 hnode
      rw [levelAt_of_lt hin] at hlevel
      rw [List.getLast?_take, if_neg hpos.ne', List.getElem?_eq_getElem hprev, Option.some_or] at hz
      obtain rfl := Option.some.inj hz
      rw [levelAt_of_lt hprev] at hlevel
      -- the node before is not deeper, so it is the visible one, and a group
      obtain rfl := visiblePredecessor_eq (by rw [levelAt_of_lt hprev]; omega) hpred
      rcases hinto with hinto | hinto
      · exact hf _ (List.getElem_mem _) hinto.2.1
      · omega
    · have hbehind := head_drop_subtreeEnd hlt y hy
      omega
  | @before nodeIdx node _ hpred hnode hle hmoves =>
    obtain ⟨hin, rfl⟩ := List.getElem?_eq_some_iff.1 hnode
    refine parentsAre_moveItems hwf h (unnested_singleton t idx) (.inr fun z hz hone => ?_) hmoves
    have hlast : z ∈ lastStaying t.items [idx] nodeIdx := hz
    have hone' : z.level + 1 = t.items[nodeIdx].level := hone
    rw [lastStaying, survivors_take nodeIdx (by simpa using (visiblePredecessor_lt hpred).le)] at hlast
    exact hadjacent nodeIdx z hlast _ (hhead hin) (by omega)

end ItemTree
