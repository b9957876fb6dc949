import Kahuna.ItemTree.Keyboard

/-!
# What moves by the keyboard keep

A subtree that is moved stays in one piece, and nothing else changes but its place and its level: all other
nodes keep their order and their parents, and the node it is put below may have children and is unfolded. A
move in the other direction takes everything back.

- `KeyboardMove`: what a move keeps;
- `moveItem_law`: every move of a visible node keeps it;
- `moveItem_inverse`: moves up and down are inverse to each other.
-/

namespace ItemTree

open Outline DisplayedItemTree

variable {t t' : DisplayedItemTree} {pre sub below rest : List Node} {x : Node} {f : Node → Bool}
  {level vidx : ℕ}

/-- A node that differs by `d` in its level. -/
def ShiftedBy (d : ℤ) (x y : Node) : Prop := y = { x with level := y.level } ∧ (y.level : ℤ) = x.level + d

/-- The nodes outside the subtree at `idx`. -/
def outside (items : List Node) (idx : ℕ) : List Node :=
  items.take idx ++ items.drop (subtreeEnd items idx)

/-- What a move by the keyboard does: the subtree at `idx` is put at `idx'`. -/
structure KeyboardMove (f : Node → Bool) (t : DisplayedItemTree) (idx : ℕ) (t' : DisplayedItemTree) (idx' : ℕ) :
    Prop where
  /-- The nodes outside stay as they are, in their order, and the subtree stands among them in one piece, with
  all levels shifted alike. -/
  items : ∃ d moved, List.Forall₂ (ShiftedBy d) (slice t.items idx (subtreeEnd t.items idx)) moved ∧
    idx' ≤ (outside t.items idx).length ∧
    t'.items = (outside t.items idx).take idx' ++ (moved ++ (outside t.items idx).drop idx')
  /-- All nodes but the root of the subtree keep their parents. -/
  parents : ∀ i, i < t.items.length → i ≠ idx →
    parentOf Node.level t'.items (movedIndex idx (subtreeEnd t.items idx - idx) idx' i)
      = (parentOf Node.level t.items i).map (movedIndex idx (subtreeEnd t.items idx - idx) idx')
  /-- The node it is put below may have children and is unfolded. -/
  adopted : ∀ q, parentOf Node.level t'.items idx' = some q → ∀ node ∈ t'.items[q]?,
    f node = true ∧ node.unfolded = true

/-! ## The new parent -/

/-- Behind these nodes a node at this level gets a parent that may have children and is unfolded. -/
def Adopted (f : Node → Bool) (nodes : List Node) (level : ℕ) : Prop :=
  ∀ q, lastBelow Node.level level nodes = some q → ∀ node ∈ nodes[q]?, f node = true ∧ node.unfolded = true

/-- Nodes that are not less deep do not matter. -/
theorem Adopted.append (h : Adopted f pre level) (hdeep : ∀ y ∈ sub, level ≤ y.level) :
    Adopted f (pre ++ sub) level := by
  intro q hq node hnode
  rw [lastBelow_append_left hdeep] at hq
  rw [List.getElem?_append_left (lastBelow_lt hq)] at hnode
  exact h q hq node hnode

/-- In front of a node that is at this level or deeper: the parent has children. -/
theorem adopted_of_child (hf : GroupsMay f t) (heq : t.items = pre ++ x :: rest) (hlevel : level ≤ x.level)
    (hshows : Shows (limitAfter pre) level) : Adopted f pre level := by
  intro q hq node hnode
  obtain ⟨hlt, hless, hlater⟩ := lastBelow_eq_some_iff.1 hq
  rw [List.getElem?_eq_getElem hlt] at hnode
  obtain rfl := Option.some.inj hnode
  have hget : t.items[q]? = some pre[q] := by
    rw [heq, List.getElem?_append_left hlt, List.getElem?_eq_getElem hlt]
  constructor
  · refine hf q ?_ _ hget
    -- the node behind the parent is deeper
    obtain ⟨y, hy, hdeeper⟩ : ∃ y, t.items[q + 1]? = some y ∧ level ≤ y.level := by
      rcases Nat.lt_or_ge (q + 1) pre.length with hnext | hnext
      · refine ⟨pre[q + 1], ?_, hlater (q + 1) (Nat.lt_succ_self q) hnext⟩
        rw [heq, List.getElem?_append_left hnext, List.getElem?_eq_getElem hnext]
      · obtain hlast : q + 1 = pre.length := by omega
        exact ⟨x, by rw [heq, hlast]; simp, hlevel⟩
    rw [hasChildren, hget, hy]
    exact decide_eq_true (hless.trans_le hdeeper)
  · refine shows_iff.1 hshows pre[q] (mem_openedAfter_iff.2 ⟨q, hlt, rfl, fun k hqk hk => ?_⟩) hless
    exact hless.trans_le (hlater k hqk hk)

/-- A node that is indented gets a parent that may have children and is unfolded. -/
theorem Adopts.adopted (h : Adopts f pre level) (hf : GroupsMay f t) (heq : t.items = pre ++ rest) :
    Adopted f pre (level + 1) := by
  obtain ⟨pre, y, below, rfl, hends, hinto⟩ := h
  have heq' : t.items = pre ++ y :: (below ++ rest) := by
    rw [heq, List.append_assoc]
    rfl
  by_cases hlt : level < y.level
  · -- it becomes a child of an ancestor of the node before it
    refine (adopted_of_child hf heq' hlt (hends.shows.mono hlt)).append (List.forall_mem_cons.2 ⟨hlt, ?_⟩)
    exact fun z hz => hlt.trans (hends.deeper z hz)
  · obtain ⟨hle, hfy, hunfolded⟩ := hinto.resolve_right hlt
    obtain rfl : below = [] := hends.folded.resolve_left (by simp [hunfolded])
    intro q hq node hnode
    rw [lastBelow_append_right ⟨y, List.mem_singleton_self y, by omega⟩] at hq
    obtain ⟨i, hi, rfl⟩ := Option.map_eq_some_iff.1 hq
    have hi' := lastBelow_lt hi
    obtain rfl : i = 0 := by simpa using hi'
    obtain rfl : y = node := by simpa using hnode
    exact ⟨hfy, hunfolded⟩

/-! ## What a move keeps -/

/-- A subtree is put at another place or on another level. -/
theorem keyboardMove_of_split {pre' rest' : List Node} {new : ℕ} (heq : t.items = pre ++ x :: (sub ++ rest))
    (heq' : t'.items = pre' ++ ((x :: sub).map (atLevel x.level new) ++ rest'))
    (hbelow : Below Node.level x sub rest) (hbehind : ∀ y ∈ rest'.head?, y.level ≤ new)
    (hrest : pre ++ rest = pre' ++ rest') (hadopted : Adopted f pre' new) :
    KeyboardMove f t pre.length t' pre'.length := by
  have hend := subtreeEnd_length heq hbelow
  have hlen : subtreeEnd t.items pre.length - pre.length = (x :: sub).length := by
    rw [hend, List.length_cons]
    omega
  have hout : outside t.items pre.length = pre' ++ rest' := by
    rw [outside, hend, drop_split heq, heq, List.take_left, hrest]
  have hdeep : ∀ y ∈ x :: sub, x.level ≤ y.level :=
    List.forall_mem_cons.2 ⟨le_rfl, fun y hy => (hbelow.deeper y hy).le⟩
  refine ⟨⟨(new : ℤ) - x.level, (x :: sub).map (atLevel x.level new), ?_, ?_, ?_⟩, fun i hi hne => ?_,
    fun q hq node hnode => ?_⟩
  · rw [hend, slice_split heq, List.forall₂_map_right_iff, List.forall₂_same]
    intro y hy
    have hle := hdeep y hy
    refine ⟨rfl, ?_⟩
    simp only [atLevel]
    omega
  · rw [hout, List.length_append]
    exact Nat.le_add_right ..
  · rw [hout, List.take_left, List.drop_left, heq']
  · have hsplit : t.items = pre ++ ((x :: sub) ++ rest) := heq
    rw [hlen]
    by_cases hin : pre.length ≤ i ∧ i < pre.length + (x :: sub).length
    · -- inside the subtree
      obtain ⟨j, rfl⟩ : ∃ j, i = pre.length + (j + 1) := ⟨i - pre.length - 1, by omega⟩
      have hj : j < sub.length := by
        have := hin.2
        rw [List.length_cons] at this
        omega
      obtain ⟨p, hp⟩ := exists_parentOf_below hbelow.deeper hj
      rw [heq', hsplit]
      refine parentOf_moved_inside hp ?_
      rw [parentOf_map fun y hy z hz => ?_, hp]
      have hy' := hdeep y hy
      have hz' := hdeep z hz
      simp only [atLevel]
      omega
    · rw [heq', hsplit]
      refine parentOf_moved_outside hrest (List.length_map _) (fun y hy z hz => ?_) (fun y hy z hz => ?_) ?_
        (by omega)
      · exact (hbelow.behind y hy).trans (hdeep z hz)
      · obtain ⟨w, hw, rfl⟩ := List.mem_map.1 hz
        have hle := hdeep w hw
        have hle' := hbehind y hy
        simp only [atLevel]
        omega
      · rwa [← hsplit]
  · have hroot : (atLevel x.level new x).level = new := Nat.add_sub_cancel _ _
    rw [heq', List.map_cons, List.cons_append, parentOf_append_cons, hroot] at hq
    rw [heq', List.getElem?_append_left (lastBelow_lt hq)] at hnode
    exact hadopted q hq node hnode

/-- Behind a node that is shown and unfolded, or at most at its level, nodes are shown. -/
theorem EndsIn.shows_behind (h : EndsIn pre x below) (hlevel : x.unfolded = true ∨ level ≤ x.level) :
    Shows (limitAfter (pre ++ x :: below)) level := by
  rw [h.limitAfter_eq]
  split
  · exact shows_none
  next hfolded => exact shows_some.2 (hlevel.resolve_left hfolded)

/-- The law of a move up. -/
theorem Lifts.up (hf : GroupsMay f t) {vidx' : ℕ} (h : Lifts f t.items vidx t'.items vidx') :
    ∃ idx idx', t.toDisplayed vidx = some idx ∧ t'.toDisplayed vidx' = some idx' ∧
      KeyboardMove f t idx t' idx' := by
  obtain ⟨items⟩ := t
  obtain ⟨items'⟩ := t'
  dsimp only at h
  cases h with
  | @indent pre sub rest x hbelow hadopts =>
    have hshows := hadopts.shows
    have hroot : (atLevel x.level (x.level + 1) x).level = x.level + 1 := Nat.add_sub_cancel _ _
    refine ⟨pre.length, pre.length, toDisplayed_length rfl (hshows.mono (Nat.le_succ _)),
      toDisplayed_length rfl (by rwa [hroot]), ?_⟩
    exact keyboardMove_of_split rfl rfl hbelow (fun y hy => (hbelow.behind y hy).trans (Nat.le_succ _)) rfl
      (hadopts.adopted hf rfl)
  | @leave pre sub rest group x hbelow hends hlevel hunfolded hgroup =>
    have hroot : (atLevel x.level group.level x).level = group.level := Nat.add_sub_cancel _ _
    have hshows : Shows (limitAfter (pre ++ [group])) x.level := hends.shows_behind (.inl hunfolded)
    rw [← hends.shownCount_eq]
    refine ⟨(pre ++ [group]).length, pre.length, toDisplayed_length rfl hshows,
      toDisplayed_length rfl (by rw [hroot]; exact hends.shows), ?_⟩
    have hsplit : (pre ++ [group]) ++ x :: (sub ++ rest) = pre ++ group :: x :: (sub ++ rest) := by
      rw [List.append_assoc]
      rfl
    exact keyboardMove_of_split rfl rfl hbelow (fun y hy => by rw [← Option.some.inj hy])
      (by rw [List.append_assoc]; rfl) (adopted_of_child hf hsplit le_rfl hends.shows)
  | @pass pre below sub rest sibling x hbelow hends hlevel hgroup =>
    have hshows : Shows (limitAfter (pre ++ sibling :: below)) x.level := hends.shows_behind (.inr hlevel.le)
    rw [← hends.shownCount_eq]
    refine ⟨(pre ++ sibling :: below).length, pre.length, toDisplayed_length rfl hshows,
      toDisplayed_length rfl (hlevel ▸ hends.shows), ?_⟩
    have hsplit : (pre ++ sibling :: below) ++ x :: (sub ++ rest)
        = pre ++ sibling :: (below ++ x :: (sub ++ rest)) := by
      rw [List.append_assoc]
      rfl
    have hself : (x :: sub).map (atLevel x.level x.level) = x :: sub := by
      rw [List.map_congr_left fun node _ => atLevel_self node, List.map_id']
    exact keyboardMove_of_split rfl (by rw [hself]; rfl) hbelow
      (fun y hy => by rw [← Option.some.inj hy, hlevel]) (by rw [List.append_assoc]; rfl)
      (adopted_of_child hf hsplit hlevel.le (hlevel ▸ hends.shows))

/-- The law of a move down. -/
theorem Lifts.down (hf : GroupsMay f t') {vidx' : ℕ} (h : Lifts f t.items vidx t'.items vidx') :
    ∃ idx' idx, t'.toDisplayed vidx' = some idx' ∧ t.toDisplayed vidx = some idx ∧
      KeyboardMove f t' idx' t idx := by
  obtain ⟨items⟩ := t
  obtain ⟨items'⟩ := t'
  dsimp only at h
  cases h with
  | @indent pre sub rest x hbelow hadopts =>
    have hshows := hadopts.shows
    have hroot : (atLevel x.level (x.level + 1) x).level = x.level + 1 := Nat.add_sub_cancel _ _
    refine ⟨pre.length, pre.length, toDisplayed_length rfl (by rwa [hroot]),
      toDisplayed_length rfl (hshows.mono (Nat.le_succ _)), ?_⟩
    refine @keyboardMove_of_split _ _ pre (sub.map (atLevel x.level (x.level + 1))) rest
      (atLevel x.level (x.level + 1) x) f pre rest x.level rfl ?_
      (below_atLevel hbelow.deeper fun y hy => (hbelow.behind y hy).trans (Nat.le_succ _)) hbelow.behind rfl
      (adopted_of_child hf rfl ?_ (hshows.mono (Nat.le_succ _)))
    · rw [hroot, ← List.map_cons, map_subtree_inverse hbelow.deeper]
      rfl
    · rw [hroot]
      exact Nat.le_succ _
  | @leave pre sub rest group x hbelow hends hlevel hunfolded hgroup =>
    have hroot : (atLevel x.level group.level x).level = group.level := Nat.add_sub_cancel _ _
    have hshows : Shows (limitAfter (pre ++ [group])) x.level := hends.shows_behind (.inl hunfolded)
    rw [← hends.shownCount_eq]
    refine ⟨pre.length, (pre ++ [group]).length, toDisplayed_length rfl (by rw [hroot]; exact hends.shows),
      toDisplayed_length rfl hshows, ?_⟩
    refine @keyboardMove_of_split _ _ pre (sub.map (atLevel x.level group.level)) (group :: rest)
      (atLevel x.level group.level x) f (pre ++ [group]) rest x.level rfl ?_
      (below_atLevel hbelow.deeper fun y hy => by rw [← Option.some.inj hy]) hbelow.behind
      (by rw [List.append_assoc]; rfl) ?_
    · rw [hroot, ← List.map_cons, map_subtree_inverse hbelow.deeper]
      rfl
    · -- it is put below the group
      intro q hq node hnode
      rw [lastBelow_append_right ⟨group, List.mem_singleton_self group, by omega⟩] at hq
      obtain ⟨i, hi, rfl⟩ := Option.map_eq_some_iff.1 hq
      have hi' := lastBelow_lt hi
      obtain rfl : i = 0 := by simpa using hi'
      obtain rfl : group = node := by simpa using hnode
      exact ⟨hgroup, hunfolded⟩
  | @pass pre below sub rest sibling x hbelow hends hlevel hgroup =>
    have hshows : Shows (limitAfter (pre ++ sibling :: below)) x.level := hends.shows_behind (.inr hlevel.le)
    rw [← hends.shownCount_eq]
    refine ⟨pre.length, (pre ++ sibling :: below).length, toDisplayed_length rfl (hlevel ▸ hends.shows),
      toDisplayed_length rfl hshows, ?_⟩
    have hself : (x :: sub).map (atLevel x.level x.level) = x :: sub := by
      rw [List.map_congr_left fun node _ => atLevel_self node, List.map_id']
    refine keyboardMove_of_split rfl (by rw [hself]; rfl)
      ⟨hbelow.deeper, fun y hy => by rw [← Option.some.inj hy, hlevel]⟩ hbelow.behind
      (by rw [List.append_assoc]; rfl) ?_
    refine (adopted_of_child hf rfl le_rfl (hlevel ▸ hends.shows)).append (List.forall_mem_cons.2 ⟨hlevel.le, ?_⟩)
    exact fun y hy => hlevel ▸ (hends.deeper y hy).le

/-- A node that stays where it is. -/
theorem keyboardMove_stays (hf : GroupsMay f t) {idx : ℕ} (hidx : t.toDisplayed vidx = some idx) :
    KeyboardMove f t idx t idx := by
  obtain ⟨hlt, hshown, -⟩ := toDisplayed_eq_some_iff.1 hidx
  obtain ⟨pre, x, sub, rest, heq, -, rfl, -, -, -, hbelow⟩ := exists_split hlt
  have hself : (x :: sub).map (atLevel x.level x.level) = x :: sub := by
    rw [List.map_congr_left fun node _ => atLevel_self node, List.map_id']
  exact keyboardMove_of_split heq (by rw [hself, heq]; rfl) hbelow hbelow.behind rfl
    (adopted_of_child hf heq le_rfl ((shown_length heq).1 hshown))

/-- Every move of a visible node goes through and keeps the law, and the index it returns is the visible one
of the node that was moved. -/
theorem moveItem_law (hwf : t.WellFormed) (hlevels : ∀ node ∈ t.items, node.level < maxLevel)
    (hf : GroupsMay f t) (hvidx : vidx < t.visible.length) (direction : MoveDir) :
    ∃ vidx' t' idx idx', t.moveItem vidx direction f = .ok (.ok vidx', t') ∧ t.toDisplayed vidx = some idx ∧
      t'.toDisplayed vidx' = some idx' ∧ KeyboardMove f t idx t' idx' := by
  have hidx : t.toDisplayed vidx = some t.visible[vidx] := List.getElem?_eq_getElem hvidx
  obtain ⟨vidx', t', hrun, -, ⟨rfl, rfl⟩ | hlifts⟩ := moveItem_spec hwf hlevels hf hidx direction
  · exact ⟨_, _, _, _, hrun, hidx, hidx, keyboardMove_stays hf hidx⟩
  · cases direction with
    | up =>
      obtain ⟨idx, idx', hdisplayed, hdisplayed', hmove⟩ := Lifts.up hf hlifts
      exact ⟨_, _, _, _, hrun, hdisplayed, hdisplayed', hmove⟩
    | down =>
      obtain ⟨idx, idx', hdisplayed, hdisplayed', hmove⟩ := Lifts.down hf hlifts
      exact ⟨_, _, _, _, hrun, hdisplayed, hdisplayed', hmove⟩

/-- A node moves out of a group. -/
theorem moveItem_law_twoGroups : 1 < twoGroups.visible.length ∧
    ∃ vidx' t' idx idx', twoGroups.moveItem 1 .down (fun _ => true) = .ok (.ok vidx', t') ∧
      twoGroups.toDisplayed 1 = some idx ∧ t'.toDisplayed vidx' = some idx' ∧
      KeyboardMove (fun _ => true) twoGroups idx t' idx' :=
  ⟨by decide, moveItem_law ⟨by decide, by decide⟩ (by decide) (fun _ _ _ _ => rfl) (by decide) .down⟩

/-- A move that changes the tree is undone by the move in the other direction. -/
theorem moveItem_inverse (hwf : t.WellFormed) (hlevels : ∀ node ∈ t.items, node.level < maxLevel)
    (hf : GroupsMay f t) {vidx' : ℕ} (hne : t' ≠ t) :
    (t.moveItem vidx .down f = .ok (.ok vidx', t') → t'.moveItem vidx' .up f = .ok (.ok vidx, t)) ∧
      (t.moveItem vidx .up f = .ok (.ok vidx', t') → t'.moveItem vidx' .down f = .ok (.ok vidx, t)) := by
  constructor
  · intro hrun
    obtain ⟨idx, hidx, -⟩ := movesItem_of_ok hrun
    obtain ⟨vidx₀, t₀, hrun₀, hwf', hspec⟩ := moveItem_spec hwf hlevels hf hidx .down
    obtain ⟨rfl, rfl⟩ : vidx₀ = vidx' ∧ t₀ = t' := by simpa [hrun₀] using hrun
    exact moveItem_up hwf' hwf.fits (hspec.resolve_left fun hsame => hne hsame.1)
  · intro hrun
    obtain ⟨idx, hidx, -⟩ := movesItem_of_ok hrun
    obtain ⟨vidx₀, t₀, hrun₀, hwf', hspec⟩ := moveItem_spec hwf hlevels hf hidx .up
    obtain ⟨rfl, rfl⟩ : vidx₀ = vidx' ∧ t₀ = t' := by simpa [hrun₀] using hrun
    exact moveItem_down hwf' hwf.fits (hspec.resolve_left fun hsame => hne hsame.1)

/-- The node moves back into the group. -/
theorem moveItem_inverse_twoGroups :
    let t' : DisplayedItemTree :=
      { items := [⟨0, 0, true, true⟩, ⟨1, 0, true, true⟩, ⟨2, 0, true, false⟩, ⟨3, 1, true, false⟩,
          ⟨4, 2, true, false⟩] }
    twoGroups.moveItem 1 .down (fun _ => true) = .ok (.ok 1, t') ∧
      t'.moveItem 1 .up (fun _ => true) = .ok (.ok 1, twoGroups) :=
  ⟨by decide, (moveItem_inverse ⟨by decide, by decide⟩ (by decide) (fun _ _ _ _ => rfl) (by decide)).1
    (by decide)⟩

end ItemTree
