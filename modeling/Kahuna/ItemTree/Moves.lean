import Kahuna.ItemTree.WellFormed

/-!
# What moves do

A move that goes through takes subtrees out of the tree and puts them back elsewhere, or shifts a subtree
where it stands. Here this is said once for each way to move, so that what a move keeps can be read off.

- `MovesItem`: the ways in which the keyboard moves an item;
- `movesItem_of_ok`: `move_item` moves an item in one of them;
- `moveItems_ahead`, `moveItems_behind`: the tree after one subtree is moved;
- `moveItems_into_itself`: a move into one of the moved subtrees is refused.
-/

namespace ItemTree

open Outline DisplayedItemTree

variable {t t' : DisplayedItemTree} {idx vidx vidx' : ℕ} {f : Node → Bool} {direction : MoveDir}

/-! ## Moves by the keyboard -/

/-- The ways to move the node at `idx`, which is the `vidx`-th visible one: there is nowhere to go, it is
shifted out of its parent, it is moved into the group behind it or past the node behind it, it becomes a
child of a group before it, or it is moved in front of the node before it. -/
inductive MovesItem (t : DisplayedItemTree) (f : Node → Bool) (vidx idx : ℕ) :
    MoveDir → ℕ → DisplayedItemTree → Prop
  | stays : t.visiblePredecessor idx = none → MovesItem t f vidx idx .up vidx t
  | out {t' : DisplayedItemTree} :
      (∀ y ∈ (t.items.drop (subtreeEnd t.items idx)).head?, y.level < levelAt t.items idx) →
      t.shiftInPlace idx (subtreeEnd t.items idx) (levelAt t.items idx - 1) = (.ok (), t') →
      MovesItem t f vidx idx .down vidx t'
  | into {node : Node} {t' : DisplayedItemTree} :
      t.items[subtreeEnd t.items idx]? = some node → levelAt t.items idx ≤ node.level →
      node.unfolded = true → f node = true →
      t.moveItems [idx] ⟨subtreeEnd t.items idx + 1, wrappingAdd node.level 1⟩ = .ok (.ok (), t') →
      MovesItem t f vidx idx .down (vidx + 1) t'
  | past {node : Node} {t' : DisplayedItemTree} :
      t.items[subtreeEnd t.items idx]? = some node → levelAt t.items idx ≤ node.level →
      (node.unfolded && f node) = false →
      t.moveItems [idx] ⟨subtreeEnd t.items (subtreeEnd t.items idx), levelAt t.items idx⟩
        = .ok (.ok (), t') →
      MovesItem t f vidx idx .down (vidx + 1) t'
  | under {nodeIdx : ℕ} {node : Node} {t' : DisplayedItemTree} :
      t.visiblePredecessor idx = some nodeIdx → t.items[nodeIdx]? = some node →
      (levelAt t.items idx ≤ node.level ∧ f node ∧ node.unfolded) ∨ levelAt t.items idx < node.level →
      t.shiftInPlace idx (subtreeEnd t.items idx) (wrappingAdd (levelAt t.items idx) 1) = (.ok (), t') →
      MovesItem t f vidx idx .up vidx t'
  | before {nodeIdx : ℕ} {node : Node} {t' : DisplayedItemTree} :
      t.visiblePredecessor idx = some nodeIdx → t.items[nodeIdx]? = some node →
      node.level ≤ levelAt t.items idx →
      t.moveItems [idx] ⟨nodeIdx, node.level⟩ = .ok (.ok (), t') →
      MovesItem t f vidx idx .up (vidx - 1) t'

/-- A shift in place that goes through. -/
theorem shifted_eq_ok {start end_ level index : ℕ}
    (h : (match t.shiftInPlace start end_ level with
      | (result, t) => .ok (result.map fun _ => index, t) :
        Run (Except MoveError ℕ × DisplayedItemTree)) = .ok (.ok vidx', t')) :
    t.shiftInPlace start end_ level = (.ok (), t') ∧ vidx' = index := by
  rcases hshift : t.shiftInPlace start end_ level with ⟨_ | u, tree⟩
  · rw [hshift] at h
    cases h
  · rw [hshift] at h
    cases h
    exact ⟨rfl, rfl⟩

/-- A move to another place that goes through. -/
theorem moved_of_ok {run : Run (Except MoveError Unit × DisplayedItemTree)} {index : ℕ}
    (h : (match run with
      | .error p => .error p
      | .ok (result, t) => .ok (result.map fun _ => index, t) :
        Run (Except MoveError ℕ × DisplayedItemTree)) = .ok (.ok vidx', t')) :
    run = .ok (.ok (), t') ∧ vidx' = index := by
  rcases run with p | ⟨_ | u, tree⟩
  · cases h
  · cases h
  · cases h
    exact ⟨rfl, rfl⟩

/-- A move of the keyboard that goes through is one of the ways to move an item. -/
theorem movesItem_of_ok (h : t.moveItem vidx direction f = .ok (.ok vidx', t')) :
    ∃ idx, t.toDisplayed vidx = some idx ∧ MovesItem t f vidx idx direction vidx' t' := by
  rw [moveItem] at h
  cases hidx : t.toDisplayed vidx with
  | none =>
    rw [hidx] at h
    cases h
  | some idx =>
    rw [hidx] at h
    refine ⟨idx, rfl, ?_⟩
    cases direction with
    | down =>
      simp only at h
      have hhead : (t.items.drop (subtreeEnd t.items idx)).head?
          = t.items[subtreeEnd t.items idx]? := List.head?_drop
      cases hend : t.items[subtreeEnd t.items idx]? with
      | none =>
        -- the last node of all can only leave its parent
        rw [hend] at h hhead
        obtain ⟨hshift, rfl⟩ := shifted_eq_ok h
        exact .out (by simp [hhead]) hshift
      | some node =>
        rw [hend] at h hhead
        simp only at h
        split at h
        next hless =>
          obtain ⟨hshift, rfl⟩ := shifted_eq_ok h
          exact .out (by simpa [hhead] using hless) hshift
        next hless =>
          split at h
          next hgroup =>
            obtain ⟨hmoves, rfl⟩ := moved_of_ok h
            rw [Bool.and_eq_true] at hgroup
            exact .into hend (not_lt.1 hless) hgroup.1 hgroup.2 hmoves
          next hgroup =>
            obtain ⟨hmoves, rfl⟩ := moved_of_ok h
            exact .past hend (not_lt.1 hless) (by simpa using hgroup) hmoves
    | up =>
      simp only at h
      cases hpred : t.visiblePredecessor idx with
      | none =>
        rw [hpred] at h
        cases h
        exact .stays hpred
      | some nodeIdx =>
        rw [hpred] at h
        simp only at h
        cases hnode : t.items[nodeIdx]? with
        | none =>
          rw [hnode] at h
          cases h
        | some node =>
          rw [hnode] at h
          simp only at h
          split at h
          next hinto =>
            obtain ⟨hshift, rfl⟩ := shifted_eq_ok h
            exact .under hpred hnode hinto hshift
          next hinto =>
            obtain ⟨hmoves, rfl⟩ := moved_of_ok h
            rw [not_or] at hinto
            exact .before hpred hnode (not_lt.1 hinto.2) hmoves

/-- The keyboard would indent a subtree that reaches the largest level: there is no deeper level. -/
def IndentsTooDeep (t : DisplayedItemTree) (vidx : ℕ) (direction : MoveDir) (f : Node → Bool) : Prop :=
  ∃ idx, t.toDisplayed vidx = some idx ∧
    (∃ k, idx ≤ k ∧ k < subtreeEnd t.items idx ∧ levelAt t.items k = maxLevel) ∧
    match direction with
    | .down =>
      ∃ node, t.items[subtreeEnd t.items idx]? = some node ∧ levelAt t.items idx ≤ node.level ∧
        node.unfolded = true ∧ f node = true
    | .up =>
      ∃ nodeIdx node, t.visiblePredecessor idx = some nodeIdx ∧ t.items[nodeIdx]? = some node ∧
        ((levelAt t.items idx ≤ node.level ∧ f node = true ∧ node.unfolded = true) ∨
          levelAt t.items idx < node.level)

/-- Indenting a node of the largest level wraps around to level 0, where it could become the parent of the
nodes behind it. -/
def IndentsAround (t : DisplayedItemTree) (vidx : ℕ) (direction : MoveDir) (f : Node → Bool) : Prop :=
  ∃ idx nodeIdx node, direction = .up ∧ t.toDisplayed vidx = some idx ∧ levelAt t.items idx = maxLevel ∧
    t.visiblePredecessor idx = some nodeIdx ∧ t.items[nodeIdx]? = some node ∧ node.level = maxLevel ∧
      f node = true ∧ node.unfolded = true ∧ 0 < levelAt t.items (idx + 1)

/-! ## The node before -/

theorem visiblePredecessorLoop_lt {items : List Node} {startLevel i candidate limitLevel n : ℕ}
    (hcandidate : candidate < n) (hi : i ≤ n) :
    visiblePredecessorLoop items startLevel i candidate limitLevel < n := by
  induction i generalizing candidate limitLevel with
  | zero => exact hcandidate
  | succ i ih =>
    rw [visiblePredecessorLoop]
    have hcandidate' : (if levelAt items i < limitLevel ∧ ¬ (items[i]?.elim true Node.unfolded) then i
        else candidate) < n := by
      split <;> omega
    split
    · exact hcandidate'
    · exact ih hcandidate' (by omega)

/-- The visible node before a node is before it. -/
theorem visiblePredecessor_lt {nodeIdx : ℕ} (h : t.visiblePredecessor idx = some nodeIdx) :
    nodeIdx < idx := by
  rw [visiblePredecessor] at h
  split at h
  · cases h
  next hrange =>
    rw [not_or] at hrange
    rw [← Option.some.inj h]
    exact visiblePredecessorLoop_lt (by omega) le_rfl

/-- When the node right before is not deeper, it is the visible one before. -/
theorem visiblePredecessor_eq {nodeIdx : ℕ} (hle : levelAt t.items (idx - 1) ≤ levelAt t.items idx)
    (h : t.visiblePredecessor idx = some nodeIdx) : nodeIdx = idx - 1 := by
  rw [visiblePredecessor] at h
  split at h
  · cases h
  next hrange =>
    rw [not_or] at hrange
    obtain ⟨k, rfl⟩ := Nat.exists_eq_succ_of_ne_zero hrange.1
    simp only [Nat.succ_sub_one] at hle h ⊢
    rw [← Option.some.inj h, visiblePredecessorLoop, if_pos (.inl hle), if_neg (by simp)]

/-! ## Moving one subtree -/

/-- A shift in place that goes through. -/
theorem shiftInPlace_of_ok {level : ℕ} (hidx : idx < t.items.length)
    (h : t.shiftInPlace idx (subtreeEnd t.items idx) level = (.ok (), t')) :
    t'.items = t.items.take idx ++ movedSubtree t.items level idx
      ++ t.items.drop (subtreeEnd t.items idx) := by
  have hok : (shiftSubtreeToLevel (slice t.items idx (subtreeEnd t.items idx)) level).2 = .ok () :=
    congrArg Prod.fst h
  have hshift := shiftSubtreeToLevel_of_ok (lt_subtreeEnd hidx) (subtreeEnd_le_length hidx) hok
  have hitems : t'.items = t.items.take idx
      ++ (shiftSubtreeToLevel (slice t.items idx (subtreeEnd t.items idx)) level).1
      ++ t.items.drop (subtreeEnd t.items idx) :=
    (congrArg (fun r : Except MoveError Unit × DisplayedItemTree => r.2.items) h).symm
  rw [hitems, movedSubtree]
  exact congrArg (t.items.take idx ++ · ++ t.items.drop _) hshift

/-- What is left when one subtree is taken out. -/
theorem survivors_singleton {items : List Node} (hidx : idx < items.length) {xs : List Node}
    (hxs : subtreeEnd items idx ≤ xs.length) :
    survivors items [idx] xs = xs.take idx ++ xs.drop (subtreeEnd items idx) := by
  have hnone : survivors items [] xs = xs := keepAt_eq_self fun _ _ _ => rfl
  have hcons := (@survivors_cons items [] idx hidx (by simp) xs hxs).2
  rwa [hnone] at hcons

/-- One subtree is taken out and put back at a place that was checked. -/
theorem moveItems_singleton {target : TargetPosition} (hidx : idx < t.items.length)
    (h : t.moveItems [idx] target = .ok (.ok (), t')) :
    let rest := t.items.take idx ++ t.items.drop (subtreeEnd t.items idx)
    let shifted := shiftedTarget t.items [idx] target.before
    checkLocation rest ⟨shifted, target.level⟩ = .ok () ∧
      t'.items = rest.take shifted ++ movedSubtree t.items target.level idx ++ rest.drop shifted := by
  have hback : backToFront [idx] = [idx] := rfl
  have hrest := survivors_singleton hidx (subtreeEnd_le_length hidx)
  rcases moveItems_cases (unnested_singleton t idx) h with ⟨-, hnot⟩ | ⟨-, -, hcheck, -, rfl⟩
  · exact absurd rfl hnot
  · rw [hback, List.reverse_singleton] at hcheck ⊢
    rw [hrest] at hcheck ⊢
    exact ⟨hcheck, by simp⟩

/-- A subtree that is moved towards the front. -/
theorem moveItems_ahead {target : TargetPosition} (hidx : idx < t.items.length)
    (htarget : target.before ≤ idx) (h : t.moveItems [idx] target = .ok (.ok (), t')) :
    t'.items = t.items.take target.before ++ movedSubtree t.items target.level idx
      ++ ((t.items.take idx).drop target.before ++ t.items.drop (subtreeEnd t.items idx)) := by
  have hshifted : shiftedTarget t.items [idx] target.before = target.before :=
    shiftedTarget_of_le hidx htarget (by simp)
  obtain ⟨-, hitems⟩ := moveItems_singleton hidx h
  have hlen : target.before ≤ (t.items.take idx).length := by
    rw [List.length_take]
    omega
  rw [hitems, hshifted, List.take_append_of_le_length hlen, List.take_take, Nat.min_eq_left htarget,
    List.drop_append_of_le_length hlen]

/-- A subtree that is moved towards the end. -/
theorem moveItems_behind {target : TargetPosition} (hidx : idx < t.items.length)
    (htarget : subtreeEnd t.items idx ≤ target.before) (hlen : target.before ≤ t.items.length)
    (h : t.moveItems [idx] target = .ok (.ok (), t')) :
    t'.items = t.items.take idx ++ (t.items.take target.before).drop (subtreeEnd t.items idx)
      ++ movedSubtree t.items target.level idx ++ t.items.drop target.before := by
  have hlt : idx < subtreeEnd t.items idx := lt_subtreeEnd hidx
  have htake : survivors t.items [idx] (t.items.take target.before)
      = (t.items.take target.before).take idx
        ++ (t.items.take target.before).drop (subtreeEnd t.items idx) := by
    refine survivors_singleton hidx ?_
    rw [List.length_take]
    omega
  have hshifted : shiftedTarget t.items [idx] target.before
      = (t.items.take idx ++ (t.items.take target.before).drop (subtreeEnd t.items idx)).length := by
    rw [shiftedTarget, htake, List.take_take, Nat.min_eq_left (by omega)]
    omega
  obtain ⟨-, hitems⟩ := moveItems_singleton hidx h
  have hdrop : t.items.drop (subtreeEnd t.items idx)
      = (t.items.take target.before).drop (subtreeEnd t.items idx) ++ t.items.drop target.before := by
    rw [← List.drop_append_of_le_length (by rw [List.length_take]; omega), List.take_append_drop]
  have hrest : t.items.take idx ++ t.items.drop (subtreeEnd t.items idx)
      = (t.items.take idx ++ (t.items.take target.before).drop (subtreeEnd t.items idx))
        ++ t.items.drop target.before := by
    rw [hdrop, List.append_assoc]
  rw [hitems, hshifted, hrest, List.take_left, List.drop_left]

/-! ## Moving into what is moved -/

/-- A move to a place inside one of the moved subtrees is refused. -/
theorem moveItems_into_itself {indices : List ℕ} {target : TargetPosition} {result : Except MoveError Unit}
    (hunnested : Unnested t indices) (hrange : ∀ i ∈ indices, i < t.items.length) {root : ℕ}
    (hroot : root ∈ indices) (hinside : root < target.before ∧ target.before < subtreeEnd t.items root)
    (h : t.moveItems indices target = .ok (result, t')) : t' = t ∧ result ≠ .ok () := by
  have hpairs := hunnested.disjoint hrange
  have hmem : root ∈ backToFront indices := mem_backToFront.2 hroot
  have hin : ∀ i ∈ backToFront indices, i < t.items.length := fun i hi => hrange i (mem_backToFront.1 hi)
  obtain ⟨behind, before, hsplit⟩ := List.append_of_mem hmem
  rw [hsplit] at hpairs hin
  obtain ⟨hbehind, -, hcross⟩ := List.pairwise_append.1 hpairs
  have hnone : survivors t.items [] t.items = t.items := keepAt_eq_self fun _ _ _ => rfl
  have hlast : indices.getLast?.any (fun idx => t.items.length ≤ idx) = false := by
    cases hl : indices.getLast? with
    | none => rfl
    | some idx => simpa using hrange idx (List.mem_of_getLast? hl)
  -- what lies behind the subtree is taken out first, or something is refused before
  have hplain := @moveLoop_plain t.items [] target.level target.before behind
    (fun s hs => hin s (List.mem_append_left _ hs)) hbehind (by simp) []
  rw [hnone, shiftedTarget_nil, List.append_nil, List.append_nil] at hplain
  have hrefused : ∃ e, moveLoop t.items target.level (backToFront indices) t.items [] target.before
      = .ok (.error e) := by
    rw [hsplit, moveLoop_append]
    rcases hplain with ⟨e, hloop, -⟩ | hloop
    · exact ⟨e, by rw [hloop]⟩
    · have hdone : ∀ d ∈ behind.reverse, subtreeEnd t.items root ≤ d := fun d hd =>
        hcross d (List.mem_reverse.1 hd) root List.mem_cons_self
      have hcircular := (@shiftedTarget_mem_iff _ _ root target.before (hrange root hroot) hdone).2 hinside
      rw [hloop]
      simp only [moveLoop, if_neg (not_le.2 (hrange root hroot)), if_pos hcircular]
      exact ⟨_, rfl⟩
  obtain ⟨e, hloop⟩ := hrefused
  rw [moveItems_eq hlast, hloop] at h
  obtain ⟨rfl, rfl⟩ := Prod.mk.inj (Except.ok.inj h)
  exact ⟨rfl, fun heq => by cases heq⟩

end ItemTree
