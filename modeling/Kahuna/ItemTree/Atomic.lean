import Kahuna.ItemTree.Keyboard
import Mathlib.Tactic.IntervalCases

/-!
# Moves that fail

A move that is refused is meant to leave the tree as it was. `move_items` works on a copy and replaces the
nodes at the end. `move_item` shifts the levels of a subtree in the tree itself, one after the other, and stops
at the first that does not fit.

- `Move`: the calls that move nodes;
- `Move.Atomic`: a call fails without a trace, and no level overflows on the way;
- `Move.atomic_iff`: all calls do, except for those that indent a node of the largest level.
-/

namespace ItemTree

open Outline DisplayedItemTree

variable {t t' : DisplayedItemTree} {vidx idx : ℕ} {f : Node → Bool} {direction : MoveDir}

/-- A call that moves nodes. -/
inductive Move where
  | item (vidx : ℕ) (direction : MoveDir) (f : Node → Bool)
  | items (indices : List ℕ) (target : TargetPosition)

namespace Move

/-- The result of a call, and the tree after it. -/
def run (t : DisplayedItemTree) : Move → Run (Except MoveError Unit × DisplayedItemTree)
  | item vidx direction f => (t.moveItem vidx direction f).map fun out => (out.1.map fun _ => (), out.2)
  | items indices target => t.moveItems indices target

/-- The level that 1 is added to without a check, if there is one: that of the node which is moved into, or of
the node which is indented. All other arithmetic on levels saturates, is checked, or subtracts 1 from a level
that is larger than another one. -/
def addend (t : DisplayedItemTree) : Move → Option ℕ
  | item vidx .down f =>
    (t.toDisplayed vidx).bind fun idx => (t.items[subtreeEnd t.items idx]?).bind fun node =>
      if node.level < levelAt t.items idx then none else if node.unfolded && f node then some node.level else none
  | item vidx .up f =>
    (t.toDisplayed vidx).bind fun idx => (t.visiblePredecessor idx).bind fun nodeIdx =>
      (t.items[nodeIdx]?).bind fun node =>
        if (levelAt t.items idx ≤ node.level ∧ f node ∧ node.unfolded) ∨ levelAt t.items idx < node.level then
          some (levelAt t.items idx)
        else none
  | items _ _ => none

/-- A sum is no `u8`. -/
def Overflows (t : DisplayedItemTree) (move : Move) : Prop := ∃ l ∈ move.addend t, maxLevel < l + 1

/-- A call does not overflow, and when it fails it leaves the tree as it was. -/
def Atomic (t : DisplayedItemTree) (move : Move) : Prop :=
  ¬ move.Overflows t ∧ ∀ e t', move.run t = .ok (.error e, t') → t' = t

/-- A call indents a node of the largest level: it moves a node down into a group at the largest level, or it
indents a subtree that reaches the largest level. -/
def IndentsLargest (t : DisplayedItemTree) : Move → Prop
  | item vidx .down f => (item vidx .down f).addend t = some maxLevel
  | item vidx .up f => (∃ l, (item vidx .up f).addend t = some l) ∧ ∃ idx, t.toDisplayed vidx = some idx ∧
      ∃ k, idx ≤ k ∧ k < subtreeEnd t.items idx ∧ levelAt t.items k = maxLevel
  | items _ _ => False

end Move

/-! ## Refused moves -/

/-- A move to another place that fails. -/
theorem eq_of_moved_error {indices : List ℕ} {target : TargetPosition} {index : ℕ} {e : MoveError}
    (h : (match t.moveItems indices target with
      | .error p => .error p
      | .ok (result, t) => .ok (result.map fun _ => index, t) :
        Run (Except MoveError ℕ × DisplayedItemTree)) = .ok (.error e, t')) : t' = t := by
  rcases hmoves : t.moveItems indices target with p | ⟨e' | u, tree⟩
  · rw [hmoves] at h
    cases h
  · rw [hmoves] at h
    cases h
    exact eq_of_moveItems_error hmoves
  · rw [hmoves] at h
    cases h

/-- A shift in place that fails. -/
theorem shifted_eq_error {start end_ level index : ℕ} {e : MoveError}
    (h : (match t.shiftInPlace start end_ level with
      | (result, t) => .ok (result.map fun _ => index, t) :
        Run (Except MoveError ℕ × DisplayedItemTree)) = .ok (.error e, t')) :
    t.shiftInPlace start end_ level = (.error e, t') := by
  rcases hshift : t.shiftInPlace start end_ level with ⟨e' | u, tree⟩
  · rw [hshift] at h
    cases h
    rfl
  · rw [hshift] at h
    cases h

/-- A move by the keyboard that fails changes nothing, or fails in a shift. -/
theorem moveItem_error_cases {e : MoveError} (h : t.moveItem vidx direction f = .ok (.error e, t')) :
    t' = t ∨ ∃ idx, t.toDisplayed vidx = some idx ∧
      (direction = .down ∧
          t.shiftInPlace idx (subtreeEnd t.items idx) (levelAt t.items idx - 1) = (.error e, t') ∨
        direction = .up ∧ (Move.item vidx .up f).addend t = some (levelAt t.items idx) ∧
          t.shiftInPlace idx (subtreeEnd t.items idx) (wrappingAdd (levelAt t.items idx) 1)
            = (.error e, t')) := by
  rw [moveItem] at h
  cases hidx : t.toDisplayed vidx with
  | none =>
    rw [hidx] at h
    exact .inl (Prod.mk.inj (Except.ok.inj h)).2.symm
  | some idx =>
    rw [hidx] at h
    cases direction with
    | down =>
      simp only at h
      split at h
      · exact .inr ⟨idx, rfl, .inl ⟨rfl, shifted_eq_error h⟩⟩
      split at h
      · exact .inr ⟨idx, rfl, .inl ⟨rfl, shifted_eq_error h⟩⟩
      split at h
      · exact .inl (eq_of_moved_error h)
      · exact .inl (eq_of_moved_error h)
    | up =>
      simp only at h
      split at h
      · cases h
      next nodeIdx hpred =>
        split at h
        · cases h
        next node hnode =>
          split at h
          next hinto =>
            refine .inr ⟨idx, rfl, .inr ⟨rfl, ?_, shifted_eq_error h⟩⟩
            simp only [Move.addend, hidx, Option.bind_some, hpred, hnode, if_pos hinto]
          next => exact .inl (eq_of_moved_error h)

/-! ## Shifts -/

/-- A shift that does not go through stops at a node that would become too deep. -/
theorem shiftLevels_error_iff {first : ℕ} {nodes : List Node} :
    (∃ e, (shiftLevels (first + 1) first nodes).2 = .error e) ↔ ∃ node ∈ nodes, maxLevel ≤ node.level := by
  induction nodes with
  | nil => simp [shiftLevels]
  | cons node rest ih =>
    rw [shiftLevels]
    split
    next hbad => exact iff_of_true ⟨_, rfl⟩ ⟨node, List.mem_cons_self, by omega⟩
    next hgood =>
      rw [List.exists_mem_cons_iff, ← ih, or_iff_right (by omega)]

/-- Some node of a subtree is at the largest level. -/
theorem exists_maxLevel_iff (hwf : t.WellFormed) (hidx : idx < t.items.length) :
    (∃ k, idx ≤ k ∧ k < subtreeEnd t.items idx ∧ levelAt t.items k = maxLevel) ↔
      ∃ node ∈ slice t.items idx (subtreeEnd t.items idx), maxLevel ≤ node.level := by
  have hend : subtreeEnd t.items idx ≤ t.items.length := subtreeEnd_le_length hidx
  have hget : ∀ j, idx + j < subtreeEnd t.items idx →
      (slice t.items idx (subtreeEnd t.items idx))[j]? = t.items[idx + j]? := by
    intro j hj
    rw [slice, List.getElem?_drop, List.getElem?_take, if_pos hj]
  constructor
  · rintro ⟨k, hle, hk, hmax⟩
    obtain ⟨j, rfl⟩ := Nat.exists_eq_add_of_le hle
    have hk' : idx + j < t.items.length := by omega
    refine ⟨t.items[idx + j], List.mem_of_getElem? ((hget j hk).trans (List.getElem?_eq_getElem hk')), ?_⟩
    rw [levelAt_of_lt hk'] at hmax
    exact hmax.ge
  · rintro ⟨node, hnode, hmax⟩
    obtain ⟨j, hj⟩ := List.getElem?_of_mem hnode
    have hlt : idx + j < subtreeEnd t.items idx := by
      have := (List.getElem?_eq_some_iff.1 hj).1
      rw [slice, List.length_drop, List.length_take] at this
      omega
    rw [hget j hlt] at hj
    refine ⟨idx + j, Nat.le_add_right .., hlt, ?_⟩
    rw [levelAt, hj]
    exact Nat.le_antisymm (hwf.fits node (List.mem_of_getElem? hj)) hmax

/-- Indenting fails when some node is at the largest level. Then the nodes before it have been indented. -/
theorem shiftInPlace_error_iff (hwf : t.WellFormed) (hidx : idx < t.items.length)
    (hlevel : levelAt t.items idx < maxLevel) :
    (∃ e, (t.shiftInPlace idx (subtreeEnd t.items idx) (levelAt t.items idx + 1)).1 = .error e) ↔
      ∃ k, idx ≤ k ∧ k < subtreeEnd t.items idx ∧ levelAt t.items k = maxLevel := by
  rw [exists_maxLevel_iff hwf hidx]
  obtain ⟨pre, x, sub, rest, heq, -, rfl, -, hslice, -, -⟩ := exists_split hidx
  rw [shiftInPlace, hslice, levelAt_split heq]
  exact shiftLevels_error_iff

/-- Indenting changes the root of a subtree, whether it fails later or not. -/
theorem shiftInPlace_ne (hidx : idx < t.items.length) (hlevel : levelAt t.items idx < maxLevel) :
    (t.shiftInPlace idx (subtreeEnd t.items idx) (levelAt t.items idx + 1)).2 ≠ t := by
  obtain ⟨pre, x, sub, rest, heq, hget, rfl, htake, hslice, hrest, -⟩ := exists_split hidx
  rw [levelAt_split heq] at hlevel ⊢
  intro hsame
  have hroot := congrArg (fun t : DisplayedItemTree => t.items[pre.length]?) hsame
  have hshift : (shiftSubtreeToLevel (x :: sub) (x.level + 1)).1
      = { x with level := x.level + 1 + x.level - x.level } :: (shiftLevels (x.level + 1) x.level sub).1 := by
    rw [shiftSubtreeToLevel, shiftLevels, if_neg (by omega)]
  rw [shiftInPlace_snd, hslice, htake, hrest, hshift] at hroot
  simp only [hget, List.append_assoc, List.getElem?_append_right le_rfl, Nat.sub_self, List.cons_append,
    List.getElem?_cons_zero, Option.some.injEq] at hroot
  have := congrArg Node.level hroot
  simp only at this
  omega

/-- Shifting out goes through. -/
theorem shiftInPlace_outdent_ok (hwf : t.WellFormed) (hidx : idx < t.items.length) :
    (t.shiftInPlace idx (subtreeEnd t.items idx) (levelAt t.items idx - 1)).1 = .ok () := by
  obtain ⟨pre, x, sub, rest, heq, -, rfl, -, -, -, hbelow⟩ := exists_split hidx
  have hsub : ∀ node ∈ x :: sub, x.level - 1 + node.level - x.level ≤ maxLevel := by
    intro node hnode
    have := hwf.fits node (mem_items_of_mem_subtree heq hnode)
    omega
  rw [levelAt_split heq, shiftInPlace_split heq hbelow hsub]

/-! ## Which calls are atomic -/

/-- An indentation by the keyboard. -/
theorem moveItem_of_addend {l : ℕ} (hidx : t.toDisplayed vidx = some idx)
    (h : (Move.item vidx .up f).addend t = some l) : l = levelAt t.items idx ∧
      t.moveItem vidx .up f =
        .ok ((t.shiftInPlace idx (subtreeEnd t.items idx) (wrappingAdd (levelAt t.items idx) 1)).1.map fun _ => vidx,
          (t.shiftInPlace idx (subtreeEnd t.items idx) (wrappingAdd (levelAt t.items idx) 1)).2) := by
  simp only [Move.addend, hidx, Option.bind_some, Option.bind_eq_some_iff] at h
  obtain ⟨nodeIdx, hpred, node, hnode, hinto⟩ := h
  split at hinto
  next hcond =>
    refine ⟨(Option.some.inj hinto).symm, ?_⟩
    rw [moveItem, hidx]
    simp only [hpred, hnode, if_pos hcond]
  next => cases hinto

/-- A level that 1 is added to is a `u8`. -/
theorem addend_le (hwf : t.WellFormed) {move : Move} {l : ℕ} (h : move.addend t = some l) : l ≤ maxLevel := by
  cases move with
  | items indices target => cases h
  | item vidx direction f =>
    cases direction with
    | up =>
      have hsome := h
      simp only [Move.addend, Option.bind_eq_some_iff] at hsome
      obtain ⟨idx, hidx, -⟩ := hsome
      have hlt := lt_of_toDisplayed hidx
      rw [(moveItem_of_addend hidx h).1, levelAt_of_lt hlt]
      exact hwf.fits _ (List.getElem_mem hlt)
    | down =>
      simp only [Move.addend, Option.bind_eq_some_iff] at h
      obtain ⟨idx, -, node, hnode, hinto⟩ := h
      split_ifs at hinto
      obtain rfl := Option.some.inj hinto
      exact hwf.fits node (List.mem_of_getElem? hnode)

/-- A call overflows when it adds 1 to the largest level. -/
theorem overflows_iff (hwf : t.WellFormed) (move : Move) :
    move.Overflows t ↔ move.addend t = some maxLevel := by
  constructor
  · rintro ⟨l, hl, hlt⟩
    have hle := addend_le hwf hl
    rw [Option.mem_def.1 hl]
    exact congrArg some (by omega)
  · exact fun h => ⟨maxLevel, h, Nat.lt_succ_self _⟩

/-- Indenting a subtree that reaches the largest level overflows, or fails halfway. -/
theorem not_atomic_of_indentsLargest (hwf : t.WellFormed)
    (h : (Move.item vidx .up f).IndentsLargest t) : ¬ (Move.item vidx .up f).Atomic t := by
  obtain ⟨⟨l, hl⟩, idx, hidx, hmax⟩ := h
  have hlt := lt_of_toDisplayed hidx
  obtain ⟨rfl, hrun⟩ := moveItem_of_addend hidx hl
  rintro ⟨hover, hfails⟩
  rw [overflows_iff hwf, hl, Option.some.injEq] at hover
  have hless : levelAt t.items idx < maxLevel := lt_of_le_of_ne (addend_le hwf hl) hover
  rw [wrappingAdd_one hless] at hrun
  obtain ⟨e, he⟩ := (shiftInPlace_error_iff hwf hlt hless).2 hmax
  rw [he] at hrun
  refine shiftInPlace_ne hlt hless (hfails e _ ?_)
  rw [Move.run, hrun]
  rfl

/-- A call is atomic exactly when it does not indent a node of the largest level. -/
theorem Move.atomic_iff (hwf : t.WellFormed) (move : Move) : move.Atomic t ↔ ¬ move.IndentsLargest t := by
  cases move with
  | items indices target =>
    refine iff_of_true ⟨?_, fun e t' hrun => eq_of_moveItems_error hrun⟩ id
    rintro ⟨l, hl, -⟩
    cases hl
  | item vidx direction f =>
    have herror : ∀ {e t'}, (item vidx direction f).run t = .ok (.error e, t') →
        t.moveItem vidx direction f = .ok (.error e, t') := by
      intro e t' hrun
      rw [Move.run] at hrun
      rcases hmove : t.moveItem vidx direction f with p | ⟨e' | v, tree⟩ <;> rw [hmove] at hrun <;> cases hrun
      rfl
    cases direction with
    | down =>
      show _ ↔ ¬ (item vidx .down f).addend t = some maxLevel
      rw [← overflows_iff hwf]
      refine ⟨fun h => h.1, fun h => ⟨h, fun e t' hrun => ?_⟩⟩
      rcases moveItem_error_cases (herror hrun) with hsame | ⟨idx, hidx, ⟨-, hshift⟩ | ⟨hdir, -⟩⟩
      · exact hsame
      · have hok := shiftInPlace_outdent_ok hwf (lt_of_toDisplayed hidx)
        rw [hshift] at hok
        cases hok
      · cases hdir
    | up =>
      refine ⟨fun h hlargest => not_atomic_of_indentsLargest hwf hlargest h, fun h => ⟨fun hover => ?_, ?_⟩⟩
      · -- the root of the subtree would be at the largest level itself
        have hadd := (overflows_iff hwf _).1 hover
        have hsome := hadd
        simp only [addend, Option.bind_eq_some_iff] at hsome
        obtain ⟨idx, hidx, -⟩ := hsome
        have hlevel := (moveItem_of_addend hidx hadd).1
        exact h ⟨⟨_, hadd⟩, idx, hidx, idx, le_rfl, lt_subtreeEnd (lt_of_toDisplayed hidx), hlevel.symm⟩
      · intro e t' hrun
        rcases moveItem_error_cases (herror hrun) with hsame | ⟨idx, hidx, ⟨hdir, -⟩ | ⟨-, hadd, hshift⟩⟩
        · exact hsame
        · cases hdir
        · have hlt := lt_of_toDisplayed hidx
          refine absurd ⟨⟨_, hadd⟩, idx, hidx, ?_⟩ h
          rcases (addend_le hwf hadd).lt_or_eq with hless | hmax
          · rw [wrappingAdd_one hless] at hshift
            exact (shiftInPlace_error_iff hwf hlt hless).1 ⟨e, by rw [hshift]⟩
          · exact ⟨idx, le_rfl, lt_subtreeEnd hlt, hmax⟩

/-- An empty group, and a chain of groups that reaches the largest level. -/
def deepChain : DisplayedItemTree :=
  { items := ⟨0, 0, true, false⟩ :: (List.range (maxLevel + 1)).map fun l => ⟨l + 1, l, true, false⟩ }

/-- The chain cannot be moved into the group, but all of it is indented that can be. -/
theorem not_atomic_deepChain : deepChain.WellFormed ∧ ¬ (Move.item 1 .up fun _ => true).Atomic deepChain := by
  have hwf : deepChain.WellFormed := ⟨by decide +kernel, by decide +kernel⟩
  exact ⟨hwf, not_atomic_of_indentsLargest hwf ⟨⟨0, by decide +kernel⟩, 1, by decide +kernel,
    256, by decide, by decide +kernel, by decide⟩⟩

/-- Moving the group itself is atomic. -/
theorem Move.atomic_iff_twoGroups : twoGroups.WellFormed ∧ (item 2 .up fun _ => true).Atomic twoGroups := by
  have hwf : twoGroups.WellFormed := ⟨by decide, by decide⟩
  refine ⟨hwf, (Move.atomic_iff hwf _).2 ?_⟩
  rintro ⟨-, idx, hidx, k, -, -, hmax⟩
  have hsmall : ∀ k, levelAt twoGroups.items k ≤ 2 := by
    intro k
    rcases Nat.lt_or_ge k 5 with hk | hk
    · interval_cases k <;> decide
    · rw [levelAt, List.getElem?_eq_none (by exact hk)]
      exact Nat.zero_le _
  have := hsmall k
  rw [hmax] at this
  exact absurd this (by decide)

end ItemTree
