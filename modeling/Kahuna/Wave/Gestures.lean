import Kahuna.ItemTree.Selection
import Kahuna.Wave.Effects

/-!
# What messages do to the tree

The messages that fold, and those that move items by the keyboard or by a drag, change the tree as a user does
with one gesture or several ones. So what holds of gestures holds of them.

- `ByGestures`: the tree of the waveform data is changed by gestures;
- `byGestures_groupFold`, `byGestures_moveFocusedItem`, `byGestures_dragFinished`: one lemma for each message.
-/

namespace Wave

open ItemTree

namespace WaveData

variable {w w' : WaveData}

/-- The tree is changed by some gestures. -/
def ByGestures (w w' : WaveData) (gestures : List Gesture) : Prop :=
  Transition.run Gesture.apply w.itemsTree gestures = .ok w'.itemsTree

theorem byGestures_one {gesture : Gesture} (h : gesture.apply w.itemsTree = .ok w'.itemsTree) :
    w.ByGestures w' [gesture] := by
  simp only [ByGestures, Transition.run, h]

theorem byGestures_groupFold {itemRef : Option DisplayedItemRef} {unfold recursive : Bool}
    (h : w.groupFold itemRef unfold recursive = .ok w') : w.ByGestures w'
      ((w.indexForRefOrFocus itemRef).toList.map fun item =>
        if recursive then .xfoldRecursive item unfold else .xfold item unfold) := by
  rw [groupFold] at h
  split at h
  next hnone =>
    cases h
    rw [hnone]
    rfl
  next item hitem =>
    simp only [Except.bind_eq_ok] at h
    obtain ⟨focusedItem, -, tree, htree, h⟩ := h
    cases h
    rw [hitem]
    refine byGestures_one ?_
    cases recursive with
    | true => exact htree
    | false => exact htree

/-- The visible indices from which the keyboard moves an item step by step are those that the moves return. -/
theorem exists_byGestures_moveItemTimes {direction : MoveDir} {count vidx vidx' : ℕ}
    (h : moveItemTimes direction count vidx w = .ok (vidx', w')) : ∃ vidxs : List ℕ, vidxs.length = count ∧
      w.ByGestures w' (vidxs.map fun vidx => .moveItem vidx direction w.isGroup) := by
  induction count generalizing vidx w with
  | zero =>
    cases h
    exact ⟨[], rfl, rfl⟩
  | succ count ih =>
    simp only [moveItemTimes, Except.bind_eq_ok] at h
    obtain ⟨⟨result, tree⟩, hmove, h⟩ := h
    cases result with
    | error e => cases h
    | ok vidx₁ =>
      obtain ⟨vidxs, hlen, hrun⟩ := ih h
      refine ⟨vidx :: vidxs, by rw [List.length_cons, hlen], ?_⟩
      have hfirst : (Gesture.moveItem vidx direction w.isGroup).apply w.itemsTree = .ok tree := by
        rw [Gesture.apply, hmove]
        rfl
      rw [ByGestures, List.map_cons, Transition.run, hfirst]
      exact hrun

theorem byGestures_dragFinished {source : ℕ} {target : TargetPosition}
    (h : w.dragFinished source target = .ok w') :
    w.ByGestures w' [.drag w.focusedItem source target] := by
  simp only [dragFinished, Except.bind_eq_ok] at h
  obtain ⟨⟨result, tree⟩, hmove, h⟩ := h
  cases h
  refine byGestures_one ?_
  have hdragged : w.itemsTree.dragged w.focusedItem source = w.draggedItems source := rfl
  rw [Gesture.apply, hdragged, hmove]
  rfl

end WaveData

end Wave
