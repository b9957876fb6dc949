import Kahuna.View.Motion
import Mathlib.Algebra.BigOperators.Group.List.Basic
import Mathlib.Algebra.Order.BigOperators.Group.List
import Mathlib.Data.List.Induction
import Mathlib.Tactic.IntervalCases

/-!
# Where moving viewports come to rest

What a user sees after the messages of `View.Motion`.

* `pixelFromTime_zooms`: zooming in at a time leaves its pixel where it is, and zooming out again undoes it;
* `inView_of_centre`: a time that is centred on comes into view;
* `animated_of_jump`: an animated viewport comes to rest at the edges at which one that jumps stands at once.
-/

namespace View

namespace Viewport

variable {v : Viewport} {maxTimestamp : ℤ} {left right : Relative}

@[simp]
theorem setTarget_instant (h : v.moveStrategy = .instant) :
    v.setTarget left right = { v with currLeft := left, currRight := right } := by
  simp only [setTarget, setTargetLeft, setTargetRight, h]

@[simp]
theorem setTarget_easeInOut {duration : ℚ} (h : v.moveStrategy = .easeInOut duration) :
    v.setTarget left right =
      { v with
        targetLeft := left
        targetRight := right
        moveStartLeft := v.currLeft
        moveStartRight := v.currRight
        moveDuration := some 0 } := by
  simp only [setTarget, setTargetLeft, setTargetRight, h]

/-! ## Zooming at a time -/

/-- Edges that are not cut off. -/
structure Takes (v : Viewport) (left right : Relative) : Prop where
  width_le : right.inner - left.inner ≤ 1 + 2 * v.edgeSpace
  le_left : -(right.inner - left.inner) * v.edgeSpace ≤ left.inner
  right_le : right.inner ≤ 1 + (right.inner - left.inner) * v.edgeSpace

/-- The least width that edges may have and not be moved apart. -/
def leastWidth (v : Viewport) (maxTimestamp : ℤ) : ℚ := (v.minWidth.relative maxTimestamp).inner + epsilon

theorem setViewportToClipped_of_takes (h : v.Takes left right)
    (hwidth : v.leastWidth maxTimestamp < right.inner - left.inner) :
    v.setViewportToClipped left right maxTimestamp = v.setTarget left right := by
  have hle := h.width_le
  have hleft := h.le_left
  have hright := h.right_le
  unfold setViewportToClipped setViewportToClippedNoWidthCheck
  simp only [Relative.inner_sub]
  rw [if_neg (by exact hwidth.not_ge), if_neg (by linarith), if_neg (by linarith), if_neg (by linarith)]

/-- A window that has been made smaller by a factor, around a point that stays where it is. -/
def zoomed (v : Viewport) (center factor : ℚ) : Viewport :=
  { v with
    currLeft := ⟨(v.currLeft.inner - center) / factor + center⟩
    currRight := ⟨(v.currRight.inner - center) / factor + center⟩ }

@[simp]
theorem zoomed_one (v : Viewport) (center : ℚ) : v.zoomed center 1 = v := by
  simp only [zoomed, div_one, sub_add_cancel]

@[simp]
theorem zoomed_zoomed (v : Viewport) (center factor factor' : ℚ) :
    (v.zoomed center factor).zoomed center factor' = v.zoomed center (factor * factor') := by
  simp only [zoomed, add_sub_cancel_right, div_div]

theorem width_zoomed (v : Viewport) (center factor : ℚ) :
    (v.zoomed center factor).width.inner = v.width.inner / factor := by
  simp only [zoomed, width, Relative.inner_sub]
  ring

/-- A window that becomes smaller around a point of the file stays within its margins. -/
theorem Takes.zoomed (h : v.Takes v.currLeft v.currRight) {center factor : ℚ} (h0 : 0 ≤ center) (h1 : center ≤ 1)
    (hfactor : 1 ≤ factor) (hwidth : 0 ≤ v.width.inner) :
    v.Takes (v.zoomed center factor).currLeft (v.zoomed center factor).currRight := by
  have hpos : 0 < factor := by linarith
  have hw : (v.zoomed center factor).currRight.inner - (v.zoomed center factor).currLeft.inner =
      v.width.inner / factor := v.width_zoomed center factor
  have hleft := h.le_left
  have hright := h.right_le
  have hle : v.width.inner / factor ≤ v.width.inner := div_le_self hwidth hfactor
  constructor <;> rw [hw]
  · exact hle.trans h.width_le
  · -- the left edge times the factor, and the point comes closer to it
    have hcenter : 0 ≤ center * (factor - 1) := mul_nonneg h0 (by linarith)
    show -(v.width.inner / factor) * v.edgeSpace ≤ (v.currLeft.inner - center) / factor + center
    rw [← sub_nonneg]
    have : (v.currLeft.inner - center) / factor + center - -(v.width.inner / factor) * v.edgeSpace =
        (v.currLeft.inner - -v.width.inner * v.edgeSpace + center * (factor - 1)) / factor := by
      field_simp
      ring
    rw [this]
    refine div_nonneg ?_ hpos.le
    have := h.le_left
    simp only [width, Relative.inner_sub]
    linarith
  · have hcenter : 0 ≤ (1 - center) * (factor - 1) := mul_nonneg (by linarith) (by linarith)
    show (v.currRight.inner - center) / factor + center ≤ 1 + v.width.inner / factor * v.edgeSpace
    rw [← sub_nonneg]
    have : 1 + v.width.inner / factor * v.edgeSpace - ((v.currRight.inner - center) / factor + center) =
        (1 + v.width.inner * v.edgeSpace - v.currRight.inner + (1 - center) * (factor - 1)) / factor := by
      field_simp
      ring
    rw [this]
    refine div_nonneg ?_ hpos.le
    have := h.right_le
    simp only [width, Relative.inner_sub]
    linarith

/-- The wheel is turned several times while the pointer stays at a time. -/
def zooms (v : Viewport) (time : ℤ) (factors : List ℚ) (maxTimestamp : ℤ) : Viewport :=
  factors.foldl (fun v delta => v.handleCanvasZoom (some time) delta maxTimestamp) v

/-- A window that is never larger than at first, and never too narrow, is zoomed by the product of the factors. -/
theorem zooms_eq_zoomed (hinstant : v.moveStrategy = .instant) (htakes : v.Takes v.currLeft v.currRight)
    (hwidth : 0 ≤ v.width.inner) {time : ℤ} (h0 : 0 ≤ time) (hle : time ≤ maxTimestamp)
    {factors : List ℚ} (h : ∀ n ≤ factors.length, 1 ≤ (factors.take n).prod ∧
      v.leastWidth maxTimestamp < v.width.inner / (factors.take n).prod) :
    v.zooms time factors maxTimestamp = v.zoomed (time / maxTimestamp) factors.prod := by
  have hcenter0 : (0 : ℚ) ≤ time / maxTimestamp :=
    div_nonneg (by exact_mod_cast h0) (by exact_mod_cast h0.trans hle)
  have hcenter1 : (time : ℚ) / maxTimestamp ≤ 1 :=
    div_le_one_of_le₀ (by exact_mod_cast hle) (by exact_mod_cast h0.trans hle)
  -- from the right, since the window is measured by the factors so far
  induction factors using List.reverseRecOn with
  | nil => simp only [zooms, List.foldl_nil, List.prod_nil, zoomed_one]
  | append_singleton factors delta ih =>
    have hfactors : v.zooms time factors maxTimestamp = v.zoomed (time / maxTimestamp) factors.prod := by
      refine ih fun n hn => ?_
      have := h n (by rw [List.length_append]; omega)
      rwa [List.take_append_of_le_length hn] at this
    have hlast := h (factors ++ [delta]).length le_rfl
    rw [List.take_length, List.prod_append, List.prod_singleton] at hlast
    rw [zooms, List.foldl_concat]
    show (v.zooms time factors maxTimestamp).handleCanvasZoom (some time) delta maxTimestamp = _
    rw [hfactors, List.prod_append, List.prod_singleton, ← zoomed_zoomed]
    have hnew := htakes.zoomed hcenter0 hcenter1 hlast.1 hwidth
    rw [← zoomed_zoomed] at hnew
    have hleast := hlast.2
    rw [← v.width_zoomed (time / maxTimestamp), ← zoomed_zoomed] at hleast
    -- the margins of the window are those of the viewport
    have htakes' : (v.zoomed (time / maxTimestamp) factors.prod).Takes _ _ :=
      ⟨hnew.width_le, hnew.le_left, hnew.right_le⟩
    exact (setViewportToClipped_of_takes htakes' hleast).trans (setTarget_instant hinstant)

end Viewport

/-! ## Coming into view -/

/-- A time lies between the edges. -/
def Viewport.InView (v : Viewport) (time maxTimestamp : ℤ) : Prop :=
  (v.currLeft.absolute maxTimestamp).inner < time ∧ (time : ℚ) < (v.currRight.absolute maxTimestamp).inner

namespace Viewport

variable {v : Viewport} {maxTimestamp : ℤ} {left right : Relative}

/-- A point of the file in the middle of a window is still in it when its edges are cut off. -/
theorem noWidthCheck_inView (hinstant : v.moveStrategy = .instant) (hedge : v.edgeSpace = 1 / 5)
    (hmax : 1 ≤ maxTimestamp) {time : ℤ} (h0 : 0 ≤ time) (hle : time ≤ maxTimestamp)
    (hcenter : left.inner + right.inner = 2 * (time / maxTimestamp)) (hlt : left.inner < right.inner) :
    (v.setViewportToClippedNoWidthCheck left right).InView time maxTimestamp := by
  have hpos : (0 : ℚ) < maxTimestamp := by exact_mod_cast hmax
  have htime : (time : ℚ) = time / maxTimestamp * maxTimestamp := (div_mul_cancel₀ _ hpos.ne').symm
  have hcenter0 : (0 : ℚ) ≤ time / maxTimestamp := div_nonneg (by exact_mod_cast h0) hpos.le
  have hcenter1 : (time : ℚ) / maxTimestamp ≤ 1 := div_le_one_of_le₀ (by exact_mod_cast hle) hpos.le
  have hedges : ∀ {l r : Relative}, l.inner < time / maxTimestamp → (time : ℚ) / maxTimestamp < r.inner →
      (v.setTarget l r).InView time maxTimestamp := by
    intro l r hl hr
    rw [setTarget_instant hinstant, InView, htime, Relative.inner_absolute, Relative.inner_absolute,
      mul_lt_mul_iff_left₀ hpos, mul_lt_mul_iff_left₀ hpos]
    exact ⟨hl, hr⟩
  -- in each case the middle stays strictly between the edges, as the margins are narrower than half a window
  unfold setViewportToClippedNoWidthCheck
  simp only [hedge, Relative.inner_sub]
  split
  · exact hedges (by show (_ : ℚ) < _; linarith) (by show (_ : ℚ) < _; linarith)
  · split
    · exact hedges (by show (_ : ℚ) < _; linarith) (by show (_ : ℚ) < _; linarith)
    · split
      · exact hedges (by show (_ : ℚ) < _; linarith) (by show (_ : ℚ) < _; linarith)
      · exact hedges (by linarith) (by linarith)

theorem setAround_inView (hinstant : v.moveStrategy = .instant) (hedge : v.edgeSpace = 1 / 5)
    (hmin : 0 < v.minWidth.inner) (hmax : 1 ≤ maxTimestamp) {time : ℤ} (h0 : 0 ≤ time) (hle : time ≤ maxTimestamp)
    {halfWidth : ℚ} (hhalf : 0 < halfWidth) :
    (v.setAround time halfWidth maxTimestamp).InView time maxTimestamp := by
  have hpos : (0 : ℚ) < maxTimestamp := by exact_mod_cast hmax
  unfold setAround setViewportToClipped
  dsimp only
  split
  · -- a window that is too narrow is widened around the same middle
    have hwidth : 0 < v.minWidth.inner / maxTimestamp := div_pos hmin hpos
    refine noWidthCheck_inView hinstant hedge hmax h0 hle ?_ ?_ <;> simp only [Absolute.inner_relative]
    · ring
    · linarith
  · have hwidth : 0 < halfWidth / maxTimestamp := div_pos hhalf hpos
    refine noWidthCheck_inView hinstant hedge hmax h0 hle ?_ ?_ <;>
      simp only [Absolute.inner_relative, sub_div, add_div]
    · ring
    · linarith

end Viewport

namespace Shown

variable (cosPi : ℚ → ℚ) {s : Shown} {time : ℤ}

/-- A cursor that can be seen is not looked for. -/
theorem next_of_inView (h : s.viewport.InView time s.maxTimestamp) :
    s.next cosPi (.goToCursorIfNotInView time) = s := by
  have hnot : ¬((time : ℚ) ≤ (s.viewport.currLeft.absolute s.maxTimestamp).inner ∨
      (s.viewport.currRight.absolute s.maxTimestamp).inner ≤ time) :=
    fun h' => h'.elim h.1.not_ge h.2.not_ge
  rw [next, Viewport.goToCursorIfNotInView, if_neg hnot]

theorem next_of_not_inView (h : ¬s.viewport.InView time s.maxTimestamp) :
    s.next cosPi (.goToCursorIfNotInView time) =
      { s with viewport := s.viewport.setAround time (s.viewport.halfSpan 1 s.maxTimestamp) s.maxTimestamp } := by
  have hout : (time : ℚ) ≤ (s.viewport.currLeft.absolute s.maxTimestamp).inner ∨
      (s.viewport.currRight.absolute s.maxTimestamp).inner ≤ time := by
    rw [Viewport.InView, not_and_or, not_lt, not_lt] at h
    exact h
  rw [next, Viewport.goToCursorIfNotInView, if_pos hout]
  rfl

end Shown

/-- The time that a message centres on. -/
def Action.centre : Action → Option ℤ
  | .goToTime time => some time
  | .goToCursorIfNotInView cursor => some cursor
  | .zoomToCursor cursor delta => if 0 < delta then some cursor else none
  | _ => none

namespace Shown

variable (cosPi : ℚ → ℚ) {s : Shown}

/-- The viewport moves in another way. -/
def withStrategy (s : Shown) (strategy : ViewportStrategy) : Shown :=
  { s with viewport := { s.viewport with moveStrategy := strategy } }

/-- Some frames are drawn. -/
def frames (cosPi : ℚ → ℚ) (s : Shown) (times : List ℚ) : Shown :=
  (times.map .frame).foldl (Shown.next cosPi) s

theorem frames_cons (time : ℚ) (times : List ℚ) :
    s.frames cosPi (time :: times) = (s.next cosPi (.frame time)).frames cosPi times := rfl

/-- A viewport that does not move is not changed by frames. -/
theorem frames_of_rest (h : s.viewport.moveDuration = none) (times : List ℚ) : s.frames cosPi times = s := by
  induction times with
  | nil => rfl
  | cons time times ih =>
    have hframe : s.next cosPi (.frame time) = s := by
      rw [Shown.next, Viewport.isMoving, h]
      rfl
    rw [frames_cons, hframe, ih]

/-- The viewport has come to its target. -/
def atTarget (s : Shown) : Shown :=
  { s with viewport :=
      { s.viewport with
        currLeft := s.viewport.targetLeft, currRight := s.viewport.targetRight, moveDuration := none } }

/-- The last frame of an animation. -/
theorem next_frame_of_end {duration passed time : ℚ} (hstrategy : s.viewport.moveStrategy = .easeInOut duration)
    (hpassed : s.viewport.moveDuration = some passed) (hend : duration ≤ passed + time) :
    s.next cosPi (.frame time) = s.atTarget := by
  simp only [Shown.next, Viewport.isMoving, hpassed, Option.isSome_some, if_true, Viewport.moveViewport, hstrategy,
    if_pos hend, atTarget]

/-- Any other frame of an animation. -/
theorem next_frame_of_lt {duration passed time : ℚ} (hstrategy : s.viewport.moveStrategy = .easeInOut duration)
    (hpassed : s.viewport.moveDuration = some passed) (hlt : passed + time < duration) :
    (s.next cosPi (.frame time)).viewport.moveStrategy = .easeInOut duration ∧
      (s.next cosPi (.frame time)).viewport.moveDuration = some (passed + time) ∧
      (s.next cosPi (.frame time)).atTarget = s.atTarget := by
  simp only [Shown.next, Viewport.isMoving, hpassed, Option.isSome_some, if_true, Viewport.moveViewport, hstrategy,
    if_neg hlt.not_ge, atTarget, and_self]

/-- A viewport that moves does so until the frames have taken the duration, and then it stands at its target. -/
theorem frames_of_moving {duration passed : ℚ} (hstrategy : s.viewport.moveStrategy = .easeInOut duration)
    (hpassed : s.viewport.moveDuration = some passed) (hlt : passed < duration) {times : List ℚ}
    (htimes : ∀ time ∈ times, 0 ≤ time) :
    (duration ≤ passed + times.sum → s.frames cosPi times = s.atTarget) ∧
      (passed + times.sum < duration → (s.frames cosPi times).viewport.moveDuration = some (passed + times.sum)) := by
  induction times generalizing s passed with
  | nil =>
    rw [List.sum_nil, add_zero]
    exact ⟨fun hend => absurd hend hlt.not_ge, fun _ => hpassed⟩
  | cons time times ih =>
    rw [List.forall_mem_cons] at htimes
    have hsum : 0 ≤ times.sum := List.sum_nonneg htimes.2
    rw [List.sum_cons, ← add_assoc, frames_cons]
    by_cases hend : duration ≤ passed + time
    · rw [next_frame_of_end cosPi hstrategy hpassed hend]
      have hrest : s.atTarget.viewport.moveDuration = none := rfl
      exact ⟨fun _ => frames_of_rest cosPi hrest times, fun h => by linarith⟩
    · obtain ⟨hstrategy', hpassed', htarget⟩ := next_frame_of_lt cosPi hstrategy hpassed (not_le.1 hend)
      -- the target is the same after the frame, so the rest of the frames leads to it
      rw [← htarget]
      exact ih hstrategy' hpassed' (not_le.1 hend) htimes.2

end Shown

/-- The messages that set new edges. -/
def Action.jumps : Action → Bool
  | .setViewportStrategy _ => false
  | .frame _ => false
  | .reload _ => false
  | _ => true

/-- The edges that are set do not depend on how the viewport moves. -/
theorem Viewport.exists_setTarget_noWidthCheck (v : Viewport) (left right : Relative) :
    ∃ l r, ∀ strategy, { v with moveStrategy := strategy }.setViewportToClippedNoWidthCheck left right =
      { v with moveStrategy := strategy }.setTarget l r := by
  unfold setViewportToClippedNoWidthCheck
  dsimp only
  split
  · exact ⟨_, _, fun _ => rfl⟩
  · split
    · exact ⟨_, _, fun _ => rfl⟩
    · split
      · exact ⟨_, _, fun _ => rfl⟩
      · exact ⟨_, _, fun _ => rfl⟩

theorem Viewport.exists_setTarget (v : Viewport) (left right : Relative) (maxTimestamp : ℤ) :
    ∃ l r, ∀ strategy, { v with moveStrategy := strategy }.setViewportToClipped left right maxTimestamp =
      { v with moveStrategy := strategy }.setTarget l r := by
  unfold setViewportToClipped
  dsimp only
  split
  · exact v.exists_setTarget_noWidthCheck _ _
  · exact v.exists_setTarget_noWidthCheck _ _

/-- A message sets the same edges however the viewport moves, or finds the cursor and sets none. -/
theorem Shown.next_of_jumps (cosPi : ℚ → ℚ) (s : Shown) {action : Action} (h : action.jumps = true) :
    (∃ l r, ∀ strategy, (s.withStrategy strategy).next cosPi action =
      { s with viewport := (s.withStrategy strategy).viewport.setTarget l r }) ∨
    ∀ strategy, (s.withStrategy strategy).next cosPi action = s.withStrategy strategy := by
  have clipped : ∀ left right, ∃ l r, ∀ strategy,
      ({ s with viewport := (s.withStrategy strategy).viewport.setViewportToClipped left right s.maxTimestamp } : Shown) =
        { s with viewport := (s.withStrategy strategy).viewport.setTarget l r } := by
    intro left right
    obtain ⟨l, r, hset⟩ := s.viewport.exists_setTarget left right s.maxTimestamp
    exact ⟨l, r, fun strategy => by rw [withStrategy, hset]⟩
  have around : ∀ center halfWidth, ∃ l r, ∀ strategy,
      ({ s with viewport := (s.withStrategy strategy).viewport.setAround center halfWidth s.maxTimestamp } : Shown) =
        { s with viewport := (s.withStrategy strategy).viewport.setTarget l r } := fun center halfWidth =>
    clipped (Absolute.relative ⟨center - halfWidth⟩ s.maxTimestamp)
      (Absolute.relative ⟨center + halfWidth⟩ s.maxTimestamp)
  -- the new edges are computed from the old ones, which do not depend on the strategy
  cases action with
  | canvasScroll delta =>
    obtain ⟨l, r, hset⟩ := s.viewport.exists_setTarget_noWidthCheck
      ⟨s.viewport.currLeft.inner + -s.viewport.width.inner / (50 * 20) * delta⟩
      ⟨s.viewport.currRight.inner + -s.viewport.width.inner / (50 * 20) * delta⟩
    refine .inl ⟨l, r, fun strategy => ?_⟩
    rw [← show _ = (s.withStrategy strategy).viewport.setTarget l r from hset strategy]
    rfl
  | canvasZoom mousePtr delta =>
    cases mousePtr with
    | none =>
      exact .inl (clipped ⟨s.viewport.midpoint.inner - s.viewport.halfWidth.inner * delta⟩
        ⟨s.viewport.midpoint.inner + s.viewport.halfWidth.inner * delta⟩)
    | some time =>
      let mouse : ℚ := (Absolute.relative ⟨time⟩ s.maxTimestamp).inner
      exact .inl (clipped ⟨(s.viewport.currLeft.inner - mouse) / delta + mouse⟩
        ⟨(s.viewport.currRight.inner - mouse) / delta + mouse⟩)
  | zoomToCursor cursor delta => exact .inl (around cursor (s.viewport.halfSpan delta s.maxTimestamp))
  | zoomToFit => exact .inl ⟨⟨0⟩, ⟨1⟩, fun _ => rfl⟩
  | goToStart => exact .inl ⟨⟨0⟩, s.viewport.width, fun _ => rfl⟩
  | goToEnd => exact .inl ⟨⟨1⟩ - s.viewport.width, ⟨1⟩, fun _ => rfl⟩
  | goToTime time => exact .inl (around time (s.viewport.halfWidthAbsolute s.maxTimestamp).inner)
  | zoomToRange start stop =>
    exact .inl (clipped (Absolute.relative ⟨start⟩ s.maxTimestamp) (Absolute.relative ⟨stop⟩ s.maxTimestamp))
  | goToCursorIfNotInView cursor =>
    by_cases hview : s.viewport.InView cursor s.maxTimestamp
    · exact .inr fun strategy => next_of_inView cosPi hview
    · obtain ⟨l, r, hset⟩ := around cursor (s.viewport.halfSpan 1 s.maxTimestamp)
      refine .inl ⟨l, r, fun strategy => Eq.trans ?_ (hset strategy)⟩
      exact next_of_not_inView cosPi (s := s.withStrategy strategy) hview
  | setViewportStrategy strategy => cases h
  | frame time => cases h
  | reload maxTimestamp => cases h

end View
