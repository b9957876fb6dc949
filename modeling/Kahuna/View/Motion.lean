import Kahuna.Transition.Basic
import Kahuna.View.ClipTo

/-!
# Viewports that move

The model of the functions of `viewport.rs` that zoom, scroll and jump, and of the frames of their animation, over
exact rationals. Each of them sets two edges, and cuts them off at the margins of the file in different ways.

* `Shown`, `Action`, `Shown.next`: a viewport over a file, and the messages that reach it;
* `Fits`: edges that are wide enough and not too far away, an invariant that moving edges keep;
* `edges_of_run`: what holds of the edges in every run.
-/

namespace View

/-- `Absolute::relative`. -/
def Absolute.relative (a : Absolute) (maxTimestamp : ℤ) : Relative := ⟨a.inner / maxTimestamp⟩

@[simp]
theorem Absolute.inner_relative (a : Absolute) (maxTimestamp : ℤ) :
    (a.relative maxTimestamp).inner = a.inner / maxTimestamp := rfl

namespace Viewport

/-! ## Setting the edges -/

/-- `Viewport::set_target_left`. -/
def setTargetLeft (v : Viewport) (targetLeft : Relative) : Viewport :=
  match v.moveStrategy with
  | .instant => { v with currLeft := targetLeft }
  | .easeInOut _ => { v with targetLeft, moveStartLeft := v.currLeft, moveDuration := some 0 }

/-- `Viewport::set_target_right`. -/
def setTargetRight (v : Viewport) (targetRight : Relative) : Viewport :=
  match v.moveStrategy with
  | .instant => { v with currRight := targetRight }
  | .easeInOut _ => { v with targetRight, moveStartRight := v.currRight, moveDuration := some 0 }

/-- Both edges, the left one first. -/
def setTarget (v : Viewport) (left right : Relative) : Viewport := (v.setTargetLeft left).setTargetRight right

/-- `f64::EPSILON`. -/
def epsilon : ℚ := 1 / 2 ^ 52

/-- `Viewport::set_viewport_to_clipped_no_width_check`. -/
def setViewportToClippedNoWidthCheck (v : Viewport) (targetLeft targetRight : Relative) : Viewport :=
  let width := (targetRight - targetLeft).inner
  let absMin : ℚ := -v.edgeSpace
  let absMax := 1 + v.edgeSpace
  let maxRight := 1 + width * v.edgeSpace
  let minLeft := -width * v.edgeSpace
  if absMax - absMin < width then v.setTarget ⟨absMin⟩ ⟨absMax⟩
  else if targetLeft.inner < minLeft then v.setTarget ⟨minLeft⟩ ⟨minLeft + width⟩
  else if maxRight < targetRight.inner then v.setTarget ⟨maxRight - width⟩ ⟨maxRight⟩
  else v.setTarget targetLeft targetRight

/-- `Viewport::set_viewport_to_clipped`. -/
def setViewportToClipped (v : Viewport) (targetLeft targetRight : Relative) (maxTimestamp : ℤ) : Viewport :=
  let relMinWidth := (v.minWidth.relative maxTimestamp).inner
  if (targetRight - targetLeft).inner ≤ relMinWidth + epsilon then
    let center := (targetLeft.inner + targetRight.inner) * (1 / 2)
    v.setViewportToClippedNoWidthCheck ⟨center - relMinWidth⟩ ⟨center + relMinWidth⟩
  else v.setViewportToClippedNoWidthCheck targetLeft targetRight

/-- `Viewport::midpoint`. -/
def midpoint (v : Viewport) : Relative := ⟨(v.currRight.inner + v.currLeft.inner) * (1 / 2)⟩

/-- `Viewport::half_width`. -/
def halfWidth (v : Viewport) : Relative := ⟨v.width.inner * (1 / 2)⟩

/-- `Viewport::half_width_absolute`. -/
def halfWidthAbsolute (v : Viewport) (maxTimestamp : ℤ) : Absolute := v.halfWidth.absolute maxTimestamp

/-- The edges at a distance of a time. -/
def setAround (v : Viewport) (center halfWidth : ℚ) (maxTimestamp : ℤ) : Viewport :=
  v.setViewportToClipped (Absolute.relative ⟨center - halfWidth⟩ maxTimestamp)
    (Absolute.relative ⟨center + halfWidth⟩ maxTimestamp) maxTimestamp

/-- `Viewport::go_to_time`. -/
def goToTime (v : Viewport) (center maxTimestamp : ℤ) : Viewport :=
  v.setAround center (v.halfWidthAbsolute maxTimestamp).inner maxTimestamp

/-- `Viewport::zoom_to_fit`. -/
def zoomToFit (v : Viewport) : Viewport := v.setTarget ⟨0⟩ ⟨1⟩

/-- `Viewport::go_to_start`. -/
def goToStart (v : Viewport) : Viewport := v.setTarget ⟨0⟩ v.width

/-- `Viewport::go_to_end`. -/
def goToEnd (v : Viewport) : Viewport := v.setTarget (⟨1⟩ - v.width) ⟨1⟩

/-- `Viewport::handle_canvas_zoom`. -/
def handleCanvasZoom (v : Viewport) (mousePtrTimestamp : Option ℤ) (delta : ℚ) (maxTimestamp : ℤ) : Viewport :=
  match mousePtrTimestamp with
  | some time =>
    let mouseLocation := (Absolute.relative ⟨time⟩ maxTimestamp).inner
    v.setViewportToClipped ⟨(v.currLeft.inner - mouseLocation) / delta + mouseLocation⟩
      ⟨(v.currRight.inner - mouseLocation) / delta + mouseLocation⟩ maxTimestamp
  | none =>
    let offset := v.halfWidth.inner * delta
    v.setViewportToClipped ⟨v.midpoint.inner - offset⟩ ⟨v.midpoint.inner + offset⟩ maxTimestamp

/-- Half of the width that is shown, as `zoom_to_time` and `go_to_time_f64` compute it. -/
def halfSpan (v : Viewport) (delta : ℚ) (maxTimestamp : ℤ) : ℚ :=
  ((v.currRight.absolute maxTimestamp).inner - (v.currLeft.absolute maxTimestamp).inner) * delta * (1 / 2)

/-- `Viewport::zoom_to_time`. -/
def zoomToTime (v : Viewport) (center : ℤ) (delta : ℚ) (maxTimestamp : ℤ) : Viewport :=
  v.setAround center (v.halfSpan delta maxTimestamp) maxTimestamp

/-- `Viewport::handle_canvas_scroll`: a twentieth of the width for each event, which yields 50. -/
def handleCanvasScroll (v : Viewport) (deltay : ℚ) : Viewport :=
  let scrollStep := -v.width.inner / (50 * 20)
  let scaledDeltay := scrollStep * deltay
  v.setViewportToClippedNoWidthCheck ⟨v.currLeft.inner + scaledDeltay⟩ ⟨v.currRight.inner + scaledDeltay⟩

/-- `Viewport::zoom_to_range`. -/
def zoomToRange (v : Viewport) (left right maxTimestamp : ℤ) : Viewport :=
  v.setViewportToClipped (Absolute.relative ⟨left⟩ maxTimestamp) (Absolute.relative ⟨right⟩ maxTimestamp)
    maxTimestamp

/-- `Viewport::go_to_time_f64`. -/
def goToTimeF64 (v : Viewport) (center : ℚ) (maxTimestamp : ℤ) : Viewport :=
  v.setAround center (v.halfSpan 1 maxTimestamp) maxTimestamp

/-- `Viewport::go_to_cursor_if_not_in_view`. -/
def goToCursorIfNotInView (v : Viewport) (cursor maxTimestamp : ℤ) : Viewport × Bool :=
  if (cursor : ℚ) ≤ (v.currLeft.absolute maxTimestamp).inner ∨ (v.currRight.absolute maxTimestamp).inner ≤ cursor then
    (v.goToTimeF64 cursor maxTimestamp, true)
  else (v, false)

/-- `Viewport::is_moving`. -/
def isMoving (v : Viewport) : Bool := v.moveDuration.isSome

/-- `ease_in_out_size`, where `cosPi` is the cosine of a multiple of `PI`. -/
def easeInOutSize (cosPi : ℚ → ℚ) (start stop : Relative) (t : ℚ) : Relative :=
  ⟨start.inner + (stop.inner - start.inner) * -(cosPi t - 1) * (1 / 2)⟩

/-- `Viewport::move_viewport`. -/
def moveViewport (cosPi : ℚ → ℚ) (v : Viewport) (frameTime : ℚ) : Viewport :=
  match v.moveStrategy with
  | .instant => { v with currLeft := v.targetLeft, currRight := v.targetRight, moveDuration := none }
  | .easeInOut duration =>
    match v.moveDuration with
    | none => v
    | some moveDuration =>
      if duration ≤ moveDuration + frameTime then
        { v with moveDuration := none, currLeft := v.targetLeft, currRight := v.targetRight }
      else
        let part := (moveDuration + frameTime) / duration
        { v with
          moveDuration := some (moveDuration + frameTime)
          currLeft := easeInOutSize cosPi v.moveStartLeft v.targetLeft part
          currRight := easeInOutSize cosPi v.moveStartRight v.targetRight part }

end Viewport

/-- The messages that reach a viewport, the frames, and a reload of the file, with its new maximal time. -/
inductive Action where
  | canvasScroll (delta : ℚ)
  | canvasZoom (mousePtr : Option ℤ) (delta : ℚ)
  | zoomToCursor (cursor : ℤ) (delta : ℚ)
  | zoomToFit
  | goToStart
  | goToEnd
  | goToTime (time : ℤ)
  | zoomToRange (start stop : ℤ)
  | goToCursorIfNotInView (cursor : ℤ)
  | setViewportStrategy (strategy : ViewportStrategy)
  | frame (time : ℚ)
  | reload (maxTimestamp : ℤ)

/-- A viewport over a file. -/
structure Shown where
  viewport : Viewport
  maxTimestamp : ℤ

namespace Shown

/-- What a message does to the viewport. -/
def next (cosPi : ℚ → ℚ) (s : Shown) (action : Action) : Shown :=
  match action with
  | .canvasScroll delta => { s with viewport := s.viewport.handleCanvasScroll delta }
  | .canvasZoom mousePtr delta => { s with viewport := s.viewport.handleCanvasZoom mousePtr delta s.maxTimestamp }
  | .zoomToCursor cursor delta => { s with viewport := s.viewport.zoomToTime cursor delta s.maxTimestamp }
  | .zoomToFit => { s with viewport := s.viewport.zoomToFit }
  | .goToStart => { s with viewport := s.viewport.goToStart }
  | .goToEnd => { s with viewport := s.viewport.goToEnd }
  | .goToTime time => { s with viewport := s.viewport.goToTime time s.maxTimestamp }
  | .zoomToRange start stop => { s with viewport := s.viewport.zoomToRange start stop s.maxTimestamp }
  | .goToCursorIfNotInView cursor =>
    { s with viewport := (s.viewport.goToCursorIfNotInView cursor s.maxTimestamp).1 }
  | .setViewportStrategy strategy => { s with viewport := { s.viewport with moveStrategy := strategy } }
  -- only a viewport that moves is drawn again
  | .frame time => { s with viewport := if s.viewport.isMoving then s.viewport.moveViewport cosPi time else s.viewport }
  | .reload maxTimestamp =>
    { viewport :=
        if maxTimestamp = s.maxTimestamp then s.viewport else s.viewport.clipTo s.maxTimestamp maxTimestamp
      maxTimestamp }

end Shown

/-! ## Edges that fit -/

/-- A window on a file: at least half a time unit and at most the file with its margins wide, and neither edge is too
far away. A file that becomes longer takes its windows along, so that the left edge is measured by the width. -/
structure Fits (maxTimestamp : ℤ) (left right : Relative) : Prop where
  wide : 1 / 2 ≤ (right.inner - left.inner) * maxTimestamp
  width_le : right.inner - left.inner ≤ 7 / 5
  left_le : -(2 / 7) * (right.inner - left.inner) ≤ left.inner
  right_le : right.inner ≤ 7 / 5

section Fits

variable {maxTimestamp : ℤ} {left right left' right' : Relative}

/-- A part of the way between two windows. -/
theorem Fits.easeInOutSize (h : Fits maxTimestamp left right) (h' : Fits maxTimestamp left' right')
    {cosPi : ℚ → ℚ} (hcos : ∀ t, -1 ≤ cosPi t ∧ cosPi t ≤ 1) (t : ℚ) :
    Fits maxTimestamp (Viewport.easeInOutSize cosPi left left' t) (Viewport.easeInOutSize cosPi right right' t) := by
  obtain ⟨hle, hge⟩ := hcos t
  -- both edges go the same part of their ways, and each bound is linear in the edges
  have mix : ∀ {a b c : ℚ}, a ≤ c → b ≤ c → a + (b - a) * -(cosPi t - 1) * (1 / 2) ≤ c := by
    intro a b c ha hb
    nlinarith
  constructor <;> simp only [Viewport.easeInOutSize]
  · have := mix (neg_le_neg h.wide) (neg_le_neg h'.wide)
    linarith
  · have := mix h.width_le h'.width_le
    linarith
  · have := mix (sub_nonpos.2 h.left_le) (sub_nonpos.2 h'.left_le)
    linarith
  · exact mix h.right_le h'.right_le

theorem Fits.left_lt_right (h : Fits maxTimestamp left right) (hmax : 1 ≤ maxTimestamp) : left.inner < right.inner := by
  have hpos : (0 : ℚ) < maxTimestamp := by exact_mod_cast hmax
  have hwide : 0 < (right.inner - left.inner) * maxTimestamp := by linarith [h.wide]
  exact sub_pos.1 ((mul_pos_iff_of_pos_right hpos).1 hwide)

end Fits

namespace Viewport

variable {v : Viewport} {maxTimestamp : ℤ} {left right : Relative}

/-- A viewport with the margins of the program, whose edges fit, as do those that it moves from and to. -/
structure Ready (v : Viewport) (maxTimestamp : ℤ) : Prop where
  edgeSpace : v.edgeSpace = 1 / 5
  minWidth : v.minWidth = ⟨1 / 2⟩
  curr : Fits maxTimestamp v.currLeft v.currRight
  target : Fits maxTimestamp v.targetLeft v.targetRight
  moveStart : Fits maxTimestamp v.moveStartLeft v.moveStartRight
  moveDuration : ∀ passed, v.moveDuration = some passed → 0 ≤ passed

theorem ready_default (hmax : 1 ≤ maxTimestamp) : default.Ready maxTimestamp := by
  have hmax : (1 : ℚ) ≤ maxTimestamp := by exact_mod_cast hmax
  have hfits : Fits maxTimestamp ⟨0⟩ ⟨1⟩ := by
    constructor <;> norm_num
    linarith
  exact ⟨rfl, rfl, hfits, hfits, hfits, fun _ h => by cases h⟩

/-- New edges that fit. -/
theorem Ready.setTarget (h : v.Ready maxTimestamp) (hfits : Fits maxTimestamp left right) :
    (v.setTarget left right).Ready maxTimestamp := by
  unfold Viewport.setTarget setTargetLeft setTargetRight
  cases v.moveStrategy with
  | instant =>
    dsimp only
    exact ⟨h.edgeSpace, h.minWidth, hfits, h.target, h.moveStart, h.moveDuration⟩
  | easeInOut duration =>
    dsimp only
    refine ⟨h.edgeSpace, h.minWidth, h.curr, hfits, h.curr, fun passed hpassed => ?_⟩
    cases hpassed
    exact le_rfl

/-- Edges that are wide enough are cut off so that they fit. -/
theorem Ready.noWidthCheck (h : v.Ready maxTimestamp) (hmax : 1 ≤ maxTimestamp)
    (hwide : 1 / 2 ≤ (right.inner - left.inner) * maxTimestamp) :
    (v.setViewportToClippedNoWidthCheck left right).Ready maxTimestamp := by
  have hmax : (1 : ℚ) ≤ maxTimestamp := by exact_mod_cast hmax
  have hpos : 0 < right.inner - left.inner :=
    (mul_pos_iff_of_pos_right (by linarith)).1 (lt_of_lt_of_le (by norm_num) hwide)
  unfold setViewportToClippedNoWidthCheck
  simp only [h.edgeSpace, Relative.inner_sub]
  split
  · -- wider than the file with its margins, which is shown instead
    refine h.setTarget ⟨?_, ?_, ?_, ?_⟩ <;> norm_num
    linarith
  next hwidth =>
    have hwidth : right.inner - left.inner ≤ 7 / 5 := by linarith
    split
    · -- beyond the left margin: the window is moved, and keeps its width
      refine h.setTarget ⟨?_, ?_, ?_, ?_⟩ <;> simp only [add_sub_cancel_left] <;> linarith
    · split
      · refine h.setTarget ⟨?_, ?_, ?_, ?_⟩ <;> simp only [sub_sub_cancel] <;> linarith
      · exact h.setTarget ⟨hwide, hwidth, by linarith, by linarith⟩

/-- Edges that are too close to each other are moved apart. -/
theorem Ready.setViewportToClipped (h : v.Ready maxTimestamp) (hmax : 1 ≤ maxTimestamp) :
    (v.setViewportToClipped left right maxTimestamp).Ready maxTimestamp := by
  have hpos : (0 : ℚ) < maxTimestamp := by exact_mod_cast hmax
  unfold Viewport.setViewportToClipped
  simp only [h.minWidth, Absolute.inner_relative, Relative.inner_sub]
  have hmin : 1 / 2 / (maxTimestamp : ℚ) * maxTimestamp = 1 / 2 := div_mul_cancel₀ _ hpos.ne'
  split
  · -- the least width around the same middle
    refine h.noWidthCheck hmax ?_
    simp only [add_sub_sub_cancel]
    linarith
  next hwidth =>
    refine h.noWidthCheck hmax ?_
    have hlt : 1 / 2 / (maxTimestamp : ℚ) < right.inner - left.inner := by
      -- edges that are not moved apart are wider than the least width by more than the tolerance
      have : (0 : ℚ) < epsilon := by norm_num [epsilon]
      linarith
    rw [← hmin]
    exact mul_le_mul_of_nonneg_right hlt.le hpos.le

theorem Ready.moveViewport {cosPi : ℚ → ℚ} (h : v.Ready maxTimestamp)
    (hcos : ∀ t, -1 ≤ cosPi t ∧ cosPi t ≤ 1) {frameTime : ℚ} (hframe : 0 ≤ frameTime) :
    (v.moveViewport cosPi frameTime).Ready maxTimestamp := by
  unfold Viewport.moveViewport
  cases v.moveStrategy with
  | instant => exact ⟨h.edgeSpace, h.minWidth, h.target, h.target, h.moveStart, fun _ hpassed => by cases hpassed⟩
  | easeInOut duration =>
    cases hpassed : v.moveDuration with
    | none => exact h
    | some passed =>
      have hnonneg := h.moveDuration passed hpassed
      dsimp only
      split
      · -- the last frame, which ends at the target
        exact ⟨h.edgeSpace, h.minWidth, h.target, h.target, h.moveStart, fun _ hpassed => by cases hpassed⟩
      · refine ⟨h.edgeSpace, h.minWidth, h.moveStart.easeInOutSize h.target hcos _, h.target, h.moveStart, ?_⟩
        intro t ht
        cases ht
        exact add_nonneg hnonneg hframe

/-- A reload. The left edge keeps its time, unless the window is too wide for the new file or beyond its end. -/
theorem Ready.clipTo (h : v.Ready maxTimestamp) (hmax : 1 ≤ maxTimestamp) {newMax : ℤ} (hnew : 1 ≤ newMax) :
    (v.clipTo maxTimestamp newMax).Ready newMax := by
  have h0 : (0 : ℚ) ≤ maxTimestamp := by exact_mod_cast zero_le_one.trans hmax
  have hpos : (0 : ℚ) < newMax := by exact_mod_cast hnew
  have hmax : (1 : ℚ) ≤ newMax := by exact_mod_cast hnew
  have hstanding : ∀ {l r : Relative}, Fits newMax l r → (v.standing l r).Ready newMax := fun hfits =>
    ⟨h.edgeSpace, h.minWidth, hfits, hfits, hfits, fun _ hpassed => by cases hpassed⟩
  have hwidth := v.inner_widthAbsolute maxTimestamp
  simp only [Relative.inner_absolute] at hwidth
  have hwide := h.curr.wide
  rcases lt_or_ge (2 * v.edgeSpace * newMax) (v.widthAbsolute maxTimestamp).inner with hlt | hle
  · -- the window does not fit: the whole file with its margins
    rw [clipTo_of_wide hlt]
    refine hstanding ?_
    rw [h.edgeSpace]
    constructor <;> norm_num
    linarith
  · -- the window fits and keeps its time; only its right edge can come to lie beyond the file
    rw [clipTo_of_narrow hle]
    simp only [h.edgeSpace, Relative.inner_absolute] at hle ⊢
    set w := (v.widthAbsolute maxTimestamp).inner / newMax with hw
    have hwnew : w * newMax = (v.widthAbsolute maxTimestamp).inner := div_mul_cancel₀ _ hpos.ne'
    have hwle : w ≤ 2 / 5 := by
      rw [hw, div_le_iff₀ hpos]
      linarith
    have hedges : v.currRight.inner * maxTimestamp / newMax - v.currLeft.inner * maxTimestamp / newMax = w := by
      rw [hw, hwidth, sub_div]
    split
    next hright =>
      refine hstanding ⟨?_, ?_, ?_, ?_⟩ <;> simp only [hedges]
      · rw [hwnew, hwidth]
        linarith
      · linarith
      · -- both sides are what they were in the old file, but for a factor
        have hfactor : 0 ≤ (maxTimestamp : ℚ) / newMax := div_nonneg h0 hpos.le
        have := mul_le_mul_of_nonneg_right h.curr.left_le hfactor
        calc -(2 / 7) * w = -(2 / 7) * (v.currRight.inner - v.currLeft.inner) * (maxTimestamp / newMax) := by
              rw [hw, hwidth]
              ring
          _ ≤ v.currLeft.inner * (maxTimestamp / newMax) := this
          _ = v.currLeft.inner * maxTimestamp / newMax := by ring
      · linarith
    · refine hstanding ⟨?_, ?_, ?_, ?_⟩ <;> simp only [sub_sub_cancel]
      · rw [hwnew, hwidth]
        linarith
      · linarith
      · linarith
      · norm_num

end Viewport

/-! ## Runs -/

/-- The messages as the program sends them: a wheel that turns, a clock that does not run backwards, and a file that
has a length. -/
def Action.Sent (_ : Shown) : Action → Prop
  | .canvasZoom _ delta => delta ≠ 0
  | .frame time => 0 ≤ time
  | .reload maxTimestamp => 1 ≤ maxTimestamp
  | _ => True

/-- A viewport of which the edges fit, over a file that has a length. -/
structure Shown.Ready (s : Shown) : Prop where
  viewport : s.viewport.Ready s.maxTimestamp
  maxTimestamp : 1 ≤ s.maxTimestamp

open Viewport in
theorem Shown.Ready.next {cosPi : ℚ → ℚ} (hcos : ∀ t, -1 ≤ cosPi t ∧ cosPi t ≤ 1) {s : Shown} (h : s.Ready)
    {action : Action} (hsent : action.Sent s) : (s.next cosPi action).Ready := by
  have hmax := h.maxTimestamp
  have v := h.viewport
  -- the width of a viewport is not changed by a scroll, nor by a jump to an end of the file
  have hwidth := v.curr.wide
  have hle := v.curr.width_le
  have hpos := v.curr.left_lt_right hmax
  cases action with
  | canvasScroll delta =>
    refine ⟨v.noWidthCheck hmax ?_, hmax⟩
    rw [add_sub_add_right_eq_sub]
    exact hwidth
  | canvasZoom mousePtr delta =>
    cases mousePtr with
    | none => exact ⟨v.setViewportToClipped hmax, hmax⟩
    | some time => exact ⟨v.setViewportToClipped hmax, hmax⟩
  | zoomToCursor cursor delta => exact ⟨v.setViewportToClipped hmax, hmax⟩
  | zoomToFit => exact ⟨v.setTarget (ready_default hmax).curr, hmax⟩
  | goToStart =>
    refine ⟨v.setTarget ⟨?_, ?_, ?_, ?_⟩, hmax⟩ <;>
      simp only [Viewport.width, Relative.inner_sub, sub_zero] <;> linarith
  | goToEnd =>
    refine ⟨v.setTarget ⟨?_, ?_, ?_, ?_⟩, hmax⟩ <;>
      simp only [Viewport.width, Relative.inner_sub, sub_sub_cancel] <;> linarith
  | goToTime time => exact ⟨v.setViewportToClipped hmax, hmax⟩
  | zoomToRange start stop => exact ⟨v.setViewportToClipped hmax, hmax⟩
  | goToCursorIfNotInView cursor =>
    simp only [Shown.next, Viewport.goToCursorIfNotInView]
    split
    · exact ⟨v.setViewportToClipped hmax, hmax⟩
    · exact ⟨v, hmax⟩
  | setViewportStrategy strategy =>
    exact ⟨⟨v.edgeSpace, v.minWidth, v.curr, v.target, v.moveStart, v.moveDuration⟩, hmax⟩
  | frame time =>
    simp only [Shown.next]
    split
    · exact ⟨v.moveViewport hcos hsent, hmax⟩
    · exact ⟨v, hmax⟩
  | reload maxTimestamp =>
    simp only [Shown.next]
    split
    next hsame => exact ⟨by rw [hsame]; exact v, hsent⟩
    · exact ⟨v.clipTo hmax hsent, hsent⟩

/-- Every run keeps the edges fit. -/
theorem ready_of_run {cosPi : ℚ → ℚ} (hcos : ∀ t, -1 ≤ cosPi t ∧ cosPi t ≤ 1) {maxTimestamp : ℤ}
    (hmax : 1 ≤ maxTimestamp) {actions : List Action}
    (h : Transition.AllowedRun (Shown.next cosPi) Action.Sent ⟨.default, maxTimestamp⟩ actions) :
    (actions.foldl (Shown.next cosPi) ⟨.default, maxTimestamp⟩).Ready := by
  refine h.invariant ⟨Viewport.ready_default hmax, hmax⟩ ?_
  intro s action hs hsent
  exact hs.next hcos hsent

/-- The cosine at the thirds of `PI`. -/
def cosThirds (t : ℚ) : ℚ := if t = 0 then 1 else if t = 1 / 3 then 1 / 2 else if t = 2 / 3 then -(1 / 2) else -1

theorem cosThirds_bounds (t : ℚ) : -1 ≤ cosThirds t ∧ cosThirds t ≤ 1 := by
  unfold cosThirds
  split_ifs <;> norm_num

end View
