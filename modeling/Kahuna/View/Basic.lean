import Mathlib.Algebra.Order.Field.Basic
import Mathlib.Data.Rat.Cast.Order
import Mathlib.Tactic.FieldSimp

/-!
# Viewports

The model of the types of `viewport.rs` and of their maps between times and pixels. The positions are exact
rationals in place of floating-point numbers. A `Relative` position is a part of the maximal time of a file, and
an `Absolute` one is a time.
-/

namespace View

/-- `Relative`. -/
@[ext]
structure Relative where
  inner : ℚ
  deriving DecidableEq

/-- `Absolute`. -/
@[ext]
structure Absolute where
  inner : ℚ
  deriving DecidableEq

namespace Relative

instance : Sub Relative := ⟨fun a b => ⟨a.inner - b.inner⟩⟩

/-- `Relative::absolute`. -/
def absolute (r : Relative) (maxTimestamp : ℤ) : Absolute := ⟨r.inner * maxTimestamp⟩

@[simp]
theorem inner_sub (a b : Relative) : (a - b).inner = a.inner - b.inner := rfl

@[simp]
theorem inner_absolute (r : Relative) (maxTimestamp : ℤ) :
    (r.absolute maxTimestamp).inner = r.inner * maxTimestamp := rfl

end Relative

namespace Absolute

instance : Add Absolute := ⟨fun a b => ⟨a.inner + b.inner⟩⟩

instance : Sub Absolute := ⟨fun a b => ⟨a.inner - b.inner⟩⟩

@[simp]
theorem inner_add (a b : Absolute) : (a + b).inner = a.inner + b.inner := rfl

@[simp]
theorem inner_sub (a b : Absolute) : (a - b).inner = a.inner - b.inner := rfl

end Absolute

/-- `ViewportStrategy`. -/
inductive ViewportStrategy where
  | instant
  | easeInOut (duration : ℚ)
  deriving DecidableEq

/-- `Viewport`. -/
structure Viewport where
  currLeft : Relative
  currRight : Relative
  targetLeft : Relative
  targetRight : Relative
  moveStartLeft : Relative
  moveStartRight : Relative
  moveDuration : Option ℚ
  moveStrategy : ViewportStrategy
  edgeSpace : ℚ
  minWidth : Absolute
  deriving DecidableEq

namespace Viewport

/-- `Viewport::default`. -/
def default : Viewport where
  currLeft := ⟨0⟩
  currRight := ⟨1⟩
  targetLeft := ⟨0⟩
  targetRight := ⟨1⟩
  moveStartLeft := ⟨0⟩
  moveStartRight := ⟨1⟩
  moveDuration := none
  moveStrategy := .instant
  edgeSpace := 1 / 5
  minWidth := ⟨1 / 2⟩

/-- `Viewport::width`. -/
def width (v : Viewport) : Relative := v.currRight - v.currLeft

/-- `Viewport::width_absolute`. -/
def widthAbsolute (v : Viewport) (maxTimestamp : ℤ) : Absolute := v.width.absolute maxTimestamp

/-- `Viewport::as_absolute_time`. -/
def asAbsoluteTime (v : Viewport) (x viewWidth : ℚ) (maxTimestamp : ℤ) : Absolute :=
  let timeSpacing := (v.widthAbsolute maxTimestamp).inner / viewWidth
  v.currLeft.absolute maxTimestamp + ⟨timeSpacing * x⟩

/-- `Viewport::pixel_from_time`. -/
def pixelFromTime (v : Viewport) (time : ℤ) (viewWidth : ℚ) (maxTimestamp : ℤ) : ℚ :=
  let distanceFromLeft : Absolute := ⟨time⟩ - v.currLeft.absolute maxTimestamp
  distanceFromLeft.inner / (v.widthAbsolute maxTimestamp).inner * viewWidth

end Viewport

end View

/-!
## Times and pixels

In a viewport that has a width, on a canvas that has one, the maps between times and pixels are inverse to each other
and keep the order.

* `asAbsoluteTime_lt_iff`: later pixels have later times;
* `pixelFromTime_lt_iff`: a time is before that of a pixel when its own pixel is before it.
-/

namespace View.Viewport

/-- A viewport and a canvas that have a width, over a file that has a length. -/
structure Shows (v : Viewport) (viewWidth : ℚ) (maxTimestamp : ℤ) : Prop where
  left_lt_right : v.currLeft.inner < v.currRight.inner
  viewWidth_pos : 0 < viewWidth
  maxTimestamp_pos : 0 < maxTimestamp

variable {v : Viewport} {viewWidth : ℚ} {maxTimestamp : ℤ}

theorem Shows.widthAbsolute_pos (h : v.Shows viewWidth maxTimestamp) : 0 < (v.widthAbsolute maxTimestamp).inner := by
  rw [widthAbsolute, Relative.inner_absolute, width, Relative.inner_sub]
  exact mul_pos (sub_pos.2 h.left_lt_right) (Int.cast_pos.2 h.maxTimestamp_pos)

theorem inner_asAbsoluteTime (x : ℚ) : (v.asAbsoluteTime x viewWidth maxTimestamp).inner =
    v.currLeft.inner * maxTimestamp + (v.widthAbsolute maxTimestamp).inner / viewWidth * x := rfl

/-- The pixel of a time is one whose time it is. -/
theorem asAbsoluteTime_pixelFromTime (h : v.Shows viewWidth maxTimestamp) (time : ℤ) :
    (v.asAbsoluteTime (v.pixelFromTime time viewWidth maxTimestamp) viewWidth maxTimestamp).inner = time := by
  have hwidth := h.widthAbsolute_pos.ne'
  have hview := h.viewWidth_pos.ne'
  rw [inner_asAbsoluteTime, pixelFromTime, Absolute.inner_sub, Relative.inner_absolute]
  field_simp
  exact add_sub_cancel _ _

/-- Later pixels have later times. -/
theorem asAbsoluteTime_lt_iff (h : v.Shows viewWidth maxTimestamp) {x y : ℚ} :
    (v.asAbsoluteTime x viewWidth maxTimestamp).inner < (v.asAbsoluteTime y viewWidth maxTimestamp).inner ↔ x < y := by
  have hspacing : 0 < (v.widthAbsolute maxTimestamp).inner / viewWidth := div_pos h.widthAbsolute_pos h.viewWidth_pos
  rw [inner_asAbsoluteTime, inner_asAbsoluteTime, add_lt_add_iff_left, mul_lt_mul_iff_right₀ hspacing]

theorem pixelFromTime_lt_iff (h : v.Shows viewWidth maxTimestamp) {time : ℤ} {x : ℚ} :
    v.pixelFromTime time viewWidth maxTimestamp < x ↔ (time : ℚ) < (v.asAbsoluteTime x viewWidth maxTimestamp).inner := by
  rw [← asAbsoluteTime_lt_iff h, asAbsoluteTime_pixelFromTime h]

end View.Viewport
