import Kahuna.View.Basic
import Mathlib.Tactic.Linarith
import Mathlib.Tactic.Ring

/-!
# Viewports of a reloaded file

When a file is reloaded its maximal time may change, and `Viewport::clip_to` moves the viewport so that it shows
what it did before. Here a viewport is to keep its width if the new file is long enough.

* `clipTo_of_wide`, `clipTo_of_narrow`: the branches;
* `keepsZoom_iff`: at which viewports the zoom level is kept.
-/

namespace View.Viewport

/-- A viewport at two edges, which does not move. -/
def standing (v : Viewport) (left right : Relative) : Viewport :=
  { v with
    currLeft := left
    currRight := right
    targetLeft := left
    targetRight := right
    moveStartLeft := left
    moveStartRight := right
    moveDuration := none }

/-- `Viewport::clip_to`. -/
def clipTo (v : Viewport) (oldMaxTimestamp newMaxTimestamp : ℤ) : Viewport :=
  let leftTimestamp := v.currLeft.absolute oldMaxTimestamp
  let rightTimestamp := v.currRight.absolute oldMaxTimestamp
  let absoluteWidth := rightTimestamp - leftTimestamp
  let newAbsoluteWidth : ℚ := newMaxTimestamp * (2 * v.edgeSpace)
  if newAbsoluteWidth < absoluteWidth.inner then
    -- is the new waveform so short that we can't keep the current zoom level?
    v.standing ⟨-v.edgeSpace⟩ ⟨1 + v.edgeSpace⟩
  else
    let unmovedLeft : Relative := ⟨leftTimestamp.inner / newMaxTimestamp⟩
    let unmovedRight : Relative := ⟨(leftTimestamp + absoluteWidth).inner / newMaxTimestamp⟩
    if unmovedRight.inner ≤ 1 + v.edgeSpace then v.standing unmovedLeft unmovedRight
    else
      let relativeWidth := absoluteWidth.inner / newMaxTimestamp
      v.standing ⟨1 + v.edgeSpace - relativeWidth⟩ ⟨1 + v.edgeSpace⟩

/-- The viewport lies within the file and its margins. -/
def Within (v : Viewport) : Prop := -v.edgeSpace ≤ v.currLeft.inner ∧ v.currRight.inner ≤ 1 + v.edgeSpace

/-- The width of a file of a length, with its margins. -/
def fullWidth (v : Viewport) (maxTimestamp : ℤ) : ℚ := (1 + 2 * v.edgeSpace) * maxTimestamp

/-- A reload keeps the zoom level where it can. -/
structure KeepsZoom (v : Viewport) (oldMax newMax : ℤ) : Prop where
  /-- The width is kept if it fits. -/
  width : (v.widthAbsolute oldMax).inner ≤ v.fullWidth newMax →
    ((v.clipTo oldMax newMax).widthAbsolute newMax).inner = (v.widthAbsolute oldMax).inner
  /-- So is the left edge, if the right edge stays within its margin. -/
  left : (v.widthAbsolute oldMax).inner ≤ v.fullWidth newMax →
    (v.currRight.absolute oldMax).inner ≤ (1 + v.edgeSpace) * newMax →
    (v.clipTo oldMax newMax).currLeft.absolute newMax = v.currLeft.absolute oldMax
  /-- A width that does not fit becomes that of the file. -/
  whole : v.fullWidth newMax < (v.widthAbsolute oldMax).inner →
    (v.clipTo oldMax newMax).currLeft = ⟨-v.edgeSpace⟩ ∧
      (v.clipTo oldMax newMax).currRight = ⟨1 + v.edgeSpace⟩
  within : v.Within → (v.clipTo oldMax newMax).Within

variable {v : Viewport} {oldMax newMax : ℤ}

/-- The left edge does not come to lie before the margin of the new file. -/
def LeftFits (v : Viewport) (oldMax newMax : ℤ) : Prop :=
  -v.edgeSpace * newMax ≤ (v.currLeft.absolute oldMax).inner

/-- The zoom level is kept by the code: the width does not fit, or it fits exactly and the left edge does too, or
it is at most that of the two margins, and no viewport within its margins leaves them on the left. -/
def ZoomKept (v : Viewport) (oldMax newMax : ℤ) : Prop :=
  v.fullWidth newMax < (v.widthAbsolute oldMax).inner ∨
    (v.widthAbsolute oldMax).inner = v.fullWidth newMax ∧ v.LeftFits oldMax newMax ∨
    (v.widthAbsolute oldMax).inner ≤ 2 * v.edgeSpace * newMax ∧
      (v.Within → (v.currRight.absolute oldMax).inner ≤ (1 + v.edgeSpace) * newMax → v.LeftFits oldMax newMax)

theorem inner_widthAbsolute (v : Viewport) (maxTimestamp : ℤ) :
    (v.widthAbsolute maxTimestamp).inner =
      (v.currRight.absolute maxTimestamp).inner - (v.currLeft.absolute maxTimestamp).inner := by
  simp only [widthAbsolute, Viewport.width, Relative.inner_absolute, Relative.inner_sub, sub_mul]

/-! ## The branches -/

/-- A viewport that is wider than both margins shows the whole file. -/
theorem clipTo_of_wide (h : 2 * v.edgeSpace * newMax < (v.widthAbsolute oldMax).inner) :
    v.clipTo oldMax newMax = v.standing ⟨-v.edgeSpace⟩ ⟨1 + v.edgeSpace⟩ := by
  rw [inner_widthAbsolute] at h
  have hcode : newMax * (2 * v.edgeSpace) <
      (v.currRight.absolute oldMax - v.currLeft.absolute oldMax).inner := by
    rw [Absolute.inner_sub]
    linarith
  rw [clipTo]
  exact if_pos hcode

/-- A viewport that is not keeps its width, and its edges as well if they stay within the right margin. -/
theorem clipTo_of_narrow (h : (v.widthAbsolute oldMax).inner ≤ 2 * v.edgeSpace * newMax) :
    v.clipTo oldMax newMax =
      if (v.currRight.absolute oldMax).inner / newMax ≤ 1 + v.edgeSpace then
        v.standing ⟨(v.currLeft.absolute oldMax).inner / newMax⟩
          ⟨(v.currRight.absolute oldMax).inner / newMax⟩
      else
        v.standing ⟨1 + v.edgeSpace - (v.widthAbsolute oldMax).inner / newMax⟩ ⟨1 + v.edgeSpace⟩ := by
  rw [inner_widthAbsolute] at h ⊢
  have hcode : ¬ newMax * (2 * v.edgeSpace) <
      (v.currRight.absolute oldMax - v.currLeft.absolute oldMax).inner := by
    rw [Absolute.inner_sub]
    linarith
  -- the code adds the width to the left edge, which gives the right one
  have hedge : (v.currLeft.absolute oldMax +
      (v.currRight.absolute oldMax - v.currLeft.absolute oldMax)).inner =
        (v.currRight.absolute oldMax).inner := by
    rw [Absolute.inner_add, Absolute.inner_sub]
    ring
  rw [clipTo, if_neg hcode, hedge, Absolute.inner_sub]

theorem absolute_div {x : ℚ} (hnew : 1 ≤ newMax) : (Relative.mk (x / newMax)).absolute newMax = ⟨x⟩ := by
  have hpos : (0 : ℚ) < newMax := by exact_mod_cast hnew
  rw [Absolute.ext_iff, Relative.inner_absolute, div_mul_cancel₀ _ hpos.ne']

/-! ## The zoom level -/

section

variable (left right : Relative)

@[simp]
theorem currLeft_standing : (v.standing left right).currLeft = left := rfl

@[simp]
theorem currRight_standing : (v.standing left right).currRight = right := rfl

@[simp]
theorem edgeSpace_standing : (v.standing left right).edgeSpace = v.edgeSpace := rfl

end

/-- A viewport that shows the whole file keeps the zoom level if that is what it showed before. -/
theorem keepsZoom_iff_of_wide (h : 2 * v.edgeSpace * newMax < (v.widthAbsolute oldMax).inner) :
    v.KeepsZoom oldMax newMax ↔
      v.fullWidth newMax < (v.widthAbsolute oldMax).inner ∨
        (v.widthAbsolute oldMax).inner = v.fullWidth newMax ∧ v.LeftFits oldMax newMax := by
  have hclip := clipTo_of_wide h
  have hwidth : ((v.clipTo oldMax newMax).widthAbsolute newMax).inner = v.fullWidth newMax := by
    rw [hclip, widthAbsolute, Viewport.width, fullWidth]
    simp only [Relative.inner_absolute, Relative.inner_sub, currLeft_standing, currRight_standing]
    ring
  have hleft : (v.clipTo oldMax newMax).currLeft.absolute newMax = v.currLeft.absolute oldMax ↔
      -v.edgeSpace * newMax = (v.currLeft.absolute oldMax).inner := by
    rw [hclip, currLeft_standing, Absolute.ext_iff]
    rfl
  have hedges := v.inner_widthAbsolute oldMax
  constructor
  · intro hkeeps
    rcases lt_or_ge (v.fullWidth newMax) (v.widthAbsolute oldMax).inner with hlt | hle
    · exact Or.inl hlt
    · -- the width that is shown is that of the file
      have hsame := hkeeps.width hle
      rw [hwidth] at hsame
      refine Or.inr ⟨hsame.symm, ?_⟩
      by_contra hlost
      rw [LeftFits, not_le] at hlost
      have hright : (v.currRight.absolute oldMax).inner ≤ (1 + v.edgeSpace) * newMax := by
        rw [← hsame, fullWidth] at hedges
        linarith
      exact hlost.ne' (hleft.1 (hkeeps.left hle hright))
  · intro hcases
    refine ⟨fun hle => ?_, fun hle hright => ?_, fun _ => ?_, fun _ => ?_⟩
    · rw [hwidth]
      rcases hcases with hlt | ⟨hsame, -⟩
      · exact absurd hle (not_le.2 hlt)
      · exact hsame.symm
    · rcases hcases with hlt | ⟨hsame, hfits⟩
      · exact absurd hle (not_le.2 hlt)
      · rw [hleft]
        refine le_antisymm hfits ?_
        rw [hsame, fullWidth] at hedges
        linarith
    · rw [hclip]
      exact ⟨rfl, rfl⟩
    · rw [hclip]
      exact ⟨le_rfl, le_rfl⟩

section

variable (hnarrow : (v.widthAbsolute oldMax).inner ≤ 2 * v.edgeSpace * newMax) (hnew : 1 ≤ newMax)

include hnarrow hnew

theorem lt_fullWidth : (v.widthAbsolute oldMax).inner < v.fullWidth newMax := by
  have hpos : (0 : ℚ) < newMax := by exact_mod_cast hnew
  rw [fullWidth]
  linarith

/-- A viewport that keeps both edges keeps the zoom level, but may leave its margins on the left. -/
theorem keepsZoom_iff_of_fits (hright : (v.currRight.absolute oldMax).inner ≤ (1 + v.edgeSpace) * newMax) :
    v.KeepsZoom oldMax newMax ↔ (v.Within → v.LeftFits oldMax newMax) := by
  have hpos : (0 : ℚ) < newMax := by exact_mod_cast hnew
  have hclip := clipTo_of_narrow hnarrow
  rw [if_pos ((div_le_iff₀ hpos).2 hright)] at hclip
  -- the right edge is inside its margin, so only the left one is left to look at
  have hwithin : (v.clipTo oldMax newMax).Within ↔ v.LeftFits oldMax newMax := by
    rw [hclip, Within, LeftFits, currLeft_standing, currRight_standing, edgeSpace_standing,
      le_div_iff₀ hpos, div_le_iff₀ hpos]
    exact and_iff_left hright
  constructor
  · exact fun hkeeps hv => hwithin.1 (hkeeps.within hv)
  · intro hleft
    refine ⟨fun _ => ?_, fun _ _ => ?_, fun hwide => ?_, fun hv => hwithin.2 (hleft hv)⟩
    · rw [hclip, inner_widthAbsolute, inner_widthAbsolute, currLeft_standing, currRight_standing,
        absolute_div hnew, absolute_div hnew]
    · rw [hclip, currLeft_standing, absolute_div hnew]
    · exact absurd (lt_fullWidth hnarrow hnew) (not_lt.2 hwide.le)

/-- A viewport that is moved to the left keeps the zoom level and stays within its margins. -/
theorem keepsZoom_of_overshoot
    (hright : (1 + v.edgeSpace) * newMax < (v.currRight.absolute oldMax).inner) :
    v.KeepsZoom oldMax newMax := by
  have hpos : (0 : ℚ) < newMax := by exact_mod_cast hnew
  have hclip := clipTo_of_narrow hnarrow
  rw [if_neg (not_le.2 ((lt_div_iff₀ hpos).2 hright))] at hclip
  have hfull := lt_fullWidth hnarrow hnew
  refine ⟨fun _ => ?_, fun _ hfits => ?_, fun hwide => ?_, fun _ => ⟨?_, ?_⟩⟩
  · rw [hclip, inner_widthAbsolute, currLeft_standing, currRight_standing, Relative.inner_absolute,
      Relative.inner_absolute, sub_mul, div_mul_cancel₀ _ hpos.ne']
    ring
  · exact absurd hfits (not_le.2 hright)
  · exact absurd hfull (not_lt.2 hwide.le)
  · -- the margins are as far apart as the file with them is wide
    have hwidth : (v.widthAbsolute oldMax).inner / newMax ≤ 1 + 2 * v.edgeSpace := by
      rw [div_le_iff₀ hpos]
      exact hfull.le
    rw [hclip, currLeft_standing, edgeSpace_standing]
    linarith
  · rw [hclip, currRight_standing, edgeSpace_standing]

end

/-- **The zoom level.** A reload keeps it exactly if the viewport does not fit into the new file at all, or fits
exactly without losing its left edge, or is at most as wide as the two margins together and does not leave them on
the left. -/
theorem keepsZoom_iff (v : Viewport) (oldMax : ℤ) {newMax : ℤ} (hnew : 1 ≤ newMax) :
    v.KeepsZoom oldMax newMax ↔ v.ZoomKept oldMax newMax := by
  rw [ZoomKept]
  rcases lt_or_ge (2 * v.edgeSpace * newMax) (v.widthAbsolute oldMax).inner with hwide | hnarrow
  · rw [keepsZoom_iff_of_wide hwide]
    simp only [not_le.2 hwide, false_and, or_false]
  · have hfull := lt_fullWidth hnarrow hnew
    have hnot : ¬ (v.widthAbsolute oldMax).inner = v.fullWidth newMax := hfull.ne
    simp only [not_lt.2 hfull.le, hnot, hnarrow, false_and, false_or, true_and]
    rcases le_or_gt (v.currRight.absolute oldMax).inner ((1 + v.edgeSpace) * newMax) with hfits | hover
    · rw [keepsZoom_iff_of_fits hnarrow hnew hfits]
      simp only [hfits, true_implies]
    · simp only [keepsZoom_of_overshoot hnarrow hnew hover, not_le.2 hover, false_implies, implies_true]

/-- A viewport on half of a file. -/
def firstHalf : Viewport := default.standing ⟨0⟩ ⟨1 / 2⟩

theorem keepsZoom_iff_firstHalf : firstHalf.KeepsZoom 100 1000 ↔ firstHalf.ZoomKept 100 1000 :=
  keepsZoom_iff firstHalf 100 (by decide)

/-- Half of a file, when the file comes to be longer by a hundredth. -/
theorem not_forall_keepsZoom :
    ¬ ∀ (v : Viewport) (oldMax newMax : ℤ), v.currLeft.inner < v.currRight.inner → 1 ≤ oldMax → 1 ≤ newMax →
      v.KeepsZoom oldMax newMax := by
  intro hall
  have hkeeps := hall firstHalf 100 101 (by decide +kernel) (by decide) (by decide)
  have hwidth := hkeeps.width (by decide +kernel)
  revert hwidth
  decide +kernel

end View.Viewport
