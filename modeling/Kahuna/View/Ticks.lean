import Kahuna.Sorting.Basic
import Kahuna.View.Motion
import Mathlib.Data.Int.Log
import Mathlib.Data.List.Chain
import Mathlib.Data.Rat.Floor

/-!
# The ticks of the time line

The model of `get_ticks_internal` in `time.rs`, which chooses the times that have a tick in a view, and of
`draw_divider_text`, which writes the text of a divider at some of the ticks. Floating-point numbers are exact
rationals, and a conversion to a whole number stops at the ends of its type. How a time is written is a parameter.

* `TickTimes`: the times of the ticks increase from one edge of the view to the other, in even steps;
* `ticks_of_run`: so they do in every run, as soon as there is room for a label;
* `TextPlaces`: the texts of a divider do not overlap, and none is missing;
* `dividers_of_run`: so they are in every run, as long as the view has two ticks.
-/

namespace View

/-! ## Whole numbers -/

/-- A floating-point number without its fraction. -/
def truncate (x : ℚ) : ℤ := if 0 ≤ x then ⌊x⌋ else ⌈x⌉

/-- `as i128`. -/
def asI128 (x : ℚ) : ℤ := max (-2 ^ 127) (min (truncate x) (2 ^ 127 - 1))

/-- `as i16`, of a whole number. -/
def asI16 (x : ℤ) : ℤ := max (-2 ^ 15) (min x (2 ^ 15 - 1))

/-- `to_i64().unwrap_or_default()`. -/
def toI64 (x : ℤ) : ℤ := if -2 ^ 63 ≤ x ∧ x < 2 ^ 63 then x else 0

theorem truncate_mono {x y : ℚ} (h : x ≤ y) : truncate x ≤ truncate y := by
  unfold truncate
  split
  next hx =>
    rw [if_pos (hx.trans h)]
    exact Int.floor_le_floor h
  next hx =>
    split
    next hy =>
      -- from below 0 to above it
      have hx : ⌈x⌉ ≤ 0 := Int.ceil_le.2 (by exact_mod_cast (not_le.1 hx).le)
      exact hx.trans (Int.floor_nonneg.2 hy)
    next => exact Int.ceil_le_ceil h

theorem truncate_lt (x : ℚ) : (truncate x : ℚ) < x + 1 := by
  unfold truncate
  split
  · exact (Int.floor_le x).trans_lt (lt_add_one x)
  · exact Int.ceil_lt_add_one x

theorem lt_truncate (x : ℚ) : x - 1 < truncate x := by
  unfold truncate
  split
  · exact Int.sub_one_lt_floor x
  · exact (sub_one_lt x).trans_le (Int.le_ceil x)

/-- Cutting off takes numbers apart by less than one. -/
theorem truncate_sub_lt {x y : ℚ} (h : x ≤ y) : (truncate y - truncate x : ℚ) < y - x + 1 := by
  unfold truncate
  by_cases hx : 0 ≤ x
  · rw [if_pos hx, if_pos (hx.trans h)]
    linarith [Int.floor_le y, Int.sub_one_lt_floor x]
  · rw [if_neg hx]
    have hceil := Int.le_ceil x
    split
    · linarith [Int.floor_le y]
    · linarith [Int.ceil_lt_add_one y]

theorem asI128_mono {x y : ℚ} (h : x ≤ y) : asI128 x ≤ asI128 y :=
  max_le_max le_rfl (min_le_min (truncate_mono h) le_rfl)

theorem asI128_lt {x : ℚ} (h : -2 ^ 127 ≤ x) : (asI128 x : ℚ) < x + 1 := by
  have hle : asI128 x ≤ max (-2 ^ 127) (truncate x) := max_le_max le_rfl (min_le_left _ _)
  rcases le_max_iff.1 hle with hle | hle
  · have hle : (asI128 x : ℚ) ≤ -2 ^ 127 := by exact_mod_cast hle
    linarith
  · have hle : (asI128 x : ℚ) ≤ truncate x := by exact_mod_cast hle
    exact hle.trans_lt (truncate_lt x)

theorem lt_asI128 {x : ℚ} (h : x < 2 ^ 127) : x - 1 < asI128 x := by
  have hle : min (truncate x) (2 ^ 127 - 1) ≤ asI128 x := le_max_right _ _
  rcases min_le_iff.1 hle with hle | hle
  · have hle : (truncate x : ℚ) ≤ asI128 x := by exact_mod_cast hle
    exact (lt_truncate x).trans_le hle
  · have hle : (2 ^ 127 - 1 : ℚ) ≤ asI128 x := by exact_mod_cast hle
    linarith

theorem asI128_sub_lt {x y : ℚ} (h : x ≤ y) : (asI128 y - asI128 x : ℚ) < y - x + 1 := by
  -- the ends of the range bring numbers closer to each other
  have hle : asI128 y - asI128 x ≤ truncate y - truncate x := by
    have := truncate_mono h
    unfold asI128
    omega
  have hle : (asI128 y - asI128 x : ℚ) ≤ truncate y - truncate x := by exact_mod_cast hle
  exact hle.trans_lt (truncate_sub_lt h)

/-! ## Choosing the ticks -/

/-- `TICK_STEPS`: candidate multipliers used to choose tick spacing. -/
def TICK_STEPS : List ℚ := [1, 2, 5 / 2, 5, 10, 20, 25, 50]

/-- The power of ten that is next to a time, `log10().round() as i16`. The logarithm of 0 is infinite, and that of no
other rational is in the middle between two whole numbers. -/
def roundLog10 (x : ℚ) : ℤ := if x = 0 then -2 ^ 15 else asI16 (Int.log 10 (10 * |x| ^ 2) / 2)

namespace Viewport

variable (v : Viewport) (textSize : ℚ) (maxTimestamp : ℤ)

/-- `max_labelwidth`: the width of a text with the digits of an edge and three more. -/
def maxLabelwidth : ℚ :=
  let charWidth := textSize * (20 / 31)
  let rightexp := roundLog10 (v.currRight.absolute maxTimestamp).inner
  let leftexp := roundLog10 (v.currLeft.absolute maxTimestamp).inner
  (max rightexp leftexp + 3 : ℤ) * charWidth

/-- `max_labels`, where there is a width of a label. -/
def maxLabels (frameWidth density : ℚ) : ℤ := ⌊frameWidth * density / v.maxLabelwidth textSize maxTimestamp⌋ + 2

/-- `scale`: the power of ten below the time that a label may take. -/
def scale (maxLabels : ℤ) : ℚ :=
  10 ^ Int.log 10 (((v.currRight - v.currLeft).absolute maxTimestamp).inner / maxLabels)

end Viewport

/-- `rounded_min_label_time`: the last multiple of the step up to the left edge. -/
def roundedMinLabelTime (left scaledStep : ℚ) : ℚ := ⌊left / scaledStep⌋ * scaledStep

/-- `high`: how many multiples of the step there are from the left edge to the right one, with those around them. -/
def high (left right scaledStep : ℚ) : ℤ := ⌈(right - roundedMinLabelTime left scaledStep) / scaledStep⌉ + 1

/-- The times of the ticks for a step. -/
def tickTimes (left right scaledStep : ℚ) : List ℤ :=
  ((List.range (asI16 (high left right scaledStep)).toNat).map fun v : ℕ =>
    asI128 (v * scaledStep + roundedMinLabelTime left scaledStep)).eraseDups

/-- `get_ticks_internal`: the text, the pixel and the time of each tick. -/
def getTicksInternal (v : Viewport) (timeFormatter : ℤ → List Char) (frameWidth textSize density : ℚ)
    (maxTimestamp : ℤ) : List (List Char × ℚ × ℤ) :=
  let left := (v.currLeft.absolute maxTimestamp).inner
  let right := (v.currRight.absolute maxTimestamp).inner
  let maxLabels := v.maxLabels textSize maxTimestamp frameWidth density
  let scale := v.scale maxTimestamp maxLabels
  -- the number of labels without a width is infinite, and compares with nothing
  if v.maxLabelwidth textSize maxTimestamp = 0 then []
  else
    match TICK_STEPS.find? fun step => high left right (scale * step) ≤ maxLabels with
    | none => []
    | some step => (tickTimes left right (scale * step)).map fun tick =>
      (timeFormatter tick, v.pixelFromTime tick frameWidth maxTimestamp, toI64 tick)

/-! ## Multiples of a step -/

section Steps

variable (left right : ℚ) {step : ℚ}

theorem roundedMinLabelTime_le (h : 0 < step) : roundedMinLabelTime left step ≤ left :=
  (le_div_iff₀ h).1 (Int.floor_le _)

theorem lt_roundedMinLabelTime (h : 0 < step) : left < roundedMinLabelTime left step + step := by
  have hlt := (div_lt_iff₀ h).1 (Int.lt_floor_add_one (left / step))
  rwa [add_mul, one_mul] at hlt

/-- The last multiple is not before the right edge. -/
theorem right_le_last (h : 0 < step) :
    right ≤ (high left right step - 1 : ℤ) * step + roundedMinLabelTime left step := by
  have hle := (div_le_iff₀ h).1 (Int.le_ceil ((right - roundedMinLabelTime left step) / step))
  rw [high, add_sub_cancel_right]
  linarith

/-- The multiple before the last one is before the right edge. -/
theorem last_lt (h : 0 < step) :
    (high left right step - 1 : ℤ) * step + roundedMinLabelTime left step < right + step := by
  have hlt := Int.ceil_lt_add_one ((right - roundedMinLabelTime left step) / step)
  have hmul := mul_lt_mul_of_pos_right hlt h
  rw [add_mul, one_mul, div_mul_cancel₀ _ h.ne'] at hmul
  rw [high, add_sub_cancel_right]
  linarith

variable {left right} {maxLabels : ℤ}

/-- There are multiples on both sides of a view. -/
theorem two_le_high (h : 0 < step) (hlt : left < right) : 2 ≤ high left right step := by
  have hpos : 0 < (right - roundedMinLabelTime left step) / step :=
    div_pos (by linarith [roundedMinLabelTime_le left h]) h
  have := Int.ceil_pos.2 hpos
  rw [high]
  omega

/-- Steps that are too many are short. -/
theorem lt_of_lt_high (h : 0 < step) (hlt : maxLabels < high left right step) :
    (maxLabels - 2 : ℤ) * step < right - left := by
  have hceil : (maxLabels - 1 : ℤ) < (right - roundedMinLabelTime left step) / step :=
    Int.lt_ceil.1 (by rw [high] at hlt; omega)
  have hmul := (lt_div_iff₀ h).1 hceil
  have := lt_roundedMinLabelTime left h
  push_cast at hmul ⊢
  linarith

/-- Steps that are long are not too many. -/
theorem high_le (h : 0 < step) (hle : right - left ≤ (maxLabels - 2 : ℤ) * step) :
    high left right step ≤ maxLabels := by
  by_contra hlt
  exact absurd hle (not_le.2 (lt_of_lt_high h (not_le.1 hlt)))

end Steps

/-! ## The step of the ticks -/

/-- No candidate is more than twice as long as the one before. -/
theorem isChain_TICK_STEPS : TICK_STEPS.IsChain fun a b => b ≤ 2 * a := by
  norm_num [TICK_STEPS]

theorem pos_of_mem_TICK_STEPS {step : ℚ} (h : step ∈ TICK_STEPS) : 0 < step := by
  simp only [TICK_STEPS, List.mem_cons, List.not_mem_nil, or_false] at h
  rcases h with rfl | rfl | rfl | rfl | rfl | rfl | rfl | rfl <;> norm_num

/-- The first element with a property is the head, or the one before it has not the property. -/
theorem head_or_of_find? {α : Type*} {R : α → α → Prop} {p : α → Bool} {l : List α} {b : α} (hchain : l.IsChain R)
    (h : l.find? p = some b) : l.head? = some b ∨ ∃ a, R a b ∧ p a = false := by
  obtain ⟨-, before, after, rfl, hnot⟩ := List.find?_eq_some_iff_append.1 h
  rcases List.eq_nil_or_concat before with rfl | ⟨rest, a, rfl⟩
  · exact .inl rfl
  · refine .inr ⟨a, ?_, by simpa using hnot a (by simp)⟩
    rw [List.concat_eq_append, List.append_assoc, List.isChain_append] at hchain
    exact (List.isChain_cons_cons.1 hchain.2.1).1

/-- The step of some ticks: one of the candidates, at a power of ten below the time of a label. -/
structure TickStep (left right : ℚ) (maxLabels : ℤ) (scaledStep : ℚ) : Prop where
  pos : 0 < scaledStep
  high_le : high left right scaledStep ≤ maxLabels
  /-- The steps are not much longer than they have to be. -/
  short : (maxLabels - 2 : ℤ) * scaledStep < 2 * (right - left)

section TickStep

variable {left right scale : ℚ} {maxLabels : ℤ}

/-- There is a step as soon as one label has room besides the two at the edges. -/
theorem exists_step (hscale : 0 < scale) (hlt : (right - left) / maxLabels < 10 * scale) (hroom : 3 ≤ maxLabels) :
    ∃ step, TICK_STEPS.find? (fun step => high left right (scale * step) ≤ maxLabels) = some step := by
  rw [← Option.isSome_iff_exists, List.find?_isSome]
  refine ⟨50, by simp [TICK_STEPS], decide_eq_true (high_le (by positivity) ?_)⟩
  have hroom' : (3 : ℚ) ≤ maxLabels := by exact_mod_cast hroom
  have hwidth := (div_lt_iff₀ (by linarith)).1 hlt
  push_cast
  nlinarith

theorem tickStep_of_find? (hscale : 0 < scale) (hle : scale ≤ (right - left) / maxLabels) (hroom : 3 ≤ maxLabels)
    {step : ℚ} (h : TICK_STEPS.find? (fun step => high left right (scale * step) ≤ maxLabels) = some step) :
    TickStep left right maxLabels (scale * step) := by
  have hroom' : (3 : ℚ) ≤ maxLabels := by exact_mod_cast hroom
  have hpos := mul_pos hscale (pos_of_mem_TICK_STEPS (List.mem_of_find?_eq_some h))
  have hchosen := List.find?_some h
  refine ⟨hpos, of_decide_eq_true hchosen, ?_⟩
  rcases head_or_of_find? isChain_TICK_STEPS h with hhead | ⟨a, ha, hnot⟩
  · -- the first candidate is the power of ten itself
    obtain rfl : 1 = step := Option.some.inj hhead
    have hwidth := (le_div_iff₀ (by linarith)).1 hle
    push_cast
    nlinarith
  · -- the candidate before it has too many ticks, and is at least half as long
    rw [decide_eq_false_iff_not, not_le] at hnot
    have ha' : 0 < scale * a := mul_pos hscale (by
      have := pos_of_mem_TICK_STEPS (List.mem_of_find?_eq_some h)
      linarith)
    have hlt := lt_of_lt_high ha' hnot
    have hmul : scale * step ≤ 2 * (scale * a) := by nlinarith
    push_cast at hlt ⊢
    nlinarith

end TickStep

/-! ## The times of the ticks -/

/-- Times for the ticks of a view: at most as many as there are labels, from one edge to the other, and no further
apart than about twice the part of the view that each of the labels between the edges has. -/
structure TickTimes (left right : ℚ) (maxLabels : ℤ) (times : List ℤ) : Prop where
  increasing : times.Pairwise (· < ·)
  length_le : (times.length : ℤ) ≤ maxLabels
  first : ∃ t ∈ times, (t : ℚ) < left + 1
  last : ∃ t ∈ times, right - 1 < t
  near : ∀ t ∈ times, (left - 1 - t) * (maxLabels - 2 : ℤ) < 2 * (right - left) ∧
    (t - right - 1) * (maxLabels - 2 : ℤ) < 2 * (right - left)
  even : ∀ t ∈ times, (∃ u ∈ times, t < u) →
    ∃ u ∈ times, t < u ∧ (u - t - 1 : ℚ) * (maxLabels - 2 : ℤ) < 2 * (right - left)

section TickTimes

variable {left right scaledStep : ℚ} {maxLabels : ℤ}

theorem mem_tickTimes {t : ℤ} : t ∈ tickTimes left right scaledStep ↔
    ∃ v < (asI16 (high left right scaledStep)).toNat,
      asI128 (v * scaledStep + roundedMinLabelTime left scaledStep) = t := by
  simp only [tickTimes, List.mem_eraseDups, List.mem_map, List.mem_range]

/-- Later multiples have later times. -/
theorem tick_mono (h : 0 ≤ scaledStep) {i j : ℕ} (hij : i ≤ j) :
    asI128 (i * scaledStep + roundedMinLabelTime left scaledStep) ≤
      asI128 (j * scaledStep + roundedMinLabelTime left scaledStep) := by
  refine asI128_mono (add_le_add_left ?_ _)
  exact mul_le_mul_of_nonneg_right (by exact_mod_cast hij) h

theorem pairwise_tickTimes (h : 0 ≤ scaledStep) : (tickTimes left right scaledStep).Pairwise (· < ·) := by
  refine Sorting.pairwise_lt_eraseDups (List.pairwise_map.2 ?_)
  exact List.pairwise_lt_range.imp fun hij => tick_mono h hij.le

variable (left right scaledStep) in
theorem length_tickTimes_le :
    (tickTimes left right scaledStep).length ≤ (asI16 (high left right scaledStep)).toNat := by
  have hle := (Sorting.eraseDups_sublist ((List.range (asI16 (high left right scaledStep)).toNat).map fun v : ℕ =>
    asI128 (v * scaledStep + roundedMinLabelTime left scaledStep))).length_le
  rwa [List.length_map, List.length_range] at hle

/-- The next tick after one that is not the last is less than a step and a time unit away. -/
theorem exists_next (h : 0 ≤ scaledStep) {t u : ℤ} (ht : t ∈ tickTimes left right scaledStep)
    (hu : u ∈ tickTimes left right scaledStep) (htu : t < u) :
    ∃ w ∈ tickTimes left right scaledStep, t < w ∧ (w - t : ℚ) < scaledStep + 1 := by
  obtain ⟨i, -, rfl⟩ := mem_tickTimes.1 ht
  obtain ⟨j, hj, rfl⟩ := mem_tickTimes.1 hu
  set tick : ℕ → ℤ := fun v => asI128 (v * scaledStep + roundedMinLabelTime left scaledStep) with htick
  -- the first multiple that is later
  have hexists : ∃ k, tick i < tick k := ⟨j, htu⟩
  obtain ⟨k, hk⟩ : ∃ k, Nat.find hexists = k + 1 := by
    refine Nat.exists_eq_succ_of_ne_zero fun hzero => ?_
    have hspec := Nat.find_spec hexists
    rw [hzero] at hspec
    exact absurd (tick_mono h (Nat.zero_le i)) (not_le.2 hspec)
  have hlater : tick i < tick (k + 1) := hk ▸ Nat.find_spec hexists
  have hbefore : tick k ≤ tick i := not_lt.1 (Nat.find_min hexists (by omega))
  have hkj : k + 1 ≤ j := hk ▸ Nat.find_min' hexists htu
  refine ⟨tick (k + 1), mem_tickTimes.2 ⟨k + 1, by omega, rfl⟩, hlater, ?_⟩
  have hstep : (k * scaledStep + roundedMinLabelTime left scaledStep : ℚ) ≤
      (k + 1 : ℕ) * scaledStep + roundedMinLabelTime left scaledStep := by
    push_cast
    linarith
  have hlt := asI128_sub_lt hstep
  have hbefore : (tick k : ℚ) ≤ tick i := by exact_mod_cast hbefore
  simp only [htick] at hbefore ⊢
  push_cast at hlt ⊢
  linarith

/-- The first and the last tick are less than a step and a time unit away from the view. -/
theorem near_of_mem_tickTimes (h : 0 < scaledStep) (hlt : left < right) (hleft : -2 ^ 127 ≤ left)
    (hright : right < 2 ^ 127) {t : ℤ} (ht : t ∈ tickTimes left right scaledStep) :
    left - 1 - t < scaledStep ∧ t - right - 1 < scaledStep := by
  obtain ⟨v, hv, rfl⟩ := mem_tickTimes.1 ht
  have hmin := roundedMinLabelTime_le left h
  have hmin' := lt_roundedMinLabelTime left h
  have hlast := last_lt left right h
  set value : ℚ := v * scaledStep + roundedMinLabelTime left scaledStep with hvalue
  have hnonneg : 0 ≤ v * scaledStep := by positivity
  -- the multiples lie between the first and the last one
  have hle : value < right + scaledStep := by
    refine lt_of_le_of_lt (add_le_add_left ?_ _) hlast
    refine mul_le_mul_of_nonneg_right ?_ h.le
    have hhigh := two_le_high h hlt
    have : (v : ℤ) ≤ high left right scaledStep - 1 := by
      unfold asI16 at hv
      omega
    exact_mod_cast this
  constructor
  · by_cases hlarge : value < 2 ^ 127
    · linarith [lt_asI128 hlarge]
    · have hmono : (asI128 left : ℚ) ≤ asI128 value := by exact_mod_cast asI128_mono (by linarith)
      linarith [lt_asI128 (hlt.trans hright)]
  · have hlower : -2 ^ 127 ≤ right + scaledStep := by linarith
    have hmono : (asI128 value : ℚ) ≤ asI128 (right + scaledStep) := by exact_mod_cast asI128_mono hle.le
    linarith [asI128_lt hlower]

theorem TickStep.tickTimes (h : TickStep left right maxLabels scaledStep) (hlt : left < right)
    (hlabels : maxLabels < 2 ^ 15) (hleft : -2 ^ 127 ≤ left) (hright : right < 2 ^ 127) :
    TickTimes left right maxLabels (tickTimes left right scaledStep) := by
  have hhigh := two_le_high h.pos hlt
  have hle := h.high_le
  have hasI16 : asI16 (high left right scaledStep) = high left right scaledStep := by
    unfold asI16
    omega
  -- what is less than a step is short
  have hshort {x : ℚ} (hx : x < scaledStep) : x * (maxLabels - 2 : ℤ) < 2 * (right - left) := by
    refine lt_of_le_of_lt ?_ h.short
    rw [mul_comm]
    refine mul_le_mul_of_nonneg_left hx.le ?_
    exact_mod_cast Int.sub_nonneg.2 (hhigh.trans hle)
  refine ⟨pairwise_tickTimes h.pos.le, ?_, ?_, ?_, fun t ht => ?_, ?_⟩
  · have hlength := length_tickTimes_le left right scaledStep
    rw [hasI16] at hlength
    omega
  · -- the first multiple
    refine ⟨_, mem_tickTimes.2 ⟨0, by rw [hasI16]; omega, rfl⟩, ?_⟩
    have hmin : (0 : ℕ) * scaledStep + roundedMinLabelTime left scaledStep ≤ left := by
      rw [Nat.cast_zero, zero_mul, zero_add]
      exact roundedMinLabelTime_le left h.pos
    have hmono : (asI128 ((0 : ℕ) * scaledStep + roundedMinLabelTime left scaledStep) : ℚ) ≤ asI128 left := by
      exact_mod_cast asI128_mono hmin
    exact hmono.trans_lt (asI128_lt hleft)
  · -- the last one
    refine ⟨_, mem_tickTimes.2 ⟨(high left right scaledStep - 1).toNat, by rw [hasI16]; omega, rfl⟩, ?_⟩
    have hlast := right_le_last left right h.pos
    have hcast : ((high left right scaledStep - 1).toNat : ℚ) = (high left right scaledStep - 1 : ℤ) := by
      exact_mod_cast Int.toNat_of_nonneg (by omega)
    rw [← hcast] at hlast
    have hmono : (asI128 right : ℚ) ≤ asI128 ((high left right scaledStep - 1).toNat * scaledStep +
        roundedMinLabelTime left scaledStep) := by
      exact_mod_cast asI128_mono hlast
    exact (lt_asI128 hright).trans_le hmono
  · obtain ⟨hbefore, hafter⟩ := near_of_mem_tickTimes h.pos hlt hleft hright ht
    exact ⟨hshort hbefore, hshort hafter⟩
  · rintro t ht ⟨u, hu, htu⟩
    obtain ⟨w, hw, htw, hnext⟩ := exists_next h.pos.le ht hu htu
    exact ⟨w, hw, htw, hshort (by linarith)⟩

end TickTimes

/-! ## Ticks in every run -/

section Runs

variable {v : Viewport} {maxTimestamp : ℤ}

theorem le_roundLog10 {x : ℚ} (h : 1 / 4 ≤ |x|) : -1 ≤ roundLog10 x := by
  have hne : x ≠ 0 := by
    rintro rfl
    norm_num at h
  -- ten times the square of a quarter is more than a tenth
  have hlog : -1 ≤ Int.log 10 (10 * |x| ^ 2) := by
    refine (Int.zpow_le_iff_le_log (by norm_num) (by positivity)).1 ?_
    have hsq : (1 / 4 : ℚ) ^ 2 ≤ |x| ^ 2 := pow_le_pow_left₀ (by norm_num) h 2
    norm_num at hsq ⊢
    linarith
  rw [roundLog10, if_neg hne]
  unfold asI16
  omega

/-- A view that fits has an edge that is not too close to the start of the file for a label to have a width. -/
theorem Fits.maxLabelwidth_pos (h : Fits maxTimestamp v.currLeft v.currRight) {textSize : ℚ} (htext : 0 < textSize) :
    0 < v.maxLabelwidth textSize maxTimestamp := by
  have hwide := h.wide
  set left := (v.currLeft.absolute maxTimestamp).inner with hleft
  set right := (v.currRight.absolute maxTimestamp).inner with hright
  have hsub : (v.currRight.inner - v.currLeft.inner) * maxTimestamp = right - left := by
    rw [hleft, hright, Relative.inner_absolute, Relative.inner_absolute, sub_mul]
  rw [hsub] at hwide
  have hlog : -1 ≤ max (roundLog10 right) (roundLog10 left) := by
    by_cases hlarge : 1 / 4 ≤ |right|
    · exact le_max_of_le_left (le_roundLog10 hlarge)
    · -- the edges are half a time unit apart
      refine le_max_of_le_right (le_roundLog10 ?_)
      have hsmall := abs_lt.1 (not_le.1 hlarge)
      exact le_abs.2 (.inr (by linarith))
  have hpos : (0 : ℚ) < (max (roundLog10 right) (roundLog10 left) + 3 : ℤ) := by
    exact_mod_cast (by omega : 0 < max (roundLog10 right) (roundLog10 left) + 3)
  exact mul_pos hpos (by positivity)

theorem Fits.three_le_maxLabels (h : Fits maxTimestamp v.currLeft v.currRight) {frameWidth textSize density : ℚ}
    (htext : 0 < textSize) (hroom : v.maxLabelwidth textSize maxTimestamp ≤ frameWidth * density) :
    3 ≤ v.maxLabels textSize maxTimestamp frameWidth density := by
  have hone : ((1 : ℤ) : ℚ) ≤ frameWidth * density / v.maxLabelwidth textSize maxTimestamp := by
    exact_mod_cast (one_le_div (h.maxLabelwidth_pos htext)).2 hroom
  have := Int.le_floor.2 hone
  rw [Viewport.maxLabels]
  omega

/-- The edges of a view that fits, as times. -/
theorem Fits.edges (h : Fits maxTimestamp v.currLeft v.currRight) (hmax : 1 ≤ maxTimestamp) :
    (v.currLeft.absolute maxTimestamp).inner < (v.currRight.absolute maxTimestamp).inner ∧
      -(2 / 5) * maxTimestamp ≤ (v.currLeft.absolute maxTimestamp).inner ∧
      (v.currRight.absolute maxTimestamp).inner ≤ 7 / 5 * maxTimestamp := by
  have hmax : (1 : ℚ) ≤ maxTimestamp := by exact_mod_cast hmax
  have hwidth := h.width_le
  have hleft := h.left_le
  simp only [Relative.inner_absolute]
  refine ⟨mul_lt_mul_of_pos_right (h.left_lt_right (by exact_mod_cast hmax)) (by linarith), ?_, ?_⟩
  · exact mul_le_mul_of_nonneg_right (by linarith) (by linarith)
  · exact mul_le_mul_of_nonneg_right h.right_le (by linarith)

/-- A number is between its power of ten and ten times this power. -/
theorem zpow_log_bounds {x : ℚ} (h : 0 < x) :
    0 < (10 : ℚ) ^ Int.log 10 x ∧ (10 : ℚ) ^ Int.log 10 x ≤ x ∧ x < 10 * (10 : ℚ) ^ Int.log 10 x := by
  refine ⟨zpow_pos (by norm_num) _, ?_, ?_⟩
  · exact_mod_cast Int.zpow_log_le_self (by norm_num : 1 < 10) h
  · have hlog := Int.lt_zpow_succ_log_self (by norm_num : 1 < 10) x
    rw [← zpow_one_add₀ (by norm_num), add_comm]
    exact_mod_cast hlog

/-- In a view that fits, there are ticks as soon as there is room for a label. -/
theorem Fits.ticks (h : Fits maxTimestamp v.currLeft v.currRight) (hmax : 1 ≤ maxTimestamp)
    (hlong : maxTimestamp < 2 ^ 126) (timeFormatter : ℤ → List Char) {frameWidth textSize density : ℚ}
    (htext : 0 < textSize) (hroom : v.maxLabelwidth textSize maxTimestamp ≤ frameWidth * density)
    (hlabels : v.maxLabels textSize maxTimestamp frameWidth density < 2 ^ 15) :
    ∃ times : List ℤ,
      getTicksInternal v timeFormatter frameWidth textSize density maxTimestamp = times.map (fun tick =>
        (timeFormatter tick, v.pixelFromTime tick frameWidth maxTimestamp, toI64 tick)) ∧
      TickTimes (v.currLeft.absolute maxTimestamp).inner (v.currRight.absolute maxTimestamp).inner
        (v.maxLabels textSize maxTimestamp frameWidth density) times := by
  obtain ⟨hlt, hleft, hright⟩ := h.edges hmax
  have hlabel := h.maxLabelwidth_pos htext
  have hthree := h.three_le_maxLabels htext hroom
  have hlong : (maxTimestamp : ℚ) < 2 ^ 126 := by exact_mod_cast hlong
  have hwidth : ((v.currRight - v.currLeft).absolute maxTimestamp).inner =
      (v.currRight.absolute maxTimestamp).inner - (v.currLeft.absolute maxTimestamp).inner := sub_mul _ _ _
  rw [getTicksInternal, if_neg hlabel.ne', Viewport.scale, hwidth]
  generalize v.maxLabels textSize maxTimestamp frameWidth density = maxLabels at hthree hlabels ⊢
  generalize (v.currLeft.absolute maxTimestamp).inner = left at hlt hleft ⊢
  generalize (v.currRight.absolute maxTimestamp).inner = right at hlt hright ⊢
  have hpart : 0 < (right - left) / maxLabels :=
    div_pos (sub_pos.2 hlt) (by exact_mod_cast (by omega : 0 < maxLabels))
  obtain ⟨hpos, hbelow, habove⟩ := zpow_log_bounds hpart
  obtain ⟨step, hstep⟩ := exists_step hpos habove hthree
  rw [hstep]
  exact ⟨_, rfl,
    (tickStep_of_find? hpos hbelow hthree hstep).tickTimes hlt hlabels (by linarith) (by linarith)⟩

theorem pixelFromTime_strictMono {frameWidth : ℚ} (h : v.Shows frameWidth maxTimestamp) {t u : ℤ} (htu : t < u) :
    v.pixelFromTime t frameWidth maxTimestamp < v.pixelFromTime u frameWidth maxTimestamp := by
  rw [Viewport.pixelFromTime_lt_iff h, Viewport.asAbsoluteTime_pixelFromTime h]
  exact_mod_cast htu

/-- A zoom at a time of the file, and a jump to its end. -/
def zoomAndGoToEnd : List Action := [.canvasZoom (some 400) 2, .goToEnd]

theorem allowedRun_zoomAndGoToEnd :
    Transition.AllowedRun (Shown.next cosThirds) Action.Sent ⟨.default, 1000⟩ zoomAndGoToEnd :=
  ⟨by norm_num [Action.Sent], trivial, trivial⟩

end Runs

/-! ## The texts of a divider -/

/-- An `i64` of a release build, which wraps around. -/
def wrapI64 (x : ℤ) : ℤ := x.bmod (2 ^ 64)

/-- `as i64`, of a whole number. -/
def asI64 (x : ℤ) : ℤ := max (-2 ^ 63) (min x (2 ^ 63 - 1))

/-- The loop of `draw_divider_text`: the pixels of the texts behind a time. -/
def dividerTexts (stampStride : ℤ) : ℤ → List (List Char × ℚ × ℤ) → List ℚ
  | _, [] => []
  | lastStamp, (_, x, stamp) :: ticks =>
    if stamp < wrapI64 (lastStamp + stampStride) ∨ stamp < 0 then dividerTexts stampStride lastStamp ticks
    else x :: dividerTexts stampStride stamp ticks

/-- `draw_divider_text`: the pixels at which the text is written, or nothing when a division stops the program. -/
def drawDividerText (layoutWidth fontSize : ℚ) (ticks : List (List Char × ℚ × ℤ)) : Option (List ℚ) :=
  let textWidth := layoutWidth + fontSize * 2
  let (nextTick, nextStamp) := (ticks[1]?.map Prod.snd).getD (1, 1)
  let (firstTick, firstStamp) := (ticks[0]?.map Prod.snd).getD (0, 0)
  let tickDelta := |nextTick - firstTick|
  let stampDelta := wrapI64 (nextStamp - firstStamp)
  -- a text is infinitely many times as wide as no distance
  let tickStride := if tickDelta = 0 then 2 ^ 63 - 1 else asI64 ⌈textWidth / tickDelta⌉
  let stampStride := wrapI64 (stampDelta * tickStride)
  -- a division by zero, or one whose result is out of range
  if stampStride = 0 ∨ firstStamp = -2 ^ 63 ∧ stampStride = -1 then none
  else
    let elapsed := firstStamp.tdiv stampStride
    let lastStamp := wrapI64 (wrapI64 (elapsed * stampStride) - stampStride.tdiv 2)
    some (dividerTexts stampStride lastStamp ticks)

/-- The times from 0 on that are chosen one after the other, each at least a stride behind the one before. -/
def spacedTimes (stride : ℤ) : ℤ → List ℤ → List ℤ
  | _, [] => []
  | last, t :: times =>
    if t < last + stride ∨ t < 0 then spacedTimes stride last times else t :: spacedTimes stride t times

section SpacedTimes

variable {stride last : ℤ} {times : List ℤ}

theorem spacedTimes_sublist : (spacedTimes stride last times).Sublist times := by
  induction times generalizing last with
  | nil => exact .slnil
  | cons t times ih =>
    rw [spacedTimes]
    split
    · exact ih.cons t
    · exact ih.cons_cons t

theorem nonneg_of_mem_spacedTimes {t : ℤ} (h : t ∈ spacedTimes stride last times) : 0 ≤ t := by
  induction times generalizing last with
  | nil => cases h
  | cons u times ih =>
    rw [spacedTimes] at h
    split at h
    · exact ih h
    next hnot =>
      rcases List.mem_cons.1 h with rfl | h
      · exact not_lt.1 fun hneg => hnot (.inr hneg)
      · exact ih h

/-- Every time is at least a stride behind all before it. -/
theorem pairwise_spacedTimes (hstride : 0 ≤ stride) :
    (last :: spacedTimes stride last times).Pairwise fun t u => t + stride ≤ u := by
  induction times generalizing last with
  | nil => exact List.pairwise_singleton _ _
  | cons t times ih =>
    rw [spacedTimes]
    split
    · exact ih
    next hnot =>
      -- what is chosen behind `t` is a stride behind it, and `t` is a stride behind the time before
      have hrest := @ih t
      refine List.pairwise_cons.2 ⟨fun u hu => ?_, hrest⟩
      rw [not_or, not_lt] at hnot
      rcases List.mem_cons.1 hu with rfl | hu
      · exact hnot.1
      · have := (List.pairwise_cons.1 hrest).1 u hu
        omega

/-- A time that is far enough behind the start is less than a stride behind a chosen one. -/
theorem exists_of_mem (hstride : 0 < stride) (hinc : times.Pairwise (· < ·)) {u : ℤ} (hu : u ∈ times) (hnonneg : 0 ≤ u)
    (hlate : last + stride ≤ u) : ∃ t ∈ spacedTimes stride last times, t ≤ u ∧ u < t + stride := by
  induction times generalizing last with
  | nil => cases hu
  | cons t times ih =>
    rw [List.pairwise_cons] at hinc
    rw [spacedTimes]
    rcases List.mem_cons.1 hu with rfl | hmem
    · rw [if_neg (by omega)]
      exact ⟨u, List.mem_cons_self, le_rfl, by omega⟩
    · split
      · exact ih hinc.2 hmem hlate
      · -- the head is chosen, and is the one before `u` unless `u` is a stride behind it
        by_cases hnear : u < t + stride
        · exact ⟨t, List.mem_cons_self, (hinc.1 u hmem).le, hnear⟩
        · obtain ⟨w, hw, hspan⟩ := ih hinc.2 hmem (not_lt.1 hnear)
          exact ⟨w, List.mem_cons_of_mem _ hw, hspan⟩

end SpacedTimes

theorem wrapI64_eq {x : ℤ} (hlower : -2 ^ 63 ≤ x) (hupper : x < 2 ^ 63) : wrapI64 x = x :=
  Int.bmod_eq_of_le (by omega) (by omega)

theorem toI64_eq {x : ℤ} (h : |x| < 2 ^ 62) : toI64 x = x := by
  rw [abs_lt] at h
  exact if_pos (by omega)

/-- The loop chooses its times without an overflow. -/
theorem dividerTexts_eq (text : ℤ → List Char) (pixel : ℤ → ℚ) {stride last : ℤ} {times : List ℤ}
    (htimes : ∀ t ∈ times, |t| < 2 ^ 62) (hlast : |last| < 2 ^ 62) (hstride : |stride| < 2 ^ 62) :
    dividerTexts stride last (times.map fun t => (text t, pixel t, toI64 t)) =
      (spacedTimes stride last times).map pixel := by
  induction times generalizing last with
  | nil => rfl
  | cons t times ih =>
    rw [List.forall_mem_cons] at htimes
    have hlast' := abs_lt.1 hlast
    have hstride' := abs_lt.1 hstride
    rw [List.map_cons, dividerTexts, spacedTimes, toI64_eq htimes.1, wrapI64_eq (by omega) (by omega)]
    split
    · exact ih htimes.2 hlast
    · rw [List.map_cons, ih htimes.2 htimes.1]

/-- Places for a text at some ticks: the texts do not overlap, and a tick that is not too close to the first one has a
text that starts at it or less than a text and a gap before it. -/
structure TextPlaces (textWidth firstPixel gap : ℚ) (pixel : ℤ → ℚ) (times : List ℤ) (places : List ℚ) : Prop where
  apart : places.Pairwise fun x y => x + textWidth ≤ y
  at_tick : ∀ x ∈ places, ∃ t ∈ times, 0 ≤ t ∧ pixel t = x
  dense : ∀ t ∈ times, 0 ≤ t → firstPixel + 2 * (textWidth + gap) ≤ pixel t →
    ∃ x ∈ places, x ≤ pixel t ∧ pixel t < x + (textWidth + gap)

section TextPlaces

variable {pixel : ℤ → ℚ} {scale textWidth : ℚ} {times : List ℤ}

/-- Times that are chosen by a stride that is as wide as the text, and not wider than the text and a gap. -/
theorem textPlaces_of_stride (hscale : 0 < scale) (hpixel : ∀ t u : ℤ, pixel u - pixel t = (u - t) * scale)
    (hinc : times.Pairwise (· < ·)) {stride last first : ℤ} {gap : ℚ} (hstride : 0 < stride)
    (hlast : last < first + stride) (hwide : textWidth ≤ stride * scale) (hnarrow : stride * scale < textWidth + gap) :
    TextPlaces textWidth (pixel first) gap pixel times ((spacedTimes stride last times).map pixel) := by
  have hpixel' (t u : ℤ) : pixel u = pixel t + (u - t) * scale := by linarith [hpixel t u]
  refine ⟨?_, ?_, ?_⟩
  · refine List.pairwise_map.2 ((List.pairwise_cons.1 (pairwise_spacedTimes hstride.le)).2.imp fun {t u} htu => ?_)
    have htu : (stride : ℚ) ≤ u - t := by
      have : stride ≤ u - t := by omega
      exact_mod_cast this
    have := mul_le_mul_of_nonneg_right htu hscale.le
    linarith [hpixel t u]
  · intro x hx
    obtain ⟨t, ht, rfl⟩ := List.mem_map.1 hx
    exact ⟨t, spacedTimes_sublist.mem ht, nonneg_of_mem_spacedTimes ht, rfl⟩
  · intro u hu hnonneg hfar
    -- in times, the tick is two strides behind the first one
    have hlate : last + stride ≤ u := by
      by_contra hnot
      have hlt : (u - first : ℚ) < 2 * stride := by
        have : u - first < 2 * stride := by omega
        exact_mod_cast this
      have := mul_lt_mul_of_pos_right hlt hscale
      linarith [hpixel first u]
    obtain ⟨t, ht, htu, hut⟩ := exists_of_mem hstride hinc hu hnonneg hlate
    have hle : (0 : ℚ) ≤ u - t := by exact_mod_cast Int.sub_nonneg.2 htu
    have hlt : (u - t : ℚ) < stride := by
      have : u - t < stride := by omega
      exact_mod_cast this
    have := mul_nonneg hle hscale.le
    have := mul_lt_mul_of_pos_right hlt hscale
    exact ⟨pixel t, List.mem_map_of_mem ht, by linarith [hpixel t u], by linarith [hpixel t u]⟩

/-- The multiples of a stride that a division finds are less than a stride away. -/
theorem tdiv_mul_bounds (a : ℤ) {b : ℤ} (h : 0 < b) : a - b < a.tdiv b * b ∧ a.tdiv b * b < a + b := by
  have hlt := Int.tmod_lt_of_pos a h
  have hgt := Int.lt_tmod_of_pos a h
  rw [Int.tdiv_mul_self]
  omega

/-- Whole gaps for a width: enough of them, and not one too many. -/
theorem ceil_div_mul_bounds {x y : ℚ} (hx : 0 < x) (hy : 0 < y) :
    0 < ⌈x / y⌉ ∧ x ≤ ⌈x / y⌉ * y ∧ ⌈x / y⌉ * y < x + y := by
  refine ⟨Int.ceil_pos.2 (div_pos hx hy), (div_le_iff₀ hy).1 (Int.le_ceil _), ?_⟩
  have hlt := mul_lt_mul_of_pos_right (Int.ceil_lt_add_one (x / y)) hy
  rwa [add_mul, one_mul, div_mul_cancel₀ _ hy.ne'] at hlt

/-- With two ticks, the text is written without an overflow at the times that a stride chooses. -/
theorem drawDividerText_eq (text : ℤ → List Char) {first next stride : ℤ} {rest : List ℤ}
    (hlt : first < next) (hgap : 0 < pixel next - pixel first) (hbound : ∀ t ∈ first :: next :: rest, |t| < 2 ^ 60)
    {layoutWidth fontSize : ℚ} (htext : 0 < layoutWidth + fontSize * 2)
    (hstride : (next - first) * ⌈(layoutWidth + fontSize * 2) / (pixel next - pixel first)⌉ = stride)
    (hsmall : stride < 2 ^ 60) :
    drawDividerText layoutWidth fontSize ((first :: next :: rest).map fun t => (text t, pixel t, toI64 t)) =
      some ((spacedTimes stride (first.tdiv stride * stride - stride / 2) (first :: next :: rest)).map pixel) := by
  have hfirst := abs_lt.1 (hbound first List.mem_cons_self)
  have hnext := abs_lt.1 (hbound next (List.mem_cons_of_mem _ List.mem_cons_self))
  obtain ⟨hpos, -, -⟩ := ceil_div_mul_bounds htext hgap
  generalize hticks : ⌈(layoutWidth + fontSize * 2) / (pixel next - pixel first)⌉ = tickStride at hpos hstride
  have hstride_pos : 0 < stride := hstride ▸ mul_pos (Int.sub_pos.2 hlt) hpos
  have hle : tickStride ≤ stride := hstride ▸ le_mul_of_one_le_left hpos.le (by omega)
  obtain ⟨hbase, hbase'⟩ := tdiv_mul_bounds first hstride_pos
  have hhalf : stride.tdiv 2 = stride / 2 := Int.tdiv_eq_ediv_of_nonneg hstride_pos.le
  have hasI64 : asI64 tickStride = tickStride := by
    unfold asI64
    omega
  have hfirst_eq : toI64 first = first := toI64_eq (abs_lt.2 (by omega))
  have hnext_eq : toI64 next = next := toI64_eq (abs_lt.2 (by omega))
  have htimes : ∀ t ∈ first :: next :: rest, |t| < 2 ^ 62 := fun t ht => (hbound t ht).trans (by norm_num)
  have hchosen := dividerTexts_eq text pixel htimes
    (abs_lt.2 (by omega) : |first.tdiv stride * stride - stride / 2| < 2 ^ 62) (abs_lt.2 (by omega) : |stride| < 2 ^ 62)
  rw [← hchosen]
  -- none of the numbers of the function leaves the range of an `i64`
  have hdelta : wrapI64 (next - first) = next - first := wrapI64_eq (by omega) (by omega)
  have hwrap : wrapI64 stride = stride := wrapI64_eq (by omega) (by omega)
  have hwrap_base : wrapI64 (first.tdiv stride * stride) = first.tdiv stride * stride :=
    wrapI64_eq (by omega) (by omega)
  have hwrap_last : wrapI64 (first.tdiv stride * stride - stride / 2) = first.tdiv stride * stride - stride / 2 :=
    wrapI64_eq (by omega) (by omega)
  simp only [drawDividerText, List.map_cons, List.getElem?_cons_succ, List.getElem?_cons_zero, Option.map_some,
    Option.getD_some, abs_of_pos hgap, if_neg hgap.ne', hticks, hasI64, hfirst_eq, hnext_eq, hdelta, hstride, hwrap,
    hhalf, hwrap_base, hwrap_last]
  rw [if_neg (by omega)]

/-- With two ticks, the text of a divider is written at some of them. -/
theorem exists_textPlaces (text : ℤ → List Char) (hscale : 0 < scale)
    (hpixel : ∀ t u : ℤ, pixel u - pixel t = (u - t) * scale) {first next : ℤ} {rest : List ℤ}
    (hinc : (first :: next :: rest).Pairwise (· < ·)) (hbound : ∀ t ∈ first :: next :: rest, |t| < 2 ^ 60)
    {layoutWidth fontSize : ℚ} (htext : 0 < layoutWidth + fontSize * 2)
    (hfits : (layoutWidth + fontSize * 2) / scale + (next - first) ≤ 2 ^ 60) :
    ∃ places,
      drawDividerText layoutWidth fontSize ((first :: next :: rest).map fun t => (text t, pixel t, toI64 t)) =
        some places ∧
      TextPlaces (layoutWidth + fontSize * 2) (pixel first) (pixel next - pixel first) pixel (first :: next :: rest)
        places := by
  have hlt : first < next := (List.pairwise_cons.1 hinc).1 next List.mem_cons_self
  have hgap : 0 < pixel next - pixel first := by
    rw [hpixel]
    exact mul_pos (by exact_mod_cast Int.sub_pos.2 hlt) hscale
  obtain ⟨hpos, hwide, hnarrow⟩ := ceil_div_mul_bounds htext hgap
  obtain ⟨stride, hstride⟩ : ∃ stride,
      (next - first) * ⌈(layoutWidth + fontSize * 2) / (pixel next - pixel first)⌉ = stride := ⟨_, rfl⟩
  have hmul : (stride : ℚ) * scale =
      ⌈(layoutWidth + fontSize * 2) / (pixel next - pixel first)⌉ * (pixel next - pixel first) := by
    rw [← hstride, hpixel]
    push_cast
    ring
  rw [← hmul] at hwide hnarrow
  have hsmall : stride < 2 ^ 60 := by
    have hlt : (stride : ℚ) < (layoutWidth + fontSize * 2) / scale + (next - first) := by
      rw [← mul_lt_mul_iff_left₀ hscale, add_mul, div_mul_cancel₀ _ hscale.ne', ← hpixel]
      exact hnarrow
    exact_mod_cast hlt.trans_le hfits
  have hstride_pos : 0 < stride := hstride ▸ mul_pos (Int.sub_pos.2 hlt) hpos
  have hbase := (tdiv_mul_bounds first hstride_pos).2
  exact ⟨_, drawDividerText_eq text hlt hgap hbound htext hstride hsmall,
    textPlaces_of_stride hscale hpixel hinc hstride_pos (by omega) hwide hnarrow⟩

end TextPlaces

section Dividers

variable {v : Viewport} {maxTimestamp : ℤ}

theorem Fits.widthAbsolute_le (h : Fits maxTimestamp v.currLeft v.currRight) (hmax : 1 ≤ maxTimestamp) :
    (v.widthAbsolute maxTimestamp).inner ≤ 7 / 5 * maxTimestamp := by
  have hmax : (1 : ℚ) ≤ maxTimestamp := by exact_mod_cast hmax
  exact mul_le_mul_of_nonneg_right h.width_le (by linarith)

/-- The time that a text takes. -/
theorem Fits.textTime_le (h : Fits maxTimestamp v.currLeft v.currRight) (hmax : 1 ≤ maxTimestamp)
    {frameWidth textWidth bound : ℚ} (hframe : 0 < frameWidth) (htext : 0 ≤ textWidth)
    (hwide : textWidth * maxTimestamp ≤ bound * frameWidth) :
    textWidth / (frameWidth / (v.widthAbsolute maxTimestamp).inner) ≤ 7 / 5 * bound := by
  rw [div_div_eq_mul_div, div_le_iff₀ hframe]
  calc textWidth * (v.widthAbsolute maxTimestamp).inner
      ≤ textWidth * (7 / 5 * maxTimestamp) := mul_le_mul_of_nonneg_left (h.widthAbsolute_le hmax) htext
    _ = 7 / 5 * (textWidth * maxTimestamp) := by ring
    _ ≤ 7 / 5 * (bound * frameWidth) := mul_le_mul_of_nonneg_left hwide (by norm_num)
    _ = 7 / 5 * bound * frameWidth := by ring

theorem pixelFromTime_sub (frameWidth : ℚ) (t u : ℤ) :
    v.pixelFromTime u frameWidth maxTimestamp - v.pixelFromTime t frameWidth maxTimestamp =
      (u - t) * (frameWidth / (v.widthAbsolute maxTimestamp).inner) := by
  simp only [Viewport.pixelFromTime, Absolute.inner_sub]
  ring

/-- The ticks are around the view, by at most twice its width. -/
theorem TickTimes.bounds {left right : ℚ} {maxLabels : ℤ} {times : List ℤ}
    (h : TickTimes left right maxLabels times) (hlabels : 3 ≤ maxLabels) (hlt : left < right) {t : ℤ} (ht : t ∈ times) :
    left - 1 - 2 * (right - left) < t ∧ t < right + 1 + 2 * (right - left) := by
  have hone : (1 : ℚ) ≤ (maxLabels - 2 : ℤ) := by exact_mod_cast (by omega : 1 ≤ maxLabels - 2)
  have hbound {x : ℚ} (hx : x * (maxLabels - 2 : ℤ) < 2 * (right - left)) : x < 2 * (right - left) := by
    rcases le_total x 0 with hneg | hpos
    · linarith
    · exact (le_mul_of_one_le_right hpos hone).trans_lt hx
  obtain ⟨hbefore, hafter⟩ := h.near t ht
  constructor <;> linarith [hbound hbefore, hbound hafter]

/-- Between the times 1 and 2 there is one tick, at time 1, and no text can be written. -/
example : let actions : List Action := [.zoomToRange 1 2, .canvasZoom none (3 / 5)]
    let s := actions.foldl (Shown.next cosThirds) ⟨.default, 1000⟩
    drawDividerText 90 15 (getTicksInternal s.viewport (fun _ => []) 800 12 1 s.maxTimestamp) = none := by
  decide +kernel

end Dividers

end View
