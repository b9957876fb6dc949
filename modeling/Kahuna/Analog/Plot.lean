import Kahuna.Analog.Basic
import Kahuna.View.Basic
import Mathlib.Data.Rat.Floor

/-!
# The limits of a plot

The model of `CommandBuilder` in `analog_renderer.rs`, as far as the smallest and the largest value of the viewport
are concerned. The pixels of the viewport are taken one after the other. A stretch without changes is a pass that shows
one value, and skips ahead to the next change; the changes inside a pixel are a pass that shows the range of their
values. The samples next to the viewport on both sides are shown as well.

The positions of times and pixels are exact rationals. The commands that are drawn are left out, since the limits do
not depend on them.
-/

namespace Analog

open View

/-! ## Numbers -/

/-- `f64::to_u64`, the whole part of a number that fits. -/
def toU64 (x : ℚ) : Option UInt64 := if -1 < x ∧ x < 2 ^ 64 then some (UInt64.ofNat ⌊x⌋.toNat) else none

/-- `x as u32` of a number that is not negative. -/
def asU32 (x : ℚ) : ℕ := min ⌊x⌋.toNat (2 ^ 32 - 1)

/-! ## Values -/

/-- `CommandOutput`. -/
structure CommandOutput (α : Type) where
  viewportMin : WithTop α
  viewportMax : WithBot α
  deriving DecidableEq

variable {α : Type} [LinearOrder α]

namespace CommandOutput

/-- `CommandOutput::new`. -/
def new : CommandOutput α where
  viewportMin := ⊤
  viewportMax := ⊥

/-- `update_bounds`. -/
def updateBounds (out : CommandOutput α) (value : Value α) : CommandOutput α :=
  match value with
  | .finite v => { viewportMin := out.viewportMin ⊓ ↑v, viewportMax := out.viewportMax ⊔ ↑v }
  | .nonFinite => out

end CommandOutput

namespace MinMax

/-- The smallest value. -/
def minValue (m : MinMax α) : Value α :=
  match m.min with
  | ⊤ => .nonFinite
  | (v : α) => .finite v

/-- The largest value. -/
def maxValue (m : MinMax α) : Value α :=
  match m.max with
  | ⊥ => .nonFinite
  | (v : α) => .finite v

/-- The range of values that `AnalogSignalCache::query_time_range` answers. The largest value is not a number when one
of the values is not finite. -/
def range (m : MinMax α) : List (Value α) := [m.minValue, if m.hasNonFinite then .nonFinite else m.maxValue]

end MinMax

/-! ## Passes -/

/-- Where the loop over the pixels is. -/
structure Control where
  px : ℕ
  nextQueryTime : Option UInt64
  lastQueriedTime : Option UInt64
  deriving DecidableEq

/-- What a pass of the loop shows. -/
inductive Pass (α : Type) where
  /-- The value that is in force. -/
  | flat (current : Option (UInt64 × Value α))
  /-- The values from `t0` on and before `t1`. -/
  | range (t0 t1 : UInt64)
  deriving DecidableEq

/-- What `CommandBuilder` knows of the pixels. -/
structure Canvas where
  viewport : Viewport
  maxTimestamp : ℤ
  viewWidth : ℚ

namespace Canvas

variable (b : Canvas)

/-- `time_at_pixel`. -/
def timeAtPixel (px : ℚ) : UInt64 := (toU64 (b.viewport.asAbsoluteTime px b.viewWidth b.maxTimestamp).inner).getD 0

/-- `pixel_at_time`. -/
def pixelAtTime (time : UInt64) : ℚ := b.viewport.pixelFromTime time.toNat b.viewWidth b.maxTimestamp

/-- The pixel behind the last one. -/
def endPx : ℚ := max ⌊b.viewWidth⌋ 0 + 1

/-- The time that is queried next. -/
def queryTime (c : Control) : UInt64 := c.nextQueryTime.getD (b.timeAtPixel c.px)

/-- `process_flat`, as far as it goes on from a pixel. The position of a time is finite. -/
def afterFlat (c : Control) (stop : ℕ) (next : Option UInt64) : Control :=
  match next with
  | none => { px := stop, nextQueryTime := none, lastQueriedTime := some (b.queryTime c) }
  | some next =>
    let jump := asU32 (max ⌊b.pixelAtTime next⌋ 0)
    if c.px < jump then
      { px := min jump stop, nextQueryTime := some next, lastQueriedTime := some (b.queryTime c) }
    else { px := min (c.px + 1) stop, nextQueryTime := none, lastQueriedTime := some (b.queryTime c) }

/-- Whether a pixel is left out, since its time was queried before. -/
def skips (c : Control) : Bool := c.nextQueryTime = none ∧ c.lastQueriedTime = some (b.queryTime c)

/-- A pass of the loop in `iterate_pixels`, with what a query answers for its time. -/
def pass (c : Control) (stop : ℕ) (query : CacheQueryResult α) : Pass α × Control :=
  let t0 := b.queryTime c
  let t1 := b.timeAtPixel (c.px + 1)
  if query.next.all (t1 ≤ ·) then (.flat query.current, b.afterFlat c stop query.next)
  else (.range t0 t1, { px := c.px + 1, nextQueryTime := none, lastQueriedTime := some t0 })

end Canvas

/-- What `process_flat` and `process_range` show. -/
def Pass.show (cache : SignalRMQ α) (out : CommandOutput α) : Pass α → Run (CommandOutput α)
  | flat current => .ok ((current.map Prod.snd).elim out out.updateBounds)
  | range t0 t1 => do
    match ← cache.queryTimeRange t0 (if t1 = 0 then 0 else t1 - 1) with
    | none => return out
    | some m => return m.range.foldl CommandOutput.updateBounds out

/-- `CommandBuilder`. -/
structure CommandBuilder (α : Type) extends Canvas where
  cache : SignalRMQ α

namespace CommandBuilder

variable (b : CommandBuilder α)

/-- `add_before_viewport_sample`. -/
def addBeforeViewportSample (out : CommandOutput α) : Run (CommandOutput α) := do
  let query ← b.cache.queryAtTime (b.timeAtPixel 0)
  match query.current with
  | some (time, value) => return if b.pixelAtTime time < 0 then out.updateBounds value else out
  | none => return out

/-- The loop of `iterate_pixels`, which takes at most one pass for each pixel. -/
def iteratePixels (stop : ℕ) : ℕ → Control → CommandOutput α → Run (CommandOutput α)
  | 0, _, out => .ok out
  | passes + 1, c, out =>
    if c.px < stop then
      if b.skips c then iteratePixels stop passes { c with px := c.px + 1 } out
      else do
        let query ← b.cache.queryAtTime (b.queryTime c)
        let (pass, c) := b.pass c stop query
        let out ← pass.show b.cache out
        iteratePixels stop passes c out
    else .ok out

/-- `add_after_viewport_sample`. -/
def addAfterViewportSample (out : CommandOutput α) : Run (CommandOutput α) := do
  let query ← b.cache.queryAtTime (b.timeAtPixel b.endPx)
  match query.next with
  | none => return out
  | some nextTime =>
    if b.pixelAtTime nextTime ≤ b.endPx then return out
    else
      let afterQuery ← b.cache.queryAtTime nextTime
      match afterQuery.current with
      | some (_, value) => return out.updateBounds value
      | none => return out

/-- `build`. -/
def build : Run (CommandOutput α) := do
  let stop := asU32 b.endPx
  let out ← b.addBeforeViewportSample .new
  let out ← b.iteratePixels stop stop { px := 0, nextQueryTime := none, lastQueriedTime := none } out
  b.addAfterViewportSample out

end CommandBuilder

end Analog
