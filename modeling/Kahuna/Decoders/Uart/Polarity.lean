import Kahuna.Decoders.Uart.Decode

/-!
# UART polarity

A line that idles low carries the inverted levels of a line that idles high. Start edges, start bits,
data bits and stop bits are all compared with the idle level, so they invert with it; the parity bit
is compared with a 1.

- `frameStarts_inverted`: the frames found are the same.
- `frameWord_inverted_iff`: the word of a frame is the same exactly when the parity bit has no say.
- `polaritySymmetric_iff`: the exact condition for all words of a line.
-/

namespace Decoders

namespace Bit

/-- The other level. -/
def inverted (b : Bit) : Bit :=
  match b with
  | .zero => .one
  | .one => .zero
  | .invalid => .invalid

@[simp] theorem inverted_inverted (b : Bit) : b.inverted.inverted = b := by cases b <;> rfl

theorem inverted_injective : Function.Injective inverted :=
  Function.LeftInverse.injective inverted_inverted

end Bit

namespace BitLane

/-- The lane with 0 and 1 exchanged at every change. -/
def inverted (lane : BitLane) : BitLane := ⟨lane.changes.map fun c => (c.1, c.2.inverted)⟩

theorem valueAt_inverted (lane : BitLane) (time : UInt64) :
    lane.inverted.valueAt time = (lane.valueAt time).map Bit.inverted := by
  rw [valueAt_eq, valueAt_eq]
  exact Timeline.valueAt_mapValues _ _ _

theorem edgesTo_inverted (lane : BitLane) (target : Bit) :
    lane.inverted.edgesTo target.inverted = lane.edgesTo target := by
  rw [edgesTo_eq, edgesTo_eq]
  exact Timeline.edgesTo_mapValues target Bit.inverted_injective _

end BitLane

namespace Uart

/-- The settings with the other polarity. -/
def UartSettings.opposite (s : UartSettings) : UartSettings := { s with idleHigh := !s.idleHigh }

variable {s : UartSettings} {line : BitLane} {period start : UInt64}

theorem UartSettings.idle_opposite : s.opposite.idle = s.idle.inverted := by
  by_cases h : s.idleHigh <;> simp [idle, opposite, h, Bit.inverted]

theorem UartSettings.start_opposite : s.opposite.start = s.start.inverted := by
  by_cases h : s.idleHigh <;> simp [UartSettings.start, opposite, h, Bit.inverted]

/-- The bit period is measured between changes of any kind. -/
theorem UartSettings.resolveBitPeriod_opposite :
    s.opposite.resolveBitPeriod line.inverted = s.resolveBitPeriod line := by
  have htimes : line.inverted.changes.map Prod.fst = line.changes.map Prod.fst := by
    rw [BitLane.inverted, List.map_map]
    rfl
  rw [resolveBitPeriod, resolveBitPeriod, htimes]
  rfl

/-! ## Samples -/

/-- An inverted sample is at an inverted level when the sample is at the level. -/
theorem sampleAt_inverted_eq_some {index : ℕ} {b : Bit} :
    sampleAt line.inverted period start index = some b.inverted ↔
      sampleAt line period start index = some b := by
  rw [sampleAt, sampleAt, BitLane.valueAt_inverted, ← Option.map_some,
    (Option.map_injective Bit.inverted_injective).eq_iff]

theorem cleanSample_inverted {index : ℕ} :
    CleanSample (sampleAt line.inverted period start index) ↔
      CleanSample (sampleAt line period start index) := by
  have hzero : sampleAt line.inverted period start index = some .zero ↔
      sampleAt line period start index = some .one := sampleAt_inverted_eq_some (b := .one)
  have hone : sampleAt line.inverted period start index = some .one ↔
      sampleAt line period start index = some .zero := sampleAt_inverted_eq_some (b := .zero)
  rw [CleanSample, CleanSample, hzero, hone, or_comm]

theorem dataClean_inverted :
    DataClean s.opposite line.inverted period start ↔ DataClean s line period start :=
  forall₂_congr fun _ _ => cleanSample_inverted

theorem stopsIdle_inverted :
    StopsIdle s.opposite line.inverted period start ↔ StopsIdle s line period start := by
  rw [StopsIdle, StopsIdle, UartSettings.idle_opposite]
  exact forall₂_congr fun _ _ => sampleAt_inverted_eq_some

/-- The logical ones stay the same. -/
theorem marks_inverted {count : ℕ} :
    marks s.opposite line.inverted period start count = marks s line period start count := by
  rw [marks, marks, UartSettings.idle_opposite]
  simp only [sampleAt_inverted_eq_some]

/-- The parity check of the inverted frame asks for the other level, and so does not invert: on a
clean bit exactly one of the two checks passes. -/
theorem parityPasses_inverted (hclean : CleanSample (paritySample s line period start)) :
    ParityPasses s.opposite line.inverted period start ↔ ¬ ParityPasses s line period start := by
  have hclean' : CleanSample (paritySample s.opposite line.inverted period start) :=
    cleanSample_inverted.2 hclean
  have hmarks : marks s.opposite line.inverted period start (s.opposite.clampedDataBits + 1)
      = marks s line period start (s.clampedDataBits + 1) := marks_inverted
  rw [parityPasses_iff hclean', parityPasses_iff hclean, hmarks]
  have hidle : s.opposite.idleHigh = !s.idleHigh := rfl
  have hparity : s.opposite.parity = s.parity := rfl
  rw [hidle, hparity]
  cases s.idleHigh <;> simp

/-- A parity bit that is not clean counts as a 0 on both lines. -/
theorem parityPasses_inverted_of_unclean
    (hclean : ¬ CleanSample (paritySample s line period start)) :
    ParityPasses s.opposite line.inverted period start ↔ ParityPasses s line period start := by
  have hclean' : ¬ CleanSample (paritySample s.opposite line.inverted period start) :=
    cleanSample_inverted.not.2 hclean
  have hmarks : marks s.opposite line.inverted period start s.opposite.clampedDataBits
      = marks s line period start s.clampedDataBits := marks_inverted
  rw [ParityPasses, ParityPasses, hmarks, iff_false_intro (not_or.1 hclean).2,
    iff_false_intro (not_or.1 hclean').2]
  rfl

/-! ## Frames -/

/-- The same frames are found. -/
theorem frameStarts_inverted {nextFree : UInt64} {edges : List UInt64} :
    frameStarts s.opposite line.inverted period nextFree edges
      = frameStarts s line period nextFree edges := by
  have hsample : ∀ edge, line.inverted.valueAt (centre edge period 0) = some s.opposite.start ↔
      line.valueAt (centre edge period 0) = some s.start := by
    intro edge
    rw [UartSettings.start_opposite]
    show sampleAt line.inverted period edge 0 = some s.start.inverted ↔
      sampleAt line period edge 0 = some s.start
    exact sampleAt_inverted_eq_some
  induction edges generalizing nextFree with
  | nil => rfl
  | cons edge rest ih =>
    simp only [frameStarts, ne_eq, hsample, ih]
    rfl

/-- The data bits are read as the same word. -/
theorem readBits_inverted :
    readBits s.opposite line.inverted start period = readBits s line start period := by
  have hbit : readBit s.opposite line.inverted start period = readBit s line start period := by
    ext1 acc
    ext1 i
    rw [readBit, readBit, BitLane.valueAt_inverted, UartSettings.idle_opposite]
    cases line.valueAt (centre start period (i + 1)) with
    | none => rfl
    | some b =>
      cases b with
      | invalid => rfl
      | zero =>
        cases s.idle <;> rfl
      | one =>
        cases s.idle <;> rfl
  rw [readBits, readBits, hbit]
  rfl

/-- The word of a frame is the same exactly when the parity bit has no say: there is none, a data bit
is not clean, or the parity bit itself is not clean. -/
theorem frameWord_inverted_iff :
    frameWord s.opposite line.inverted period start = frameWord s line period start ↔
      s.parity = .none ∨ ¬ DataClean s line period start ∨
        ¬ CleanSample (paritySample s line period start) := by
  have hbits : s.opposite.clampedDataBits = s.clampedDataBits := rfl
  have hend : frameEnd s.opposite period start = frameEnd s period start := rfl
  have hformat : s.opposite.format = s.format := rfl
  have hkind : s.opposite.parity = s.parity := rfl
  have herror := frameError_eq s.opposite line.inverted period start
  simp only [readBits_inverted, dataClean_inverted, stopsIdle_inverted, hkind] at herror
  simp only [frameWord, readBits_inverted, herror, frameError_eq s line, hbits, hend, hformat]
  by_cases hdata : DataClean s line period start
  case neg => simp [hdata]
  by_cases hparity : s.parity = .none
  · simp [hparity]
  by_cases hclean : CleanSample (paritySample s line period start)
  · -- exactly one of the two frames has a parity error
    simp only [parityPasses_inverted hclean]
    by_cases hpasses : ParityPasses s line period start
    · by_cases hstops : StopsIdle s line period start
      · simp [hdata, hparity, hclean, hpasses, hstops]
      · simp [hdata, hparity, hclean, hpasses, hstops]
    · by_cases hstops : StopsIdle s line period start
      · simp [hdata, hparity, hclean, hpasses, hstops]
      · simp [hdata, hparity, hclean, hpasses, hstops]
  · simp only [parityPasses_inverted_of_unclean hclean]
    simp [hclean]

/-! ## Symmetry -/

/-- The line and the inverted line are decoded to the same row. -/
def PolaritySymmetric (s : UartSettings) (line : BitLane) : Prop :=
  s.decode [some line] = s.opposite.decode [some line.inverted]

instance (s : UartSettings) (line : BitLane) : Decidable (PolaritySymmetric s line) :=
  inferInstanceAs (Decidable (_ = _))

theorem UartSettings.words_opposite_eq_iff :
    s.words line = s.opposite.words line.inverted ↔
      ∀ period start, s.HasFrame line period start →
        frameWord s.opposite line.inverted period start = frameWord s line period start := by
  unfold UartSettings.words UartSettings.HasFrame
  rw [resolveBitPeriod_opposite, start_opposite, BitLane.edgesTo_inverted]
  cases s.resolveBitPeriod line with
  | none => simp
  | some period =>
    simp only [frameStarts_inverted, List.map_inj_left, Option.some.injEq]
    constructor
    · rintro h _ start ⟨rfl, hstart⟩
      exact (h start hstart).symm
    · intro h start hstart
      exact (h period start ⟨rfl, hstart⟩).symm

/-- The two rows are the same exactly when in every frame the parity bit has no say. -/
theorem polaritySymmetric_iff (s : UartSettings) (line : BitLane) :
    PolaritySymmetric s line ↔
      ∀ period start, s.HasFrame line period start →
        s.parity = .none ∨ ¬ DataClean s line period start ∨
          ¬ CleanSample (paritySample s line period start) := by
  rw [PolaritySymmetric, s.decode_line, s.opposite.decode_line, List.singleton_inj,
    DecodedLane.mk.injEq, and_iff_right rfl, UartSettings.words_opposite_eq_iff]
  simp only [frameWord_inverted_iff]

/-- A frame of the letter K with even parity, at ten ticks a bit. -/
def letterWithParity : BitLane :=
  ⟨[(0, .one), (10, .zero), (20, .one), (40, .zero), (50, .one), (60, .zero), (80, .one),
    (90, .zero), (110, .one)]⟩

/-- On the inverted line the same frame is reported with a parity error. -/
theorem not_polaritySymmetric_letterWithParity :
    ¬ PolaritySymmetric evenParity letterWithParity := by
  decide

end Uart

end Decoders
