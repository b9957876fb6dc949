import Kahuna.Decoders.Basic

/-!
# The UART decoder

The model of `decoders/uart.rs`. One asynchronous serial line is cut into frames: each starts at an
edge to the start level and is sampled at the centre of every bit.

The decoder turns each frame it finds on the line into one word. Where the frames are depends on the
start edges alone; what a word shows depends on the samples of its own frame.

- `decodeFrames_eq`: the words are the frames found, read one by one.
- `readBits_eq`: what the data bits of a frame are read as.
- `DataSound`: a word is marked as data only if every sample of its frame is as it should be.
- `dataSound_iff`: the exact condition, which is about the parity bit.
-/

namespace Decoders.Uart

/-- Role index. Positional in saved state. -/
def LINE : ℕ := 0

/-- The parity bit of a frame. -/
inductive Parity where
  | none
  | even
  | odd
  deriving DecidableEq, Repr

/-- The settings of a UART decoder. -/
structure UartSettings where
  /-- Length of one bit in ticks; `none` measures it from the narrowest pulse on the line. -/
  bitPeriod : Option UInt64
  /-- Bits per frame, excluding start, parity and stop, a `u32`. -/
  dataBits : ℕ
  parity : Parity
  /-- Stop bits to require before the next frame, a `u32`. -/
  stopBits : ℕ
  bitOrder : BitOrder
  /-- Level the line rests at between frames. -/
  idleHigh : Bool
  format : WordFormat
  deriving DecidableEq, Repr

namespace UartSettings

/-- 8N1, LSB first, idle high, rate measured from the trace. -/
def default : UartSettings :=
  { bitPeriod := none
    dataBits := 8
    parity := .none
    stopBits := 1
    bitOrder := .lsbFirst
    idleHigh := true
    format := .ascii }

/-- Names of the rows of a UART decoder. -/
def laneNames : List String := ["Data"]

/-- The level between frames. -/
def idle (s : UartSettings) : Bit := if s.idleHigh then .one else .zero

/-- The level of a start bit. -/
def start (s : UartSettings) : Bit := if s.idleHigh then .zero else .one

/-- Bit period to decode with: the configured one, else the narrowest pulse on the line. -/
def resolveBitPeriod (s : UartSettings) (line : BitLane) : Option UInt64 :=
  match s.bitPeriod with
  | some p => if 0 < p then some p else none
  | none =>
    let times := line.changes.map Prod.fst
    -- `saturating_sub`
    let widths := List.zipWith (fun a b => if a < b then b - a else 0) times times.tail
    (widths.filter (0 < ·)).min?

/-- The data bits the decoder works with, `data_bits.clamp(1, 9)`. -/
def clampedDataBits (s : UartSettings) : ℕ := max 1 (min s.dataBits 9)

/-- The stop bits the decoder works with, `stop_bits.clamp(1, 2)`. -/
def clampedStopBits (s : UartSettings) : ℕ := max 1 (min s.stopBits 2)

/-- The number of parity bits of a frame. -/
def parityBits (s : UartSettings) : ℕ := if s.parity = .none then 0 else 1

end UartSettings

/-- The centre of a bit of the frame that starts at `start`. -/
def centre (start period : UInt64) (index : ℕ) : UInt64 :=
  start + UInt64.ofNat index * period + period / 2

/-- The data bits of a frame: their value, the number of ones, and whether a bit was unclean. -/
structure FrameBits where
  value : ℕ
  ones : ℕ
  invalid : Bool
  deriving DecidableEq, Repr

/-- Sample the `i`-th data bit. -/
def readBit (s : UartSettings) (line : BitLane) (start period : UInt64) (acc : FrameBits) (i : ℕ) :
    FrameBits :=
  match line.valueAt (centre start period (i + 1)) with
  | some .invalid => { acc with invalid := true }
  | none => { acc with invalid := true }
  | some b =>
    -- the idle level is a logical 1, so the data bits of an inverted line invert with it
    let one := if b = s.idle then 1 else 0
    { acc with
      ones := acc.ones + one
      value :=
        match s.bitOrder with
        | .lsbFirst => acc.value ||| (one <<< i)
        | .msbFirst => (acc.value <<< 1) ||| one }

/-- Sample all data bits of a frame. -/
def readBits (s : UartSettings) (line : BitLane) (start period : UInt64) : FrameBits :=
  (List.range s.clampedDataBits).foldl (readBit s line start period) ⟨0, 0, false⟩

/-- What is wrong with a frame: an unclean bit, then the parity, then the stop bits. -/
def frameError (s : UartSettings) (line : BitLane) (start period : UInt64) (bits : FrameBits) :
    Option String :=
  let sample := fun index => line.valueAt (centre start period index)
  let got := sample (s.clampedDataBits + 1) = some .one
  let expected := (bits.ones % 2 = 1) = (s.parity = .even)
  let stops := (List.range s.clampedStopBits).map fun i =>
    sample (s.clampedDataBits + s.parityBits + 1 + i)
  if bits.invalid then some "x"
  else if s.parity ≠ .none ∧ got ≠ expected then some "parity"
  else if stops.any (· ≠ some s.idle) then some "framing"
  else none

/-- The loop over the start edges. Edges inside a frame already decoded are data transitions, and a
glitch narrower than half a bit is not a start bit. -/
def decodeFrames (s : UartSettings) (line : BitLane) (period : UInt64) :
    UInt64 → List UInt64 → List DecodedWord
  | _, [] => []
  | nextFree, start :: rest =>
    if start < nextFree then decodeFrames s line period nextFree rest
    else if line.valueAt (centre start period 0) ≠ some s.start then
      decodeFrames s line period nextFree rest
    else
      let bits := readBits s line start period
      let error := frameError s line start period bits
      let frameBits := 1 + s.clampedDataBits + s.parityBits + s.clampedStopBits
      let end_ := start + UInt64.ofNat frameBits * period
      { start
        end_
        text := error.getD (s.format.format bits.value s.clampedDataBits)
        kind := if error.isSome then .error else .data } :: decodeFrames s line period end_ rest

/-- Decode `lanes`, which are indexed by the `LINE` role. -/
def UartSettings.decode (s : UartSettings) (lanes : List (Option BitLane)) : List DecodedLane :=
  match lanes[LINE]? with
  | some (some line) =>
    match s.resolveBitPeriod line with
    | none => [{ name := "Data", words := [] }]
    | some period =>
      [{ name := "Data", words := decodeFrames s line period 0 (line.edgesTo s.start) }]
  | _ => [{ name := "Data", words := [] }]

/-! ## Frames -/

/-- The number of bits of a frame. -/
def UartSettings.frameBits (s : UartSettings) : ℕ :=
  1 + s.clampedDataBits + s.parityBits + s.clampedStopBits

section Frames

variable (s : UartSettings) (line : BitLane) (period : UInt64)

/-- Where the frame that starts at `start` ends. -/
def frameEnd (start : UInt64) : UInt64 := start + UInt64.ofNat s.frameBits * period

/-- The frames found among some edges: each starts at an edge that is not inside the frame before
it, and whose level holds up to the centre of the start bit. -/
def frameStarts : UInt64 → List UInt64 → List UInt64
  | _, [] => []
  | nextFree, start :: rest =>
    if start < nextFree then frameStarts nextFree rest
    else if line.valueAt (centre start period 0) ≠ some s.start then frameStarts nextFree rest
    else start :: frameStarts (frameEnd s period start) rest

/-- The word of a frame. -/
def frameWord (start : UInt64) : DecodedWord :=
  let bits := readBits s line start period
  let error := frameError s line start period bits
  { start
    end_ := frameEnd s period start
    text := error.getD (s.format.format bits.value s.clampedDataBits)
    kind := if error.isSome then .error else .data }

/-- The words are the frames found, read one by one. -/
theorem decodeFrames_eq (nextFree : UInt64) (edges : List UInt64) :
    decodeFrames s line period nextFree edges
      = (frameStarts s line period nextFree edges).map (frameWord s line period) := by
  induction edges generalizing nextFree with
  | nil => rfl
  | cons start rest ih =>
    rw [decodeFrames, frameStarts]
    by_cases hfree : start < nextFree
    · rw [if_pos hfree, if_pos hfree, ih]
    · rw [if_neg hfree, if_neg hfree]
      by_cases hglitch : line.valueAt (centre start period 0) ≠ some s.start
      · rw [if_pos hglitch, if_pos hglitch, ih]
      · rw [if_neg hglitch, if_neg hglitch, List.map_cons, ← ih]
        rfl

end Frames

/-- The frames of a line, at the bit period the decoder works with. -/
def UartSettings.HasFrame (s : UartSettings) (line : BitLane) (period start : UInt64) : Prop :=
  s.resolveBitPeriod line = some period ∧
    start ∈ frameStarts s line period 0 (line.edgesTo s.start)

/-- The words of a line. -/
def UartSettings.words (s : UartSettings) (line : BitLane) : List DecodedWord :=
  match s.resolveBitPeriod line with
  | none => []
  | some period =>
    (frameStarts s line period 0 (line.edgesTo s.start)).map (frameWord s line period)

/-- The one row of a line. -/
theorem UartSettings.decode_line (s : UartSettings) (line : BitLane) :
    s.decode [some line] = [{ name := "Data", words := s.words line }] := by
  cases hperiod : s.resolveBitPeriod line with
  | none => simp [decode, words, LINE, hperiod]
  | some period => simp [decode, words, LINE, hperiod, decodeFrames_eq]

theorem UartSettings.mem_words {s : UartSettings} {line : BitLane} {word : DecodedWord} :
    word ∈ s.words line ↔
      ∃ period start, s.HasFrame line period start ∧ frameWord s line period start = word := by
  unfold words HasFrame
  cases s.resolveBitPeriod line with
  | none => simp
  | some period => simp

/-! ## Samples -/

/-- The sample is a clean 0 or 1. -/
def CleanSample (sample : Option Bit) : Prop := sample = some .zero ∨ sample = some .one

instance (sample : Option Bit) : Decidable (CleanSample sample) :=
  inferInstanceAs (Decidable (_ ∨ _))

section Samples

variable (s : UartSettings) (line : BitLane) (period start : UInt64)

/-- The sample at the centre of a bit of a frame. -/
def sampleAt (index : ℕ) : Option Bit := line.valueAt (centre start period index)

/-- The number of logical ones among the first `count` bits behind the start bit. The idle level is
a logical one. -/
def marks (count : ℕ) : ℕ :=
  (List.range count).countP fun i => sampleAt line period start (i + 1) = some s.idle

/-- One more bit. -/
theorem marks_succ (count : ℕ) :
    marks s line period start (count + 1) = marks s line period start count
      + if sampleAt line period start (count + 1) = some s.idle then 1 else 0 := by
  rw [marks, marks, List.range_succ, List.countP_append, List.countP_singleton]
  simp only [decide_eq_true_eq]

variable {s}

theorem readBit_ones (acc : FrameBits) (i : ℕ) :
    (readBit s line start period acc i).ones = acc.ones
      + if sampleAt line period start (i + 1) = some s.idle then 1 else 0 := by
  have hidle : s.idle ≠ .invalid := by
    unfold UartSettings.idle
    split <;> simp
  unfold readBit sampleAt
  split
  next h => simp [h, hidle.symm]
  next h => simp [h]
  next b _ h => simp [h]

theorem readBit_invalid (acc : FrameBits) (i : ℕ) :
    (readBit s line start period acc i).invalid
      = (acc.invalid || !decide (CleanSample (sampleAt line period start (i + 1)))) := by
  unfold readBit sampleAt
  split
  next h => simp [h, CleanSample]
  next h => simp [h, CleanSample]
  next b hb h =>
    rw [h]
    cases b with
    | zero => simp [CleanSample]
    | one => simp [CleanSample]
    | invalid => exact absurd rfl hb

/-- The ones of the data bits are counted, and an unclean bit is remembered. -/
theorem readBits_eq :
    (readBits s line start period).ones = marks s line period start s.clampedDataBits ∧
      ((readBits s line start period).invalid = false ↔
        ∀ i < s.clampedDataBits, CleanSample (sampleAt line period start (i + 1))) := by
  unfold readBits
  induction s.clampedDataBits with
  | zero => simp [marks]
  | succ count ih =>
    obtain ⟨hones, hinvalid⟩ := ih
    rw [List.range_succ, List.foldl_append, List.foldl_cons, List.foldl_nil]
    refine ⟨?_, ?_⟩
    · rw [readBit_ones, hones, marks_succ]
    · rw [readBit_invalid, Bool.or_eq_false_iff, hinvalid, Nat.forall_lt_succ_right]
      simp

end Samples

/-! ## What makes a word data -/

section Data

variable (s : UartSettings) (line : BitLane) (period start : UInt64)

/-- The data bits of the frame are clean. -/
def DataClean : Prop := ∀ i < s.clampedDataBits, CleanSample (sampleAt line period start (i + 1))

/-- The sample of the parity bit. -/
def paritySample : Option Bit := sampleAt line period start (s.clampedDataBits + 1)

/-- The level of the parity bit passes the check of the decoder, for which anything but a 1 is a
0. -/
def ParityPasses : Prop :=
  paritySample s line period start = some .one ↔
    (marks s line period start s.clampedDataBits % 2 = 1 ↔ s.parity = .even)

/-- Every stop bit is at the idle level. -/
def StopsIdle : Prop :=
  ∀ i < s.clampedStopBits,
    sampleAt line period start (s.clampedDataBits + s.parityBits + 1 + i) = some s.idle

instance : Decidable (DataClean s line period start) := by
  unfold DataClean
  infer_instance

instance : Decidable (ParityPasses s line period start) := by
  unfold ParityPasses
  infer_instance

instance : Decidable (StopsIdle s line period start) := by
  unfold StopsIdle
  infer_instance

/-- What is wrong with a frame: an unclean bit, then the parity, then the stop bits. -/
theorem frameError_eq :
    frameError s line start period (readBits s line start period) =
      if ¬ DataClean s line period start then some "x"
      else if s.parity ≠ .none ∧ ¬ ParityPasses s line period start then some "parity"
      else if ¬ StopsIdle s line period start then some "framing"
      else none := by
  obtain ⟨hones, hinvalid⟩ := readBits_eq (s := s) line period start
  have hdata : (readBits s line start period).invalid = true ↔ ¬ DataClean s line period start := by
    rw [DataClean, ← hinvalid, Bool.not_eq_false]
  have hstops : ((List.range s.clampedStopBits).map fun i =>
      line.valueAt (centre start period (s.clampedDataBits + s.parityBits + 1 + i))).any
        (· ≠ some s.idle) = true ↔ ¬ StopsIdle s line period start := by
    simp [StopsIdle, sampleAt]
  simp only [frameError, hdata, hstops, hones, ParityPasses, paritySample, sampleAt, ne_eq,
    eq_iff_iff]
  congr

/-- A word is marked as data when its data bits are clean, the parity check passes, and the stop bits
are at the idle level. -/
theorem frameWord_kind :
    (frameWord s line period start).kind = .data ↔
      DataClean s line period start ∧
      (s.parity ≠ .none → ParityPasses s line period start) ∧ StopsIdle s line period start := by
  rw [← not_and_not_right, frameWord, frameError_eq]
  by_cases hdata : DataClean s line period start
  · by_cases hparity : s.parity ≠ .none ∧ ¬ ParityPasses s line period start
    · simp [hdata, hparity]
    · by_cases hstops : StopsIdle s line period start
      · simp [hdata, hparity, hstops]
      · simp [hdata, hparity, hstops]
  · simp [hdata]

end Data

/-! ## Soundness of data words -/

/-- Every sample of a frame is as it should be. -/
structure FrameSound (s : UartSettings) (line : BitLane) (period start : UInt64) : Prop where
  startBit : sampleAt line period start 0 = some s.start
  data : DataClean s line period start
  /-- The parity bit is clean, and makes the number of logical ones even or odd. -/
  parity : s.parity ≠ .none → CleanSample (paritySample s line period start) ∧
    (marks s line period start (s.clampedDataBits + 1) % 2 = 0 ↔ s.parity = .even)
  stops : StopsIdle s line period start

/-- A word is marked as data only if the samples of its frame are as they should be. -/
def DataSound (s : UartSettings) (line : BitLane) : Prop :=
  ∀ lane ∈ s.decode [some line], ∀ word ∈ lane.words, word.kind = .data →
    ∃ period, s.resolveBitPeriod line = some period ∧ FrameSound s line period word.start

section Soundness

variable {s : UartSettings} {line : BitLane} {period start : UInt64}

/-- A frame was found at an edge whose level holds up to the centre of the start bit. -/
theorem sampleAt_zero_of_mem_frameStarts {nextFree : UInt64} {edges : List UInt64}
    (h : start ∈ frameStarts s line period nextFree edges) :
    sampleAt line period start 0 = some s.start := by
  induction edges generalizing nextFree with
  | nil => simp [frameStarts] at h
  | cons edge rest ih =>
    rw [frameStarts] at h
    split at h
    · exact ih h
    · split at h
      · exact ih h
      next hholds =>
        rcases List.mem_cons.1 h with rfl | h
        · exact not_not.1 hholds
        · exact ih h

/-- When the parity bit is clean, the check of the decoder asks for the right number of logical ones
exactly on a line that idles high: it compares the level of the bit, which is inverted on a line that
idles low. -/
theorem parityPasses_iff (hclean : CleanSample (paritySample s line period start)) :
    ParityPasses s line period start ↔
      ((marks s line period start (s.clampedDataBits + 1) % 2 = 0 ↔ s.parity = .even) ↔
        s.idleHigh = true) := by
  rw [marks_succ, ParityPasses]
  have hsample : sampleAt line period start (s.clampedDataBits + 1)
      = paritySample s line period start := rfl
  rw [hsample]
  generalize marks s line period start s.clampedDataBits = ones
  cases hidle : s.idleHigh with
  | true =>
    have hone : s.idle = .one := by rw [UartSettings.idle, hidle, if_pos rfl]
    rcases hclean with h | h <;> rw [h, hone] <;> simp <;> grind
  | false =>
    have hzero : s.idle = .zero := by rw [UartSettings.idle, hidle]; rfl
    rcases hclean with h | h <;> rw [h, hzero] <;> simp <;> grind

/-- Words are marked as data soundly exactly when the parity bit of every frame with clean data bits
and idle stop bits is either clean, on a line that idles high, or fails the check of the decoder. -/
theorem dataSound_iff (s : UartSettings) (line : BitLane) :
    DataSound s line ↔
      ∀ period start, s.HasFrame line period start → s.parity ≠ .none →
        DataClean s line period start → StopsIdle s line period start →
          s.idleHigh = true ∧ CleanSample (paritySample s line period start) ∨
            ¬ ParityPasses s line period start := by
  constructor
  · intro h period start hframe hparity hdata hstops
    by_contra hcond
    rw [not_or, not_not] at hcond
    have hkind : (frameWord s line period start).kind = .data :=
      (frameWord_kind s line period start).2 ⟨hdata, fun _ => hcond.2, hstops⟩
    obtain ⟨period', hperiod', hsound⟩ := h _ (by rw [s.decode_line]; exact List.mem_singleton_self _)
      _ (UartSettings.mem_words.2 ⟨period, start, hframe, rfl⟩) hkind
    obtain rfl : period = period' := Option.some.inj (hframe.1.symm.trans hperiod')
    obtain ⟨hclean, hmarks⟩ := hsound.parity hparity
    -- the bit is clean and the number of ones is right, so the line idles high
    exact hcond.1 ⟨((parityPasses_iff hclean).1 hcond.2).1 hmarks, hclean⟩
  · intro h lane hlane word hword hkind
    rw [s.decode_line, List.mem_singleton] at hlane
    subst hlane
    obtain ⟨period, start, hframe, rfl⟩ := UartSettings.mem_words.1 hword
    obtain ⟨hdata, hpasses, hstops⟩ := (frameWord_kind s line period start).1 hkind
    refine ⟨period, hframe.1, ?_⟩
    exact
      { startBit := sampleAt_zero_of_mem_frameStarts hframe.2
        data := hdata
        parity := by
          intro hparity
          rcases h period start hframe hparity hdata hstops with ⟨hidle, hclean⟩ | hfails
          · exact ⟨hclean, ((parityPasses_iff hclean).1 (hpasses hparity)).2 hidle⟩
          · exact absurd (hpasses hparity) hfails
        stops := hstops }

/-- Even parity, at ten ticks a bit. -/
def evenParity : UartSettings :=
  { UartSettings.default with bitPeriod := some 10, parity := .even }

/-- A frame of eight zeros whose parity bit is unknown. -/
def unknownParityBit : BitLane := ⟨[(0, .one), (10, .zero), (100, .invalid), (110, .one)]⟩

/-- The unknown bit counts as a 0, and passes. -/
theorem not_dataSound_unknownParityBit : ¬ DataSound evenParity unknownParityBit := by
  intro h
  let word : DecodedWord := { start := 10, end_ := 120, text := "00", kind := .data }
  have hdecode : evenParity.decode [some unknownParityBit] = [{ name := "Data", words := [word] }] := by
    decide
  rw [DataSound, hdecode] at h
  obtain ⟨period, hperiod, hsound⟩ :=
    h _ (List.mem_singleton_self _) word (List.mem_singleton_self _) rfl
  obtain rfl : 10 = period := Option.some.inj hperiod
  exact absurd (hsound.parity (by decide)).1 (by decide)

end Soundness

end Decoders.Uart
