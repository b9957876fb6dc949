import Kahuna.Decoders.Basic

/-!
# The SPI decoder

The model of `decoders/spi.rs`. MOSI and MISO are sampled on the clock edge selected by CPOL and
CPHA, gated by chip select, and the sampled bits are grouped into words.
-/

namespace Decoders.Spi

/-- Role indices. Positional in saved state. -/
def SCLK : ℕ := 0

@[inherit_doc SCLK]
def MOSI : ℕ := 1

@[inherit_doc SCLK]
def MISO : ℕ := 2

@[inherit_doc SCLK]
def CS : ℕ := 3

/-- The settings of an SPI decoder. -/
structure SpiSettings where
  /-- Clock polarity: the idle level of SCLK. -/
  cpol : Bool
  /-- Clock phase: `false` samples on the leading edge, `true` on the trailing edge. -/
  cpha : Bool
  bitOrder : BitOrder
  /-- Bits per word, a `u32`. -/
  wordSize : ℕ
  format : WordFormat
  /-- Whether chip select is active low. -/
  csActiveLow : Bool
  deriving DecidableEq, Repr

namespace SpiSettings

/-- Mode 0, 8-bit, MSB first, active-low CS. -/
def default : SpiSettings :=
  { cpol := false
    cpha := false
    bitOrder := .msbFirst
    wordSize := 8
    format := .hex
    csActiveLow := true }

/-- Names of the rows of an SPI decoder. -/
def laneNames : List String := ["MOSI", "MISO"]

/-- The SCLK level whose arrival latches a bit. -/
def samplingLevel (s : SpiSettings) : Bit :=
  let leadingIsRise := !s.cpol
  let sampleOnLeading := !s.cpha
  if leadingIsRise = sampleOnLeading then .one else .zero

/-- The word size the decoder works with, `word_size.clamp(1, 64)`. -/
def clampedWordSize (s : SpiSettings) : ℕ := max 1 (min s.wordSize 64)

/-- Chip select is at its active level. Before CS has any value, or while it is `x` or `z`, it is
not. -/
def isSelected (s : SpiSettings) (cs : BitLane) (t : UInt64) : Bool :=
  match cs.valueAt t with
  | some .one => !s.csActiveLow
  | some .zero => s.csActiveLow
  | _ => false

/-- The device is selected at `t`: always, when no CS lane is bound. -/
def selectedAt (s : SpiSettings) (cs : Option BitLane) (t : UInt64) : Bool :=
  cs.all fun cs => s.isSelected cs t

end SpiSettings

/-! ## The decoding loop -/

/-- The variables of the decoding loop. -/
structure DecodeState where
  words : List DecodedWord
  acc : UInt64
  count : ℕ
  wordStart : UInt64
  invalid : Bool
  wasSelected : Bool
  deriving DecidableEq, Repr

/-- The variables before the first sampling edge. -/
def DecodeState.init : DecodeState :=
  { words := [], acc := 0, count := 0, wordStart := 0, invalid := false, wasSelected := false }

/-- The text of a word cut short. -/
def cutText (count wordSize : ℕ) : String :=
  toString count ++ " of " ++ toString wordSize ++ " bits"

/-- The accumulator after a bit in slot `count`. A bit that is not clean leaves it as it was. -/
def shiftIn (order : BitOrder) (acc : UInt64) (count : ℕ) (bit : Option Bit) : UInt64 :=
  if bit = some .zero ∨ bit = some .one then
    let b : UInt64 := if bit = some .one then 1 else 0
    match order with
    | .msbFirst => (acc <<< 1) ||| b
    | .lsbFirst => acc ||| (b <<< UInt64.ofNat count)
  else acc

/-- The bit is not a clean 0 or 1. -/
def isBad (bit : Option Bit) : Bool := ¬ (bit = some .zero ∨ bit = some .one)

/-- The body of the loop over the sampling edges. -/
def step (s : SpiSettings) (data : BitLane) (cs : Option BitLane) (wordSize : ℕ)
    (st : DecodeState) (t : UInt64) : DecodeState :=
  let selected := s.selectedAt cs t
  -- A deassert mid-word is reported when the loop next looks at CS, at a sampling edge.
  let st :=
    if st.wasSelected ∧ ¬ selected ∧ 0 < st.count then
      { st with
        words := st.words ++ [{
          start := st.wordStart, end_ := t, text := cutText st.count wordSize, kind := .error }]
        acc := 0
        count := 0
        invalid := false }
    else st
  let st := { st with wasSelected := selected }
  if ¬ selected then st
  else
    let bit := data.valueAt t
    let st := {
      st with
      wordStart := if st.count = 0 then t else st.wordStart
      acc := shiftIn s.bitOrder st.acc st.count bit
      invalid := st.invalid || isBad bit
      count := st.count + 1 }
    if st.count = wordSize then
      { st with
        words := st.words ++ [{
          start := st.wordStart
          end_ := t
          text := if st.invalid then "x" else s.format.format st.acc.toNat wordSize
          kind := if st.invalid then .error else .data }]
        acc := 0
        count := 0
        invalid := false }
    else st

/-- The words after the loop: a word left in progress when the trace ends is incomplete. -/
def finish (sampleTimes : List UInt64) (wordSize : ℕ) (st : DecodeState) : List DecodedWord :=
  if 0 < st.count then
    st.words ++ [{
      start := st.wordStart
      end_ := sampleTimes.getLast?.getD st.wordStart
      text := cutText st.count wordSize
      kind := .error }]
  else st.words

/-- Stretch each word to meet the next. -/
def stretch : List DecodedWord → List DecodedWord
  | [] => []
  | [w] => [w]
  | w :: next :: rest => { w with end_ := next.start } :: stretch (next :: rest)

/-- The words of one data lane. -/
def decodeOne (s : SpiSettings) (data : BitLane) (cs : Option BitLane) (sampleTimes : List UInt64)
    (wordSize : ℕ) : List DecodedWord :=
  stretch (finish sampleTimes wordSize
    (sampleTimes.foldl (step s data cs wordSize) .init))

/-- Decode `lanes`, which are indexed by the `SCLK`, `MOSI`, `MISO` and `CS` roles. -/
def SpiSettings.decode (s : SpiSettings) (lanes : List (Option BitLane)) : List DecodedLane :=
  match lanes[SCLK]? with
  | some (some sclk) =>
    let cs := lanes[CS]?.join
    let wordSize := s.clampedWordSize
    let sampleTimes := sclk.edgesTo s.samplingLevel
    (([MOSI, MISO] : List ℕ).zip laneNames).map fun (dataIdx, name) =>
      { name
        words := match lanes[dataIdx]?.join with
          | some data => decodeOne s data cs sampleTimes wordSize
          | none => [] }
  | _ => laneNames.map fun name => { name, words := [] }

/-- The words of a data lane of a bus. -/
def decodeLane (s : SpiSettings) (sclk data : BitLane) (cs : Option BitLane) : List DecodedWord :=
  decodeOne s data cs (sclk.edgesTo s.samplingLevel) s.clampedWordSize

/-- The two rows of a bus with a clock. -/
theorem SpiSettings.decode_bus (s : SpiSettings) (sclk : BitLane) (mosi miso cs : Option BitLane) :
    s.decode [some sclk, mosi, miso, cs] =
      [{ name := "MOSI", words := (mosi.map fun data => decodeLane s sclk data cs).getD [] },
       { name := "MISO", words := (miso.map fun data => decodeLane s sclk data cs).getD [] }] := by
  cases mosi <;> cases miso <;> rfl

/-- The rows of any lanes: without a clock they are empty, and so is the row of a role without a lane. -/
theorem SpiSettings.decode_eq (s : SpiSettings) (lanes : List (Option BitLane)) :
    s.decode lanes =
      lanes[SCLK]?.join.elim (laneNames.map fun name => { name, words := [] }) fun sclk =>
        (([MOSI, MISO] : List ℕ).zip laneNames).map fun entry =>
          { name := entry.2
            words := lanes[entry.1]?.join.elim [] fun data =>
              decodeOne s data lanes[CS]?.join (sclk.edgesTo s.samplingLevel) s.clampedWordSize } := by
  unfold decode
  rcases lanes[SCLK]? with _ | _ | sclk
  · rfl
  · rfl
  · show List.map _ _ = List.map _ _
    refine List.map_congr_left fun entry _ => ?_
    dsimp only
    cases lanes[entry.1]?.join with
    | none => rfl
    | some data => rfl

theorem SpiSettings.clampedWordSize_pos (s : SpiSettings) : 0 < s.clampedWordSize := by
  simp [clampedWordSize]

/-! ## What stretching leaves alone -/

/-- What a word shows, apart from where it ends. -/
def shown (w : DecodedWord) : UInt64 × String × WordKind := (w.start, w.text, w.kind)

/-- Stretching moves only the ends of the words. -/
theorem map_shown_stretch (words : List DecodedWord) :
    (stretch words).map shown = words.map shown := by
  induction words using stretch.induct with
  | case1 => rfl
  | case2 w => rfl
  | case3 w next rest ih =>
    rw [stretch, List.map_cons, ih]
    rfl

end Decoders.Spi
