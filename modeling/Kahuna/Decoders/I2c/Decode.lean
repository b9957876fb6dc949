import Kahuna.Decoders.Basic
import Mathlib.Data.List.Sort

/-!
# The I2C decoder

The model of `decoders/i2c.rs`. The output is a token stream: a transaction reads `S`, `50 W`, `A`,
`00`, `A`, `P`. Decoding runs in two passes: `collectEvents` extracts the START and STOP conditions
and the sampling edges from the two lanes, and `step` is the body of the loop over these events in
time order.
-/

namespace Decoders.I2c

/-- Role indices. Positional in saved state. -/
def SCL : ℕ := 0

@[inherit_doc SCL]
def SDA : ℕ := 1

/-- The settings of an I2C decoder. -/
structure I2cSettings where
  /-- Show the 7-bit address with its read/write bit split out, rather than the raw 8-bit frame. -/
  splitAddress : Bool
  format : WordFormat
  deriving DecidableEq, Repr

/-- The default settings. -/
def I2cSettings.default : I2cSettings := { splitAddress := true, format := .hex }

/-- What happened at a given time on the bus. A `sample` is a rising SCL edge, which latches
whatever SDA holds. -/
inductive Event where
  | start
  | stop
  | sample (bit : Bit)
  deriving DecidableEq, Repr

/-! ## Event extraction -/

/-- START and STOP are SDA moving while SCL is high: the loop over the SDA changes, with the
previous SDA value. -/
def startStops (scl : BitLane) : Option Bit → List (UInt64 × Bit) → List (UInt64 × Event)
  | _, [] => []
  | prev, (t, v) :: rest =>
    let here :=
      if prev.any (· ≠ v) ∧ scl.valueAt t = some .one then
        match v with
        | .zero => [(t, Event.start)]
        | .one => [(t, Event.stop)]
        | .invalid => []
      else []
    here ++ startStops scl (some v) rest

/-- The first falling SCL edge after `t`, `u64::MAX` when there is none. -/
def nextFall (falls : List UInt64) (t : UInt64) : UInt64 :=
  (falls[partitionPoint (fun f => f ≤ t) falls]?).getD (UInt64.ofNat (UInt64.size - 1))

/-- SDA moves after `t` and before `fall`. -/
def sdaMoves (sda : BitLane) (t fall : UInt64) : Bool :=
  (sda.changes[partitionPoint (fun c => c.1 ≤ t) sda.changes]?).any (fun c => c.1 < fall)

/-- A rising SCL edge latches a data bit only if SDA stays put for the whole high phase. -/
def samples (scl sda : BitLane) : List (UInt64 × Event) :=
  let falls := scl.edgesTo .zero
  (scl.edgesTo .one).filterMap fun t =>
    if sdaMoves sda t (nextFall falls t) then none
    else some (t, .sample ((sda.valueAt t).getD .invalid))

/-- Find the START/STOP conditions and the sampling edges. -/
def collectEvents (scl sda : BitLane) : List (UInt64 × Event) :=
  startStops scl none sda.changes ++ samples scl sda

/-- The events of a bus in time order, as the decoding loop sees them: `sort_by_key` is stable, and
so is insertion sort. -/
def busEvents (scl sda : BitLane) : List (UInt64 × Event) :=
  (collectEvents scl sda).insertionSort (fun a b => a.1 ≤ b.1)

/-! ## The decoding loop -/

/-- The variables of the decoding loop. -/
structure DecodeState where
  words : List DecodedWord
  inTransaction : Bool
  bits : ℕ
  acc : UInt64
  byteStart : UInt64
  /-- The first byte after a START is the address; the rest are data. -/
  expectAddress : Bool
  deriving DecidableEq, Repr

/-- The variables before the first event. -/
def DecodeState.init : DecodeState :=
  { words := [], inTransaction := false, bits := 0, acc := 0, byteStart := 0,
    expectAddress := false }

/-- Append a token one clock period wide. -/
def push (clockPeriod : UInt64) (words : List DecodedWord) (start : UInt64) (text : String)
    (kind : WordKind) : List DecodedWord :=
  words ++ [{ start, end_ := start + clockPeriod, text, kind }]

/-- The text of a word cut short after `bits` bits. -/
def cutText (bits : ℕ) : String := toString bits ++ " of 8 bits"

/-- The mark of an unreliable byte, the top bit of the accumulator. -/
def mark : UInt64 := (1 : UInt64) <<< 63

/-- The accumulator after latching `bit`: shifted by one, and marked when the bit is invalid. -/
def latch (acc : UInt64) (bit : Bit) : UInt64 :=
  let acc := (acc <<< 1) ||| (if bit = .one then 1 else 0)
  if bit = .invalid then acc ||| mark else acc

/-- The byte in the accumulator carries the mark. -/
def unreliable (acc : UInt64) : Bool := acc &&& mark ≠ 0

/-- The text of a byte token. -/
def byteText (s : I2cSettings) (expectAddress : Bool) (acc : UInt64) : String :=
  let byte := acc &&& 0xFF
  if unreliable acc then "x"
  else if expectAddress && s.splitAddress then
    s.format.format (byte >>> 1).toNat 7 ++ " " ++ (if byte &&& 1 = 0 then "W" else "R")
  else s.format.format byte.toNat 8

/-- The body of the decoding loop. -/
def step (s : I2cSettings) (clockPeriod : UInt64) (st : DecodeState) :
    UInt64 × Event → DecodeState
  | (time, .start) =>
    -- A START inside a transaction is a repeated start, which keeps the bus held.
    { st with
      words := push clockPeriod st.words time (if st.inTransaction then "Sr" else "S") .data
      inTransaction := true
      expectAddress := true
      bits := 0
      acc := 0 }
  | (time, .stop) =>
    let words :=
      if 0 < st.bits then push clockPeriod st.words st.byteStart (cutText st.bits) .error
      else st.words
    { st with
      words := push clockPeriod words time "P" .data
      inTransaction := false
      bits := 0
      acc := 0 }
  | (time, .sample bit) =>
    if ¬ st.inTransaction then st
    else if st.bits = 8 then
      -- The ninth clock is the acknowledge from the receiver.
      { st with
        words := push clockPeriod st.words time (if bit = .zero then "A" else "N")
          (if bit = .zero then .data else .error)
        bits := 0
        acc := 0
        expectAddress := false }
    else
      let byteStart := if st.bits = 0 then time else st.byteStart
      let acc := latch st.acc bit
      let words :=
        if st.bits + 1 = 8 then
          st.words ++ [{
            start := byteStart
            end_ := time
            text := byteText s st.expectAddress acc
            kind := if unreliable acc then .error else .data }]
        else st.words
      { st with words, bits := st.bits + 1, acc, byteStart }

/-- The words after the loop: a byte left in progress when the trace ends is reported. -/
def finish (clockPeriod : UInt64) (st : DecodeState) : List DecodedWord :=
  if 0 < st.bits then push clockPeriod st.words st.byteStart (cutText st.bits) .error
  else st.words

/-- Close each token at the next one when they are adjacent, but leave real idle gaps alone. -/
def closeGaps (clockPeriod : UInt64) : List DecodedWord → List DecodedWord
  | [] => []
  | [w] => [w]
  | w :: next :: rest =>
    (if next.start > w.start ∧ next.start - w.start ≤ clockPeriod * 2 then
      { w with end_ := next.start } else w) :: closeGaps clockPeriod (next :: rest)

/-- The tokens of an event sequence. -/
def decodeEvents (s : I2cSettings) (clockPeriod : UInt64) (events : List (UInt64 × Event)) :
    List DecodedWord :=
  closeGaps clockPeriod (finish clockPeriod (events.foldl (step s clockPeriod) .init))

/-- The shortest time between two rising SCL edges, 1 when there are fewer than two. It bounds how
wide a token is drawn. -/
def clockPeriod (scl : BitLane) : UInt64 :=
  let rises := scl.edgesTo .one
  ((List.zipWith (fun a b => b - a) rises rises.tail).min?).getD 1

/-- The words of the one row of an I2C decoder. -/
def decodeBus (s : I2cSettings) (scl sda : BitLane) : List DecodedWord :=
  decodeEvents s (clockPeriod scl) (busEvents scl sda)

/-- Names of the rows of an I2C decoder. -/
def I2cSettings.laneNames : List String := ["Bus"]

/-- Decode `lanes`, which are indexed by the `SCL` and `SDA` roles. -/
def I2cSettings.decode (s : I2cSettings) (lanes : List (Option BitLane)) : List DecodedLane :=
  match lanes[SCL]?, lanes[SDA]? with
  | some (some scl), some (some sda) => [{ name := "Bus", words := decodeBus s scl sda }]
  | _, _ => [{ name := "Bus", words := [] }]

@[simp]
theorem I2cSettings.decode_pair (s : I2cSettings) (scl sda : BitLane) :
    s.decode [some scl, some sda] = [{ name := "Bus", words := decodeBus s scl sda }] := rfl

/-- Closing gaps moves only the ends of the tokens. -/
theorem map_content_closeGaps (clockPeriod : UInt64) (words : List DecodedWord) :
    (closeGaps clockPeriod words).map DecodedWord.content = words.map DecodedWord.content := by
  induction words using closeGaps.induct with
  | case1 => rfl
  | case2 w => rfl
  | case3 w next rest ih =>
    rw [closeGaps, List.map_cons, ih]
    split <;> rfl

end Decoders.I2c
