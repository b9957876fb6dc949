import Kahuna.Cxxrtl.QueryContainer
import Kahuna.Translation.Basic
import Mathlib.Data.Nat.Digits.Defs
import Mathlib.Data.Rat.Defs

/-!
# Drawing a variable

The model of `variable_digital_draw_commands` (`drawing_canvas.rs`). The loop goes over the pixels with their times,
from the second one on. It asks for the value at the time of a pixel, translates it, and pushes a region for each
field of the translation whose value is new. It does not ask before the pixel of the next change.

The wave container, the translator and the viewport are a parameter, `Source`. Whether the loop passes over pixels
is another one, so that it can be compared with the loop that asks for the value at each of them.
-/

namespace Digital

open Cxxrtl (QueryResult)
open Wave (VariableValue)

/-! ## Regions -/

/-- `TranslatedValue`. -/
structure TranslatedValue where
  value : String
  kind : Translation.ValueKind
  deriving DecidableEq

/-- `TraceStyle`. -/
inductive TraceStyle where
  | default
  | dinotrace
  | zero
  deriving DecidableEq

/-- `TraceValue`. -/
inductive TraceValue where
  | normal
  | allZeros
  | allZerosThick
  | allOnes
  deriving DecidableEq

/-- `TraceValue::from_value`. -/
def TraceValue.fromValue (val : VariableValue) (numBits : Option ℕ) (traceStyle : TraceStyle) : TraceValue :=
  if traceStyle = .default then .normal
  else
    match val with
    | .bigUint u =>
      if u = 0 then if traceStyle = .dinotrace then .allZerosThick else .allZeros
      else if traceStyle = .dinotrace ∧ numBits = some (Nat.digits 2 u).sum then .allOnes
      else .normal
    | .string _ => .normal

/-- `DrawnRegion`. -/
structure DrawnRegion where
  inner : Option TranslatedValue
  forceAntiAlias : Bool
  traceValue : TraceValue
  deriving DecidableEq

/-- `VariableInfo`. -/
inductive VariableInfo where
  | compound (subfields : List (String × VariableInfo))
  | bits
  | bool
  | clock
  | string
  | event
  | real

/-- `get_subinfo`, which panics where there is no such field. -/
def VariableInfo.getSubinfo : VariableInfo → List String → Run VariableInfo
  | info, [] => .ok info
  | .compound subfields, field :: rest =>
    match subfields.find? fun e => e.1 = field with
    | some (_, info) => info.getSubinfo rest
    | none => .error .unwrap
  | _, _ :: _ => .error (.assertion "explicit panic")

/-- `DigitalDrawingType`. -/
inductive DigitalDrawingType where
  | bool
  | clock
  | event
  | vector
  deriving DecidableEq

/-- The type that a field is drawn with. -/
def DigitalDrawingType.ofInfo : VariableInfo → DigitalDrawingType
  | .bool => .bool
  | .clock => .clock
  | .event => .event
  | _ => .vector

/-- `DigitalDrawingCommands`. -/
structure DigitalDrawingCommands where
  drawingType : DigitalDrawingType
  values : List (ℚ × DrawnRegion)
  deriving DecidableEq

/-- `DigitalDrawingCommands::new_from_variable_info`. -/
def DigitalDrawingCommands.newFromVariableInfo (info : VariableInfo) : DigitalDrawingCommands :=
  { drawingType := .ofInfo info, values := [] }

/-- `DigitalDrawingCommands::push`. -/
def DigitalDrawingCommands.push (commands : DigitalDrawingCommands) (val : ℚ × DrawnRegion) :
    DigitalDrawingCommands :=
  { commands with values := commands.values ++ [val] }

/-! ## The loop -/

/-- What the loop asks. -/
structure Source where
  /-- `query_variable`, of the wave container, for the variable. -/
  query : ℕ → Except String (Option QueryResult)
  /-- `pixel_from_time`, of the viewport. -/
  pixelFromTime : ℕ → ℚ
  /-- The fields of a translated value, `translate` and then `format_flat`. -/
  translate : VariableValue → Except String (List (List String × Option TranslatedValue))
  info : VariableInfo
  numBits : Option ℕ
  traceStyle : TraceStyle
  wantsAntiAliasing : Bool

/-- The pixels that are not passed over. -/
structure Bounds where
  firstPixel : ℚ
  startPixel : ℚ
  endPixel : ℚ

/-- The bounds of a list of pixels with their times. -/
def Bounds.of (timestamps : List (ℚ × ℕ)) : Bounds where
  firstPixel := (timestamps.head?.map Prod.fst).getD 0
  startPixel := (timestamps[1]?.map Prod.fst).getD 0
  endPixel := (timestamps.getLast?.map Prod.fst).getD 0

/-- What the loop draws. -/
structure Drawn where
  localCommands : FiniteMap (List String) DigitalDrawingCommands
  prevValues : FiniteMap (List String) (Option TranslatedValue)
  clockEdges : List ℚ

/-- Nothing is drawn yet. -/
def Drawn.nothing : Drawn := { localCommands := .empty, prevValues := .empty, clockEdges := [] }

/-- What is known of the pixel of the loop. -/
structure Pixel where
  pixel : ℚ
  prevTime : ℕ
  time : ℕ
  isFirst : Bool
  isLast : Bool

/-- The loop looks at a pixel. -/
def Pixel.at (bounds : Bounds) (prevTime : ℕ) (e : ℚ × ℕ) : Pixel where
  pixel := e.1
  prevTime := prevTime
  time := e.2
  isFirst := e.1 = bounds.startPixel
  isLast := e.1 = bounds.endPixel

namespace Source

variable (src : Source)

/-- The commands of a field, which are added if there are none. -/
def entry (localCommands : FiniteMap (List String) DigitalDrawingCommands) (names : List String) :
    Run (DigitalDrawingCommands × FiniteMap (List String) DigitalDrawingCommands) :=
  match localCommands.get names with
  | some entry => .ok (entry, localCommands)
  | none => do
    let info ← src.info.getSubinfo names
    return (.newFromVariableInfo info, localCommands.insert names (.newFromVariableInfo info))

/-- One field of a value that has changed at a time. -/
def drawField (p : Pixel) (changeTime : ℕ) (traceValue : TraceValue) (drawn : Drawn)
    (field : List String × Option TranslatedValue) : Run Drawn := do
  let (names, value) := field
  let (entry, localCommands) ← src.entry drawn.localCommands names
  let antiAlias : Bool := p.prevTime < changeTime ∧ names = [] ∧ src.wantsAntiAliasing = true
  let newValue : Bool := drawn.prevValues.get names ≠ some value
  -- this is not the value that was drawn last time
  if newValue || p.isLast || antiAlias then
    let isEdge : Bool := entry.drawingType = .clock ∧ value.map TranslatedValue.value = some "1" ∧
      p.isLast = false ∧ p.isFirst = false
    return {
      localCommands := localCommands.insert names
        (entry.push (p.pixel, { inner := value, forceAntiAlias := antiAlias && !newValue, traceValue }))
      prevValues := drawn.prevValues.insert names value
      clockEdges := if isEdge then drawn.clockEdges ++ [p.pixel] else drawn.clockEdges }
  else return { drawn with localCommands }

/-- What is drawn at a pixel, for a result. Nothing is drawn any more when the translation fails. -/
def draw (p : Pixel) (res : Except String (Option QueryResult)) (drawn : Drawn) : Run (Option Drawn) :=
  match res with
  | .ok (some { current := some (changeTime, val), next := _ }) =>
    -- the value is the one at the pixel before
    if changeTime < p.prevTime ∧ p.isFirst = false ∧ p.isLast = false then .ok (some drawn)
    else
      match src.translate val with
      | .error _ => .ok none
      | .ok fields => do
        let drawn ← fields.foldlM
          (src.drawField p changeTime (.fromValue val src.numBits src.traceStyle)) drawn
        return some drawn
  | _ => .ok (some drawn)

/-- The pixel from which on the value is asked for again. -/
def nextChange (bounds : Bounds) (res : Except String (Option QueryResult)) : ℚ :=
  match res with
  | .ok (some { current := _, next := some timestamp }) => src.pixelFromTime timestamp
  | .ok _ => bounds.endPixel
  | .error _ => bounds.firstPixel

/-- The loop goes on unless the translation has failed. -/
def ifDrawn {α : Type} (result : Run (Option Drawn)) (next : Drawn → Run (Option α)) : Run (Option α) :=
  match result with
  | .error panic => .error panic
  | .ok none => .ok none
  | .ok (some drawn) => next drawn

/-- The loop over the pixels behind one with a time. -/
def loop (bounds : Bounds) (skipping : Bool) : ℕ → List (ℚ × ℕ) → ℚ × Drawn → Run (Option (ℚ × Drawn))
  | _, [], s => .ok (some s)
  | prevTime, e :: rest, s =>
    let p := Pixel.at bounds prevTime e
    if skipping && e.1 < s.1 && !p.isFirst && !p.isLast then loop bounds skipping e.2 rest s
    else
      let res := src.query e.2
      ifDrawn (src.draw p res s.2) fun drawn =>
        loop bounds skipping e.2 rest (src.nextChange bounds res, drawn)

end Source

/-- `VariableDrawCommands`. -/
structure VariableDrawCommands where
  drawClockEdges : Bool
  clockEdges : List ℚ
  localCommands : FiniteMap (List String) DigitalDrawingCommands

/-- Clock edges are drawn when the first two are far enough from each other. -/
def drawsClockEdges : List ℚ → Bool
  | [] => false
  | [_] => true
  | first :: second :: _ => 20 < second - first

/-- `variable_digital_draw_commands`, with or without passing over pixels. -/
def Source.variableDigitalDrawCommands (src : Source) (skipping : Bool) (timestamps : List (ℚ × ℕ)) :
    Run (Option VariableDrawCommands) :=
  let bounds := Bounds.of timestamps
  let passes : Run (Option Drawn) := match timestamps with
    | [] => .ok (some Drawn.nothing)
    | first :: rest =>
      Option.map Prod.snd <$> src.loop bounds skipping first.2 rest (bounds.firstPixel, Drawn.nothing)
  Source.ifDrawn passes fun drawn => .ok (some {
    drawClockEdges := drawsClockEdges drawn.clockEdges
    clockEdges := drawn.clockEdges
    localCommands := drawn.localCommands })

end Digital
