import Kahuna.Numerals.Decimal
import Kahuna.Text.Basic
import Mathlib.Data.Nat.Log

/-!
# Times as texts

The model of `time.rs`: the timescale of a file, how a number of ticks is written with a unit, and
how such a text is read. Texts are lists of characters. The grouping of digits, which depends on the
locale, is left out, so that the number format is always `TimeStringFormatting::No`.

The number in a text is printed from a floating-point number. That printing is a parameter,
`toText`: the text of the floating-point number next to a rational, with a number of places.
-/

namespace Time

open Numerals Text

/-- `TimeUnit`. -/
inductive TimeUnit where
  | zeptoSeconds
  | attoSeconds
  | femtoSeconds
  | picoSeconds
  | nanoSeconds
  | microSeconds
  | milliSeconds
  | seconds
  | none
  | auto
  deriving DecidableEq, Repr

namespace TimeUnit

/-- How a unit is displayed. -/
def display : TimeUnit → List Char
  | zeptoSeconds => ['z', 's']
  | attoSeconds => ['a', 's']
  | femtoSeconds => ['f', 's']
  | picoSeconds => ['p', 's']
  | nanoSeconds => ['n', 's']
  | microSeconds => ['μ', 's']
  | milliSeconds => ['m', 's']
  | seconds => ['s']
  | none => ['N', 'o', ' ', 'u', 'n', 'i', 't']
  | auto => ['A', 'u', 't', 'o']

/-- The power-of-ten exponent of a unit. -/
def exponent : TimeUnit → ℤ
  | zeptoSeconds => -21
  | attoSeconds => -18
  | femtoSeconds => -15
  | picoSeconds => -12
  | nanoSeconds => -9
  | microSeconds => -6
  | milliSeconds => -3
  | seconds => 0
  | none => 0
  | auto => 0

/-- The unit with a power-of-ten exponent. -/
def fromExponent (exponent : ℤ) : Option TimeUnit :=
  if exponent = -21 then some zeptoSeconds
  else if exponent = -18 then some attoSeconds
  else if exponent = -15 then some femtoSeconds
  else if exponent = -12 then some picoSeconds
  else if exponent = -9 then some nanoSeconds
  else if exponent = -6 then some microSeconds
  else if exponent = -3 then some milliSeconds
  else if exponent = 0 then some seconds
  else Option.none

end TimeUnit

/-- `TimeScale`. -/
structure TimeScale where
  unit : TimeUnit
  multiplier : Option ℕ
  deriving DecidableEq, Repr

/-- The number of digits behind the first one of the multiplier. -/
def TimeScale.multiplierDigits (timescale : TimeScale) : ℕ :=
  match timescale.multiplier with
  | some 1 => 0
  | some 10 => 1
  | some 100 => 2
  | some multiplier => Nat.log 10 multiplier
  | none => 0

/-- The multipliers of the timescales that a file can have. -/
def TimeScale.Standard (timescale : TimeScale) : Prop :=
  timescale.multiplier ∈ [none, some 1, some 10, some 100]

/-- The units as they are typed, the longer ones first. -/
def sortedUnits : List (List Char × TimeUnit) :=
  [(['z', 's'], .zeptoSeconds), (['a', 's'], .attoSeconds), (['f', 's'], .femtoSeconds),
    (['p', 's'], .picoSeconds), (['n', 's'], .nanoSeconds), (['μ', 's'], .microSeconds),
    (['u', 's'], .microSeconds), (['m', 's'], .milliSeconds), (['s'], .seconds)]

/-- The number in front of a unit, if the text ends with that unit and a number is left. -/
def numericBefore (trimmed unitStr : List Char) : Option (List Char) :=
  if unitStr <:+ trimmed then
    let afterNumber := trimmed.length - unitStr.length
    if 0 < afterNumber then
      let numeric := trimEnd (trimmed.take afterNumber)
      match numeric.getLast? with
      | some lastChar => if lastChar.isDigit ∨ lastChar = '.' then some numeric else none
      | none => none
    else none
  else none

/-- The number and the unit of a text. -/
def parseTimeInput (input : List Char) : List Char × Option TimeUnit :=
  let trimmed := trim input
  match sortedUnits.findSome? fun unit =>
      (numericBefore trimmed unit.1).map fun numeric => (numeric, some unit.2) with
  | some parsed => parsed
  | none => (trimmed, none)

/-- The digits before and after the point of a number. -/
def splitNumericParts (numericStr : List Char) : Except String (List Char × List Char) :=
  let trimmed := trim numericStr
  if trimmed.isEmpty then .error "Empty input"
  else if trimmed.head? = some '-' then .error "Negative numbers not supported"
  else
    let normalized := if trimmed.head? = some '+' then trimmed.tail else trimmed
    let parts := normalized.splitOn '.'
    let integerPart := parts[0]?.getD []
    let fractionalPart := parts[1]?.getD []
    if parts[2]?.isSome then .error "Invalid number: multiple decimal points"
    else if (integerPart ++ fractionalPart).all Char.isDigit then
      .ok (if integerPart.isEmpty then ['0'] else integerPart, fractionalPart)
    else .error ("Failed to parse '" ++ String.ofList numericStr ++ "' as number")

/-- A number as a whole number of a unit, which is smaller than the given one if there are digits
behind the point. -/
def normalizeNumericWithUnit (numericStr : List Char) (unit : TimeUnit) :
    Except String (ℤ × TimeUnit) := do
  let (integerPart, fractionalPart) ← splitNumericParts numericStr
  let fractionalPart := stripZeros fractionalPart
  if fractionalPart.isEmpty then
    return (((parseNat integerPart).getD 0 : ℕ), unit)
  let fractionalLen := fractionalPart.length
  if 21 < fractionalLen then
    throw "Too many decimal places (max 21 supported)"
  let steps := (fractionalLen + 2) / 3
  let newExponent := unit.exponent - steps * 3
  match TimeUnit.fromExponent newExponent with
  | none => throw "Too much precision for available time units"
  | some newUnit =>
    let value : ℤ := ((parseNat (integerPart ++ fractionalPart)).getD 0 : ℕ)
    let extraZeros := steps * 3 - fractionalLen
    return (value * 10 ^ extraZeros, newUnit)

/-- A number of units in ticks, rounded towards zero. -/
def scaleTime (value exponentDiff : ℤ) (timescale : TimeScale) : Option ℤ :=
  let exponentDiff := exponentDiff - timescale.multiplierDigits
  if 0 < exponentDiff then some (value * 10 ^ exponentDiff.toNat)
  else if exponentDiff < 0 then some (value.tdiv (10 ^ (-exponentDiff).toNat))
  else some value

/-- The ticks that a text names: a number of ticks, or a time with a unit. -/
def parseTimeStringToTicks (input : List Char) (timescale : TimeScale) : Option ℤ :=
  let (numericStr, unitOpt) := parseTimeInput input
  let baseUnit := unitOpt.getD .none
  match normalizeNumericWithUnit numericStr baseUnit with
  | .error _ => none
  | .ok (value, normalizedUnit) =>
    if normalizedUnit = .none then some value
    else
      let diff := normalizedUnit.exponent - timescale.unit.exponent
      scaleTime value diff timescale

/-- A number without the zeros at its end, and without the point if nothing follows it. -/
def stripTrailingZerosAndPeriod (time : List Char) : List Char :=
  if '.' ∈ time then (time.rdropWhile (· == '0')).rdropWhile (· == '.') else time

/-- The largest unit in which a time is a whole number. -/
def findAutoScale (time : ℤ) (timescale : TimeScale) : TimeUnit :=
  if timescale.unit = .seconds then .seconds
  else
    let startDigits := (-timescale.unit.exponent).toNat
    -- the steps of three up to the exponent of the timescale, the largest first
    let exponents := (List.range (startDigits / 3)).reverse.map fun i => 3 * i + 3
    let found := exponents.findSome? fun e =>
      if time % 10 ^ (e - timescale.multiplierDigits) = 0 then
        TimeUnit.fromExponent (e - startDigits : ℤ)
      else none
    found.getD timescale.unit

/-- `TimeFormatter`, without the values it computes in advance. The format of the number is `No`. -/
structure TimeFormatter where
  timescale : TimeScale
  wantedUnit : TimeUnit
  showSpace : Bool
  showUnit : Bool
  deriving DecidableEq, Repr

namespace TimeFormatter

/-- The unit a time is shown in. -/
def shownUnit (f : TimeFormatter) (time : ℤ) : TimeUnit :=
  if f.wantedUnit = .auto then findAutoScale time f.timescale else f.wantedUnit

/-- How many powers of ten the shown unit is above that of the timescale. -/
def exponentDiff (f : TimeFormatter) (time : ℤ) : ℤ :=
  (f.shownUnit time).exponent - f.timescale.unit.exponent

/-- The time in units of the shown one. -/
def scaledTime (f : TimeFormatter) (time : ℤ) : ℚ :=
  time * (f.timescale.multiplier.getD 1 : ℕ) / 10 ^ (f.exponentDiff time).toNat

/-- The number in front of the unit. -/
def timeString (toText : ℚ → ℕ → List Char) (f : TimeFormatter) (time : ℤ) : List Char :=
  if 0 ≤ f.exponentDiff time then
    let precision := (f.exponentDiff time).toNat
    stripTrailingZerosAndPeriod (toText (f.scaledTime time) precision)
  else
    printInt (time * (f.timescale.multiplier.getD 1 : ℕ) * 10 ^ (-f.exponentDiff time).toNat)

/-- The text of a time. -/
def format (toText : ℚ → ℕ → List Char) (f : TimeFormatter) (time : ℤ) : List Char :=
  if f.wantedUnit = .none then printInt time
  else
    let unitString := if f.showUnit then (f.shownUnit time).display else []
    let space := if unitString.isEmpty || !f.showSpace then [] else [' ']
    f.timeString toText time ++ space ++ unitString

end TimeFormatter

end Time
