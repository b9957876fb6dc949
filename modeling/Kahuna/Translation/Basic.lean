import Kahuna.Numerals.Grouping
import Kahuna.Text.Basic
import Kahuna.Wave.Hierarchy

/-!
# Translators of bit vectors

The model of `basic_translators.rs`, `numeric_translators.rs` and of the functions of
`surfer-translation-types` that they use, for the translators that show a vector as one number or
count its bits. A value comes as a number or as a text of one character a bit, and each translator
has one branch for either.

The texts are lists of ASCII characters. The floating-point numbers are a parameter, `Floats`.
-/

namespace Translation

open Numerals Text Wave

/-- `ecolor::Color32`, as far as it is used: the named constants, and a colour with given parts. -/
inductive Color32 where
  | black
  | white
  | red
  | green
  | blue
  | yellow
  | cyan
  | magenta
  | gray
  | lightGray
  | darkGray
  | brown
  | darkRed
  | lightRed
  | orange
  | lightYellow
  | khaki
  | darkGreen
  | lightGreen
  | darkBlue
  | lightBlue
  | purple
  | gold
  | fromRgb (r g b : ℕ)
  deriving DecidableEq, Repr

/-- `ValueKind`, as far as these translators return it. -/
inductive ValueKind where
  | normal
  | undef
  | highImp
  | custom (color : Color32)
  | warn
  | dontCare
  | weak
  | error
  deriving DecidableEq, Repr

/-- What is used of the floating-point numbers. -/
structure Floats (F : Type) where
  nanUndef : F
  nanHighImp : F
  infinity : F
  neg : F → F
  /-- The conversion of a 64-bit number. -/
  ofU64 : ℕ → F
  /-- `ToPrimitive::to_f64` of a `BigUint`. -/
  toF64 : ℕ → Option F
  /-- `str::parse`. -/
  parse : List Char → Option F

variable {F : Type}

/-- The floating-point number of a `BigUint`. -/
def bigUintToF64 (fl : Floats F) (v : ℕ) : F :=
  if v < 2 ^ 64 then fl.ofU64 v else (fl.toF64 v).getD fl.infinity

/-- Leading characters that fill a text up to the number of bits. -/
def extendString (val : List Char) (numBits : ℕ) : List Char :=
  if val.length < numBits then
    let extraCount := numBits - val.length
    match val.head? with
    | some '0' => List.replicate extraCount '0'
    | some '1' => List.replicate extraCount '0'
    | some 'x' => List.replicate extraCount 'x'
    | some 'z' => List.replicate extraCount 'z'
    | some 'u' => List.replicate extraCount 'u'
    | some 'w' => List.replicate extraCount 'w'
    | some 'l' => List.replicate extraCount 'l'
    | some 'h' => List.replicate extraCount 'h'
    | some '-' => List.replicate extraCount '-'
    | _ => []
  else []

/-- The kind of a text of bits. -/
def kindForBinaryRepresentation (s : List Char) : ValueKind :=
  if 'x' ∈ s then .undef
  else if 'z' ∈ s then .highImp
  else if '-' ∈ s then .dontCare
  else if 'u' ∈ s ∨ 'w' ∈ s then .undef
  else if 'h' ∈ s ∨ 'l' ∈ s then .weak
  else .normal

/-- `BigUint::parse_bytes`: a sign in front and underscores behind the first digit are skipped. -/
def parseBytes (radix : ℕ) (s : List Char) : Option ℕ :=
  let s := if s.head? = some '+' ∧ s.tail.head? ≠ some '+' then s.tail else s
  if s = [] ∨ s.head? = some '_' then none
  else
    let digits := s.filter (· ≠ '_')
    if IsNumeral radix digits then some (value radix digits) else none

/-- The number a text of bits stands for, or the name and the kind of a text with other values. -/
def mapVectorVariable (s : List Char) : Except (String × ValueKind) ℕ :=
  match parseBytes 2 s with
  | some val => .ok val
  | none =>
    if 'x' ∈ s then .error ("UNDEF", .undef)
    else if 'z' ∈ s then .error ("HIGHIMP", .highImp)
    else if '-' ∈ s then .error ("DON'T CARE", .dontCare)
    else if 'u' ∈ s then .error ("UNDEF", .undef)
    else if 'w' ∈ s then .error ("UNDEF WEAK", .undef)
    else if 'h' ∈ s ∨ 'l' ∈ s then .error ("WEAK", .weak)
    else .error ("UNKNOWN VALUES", .undef)

/-- The number a value stands for. -/
def parseBigUint : VariableValue → Except (String × ValueKind) ℕ
  | .bigUint v => .ok v
  | .string s => mapVectorVariable s.toList

/-- A value as a floating-point number, by way of the number it stands for. -/
def parseValueToNumeric (fl : Floats F) (value : VariableValue) (toF64 : ℕ → F) : F :=
  match parseBigUint value with
  | .ok v => toF64 v
  | .error (_, .highImp) => fl.nanHighImp
  | .error (_, _) => fl.nanUndef

/-- A translated text as a floating-point number. -/
def parseNumericString (fl : Floats F) (s : List Char) (translatorName : String) : Option F :=
  let s := trim s
  let translatorLower := translatorName.toList.map Char.toLower
  if ['h', 'e', 'x'] <:+: translatorLower then
    let hexStr := ((stripPrefix ['0', 'x'] s).orElse fun _ => stripPrefix ['0', 'X'] s).getD s
    (parseBytes 16 hexStr).map (bigUintToF64 fl)
  else if ['b', 'i', 'n'] <:+: translatorLower then
    let binStr := ((stripPrefix ['0', 'b'] s).orElse fun _ => stripPrefix ['0', 'B'] s).getD s
    (parseBytes 2 binStr).map (bigUintToF64 fl)
  else
    match fl.parse s with
    | some v => some v
    | none => (parseBytes 16 s).map (bigUintToF64 fl)

/-- A text in groups of `n` characters, the first of which may be shorter. -/
def groupNChars (s : List Char) (n : ℕ) : List (List Char) := groups s n

/-- `u8::from_str_radix` in base two. -/
def u8FromBinary (g : List Char) : Option ℕ :=
  let digits := if g.head? = some '+' then g.tail else g
  if digits ≠ [] ∧ IsNumeral 2 digits ∧ value 2 digits < 256 then some (value 2 digits) else none

/-- The digit of a group of bits, and whether the group is invalid. -/
def radixDigit (g : List Char) : List Char × Bool :=
  if 'x' ∈ g then (['x'], false)
  else if 'z' ∈ g then (['z'], false)
  else if '-' ∈ g then (['-'], false)
  else if 'u' ∈ g then (['u'], false)
  else if 'w' ∈ g then (['w'], false)
  else if 'h' ∈ g then (['h'], false)
  else if 'l' ∈ g then (['l'], false)
  else
    match u8FromBinary g with
    | some val => (Nat.toDigits 16 val, false)
    | none => (['?'], true)

/-- A text of bits in a base that is a power of two. -/
def mapToRadix (s : List Char) (radix numBits : ℕ) : List Char × ValueKind :=
  let digits := (groupNChars (extendString s numBits ++ s) radix).map radixDigit
  let formatted := digits.flatMap Prod.fst
  let hadInvalidDigit := digits.any Prod.snd
  (formatted, if hadInvalidDigit then .error else kindForBinaryRepresentation formatted)

/-- The translation of the number that a value stands for. -/
def translateNumeric (bigUintTranslator : ℕ → List Char) (value : VariableValue) :
    List Char × ValueKind :=
  match parseBigUint value with
  | .ok v => (bigUintTranslator v, .normal)
  | .error (v, k) => (v.toList, k)

/-- `HexTranslator`. -/
def hexTranslate (numBits : ℕ) : VariableValue → List Char × ValueKind
  | .bigUint v => (padded 16 ((numBits + 3) / 4) v, .normal)
  | .string s => mapToRadix s.toList 4 numBits

/-- `OctalTranslator`. -/
def octalTranslate (numBits : ℕ) : VariableValue → List Char × ValueKind
  | .bigUint v => (padded 8 ((numBits + 2) / 3) v, .normal)
  | .string s => mapToRadix s.toList 3 numBits

/-- `BinaryTranslator`. -/
def binaryTranslate (numBits : ℕ) : VariableValue → List Char × ValueKind
  | .bigUint v => (padded 2 numBits v, .normal)
  | .string s =>
    (extendString s.toList numBits ++ s.toList, kindForBinaryRepresentation s.toList)

/-- `GroupingBinaryTranslator`. -/
def groupingBinaryTranslate (numBits : ℕ) (value : VariableValue) : List Char × ValueKind :=
  let (val, color) := match value with
    | .bigUint v => (padded 2 numBits v, .normal)
    | .string s =>
      (extendString s.toList numBits ++ s.toList, kindForBinaryRepresentation s.toList)
  ([' '].intercalate (groupNChars val 4), color)

/-- `UnsignedTranslator`. -/
def unsignedTranslate (_numBits : ℕ) (value : VariableValue) : List Char × ValueKind :=
  translateNumeric (Nat.toDigits 10) value

/-- The text of a number whose highest bit is the sign. -/
def computeSignedValue (v numBits : ℕ) : List Char :=
  let signweight := 2 ^ (numBits - 1)
  if v < signweight then Nat.toDigits 10 v
  else '-' :: Nat.toDigits 10 (signweight * 2 - v)

/-- `SignedTranslator`. -/
def signedTranslate (numBits : ℕ) (value : VariableValue) : List Char × ValueKind :=
  translateNumeric (fun v => computeSignedValue v numBits) value

/-- `BigUint::count_ones`. -/
def countOnes (v : ℕ) : ℕ := (Nat.digits 2 v).count 1

/-- `BigUint::trailing_ones`. -/
def trailingOnes (v : ℕ) : ℕ := ((Nat.digits 2 v).takeWhile (· == 1)).length

/-- `BigUint::trailing_zeros`. -/
def trailingZeros (v : ℕ) : Option ℕ :=
  if v = 0 then none else some ((Nat.digits 2 v).takeWhile (· == 0)).length

/-- `BigUint::bits`. -/
def bits (v : ℕ) : ℕ := (Nat.digits 2 v).length

/-- The number of leading ones of a number with a number of bits. -/
def leadingOnes (v numBits : ℕ) : ℕ :=
  if bits v < numBits then 0
  else
    let mask := 2 ^ numBits - 1
    numBits - bits (mask ^^^ v)

/-- `NumberOfOnesTranslator`. -/
def numberOfOnesTranslate (_numBits : ℕ) : VariableValue → List Char × ValueKind
  | .bigUint v => (Nat.toDigits 10 (countOnes v), .normal)
  | .string s =>
    (Nat.toDigits 10 (s.toList.filter (· == '1')).length, kindForBinaryRepresentation s.toList)

/-- `TrailingOnesTranslator`. -/
def trailingOnesTranslate (_numBits : ℕ) : VariableValue → List Char × ValueKind
  | .bigUint v => (Nat.toDigits 10 (trailingOnes v), .normal)
  | .string s =>
    (Nat.toDigits 10 (s.toList.reverse.takeWhile (· == '1')).length,
      kindForBinaryRepresentation s.toList)

/-- `TrailingZerosTranslator`. -/
def trailingZerosTranslate (numBits : ℕ) : VariableValue → List Char × ValueKind
  | .bigUint v => (Nat.toDigits 10 ((trailingZeros v).getD numBits), .normal)
  | .string s =>
    (Nat.toDigits 10
        ((extendString s.toList numBits ++ s.toList).reverse.takeWhile (· == '0')).length,
      kindForBinaryRepresentation s.toList)

/-- `LeadingOnesTranslator` on a text. -/
def leadingOnesOfString (numBits : ℕ) (s : List Char) : List Char × ValueKind :=
  (if s.length = numBits then Nat.toDigits 10 (s.takeWhile (· == '1')).length else ['0'],
    kindForBinaryRepresentation s)

/-- `LeadingOnesTranslator`. -/
def leadingOnesTranslate (numBits : ℕ) : VariableValue → List Char × ValueKind
  | .bigUint v => leadingOnesOfString numBits (padded 2 numBits v)
  | .string s => leadingOnesOfString numBits s.toList

/-- `LeadingZerosTranslator` on a text. -/
def leadingZerosOfString (numBits : ℕ) (s : List Char) : List Char × ValueKind :=
  (Nat.toDigits 10 ((extendString s numBits ++ s).takeWhile (· == '0')).length,
    kindForBinaryRepresentation s)

/-- `LeadingZerosTranslator`. -/
def leadingZerosTranslate (numBits : ℕ) : VariableValue → List Char × ValueKind
  | .bigUint v => leadingZerosOfString numBits (padded 2 numBits v)
  | .string s => leadingZerosOfString numBits s.toList

/-- `IdenticalMSBsTranslator` on a text. -/
def identicalMSBsOfString (numBits : ℕ) (s : List Char) : List Char × ValueKind :=
  let extendedString := extendString s numBits ++ s
  let zeros := (extendedString.takeWhile (· == '0')).length
  let ones := (extendedString.takeWhile (· == '1')).length
  (Nat.toDigits 10 (max ones zeros), kindForBinaryRepresentation s)

/-- `IdenticalMSBsTranslator`. -/
def identicalMSBsTranslate (numBits : ℕ) : VariableValue → List Char × ValueKind
  | .bigUint v => identicalMSBsOfString numBits (padded 2 numBits v)
  | .string s => identicalMSBsOfString numBits s.toList

/-- The translators that show a vector as one number or count its bits. -/
inductive BasicTranslator where
  | hex
  | octal
  | binary
  | groupingBinary
  | unsigned
  | signed
  | numberOfOnes
  | leadingOnes
  | trailingOnes
  | leadingZeros
  | trailingZeros
  | identicalMSBs
  deriving DecidableEq, Repr

namespace BasicTranslator

/-- The name of a translator. -/
def name : BasicTranslator → String
  | hex => "Hexadecimal"
  | octal => "Octal"
  | binary => "Binary"
  | groupingBinary => "Binary (with groups)"
  | unsigned => "Unsigned"
  | signed => "Signed"
  | numberOfOnes => "Number of ones"
  | leadingOnes => "Leading ones"
  | trailingOnes => "Trailing ones"
  | leadingZeros => "Leading zeros"
  | trailingZeros => "Trailing zeros"
  | identicalMSBs => "Identical MSBs"

/-- The text and the kind of a value. -/
def basicTranslate : BasicTranslator → ℕ → VariableValue → List Char × ValueKind
  | hex => hexTranslate
  | octal => octalTranslate
  | binary => binaryTranslate
  | groupingBinary => groupingBinaryTranslate
  | unsigned => unsignedTranslate
  | signed => signedTranslate
  | numberOfOnes => numberOfOnesTranslate
  | leadingOnes => leadingOnesTranslate
  | trailingOnes => trailingOnesTranslate
  | leadingZeros => leadingZerosTranslate
  | trailingZeros => trailingZerosTranslate
  | identicalMSBs => identicalMSBsTranslate

/-- The default of `basic_translate_numeric`, which reads the text. -/
def numericOfText (fl : Floats F) (t : BasicTranslator) (numBits : ℕ) (value : VariableValue) :
    Option F :=
  let (val, kind) := t.basicTranslate numBits value
  match kind with
  | .highImp => some fl.nanHighImp
  | .undef => some fl.nanUndef
  | _ => parseNumericString fl val t.name

/-- The number that a value is drawn at. -/
def basicTranslateNumeric (fl : Floats F) (t : BasicTranslator) (numBits : ℕ)
    (value : VariableValue) : Option F :=
  match t with
  | hex | octal | binary | groupingBinary => t.numericOfText fl numBits value
  | unsigned => some (parseValueToNumeric fl value (bigUintToF64 fl))
  | signed =>
    some (parseValueToNumeric fl value fun v =>
      let signweight := 2 ^ (numBits - 1)
      if v < signweight then bigUintToF64 fl v else fl.neg (bigUintToF64 fl (signweight * 2 - v)))
  | numberOfOnes => some (parseValueToNumeric fl value fun v => fl.ofU64 (countOnes v))
  | leadingOnes =>
    some (parseValueToNumeric fl value fun v => fl.ofU64 (Translation.leadingOnes v numBits))
  | trailingOnes =>
    some (parseValueToNumeric fl value fun v => fl.ofU64 (Translation.trailingOnes v))
  | leadingZeros => some (parseValueToNumeric fl value fun v => fl.ofU64 (numBits - bits v))
  | trailingZeros =>
    some (parseValueToNumeric fl value fun v =>
      fl.ofU64 ((Translation.trailingZeros v).getD numBits))
  | identicalMSBs =>
    some (parseValueToNumeric fl value fun v =>
      fl.ofU64 (max (numBits - bits v) (Translation.leadingOnes v numBits)))

end BasicTranslator

end Translation
