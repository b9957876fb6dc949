import Kahuna.Panic
import Kahuna.Translation.Basic

/-!
# The frame buffer

`frame_buffer.rs`: a value is taken as a row of bits (`frameBufferBits`), which are decoded to pixels in the
format of the settings (`PixelColorSettings.decode`).
-/

namespace FrameBuffer

open Translation Wave

/-! ## The bits of a value -/

/-- `append_str_lower_bits_with_left_zero_pad`. The text is taken as bytes. -/
def appendStrLowerBitsWithLeftZeroPad (src : String) (width : ℕ) (out : List Bool) : List Bool :=
  if width = 0 then out
  else
    let bytes := src.toList.flatMap String.utf8EncodeChar
    let suffix := bytes.drop (bytes.length - width)
    out ++ List.replicate (width - suffix.length) false ++ suffix.map (· == '1'.toUInt8)

/-- `append_biguint_lower_bits_with_left_zero_pad`. -/
def appendBiguintLowerBitsWithLeftZeroPad (value width : ℕ) (out : List Bool) : List Bool :=
  if width = 0 then out
  else
    let valueBits := value.size
    if width ≤ valueBits then out ++ (List.range width).reverse.map value.testBit
    else out ++ List.replicate (width - valueBits) false ++ (List.range valueBits).reverse.map value.testBit

/-- `bits_with_left_zero_pad`. -/
def bitsWithLeftZeroPad (src : String) (width : ℕ) : List Bool := appendStrLowerBitsWithLeftZeroPad src width []

/-- `frame_buffer_bits`. -/
def frameBufferBits (value : VariableValue) (wordLength : ℕ) : List Bool :=
  match value with
  | .bigUint v => appendBiguintLowerBitsWithLeftZeroPad v wordLength []
  | .string s => bitsWithLeftZeroPad s wordLength

/-! ## Decoding -/

/-- `bits_to_u16`. -/
def bitsToU16 (bits : List Bool) : UInt16 := bits.foldl (fun value b => value <<< 1 ||| b.toUInt16) 0

/-- `bits_to_u16_padded`. -/
def bitsToU16Padded (bits : List Bool) (start len : ℕ) : UInt16 :=
  (List.range len).foldl (fun value offset => value <<< 1 ||| (bits[start + offset]?.getD false).toUInt16) 0

/-- `scale_to_u8`. -/
def scaleToU8 (value : UInt16) (bits : ℕ) : Run UInt8 :=
  if bits = 0 then .ok 0
  -- a shift by the width of the type, or more
  else if 16 ≤ bits then .error (.assertion "attempt to shift left with overflow")
  else
    let maxIn : UInt16 := (1 <<< UInt16.ofNat bits) - 1
    .ok (value.toUInt32 * 255 / maxIn.toUInt32).toUInt8

/-- `Color32::from_rgb`. -/
def fromRgb (red green blue : UInt8) : Color32 := .fromRgb red.toNat green.toNat blue.toNat

/-- `decode_grayscale_pixels`. -/
def decodeGrayscalePixels (bits : List Bool) (grayscaleBits : ℕ) : Run (List Color32) := do
  let step := max grayscaleBits 1
  let full := bits.length / step
  let out ← (List.range' 0 full step).mapM fun start => do
    let gray ← scaleToU8 (bitsToU16 (← Run.slice bits start (start + step))) step
    return fromRgb gray gray gray
  if bits.length % step ≠ 0 then
    let gray ← scaleToU8 (bitsToU16Padded bits (full * step) step) step
    return out ++ [fromRgb gray gray gray]
  else
    return out

/-- `decode_rgb_pixels` and `decode_ycbcr_pixels`, with the lengths of the three channels and the color they make. -/
def decodeChannels (color : UInt8 → UInt8 → UInt8 → Color32) (bits : List Bool) (bits₁ bits₂ bits₃ : ℕ) :
    Run (List Color32) := do
  let bitsPerPixel := bits₁ + bits₂ + bits₃
  let step := max bitsPerPixel 1
  let full := bits.length / step
  let out ← (List.range' 0 full step).mapM fun start => do
    let first ← scaleToU8 (bitsToU16 (← Run.slice bits start (start + bits₁))) bits₁
    let second ← scaleToU8 (bitsToU16 (← Run.slice bits (start + bits₁) (start + bits₁ + bits₂))) bits₂
    let third ← scaleToU8 (bitsToU16 (← Run.slice bits (start + bits₁ + bits₂) (start + step))) bits₃
    return color first second third
  if bits.length % step ≠ 0 then
    let start := full * step
    let first ← scaleToU8 (bitsToU16Padded bits start bits₁) bits₁
    let second ← scaleToU8 (bitsToU16Padded bits (start + bits₁) bits₂) bits₂
    let third ← scaleToU8 (bitsToU16Padded bits (start + bits₁ + bits₂) bits₃) bits₃
    return out ++ [color first second third]
  else
    return out

/-- `decode_rgb_pixels`. -/
def decodeRgbPixels (bits : List Bool) (rBits gBits bBits : ℕ) : Run (List Color32) :=
  decodeChannels fromRgb bits rBits gBits bBits

/-- The color of a pixel in YCbCr, by `ycbcr_to_rgb`. -/
def fromYcbcr (ycbcrToRgb : UInt8 → UInt8 → UInt8 → UInt8 × UInt8 × UInt8) (y cb cr : UInt8) : Color32 :=
  let (red, green, blue) := ycbcrToRgb y cb cr
  fromRgb red green blue

/-- `decode_ycbcr_pixels`. -/
def decodeYcbcrPixels (ycbcrToRgb : UInt8 → UInt8 → UInt8 → UInt8 × UInt8 × UInt8) (bits : List Bool)
    (yBits cbBits crBits : ℕ) : Run (List Color32) :=
  decodeChannels (fromYcbcr ycbcrToRgb) bits yBits cbBits crBits

/-- The pixels that the window decodes, and what their channels are made of. -/
inductive PixelFormat where
  | grayscale (grayscaleBits : ℕ)
  | rgb (rBits gBits bBits : ℕ)
  | ycbcr (yBits cbBits crBits : ℕ)
  deriving DecidableEq, Repr

/-- The decoder of a format. -/
def PixelFormat.decode (ycbcrToRgb : UInt8 → UInt8 → UInt8 → UInt8 × UInt8 × UInt8) (bits : List Bool) :
    PixelFormat → Run (List Color32)
  | grayscale grayscaleBits => decodeGrayscalePixels bits grayscaleBits
  | rgb rBits gBits bBits => decodeRgbPixels bits rBits gBits bBits
  | ycbcr yBits cbBits crBits => decodeYcbcrPixels ycbcrToRgb bits yBits cbBits crBits

/-! ## The settings -/

/-- `FrameBufferColorMode`. -/
inductive FrameBufferColorMode where
  | grayscale
  | rgb
  | ycbcr
  deriving DecidableEq, Repr

/-- `PixelColorSettings`, with its defaults. -/
structure PixelColorSettings where
  colorMode : FrameBufferColorMode := .grayscale
  grayscaleBits : UInt8 := 1
  rBits : UInt8 := 3
  gBits : UInt8 := 3
  bBits : UInt8 := 2
  yBits : UInt8 := 8
  cbBits : UInt8 := 8
  crBits : UInt8 := 8
  deriving DecidableEq, Repr

namespace PixelColorSettings

variable (s : PixelColorSettings)

/-- The format of the mode. -/
def format : PixelFormat :=
  match s.colorMode with
  | .grayscale => .grayscale s.grayscaleBits.toNat
  | .rgb => .rgb s.rBits.toNat s.gBits.toNat s.bBits.toNat
  | .ycbcr => .ycbcr s.yBits.toNat s.cbBits.toNat s.crBits.toNat

/-- What `draw_frame_buffer_window` decodes; `none` where it asks for a channel instead. -/
def decode (ycbcrToRgb : UInt8 → UInt8 → UInt8 → UInt8 × UInt8 × UInt8) (bits : List Bool) :
    Run (Option (List Color32)) :=
  match s.format with
  | .rgb 0 0 0 => .ok none
  | .ycbcr 0 0 0 => .ok none
  | format => some <$> format.decode ycbcrToRgb bits

/-- `SetFrameBufferMode`. -/
def setFrameBufferMode (mode : FrameBufferColorMode) (bits₁ bits₂ bits₃ : UInt8) : PixelColorSettings :=
  match mode with
  | .grayscale => { s with colorMode := mode, grayscaleBits := max 1 (min bits₁ 8) }
  | .rgb => { s with colorMode := mode, rBits := min bits₁ 8, gBits := min bits₂ 8, bBits := min bits₃ 8 }
  | .ycbcr => { s with colorMode := mode, yBits := min bits₁ 8, cbBits := min bits₂ 8, crBits := min bits₃ 8 }

end PixelColorSettings

end FrameBuffer
