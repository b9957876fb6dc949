import Kahuna.Chunks.Basic
import Kahuna.FrameBuffer.Basic
import Mathlib.Data.Nat.Size

/-!
# The pixels are the chunks of the bits

What is decoded from a value are the chunks of its bits, filled up with zeros, and the channels of a
chunk, whether the value is a number or a text of zeros and ones.

* `frameBufferBits_bigUint`, `frameBufferBits_string`: the bits of a value are `zeroPadded`;
* `scaleToU8_bitsToU16`: a channel of less than 16 bits is scaled to its `level`;
* `decode_eq`: the pixels inside the bits and the one at their end are the chunks;
* `decode_frameBufferBits`: both together;
* `decode_of_setFrameBufferMode`: the settings hold no wider channel.
-/

namespace FrameBuffer

open Translation Wave

/-! ## The bits of a value -/

/-- The lowest bits of a number from the highest one on. -/
def zeroPadded (value width : ℕ) : List Bool := (List.range width).reverse.map value.testBit

theorem zeroPadded_add (value k width : ℕ) (h : value.size ≤ width) :
    zeroPadded value (k + width) = List.replicate k false ++ zeroPadded value width := by
  induction k with
  | zero => rw [Nat.zero_add, List.replicate_zero, List.nil_append]
  | succ k ih =>
    have hlt : value < 2 ^ (k + width) := Nat.size_le.1 (h.trans (Nat.le_add_left _ _))
    rw [zeroPadded, Nat.add_right_comm, List.range_succ, List.reverse_append, List.reverse_singleton,
      List.singleton_append, List.map_cons, Nat.testBit_lt_two_pow hlt, List.replicate_succ, List.cons_append, ← ih,
      zeroPadded]

theorem frameBufferBits_bigUint (value width : ℕ) : frameBufferBits (.bigUint value) width = zeroPadded value width := by
  simp only [frameBufferBits, appendBiguintLowerBitsWithLeftZeroPad, List.nil_append]
  split
  next hzero =>
    subst hzero
    rfl
  · split
    · rfl
    next hlt =>
      have hsum : width - value.size + value.size = width := by omega
      conv_rhs => rw [← hsum, zeroPadded_add value _ _ le_rfl]
      rfl

/-- The last bit of a number is behind those of its half. -/
theorem zeroPadded_succ (value width : ℕ) :
    zeroPadded value (width + 1) = zeroPadded (value / 2) width ++ [value.testBit 0] := by
  rw [zeroPadded, List.range_succ_eq_map, List.reverse_cons, List.map_append, List.map_singleton, ← List.map_reverse,
    List.map_map, zeroPadded]
  congr 2
  funext i
  exact (Nat.testBit_div_two value i).symm

/-- The number of a text of zeros and ones, from its last digit. -/
theorem value_concat {l : List Char} {c : Char} (hc : c = '0' ∨ c = '1') :
    Numerals.value 2 (l ++ [c]) / 2 = Numerals.value 2 l ∧
      (Numerals.value 2 (l ++ [c])).testBit 0 = (c == '1') := by
  have hdigit : Numerals.value 2 [c] = if c = '1' then 1 else 0 := by
    rcases hc with rfl | rfl <;> rfl
  rw [Numerals.value_append, hdigit, List.length_singleton, pow_one, Nat.testBit_zero]
  rcases hc with rfl | rfl
  · exact ⟨by simp, by simp⟩
  · refine ⟨by simp; omega, by simp⟩

/-- The bits of a text are those of its number. -/
theorem zeroPadded_value {l : List Char} (hl : ∀ c ∈ l, c = '0' ∨ c = '1') (width : ℕ) :
    zeroPadded (Numerals.value 2 l) width =
      List.replicate (width - l.length) false ++ (l.drop (l.length - width)).map (· == '1') := by
  induction l using List.reverseRecOn generalizing width with
  | nil =>
    have hzero := zeroPadded_add 0 width 0 (by simp)
    rw [Nat.add_zero] at hzero
    simpa [zeroPadded] using hzero
  | append_singleton l c ih =>
    cases width with
    | zero => simp [zeroPadded]
    | succ width =>
      obtain ⟨hdiv, hbit⟩ := value_concat (l := l) (hl c (by simp))
      have hdrop : (l ++ [c]).drop ((l ++ [c]).length - (width + 1)) = l.drop (l.length - width) ++ [c] := by
        rw [List.length_append, List.length_singleton, Nat.add_sub_add_right,
          List.drop_append_of_le_length (Nat.sub_le _ _)]
      rw [zeroPadded_succ, hdiv, hbit, ih fun d hd => hl d (List.mem_append_left _ hd), hdrop, List.map_append,
        List.length_append, List.length_singleton, Nat.add_sub_add_right, List.append_assoc, List.map_singleton]

theorem frameBufferBits_string {s : String} (hs : ∀ c ∈ s.toList, c = '0' ∨ c = '1') (width : ℕ) :
    frameBufferBits (.string s) width = zeroPadded (Numerals.value 2 s.toList) width := by
  have hbytes : s.toList.flatMap String.utf8EncodeChar = s.toList.map Char.toUInt8 := by
    rw [← List.flatMap_pure_eq_map]
    refine List.flatMap_congr fun c hc => ?_
    rcases hs c hc with rfl | rfl <;> rfl
  have hbits : ∀ l : List Char, (∀ c ∈ l, c = '0' ∨ c = '1') →
      (l.map Char.toUInt8).map (· == '1'.toUInt8) = l.map (· == '1') := by
    intro l hl
    rw [List.map_map]
    refine List.map_congr_left fun c hc => ?_
    rcases hl c hc with rfl | rfl <;> rfl
  simp only [frameBufferBits, bitsWithLeftZeroPad, appendStrLowerBitsWithLeftZeroPad, List.nil_append]
  split
  next hzero =>
    subst hzero
    rfl
  · have hsub : width - (s.toList.length - (s.toList.length - width)) = width - s.toList.length := by omega
    rw [hbytes, List.length_map, ← List.map_drop, List.length_map, List.length_drop, zeroPadded_value hs, hsub,
      hbits _ fun c hc => hs c (List.mem_of_mem_drop hc)]

/-! ## A channel -/

/-- The level of a channel in 8 bits. -/
def level (field : List Bool) : UInt8 :=
  UInt8.ofNat ((BitVec.ofBoolListBE field).toNat * 255 / (2 ^ field.length - 1))

/-- A bit is shifted in. -/
theorem toNat_shift (value : UInt16) (b : Bool) :
    (value <<< 1 ||| b.toUInt16).toNat = (2 * value.toNat + b.toNat) % 2 ^ 16 := by
  have hbit : b.toUInt16.toNat = b.toNat := by cases b <;> rfl
  have hshift : (value <<< 1).toNat = (value.toNat % 2 ^ 15) <<< 1 := by
    have hone : 2 ^ ((1 : UInt16).toNat % 16) = 2 := rfl
    rw [UInt16.toNat_shiftLeft, Nat.shiftLeft_eq, Nat.shiftLeft_eq, hone]
    omega
  rw [UInt16.toNat_or, hshift, hbit, ← Nat.shiftLeft_add_eq_or_of_lt (Bool.toNat_lt b), Nat.shiftLeft_eq]
  have := Bool.toNat_lt b
  omega

theorem toNat_foldl (bits : List Bool) (value : UInt16) :
    (bits.foldl (fun (v : UInt16) b => v <<< 1 ||| b.toUInt16) value).toNat =
      (value.toNat * 2 ^ bits.length + (BitVec.ofBoolListBE bits).toNat) % 2 ^ 16 := by
  induction bits generalizing value with
  | nil => simp [BitVec.ofBoolListBE, Nat.mod_eq_of_lt value.toNat_lt]
  | cons b bits ih =>
    have hcons : (BitVec.ofBoolListBE (b :: bits)).toNat =
        b.toNat * 2 ^ bits.length + (BitVec.ofBoolListBE bits).toNat := by
      rw [BitVec.ofBoolListBE, BitVec.toNat_cons, ← Nat.shiftLeft_add_eq_or_of_lt (BitVec.isLt _), Nat.shiftLeft_eq]
    rw [List.foldl_cons, ih, toNat_shift, hcons, List.length_cons, pow_succ, Nat.add_mod, Nat.mod_mul_mod, ← Nat.add_mod]
    congr 1
    ring

/-- A channel of less than 16 bits is scaled to its level. -/
theorem scaleToU8_bitsToU16 (field : List Bool) (h : field.length < 16) :
    scaleToU8 (bitsToU16 field) field.length = .ok (level field) := by
  rw [scaleToU8]
  split
  next hzero =>
    obtain rfl := List.length_eq_zero_iff.1 hzero
    rfl
  next hpos =>
    have hlt : (BitVec.ofBoolListBE field).toNat < 2 ^ field.length := BitVec.isLt _
    have hpow : 2 ^ field.length ≤ 2 ^ 15 := Nat.pow_le_pow_right (by omega) (by omega)
    have hvalue : (bitsToU16 field).toNat = (BitVec.ofBoolListBE field).toNat := by
      rw [bitsToU16, toNat_foldl, UInt16.toNat_zero, Nat.zero_mul, Nat.zero_add]
      exact Nat.mod_eq_of_lt (by omega)
    have hmax : (((1 : UInt16) <<< UInt16.ofNat field.length) - 1).toNat = 2 ^ field.length - 1 := by
      have hone : (1 : UInt16).toNat = 1 := rfl
      have hshift : ((1 : UInt16) <<< UInt16.ofNat field.length).toNat = 2 ^ field.length := by
        rw [UInt16.toNat_shiftLeft, UInt16.toNat_ofNat', hone, Nat.mod_mod_of_dvd _ (by decide),
          Nat.mod_eq_of_lt h, Nat.one_shiftLeft, Nat.mod_eq_of_lt (by omega)]
      rw [UInt16.toNat_sub_of_le _ _ (by rw [UInt16.le_iff_toNat_le, hshift, hone]; exact Nat.one_le_two_pow), hshift, hone]
    rw [if_neg (by omega)]
    refine congrArg Except.ok (UInt8.toNat_inj.1 ?_)
    rw [level, UInt32.toNat_toUInt8, UInt8.toNat_ofNat', UInt32.toNat_div, UInt32.toNat_mul, UInt16.toNat_toUInt32,
      UInt16.toNat_toUInt32, hvalue, hmax]
    have h255 : (255 : UInt32).toNat = 255 := rfl
    rw [h255, Nat.mod_eq_of_lt (b := 2 ^ 32) (by omega)]

/-- The bits behind the end of a channel are read as zeros. -/
theorem bitsToU16Padded_eq (bits : List Bool) (start len : ℕ) :
    bitsToU16Padded bits start len = bitsToU16 (Chunks.window false bits start len) := by
  rw [bitsToU16Padded, bitsToU16, Chunks.window, List.foldl_map]
  simp only [List.getD_eq_getElem?_getD]

theorem scaleToU8_window (bits : List Bool) (start : ℕ) {k : ℕ} (hk : k < 16) :
    scaleToU8 (bitsToU16 (Chunks.window false bits start k)) k = .ok (level (Chunks.window false bits start k)) := by
  have hlevel := scaleToU8_bitsToU16 (Chunks.window false bits start k) (by rwa [Chunks.length_window])
  rwa [Chunks.length_window] at hlevel

/-- A channel that lies in the bits. -/
theorem scaleToU8_slice {β : Type} {bits : List Bool} {start k : ℕ} (f : UInt8 → Run β) (hk : k < 16)
    (h : start + k ≤ bits.length) :
    (Run.slice bits start (start + k) >>= fun field => scaleToU8 (bitsToU16 field) k >>= f) =
      f (level (Chunks.window false bits start k)) := by
  rw [Run.slice_eq_ok (Nat.le_add_right _ _) h, Nat.add_sub_cancel_left, ← Chunks.window_eq_take h]
  exact congrArg (· >>= f) (scaleToU8_window bits start hk)

/-- A channel that may reach behind them. -/
theorem scaleToU8_padded {bits : List Bool} (start : ℕ) {k : ℕ} (hk : k < 16) :
    scaleToU8 (bitsToU16Padded bits start k) k = .ok (level (Chunks.window false bits start k)) := by
  rw [bitsToU16Padded_eq, scaleToU8_window bits start hk]

/-! ## The pixels -/

namespace PixelFormat

/-- The lengths of the channels. A pixel in grayscale has a bit at least. -/
def channels : PixelFormat → List ℕ
  | grayscale grayscaleBits => [max grayscaleBits 1]
  | rgb rBits gBits bBits => [rBits, gBits, bBits]
  | ycbcr yBits cbBits crBits => [yBits, cbBits, crBits]

/-- The color of a chunk, from the levels of its channels. -/
def pixel (ycbcrToRgb : UInt8 → UInt8 → UInt8 → UInt8 × UInt8 × UInt8) (format : PixelFormat) (chunk : List Bool) :
    Color32 :=
  let channel (i : ℕ) := level ((Chunks.fields format.channels chunk).getD i [])
  match format with
  | grayscale _ => fromRgb (channel 0) (channel 0) (channel 0)
  | rgb _ _ _ => fromRgb (channel 0) (channel 1) (channel 2)
  | ycbcr _ _ _ => fromYcbcr ycbcrToRgb (channel 0) (channel 1) (channel 2)

/-- The pixels of a row of bits: its chunks, with zeros in the last one. -/
def pixels (ycbcrToRgb : UInt8 → UInt8 → UInt8 → UInt8 × UInt8 × UInt8) (format : PixelFormat) (bits : List Bool) :
    List Color32 :=
  (Chunks.cut false (max format.channels.sum 1) bits).map (format.pixel ycbcrToRgb)

/-- No channel has 16 bits or more. -/
def Narrow (format : PixelFormat) : Prop := ∀ k ∈ format.channels, k < 16

end PixelFormat

/-- A loop over the pixels inside the bits, and the one at their end, goes over the chunks. -/
theorem decode_chunks {bits : List Bool} {step : ℕ} (hstep : 0 < step) {inside : ℕ → Run Color32}
    {atEnd : List Color32 → Run (List Color32)} {pixel : List Bool → Color32}
    (hinside : ∀ start, start + step ≤ bits.length → inside start = .ok (pixel (Chunks.window false bits start step)))
    (hend : ∀ out, atEnd out = .ok (out ++ [pixel (Chunks.window false bits (bits.length / step * step) step)])) :
    (do
      let out ← (List.range' 0 (bits.length / step) step).mapM inside
      if bits.length % step ≠ 0 then atEnd out else return out) = .ok ((Chunks.cut false step bits).map pixel) := by
  have hloop : (List.range' 0 (bits.length / step) step).mapM inside =
      .ok ((List.range (bits.length / step)).map fun i => pixel (Chunks.window false bits (i * step) step)) := by
    have hstarts : List.range' 0 (bits.length / step) step = (List.range (bits.length / step)).map (· * step) :=
      List.ext_getElem (by simp) fun i _ _ => by simp [Nat.mul_comm]
    have hmap := (List.range (bits.length / step)).map_map (f := (· * step))
      (g := fun start => pixel (Chunks.window false bits start step))
    refine (congrArg _ hstarts).trans ((Run.mapM_eq_map fun start hstart => hinside start ?_).trans (congrArg _ hmap))
    obtain ⟨i, hi, rfl⟩ := List.mem_map.1 hstart
    -- the pixel lies before the end of the last one inside
    have hle : (i + 1) * step ≤ bits.length / step * step := Nat.mul_le_mul_right _ (List.mem_range.1 hi)
    have hdiv := Nat.div_mul_le_self bits.length step
    rw [Nat.add_mul, Nat.one_mul] at hle
    exact hle.trans hdiv
  rw [hloop, Chunks.cut_eq hstep]
  by_cases hmod : bits.length % step ≠ 0
  · simp [bind, Except.bind, hmod, hend]
  · simp [bind, Except.bind, pure, Except.pure, hmod]

theorem decodeGrayscalePixels_eq (bits : List Bool) {n : ℕ} (hn : n < 16) :
    decodeGrayscalePixels bits n = .ok ((Chunks.cut false (max n 1) bits).map fun chunk =>
      fromRgb (level chunk) (level chunk) (level chunk)) := by
  have hnarrow : max n 1 < 16 := by omega
  refine decode_chunks (show 0 < max n 1 by omega) (fun start hstart => ?_) fun out => ?_
  · exact scaleToU8_slice _ hnarrow hstart
  · rw [scaleToU8_padded _ hnarrow]
    rfl

/-- The channels of a pixel follow one another in its chunk. -/
theorem decodeChannels_eq (color : UInt8 → UInt8 → UInt8 → Color32) (bits : List Bool) {k₁ k₂ k₃ : ℕ} (h₁ : k₁ < 16)
    (h₂ : k₂ < 16) (h₃ : k₃ < 16) :
    decodeChannels color bits k₁ k₂ k₃ = .ok ((Chunks.cut false (max (k₁ + k₂ + k₃) 1) bits).map fun chunk =>
      let channel (i : ℕ) := level ((Chunks.fields [k₁, k₂, k₃] chunk).getD i [])
      color (channel 0) (channel 1) (channel 2)) := by
  -- the fields of a chunk are windows of the bits
  have hfields : ∀ start, Chunks.fields [k₁, k₂, k₃] (Chunks.window false bits start (max (k₁ + k₂ + k₃) 1)) =
      [Chunks.window false bits start k₁, Chunks.window false bits (start + k₁) k₂,
        Chunks.window false bits (start + k₁ + k₂) k₃] := by
    intro start
    rw [Chunks.fields_window _ _ (by omega), Chunks.fields_window _ _ (by omega), Chunks.fields_window _ _ (by omega),
      Chunks.fields]
  refine decode_chunks (show 0 < max (k₁ + k₂ + k₃) 1 by omega) (fun start hstart => ?_) fun out => ?_
  · simp only [hfields]
    rw [scaleToU8_slice _ h₁ (by omega), scaleToU8_slice _ h₂ (by omega)]
    by_cases hzero : k₁ + k₂ + k₃ = 0
    · -- a pixel without channels is one bit that nothing reads
      obtain rfl : k₃ = 0 := by omega
      have hthird : ∀ value, scaleToU8 value 0 = .ok (level (Chunks.window false bits (start + k₁ + k₂) 0)) := by
        intro value
        have hempty : Chunks.window false bits (start + k₁ + k₂) 0 = [] := rfl
        rw [scaleToU8, if_pos rfl, hempty]
        rfl
      rw [Run.slice_eq_ok (by omega) (by omega)]
      simp only [bind, Except.bind, hthird]
      rfl
    · have hstop : start + max (k₁ + k₂ + k₃) 1 = start + k₁ + k₂ + k₃ := by omega
      rw [hstop, scaleToU8_slice _ h₃ (by omega)]
      rfl
  · simp only [hfields, scaleToU8_padded _ h₁, scaleToU8_padded _ h₂, scaleToU8_padded _ h₃]
    rfl

/-- What is decoded are the chunks of the bits. -/
theorem PixelFormat.decode_eq (ycbcrToRgb : UInt8 → UInt8 → UInt8 → UInt8 × UInt8 × UInt8) {format : PixelFormat}
    (h : format.Narrow) (bits : List Bool) : format.decode ycbcrToRgb bits = .ok (format.pixels ycbcrToRgb bits) := by
  have hsum : ∀ k₁ k₂ k₃ : ℕ, [k₁, k₂, k₃].sum = k₁ + k₂ + k₃ := by
    intro k₁ k₂ k₃
    rw [List.sum_cons, List.sum_cons, List.sum_singleton, Nat.add_assoc]
  cases format with
  | grayscale n =>
    have hn : max n 1 < 16 := h _ List.mem_cons_self
    rw [decode, decodeGrayscalePixels_eq bits (by omega), pixels, channels, List.sum_singleton, Nat.max_assoc,
      Nat.max_self]
    refine congrArg _ (List.map_congr_left fun chunk hchunk => ?_)
    -- the one channel is the chunk
    obtain ⟨i, -, rfl⟩ := List.mem_map.1 hchunk
    rw [pixel, channels, Chunks.fields_window _ _ le_rfl]
    rfl
  | rgb r g b =>
    have hr : r < 16 := h r (by simp [channels])
    have hg : g < 16 := h g (by simp [channels])
    have hb : b < 16 := h b (by simp [channels])
    rw [decode, decodeRgbPixels, decodeChannels_eq _ _ hr hg hb, pixels, channels, hsum]
    rfl
  | ycbcr y cb cr =>
    have hy : y < 16 := h y (by simp [channels])
    have hcb : cb < 16 := h cb (by simp [channels])
    have hcr : cr < 16 := h cr (by simp [channels])
    rw [decode, decodeYcbcrPixels, decodeChannels_eq _ _ hy hcb hcr, pixels, channels, hsum]
    rfl

/-- The pixels that are decoded from a number are the chunks of its bits, filled up with zeros in front, and those
that are decoded from a text of the number are the same. -/
theorem decode_frameBufferBits (ycbcrToRgb : UInt8 → UInt8 → UInt8 → UInt8 × UInt8 × UInt8) {format : PixelFormat}
    (h : format.Narrow) (width value : ℕ) :
    format.decode ycbcrToRgb (frameBufferBits (.bigUint value) width) =
        .ok (format.pixels ycbcrToRgb (zeroPadded value width)) ∧
      ∀ s : String, (∀ c ∈ s.toList, c = '0' ∨ c = '1') → Numerals.value 2 s.toList = value →
        format.decode ycbcrToRgb (frameBufferBits (.string s) width) =
          .ok (format.pixels ycbcrToRgb (zeroPadded value width)) := by
  constructor
  · rw [frameBufferBits_bigUint, format.decode_eq ycbcrToRgb h]
  · rintro s hs rfl
    rw [frameBufferBits_string hs, format.decode_eq ycbcrToRgb h]

theorem decode_frameBufferBits_five :
    (PixelFormat.rgb 1 1 1).decode (fun y _ _ => (y, y, y)) (frameBufferBits (.bigUint 22) 5) =
        .ok [.fromRgb 255 0 255, .fromRgb 255 0 0] ∧
      (PixelFormat.rgb 1 1 1).decode (fun y _ _ => (y, y, y)) (frameBufferBits (.string "10110") 5) =
        .ok [.fromRgb 255 0 255, .fromRgb 255 0 0] := by
  have hnarrow : (PixelFormat.rgb 1 1 1).Narrow := by simp [PixelFormat.Narrow, PixelFormat.channels]
  have h := decode_frameBufferBits (fun y _ _ => (y, y, y)) hnarrow 5 22
  exact ⟨h.1.trans (by decide), (h.2 "10110" (by simp) (by decide)).trans (by decide)⟩

/-- A channel of 16 bits is not decoded. -/
theorem not_forall_decode_eq :
    ¬ ∀ (ycbcrToRgb : UInt8 → UInt8 → UInt8 → UInt8 × UInt8 × UInt8) (format : PixelFormat) (width value : ℕ),
      format.decode ycbcrToRgb (frameBufferBits (.bigUint value) width) =
        .ok (format.pixels ycbcrToRgb (zeroPadded value width)) := by
  intro h
  have hpanic : (PixelFormat.rgb 16 0 0).decode (fun y _ _ => (y, y, y)) (frameBufferBits (.bigUint 0) 16) =
      .error (.assertion "attempt to shift left with overflow") := by decide
  cases hpanic.symm.trans (h _ _ 16 0)

/-! ## The settings -/

namespace PixelColorSettings

/-- No channel has more than eight bits. -/
structure InRange (s : PixelColorSettings) : Prop where
  grayscaleBits : s.grayscaleBits ≤ 8
  rgb : s.rBits ≤ 8 ∧ s.gBits ≤ 8 ∧ s.bBits ≤ 8
  ycbcr : s.yBits ≤ 8 ∧ s.cbBits ≤ 8 ∧ s.crBits ≤ 8

variable {s : PixelColorSettings}

theorem inRange_default : ({} : PixelColorSettings).InRange := ⟨by decide, by decide, by decide⟩

theorem InRange.setFrameBufferMode (h : s.InRange) (mode : FrameBufferColorMode) (bits₁ bits₂ bits₃ : UInt8) :
    (s.setFrameBufferMode mode bits₁ bits₂ bits₃).InRange := by
  have hmin : ∀ bits : UInt8, min bits 8 ≤ 8 := by
    intro bits
    change (if bits ≤ 8 then bits else 8) ≤ 8
    split
    · assumption
    · decide
  cases mode with
  | grayscale =>
    refine ⟨?_, h.rgb, h.ycbcr⟩
    change (if 1 ≤ min bits₁ 8 then min bits₁ 8 else 1) ≤ 8
    split
    · exact hmin bits₁
    · decide
  | rgb => exact ⟨h.grayscaleBits, ⟨hmin bits₁, hmin bits₂, hmin bits₃⟩, h.ycbcr⟩
  | ycbcr => exact ⟨h.grayscaleBits, h.rgb, ⟨hmin bits₁, hmin bits₂, hmin bits₃⟩⟩

theorem InRange.narrow (h : s.InRange) : s.format.Narrow := by
  have hle : ∀ {bits : UInt8}, bits ≤ 8 → bits.toNat < 16 := fun hbits => (UInt8.le_iff_toNat_le.1 hbits).trans_lt
    (by decide)
  rw [format]
  cases s.colorMode <;> simp only [PixelFormat.Narrow, PixelFormat.channels, List.forall_mem_cons, List.not_mem_nil,
    false_imp_iff, implies_true, and_true]
  · have := hle h.grayscaleBits
    omega
  · exact ⟨hle h.rgb.1, hle h.rgb.2.1, hle h.rgb.2.2⟩
  · exact ⟨hle h.ycbcr.1, hle h.ycbcr.2.1, hle h.ycbcr.2.2⟩

/-- Whatever modes are set, the window decodes the chunks, or asks for a channel where a pixel has none. -/
theorem decode_of_setFrameBufferMode (ycbcrToRgb : UInt8 → UInt8 → UInt8 → UInt8 × UInt8 × UInt8)
    (messages : List (FrameBufferColorMode × UInt8 × UInt8 × UInt8)) (bits : List Bool) :
    let s := messages.foldl (fun (s : PixelColorSettings) m => s.setFrameBufferMode m.1 m.2.1 m.2.2.1 m.2.2.2) {}
    s.decode ycbcrToRgb bits = .ok (if s.format.channels.sum = 0 then none else some (s.format.pixels ycbcrToRgb bits)) := by
  -- every message keeps the channels in range
  have hrun : ∀ s : PixelColorSettings, s.InRange →
      (messages.foldl (fun (s : PixelColorSettings) m => s.setFrameBufferMode m.1 m.2.1 m.2.2.1 m.2.2.2) s).InRange := by
    induction messages with
    | nil => exact fun _ h => h
    | cons m messages ih => exact fun s h => ih _ (h.setFrameBufferMode _ _ _ _)
  intro s
  have hdecode := s.format.decode_eq ycbcrToRgb (hrun _ inRange_default).narrow bits
  rw [decode]
  split
  next heq => rw [heq]; rfl
  next heq => rw [heq]; rfl
  next hrgb hycbcr =>
    have hchannels : s.format.channels.sum ≠ 0 := by
      -- the formats without channels are those that the window leaves out
      intro hsum
      generalize s.format = format at hsum hrgb hycbcr
      cases format with
      | grayscale n => simp [PixelFormat.channels] at hsum
      | rgb r g b =>
        obtain ⟨rfl, rfl, rfl⟩ : r = 0 ∧ g = 0 ∧ b = 0 := by simpa [PixelFormat.channels] using hsum
        exact hrgb rfl
      | ycbcr y cb cr =>
        obtain ⟨rfl, rfl, rfl⟩ : y = 0 ∧ cb = 0 ∧ cr = 0 := by simpa [PixelFormat.channels] using hsum
        exact hycbcr rfl
    rw [hdecode, if_neg hchannels]
    rfl

end PixelColorSettings

end FrameBuffer
