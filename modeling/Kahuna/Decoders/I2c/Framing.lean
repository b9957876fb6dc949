import Kahuna.Decoders.I2c.Decode
import Kahuna.Transducer.Basic
import Mathlib.Data.Nat.Bitwise

/-!
# What an I2C bus says

The framing of an I2C bus, apart from how the decoder computes it: a transducer from bus events to
tokens that keeps the bits latched since the last token boundary (`framing`), and the token sequence
of an event sequence (`busTokens`).

`contents_decodeEvents` connects it to the code: the words of the decoder are the tokens of the bus,
rendered one by one. The loop keeps a 64-bit accumulator where the framing keeps the list of bits;
`latched_spec` says what the accumulator holds, which is the packed bits and a mark that only the
last bit decides.
-/

namespace Decoders.I2c

/-- What is shown of an I2C bus, before it is rendered. -/
inductive Token where
  /-- A START, repeated when the bus was already held. -/
  | start (repeated : Bool)
  | stop
  /-- A completed byte with its eight latched bits, first bit first. -/
  | byte (isAddress : Bool) (latched : List Bit)
  /-- The acknowledge slot after a byte. -/
  | ack (bit : Bit)
  /-- A byte in progress that a STOP or the end of the trace closes. -/
  | cut (bits : ℕ)
  deriving DecidableEq, Repr

namespace Token

/-- The token is a completed byte. -/
def isByte : Token → Bool
  | byte .. => true
  | _ => false

end Token

/-- The framing state: whether a transaction is open, whether its address is still to come, and the
bits latched since the last START, STOP or acknowledge. -/
structure Frame where
  opened : Bool
  expectAddress : Bool
  latched : List Bit
  deriving DecidableEq, Repr

/-- Before the first event the bus is free. -/
def Frame.init : Frame := { opened := false, expectAddress := false, latched := [] }

/-- The token of a byte in progress, if there is one. -/
def Frame.closing (fr : Frame) : List Token :=
  if 0 < fr.latched.length then [.cut fr.latched.length] else []

/-- One event of the bus. -/
def Frame.step (fr : Frame) : Event → List Token × Frame
  | .start => ([.start fr.opened], { opened := true, expectAddress := true, latched := [] })
  | .stop => (fr.closing ++ [.stop], { fr with opened := false, latched := [] })
  | .sample bit =>
    if ¬ fr.opened then ([], fr)
    else if fr.latched.length = 8 then
      ([.ack bit], { fr with expectAddress := false, latched := [] })
    else
      let latched := fr.latched ++ [bit]
      (if latched.length = 8 then [.byte fr.expectAddress latched] else [], { fr with latched })

/-- The framing transducer. -/
def framing : Transducer Event Token Frame := ⟨Frame.step⟩

/-- The tokens of an event sequence, with the byte in progress at its end. -/
def busTokens (events : List Event) : List Token :=
  framing.emit .init events ++ (framing.final .init events).closing

/-! ## Reachable framing states -/

/-- At most one byte is in progress, and only inside a transaction. -/
structure Frame.WellFormed (fr : Frame) : Prop where
  length_le : fr.latched.length ≤ 8
  closed : fr.opened = false → fr.latched = []

theorem Frame.wellFormed_init : Frame.init.WellFormed := ⟨by simp [init], by simp [init]⟩

theorem Frame.WellFormed.step {fr : Frame} (h : fr.WellFormed) (event : Event) :
    (fr.step event).2.WellFormed := by
  obtain ⟨hlen, hclosed⟩ := h
  cases event with
  | start => exact ⟨by simp [Frame.step], by simp [Frame.step]⟩
  | stop => exact ⟨by simp [Frame.step], by simp [Frame.step]⟩
  | sample bit =>
    simp only [Frame.step]
    split
    · exact ⟨hlen, hclosed⟩
    · next hopen =>
      have hopened : fr.opened = true := by simpa using hopen
      split
      · exact ⟨by simp, by simp⟩
      · exact ⟨by simp; omega, by simp [hopened]⟩

/-! ## Packed bits -/

/-- The number whose binary digits are the given bits, first bit most significant. An invalid bit
takes its place as a 0. -/
def packed (bits : List Bit) : ℕ := bits.foldl (fun value bit => 2 * value + bit.toNat) 0

@[simp] theorem packed_nil : packed [] = 0 := rfl

@[simp]
theorem packed_concat (bits : List Bit) (bit : Bit) :
    packed (bits ++ [bit]) = 2 * packed bits + bit.toNat := by
  simp [packed]

theorem Bit.toNat_le_one (bit : Bit) : bit.toNat ≤ 1 := by
  cases bit <;> simp [Bit.toNat]

theorem packed_lt (bits : List Bit) : packed bits < 2 ^ bits.length := by
  induction bits using List.reverseRecOn with
  | nil => simp
  | append_singleton bits bit ih =>
    have hbit := Bit.toNat_le_one bit
    rw [packed_concat, List.length_append, List.length_singleton, pow_succ]
    omega

/-! ## The accumulator -/

/-- What the accumulator holds after the given bits: the packed bits, and the mark when the last bit
is invalid. An earlier mark does not survive the shift of the next bit. -/
def AccHolds (acc : UInt64) (latched : List Bit) : Prop :=
  acc.toNat = packed latched + if latched.getLast? = some .invalid then 2 ^ 63 else 0

theorem mark_toNat : mark.toNat = 2 ^ 63 := by decide

theorem accHolds_zero : AccHolds 0 [] := by simp [AccHolds]

/-- Shifting a byte's worth of bits by one drops the mark. -/
theorem AccHolds.shift {acc : UInt64} {latched : List Bit} (h : AccHolds acc latched)
    (hlen : latched.length < 8) : (acc <<< 1).toNat = 2 * packed latched := by
  have hlt : packed latched < 2 ^ 8 :=
    (packed_lt latched).trans_le (Nat.pow_le_pow_right (by omega) (by omega))
  have hone : (1 : UInt64).toNat % 64 = 1 := by decide
  rw [UInt64.toNat_shiftLeft, hone, Nat.shiftLeft_eq, h]
  split <;> omega

/-- Latching one more bit. -/
theorem AccHolds.latch {acc : UInt64} {latched : List Bit} (h : AccHolds acc latched)
    (hlen : latched.length < 8) (bit : Bit) :
    AccHolds (I2c.latch acc bit) (latched ++ [bit]) := by
  have hlt : packed latched < 2 ^ 8 :=
    (packed_lt latched).trans_le (Nat.pow_le_pow_right (by omega) (by omega))
  have hshift := h.shift hlen
  have hor : ∀ b : ℕ, b < 2 → 2 * packed latched ||| b = 2 * packed latched + b := fun b hb => by
    simpa using (Nat.two_pow_add_eq_or_of_lt (i := 1) hb (packed latched)).symm
  have hmark : 2 * packed latched ||| 2 ^ 63 = 2 * packed latched + 2 ^ 63 :=
    Nat.or_two_pow_eq_add_of_lt (by omega)
  rw [AccHolds, packed_concat, List.getLast?_concat]
  cases bit with
  | zero => simp [I2c.latch, Bit.toNat, hshift]
  | one => simp [I2c.latch, Bit.toNat, UInt64.toNat_or, hshift, hor]
  | invalid =>
    simpa [I2c.latch, Bit.toNat, UInt64.toNat_or, hshift, mark_toNat] using hmark

/-- The mark is seen exactly when the last bit is invalid. -/
theorem AccHolds.unreliable_iff {acc : UInt64} {latched : List Bit} (h : AccHolds acc latched)
    (hlen : latched.length ≤ 8) :
    unreliable acc = true ↔ latched.getLast? = some .invalid := by
  have hlt : packed latched < 2 ^ 63 :=
    (packed_lt latched).trans_le (Nat.pow_le_pow_right (by omega) (by omega))
  have htest : unreliable acc = true ↔ acc.toNat.testBit 63 = true := by
    rw [unreliable, decide_eq_true_iff, ne_eq, ← UInt64.toNat_inj, UInt64.toNat_and, mark_toNat,
      Nat.and_two_pow]
    cases acc.toNat.testBit 63 <;> simp
  rw [htest, h]
  by_cases hlast : latched.getLast? = some .invalid
  · rw [if_pos hlast, Nat.add_comm, Nat.testBit_two_pow_add_eq, Nat.testBit_lt_two_pow hlt]
    simp [hlast]
  · rw [if_neg hlast, Nat.add_zero, Nat.testBit_lt_two_pow hlt]
    simp [hlast]

/-- The byte read out of the accumulator is the packed bits. -/
theorem AccHolds.byte_toNat {acc : UInt64} {latched : List Bit} (h : AccHolds acc latched)
    (hlen : latched.length = 8) : (acc &&& 0xFF).toNat = packed latched := by
  have hlt : packed latched < 2 ^ 8 := hlen ▸ packed_lt latched
  have hmask : (0xFF : UInt64).toNat = 2 ^ 8 - 1 := by decide
  rw [UInt64.toNat_and, hmask, Nat.and_two_pow_sub_one_eq_mod, h]
  split <;> omega

/-! ## Rendering -/

/-- The text of a byte of the given value. -/
def valueText (s : I2cSettings) (isAddress : Bool) (value : ℕ) : String :=
  if isAddress && s.splitAddress then
    s.format.format (value / 2) 7 ++ " " ++ (if value % 2 = 0 then "W" else "R")
  else s.format.format value 8

/-- The text and kind of the word the decoder shows for a token. Of the bits of a byte only the last
one decides whether the byte is shown as unreliable. -/
def Token.render (s : I2cSettings) : Token → String × WordKind
  | .start repeated => (if repeated then "Sr" else "S", .data)
  | .stop => ("P", .data)
  | .byte isAddress latched =>
    if latched.getLast? = some .invalid then ("x", .error)
    else (valueText s isAddress (packed latched), .data)
  | .ack bit => if bit = .zero then ("A", .data) else ("N", .error)
  | .cut bits => (cutText bits, .error)

/-- The text the loop writes for a byte. -/
theorem AccHolds.byteText {acc : UInt64} {latched : List Bit} (h : AccHolds acc latched)
    (hlen : latched.length = 8) (s : I2cSettings) (isAddress : Bool) :
    I2c.byteText s isAddress acc
      = if latched.getLast? = some .invalid then "x" else valueText s isAddress (packed latched) := by
  have hshift : ((acc &&& 0xFF) >>> 1).toNat = packed latched / 2 := by
    rw [UInt64.toNat_shiftRight, h.byte_toNat hlen]
    simp [Nat.shiftRight_eq_div_pow]
  have hodd : (acc &&& 0xFF) &&& 1 = 0 ↔ packed latched % 2 = 0 := by
    rw [← UInt64.toNat_inj, UInt64.toNat_and, h.byte_toNat hlen]
    simp [Nat.and_one_is_mod]
  simp only [I2c.byteText, h.unreliable_iff hlen.le, hshift, hodd, h.byte_toNat hlen, valueText]

/-! ## The loop simulates the framing -/

/-- The loop variables represent a framing state. -/
structure Simulates (st : DecodeState) (fr : Frame) : Prop where
  opened : st.inTransaction = fr.opened
  bits : st.bits = fr.latched.length
  expectAddress : st.expectAddress = fr.expectAddress
  acc : AccHolds st.acc fr.latched
  wellFormed : fr.WellFormed

theorem simulates_init : Simulates .init .init :=
  ⟨rfl, rfl, rfl, accHolds_zero, Frame.wellFormed_init⟩

theorem map_content_push (clockPeriod : UInt64) (words : List DecodedWord) (start : UInt64)
    (text : String) (kind : WordKind) :
    (push clockPeriod words start text kind).map DecodedWord.content
      = words.map DecodedWord.content ++ [(text, kind)] := by
  simp [push, DecodedWord.content]

/-- The word pushed for a byte in progress is the rendered closing token. -/
theorem Simulates.contents_closing {st : DecodeState} {fr : Frame} (h : Simulates st fr)
    (s : I2cSettings) (clockPeriod : UInt64) :
    (if 0 < st.bits then push clockPeriod st.words st.byteStart (cutText st.bits) .error
      else st.words).map DecodedWord.content
      = st.words.map DecodedWord.content ++ fr.closing.map (Token.render s) := by
  rw [Frame.closing, h.bits]
  split
  · rw [map_content_push]
    rfl
  · simp

/-- One pass of the loop appends the rendered tokens of the event. -/
theorem Simulates.step {st : DecodeState} {fr : Frame} (h : Simulates st fr) (s : I2cSettings)
    (clockPeriod : UInt64) (time : UInt64) (event : Event) :
    (I2c.step s clockPeriod st (time, event)).words.map DecodedWord.content
        = st.words.map DecodedWord.content ++ (fr.step event).1.map (Token.render s) ∧
      Simulates (I2c.step s clockPeriod st (time, event)) (fr.step event).2 := by
  have hwf := h.wellFormed.step event
  cases event with
  | start =>
    refine ⟨?_, ⟨rfl, rfl, rfl, accHolds_zero, hwf⟩⟩
    simp only [I2c.step, Frame.step, map_content_push, h.opened]
    rfl
  | stop =>
    refine ⟨?_, ⟨rfl, rfl, h.expectAddress, accHolds_zero, hwf⟩⟩
    simp only [I2c.step, Frame.step, map_content_push, h.contents_closing s, List.map_append,
      List.append_assoc]
    rfl
  | sample bit =>
    by_cases hopen : fr.opened = true
    case neg =>
      have hst : ¬ st.inTransaction = true := by rwa [h.opened]
      simpa [I2c.step, Frame.step, hopen, hst] using h
    have hst : st.inTransaction = true := h.opened.trans hopen
    by_cases hfull : fr.latched.length = 8
    · -- the ninth clock
      have hbits : st.bits = 8 := h.bits.trans hfull
      simp only [Frame.step, hopen, hfull, not_true, if_false, if_true] at hwf
      constructor
      · simp only [I2c.step, Frame.step, hst, hopen, hbits, hfull, not_true, if_false, if_true,
          map_content_push]
        cases bit <;> rfl
      · simp only [I2c.step, Frame.step, hst, hopen, hbits, hfull, not_true, if_false, if_true]
        exact ⟨rfl, rfl, rfl, accHolds_zero, hwf⟩
    · have hlen : fr.latched.length < 8 := by have := h.wellFormed.length_le; omega
      have hbits : ¬ st.bits = 8 := by rwa [h.bits]
      have hacc := h.acc.latch hlen bit
      simp only [Frame.step, hopen, hfull, not_true, if_false] at hwf
      simp only [I2c.step, Frame.step, hst, hopen, hbits, hfull, not_true, if_false]
      refine ⟨?_, ⟨rfl, by simp [h.bits], h.expectAddress, hacc, hwf⟩⟩
      by_cases hlast : fr.latched.length + 1 = 8
      · have hlen' : (fr.latched ++ [bit]).length = 8 := by simpa using hlast
        have hbits' : st.bits + 1 = 8 := by rw [h.bits, hlast]
        simp only [hlen', hbits', if_true, List.map_append, List.map_singleton,
          DecodedWord.content, hacc.byteText hlen', hacc.unreliable_iff hlen'.le, h.expectAddress,
          Token.render]
        split <;> rfl
      · have hlen' : ¬ (fr.latched ++ [bit]).length = 8 := by simpa using hlast
        have hbits' : ¬ st.bits + 1 = 8 := by rwa [h.bits]
        simp [hlast, hbits']

/-- The words of the decoder are the tokens of the bus, rendered one by one. -/
theorem contents_decodeEvents (s : I2cSettings) (clockPeriod : UInt64)
    (events : List (UInt64 × Event)) :
    (decodeEvents s clockPeriod events).map DecodedWord.content
      = (busTokens (events.map Prod.snd)).map (Token.render s) := by
  obtain ⟨hwords, hfinal⟩ := framing.foldl_simulates
    (f := I2c.step s clockPeriod) (fun st => st.words.map DecodedWord.content)
    (fun _ _ x h => Simulates.step h s clockPeriod x.1 x.2) simulates_init events
  have hclosing := hfinal.contents_closing s clockPeriod
  rw [decodeEvents, map_content_closeGaps, finish, hclosing, hwords, busTokens]
  simp [DecodeState.init]

end Decoders.I2c
