import Kahuna.Decoders.Uart.Decode
import Kahuna.Decoders.Basic

/-!
# UART round trip

A sender puts words on a line that idles high, frame by frame: a start bit, the data bits, the parity
bit if there is one, and the stop bits, with any time between the frames. The recording of the line
may repeat values or leave repeated values out; all that matters is the level at each time.

* `Carries`: the recordings of a line that carries some frames;
* `frameWord_of_sent`: a frame whose bits have the right levels is read as the word that was sent;
* `frameStarts_of_spaced`: the frames found are the frames sent;
* `decode_of_carries`: the decoder returns the words that were sent.
-/

namespace Decoders.Uart

/-! ## Sending -/

/-- Settings for which the decoder's limits on the number of bits have no effect, on a line that
idles high, with a bit period that was set. -/
structure SenderSettings (s : UartSettings) (period : UInt64) : Prop where
  idleHigh : s.idleHigh = true
  bitPeriod : s.bitPeriod = some period
  pos : 0 < period.toNat
  dataBits : 5 ≤ s.dataBits ∧ s.dataBits ≤ 9
  stopBits : s.stopBits = 1 ∨ s.stopBits = 2

/-- The parity bit makes the number of ones even or odd. -/
def parityBit (parity : Parity) (ones : ℕ) : Bool :=
  match parity with
  | .odd => ones % 2 = 0
  | _ => ones % 2 = 1

/-- The levels of the bits of a frame. -/
def sentLevel (s : UartSettings) (word index : ℕ) : Bit :=
  if index = 0 then .zero
  else if index ≤ s.dataBits then .ofBool (s.bitOrder.sentBit s.dataBits word (index - 1))
  else if index = s.dataBits + 1 ∧ s.parity ≠ .none then
    .ofBool (parityBit s.parity (BitOrder.onesOf s.dataBits word))
  else .one

/-- A word that is sent at some time. -/
structure Frame where
  start : UInt64
  word : ℕ

section Sending

variable (s : UartSettings) (period : UInt64)

/-- Where a frame ends. -/
def Frame.endTime (f : Frame) : ℕ := f.start.toNat + s.frameBits * period.toNat

/-- The frames follow each other from the time `free` on, words fit the number of data bits, and
no frame ends past the largest time. -/
def Spaced : ℕ → List Frame → Prop
  | _, [] => True
  | free, f :: rest =>
    free ≤ f.start.toNat ∧ f.word < 2 ^ s.dataBits ∧ f.endTime s period < 2 ^ 64 ∧
      Spaced (f.endTime s period) rest

/-- The level of the line at a time. -/
def levelAt : List Frame → ℕ → Bit
  | [], _ => .one
  | f :: rest, t =>
    if t < f.start.toNat then .one
    else if t < f.endTime s period then sentLevel s f.word ((t - f.start.toNat) / period.toNat)
    else levelAt rest t

/-- The recording of a line that carries some frames. It starts at `first`, with the idle level. -/
structure Carries (line : BitLane) (first : UInt64) (frames : List Frame) : Prop where
  increasing : line.Increasing
  spaced : Spaced s period (first.toNat + 1) frames
  value : ∀ t, line.valueAt t
    = if first ≤ t then some (levelAt s period frames t.toNat) else none

end Sending

variable {s : UartSettings} {period : UInt64} {line : BitLane}

namespace SenderSettings

variable (h : SenderSettings s period)

include h

theorem clampedDataBits : s.clampedDataBits = s.dataBits := by
  have hbits := h.dataBits
  rw [UartSettings.clampedDataBits]
  omega

theorem clampedStopBits : s.clampedStopBits = s.stopBits := by
  have hbits := h.stopBits
  rw [UartSettings.clampedStopBits]
  omega

theorem idle : s.idle = .one := by rw [UartSettings.idle, h.idleHigh, if_pos rfl]

theorem start : s.start = .zero := by rw [UartSettings.start, h.idleHigh, if_pos rfl]

/-- The number of bits of a frame is small. -/
theorem frameBits_le : s.frameBits ≤ 13 := by
  have hdata := h.dataBits
  have hstop := h.stopBits
  rw [UartSettings.frameBits, h.clampedDataBits, h.clampedStopBits, UartSettings.parityBits]
  split <;> omega

end SenderSettings

/-! ## Reading one frame -/

/-- Behind the parity bit, or behind the data bits when there is none, come the stop bits. -/
theorem sentLevel_stop {word index : ℕ} (hindex : s.dataBits + s.parityBits + 1 ≤ index) :
    sentLevel s word index = .one := by
  rw [sentLevel, if_neg (by omega), if_neg (by omega), if_neg]
  rintro ⟨hindex', hparity⟩
  rw [UartSettings.parityBits, if_neg hparity] at hindex
  omega

section Read

variable {f : Frame}

/-- Every bit of the frame is sampled at the level it was sent with. -/
def ReadsFrame (s : UartSettings) (line : BitLane) (period : UInt64) (f : Frame) : Prop :=
  ∀ i < s.frameBits, sampleAt line period f.start i = some (sentLevel s f.word i)

/-- The word of a frame, as it was sent. -/
def Frame.decoded (s : UartSettings) (period : UInt64) (f : Frame) : DecodedWord :=
  { start := f.start
    end_ := frameEnd s period f.start
    text := s.format.format f.word s.dataBits
    kind := .data }

variable (h : SenderSettings s period)

include h

theorem sample_data (hf : ReadsFrame s line period f) {i : ℕ} (hi : i < s.dataBits) :
    sampleAt line period f.start (i + 1)
      = some (.ofBool (s.bitOrder.sentBit s.dataBits f.word i)) := by
  have hbits : i + 1 < s.frameBits := by
    rw [UartSettings.frameBits, h.clampedDataBits]
    omega
  rw [hf (i + 1) hbits, sentLevel, if_neg (Nat.succ_ne_zero i), if_pos (Nat.succ_le_of_lt hi),
    Nat.add_sub_cancel]

/-- The data bits are taken in one after the other. -/
theorem readBits_value (hf : ReadsFrame s line period f) (hword : f.word < 2 ^ s.dataBits) :
    (readBits s line f.start period).value = f.word := by
  have hfold : ∀ count ≤ s.dataBits,
      ((List.range count).foldl (readBit s line f.start period) ⟨0, 0, false⟩).value
        = s.bitOrder.received s.dataBits f.word count := by
    intro count hcount
    induction count with
    | zero => exact (BitOrder.received_zero hword).symm
    | succ count ih =>
      have hbit := sample_data h hf hcount
      rw [List.range_succ, List.foldl_append, List.foldl_cons, List.foldl_nil,
        BitOrder.received_succ hcount, ← ih (Nat.le_of_succ_le hcount), readBit]
      rw [sampleAt] at hbit
      rw [hbit, h.idle]
      cases s.bitOrder.sentBit s.dataBits f.word count with
      | false => cases s.bitOrder <;> rfl
      | true => cases s.bitOrder <;> rfl
  rw [readBits, h.clampedDataBits, hfold _ le_rfl, BitOrder.received_size hword]

theorem dataClean_of_sent (hf : ReadsFrame s line period f) :
    DataClean s line period f.start := by
  intro i hi
  rw [h.clampedDataBits] at hi
  rw [sample_data h hf hi, Bit.ofBool]
  split
  · exact .inr rfl
  · exact .inl rfl

theorem marks_of_sent (hf : ReadsFrame s line period f) :
    marks s line period f.start s.dataBits = BitOrder.onesOf s.dataBits f.word := by
  rw [← s.bitOrder.countP_sentBit, marks]
  apply List.countP_congr
  intro i hi
  rw [sample_data h hf (List.mem_range.1 hi), h.idle]
  simp

theorem parityPasses_of_sent (hf : ReadsFrame s line period f) (hparity : s.parity ≠ .none) :
    ParityPasses s line period f.start := by
  have hbits : s.dataBits + 1 < s.frameBits := by
    rw [UartSettings.frameBits, h.clampedDataBits, UartSettings.parityBits, if_neg hparity,
      h.clampedStopBits]
    have hstop := h.stopBits
    omega
  have hsample : paritySample s line period f.start
      = some (.ofBool (parityBit s.parity (BitOrder.onesOf s.dataBits f.word))) := by
    rw [paritySample, h.clampedDataBits, hf _ hbits, sentLevel, if_neg (Nat.succ_ne_zero _),
      if_neg (by omega), if_pos ⟨rfl, hparity⟩]
  rw [ParityPasses, hsample, h.clampedDataBits, marks_of_sent h hf, Option.some_inj,
    Bit.ofBool_eq_one]
  cases hkind : s.parity with
  | none => exact absurd hkind hparity
  | even => simp [parityBit]
  | odd => simp [parityBit]

theorem stopsIdle_of_sent (hf : ReadsFrame s line period f) : StopsIdle s line period f.start := by
  intro i hi
  have hbits : s.clampedDataBits + s.parityBits + 1 + i < s.frameBits := by
    rw [UartSettings.frameBits]
    omega
  rw [hf _ hbits, h.idle, h.clampedDataBits, sentLevel_stop (by omega)]

/-- A frame whose bits are sampled at the levels they were sent with is read as the word sent. -/
theorem frameWord_of_sent (hf : ReadsFrame s line period f) (hword : f.word < 2 ^ s.dataBits) :
    frameWord s line period f.start = f.decoded s period := by
  have hdata := dataClean_of_sent h hf
  have hstops := stopsIdle_of_sent h hf
  have herror : frameError s line f.start period (readBits s line f.start period) = none := by
    rw [frameError_eq, if_neg (not_not.2 hdata), if_neg, if_neg (not_not.2 hstops)]
    rintro ⟨hparity, hfails⟩
    exact hfails (parityPasses_of_sent h hf hparity)
  rw [frameWord, herror, readBits_value h hf hword, h.clampedDataBits]
  rfl

end Read

/-! ## Finding the frames -/

section Find

variable {f : Frame} {rest : List Frame} {free : ℕ}

/-- Where a bit of a frame begins, or the frame ends: no sum overflows. -/
theorem toNat_add_bits {start : UInt64} {i : ℕ} (hi : i ≤ 13)
    (hend : start.toNat + i * period.toNat < 2 ^ 64) :
    (start + UInt64.ofNat i * period).toNat = start.toNat + i * period.toNat := by
  have hindex : (UInt64.ofNat i).toNat = i := UInt64.toNat_ofNat_of_lt (by simp [UInt64.size]; omega)
  rw [UInt64.toNat_add, UInt64.toNat_mul, hindex, Nat.mod_eq_of_lt (by omega : i * period.toNat < 2 ^ 64),
    Nat.mod_eq_of_lt hend]

/-- The bits of a frame follow each other. -/
theorem mul_add_le_of_lt (period : UInt64) {i : ℕ} (hi : i < s.frameBits) :
    i * period.toNat + period.toNat ≤ s.frameBits * period.toNat := by
  rw [← Nat.succ_mul]
  exact Nat.mul_le_mul_right _ hi

/-- The centre of a bit lies inside the bit. -/
theorem toNat_centre {start : UInt64} (hbits : s.frameBits ≤ 13)
    (hend : start.toNat + s.frameBits * period.toNat < 2 ^ 64) {i : ℕ} (hi : i < s.frameBits) :
    (centre start period i).toNat = start.toNat + i * period.toNat + period.toNat / 2 := by
  have hlt := mul_add_le_of_lt period hi
  have hhalf : (period / 2).toNat = period.toNat / 2 := by simp
  rw [centre, UInt64.toNat_add, toNat_add_bits (by omega) (by omega), hhalf,
    Nat.mod_eq_of_lt (by omega)]

/-- The first frame is sampled at the levels it was sent with. -/
theorem readsFrame_head (h : SenderSettings s period) (hspaced : Spaced s period free (f :: rest))
    (hvalue : ∀ t : UInt64, free ≤ t.toNat →
      line.valueAt t = some (levelAt s period (f :: rest) t.toNat)) :
    ReadsFrame s line period f := by
  obtain ⟨hfree, -, hend, -⟩ := hspaced
  intro i hi
  have hcentre := toNat_centre h.frameBits_le hend hi
  have hhalf : period.toNat / 2 < period.toNat := Nat.div_lt_self h.pos (by decide)
  have hlt := mul_add_le_of_lt period hi
  rw [sampleAt, hvalue _ (by omega), hcentre, levelAt, if_neg (by omega), if_pos]
  · congr 2
    rw [Nat.add_assoc, Nat.add_sub_cancel_left, Nat.add_comm, Nat.add_mul_div_right _ _ h.pos,
      Nat.div_eq_of_lt hhalf, Nat.zero_add]
  · rw [Frame.endTime]
    omega

/-- A frame ends where the decoder looks for the next one. -/
theorem toNat_frameEnd (h : SenderSettings s period) (hend : f.endTime s period < 2 ^ 64) :
    (frameEnd s period f.start).toNat = f.endTime s period := by
  exact toNat_add_bits h.frameBits_le hend

theorem frameBits_pos : 0 < s.frameBits := by
  rw [UartSettings.frameBits]
  omega

theorem start_lt_endTime (h : SenderSettings s period) : f.start.toNat < f.endTime s period := by
  have hpos : 0 < s.frameBits * period.toNat :=
    Nat.mul_pos frameBits_pos h.pos
  rw [Frame.endTime]
  omega

/-- No frame starts before the time the line is free. -/
theorem Spaced.free_le {frames : List Frame} (h : SenderSettings s period)
    (hspaced : Spaced s period free frames) : ∀ f ∈ frames, free ≤ f.start.toNat := by
  induction frames generalizing free with
  | nil => simp
  | cons f rest ih =>
    obtain ⟨hfree, -, -, hrest⟩ := hspaced
    have hlt := start_lt_endTime (f := f) h
    refine List.forall_mem_cons.2 ⟨hfree, fun g hg => ?_⟩
    have hg' := ih hrest g hg
    omega

/-- Before the frames the line is idle. -/
theorem Spaced.levelAt_of_lt {frames : List Frame} (hspaced : Spaced s period free frames) {t : ℕ}
    (ht : t < free) : levelAt s period frames t = .one := by
  cases frames with
  | nil => rfl
  | cons f rest => rw [levelAt, if_pos (ht.trans_le hspaced.1)]

/-- Behind the first frame, the level is that of the other frames. -/
theorem levelAt_of_endTime_le (h : SenderSettings s period) {t : ℕ} (ht : f.endTime s period ≤ t) :
    levelAt s period (f :: rest) t = levelAt s period rest t := by
  have hlt := start_lt_endTime (f := f) h
  rw [levelAt, if_neg (by omega), if_neg (by omega)]

/-- A frame begins with a start bit, behind the idle level or a stop bit. -/
theorem levelAt_start {frames : List Frame} (h : SenderSettings s period) (hfree : 0 < free)
    (hspaced : Spaced s period free frames) :
    ∀ f ∈ frames, levelAt s period frames f.start.toNat = .zero ∧
      levelAt s period frames (f.start.toNat - 1) = .one := by
  induction frames generalizing free with
  | nil => simp
  | cons f rest ih =>
    obtain ⟨hstart, -, -, hrest⟩ := hspaced
    have hlt := start_lt_endTime (f := f) h
    refine List.forall_mem_cons.2 ⟨⟨?_, ?_⟩, fun g hg => ?_⟩
    · rw [levelAt, if_neg (lt_irrefl _), if_pos hlt, Nat.sub_self, Nat.zero_div, sentLevel,
        if_pos rfl]
    · rw [levelAt, if_pos (by omega)]
    · have hle := hrest.free_le h g hg
      obtain ⟨hzero, hone⟩ := ih (by omega) hrest g hg
      refine ⟨by rw [levelAt_of_endTime_le h hle, hzero], ?_⟩
      rcases Nat.lt_or_ge (g.start.toNat - 1) (f.endTime s period) with hlast | hgap
      · -- right behind a frame, the level before is that of its last stop bit
        rw [levelAt, if_neg (by omega), if_pos hlast]
        apply sentLevel_stop
        have hstop := h.stopBits
        rw [Nat.le_div_iff_mul_le h.pos]
        have hbits : s.dataBits + s.parityBits + 1 + 1 ≤ s.frameBits := by
          rw [UartSettings.frameBits, h.clampedDataBits, h.clampedStopBits]
          omega
        have hmul := Nat.mul_le_mul_right period.toNat hbits
        have hpos := h.pos
        rw [Nat.succ_mul] at hmul
        rw [Frame.endTime] at hle
        omega
      · rw [levelAt_of_endTime_le h hgap, hone]

/-- The frames found are the frames sent. -/
theorem frameStarts_of_spaced (h : SenderSettings s period) {frames : List Frame}
    {nextFree : UInt64} {edges : List UInt64} (hspaced : Spaced s period free frames)
    (hvalue : ∀ t : UInt64, free ≤ t.toNat →
      line.valueAt t = some (levelAt s period frames t.toNat))
    (hsorted : edges.Pairwise (· < ·)) (hzero : ∀ e ∈ edges, line.valueAt e = some .zero)
    (hnext : ∀ e ∈ edges, nextFree ≤ e → free ≤ e.toNat)
    (hstarts : ∀ f ∈ frames, f.start ∈ edges ∧ nextFree ≤ f.start) :
    frameStarts s line period nextFree edges = frames.map Frame.start := by
  induction edges generalizing frames free nextFree with
  | nil =>
    cases frames with
    | nil => rfl
    | cons f rest => exact absurd (hstarts f List.mem_cons_self).1 (by simp)
  | cons e edges ih =>
    obtain ⟨hlater, hsorted'⟩ := List.pairwise_cons.1 hsorted
    rw [List.forall_mem_cons] at hzero hnext
    -- a frame that starts behind the edge starts at one of the other edges
    have hbehind : ∀ f ∈ frames, e < f.start → f.start ∈ edges := by
      intro f hf hlt
      rcases List.mem_cons.1 (hstarts f hf).1 with heq | hmem
      · exact absurd heq hlt.ne'
      · exact hmem
    rw [frameStarts]
    split
    next hinside =>
      exact ih hspaced hvalue hsorted' hzero.2 hnext.2
        fun f hf => ⟨hbehind f hf (hinside.trans_le (hstarts f hf).2), (hstarts f hf).2⟩
    next hfree =>
      have hlevel := hvalue e (hnext.1 (not_lt.1 hfree))
      rw [hzero.1, Option.some_inj] at hlevel
      -- the line is not idle, so the edge is the start of the next frame
      cases frames with
      | nil => exact absurd hlevel.symm (by simp [levelAt])
      | cons f rest =>
        have hstart : f.start = e := by
          rcases List.mem_cons.1 (hstarts f List.mem_cons_self).1 with heq | hmem
          · exact heq
          · have hlt : e < f.start := hlater _ hmem
            rw [levelAt, if_pos (UInt64.lt_iff_toNat_lt.1 hlt)] at hlevel
            exact absurd hlevel (by simp)
        subst hstart
        have hreads := readsFrame_head h hspaced hvalue
        have hbit : line.valueAt (centre f.start period 0) = some s.start := by
          rw [h.start]
          exact hreads 0 frameBits_pos
        obtain ⟨-, -, hend, hrest⟩ := hspaced
        have hend' := toNat_frameEnd h hend
        rw [if_neg (not_not.2 hbit), List.map_cons]
        congr 1
        apply ih hrest _ hsorted' hzero.2
        · intro e' _ hle
          rwa [UInt64.le_iff_toNat_le, hend'] at hle
        · intro g hg
          have hle := hrest.free_le h g hg
          refine ⟨hbehind g (List.mem_cons_of_mem _ hg) ?_, ?_⟩
          · rw [UInt64.lt_iff_toNat_lt]
            exact (start_lt_endTime h).trans_le hle
          · rwa [UInt64.le_iff_toNat_le, hend']
        · intro t ht
          rw [hvalue t ?_, levelAt_of_endTime_le h ht]
          have hle := (hnext.1 (not_lt.1 hfree)).trans (start_lt_endTime h).le
          exact hle.trans ht

/-- Every frame is sampled at the levels it was sent with. -/
theorem forall_readsFrame (h : SenderSettings s period) {frames : List Frame}
    (hspaced : Spaced s period free frames)
    (hvalue : ∀ t : UInt64, free ≤ t.toNat →
      line.valueAt t = some (levelAt s period frames t.toNat)) :
    ∀ f ∈ frames, ReadsFrame s line period f ∧ f.word < 2 ^ s.dataBits := by
  induction frames generalizing free with
  | nil => simp
  | cons f rest ih =>
    have hhead := readsFrame_head h hspaced hvalue
    obtain ⟨hfree, hword, -, hrest⟩ := hspaced
    refine List.forall_mem_cons.2 ⟨⟨hhead, hword⟩, ih hrest fun t ht => ?_⟩
    have hlt := start_lt_endTime (f := f) h
    rw [hvalue t (by omega), levelAt_of_endTime_le h ht]

/-- The edges of a recording are where the level falls. -/
theorem start_mem_edgesTo {first : UInt64} {frames : List Frame} (h : SenderSettings s period)
    (hline : Carries s period line first frames) :
    ∀ f ∈ frames, f.start ∈ line.edgesTo .zero := by
  intro f hf
  obtain ⟨hzero, hone⟩ := levelAt_start h first.toNat.succ_pos hline.spaced f hf
  have hfree := hline.spaced.free_le h f hf
  -- the time right before the frame
  have hbefore : (f.start - 1).toNat = f.start.toNat - 1 := by
    rw [UInt64.toNat_sub_of_le _ _ (by rw [UInt64.le_iff_toNat_le]; simp; omega)]
    rfl
  rw [BitLane.edgesTo_eq]
  refine @Timeline.mem_edgesTo_of_next _ _ _ _ _ hline.increasing (f.start - 1) f.start .one .zero
    ?_ ?_ ?_ ?_ (by decide)
  · rw [UInt64.lt_iff_toNat_lt, hbefore]
    omega
  · intro r hr
    rw [UInt64.lt_iff_toNat_lt, hbefore] at hr
    rw [UInt64.le_iff_toNat_le]
    omega
  · rw [← BitLane.valueAt_eq, hline.value, if_pos, hbefore, hone]
    rw [UInt64.le_iff_toNat_le, hbefore]
    omega
  · rw [← BitLane.valueAt_eq, hline.value, if_pos, hzero]
    rw [UInt64.le_iff_toNat_le]
    omega

end Find

/-- The decoder returns the words that were sent, in order. -/
theorem decode_of_carries {s : UartSettings} {period : UInt64} (h : SenderSettings s period)
    {line : BitLane} {first : UInt64} {frames : List Frame}
    (hline : Carries s period line first frames) :
    s.decode [some line] =
      [{ name := "Data", words := frames.map (Frame.decoded s period) }] := by
  have hvalue : ∀ t : UInt64, first.toNat + 1 ≤ t.toNat →
      line.valueAt t = some (levelAt s period frames t.toNat) := by
    intro t ht
    rw [hline.value, if_pos (UInt64.le_iff_toNat_le.2 (Nat.le_of_succ_le ht))]
  have hzero : ∀ e ∈ line.edgesTo .zero, line.valueAt e = some .zero := by
    intro e he
    rw [BitLane.edgesTo_eq] at he
    rw [BitLane.valueAt_eq]
    exact Timeline.valueAt_of_mem hline.increasing (Timeline.exists_mem_of_mem_edgesFrom _ he)
  have hafter : ∀ e ∈ line.edgesTo .zero, first.toNat + 1 ≤ e.toNat := by
    intro e he
    have hlevel := hline.value e
    rw [hzero e he] at hlevel
    split at hlevel
    next hle =>
      by_contra hlt
      -- the first level is the idle level
      rw [hline.spaced.levelAt_of_lt (Nat.lt_of_not_le hlt)] at hlevel
      cases hlevel
    next => cases hlevel
  have hstarts : frameStarts s line period 0 (line.edgesTo .zero) = frames.map Frame.start := by
    refine frameStarts_of_spaced h hline.spaced hvalue ?_ hzero (fun e he _ => hafter e he) ?_
    · rw [BitLane.edgesTo_eq]
      exact Timeline.pairwise_edgesFrom _ hline.increasing
    · exact fun f hf => ⟨start_mem_edgesTo h hline f hf, UInt64.le_iff_toNat_le.2 (Nat.zero_le _)⟩
  have hperiod : s.resolveBitPeriod line = some period := by
    rw [UartSettings.resolveBitPeriod, h.bitPeriod]
    exact if_pos (UInt64.lt_iff_toNat_lt.2 (by simpa using h.pos))
  simp only [s.decode_line, UartSettings.words, hperiod, h.start, hstarts, List.map_map]
  congr 2
  apply List.map_congr_left
  intro f hf
  obtain ⟨hreads, hword⟩ := forall_readsFrame h hline.spaced hvalue f hf
  exact frameWord_of_sent h hreads hword

/-! ## A recording -/

section Encode

variable (s : UartSettings) (period : UInt64)

/-- The changes of a frame, one for each of its bits. -/
def Frame.changes (f : Frame) : List (UInt64 × Bit) :=
  (List.range s.frameBits).map fun i =>
    (f.start + UInt64.ofNat i * period, sentLevel s f.word i)

/-- A recording of a line that carries some frames. -/
def encode (first : UInt64) (frames : List Frame) : BitLane :=
  ⟨(first, .one) :: frames.flatMap (Frame.changes s period)⟩

end Encode

section Encode

variable {s : UartSettings} {period : UInt64} {f : Frame} {rest frames : List Frame} {free : ℕ}

/-- The changes of a frame are at the beginnings of its bits. -/
theorem of_mem_changes (h : SenderSettings s period) (hend : f.endTime s period < 2 ^ 64)
    {c : UInt64 × Bit} (hc : c ∈ f.changes s period) : ∃ i < s.frameBits,
      c.1.toNat = f.start.toNat + i * period.toNat ∧ c.2 = sentLevel s f.word i := by
  obtain ⟨i, hi, rfl⟩ := List.mem_map.1 hc
  rw [List.mem_range] at hi
  have hlt := mul_add_le_of_lt period hi
  have hbits := h.frameBits_le
  rw [Frame.endTime] at hend
  exact ⟨i, hi, toNat_add_bits (by omega) (by omega), rfl⟩

theorem exists_change (h : SenderSettings s period) (hend : f.endTime s period < 2 ^ 64) {i : ℕ}
    (hi : i < s.frameBits) :
    ∃ c ∈ f.changes s period, c.1.toNat = f.start.toNat + i * period.toNat ∧
      c.2 = sentLevel s f.word i := by
  have hlt := mul_add_le_of_lt period hi
  have hbits := h.frameBits_le
  rw [Frame.endTime] at hend
  exact ⟨_, List.mem_map_of_mem (List.mem_range.2 hi), toNat_add_bits (by omega) (by omega), rfl⟩

/-- The changes of a frame lie inside it. -/
theorem bounds_of_mem_changes (h : SenderSettings s period) (hend : f.endTime s period < 2 ^ 64)
    {c : UInt64 × Bit} (hc : c ∈ f.changes s period) :
    f.start.toNat ≤ c.1.toNat ∧ c.1.toNat < f.endTime s period := by
  obtain ⟨i, hi, htime, -⟩ := of_mem_changes h hend hc
  have hlt := mul_add_le_of_lt period hi
  have hpos := h.pos
  rw [Frame.endTime]
  omega

/-- The changes of the frames lie behind the time the line is free. -/
theorem free_le_of_mem_flatMap (h : SenderSettings s period) (hspaced : Spaced s period free frames)
    {c : UInt64 × Bit} (hc : c ∈ frames.flatMap (Frame.changes s period)) : free ≤ c.1.toNat := by
  induction frames generalizing free with
  | nil => simp at hc
  | cons f rest ih =>
    obtain ⟨hfree, -, hend, hrest⟩ := hspaced
    rw [List.flatMap_cons, List.mem_append] at hc
    rcases hc with hc | hc
    · exact hfree.trans (bounds_of_mem_changes h hend hc).1
    · exact hfree.trans ((start_lt_endTime h).le.trans (ih hrest hc))

theorem increasing_changes (h : SenderSettings s period) (hend : f.endTime s period < 2 ^ 64) :
    Timeline.Increasing (f.changes s period) := by
  refine List.pairwise_map.2 (List.pairwise_lt_range.imp_of_mem fun {i j} hi hj hij => ?_)
  have hlt := mul_add_le_of_lt period (List.mem_range.1 hj)
  have hmul := Nat.mul_le_mul_right period.toNat (Nat.succ_le_of_lt hij)
  have hbits := h.frameBits_le
  have hpos := h.pos
  rw [List.mem_range] at hi hj
  rw [Nat.succ_mul] at hmul
  rw [Frame.endTime] at hend
  rw [UInt64.lt_iff_toNat_lt, toNat_add_bits (by omega) (by omega),
    toNat_add_bits (by omega) (by omega)]
  omega

theorem increasing_flatMap (h : SenderSettings s period) (hspaced : Spaced s period free frames) :
    Timeline.Increasing (frames.flatMap (Frame.changes s period)) := by
  induction frames generalizing free with
  | nil => exact List.Pairwise.nil
  | cons f rest ih =>
    obtain ⟨-, -, hend, hrest⟩ := hspaced
    refine List.pairwise_append.2 ⟨increasing_changes h hend, ih hrest, fun c hc d hd => ?_⟩
    rw [UInt64.lt_iff_toNat_lt]
    exact (bounds_of_mem_changes h hend hc).2.trans_le (free_le_of_mem_flatMap h hrest hd)

/-- At each time from some idle change on, the last change has the level of the line. -/
theorem exists_last_change (h : SenderSettings s period) (hspaced : Spaced s period free frames)
    {u t : UInt64} (hu : u.toNat < free) (hut : u ≤ t) :
    ∃ c ∈ (u, Bit.one) :: frames.flatMap (Frame.changes s period), c.1 ≤ t ∧
      (∀ d ∈ (u, Bit.one) :: frames.flatMap (Frame.changes s period), d.1 ≤ t → d.1 ≤ c.1) ∧
        c.2 = levelAt s period frames t.toNat := by
  induction frames generalizing free u with
  | nil => exact ⟨(u, .one), by simp, hut, by simp, rfl⟩
  | cons f rest ih =>
    obtain ⟨hfree, -, hend, hrest⟩ := hspaced
    have hpos := h.pos
    rw [List.flatMap_cons]
    rcases Nat.lt_or_ge t.toNat f.start.toNat with hbefore | hstarted
    · -- before the frame nothing has changed
      refine ⟨(u, .one), List.mem_cons_self, hut, ?_, ?_⟩
      · intro d hd hdt
        rcases List.mem_cons.1 hd with rfl | hd
        · exact le_rfl
        have hd' : f.start.toNat ≤ d.1.toNat := by
          rcases List.mem_append.1 hd with hd | hd
          · exact (bounds_of_mem_changes h hend hd).1
          · exact (start_lt_endTime h).le.trans (free_le_of_mem_flatMap h hrest hd)
        rw [UInt64.le_iff_toNat_le] at hdt
        omega
      · rw [levelAt, if_pos hbefore]
    · rcases Nat.lt_or_ge t.toNat (f.endTime s period) with hinside | hbehind
      · -- inside the frame it is the change of the bit
        set k := (t.toNat - f.start.toNat) / period.toNat with hk
        have hbit : k < s.frameBits := by
          rw [Frame.endTime] at hinside
          exact Nat.div_lt_of_lt_mul (by rw [Nat.mul_comm]; omega)
        obtain ⟨c, hc, htime, hlevel⟩ := exists_change h hend hbit
        have hkt : k * period.toNat ≤ t.toNat - f.start.toNat := Nat.div_mul_le_self _ _
        refine ⟨c, List.mem_cons_of_mem _ (List.mem_append_left _ hc), ?_, ?_, ?_⟩
        · rw [UInt64.le_iff_toNat_le]
          omega
        · intro d hd hdt
          rw [UInt64.le_iff_toNat_le] at hdt ⊢
          rcases List.mem_cons.1 hd with rfl | hd
          · show u.toNat ≤ c.1.toNat
            omega
          rcases List.mem_append.1 hd with hd | hd
          · obtain ⟨i, -, hi, -⟩ := of_mem_changes h hend hd
            have hik : i ≤ k := by
              rw [hk, Nat.le_div_iff_mul_le h.pos]
              omega
            have hmul := Nat.mul_le_mul_right period.toNat hik
            omega
          · have hd' := free_le_of_mem_flatMap h hrest hd
            omega
        · rw [levelAt, if_neg (by omega), if_pos hinside, hlevel]
      · -- behind the frame it is the last stop bit, or a change of the frames that follow
        obtain ⟨c, hc, htime, hlevel⟩ :=
          exists_change h hend (Nat.sub_lt (frameBits_pos (s := s)) one_pos)
        have hinside := (bounds_of_mem_changes h hend hc).2
        have hstop : c = (c.1, Bit.one) := by
          refine Prod.ext rfl (hlevel.trans (sentLevel_stop ?_))
          have hstop := h.stopBits
          rw [UartSettings.frameBits, h.clampedDataBits, h.clampedStopBits]
          omega
        obtain ⟨e, he, het, hlast, heq⟩ :=
          @ih (f.endTime s period) hrest c.1 hinside (UInt64.le_iff_toNat_le.2 (hinside.le.trans hbehind))
        have hce : c.1 ≤ e.1 :=
          hlast c (by rw [hstop]; exact List.mem_cons_self)
            (UInt64.le_iff_toNat_le.2 (hinside.le.trans hbehind))
        refine ⟨e, List.mem_cons_of_mem _ ?_, het, ?_, ?_⟩
        · rcases List.mem_cons.1 he with rfl | he
          · exact List.mem_append_left _ (hstop ▸ hc)
          · exact List.mem_append_right _ he
        · intro d hd hdt
          rcases List.mem_cons.1 hd with rfl | hd
          · refine le_trans (UInt64.le_iff_toNat_le.2 ?_) hce
            have hle := (bounds_of_mem_changes h hend hc).1
            show u.toNat ≤ c.1.toNat
            omega
          rcases List.mem_append.1 hd with hd | hd
          · obtain ⟨i, hi, hdi, -⟩ := of_mem_changes h hend hd
            refine le_trans (UInt64.le_iff_toNat_le.2 ?_) hce
            have hmul := Nat.mul_le_mul_right period.toNat (Nat.le_sub_one_of_lt hi)
            omega
          · exact hlast d (List.mem_cons_of_mem _ hd) hdt
        · rw [heq, levelAt_of_endTime_le h hbehind]

/-- The recording carries the frames. -/
theorem carries_encode (h : SenderSettings s period) {first : UInt64}
    (hspaced : Spaced s period (first.toNat + 1) frames) :
    Carries s period (encode s period first frames) first frames := by
  have hincreasing : (encode s period first frames).Increasing := by
    refine List.pairwise_cons.2 ⟨fun c hc => ?_, increasing_flatMap h hspaced⟩
    exact UInt64.lt_iff_toNat_lt.2 (free_le_of_mem_flatMap h hspaced hc)
  refine { increasing := hincreasing, spaced := hspaced, value := fun t => ?_ }
  rw [BitLane.valueAt_eq]
  split
  next hle =>
    obtain ⟨c, hc, hct, hlast, hlevel⟩ := exists_last_change h hspaced first.toNat.lt_succ_self hle
    rw [← hlevel]
    exact Timeline.valueAt_of_last hincreasing hc hct hlast
  next hlt =>
    rw [Timeline.valueAt, encode, List.takeWhile_cons, if_neg (by simpa using hlt)]
    rfl

end Encode

/-- One tick a bit, with even parity and two stop bits. -/
def shortestBits : UartSettings :=
  { UartSettings.default with
    bitPeriod := some 1, parity := .even, stopBits := 2, bitOrder := .msbFirst }

/-- Two frames back to back. -/
def backToBack : List Frame := [⟨1, 0x4B⟩, ⟨13, 0x61⟩]

theorem decode_of_carries_backToBack :
    SenderSettings shortestBits 1 ∧
      Carries shortestBits 1 (encode shortestBits 1 0 backToBack) 0 backToBack ∧
        shortestBits.decode [some (encode shortestBits 1 0 backToBack)] =
          [{ name := "Data", words := [⟨1, 13, "'K'", .data⟩, ⟨13, 25, "'a'", .data⟩] }] := by
  have hsettings : SenderSettings shortestBits 1 :=
    { idleHigh := rfl
      bitPeriod := rfl
      pos := by decide
      dataBits := by decide
      stopBits := .inr rfl }
  have hspaced : Spaced shortestBits 1 ((0 : UInt64).toNat + 1) backToBack := by
    refine ⟨?_, ?_, ?_, ?_, ?_, ?_, trivial⟩ <;> decide
  have hcarries := carries_encode hsettings hspaced
  exact ⟨hsettings, hcarries, (decode_of_carries hsettings hcarries).trans (by decide)⟩

end Decoders.Uart
