import Kahuna.Decoders.Spi.Isolation
import Kahuna.Decoders.Basic
import Kahuna.Timeline.Stretches
import Mathlib.Data.List.Pairwise

/-!
# SPI round trip

A controller asserts chip select, clocks some words, and deasserts chip select again, transfer by
transfer. In the last transfer some bits of one more word may follow. The recordings may repeat values;
all that matters is the level of SCLK at each time, when chip select is active, and what is on the data
line at the sampling edges.

* `Carries`: the recordings of a bus that carries some transfers;
* `edgesTo_samplingLevel`: the decoder samples once in each pulse;
* `shiftedIn_sent`: the accumulator holds the bits received so far;
* `decode_of_session`: the decoder returns the words that were sent, and counts every sampling edge in
  one of them.
-/

namespace Decoders.Spi

/-! ## Transfers -/

/-- A pulse of SCLK: when the clock leaves its idle level and when it is back, and the bit that is on
the data line. -/
structure Pulse where
  lead : UInt64
  trail : UInt64
  bit : Bool
  deriving DecidableEq, Repr

/-- The pulse as a stretch of time away from the idle level. -/
def Pulse.stretch (p : Pulse) : Timeline.Stretch UInt64 := ⟨p.lead, some p.trail⟩

/-- A word and the pulses that clock it. -/
structure SentWord where
  value : ℕ
  pulses : List Pulse
  deriving DecidableEq, Repr

/-- A transfer: how long chip select is active, the words, and the pulses of a word cut short. Chip
select may stay active up to the end of the recording. -/
structure Transfer where
  opened : UInt64
  closed : Option UInt64
  words : List SentWord
  trailing : List Pulse
  deriving DecidableEq, Repr

namespace Transfer

/-- The stretch of time in which chip select is active. -/
def stretch (tr : Transfer) : Timeline.Stretch UInt64 := ⟨tr.opened, tr.closed⟩

/-- All pulses of the transfer. -/
def pulses (tr : Transfer) : List Pulse := tr.words.flatMap SentWord.pulses ++ tr.trailing

end Transfer

/-- All pulses of the transfers. -/
def allPulses (transfers : List Transfer) : List Pulse := transfers.flatMap Transfer.pulses

namespace SpiSettings

variable (s : SpiSettings)

/-- The level of SCLK between pulses. -/
def idleLevel : Bit := .ofBool s.cpol

/-- The level of SCLK during a pulse. -/
def awayLevel : Bit := .ofBool !s.cpol

/-- The level of chip select during a transfer. -/
def activeLevel : Bit := .ofBool !s.csActiveLow

/-- The level of chip select between transfers. -/
def inactiveLevel : Bit := .ofBool s.csActiveLow

/-- The edge of a pulse at which the data line is sampled. -/
def sampledAt (p : Pulse) : UInt64 := if s.cpha then p.trail else p.lead

end SpiSettings

/-- The pulses put the bits of the word on the data line, in the order of the settings. -/
structure SentWord.Clocked (s : SpiSettings) (w : SentWord) : Prop where
  value_lt : w.value < 2 ^ s.wordSize
  bits : w.pulses.map Pulse.bit
    = (List.range s.wordSize).map (s.bitOrder.sentBit s.wordSize w.value)

/-- Whole words are clocked and less than a word is left over, and SCLK moves while chip select is
active only. -/
structure Transfer.Clocked (s : SpiSettings) (tr : Transfer) : Prop where
  words : ∀ w ∈ tr.words, w.Clocked s
  trailing : tr.trailing.length < s.wordSize
  asserted : ∀ p ∈ tr.pulses, tr.stretch.Covers p.lead ∧ tr.stretch.Covers p.trail

/-- The transfers follow each other from some time on, and only the last leaves bits over. -/
structure Schedule (s : SpiSettings) (first : UInt64) (transfers : List Transfer) : Prop where
  clocked : ∀ tr ∈ transfers, tr.Clocked s
  trailing : ∀ tr ∈ transfers.dropLast, tr.trailing = []
  pulses : Timeline.Follow first ((allPulses transfers).map Pulse.stretch)

/-- The recordings of a bus that carries some transfers. The recording of SCLK starts at `first`, with
the idle level. -/
structure Carries (s : SpiSettings) (sclk data cs : BitLane) (first : UInt64)
    (transfers : List Transfer) : Prop where
  schedule : Schedule s first transfers
  increasing : sclk.Increasing
  clock : ∀ t, sclk.valueAt t =
    if first ≤ t then
      some (if ∃ p ∈ (allPulses transfers).map Pulse.stretch, p.Covers t then s.awayLevel
        else s.idleLevel)
    else none
  select : ∀ t, cs.valueAt t = some s.activeLevel ↔ ∃ tr ∈ transfers, tr.stretch.Covers t
  data : ∀ p ∈ allPulses transfers, data.valueAt (s.sampledAt p) = some (.ofBool p.bit)

/-- What the words of the transfers look like, and the error for the bits left over. -/
def sentContents (s : SpiSettings) (transfers : List Transfer) : List (String × WordKind) :=
  let trailing := transfers.flatMap Transfer.trailing
  (transfers.flatMap Transfer.words).map (fun w => (s.format.format w.value s.wordSize, .data))
    ++ if trailing = [] then [] else [(cutText trailing.length s.wordSize, .error)]

/-- The sampling edges of each word, and of the bits left over. -/
def sentGroups (s : SpiSettings) (transfers : List Transfer) : List (List UInt64) :=
  (transfers.flatMap Transfer.words).map (fun w => w.pulses.map s.sampledAt)
    ++ Grouping.closing ((transfers.flatMap Transfer.trailing).map s.sampledAt)

/-! ## Sampling edges -/

section Edges

variable {s : SpiSettings} {sclk data cs : BitLane} {first : UInt64} {transfers : List Transfer}

theorem SpiSettings.awayLevel_ne_idleLevel (s : SpiSettings) : s.awayLevel ≠ s.idleLevel := by
  unfold awayLevel idleLevel
  cases s.cpol <;> decide

/-- The sampling edge of a pulse is its leading or its trailing edge. -/
theorem SpiSettings.samplingLevel_eq (s : SpiSettings) :
    s.samplingLevel = if s.cpha then s.idleLevel else s.awayLevel := by
  unfold samplingLevel idleLevel awayLevel
  cases s.cpol <;> cases s.cpha <;> rfl

/-- The decoder samples once in each pulse. -/
theorem edgesTo_samplingLevel (h : Carries s sclk data cs first transfers) :
    sclk.edgesTo s.samplingLevel = (allPulses transfers).map s.sampledAt := by
  have hne := s.awayLevel_ne_idleLevel
  have hvalue : Timeline.valueAt sclk.changes = Timeline.valueAt ((first, s.idleLevel)
      :: Timeline.stretchChanges s.awayLevel s.idleLevel
        ((allPulses transfers).map Pulse.stretch)) := by
    ext1 t
    rw [← BitLane.valueAt_eq, h.clock, Timeline.valueAt_stretchChanges h.schedule.pulses]
  rw [BitLane.edgesTo_eq,
    Timeline.edgesTo_congr h.increasing h.schedule.pulses.increasing hvalue, Timeline.edgesTo,
    Timeline.edgesFrom, s.samplingLevel_eq]
  cases hcpha : s.cpha with
  | false =>
    rw [if_neg (by simp), Timeline.edgesFrom_inside hne _ h.schedule.pulses, List.map_map]
    exact List.map_congr_left fun p _ => by simp [SpiSettings.sampledAt, hcpha, Pulse.stretch]
  | true =>
    rw [if_pos rfl, Timeline.edgesFrom_outside hne _ h.schedule.pulses, List.filterMap_map,
      ← List.filterMap_eq_map]
    exact List.filterMap_congr fun p _ => by simp [SpiSettings.sampledAt, hcpha, Pulse.stretch]

/-- The device is selected while chip select is active. -/
theorem selectedAt_of_active {t : UInt64} (h : cs.valueAt t = some s.activeLevel) :
    s.selectedAt (some cs) t = true := by
  rw [SpiSettings.selectedAt, Option.all_some, SpiSettings.isSelected, h,
    SpiSettings.activeLevel]
  cases s.csActiveLow <;> rfl

/-- The device is selected at all sampling edges. -/
theorem selectedAt_sampledAt (h : Carries s sclk data cs first transfers) {p : Pulse}
    (hp : p ∈ allPulses transfers) : s.selectedAt (some cs) (s.sampledAt p) = true := by
  obtain ⟨tr, htr, hp⟩ := List.mem_flatMap.1 hp
  obtain ⟨hlead, htrail⟩ := (h.schedule.clocked tr htr).asserted p hp
  refine selectedAt_of_active ((h.select _).2 ⟨tr, htr, ?_⟩)
  unfold SpiSettings.sampledAt
  split
  · exact htrail
  · exact hlead

/-- The pulses are those of the words, and at the end those of the bits left over. -/
theorem allPulses_eq {transfers : List Transfer}
    (h : ∀ tr ∈ transfers.dropLast, tr.trailing = []) :
    allPulses transfers = (transfers.flatMap Transfer.words).flatMap SentWord.pulses
      ++ transfers.flatMap Transfer.trailing := by
  induction transfers with
  | nil => rfl
  | cons tr rest ih =>
    rw [allPulses, List.flatMap_cons, List.flatMap_cons, List.flatMap_cons, List.flatMap_append]
    show tr.pulses ++ allPulses rest = _
    rcases rest with _ | ⟨next, rest⟩
    · simp [allPulses, Transfer.pulses]
    · rw [List.dropLast_cons_cons, List.forall_mem_cons] at h
      rw [ih h.2, Transfer.pulses, h.1, List.append_nil, List.nil_append, List.append_assoc]

/-- Less than a word is left over. -/
theorem Schedule.trailing_length_lt (h : Schedule s first transfers) (hsize : 0 < s.wordSize) :
    (transfers.flatMap Transfer.trailing).length < s.wordSize := by
  rcases List.eq_nil_or_concat' transfers with rfl | ⟨init, last, rfl⟩
  · simpa using hsize
  · have hinit : init.flatMap Transfer.trailing = [] := by
      rw [List.flatMap_eq_nil_iff]
      exact fun tr htr => h.trailing tr (by simpa using htr)
    rw [List.flatMap_append, hinit, List.nil_append, List.flatMap_singleton]
    exact (h.clocked last (by simp)).trailing

end Edges

/-! ## Words -/

section Words

variable {s : SpiSettings} {order : BitOrder} {size word count : ℕ}

/-- A clean bit is taken in. -/
theorem toNat_shiftIn {acc : UInt64} {bit : Bool} (hacc : acc.toNat < 2 ^ count)
    (hcount : count < 64) :
    (shiftIn order acc count (some (.ofBool bit))).toNat = order.takeIn acc.toNat count bit := by
  have hclean : some (Bit.ofBool bit) = some .zero ∨ some (Bit.ofBool bit) = some .one := by
    cases bit
    · exact .inl rfl
    · exact .inr rfl
  have hbit : (if some (Bit.ofBool bit) = some .one then (1 : UInt64) else 0).toNat = bit.toNat := by
    cases bit <;> rfl
  have hle : bit.toNat ≤ 1 := Bool.toNat_le bit
  rw [shiftIn, if_pos hclean]
  cases order with
  | lsbFirst =>
    show (acc ||| _ <<< UInt64.ofNat count).toNat = acc.toNat ||| bit.toNat <<< count
    have hmod : (UInt64.ofNat count).toNat % 64 = count := by
      rw [UInt64.toNat_ofNat_of_lt' (by simp [UInt64.size]; omega), Nat.mod_eq_of_lt hcount]
    have hshift : bit.toNat <<< count < 2 ^ 64 := by
      rw [Nat.shiftLeft_eq]
      calc bit.toNat * 2 ^ count ≤ 1 * 2 ^ count := Nat.mul_le_mul_right _ hle
        _ = 2 ^ count := one_mul _
        _ < 2 ^ 64 := Nat.pow_lt_pow_right (by decide) hcount
    rw [UInt64.toNat_or, UInt64.toNat_shiftLeft, hbit, hmod, Nat.mod_eq_of_lt hshift]
  | msbFirst =>
    show (acc <<< 1 ||| _).toNat = acc.toNat <<< 1 ||| bit.toNat
    have hshift : acc.toNat <<< 1 < 2 ^ 64 := by
      rw [Nat.shiftLeft_eq]
      calc acc.toNat * 2 ^ 1 < 2 ^ count * 2 ^ 1 := Nat.mul_lt_mul_of_pos_right hacc (by decide)
        _ = 2 ^ (count + 1) := (Nat.pow_succ ..).symm
        _ ≤ 2 ^ 64 := Nat.pow_le_pow_right (by decide) hcount
    rw [UInt64.toNat_or, UInt64.toNat_shiftLeft, hbit]
    exact congrArg (· ||| bit.toNat) (Nat.mod_eq_of_lt hshift)

/-- The bits of a word as they are sampled. -/
def sampledBits (order : BitOrder) (size word count : ℕ) : List (Option Bit) :=
  (List.range count).map fun i => some (.ofBool (order.sentBit size word i))

/-- The accumulator holds the bits received so far. -/
theorem shiftedIn_sent (hword : word < 2 ^ size) (hsize : size ≤ 64) (hcount : count ≤ size) :
    (shiftedIn order (sampledBits order size word count)).1.toNat
      = order.received size word count := by
  induction count with
  | zero =>
    rw [BitOrder.received_zero hword]
    rfl
  | succ count ih =>
    have ih := ih (Nat.le_of_succ_le hcount)
    have hlt : order.received size word count < 2 ^ count :=
      BitOrder.received_lt hword (Nat.le_of_succ_le hcount)
    rw [sampledBits, List.range_succ, List.map_append, List.map_singleton]
    show (shiftedIn order (sampledBits order size word count ++ [_])).1.toNat = _
    rw [shiftedIn_concat, sampledBits, List.length_map, List.length_range, ← sampledBits,
      toNat_shiftIn (by rwa [ih]) (by omega), ih, BitOrder.received_succ hcount]

/-- A word that was clocked is shown as it was sent. -/
theorem render_of_clocked {data : BitLane} {w : SentWord} (hsize : s.wordSize ≤ 64)
    (hw : w.Clocked s) (hdata : ∀ p ∈ w.pulses, data.valueAt (s.sampledAt p) = some (.ofBool p.bit)) :
    (render s data s.wordSize (w.pulses.map s.sampledAt)).2
      = (s.format.format w.value s.wordSize, .data) := by
  have hlength : (w.pulses.map s.sampledAt).length = s.wordSize := by
    have hlength := congrArg List.length hw.bits
    simpa using hlength
  have hbits : bitsAt data (w.pulses.map s.sampledAt)
      = sampledBits s.bitOrder s.wordSize w.value s.wordSize := by
    calc bitsAt data (w.pulses.map s.sampledAt)
        = w.pulses.map fun p => some (Bit.ofBool p.bit) := by
          rw [bitsAt, List.map_map]
          exact List.map_congr_left hdata
      _ = (w.pulses.map Pulse.bit).map fun bit => some (Bit.ofBool bit) := by
          rw [List.map_map]
          rfl
      _ = sampledBits s.bitOrder s.wordSize w.value s.wordSize := by
          rw [hw.bits, List.map_map]
          rfl
  have hclean : (sampledBits s.bitOrder s.wordSize w.value s.wordSize).any isBad = false := by
    rw [sampledBits, List.any_map, List.any_eq_false]
    intro i _
    cases h : s.bitOrder.sentBit s.wordSize w.value i <;> simp [isBad, Bit.ofBool, h]
  rw [render, hbits]
  simp only [hlength, if_true, hclean]
  rw [shiftedIn_sent hw.value_lt hsize le_rfl, BitOrder.received_size hw.value_lt]
  simp

end Words

/-! ## Transfers received -/

section Receive

variable {s : SpiSettings} {sclk data cs : BitLane} {first : UInt64} {transfers : List Transfer}

theorem clampedWordSize_of_le (h : 1 ≤ s.wordSize ∧ s.wordSize ≤ 64) :
    s.clampedWordSize = s.wordSize := by
  rw [SpiSettings.clampedWordSize]
  omega

/-- The sampling edges are grouped word by word. -/
theorem groups_of_carries (hsize : 1 ≤ s.wordSize ∧ s.wordSize ≤ 64)
    (h : Carries s sclk data cs first transfers) :
    Grouping.groups s.clampedWordSize (s.selectedAt (some cs)) (sclk.edgesTo s.samplingLevel)
      = sentGroups s transfers := by
  have hpulses := allPulses_eq h.schedule.trailing
  have hedges : sclk.edgesTo s.samplingLevel
      = ((transfers.flatMap Transfer.words).map fun w => w.pulses.map s.sampledAt).flatten
        ++ (transfers.flatMap Transfer.trailing).map s.sampledAt := by
    rw [edgesTo_samplingLevel h, hpulses, List.map_append, List.map_flatMap, List.flatMap_def]
  rw [clampedWordSize_of_le hsize, hedges, sentGroups]
  apply Grouping.groups_flatten_append
  · rw [← hedges, edgesTo_samplingLevel h]
    exact List.forall_mem_map.2 fun p hp => selectedAt_sampledAt h hp
  · refine List.forall_mem_map.2 fun w hw => ?_
    obtain ⟨tr, htr, hw⟩ := List.mem_flatMap.1 hw
    have hlength := congrArg List.length ((h.schedule.clocked tr htr).words w hw).bits
    simpa using hlength
  · rw [List.length_map]
    exact h.schedule.trailing_length_lt hsize.1

/-- The words show what was sent. -/
theorem contents_of_carries (hsize : 1 ≤ s.wordSize ∧ s.wordSize ≤ 64)
    (h : Carries s sclk data cs first transfers) :
    (decodeLane s sclk data (some cs)).map DecodedWord.content = sentContents s transfers := by
  have hcontent : ∀ words : List DecodedWord,
      words.map DecodedWord.content = (words.map shown).map Prod.snd := by
    intro words
    rw [List.map_map]
    rfl
  have hwords := (counts_groups s sclk data (some cs)).words
  rw [groups_of_carries hsize h, clampedWordSize_of_le hsize] at hwords
  rw [hcontent, hwords, sentGroups, List.map_append, List.map_append, List.map_map, List.map_map,
    sentContents]
  congr 1
  · refine List.map_congr_left fun w hw => ?_
    obtain ⟨tr, htr, hw⟩ := List.mem_flatMap.1 hw
    apply render_of_clocked hsize.2 ((h.schedule.clocked tr htr).words w hw)
    intro p hp
    refine h.data p (List.mem_flatMap.2 ⟨tr, htr, List.mem_append_left _ ?_⟩)
    exact List.mem_flatMap.2 ⟨w, hw, hp⟩
  · have hlt := h.schedule.trailing_length_lt hsize.1
    unfold Grouping.closing
    by_cases hnil : transfers.flatMap Transfer.trailing = []
    · simp [hnil]
    · have hne : ¬ (transfers.flatMap Transfer.trailing).length = s.wordSize := hlt.ne
      rw [if_neg (by simpa using hnil), if_neg hnil, List.map_singleton, List.map_singleton, render,
        List.length_map, if_neg hne]

/-- The decoder returns the words that were sent, in the row of the data line that they were sent on,
and each word counts its own sampling edges, which together are all there are. -/
theorem decode_of_session (hsize : 1 ≤ s.wordSize ∧ s.wordSize ≤ 64)
    (h : Carries s sclk data cs first transfers) :
    (∀ miso, (s.decode [some sclk, some data, miso, some cs])[0]?
      = some { name := "MOSI", words := decodeLane s sclk data (some cs) }) ∧
    (∀ mosi, (s.decode [some sclk, mosi, some data, some cs])[1]?
      = some { name := "MISO", words := decodeLane s sclk data (some cs) }) ∧
    (decodeLane s sclk data (some cs)).map DecodedWord.content = sentContents s transfers ∧
    Counts s sclk data (some cs) (sentGroups s transfers) ∧
    (sentGroups s transfers).flatten = sclk.edgesTo s.samplingLevel := by
  have hcounts := counts_groups s sclk data (some cs)
  rw [groups_of_carries hsize h] at hcounts
  have hselected : ∀ t ∈ sclk.edgesTo s.samplingLevel, s.selectedAt (some cs) t = true := by
    rw [edgesTo_samplingLevel h]
    exact List.forall_mem_map.2 fun p hp => selectedAt_sampledAt h hp
  refine ⟨fun miso => ?_, fun mosi => ?_, contents_of_carries hsize h, hcounts, ?_⟩
  · rw [s.decode_bus]
    rfl
  · rw [s.decode_bus]
    rfl
  · rw [hcounts.edges, List.filter_eq_self.2 hselected]

end Receive

/-! ## A recording -/

section Encode

/-- A recording of a bus that carries some transfers. Each bit is put on the data line one tick before
it is sampled. -/
def encode (s : SpiSettings) (first : UInt64) (transfers : List Transfer) :
    BitLane × BitLane × BitLane :=
  (⟨(first, s.idleLevel) :: Timeline.stretchChanges s.awayLevel s.idleLevel
      ((allPulses transfers).map Pulse.stretch)⟩,
    ⟨(allPulses transfers).map fun p => (s.sampledAt p - 1, .ofBool p.bit)⟩,
    ⟨(first, s.inactiveLevel) :: Timeline.stretchChanges s.activeLevel s.inactiveLevel
      (transfers.map Transfer.stretch)⟩)

variable {s : SpiSettings} {first : UInt64} {transfers : List Transfer}

/-- Pulses that follow each other are pulses, and are apart. -/
theorem pairwise_of_follow {pulses : List Pulse}
    (h : Timeline.Follow first (pulses.map Pulse.stretch)) :
    (∀ p ∈ pulses, first < p.lead ∧ p.lead < p.trail) ∧
      pulses.Pairwise fun p q => p.trail < q.lead := by
  induction pulses generalizing first with
  | nil => exact ⟨by simp, List.Pairwise.nil⟩
  | cons p rest ih =>
    obtain ⟨hlead, htrail, hrest⟩ := h
    obtain ⟨hall, hpairwise⟩ := ih hrest
    refine ⟨List.forall_mem_cons.2 ⟨⟨hlead, htrail⟩, fun q hq => ?_⟩,
      List.pairwise_cons.2 ⟨fun q hq => (hall q hq).1, hpairwise⟩⟩
    exact ⟨(hlead.trans htrail).trans (hall q hq).1, (hall q hq).2⟩

/-- There is room between the sampling edges of two pulses. -/
theorem sampledAt_lt {p q : Pulse} (hp : p.lead < p.trail) (hpq : p.trail < q.lead)
    (hq : q.lead < q.trail) : (s.sampledAt p).toNat + 1 < (s.sampledAt q).toNat := by
  rw [UInt64.lt_iff_toNat_lt] at hp hpq hq
  unfold SpiSettings.sampledAt
  split <;> omega

/-- The change that puts a bit on the data line is one tick before its sampling edge. -/
theorem toNat_sampledAt_sub_one {p : Pulse} (hfirst : first < p.lead) (hp : p.lead < p.trail) :
    (s.sampledAt p - 1).toNat + 1 = (s.sampledAt p).toNat := by
  have hpos : (1 : UInt64).toNat ≤ (s.sampledAt p).toNat := by
    show 1 ≤ (s.sampledAt p).toNat
    rw [UInt64.lt_iff_toNat_lt] at hfirst hp
    unfold SpiSettings.sampledAt
    split <;> omega
  rw [UInt64.toNat_sub_of_le _ _ (UInt64.le_iff_toNat_le.2 hpos)]
  exact Nat.sub_add_cancel hpos

/-- The recording of the data line has the bit of each pulse at its sampling edge. -/
theorem valueAt_encode (h : Timeline.Follow first ((allPulses transfers).map Pulse.stretch)) :
    ∀ p ∈ allPulses transfers,
      (encode s first transfers).2.1.valueAt (s.sampledAt p) = some (.ofBool p.bit) := by
  obtain ⟨hpulse, hpairwise⟩ := pairwise_of_follow h
  have hordered := hpairwise.imp_of_mem fun {p q} hp hq hpq =>
    sampledAt_lt (s := s) (hpulse p hp).2 hpq (hpulse q hq).2
  have hback := fun p hp => toNat_sampledAt_sub_one (s := s) (hpulse p hp).1 (hpulse p hp).2
  have hincreasing : Timeline.Increasing
      ((allPulses transfers).map fun p => (s.sampledAt p - 1, Bit.ofBool p.bit)) := by
    refine List.pairwise_map.2 (hordered.imp_of_mem fun {p q} hp hq hpq => ?_)
    have hp := hback p hp
    have hq := hback q hq
    show s.sampledAt p - 1 < s.sampledAt q - 1
    rw [UInt64.lt_iff_toNat_lt]
    omega
  let Apart (p q : Pulse) : Prop := (s.sampledAt p).toNat + 1 < (s.sampledAt q).toNat ∨
    (s.sampledAt q).toNat + 1 < (s.sampledAt p).toNat
  have hsymm : Std.Symm Apart := ⟨fun _ _ => Or.symm⟩
  have hapart : (allPulses transfers).Pairwise Apart := hordered.imp Or.inl
  intro p hp
  rw [BitLane.valueAt_eq]
  refine Timeline.valueAt_of_last hincreasing (List.mem_map_of_mem hp) ?_ ?_
  · have hp := hback p hp
    rw [UInt64.le_iff_toNat_le]
    omega
  · refine List.forall_mem_map.2 fun q hq hqp => ?_
    by_cases hpq : p = q
    · rw [hpq]
    have hp' := hback p hp
    have hq' := hback q hq
    have heither : _ < _ ∨ _ < _ := hapart.forall hp hq hpq
    rw [UInt64.le_iff_toNat_le] at hqp ⊢
    show (s.sampledAt q - 1).toNat ≤ (s.sampledAt p - 1).toNat
    have hqp' : (s.sampledAt q - 1).toNat ≤ (s.sampledAt p).toNat := hqp
    -- the bit of a later pulse is put on the line behind this sampling edge
    omega

/-- The recording carries the transfers, when chip select is inactive at first. -/
theorem carries_encode (h : Schedule s first transfers)
    (hselect : Timeline.Follow first (transfers.map Transfer.stretch)) :
    Carries s (encode s first transfers).1 (encode s first transfers).2.1
      (encode s first transfers).2.2 first transfers where
  schedule := h
  increasing := h.pulses.increasing
  clock t := by
    rw [BitLane.valueAt_eq]
    exact Timeline.valueAt_stretchChanges h.pulses t
  select t := by
    have hne : s.activeLevel ≠ s.inactiveLevel := by
      unfold SpiSettings.inactiveLevel SpiSettings.activeLevel
      cases s.csActiveLow <;> decide
    rw [BitLane.valueAt_eq]
    exact (Timeline.valueAt_stretchChanges_eq_inside hne hselect t).trans (by simp)
  data := valueAt_encode h.pulses

end Encode

/-- Mode 3, three bits a word, lowest bit first. -/
def threeBits : SpiSettings :=
  { SpiSettings.default with
    cpol := true, cpha := true, bitOrder := .lsbFirst, wordSize := 3, format := .binary }

/-- Two transfers of a word each. After the second word one more bit is clocked, and chip select stays
active. -/
def twoTransfers : List Transfer :=
  [{ opened := 1
     closed := some 20
     words := [⟨0b110, [⟨2, 3, false⟩, ⟨4, 5, true⟩, ⟨6, 7, true⟩]⟩]
     trailing := [] },
   { opened := 30
     closed := none
     words := [⟨0b001, [⟨31, 32, true⟩, ⟨33, 34, false⟩, ⟨35, 36, false⟩]⟩]
     trailing := [⟨37, 38, true⟩] }]

theorem decode_of_session_twoTransfers :
    let (sclk, data, cs) := encode threeBits 0 twoTransfers
    (1 ≤ threeBits.wordSize ∧ threeBits.wordSize ≤ 64) ∧
      Carries threeBits sclk data cs 0 twoTransfers ∧
        (decodeLane threeBits sclk data (some cs)).map DecodedWord.content
          = [("110", .data), ("001", .data), ("1 of 3 bits", .error)] := by
  have hsize : 1 ≤ threeBits.wordSize ∧ threeBits.wordSize ≤ 64 := by decide
  have hclocked : ∀ tr ∈ twoTransfers, tr.Clocked threeBits := by
    refine List.forall_mem_cons.2 ⟨⟨?_, by decide, by decide⟩,
      List.forall_mem_singleton.2 ⟨?_, by decide, by decide⟩⟩
    · exact List.forall_mem_singleton.2 ⟨by decide, by decide⟩
    · exact List.forall_mem_singleton.2 ⟨by decide, by decide⟩
  have hpulses : Timeline.Follow 0 ((allPulses twoTransfers).map Pulse.stretch) := by
    simp only [allPulses, twoTransfers, Transfer.pulses, List.flatMap_cons, List.flatMap_nil,
      List.append_nil, List.cons_append, List.nil_append, List.map_cons, List.map_nil, Pulse.stretch,
      Timeline.Follow]
    decide
  have hselect : Timeline.Follow 0 (twoTransfers.map Transfer.stretch) := by
    refine ⟨?_, ?_, ?_, rfl⟩ <;> decide
  have hcarries := carries_encode ⟨hclocked, by decide, hpulses⟩ hselect
  exact ⟨hsize, hcarries, (decode_of_session hsize hcarries).2.2.1.trans (by decide)⟩

end Decoders.Spi
