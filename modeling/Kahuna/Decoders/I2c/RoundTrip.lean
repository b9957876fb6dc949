import Kahuna.Decoders.I2c.Framing
import Kahuna.Decoders.I2c.Trace

/-!
# I2C round trip

A list of transfers is put on the bus and decoded again. `Encodes` says which traces carry the
transfers: SDA may move in any way while SCL is low, as long as it has settled when SCL rises, and
moves while SCL is high only for START and STOP.

* `Encodes.map_snd_recognise`: the events of a trace that carries transfers are the transfers' own;
* `busTokens_events`: the framing of these events is the transfers, byte by byte;
* `contents_decode`: the decoder shows the transfers that were put on the bus.
-/

namespace Decoders.I2c

/-! ## Transfers -/

/-- One transfer: a 7-bit address with its direction and acknowledge, then data bytes with theirs,
closed by a STOP or by the repeated START of the next transfer. -/
structure Transfer where
  address : BitVec 7
  read : Bool
  ack : Bool
  data : List (BitVec 8 × Bool)
  stop : Bool
  deriving DecidableEq, Repr

/-- The bits of a byte as they are sent, most significant first. -/
def bitsOf (value : ℕ) : List Bit :=
  (List.range 8).map fun i => if value.testBit (7 - i) then .one else .zero

/-- The receiver acknowledges by pulling SDA low. -/
def ackBit (ack : Bool) : Bit := if ack then .zero else .one

/-- The bytes of a transfer with their acknowledges: the address with the direction bit, then the
data. -/
def Transfer.slots (tr : Transfer) : List (ℕ × Bool) :=
  (2 * tr.address.toNat + tr.read.toNat, tr.ack) :: tr.data.map fun d => (d.1.toNat, d.2)

/-- The nine bits of a byte and its acknowledge. -/
def slotBits (slot : ℕ × Bool) : List Bit := bitsOf slot.1 ++ [ackBit slot.2]

/-- The bits of a transfer. -/
def Transfer.bits (tr : Transfer) : List Bit := tr.slots.flatMap slotBits

/-! ## What the decoder should show -/

/-- An acknowledge, and a missing one, which is marked. -/
def ackContent (ack : Bool) : String × WordKind := if ack then ("A", .data) else ("N", .error)

/-- The address byte, with its direction split out or as the raw frame. -/
def Transfer.addressText (s : I2cSettings) (tr : Transfer) : String :=
  if s.splitAddress then
    s.format.format tr.address.toNat 7 ++ " " ++ (if tr.read then "R" else "W")
  else s.format.format (2 * tr.address.toNat + tr.read.toNat) 8

/-- What is shown of one transfer. -/
def Transfer.contents (s : I2cSettings) (repeated : Bool) (tr : Transfer) :
    List (String × WordKind) :=
  (if repeated then "Sr" else "S", .data) :: (tr.addressText s, .data) :: ackContent tr.ack ::
    (tr.data.flatMap fun d => [(s.format.format d.1.toNat 8, .data), ackContent d.2]) ++
    if tr.stop then [("P", .data)] else []

/-- What is shown of a list of transfers. The START of a transfer is repeated when the one before
it was not stopped. -/
def contents (s : I2cSettings) : Bool → List Transfer → List (String × WordKind)
  | _, [] => []
  | repeated, tr :: rest => tr.contents s repeated ++ contents s (!tr.stop) rest

/-! ## Transfers on the bus -/

/-- SDA moves in an SCL low phase. -/
def lowPhase (moves : List (UInt64 × Bit)) : Trace := moves.map fun m => (m.1, .sda m.2)

/-- The trace sends the bits from SCL low, where SDA holds the first argument before it and the
last argument after it. Each bit is a low phase at the end of which SDA holds the bit, then an SCL
pulse. -/
inductive Sends : Bit → List Bit → Trace → Bit → Prop where
  | done (cur : Bit) : Sends cur [] [] cur
  | bit {cur bit last : Bit} {bits : List Bit} {moves : List (UInt64 × Bit)} {rise fall : UInt64}
      {rest : Trace} (hmoves : Timeline.lastValue (some cur) moves = some bit)
      (hrest : Sends bit bits rest last) :
      Sends cur (bit :: bits)
        (lowPhase moves ++ (rise, .scl .one) :: (fall, .scl .zero) :: rest) last

/-- Where the bus is between two transfers: idle, or with SCL low and SDA at `cur` after the bytes
of a transfer that a STOP or a repeated START is to close. -/
inductive Between where
  | idle
  | held (cur : Bit) (stop : Bool)
  deriving DecidableEq, Repr

/-- The trace carries the transfers. -/
inductive Encodes : Between → List Transfer → Trace → Prop where
  | idle : Encodes .idle [] []
  | start {tr : Transfer} {trs : List Transfer} {cur : Bit} {t fall : UInt64} {bits rest : Trace}
      (hbits : Sends .zero tr.bits bits cur) (hrest : Encodes (.held cur tr.stop) trs rest) :
      Encodes .idle (tr :: trs) ((t, .sda .zero) :: (fall, .scl .zero) :: (bits ++ rest))
  | restart {tr : Transfer} {trs : List Transfer} {cur cur' : Bit} {moves : List (UInt64 × Bit)}
      {rise t fall : UInt64} {bits rest : Trace}
      (hmoves : Timeline.lastValue (some cur) moves = some .one)
      (hbits : Sends .zero tr.bits bits cur') (hrest : Encodes (.held cur' tr.stop) trs rest) :
      Encodes (.held cur false) (tr :: trs)
        (lowPhase moves ++ (rise, .scl .one) :: (t, .sda .zero) :: (fall, .scl .zero) ::
          (bits ++ rest))
  | stop {trs : List Transfer} {cur : Bit} {moves : List (UInt64 × Bit)} {rise t : UInt64}
      {rest : Trace} (hmoves : Timeline.lastValue (some cur) moves = some .zero)
      (hrest : Encodes .idle trs rest) :
      Encodes (.held cur true) trs
        (lowPhase moves ++ (rise, .scl .one) :: (t, .sda .one) :: rest)

/-- A recording of transfers from an idle bus: both lines are high, then change as the trace says,
at strictly increasing times that stay a clock period below the end of time. -/
structure Recording (transfers : List Transfer) where
  sclStart : UInt64
  sdaStart : UInt64
  trace : Trace
  encodes : Encodes .idle transfers trace
  increasing : Timeline.Increasing trace
  sclStart_lt : ∀ c ∈ trace, sclStart < c.1
  sdaStart_lt : ∀ c ∈ trace, sdaStart < c.1
  bounded : ∀ c ∈ trace,
    c.1.toNat + (clockPeriod ⟨(sclStart, .one) :: sclChanges trace⟩).toNat < UInt64.size

namespace Recording

variable {transfers : List Transfer} (rec : Recording transfers)

/-- The SCL lane of a recording. -/
def scl : BitLane := ⟨(rec.sclStart, .one) :: sclChanges rec.trace⟩

/-- The SDA lane of a recording. -/
def sda : BitLane := ⟨(rec.sdaStart, .one) :: sdaChanges rec.trace⟩

end Recording

/-! ## The events of the transfers -/

/-- The events of a transfer. -/
def Transfer.events (tr : Transfer) : List Event :=
  .start :: tr.bits.map .sample ++ if tr.stop then [.stop] else []

/-- The event that closes the transfer before. -/
def Between.events : Between → List Event
  | .held _ true => [.stop]
  | _ => []

/-- The SCL and SDA values. -/
def Between.scl : Between → Bit
  | .idle => .one
  | .held _ _ => .zero

@[inherit_doc Between.scl]
def Between.sda : Between → Bit
  | .idle => .one
  | .held cur _ => cur

/-- Nothing happens in a low phase. -/
theorem recognise_lowPhase (sda : Option Bit) (moves : List (UInt64 × Bit)) (rest : Trace) :
    recognise (some .zero) sda (lowPhase moves ++ rest)
      = recognise (some .zero) (Timeline.lastValue sda moves) rest := by
  induction moves generalizing sda with
  | nil => rfl
  | cons m moves ih =>
    rw [Timeline.lastValue_cons, ← ih (some m.2)]
    simp [lowPhase, recognise]

/-- The events of sent bits are their samples. -/
theorem Sends.map_snd_recognise {cur last : Bit} {bits : List Bit} {trace : Trace}
    (h : Sends cur bits trace last) (rest : Trace) :
    (recognise (some .zero) (some cur) (trace ++ rest)).map Prod.snd
      = bits.map .sample ++ (recognise (some .zero) (some last) rest).map Prod.snd := by
  induction h with
  | done cur => rfl
  | @bit cur bit last bits moves rise fall tail hmoves hrest ih =>
    have hpulse : recognise (some .zero) (some bit)
        ((rise, .scl .one) :: (fall, .scl .zero) :: (tail ++ rest))
        = (rise, .sample bit) :: recognise (some .zero) (some bit) (tail ++ rest) := by
      simp [recognise, steady]
    rw [List.append_assoc, recognise_lowPhase, hmoves, List.cons_append, List.cons_append, hpulse,
      List.map_cons, ih]
    rfl

/-- The events of a trace that carries transfers are those of the transfers. -/
theorem Encodes.map_snd_recognise {phase : Between} {transfers : List Transfer} {trace : Trace}
    (h : Encodes phase transfers trace) :
    (recognise (some phase.scl) (some phase.sda) trace).map Prod.snd
      = phase.events ++ transfers.flatMap Transfer.events := by
  have hclose : ∀ (cur : Bit) (tr : Transfer),
      (Between.held cur tr.stop).events = if tr.stop then [.stop] else [] := by
    intro cur tr
    cases tr.stop <;> rfl
  induction h with
  | idle => rfl
  | @start tr trs cur t fall bits rest hbits hrest ih =>
    have hstart : recognise (some .one) (some .one)
        ((t, .sda .zero) :: (fall, .scl .zero) :: (bits ++ rest))
        = (t, .start) :: recognise (some .zero) (some .zero) (bits ++ rest) := by
      simp [recognise]
    rw [Between.scl, Between.sda, hstart, List.map_cons, hbits.map_snd_recognise, List.flatMap_cons,
      Transfer.events, ← hclose cur tr]
    have ih : (recognise (some .zero) (some cur) rest).map Prod.snd = _ := ih
    rw [ih]
    simp [Between.events]
  | @restart tr trs cur cur' moves rise t fall bits rest hmoves hbits hrest ih =>
    have hstart : recognise (some .zero) (some .one)
        ((rise, .scl .one) :: (t, .sda .zero) :: (fall, .scl .zero) :: (bits ++ rest))
        = (t, .start) :: recognise (some .zero) (some .zero) (bits ++ rest) := by
      simp [recognise, steady]
    rw [Between.scl, Between.sda, recognise_lowPhase, hmoves, hstart, List.map_cons,
      hbits.map_snd_recognise, List.flatMap_cons, Transfer.events, ← hclose cur' tr]
    have ih : (recognise (some .zero) (some cur') rest).map Prod.snd = _ := ih
    rw [ih]
    simp [Between.events]
  | @stop trs cur moves rise t rest hmoves hrest ih =>
    have hstop : recognise (some .zero) (some .zero)
        ((rise, .scl .one) :: (t, .sda .one) :: rest)
        = (t, .stop) :: recognise (some .one) (some .one) rest := by
      simp [recognise, steady]
    have ih : (recognise (some .one) (some .one) rest).map Prod.snd = _ := ih
    rw [Between.scl, Between.sda, recognise_lowPhase, hmoves, hstop, List.map_cons, ih]
    simp [Between.events]

/-! ## The tokens of the transfers -/

/-- The tokens of a byte and its acknowledge. -/
def slotTokens (isAddress : Bool) (slot : ℕ × Bool) : List Token :=
  [.byte isAddress (bitsOf slot.1), .ack (ackBit slot.2)]

/-- The tokens of the bytes of a transfer, of which only the first can be an address. -/
def slotsTokens : Bool → List (ℕ × Bool) → List Token
  | _, [] => []
  | isAddress, slot :: rest => slotTokens isAddress slot ++ slotsTokens false rest

/-- The tokens of a transfer. -/
def Transfer.tokens (repeated : Bool) (tr : Transfer) : List Token :=
  .start repeated :: slotsTokens true tr.slots ++ if tr.stop then [.stop] else []

/-- The tokens of a list of transfers. -/
def tokens : Bool → List Transfer → List Token
  | _, [] => []
  | repeated, tr :: rest => tr.tokens repeated ++ tokens (!tr.stop) rest

/-- The bits that complete a byte. -/
theorem framing_byte (isAddress : Bool) (latched bits : List Bit) (hbits : bits ≠ [])
    (hlen : latched.length + bits.length = 8) :
    framing.emit ⟨true, isAddress, latched⟩ (bits.map .sample)
        = [.byte isAddress (latched ++ bits)] ∧
      framing.final ⟨true, isAddress, latched⟩ (bits.map .sample)
        = ⟨true, isAddress, latched ++ bits⟩ := by
  induction bits generalizing latched with
  | nil => exact absurd rfl hbits
  | cons bit bits ih =>
    rw [List.length_cons] at hlen
    have hnot : ¬ latched.length = 8 := by omega
    have hstep : framing.step ⟨true, isAddress, latched⟩ (.sample bit)
        = (if bits = [] then [.byte isAddress (latched ++ [bit])] else [],
          ⟨true, isAddress, latched ++ [bit]⟩) := by
      have hlast : latched.length + 1 = 8 ↔ bits = [] := by
        rw [← List.length_eq_zero_iff]
        omega
      simp [framing, Frame.step, hnot, hlast]
    rw [List.map_cons, Transducer.emit_cons, Transducer.final_cons, hstep]
    by_cases hnil : bits = []
    · subst hnil
      exact ⟨rfl, rfl⟩
    · obtain ⟨hemit, hfinal⟩ := ih (latched ++ [bit]) hnil (by simp; omega)
      rw [if_neg hnil, hemit, hfinal]
      simp

/-- A byte and its acknowledge leave the framing at a byte boundary, past the address. -/
theorem framing_slot (isAddress : Bool) (slot : ℕ × Bool) :
    framing.emit ⟨true, isAddress, []⟩ ((slotBits slot).map .sample)
        = slotTokens isAddress slot ∧
      framing.final ⟨true, isAddress, []⟩ ((slotBits slot).map .sample) = ⟨true, false, []⟩ := by
  have hlen : (bitsOf slot.1).length = 8 := by simp [bitsOf]
  obtain ⟨hemit, hfinal⟩ := framing_byte isAddress [] (bitsOf slot.1)
    (List.ne_nil_of_length_pos (by omega)) (by simpa using hlen)
  have hack : framing.step ⟨true, isAddress, bitsOf slot.1⟩ (.sample (ackBit slot.2))
      = ([.ack (ackBit slot.2)], ⟨true, false, []⟩) := by
    simp [framing, Frame.step, hlen]
  rw [List.nil_append] at hemit hfinal
  rw [slotBits, List.map_append, Transducer.emit_append, Transducer.final_append, hemit, hfinal,
    List.map_singleton, Transducer.emit_cons, Transducer.final_cons, hack]
  exact ⟨rfl, rfl⟩

/-- The bytes of a transfer. -/
theorem framing_slots (isAddress : Bool) (slots : List (ℕ × Bool)) :
    framing.emit ⟨true, isAddress, []⟩ ((slots.flatMap slotBits).map .sample)
        = slotsTokens isAddress slots ∧
      ∃ isAddress', framing.final ⟨true, isAddress, []⟩ ((slots.flatMap slotBits).map .sample)
        = ⟨true, isAddress', []⟩ := by
  induction slots generalizing isAddress with
  | nil => exact ⟨rfl, isAddress, rfl⟩
  | cons slot slots ih =>
    obtain ⟨hemit, hfinal⟩ := framing_slot isAddress slot
    obtain ⟨hemits, hfinals⟩ := ih false
    rw [List.flatMap_cons, List.map_append, Transducer.emit_append, Transducer.final_append, hemit,
      hfinal, hemits]
    exact ⟨rfl, hfinals⟩

/-- One transfer, from any byte boundary. -/
theorem framing_transfer (repeated isAddress : Bool) (tr : Transfer) :
    framing.emit ⟨repeated, isAddress, []⟩ tr.events = tr.tokens repeated ∧
      ∃ isAddress', framing.final ⟨repeated, isAddress, []⟩ tr.events
        = ⟨!tr.stop, isAddress', []⟩ := by
  obtain ⟨hemit, isAddress', hfinal⟩ := framing_slots true tr.slots
  have hstart : framing.step ⟨repeated, isAddress, []⟩ .start
      = ([.start repeated], ⟨true, true, []⟩) := rfl
  rw [Transfer.events, List.cons_append, Transducer.emit_cons, Transducer.final_cons, hstart,
    Transducer.emit_append, Transducer.final_append, Transfer.bits, hemit, hfinal, Transfer.tokens]
  cases tr.stop with
  | true => exact ⟨rfl, isAddress', rfl⟩
  | false => exact ⟨rfl, isAddress', rfl⟩

/-- A list of transfers, from any byte boundary. -/
theorem framing_transfers (repeated isAddress : Bool) (transfers : List Transfer) :
    framing.emit ⟨repeated, isAddress, []⟩ (transfers.flatMap Transfer.events)
        = tokens repeated transfers ∧
      (framing.final ⟨repeated, isAddress, []⟩ (transfers.flatMap Transfer.events)).closing
        = [] := by
  induction transfers generalizing repeated isAddress with
  | nil => exact ⟨rfl, rfl⟩
  | cons tr transfers ih =>
    obtain ⟨hemit, isAddress', hfinal⟩ := framing_transfer repeated isAddress tr
    obtain ⟨hemits, hfinals⟩ := ih (!tr.stop) isAddress'
    rw [List.flatMap_cons, Transducer.emit_append, Transducer.final_append, hemit, hfinal, hemits]
    exact ⟨rfl, hfinals⟩

/-- The framing of the events of transfers is the transfers, byte by byte. -/
theorem busTokens_events (transfers : List Transfer) :
    busTokens (transfers.flatMap Transfer.events) = tokens false transfers := by
  obtain ⟨hemit, hclosing⟩ := framing_transfers false false transfers
  rw [busTokens, Frame.init, hemit, hclosing, List.append_nil]

/-! ## The words of the transfers -/

theorem packed_bitsOf {value : ℕ} (h : value < 256) : packed (bitsOf value) = value := by
  have hall : ∀ v < 256, packed (bitsOf v) = v := by decide +kernel
  exact hall value h

/-- A sent byte is shown with its value. -/
theorem render_slotTokens (s : I2cSettings) (isAddress : Bool) (slot : ℕ × Bool)
    (h : slot.1 < 256) :
    (slotTokens isAddress slot).map (Token.render s)
      = [(valueText s isAddress slot.1, .data), ackContent slot.2] := by
  have hlast : ¬ (bitsOf slot.1).getLast? = some .invalid := by
    simp only [bitsOf, List.getLast?_map, Option.map_eq_some_iff, not_exists, not_and]
    intro i _
    split <;> decide
  simp only [slotTokens, List.map_cons, List.map_nil, Token.render, hlast, if_false,
    packed_bitsOf h]
  cases slot.2 <;> rfl

/-- The address of a transfer is shown with its direction. -/
theorem valueText_address (s : I2cSettings) (tr : Transfer) :
    valueText s true (2 * tr.address.toNat + tr.read.toNat) = tr.addressText s := by
  have hread : tr.read.toNat = 0 ∨ tr.read.toNat = 1 := by cases tr.read <;> simp
  have hdiv : (2 * tr.address.toNat + tr.read.toNat) / 2 = tr.address.toNat := by omega
  have hmod : (2 * tr.address.toNat + tr.read.toNat) % 2 = tr.read.toNat := by omega
  rw [valueText, Transfer.addressText, hdiv, hmod, Bool.true_and]
  cases tr.read <;> rfl

/-- The data bytes of a transfer. -/
theorem render_dataTokens (s : I2cSettings) (data : List (BitVec 8 × Bool)) :
    (slotsTokens false (data.map fun d => (d.1.toNat, d.2))).map (Token.render s)
      = data.flatMap fun d => [(s.format.format d.1.toNat 8, .data), ackContent d.2] := by
  induction data with
  | nil => rfl
  | cons d data ih =>
    rw [List.map_cons, slotsTokens, List.map_append, ih,
      render_slotTokens s false (d.1.toNat, d.2) d.1.isLt]
    rfl

/-- The tokens of a transfer, rendered. -/
theorem render_tokens (s : I2cSettings) (repeated : Bool) (tr : Transfer) :
    (tr.tokens repeated).map (Token.render s) = tr.contents s repeated := by
  have haddress : 2 * tr.address.toNat + tr.read.toNat < 256 := by
    have hlt := tr.address.isLt
    have hread : tr.read.toNat ≤ 1 := by cases tr.read <;> simp
    omega
  rw [Transfer.tokens, Transfer.contents, Transfer.slots, slotsTokens, List.cons_append,
    List.map_cons, List.map_append, List.map_append, render_slotTokens s true _ haddress,
    render_dataTokens, valueText_address]
  cases tr.stop <;> rfl

theorem render_tokens_transfers (s : I2cSettings) (repeated : Bool) (transfers : List Transfer) :
    (tokens repeated transfers).map (Token.render s) = contents s repeated transfers := by
  induction transfers generalizing repeated with
  | nil => rfl
  | cons tr transfers ih => rw [tokens, contents, List.map_append, render_tokens, ih]

/-! ## The clock period of a recording -/

theorem pos_of_mem_zipWith_sub {times : List UInt64} (h : times.Pairwise (· < ·)) :
    ∀ d ∈ List.zipWith (fun a b => b - a) times times.tail, 0 < d := by
  induction times with
  | nil => simp
  | cons a times ih =>
    obtain ⟨ha, htimes⟩ := List.pairwise_cons.mp h
    cases times with
    | nil => simp
    | cons b times =>
      intro d hd
      rcases List.mem_cons.mp hd with rfl | hd
      · have hlt : a < b := ha b List.mem_cons_self
        grind
      · exact ih htimes d hd

/-- A clock period takes time. -/
theorem clockPeriod_pos {scl : BitLane} (h : scl.Increasing) : 0 < clockPeriod scl := by
  have hrises : (scl.edgesTo .one).Pairwise (· < ·) := by
    rw [scl.edgesTo_eq .one]
    exact Timeline.pairwise_edgesFrom Bit.one h
  have hpos := pos_of_mem_zipWith_sub hrises
  rw [clockPeriod]
  cases hmin : (List.zipWith (fun a b => b - a) (scl.edgesTo .one) (scl.edgesTo .one).tail).min? with
  | none => decide
  | some d => exact hpos d (List.min?_mem hmin)

/-! ## Round trip -/

namespace Recording

variable {transfers : List Transfer} (rec : Recording transfers)

theorem increasing_scl : rec.scl.Increasing := by
  refine List.pairwise_cons.mpr ⟨?_, ?_⟩
  · exact fun c hc => rec.sclStart_lt _ (mem_of_mem_sclChanges hc)
  · exact increasing_sclChanges rec.increasing

/-- The times of a recording lie before the end of time. -/
theorem lt_maxTime : ∀ c ∈ rec.trace, c.1 < maxTime := by
  intro c hc
  have hpos : 0 < (clockPeriod rec.scl).toNat := clockPeriod_pos rec.increasing_scl
  have hbound : c.1.toNat + (clockPeriod rec.scl).toNat < UInt64.size := rec.bounded c hc
  have hmax : maxTime.toNat = UInt64.size - 1 := by decide
  rw [UInt64.lt_iff_toNat_lt, hmax]
  omega

/-- The events of a recording are those of the transfers. -/
theorem map_snd_busEvents :
    (busEvents rec.scl rec.sda).map Prod.snd = transfers.flatMap Transfer.events := by
  have hevents := busEvents_eq_recognise (rec.sclStart, .one) (rec.sdaStart, .one) rec.increasing
    rec.lt_maxTime rec.sclStart_lt rec.sdaStart_lt
  rw [scl, sda, hevents]
  exact rec.encodes.map_snd_recognise

/-- The decoder shows the transfers that were put on the bus. -/
theorem contents_decode (s : I2cSettings) :
    ∃ words, s.decode [some rec.scl, some rec.sda] = [{ name := "Bus", words }] ∧
      words.map DecodedWord.content = contents s false transfers := by
  refine ⟨_, s.decode_pair rec.scl rec.sda, ?_⟩
  rw [decodeBus, contents_decodeEvents, map_snd_busEvents, busTokens_events,
    render_tokens_transfers]

end Recording

/-! ## A bus encoder -/

/-- Half of the clock period of the encoder. -/
def HALF : UInt64 := 10

/-- Move SDA to `bit` at `t`, unless it is there already. -/
def settle (t : UInt64) (cur bit : Bit) : List (UInt64 × Bit) :=
  if cur = bit then [] else [(t, bit)]

/-- Clock out the bits from `t` on, with SDA at `cur`. -/
def clockBits (t : UInt64) (cur : Bit) : List Bit → Trace
  | [] => []
  | bit :: bits =>
    lowPhase (settle t cur bit) ++ (t + HALF / 2, .scl .one) :: (t + HALF / 2 + HALF, .scl .zero) ::
      clockBits (t + HALF * 2) bit bits

/-- The trace of a single transfer that is stopped: START, the bits, STOP. -/
def transaction (tr : Transfer) : Trace :=
  let t := HALF * 2 + HALF + HALF * 2 * UInt64.ofNat tr.bits.length
  (HALF * 2, .sda .zero) :: (HALF * 2 + HALF / 2, .scl .zero) ::
    (clockBits (HALF * 2 + HALF) .zero tr.bits ++
      (lowPhase (settle t (tr.bits.getLastD .zero) .zero) ++
        [(t + HALF / 2, .scl .one), (t + HALF, .sda .one)]))

theorem lastValue_settle (t : UInt64) (cur bit : Bit) :
    Timeline.lastValue (some cur) (settle t cur bit) = some bit := by
  unfold settle
  by_cases h : cur = bit
  · simp [h]
  · simp [h]

theorem sends_clockBits (t : UInt64) (cur : Bit) (bits : List Bit) :
    Sends cur bits (clockBits t cur bits) (bits.getLastD cur) := by
  induction bits generalizing t cur with
  | nil => exact .done cur
  | cons bit bits ih =>
    have hlast : (bit :: bits).getLastD cur = bits.getLastD bit := by
      cases bits <;> rfl
    rw [hlast]
    exact .bit (lastValue_settle t cur bit) (ih _ bit)

/-- The encoder puts the transfer on the bus. -/
theorem encodes_transaction {tr : Transfer} (hstop : tr.stop = true) :
    Encodes .idle [tr] (transaction tr) := by
  apply Encodes.start (sends_clockBits _ .zero tr.bits)
  rw [hstop]
  exact .stop (lastValue_settle _ _ .zero) .idle

/-- A write of `00` to the device at `50`, both bytes acknowledged. -/
def writeZero : Transfer :=
  { address := 0x50, read := false, ack := true, data := [(0, true)], stop := true }

/-- The recording of `writeZero`. -/
def writeZeroRecording : Recording [writeZero] where
  sclStart := 0
  sdaStart := 0
  trace := transaction writeZero
  encodes := encodes_transaction rfl
  increasing := by
    unfold Timeline.Increasing
    decide
  sclStart_lt := by decide
  sdaStart_lt := by decide
  bounded := by decide

theorem contents_decode_writeZero :
    ∃ words, I2cSettings.default.decode [some writeZeroRecording.scl, some writeZeroRecording.sda]
        = [{ name := "Bus", words }] ∧
      words.map DecodedWord.content = [("S", .data), ("50 W", .data), ("A", .data), ("00", .data),
        ("A", .data), ("P", .data)] := by
  obtain ⟨words, hdecode, hcontents⟩ := writeZeroRecording.contents_decode .default
  refine ⟨words, hdecode, ?_⟩
  rw [hcontents]
  decide

end Decoders.I2c
