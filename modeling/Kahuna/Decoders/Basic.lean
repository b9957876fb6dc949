import Kahuna.Timeline.Basic
import Mathlib.Data.UInt

/-!
# Protocol decoders: lanes, words and formats

The vocabulary shared by the protocol decoders (`decoders/mod.rs`). A decoder consumes
`BitLane`s, the transitions of one-bit signals, and returns `DecodedLane`s, rows of words that
each span a time range.

Times are `u64` ticks. Sums of times wrap, as they do in the release profile; where a result needs
that nothing wraps it says so.
-/

/-- `u64` is linearly ordered, so the facts about recorded signals apply to lanes. -/
instance UInt64.linearOrder : LinearOrder UInt64 where
  le_refl := UInt64.le_refl
  le_trans _ _ _ := UInt64.le_trans
  le_antisymm _ _ := UInt64.le_antisymm
  le_total := UInt64.le_total
  lt_iff_le_not_ge _ _ := by grind
  toDecidableLE := inferInstance
  toDecidableEq := inferInstance
  toDecidableLT := inferInstance

namespace Decoders

/-- The value of a one-bit signal. Anything that is not a clean 0 or 1 is `invalid`. -/
inductive Bit where
  | zero
  | one
  | invalid
  deriving DecidableEq, Repr

namespace Bit

/-- Only `one` is high. -/
def isHigh (b : Bit) : Bool :=
  match b with
  | .one => true
  | _ => false

/-- A clean bit is a 0 or a 1. -/
def IsClean (b : Bit) : Prop := b ≠ .invalid

instance (b : Bit) : Decidable b.IsClean := inferInstanceAs (Decidable (b ≠ .invalid))

/-- `u64::from(bit == Bit::One)`. -/
def toNat (b : Bit) : ℕ := if b = .one then 1 else 0

end Bit

/-- `slice::partition_point`: the length of the leading stretch on which `p` holds. The slices it
is called on are partitioned by `p`, which is what the binary search of the standard library needs
to return the same index. -/
def partitionPoint {α : Type*} (p : α → Bool) (xs : List α) : ℕ := (xs.takeWhile p).length

/-- A single signal's transitions, as `(time, bit)` pairs sorted by time. -/
structure BitLane where
  /-- The transitions. -/
  changes : List (UInt64 × Bit)
  deriving DecidableEq, Repr

namespace BitLane

/-- Value of the lane at `time`, i.e. the value set by the most recent transition at or before
`time`; `none` before the first transition. -/
def valueAt (lane : BitLane) (time : UInt64) : Option Bit :=
  let idx := partitionPoint (fun c => c.1 ≤ time) lane.changes
  if 0 < idx then (lane.changes[idx - 1]?).map Prod.snd else none

/-- Times at which the lane transitions to `target`, in order. -/
def edgesTo (lane : BitLane) (target : Bit) : List UInt64 := go none lane.changes
where
  /-- The loop over the changes, with the previous value. -/
  go : Option Bit → List (UInt64 × Bit) → List UInt64
    | _, [] => []
    | prev, (t, v) :: rest =>
      if prev.any (· ≠ v) ∧ v = target then t :: go (some v) rest else go (some v) rest

/-- The transitions of the lane have strictly increasing times. -/
def Increasing (lane : BitLane) : Prop := Timeline.Increasing lane.changes

/-- `value_at` reads the value in force. -/
theorem valueAt_eq (lane : BitLane) (time : UInt64) :
    lane.valueAt time = Timeline.valueAt lane.changes time := by
  have hlast : ∀ xs : List (UInt64 × Bit), xs <+: lane.changes →
      (if 0 < xs.length then (lane.changes[xs.length - 1]?).map Prod.snd else none)
        = xs.getLast?.map Prod.snd := by
    rintro xs ⟨ys, hys⟩
    rcases List.eq_nil_or_concat xs with rfl | ⟨zs, z, rfl⟩
    · rfl
    · simp [← hys]
  rw [Timeline.valueAt, Timeline.lastValue_none]
  exact hlast _ (List.takeWhile_prefix _)

/-- `edges_to` lists the edges of the recorded signal. -/
theorem edgesTo_eq (lane : BitLane) (target : Bit) :
    lane.edgesTo target = Timeline.edgesTo target lane.changes := by
  have hgo : ∀ (prev : Option Bit) (changes : List (UInt64 × Bit)),
      edgesTo.go target prev changes = Timeline.edgesFrom target prev changes := by
    intro prev changes
    induction changes generalizing prev with
    | nil => simp [edgesTo.go]
    | cons c rest ih =>
      cases prev with
      | none => simp [edgesTo.go, Timeline.edgesFrom, ih]
      | some p => simp [edgesTo.go, Timeline.edgesFrom, ih]
  exact hgo none lane.changes

end BitLane

/-- What a decoded word represents: decoded payload, or a span the decoder could not make sense
of. -/
inductive WordKind where
  | data
  | error
  deriving DecidableEq, Repr

/-- One decoded word occupying the half-open time range from `start` to `end_`. -/
structure DecodedWord where
  start : UInt64
  end_ : UInt64
  text : String
  kind : WordKind
  deriving DecidableEq, Repr

/-- What is written in a word: its text and its kind. -/
def DecodedWord.content (w : DecodedWord) : String × WordKind := (w.text, w.kind)

/-- A row of decoded output. A decoder may produce several. -/
structure DecodedLane where
  name : String
  words : List DecodedWord
  deriving DecidableEq, Repr

/-- Bit order within a decoded word. -/
inductive BitOrder where
  | msbFirst
  | lsbFirst
  deriving DecidableEq, Repr

/-- How decoded words are rendered as text. -/
inductive WordFormat where
  | hex
  | decimal
  | binary
  | ascii
  deriving DecidableEq, Repr

namespace WordFormat

/-- The digits of `value` in base `base`, upper case, padded with zeros to at least `width`. -/
def paddedDigits (base value width : ℕ) : String :=
  String.ofList (((Nat.toDigits base value).map Char.toUpper).leftpad width '0')

/-- Render `value` of `bits` width. -/
def format (f : WordFormat) (value : ℕ) (bits : ℕ) : String :=
  match f with
  | .hex => paddedDigits 16 value ((bits + 3) / 4)
  | .decimal => paddedDigits 10 value 0
  | .binary => paddedDigits 2 value bits
  | .ascii =>
    -- `u8::try_from(value)` fails from 256 on; only printable ASCII is shown as a character.
    if 0x20 ≤ value ∧ value ≤ 0x7E then String.ofList ['\'', Char.ofNat value, '\'']
    else paddedDigits 16 value 2

example : format .hex 0x0A 8 = "0A" := by decide
example : format .binary 0b101 8 = "00000101" := by decide
example : format .ascii 0x4B 8 = "'K'" := by decide

end WordFormat

end Decoders

/-!
## Words on the wire

A serial protocol sends a word bit by bit, from its lowest bit or from its highest. The receiver takes
in one bit after the other, at the top or at the bottom of what it has.

* `BitOrder.sentBit`: the bits in the order in which they are sent;
* `BitOrder.received_succ`: what the receiver has after one more bit;
* `BitOrder.countP_sentBit`: the number of ones does not depend on the order.
-/

namespace Decoders

/-- The level of a bit. -/
def Bit.ofBool (b : Bool) : Bit := if b then .one else .zero

@[simp] theorem Bit.ofBool_eq_one (b : Bool) : Bit.ofBool b = .one ↔ b = true := by
  cases b <;> simp [ofBool]

namespace BitOrder

/-- The bits of a word of `size` bits, in the order in which they are sent. -/
def sentBit (order : BitOrder) (size word i : ℕ) : Bool :=
  match order with
  | .lsbFirst => word.testBit i
  | .msbFirst => word.testBit (size - 1 - i)

/-- What has been received of a word after some of its bits: its lowest bits, or its highest. -/
def received (order : BitOrder) (size word count : ℕ) : ℕ :=
  match order with
  | .lsbFirst => word % 2 ^ count
  | .msbFirst => word >>> (size - count)

/-- Take in one more bit, into slot `i`. -/
def takeIn (order : BitOrder) (value i : ℕ) (bit : Bool) : ℕ :=
  match order with
  | .lsbFirst => value ||| (bit.toNat <<< i)
  | .msbFirst => (value <<< 1) ||| bit.toNat

variable {order : BitOrder} {size word count : ℕ}

theorem received_zero (hword : word < 2 ^ size) : order.received size word 0 = 0 := by
  cases order with
  | lsbFirst => simp [received, Nat.mod_one]
  | msbFirst => simpa [received, Nat.shiftRight_eq_div_pow] using hword

theorem received_size (hword : word < 2 ^ size) : order.received size word size = word := by
  cases order with
  | lsbFirst => exact Nat.mod_eq_of_lt hword
  | msbFirst => simp [received]

/-- What has been received stays below the power of two of the number of bits. -/
theorem received_lt (hword : word < 2 ^ size) (hcount : count ≤ size) :
    order.received size word count < 2 ^ count := by
  cases order with
  | lsbFirst => exact Nat.mod_lt _ (Nat.two_pow_pos count)
  | msbFirst =>
    rw [received, Nat.shiftRight_eq_div_pow]
    apply Nat.div_lt_of_lt_mul
    rwa [← Nat.pow_add, Nat.sub_add_cancel hcount]

/-- One more bit is taken in. -/
theorem received_succ (hcount : count < size) :
    order.received size word (count + 1)
      = order.takeIn (order.received size word count) count (order.sentBit size word count) := by
  apply Nat.eq_of_testBit_eq
  intro j
  cases order with
  | lsbFirst =>
    show (word % 2 ^ (count + 1)).testBit j
      = (word % 2 ^ count ||| (word.testBit count).toNat <<< count).testBit j
    rw [Nat.testBit_or, Nat.testBit_mod_two_pow, Nat.testBit_mod_two_pow, Nat.testBit_shiftLeft,
      Nat.testBit_bool_toNat]
    rcases lt_trichotomy j count with h | rfl | h
    · simp [h, Nat.lt_succ_of_lt h, Nat.not_le.2 h]
    · simp
    · have hslot : j - count ≠ 0 := by omega
      have hcount' : ¬ j < count + 1 := by omega
      simp [Nat.not_lt.2 h.le, hslot, hcount']
  | msbFirst =>
    show (word >>> (size - (count + 1))).testBit j
      = ((word >>> (size - count)) <<< 1 ||| (word.testBit (size - 1 - count)).toNat).testBit j
    rw [Nat.testBit_or, Nat.testBit_shiftLeft, Nat.testBit_shiftRight, Nat.testBit_shiftRight,
      Nat.testBit_bool_toNat]
    by_cases hj : j = 0
    · simp [hj, Nat.sub_sub, Nat.add_comm]
    · have hge : 1 ≤ j := Nat.pos_of_ne_zero hj
      have hslot : size - count + (j - 1) = size - (count + 1) + j := by omega
      simp [hge, hj, hslot]

/-- The number of ones of a word. -/
def onesOf (size word : ℕ) : ℕ := (List.range size).countP word.testBit

/-- The number of ones does not depend on the order. -/
theorem countP_sentBit (order : BitOrder) (size word : ℕ) :
    (List.range size).countP (order.sentBit size word) = onesOf size word := by
  cases order with
  | lsbFirst => rfl
  | msbFirst =>
    have hreverse : (List.range size).map (fun i => size - 1 - i) = (List.range size).reverse := by
      rw [List.range_eq_range', List.reverse_range', List.range_eq_range', Nat.zero_add]
    show (List.range size).countP (word.testBit ∘ fun i => size - 1 - i) = _
    rw [← List.countP_map, hreverse, List.countP_reverse]
    rfl

end BitOrder

end Decoders
