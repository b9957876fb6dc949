import Kahuna.Decoders.Basic
import Mathlib.Data.List.Chain

/-!
# Spans of words and exact times

Sums and products of times are computed in 64 bits. `checkedAdd` and `checkedMul` are these operations
where they do not overflow, `levelAt` reads a lane at a time that may lie beyond them.
-/

namespace Decoders

/-- The sum, unless it overflows. -/
def checkedAdd (a b : UInt64) : Option UInt64 :=
  if a.toNat + b.toNat < UInt64.size then some (a + b) else none

/-- The product, unless it overflows. -/
def checkedMul (a b : UInt64) : Option UInt64 :=
  if a.toNat * b.toNat < UInt64.size then some (a * b) else none

/-- A sum that does not overflow is exact. -/
theorem checkedAdd_eq_some_iff {a b c : UInt64} :
    checkedAdd a b = some c ↔ c.toNat = a.toNat + b.toNat := by
  have hc := c.toNat_lt_size
  rw [checkedAdd]
  split
  next hfits =>
    have hsum : (a + b).toNat = a.toNat + b.toNat := by
      rw [UInt64.toNat_add]
      exact Nat.mod_eq_of_lt hfits
    rw [Option.some.injEq, ← UInt64.toNat_inj, hsum, eq_comm]
  next hover =>
    constructor
    · simp
    · omega

/-- A product that does not overflow is exact. -/
theorem checkedMul_eq_some_iff {a b c : UInt64} :
    checkedMul a b = some c ↔ c.toNat = a.toNat * b.toNat := by
  have hc := c.toNat_lt_size
  rw [checkedMul]
  split
  next hfits =>
    have hprod : (a * b).toNat = a.toNat * b.toNat := by
      rw [UInt64.toNat_mul]
      exact Nat.mod_eq_of_lt hfits
    rw [Option.some.injEq, ← UInt64.toNat_inj, hprod, eq_comm]
  next hover =>
    constructor
    · simp
    · omega

/-- What is checked is what is computed when nothing is checked. -/
theorem eq_of_checkedAdd {a b c : UInt64} (h : checkedAdd a b = some c) : a + b = c := by
  rw [checkedAdd] at h
  split at h
  · exact Option.some.inj h
  · cases h

theorem eq_of_checkedMul {a b c : UInt64} (h : checkedMul a b = some c) : a * b = c := by
  rw [checkedMul] at h
  split at h
  · exact Option.some.inj h
  · cases h

/-- There is a 64-bit number of any value below the limit. -/
theorem exists_toNat_eq {n : ℕ} (h : n < UInt64.size) : ∃ c : UInt64, c.toNat = n :=
  ⟨.ofNat n, UInt64.toNat_ofNat_of_lt' h⟩

/-- The value of a lane at a time that may not fit into 64 bits. -/
def BitLane.levelAt (lane : BitLane) (time : ℕ) : Option Bit :=
  Timeline.valueAt (lane.changes.map fun c => (c.1.toNat, c.2)) time

theorem BitLane.levelAt_toNat (lane : BitLane) (time : UInt64) :
    lane.levelAt time.toNat = lane.valueAt time := by
  rw [valueAt_eq, levelAt, Timeline.valueAt, Timeline.valueAt, List.takeWhile_map,
    Timeline.lastValue_none, Timeline.lastValue_none, List.getLast?_map, Option.map_map]
  rfl

/-- The words are sorted by their starts, and none reaches into the next one. -/
def InOrder (words : List DecodedWord) : Prop :=
  words.IsChain fun w next => w.start ≤ next.start ∧ w.end_ ≤ next.start

end Decoders
