import Kahuna.Decoders.Spans
import Kahuna.Decoders.Uart.Decode

/-!
# Overflow in the UART decoder

The centre of a bit and the end of a frame are sums of the time of an edge and of multiples of the bit
period. `decodeFramesChecked` is the loop with each of these operations checked. Where the search looks
at an edge is told without machine arithmetic by `searched`.

- `decodeFramesChecked_eq_some_iff`: when no operation overflows;
- `decodesSafely_iff`: the frames are computed without overflow, in order and disjoint, exactly when half
  a period fits behind each edge the search looks at and a whole frame behind each start bit.
-/

namespace Decoders.Uart

/-! ## The loop with checked arithmetic -/

/-- `centre`, unless an operation overflows. -/
def checkedCentre (start period : UInt64) (index : ℕ) : Option UInt64 := do
  let offset ← checkedMul (.ofNat index) period
  let bit ← checkedAdd start offset
  checkedAdd bit (period / 2)

/-- The bits behind the start bit that a frame samples: the data bits, the parity bit, the stop bits. -/
def sampledBits (s : UartSettings) : List ℕ :=
  (List.range s.clampedDataBits).map (· + 1) ++
    (if s.parity = .none then [] else [s.clampedDataBits + 1]) ++
    (List.range s.clampedStopBits).map (s.clampedDataBits + s.parityBits + 1 + ·)

/-- `frameEnd`, unless an operation overflows. -/
def checkedEnd (s : UartSettings) (period start : UInt64) : Option UInt64 := do
  let length ← checkedMul (.ofNat s.frameBits) period
  checkedAdd start length

/-- The loop of `decode`, which ends without a result when an operation overflows. -/
def decodeFramesChecked (s : UartSettings) (line : BitLane) (period : UInt64) :
    UInt64 → List UInt64 → Option (List DecodedWord)
  | _, [] => some []
  | nextFree, start :: rest =>
    if start < nextFree then decodeFramesChecked s line period nextFree rest
    else
      match checkedCentre start period 0 with
      | none => none
      | some middle =>
        if line.valueAt middle ≠ some s.start then decodeFramesChecked s line period nextFree rest
        else if (sampledBits s).all fun i => (checkedCentre start period i).isSome then
          match checkedEnd s period start with
          | none => none
          | some end_ =>
            (decodeFramesChecked s line period end_ rest).map (frameWord s line period start :: ·)
        else none

/-- `decode`, which has no result when an operation overflows. The difference of two times in
`resolve_bit_period` saturates. -/
def UartSettings.decodeChecked (s : UartSettings) (lanes : List (Option BitLane)) :
    Option (List DecodedLane) :=
  match lanes[LINE]? with
  | some (some line) =>
    match s.resolveBitPeriod line with
    | none => some [{ name := "Data", words := [] }]
    | some period =>
      (decodeFramesChecked s line period 0 (line.edgesTo s.start)).map fun words =>
        [{ name := "Data", words }]
  | _ => some [{ name := "Data", words := [] }]

/-! ## Where the search looks -/

section Search

variable (s : UartSettings) (line : BitLane) (period : UInt64)

/-- The line holds the level of a start bit half a period behind the edge. -/
def StartHolds (start : UInt64) : Prop :=
  line.levelAt (start.toNat + period.toNat / 2) = some s.start

instance (start : UInt64) : Decidable (StartHolds s line period start) :=
  inferInstanceAs (Decidable (_ = _))

/-- The edges that are not inside a frame that starts at an earlier edge, where `free` is the end of the
last frame. -/
def searched : ℕ → List UInt64 → List UInt64
  | _, [] => []
  | free, start :: rest =>
    if start.toNat < free then searched free rest
    else if StartHolds s line period start then
      start :: searched (start.toNat + s.frameBits * period.toNat) rest
    else start :: searched free rest

/-- Half a period behind the edge there is a time, and a whole frame behind it when it is a start
bit. -/
def Fits (start : UInt64) : Prop :=
  start.toNat + period.toNat / 2 < UInt64.size ∧
    (StartHolds s line period start → start.toNat + s.frameBits * period.toNat < UInt64.size)

end Search

section Frames

variable {s : UartSettings} {line : BitLane} {period start end_ : UInt64} {index : ℕ}

theorem UartSettings.frameBits_lt (s : UartSettings) : s.frameBits < UInt64.size := by
  have hdata : s.clampedDataBits ≤ 9 := by simp [clampedDataBits]
  have hparity : s.parityBits ≤ 1 := by
    unfold parityBits
    split <;> omega
  have hstop : s.clampedStopBits ≤ 2 := by simp [clampedStopBits]
  have hsize : 13 < UInt64.size := by decide
  unfold frameBits
  omega

theorem frameBits_eq (s : UartSettings) :
    s.frameBits = 1 + s.clampedDataBits + s.parityBits + s.clampedStopBits := rfl

/-- A centre that does not overflow is exact. -/
theorem checkedCentre_eq_some_iff (hindex : index < UInt64.size) {t : UInt64} :
    checkedCentre start period index = some t ↔
      t.toNat = start.toNat + index * period.toNat + period.toNat / 2 := by
  have ht := t.toNat_lt_size
  simp only [checkedCentre, Option.bind_eq_bind, Option.bind_eq_some_iff, checkedMul_eq_some_iff,
    checkedAdd_eq_some_iff, UInt64.toNat_ofNat_of_lt' hindex, UInt64.toNat_div]
  constructor
  · rintro ⟨offset, hoffset, bit, hbit, ht⟩
    rw [ht, hbit, hoffset]
    rfl
  · intro heq
    obtain ⟨offset, hoffset⟩ := exists_toNat_eq (show index * period.toNat < UInt64.size by omega)
    obtain ⟨bit, hbit⟩ :=
      exists_toNat_eq (show start.toNat + index * period.toNat < UInt64.size by omega)
    exact ⟨offset, hoffset, bit, by rw [hbit, hoffset], by rw [heq, hbit]; rfl⟩

/-- There is a time at the centre of a bit when it fits. -/
theorem isSome_checkedCentre_iff (hindex : index < UInt64.size) :
    (checkedCentre start period index).isSome ↔
      start.toNat + index * period.toNat + period.toNat / 2 < UInt64.size := by
  simp only [Option.isSome_iff_exists, checkedCentre_eq_some_iff hindex]
  constructor
  · rintro ⟨t, ht⟩
    exact ht ▸ t.toNat_lt_size
  · exact exists_toNat_eq

/-- An end that does not overflow is exact. -/
theorem checkedEnd_eq_some_iff :
    checkedEnd s period start = some end_ ↔
      end_.toNat = start.toNat + s.frameBits * period.toNat := by
  have hend := end_.toNat_lt_size
  simp only [checkedEnd, Option.bind_eq_bind, Option.bind_eq_some_iff, checkedMul_eq_some_iff,
    checkedAdd_eq_some_iff, UInt64.toNat_ofNat_of_lt' s.frameBits_lt]
  constructor
  · rintro ⟨length, hlength, hend⟩
    rw [hend, hlength]
  · intro heq
    obtain ⟨length, hlength⟩ :=
      exists_toNat_eq (show s.frameBits * period.toNat < UInt64.size by omega)
    exact ⟨length, hlength, by rw [heq, hlength]⟩

/-- The bits of a frame are sampled before it ends. -/
theorem lt_frameBits_of_mem (h : index ∈ sampledBits s) : index < s.frameBits := by
  rw [frameBits_eq]
  simp only [sampledBits, List.mem_append, List.mem_map, List.mem_range] at h
  have hstop : 0 < s.clampedStopBits := by simp [UartSettings.clampedStopBits]
  rcases h with (⟨i, hi, rfl⟩ | hparity) | ⟨i, hi, rfl⟩
  · omega
  · split at hparity
    · simp at hparity
    next hne =>
      have hbits : s.parityBits = 1 := by rw [UartSettings.parityBits, if_neg hne]
      rw [List.mem_singleton] at hparity
      omega
  · omega

/-- When the end of a frame fits, so do the centres of its bits. -/
theorem all_sampledBits (hend : start.toNat + s.frameBits * period.toNat < UInt64.size) :
    (sampledBits s).all fun i => (checkedCentre start period i).isSome := by
  rw [List.all_eq_true]
  intro i hi
  have hlt := lt_frameBits_of_mem hi
  rw [isSome_checkedCentre_iff (hlt.trans s.frameBits_lt)]
  have hmul : i * period.toNat + period.toNat ≤ s.frameBits * period.toNat := by
    rw [← Nat.succ_mul]
    exact Nat.mul_le_mul_right _ hlt
  omega

theorem checkedEnd_eq_none_iff :
    checkedEnd s period start = none ↔ ¬ start.toNat + s.frameBits * period.toNat < UInt64.size := by
  rw [Option.eq_none_iff_forall_ne_some]
  simp only [ne_eq, checkedEnd_eq_some_iff]
  constructor
  · rintro h hfits
    obtain ⟨c, hc⟩ := exists_toNat_eq hfits
    exact h c hc
  · rintro h c hc
    exact h (hc ▸ c.toNat_lt_size)

/-- The wrapping end of a frame is the exact one when it does not overflow. -/
theorem frameEnd_eq (h : checkedEnd s period start = some end_) : frameEnd s period start = end_ := by
  simp only [checkedEnd, Option.bind_eq_bind, Option.bind_eq_some_iff] at h
  obtain ⟨length, hlength, hend⟩ := h
  rw [frameEnd, eq_of_checkedMul hlength, eq_of_checkedAdd hend]

theorem centre_eq {t : UInt64} (h : checkedCentre start period index = some t) :
    centre start period index = t := by
  simp only [checkedCentre, Option.bind_eq_bind, Option.bind_eq_some_iff] at h
  obtain ⟨offset, hoffset, bit, hbit, ht⟩ := h
  rw [centre, eq_of_checkedMul hoffset, eq_of_checkedAdd hbit, eq_of_checkedAdd ht]

/-- Behind an edge with room for half a period, the level of the line is the one that is sampled. -/
theorem valueAt_middle {middle : UInt64} (h : checkedCentre start period 0 = some middle) :
    line.valueAt middle = some s.start ↔ StartHolds s line period start := by
  have hmiddle := (checkedCentre_eq_some_iff (by decide)).mp h
  rw [StartHolds, ← line.levelAt_toNat, hmiddle, Nat.zero_mul, Nat.add_zero]

/-- The loop has a result when everything fits where the search looks, and it is the one of the loop
that does not check. -/
theorem decodeFramesChecked_eq_some_iff (nextFree : UInt64) (edges : List UInt64)
    {words : List DecodedWord} :
    decodeFramesChecked s line period nextFree edges = some words ↔
      (∀ start ∈ searched s line period nextFree.toNat edges, Fits s line period start) ∧
        words = decodeFrames s line period nextFree edges := by
  induction edges generalizing nextFree words with
  | nil => simp [decodeFramesChecked, searched, decodeFrames, eq_comm]
  | cons start rest ih =>
    rw [decodeFramesChecked, searched, decodeFrames]
    by_cases hfree : start < nextFree
    · rw [if_pos hfree, if_pos (UInt64.lt_iff_toNat_lt.mp hfree), if_pos hfree, ih]
    · rw [if_neg hfree, if_neg fun h => hfree (UInt64.lt_iff_toNat_lt.mpr h), if_neg hfree]
      cases hmiddle : checkedCentre start period 0 with
      | none =>
        -- the centre of the start bit is out of reach
        have hfits : ¬ Fits s line period start := by
          rintro ⟨hhalf, -⟩
          have hsome := (@isSome_checkedCentre_iff period start 0 (by decide)).mpr (by simpa using hhalf)
          simp [hmiddle] at hsome
        have hmem : start ∈ (if StartHolds s line period start then
            start :: searched s line period (start.toNat + s.frameBits * period.toNat) rest
            else start :: searched s line period nextFree.toNat rest) := by
          split <;> exact List.mem_cons_self
        simp only [reduceCtorEq, false_iff]
        exact fun h => hfits (h.1 start hmem)
      | some middle =>
        have hhalf : start.toNat + period.toNat / 2 < UInt64.size := by
          have hlt := middle.toNat_lt_size
          rw [(checkedCentre_eq_some_iff (by decide)).mp hmiddle] at hlt
          simpa using hlt
        have hholds := @valueAt_middle s line period start middle hmiddle
        simp only [centre_eq hmiddle]
        by_cases hstart : StartHolds s line period start
        · rw [if_neg (not_not.mpr (hholds.mpr hstart)), if_neg (not_not.mpr (hholds.mpr hstart)),
            if_pos hstart]
          by_cases hroom : start.toNat + s.frameBits * period.toNat < UInt64.size
          · obtain ⟨end_, hend⟩ := exists_toNat_eq hroom
            have hchecked : checkedEnd s period start = some end_ := checkedEnd_eq_some_iff.mpr hend
            have hfits : Fits s line period start := ⟨hhalf, fun _ => hroom⟩
            rw [if_pos (all_sampledBits hroom), hchecked, ← hend]
            change Option.map _ (decodeFramesChecked s line period end_ rest) = some words ↔ _ ∧
              words = frameWord s line period start ::
                decodeFrames s line period (frameEnd s period start) rest
            rw [frameEnd_eq hchecked, Option.map_eq_some_iff, List.forall_mem_cons]
            constructor
            · rintro ⟨rest', hrest, rfl⟩
              obtain ⟨hall, rfl⟩ := (ih end_).mp hrest
              exact ⟨⟨hfits, hall⟩, rfl⟩
            · rintro ⟨⟨-, hall⟩, rfl⟩
              exact ⟨_, (ih end_).mpr ⟨hall, rfl⟩, rfl⟩
          · have hnone : checkedEnd s period start = none := checkedEnd_eq_none_iff.mpr hroom
            simp only [hnone, ite_self, reduceCtorEq, false_iff]
            exact fun h => hroom ((h.1 start List.mem_cons_self).2 hstart)
        · rw [if_pos fun h => hstart (hholds.mp h), if_pos fun h => hstart (hholds.mp h),
            if_neg hstart, ih, List.forall_mem_cons]
          have hfits : Fits s line period start := ⟨hhalf, fun h => absurd h hstart⟩
          simp [hfits]

/-- When nothing overflows, each frame starts where the frame before it has ended. -/
theorem inOrder_of_decodeFramesChecked {nextFree : UInt64} {edges : List UInt64}
    {words : List DecodedWord} (h : decodeFramesChecked s line period nextFree edges = some words) :
    InOrder words ∧ ∀ w ∈ words.head?, nextFree ≤ w.start := by
  induction edges generalizing nextFree words with
  | nil =>
    obtain rfl : [] = words := Option.some.inj h
    exact ⟨List.IsChain.nil, by simp⟩
  | cons start rest ih =>
    rw [decodeFramesChecked] at h
    split at h
    · exact ih h
    next hfree =>
      split at h
      · cases h
      · split at h
        · exact ih h
        · split at h
          next =>
            split at h
            · cases h
            next end_ hend =>
              obtain ⟨rest', hrest, rfl⟩ := Option.map_eq_some_iff.mp h
              obtain ⟨horder, hhead⟩ := ih hrest
              have hlength : start ≤ end_ := by
                rw [UInt64.le_iff_toNat_le, checkedEnd_eq_some_iff.mp hend]
                omega
              have hword : (frameWord s line period start).end_ = end_ := frameEnd_eq hend
              refine ⟨?_, fun w hw => ?_⟩
              · -- the frame ends before the next one starts
                refine horder.cons fun w hw => ?_
                exact ⟨hlength.trans (hhead w hw), hword ▸ hhead w hw⟩
              · obtain rfl := Option.some.inj hw
                exact UInt64.not_lt.mp hfree
          · cases h

end Frames

/-! ## Safe decoding -/

/-- No operation overflows, and the words of each row are in order and do not overlap. -/
def DecodesSafely (s : UartSettings) (lanes : List (Option BitLane)) : Prop :=
  s.decodeChecked lanes = some (s.decode lanes) ∧ ∀ row ∈ s.decode lanes, InOrder row.words

/-- A line is decoded safely exactly when half a bit period fits behind every edge the search looks at,
and a whole frame behind every start bit. -/
theorem decodesSafely_iff (s : UartSettings) (lanes : List (Option BitLane)) :
    DecodesSafely s lanes ↔ ∀ line period, lanes[LINE]? = some (some line) →
      s.resolveBitPeriod line = some period →
      ∀ start ∈ searched s line period 0 (line.edgesTo s.start), Fits s line period start := by
  have hnil : ∀ row ∈ [({ name := "Data", words := [] } : DecodedLane)], InOrder row.words := by
    simp [InOrder]
  rw [DecodesSafely, UartSettings.decodeChecked, UartSettings.decode]
  rcases hline : lanes[LINE]? with _ | _ | line
  · exact iff_of_true ⟨rfl, hnil⟩ (by simp)
  · exact iff_of_true ⟨rfl, hnil⟩ (by simp)
  · cases hperiod : s.resolveBitPeriod line with
    | none =>
      refine iff_of_true ⟨by simp [hperiod], by simpa [hperiod] using hnil⟩ ?_
      rintro clock period heq hperiod'
      obtain rfl : line = clock := by simpa using heq
      simp [hperiod] at hperiod'
    | some period =>
      have hsearch := @decodeFramesChecked_eq_some_iff s line period 0 (line.edgesTo s.start)
        (decodeFrames s line period 0 (line.edgesTo s.start))
      simp only [and_true, UInt64.toNat_zero] at hsearch
      constructor
      · rintro ⟨hchecked, -⟩ line' period' heq hperiod'
        obtain rfl : line = line' := by simpa using heq
        obtain rfl : period = period' := Option.some.inj (hperiod.symm.trans hperiod')
        simp only [hperiod, Option.map_eq_some_iff] at hchecked
        obtain ⟨words, hwords, hrows⟩ := hchecked
        obtain rfl : words = _ := by simpa using hrows
        exact hsearch.mp hwords
      · intro hfits
        have hwords := hsearch.mpr (hfits line period rfl hperiod)
        simp only [hperiod, hwords, Option.map_some, List.forall_mem_singleton, true_and]
        exact (inOrder_of_decodeFramesChecked hwords).1

/-- A line that goes low once and stays there. -/
def oneEdge : BitLane := ⟨[(0, .one), (1, .zero)]⟩

/-- With the longest bit period that can be entered, the end of the frame overflows. -/
theorem not_decodesSafely_oneEdge :
    ¬ DecodesSafely { UartSettings.default with bitPeriod := some 0xFFFFFFFFFFFFFFFF } [some oneEdge] := by
  have hnone : UartSettings.decodeChecked
      { UartSettings.default with bitPeriod := some 0xFFFFFFFFFFFFFFFF } [some oneEdge] = none := by
    decide
  rintro ⟨hchecked, -⟩
  rw [hnone] at hchecked
  cases hchecked

end Decoders.Uart
