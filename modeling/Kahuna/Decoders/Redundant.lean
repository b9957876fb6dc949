import Kahuna.Decoders.I2c.Thinning
import Kahuna.Decoders.Settings
import Kahuna.Decoders.Uart.Decode

/-!
# Redundant changes

A recording may hold a change to the value that the signal has already. Reading values and edges does
not notice it; measuring the time between changes, and asking whether a line moves at all, does.

- `Insensitive`: a redundant change in any lane leaves the decoded rows as they are.
- `words_insertChange_iff`: a UART decoder that measures its bit period is insensitive only when the
  period is a single tick, or nothing is sent.
- `decodeBus_insertChange_iff`: an I2C decoder drops a sample when SDA repeats its value inside the
  high phase.
- `insensitive_iff`: the exact condition for each protocol.
-/

namespace Decoders

namespace BitLane

/-- The lane with one more change, behind those at or before its time. -/
def insertChange (lane : BitLane) (t : UInt64) (b : Bit) : BitLane :=
  ⟨lane.changes.takeWhile (fun c => c.1 ≤ t)
    ++ (t, b) :: lane.changes.dropWhile (fun c => c.1 ≤ t)⟩

variable {lane : BitLane} {t : UInt64} {b : Bit}

theorem le_of_mem_takeWhile {c : UInt64 × Bit}
    (hc : c ∈ lane.changes.takeWhile fun c => c.1 ≤ t) : c.1 ≤ t := by
  simpa using List.mem_takeWhile_imp hc

/-- A redundant change leaves all values as they are. -/
theorem valueAt_insertChange (hinc : lane.Increasing) (hb : lane.valueAt t = some b) :
    (lane.insertChange t b).valueAt = lane.valueAt := by
  ext1 u
  rw [valueAt_eq] at hb ⊢
  rw [valueAt_eq, insertChange,
    Timeline.valueAt_insert (fun _ => le_of_mem_takeWhile) (Timeline.after_dropWhile hinc t) hb,
    List.takeWhile_append_dropWhile]

/-- A redundant change leaves all edges as they are. -/
theorem edgesTo_insertChange (hb : lane.valueAt t = some b) :
    (lane.insertChange t b).edgesTo = lane.edgesTo := by
  ext1 target
  rw [valueAt_eq] at hb
  rw [edgesTo_eq, edgesTo_eq, insertChange, Timeline.edgesTo_insert target hb,
    List.takeWhile_append_dropWhile]

theorem mem_insertChange {c : UInt64 × Bit} :
    c ∈ (lane.insertChange t b).changes ↔ c = (t, b) ∨ c ∈ lane.changes := by
  have hsplit := List.takeWhile_append_dropWhile (p := fun c => c.1 ≤ t) (l := lane.changes)
  conv_rhs => rw [← hsplit]
  simp only [insertChange, List.mem_append, List.mem_cons]
  tauto

/-- The changes stay in time order. -/
theorem pairwise_insertChange (hinc : lane.Increasing) (t : UInt64) (b : Bit) :
    (lane.insertChange t b).changes.Pairwise fun c d => c.1 ≤ d.1 := by
  have hafter := Timeline.after_dropWhile hinc t
  refine List.pairwise_append.2 ⟨?_, List.pairwise_cons.2 ⟨fun c hc => (hafter c hc).le, ?_⟩, ?_⟩
  · exact (List.Pairwise.sublist (List.takeWhile_sublist _) hinc).imp le_of_lt
  · exact (List.Pairwise.sublist (List.dropWhile_sublist _) hinc).imp le_of_lt
  · intro c hc d hd
    have hct := le_of_mem_takeWhile hc
    rcases List.mem_cons.1 hd with rfl | hd
    · exact hct
    · exact hct.trans (hafter d hd).le

end BitLane

/-- A redundant change in any lane leaves the decoded rows as they are. -/
def Insensitive (settings : DecoderSettings) (lanes : List (Option BitLane)) : Prop :=
  ∀ i lane t b, lanes[i]? = some (some lane) → lane.valueAt t = some b →
    settings.decode (lanes.set i (some (lane.insertChange t b))) = settings.decode lanes

/-! ## SPI -/

namespace Spi

variable {s : SpiSettings} {data data' : BitLane} {cs cs' : Option BitLane}

/-- The loop asks the data lane and chip select for values only. -/
theorem decodeOne_congr (hdata : data.valueAt = data'.valueAt)
    (hcs : cs.map BitLane.valueAt = cs'.map BitLane.valueAt) :
    decodeOne s data cs = decodeOne s data' cs' := by
  have hselected : s.selectedAt cs = s.selectedAt cs' := by
    ext1 t
    cases cs with
    | none =>
      cases cs' with
      | none => rfl
      | some cs' => simp at hcs
    | some cs =>
      cases cs' with
      | none => simp at hcs
      | some cs' =>
        have hvalue : cs.valueAt = cs'.valueAt := by simpa using hcs
        simp only [SpiSettings.selectedAt, SpiSettings.isSelected, Option.all_some, hvalue]
  have hstep : step s data cs = step s data' cs' := by
    ext1 wordSize
    ext1 st
    ext1 t
    rw [step, step, hselected, hdata]
  ext1 sampleTimes
  ext1 wordSize
  rw [decodeOne, decodeOne, hstep]

/-- The rows depend on the values and the edges of the lanes only. -/
theorem SpiSettings.decode_congr (s : SpiSettings) {lanes lanes' : List (Option BitLane)}
    (hvalue : ∀ i : ℕ, lanes[i]?.join.map BitLane.valueAt = lanes'[i]?.join.map BitLane.valueAt)
    (hedges : ∀ i : ℕ, lanes[i]?.join.map BitLane.edgesTo = lanes'[i]?.join.map BitLane.edgesTo) :
    s.decode lanes = s.decode lanes' := by
  have hwords : ∀ (i : ℕ) (sampleTimes : List UInt64),
      (lanes[i]?.join.elim [] fun data =>
        decodeOne s data lanes[CS]?.join sampleTimes s.clampedWordSize) =
      lanes'[i]?.join.elim [] fun data =>
        decodeOne s data lanes'[CS]?.join sampleTimes s.clampedWordSize := by
    intro i sampleTimes
    have hi := hvalue i
    cases h : lanes[i]?.join with
    | none =>
      rw [h, Option.map_none, eq_comm, Option.map_eq_none_iff] at hi
      rw [hi]
      rfl
    | some data =>
      rw [h, Option.map_some, eq_comm, Option.map_eq_some_iff] at hi
      obtain ⟨data', h', hdata⟩ := hi
      rw [h']
      show decodeOne s data _ _ _ = decodeOne s data' _ _ _
      rw [decodeOne_congr hdata.symm (hvalue CS)]
  rw [s.decode_eq, s.decode_eq]
  have hclock := hedges SCLK
  cases h : lanes[SCLK]?.join with
  | none =>
    rw [h, Option.map_none, eq_comm, Option.map_eq_none_iff] at hclock
    rw [hclock]
    rfl
  | some sclk =>
    rw [h, Option.map_some, eq_comm, Option.map_eq_some_iff] at hclock
    obtain ⟨sclk', h', hsclk⟩ := hclock
    rw [h']
    simp only [Option.elim_some, hwords, hsclk]

/-- An SPI decoder is insensitive. -/
theorem insensitive (s : SpiSettings) {lanes : List (Option BitLane)}
    (hinc : ∀ lane, some lane ∈ lanes → lane.Increasing) : Insensitive (.spi s) lanes := by
  intro i lane t b hlane hb
  have hvalue := BitLane.valueAt_insertChange (hinc lane (List.mem_of_getElem? hlane)) hb
  have hedges := BitLane.edgesTo_insertChange hb
  have hget : ∀ j : ℕ, (lanes.set i (some (lane.insertChange t b)))[j]?.join =
      if i = j then some (lane.insertChange t b) else lanes[j]?.join := by
    intro j
    rw [List.getElem?_set]
    split
    · rw [if_pos (List.getElem?_eq_some_iff.1 hlane).1]
      rfl
    · rfl
  refine s.decode_congr (fun j => ?_) fun j => ?_
  · rw [hget]
    split
    next hij => rw [← hij, hlane, Option.map_some, hvalue]; rfl
    next => rfl
  · rw [hget]
    split
    next hij => rw [← hij, hlane, Option.map_some, hedges]; rfl
    next => rfl

end Spi

/-! ## UART -/

namespace Uart

variable {s : UartSettings} {line line' : BitLane} {period start : UInt64}

/-- The word of a frame is read from values only. -/
theorem frameWord_congr (hvalue : line.valueAt = line'.valueAt) :
    frameWord s line period start = frameWord s line' period start := by
  have hbit : readBit s line start period = readBit s line' start period := by
    ext1 acc
    ext1 i
    rw [readBit, readBit, hvalue]
  have hbits : readBits s line start period = readBits s line' start period := by
    rw [readBits, readBits, hbit]
  have herror : ∀ bits, frameError s line start period bits = frameError s line' start period bits := by
    intro bits
    rw [frameError, frameError, hvalue]
  rw [frameWord, frameWord, hbits, herror]

theorem frameStarts_congr (hvalue : line.valueAt = line'.valueAt) {nextFree : UInt64}
    {edges : List UInt64} :
    frameStarts s line period nextFree edges = frameStarts s line' period nextFree edges := by
  induction edges generalizing nextFree with
  | nil => rfl
  | cons edge rest ih => simp only [frameStarts, hvalue, ih]

/-- The words of a line at a given bit period. -/
def wordsAt (s : UartSettings) (line : BitLane) (period : UInt64) : List DecodedWord :=
  (frameStarts s line period 0 (line.edgesTo s.start)).map (frameWord s line period)

theorem words_eq (s : UartSettings) (line : BitLane) :
    s.words line = ((s.resolveBitPeriod line).map (wordsAt s line)).getD [] := by
  unfold UartSettings.words
  cases s.resolveBitPeriod line <;> rfl

/-- A redundant change can change the measured bit period, and nothing else. -/
theorem words_insertChange {t : UInt64} {b : Bit} (hinc : line.Increasing)
    (hb : line.valueAt t = some b) :
    s.words (line.insertChange t b)
      = ((s.resolveBitPeriod (line.insertChange t b)).map (wordsAt s line)).getD [] := by
  have hvalue := BitLane.valueAt_insertChange hinc hb
  have hwords : wordsAt s (line.insertChange t b) = wordsAt s line := by
    ext1 period
    rw [wordsAt, wordsAt, BitLane.edgesTo_insertChange hb, frameStarts_congr hvalue]
    exact List.map_congr_left fun _ _ => frameWord_congr hvalue
  rw [words_eq, hwords]

/-! ### Measured periods -/

/-- The times between neighbouring changes, where time passes. -/
def gaps (times : List UInt64) : List UInt64 :=
  (List.zipWith (fun a b => if a < b then b - a else 0) times times.tail).filter (0 < ·)

theorem resolveBitPeriod_measured (hmeasured : s.bitPeriod = none) :
    s.resolveBitPeriod line = (gaps (line.changes.map Prod.fst)).min? := by
  rw [UartSettings.resolveBitPeriod, hmeasured]
  rfl

theorem sub_pos_of_lt {a b : UInt64} (h : a < b) : 0 < b - a := by
  have hsub := UInt64.toNat_sub_of_le b a h.le
  rw [UInt64.lt_iff_toNat_lt] at h ⊢
  rw [hsub]
  exact Nat.sub_pos_of_lt h

theorem gaps_cons_cons (a b : UInt64) (rest : List UInt64) :
    gaps (a :: b :: rest) = (if a < b then [b - a] else []) ++ gaps (b :: rest) := by
  rw [gaps, gaps, List.tail_cons, List.zipWith_cons_cons]
  by_cases hab : a < b
  · rw [if_pos hab, if_pos hab, List.filter_cons_of_pos (by simpa using sub_pos_of_lt hab)]
    rfl
  · rw [if_neg hab, if_neg hab, List.filter_cons_of_neg (by simp)]
    rfl

/-- The gaps are the times between neighbouring changes, where time passes. -/
theorem mem_gaps {times : List UInt64} {g : UInt64} :
    g ∈ gaps times ↔
      ∃ before a b after, times = before ++ a :: b :: after ∧ a < b ∧ g = b - a := by
  induction times with
  | nil => simp [gaps]
  | cons x rest ih =>
    cases rest with
    | nil =>
      refine ⟨fun hg => by simp [gaps] at hg, ?_⟩
      rintro ⟨before, a, b, after, htimes, -⟩
      have hlength := congrArg List.length htimes
      simp only [List.length_append, List.length_cons, List.length_nil] at hlength
      omega
    | cons y rest =>
      rw [gaps_cons_cons, List.mem_append, ih]
      constructor
      · rintro (hg | ⟨before, a, b, after, hrest, hab, hg⟩)
        · split at hg
          next hxy => exact ⟨[], x, y, rest, rfl, hxy, List.mem_singleton.1 hg⟩
          next => cases hg
        · exact ⟨x :: before, a, b, after, by rw [hrest]; rfl, hab, hg⟩
      · rintro ⟨before, a, b, after, htimes, hab, hg⟩
        cases before with
        | nil =>
          simp only [List.nil_append, List.cons.injEq] at htimes
          obtain ⟨rfl, rfl, -⟩ := htimes
          exact .inl (by rw [if_pos hab, hg]; exact List.mem_singleton_self _)
        | cons z before =>
          obtain ⟨-, htimes⟩ := List.cons.inj htimes
          exact .inr ⟨before, a, b, after, htimes, hab, hg⟩

/-- The narrowest gap. -/
theorem min_gaps_eq {times : List UInt64} {g : UInt64} (hg : g ∈ gaps times)
    (hleast : ∀ g' ∈ gaps times, g ≤ g') : (gaps times).min? = some g :=
  List.min?_eq_some_iff.2 ⟨hg, hleast⟩

theorem one_le_of_mem_gaps {times : List UInt64} {g : UInt64} (hg : g ∈ gaps times) : 1 ≤ g := by
  obtain ⟨-, a, b, -, -, hab, rfl⟩ := mem_gaps.1 hg
  have hpos := sub_pos_of_lt hab
  rw [UInt64.lt_iff_toNat_lt] at hpos
  rw [UInt64.le_iff_toNat_le]
  exact hpos

/-- One more time among the times of the changes. -/
def insertTime (t : UInt64) (times : List UInt64) : List UInt64 :=
  times.takeWhile (fun u => u ≤ t) ++ t :: times.dropWhile (fun u => u ≤ t)

theorem map_fst_insertChange (t : UInt64) (b : Bit) :
    (line.insertChange t b).changes.map Prod.fst = insertTime t (line.changes.map Prod.fst) := by
  rw [BitLane.insertChange, insertTime, List.map_append, List.takeWhile_map, List.dropWhile_map]
  rfl

theorem insertTime_cons (t u : UInt64) (times : List UInt64) :
    insertTime t (u :: times) = if u ≤ t then u :: insertTime t times else t :: u :: times := by
  rw [insertTime, insertTime, List.takeWhile_cons, List.dropWhile_cons]
  by_cases hut : u ≤ t <;> simp [hut]

/-- A gap of a single tick stays when it gets a redundant change. -/
theorem one_mem_gaps_insertTime {times : List UInt64} (t : UInt64) (h : 1 ∈ gaps times) :
    1 ∈ gaps (insertTime t times) := by
  induction times with
  | nil => simp [gaps] at h
  | cons x rest ih =>
    cases rest with
    | nil => simp [gaps] at h
    | cons y rest =>
      rw [insertTime_cons]
      by_cases hxt : x ≤ t
      case neg =>
        rw [if_neg hxt, gaps_cons_cons]
        exact List.mem_append_right _ h
      rw [gaps_cons_cons, List.mem_append] at h
      rw [if_pos hxt]
      by_cases hyt : y ≤ t
      · rw [insertTime_cons, if_pos hyt] at ih ⊢
        rw [gaps_cons_cons]
        exact h.elim (List.mem_append_left _) fun h => List.mem_append_right _ (ih h)
      · -- the new change is between the two, which are one tick apart or not
        rw [insertTime_cons, if_neg hyt, gaps_cons_cons, gaps_cons_cons]
        refine List.mem_append_right _ ?_
        refine h.elim (fun h => List.mem_append_left _ ?_) (List.mem_append_right _)
        split at h
        next hxy =>
          have hone : (1 : UInt64) = y - x := List.mem_singleton.1 h
          have hsub := UInt64.toNat_sub_of_le y x hxy.le
          have htx : t = x := by
            rw [← hone] at hsub
            rw [UInt64.le_iff_toNat_le] at hxt hyt
            rw [UInt64.lt_iff_toNat_lt] at hxy
            have hnat : (1 : UInt64).toNat = 1 := rfl
            exact UInt64.toNat_inj.1 (by omega)
          rw [htx, if_pos hxy, hone]
          exact List.mem_singleton_self _
        next => cases h

/-- A frame has from 3 to 13 bits. -/
theorem frameBits_bounds (s : UartSettings) : 3 ≤ s.frameBits ∧ s.frameBits ≤ 13 := by
  rw [UartSettings.frameBits, UartSettings.clampedDataBits, UartSettings.clampedStopBits,
    UartSettings.parityBits]
  split <;> omega

/-- Words of two bit periods that are the same end at the same times. -/
theorem frameBits_mul_eq {p q : UInt64} (hne : wordsAt s line p ≠ [])
    (heq : wordsAt s line p = wordsAt s line q) :
    s.frameBits * p.toNat % 2 ^ 64 = s.frameBits * q.toNat % 2 ^ 64 := by
  have hend : ∀ period, ∀ w ∈ wordsAt s line period, w.end_ = frameEnd s period w.start := by
    intro period w hw
    obtain ⟨start, -, rfl⟩ := List.mem_map.1 hw
    rfl
  obtain ⟨w, hw⟩ := List.exists_mem_of_ne_nil _ hne
  have hends := (hend p w hw).symm.trans (hend q w (heq ▸ hw))
  rw [frameEnd, frameEnd, add_right_inj] at hends
  have hbits := frameBits_bounds s
  have hnat : (UInt64.ofNat s.frameBits).toNat = s.frameBits :=
    UInt64.toNat_ofNat_of_lt (by simp [UInt64.size]; omega)
  have hmul := congrArg UInt64.toNat hends
  rwa [UInt64.toNat_mul, UInt64.toNat_mul, hnat] at hmul

/-- At a period of one tick the first start edge makes a frame. -/
theorem wordsAt_one_ne_nil (hinc : line.Increasing) (hedges : line.edgesTo s.start ≠ []) :
    wordsAt s line 1 ≠ [] := by
  obtain ⟨e, rest, hcons⟩ := List.exists_cons_of_ne_nil hedges
  have he : line.valueAt (centre e 1 0) = some s.start := by
    have hmem : e ∈ line.edgesTo s.start := by rw [hcons]; exact List.mem_cons_self
    have hcentre : centre e 1 0 = e := by
      rw [centre, show (1 / 2 : UInt64) = 0 from rfl, show UInt64.ofNat 0 = 0 from rfl, zero_mul,
        add_zero, add_zero]
    rw [BitLane.edgesTo_eq] at hmem
    rw [hcentre, BitLane.valueAt_eq]
    exact Timeline.valueAt_of_mem hinc (Timeline.exists_mem_of_mem_edgesFrom _ hmem)
  have hfirst : ¬ e < 0 := by
    rw [UInt64.lt_iff_toNat_lt]
    exact Nat.not_lt_zero _
  rw [wordsAt, hcons, frameStarts, if_neg hfirst, if_neg (not_not.2 he)]
  simp

/-- A redundant change between the first two changes, `k` ticks behind the first. -/
theorem gaps_insert_second {t₀ t₁ k : UInt64} {b₀ b₁ : Bit} {rest : List (UInt64 × Bit)}
    (hinc : (⟨(t₀, b₀) :: (t₁, b₁) :: rest⟩ : BitLane).Increasing) (hpos : 0 < k.toNat)
    (hk : t₀.toNat + k.toNat < t₁.toNat) :
    (⟨(t₀, b₀) :: (t₁, b₁) :: rest⟩ : BitLane).valueAt (t₀ + k) = some b₀ ∧
      gaps (insertTime (t₀ + k) (t₀ :: t₁ :: rest.map Prod.fst))
        = k :: (t₁ - (t₀ + k)) :: gaps (t₁ :: rest.map Prod.fst) := by
  have hadd : (t₀ + k).toNat = t₀.toNat + k.toNat := by
    rw [UInt64.toNat_add, Nat.mod_eq_of_lt (hk.trans t₁.toNat_lt)]
  have hle : t₀ ≤ t₀ + k := by rw [UInt64.le_iff_toNat_le, hadd]; omega
  have hlt : t₀ < t₀ + k := by rw [UInt64.lt_iff_toNat_lt, hadd]; omega
  have hlt₁ : t₀ + k < t₁ := by rw [UInt64.lt_iff_toNat_lt, hadd]; omega
  constructor
  · rw [BitLane.valueAt_eq]
    refine Timeline.valueAt_of_last hinc List.mem_cons_self hle fun c hc hct => ?_
    rcases List.mem_cons.1 hc with rfl | hc
    · exact le_rfl
    · -- the other changes are behind
      have hafter : t₁ ≤ c.1 := by
        rcases List.mem_cons.1 hc with rfl | hc
        · exact le_rfl
        · exact ((List.pairwise_cons.1 (List.pairwise_cons.1 hinc).2).1 c hc).le
      exact absurd (hafter.trans hct) (not_le.2 hlt₁)
  · have hk' : t₀ + k - t₀ = k := add_sub_cancel_left t₀ k
    rw [insertTime_cons, if_pos hle, insertTime_cons, if_neg (not_le.2 hlt₁), gaps_cons_cons,
      gaps_cons_cons, if_pos hlt, if_pos hlt₁, hk']
    rfl

/-- A UART decoder that measures a bit period of several ticks is not insensitive: a redundant change
one tick behind the first change, or one two ticks behind it, changes where the words end. -/
theorem resolveBitPeriod_eq_one {t₀ t₁ : UInt64} {b₀ b₁ : Bit} {rest : List (UInt64 × Bit)}
    (hline : line = ⟨(t₀, b₀) :: (t₁, b₁) :: rest⟩) (hinc : line.Increasing)
    (hmeasured : s.bitPeriod = none) (hedges : line.edgesTo s.start ≠ [])
    (h : ∀ t b, line.valueAt t = some b → s.words (line.insertChange t b) = s.words line) :
    s.resolveBitPeriod line = some 1 := by
  have hlt : t₀ < t₁ := by
    rw [hline] at hinc
    exact (List.pairwise_cons.1 hinc).1 _ List.mem_cons_self
  have hwidth := UInt64.toNat_sub_of_le t₁ t₀ hlt.le
  have hgaps : gaps (line.changes.map Prod.fst) = (t₁ - t₀) :: gaps (t₁ :: rest.map Prod.fst) := by
    rw [hline]
    show gaps (t₀ :: t₁ :: rest.map Prod.fst) = _
    rw [gaps_cons_cons, if_pos hlt]
    rfl
  have hresolve := @resolveBitPeriod_measured s line hmeasured
  obtain ⟨p, hp⟩ : ∃ p, (gaps (line.changes.map Prod.fst)).min? = some p := by
    rw [← Option.ne_none_iff_exists', ne_eq, List.min?_eq_none_iff, hgaps]
    simp
  obtain ⟨hmem, hleast⟩ := List.min?_eq_some_iff.1 hp
  rw [hresolve, hp, Option.some_inj]
  by_contra hne
  have hone : (1 : UInt64).toNat = 1 := rfl
  have htwo : (2 : UInt64).toNat = 2 := rfl
  have hp2 : 2 ≤ p.toNat := by
    have hpos := UInt64.le_iff_toNat_le.1 (one_le_of_mem_gaps hmem)
    have hne' : p.toNat ≠ 1 := fun heq => hne (UInt64.toNat_inj.1 heq)
    omega
  rw [hgaps, List.forall_mem_cons] at hleast
  have hpwidth := UInt64.le_iff_toNat_le.1 hleast.1
  -- with a redundant change `k` ticks behind the first, the period is `k`
  have hinsert : ∀ k : UInt64, 0 < k.toNat → 2 * k.toNat ≤ p.toNat →
      wordsAt s line k = wordsAt s line p := by
    intro k hpos hk
    have hinc' := hinc
    rw [hline] at hinc'
    have hkt : t₀.toNat + k.toNat < t₁.toNat := by
      rw [UInt64.lt_iff_toNat_lt] at hlt
      omega
    obtain ⟨hvalue, hgaps'⟩ := gaps_insert_second hinc' hpos hkt
    rw [← hline] at hvalue
    have hperiod : s.resolveBitPeriod (line.insertChange (t₀ + k) b₀) = some k := by
      rw [resolveBitPeriod_measured hmeasured, map_fst_insertChange, hline]
      show (gaps (insertTime (t₀ + k) (t₀ :: t₁ :: rest.map Prod.fst))).min? = some k
      refine min_gaps_eq (by rw [hgaps']; exact List.mem_cons_self) ?_
      rw [hgaps', List.forall_mem_cons, List.forall_mem_cons]
      have hadd : (t₀ + k).toNat = t₀.toNat + k.toNat := by
        rw [UInt64.toNat_add, Nat.mod_eq_of_lt (hkt.trans t₁.toNat_lt)]
      refine ⟨le_rfl, ?_, fun g hg => ?_⟩
      · rw [UInt64.le_iff_toNat_le, UInt64.toNat_sub_of_le _ _ (by rw [UInt64.le_iff_toNat_le]; omega)]
        omega
      · have hg' := UInt64.le_iff_toNat_le.1 (hleast.2 g hg)
        rw [UInt64.le_iff_toNat_le]
        omega
    have hwords := h _ _ hvalue
    rw [words_insertChange hinc hvalue, hperiod, words_eq, hresolve, hp] at hwords
    exact hwords
  have hfirst := hinsert 1 (by decide) hp2
  have hbits := frameBits_bounds s
  have hmod := frameBits_mul_eq (wordsAt_one_ne_nil hinc hedges) hfirst
  rw [hone, Nat.mul_one] at hmod
  -- the two periods agree only when the larger one wraps around
  have hlarge : 2 ^ 64 ≤ 13 * p.toNat := by
    by_contra hsmall
    have hle := Nat.mul_le_mul_right p.toNat hbits.2
    have hlt' : s.frameBits * 1 < s.frameBits * p.toNat :=
      Nat.mul_lt_mul_of_pos_left (by omega) (by omega)
    rw [Nat.mod_eq_of_lt (by omega), Nat.mod_eq_of_lt (by omega)] at hmod
    omega
  have hsecond := hinsert 2 (by decide) (by omega)
  have hmod' := frameBits_mul_eq (wordsAt_one_ne_nil hinc hedges) (hfirst.trans hsecond.symm)
  rw [hone, htwo, Nat.mod_eq_of_lt (by omega), Nat.mod_eq_of_lt (by omega)] at hmod'
  omega

/-- A UART decoder is insensitive exactly when its bit period is set, or measured as a single tick,
or no start edge is on the line. -/
theorem words_insertChange_iff (s : UartSettings) (hinc : line.Increasing) :
    (∀ t b, line.valueAt t = some b → s.words (line.insertChange t b) = s.words line) ↔
      s.bitPeriod ≠ none ∨ line.edgesTo s.start = [] ∨ s.resolveBitPeriod line = some 1 := by
  by_cases hset : s.bitPeriod = none
  case neg =>
    refine ⟨fun _ => .inl hset, fun _ t b hb => ?_⟩
    -- a period that is set does not depend on the line
    obtain ⟨p, hp⟩ := Option.ne_none_iff_exists'.1 hset
    have hresolve : s.resolveBitPeriod (line.insertChange t b) = s.resolveBitPeriod line := by
      rw [UartSettings.resolveBitPeriod, UartSettings.resolveBitPeriod, hp]
    rw [words_insertChange hinc hb, hresolve, words_eq]
  constructor
  · intro h
    refine .inr (or_iff_not_imp_left.2 fun hedges => ?_)
    -- an edge needs two changes
    rcases hline : line with ⟨_ | ⟨⟨t₀, b₀⟩, _ | ⟨⟨t₁, b₁⟩, rest⟩⟩⟩
    · rw [hline] at hedges
      exact absurd rfl hedges
    · rw [hline] at hedges
      exact absurd (by simp [BitLane.edgesTo, BitLane.edgesTo.go]) hedges
    · rw [← hline]
      exact resolveBitPeriod_eq_one hline hinc hset hedges h
  · rintro (hset' | hnone | hone) t b hb
    · exact absurd hset hset'
    · have hempty : ∀ period, wordsAt s line period = [] := by
        intro period
        rw [wordsAt, hnone]
        rfl
      rw [words_insertChange hinc hb, words_eq]
      cases s.resolveBitPeriod (line.insertChange t b) <;> cases s.resolveBitPeriod line <;>
        simp [hempty]
    · have hmem : 1 ∈ gaps (line.changes.map Prod.fst) := by
        rw [resolveBitPeriod_measured hset] at hone
        exact (List.min?_eq_some_iff.1 hone).1
      have hresolve : s.resolveBitPeriod (line.insertChange t b) = some 1 := by
        rw [resolveBitPeriod_measured hset, map_fst_insertChange]
        exact min_gaps_eq (one_mem_gaps_insertTime t hmem) fun _ => one_le_of_mem_gaps
      rw [words_insertChange hinc hb, hresolve, words_eq, hone]

end Uart

/-! ## I2C -/

namespace I2c

section Stable

variable {α : Type*} {r : α → α → Prop} [DecidableRel r]

theorem orderedInsert_of_forall {a : α} {xs : List α} (h : ∀ b ∈ xs, r a b) :
    xs.orderedInsert r a = a :: xs := by
  cases xs with
  | nil => rfl
  | cons b xs => exact List.orderedInsert_cons_of_le r xs (h b List.mem_cons_self)

theorem filter_orderedInsert [IsTrans α r] (p : α → Bool) {a : α} (ha : p a = true) {xs : List α}
    (hsorted : xs.Pairwise r) :
    (xs.orderedInsert r a).filter p = (xs.filter p).orderedInsert r a := by
  induction xs with
  | nil => simp [ha]
  | cons b xs ih =>
    obtain ⟨hb, hxs⟩ := List.pairwise_cons.1 hsorted
    rw [List.orderedInsert_cons]
    by_cases hab : r a b
    · -- all members that are left are behind
      have hall : ∀ c ∈ (b :: xs).filter p, r a c := by
        intro c hc
        rcases List.mem_cons.1 (List.mem_filter.1 hc).1 with rfl | hc
        · exact hab
        · exact IsTrans.trans _ _ _ hab (hb c hc)
      rw [if_pos hab, List.filter_cons_of_pos ha, orderedInsert_of_forall hall]
    · rw [if_neg hab]
      by_cases hpb : p b = true
      · rw [List.filter_cons_of_pos hpb, List.filter_cons_of_pos hpb, List.orderedInsert_cons,
          if_neg hab, ih hxs]
      · rw [List.filter_cons_of_neg hpb, List.filter_cons_of_neg hpb, ih hxs]

theorem filter_orderedInsert_of_neg (p : α → Bool) {a : α} (ha : ¬ p a = true) (xs : List α) :
    (xs.orderedInsert r a).filter p = xs.filter p := by
  induction xs with
  | nil => simp [ha]
  | cons b xs ih =>
    rw [List.orderedInsert_cons]
    split
    · rw [List.filter_cons_of_neg ha]
    · rw [List.filter_cons, List.filter_cons, ih]

/-- Insertion sort is stable, so what is left of a list is sorted as it was in the list. -/
theorem filter_insertionSort [Std.Total r] [IsTrans α r] (p : α → Bool) (xs : List α) :
    (xs.insertionSort r).filter p = (xs.filter p).insertionSort r := by
  induction xs with
  | nil => rfl
  | cons a xs ih =>
    rw [List.insertionSort_cons]
    by_cases ha : p a = true
    · rw [filter_orderedInsert p ha (List.pairwise_insertionSort r xs), ih,
        List.filter_cons_of_pos ha, List.insertionSort_cons]
    · rw [filter_orderedInsert_of_neg p ha, ih, List.filter_cons_of_neg ha]

end Stable

variable {s : I2cSettings} {scl sda : BitLane} {t : UInt64} {b : Bit}

/-! ### The events of a bus -/

theorem startStops_append (scl : BitLane) (prev : Option Bit) (xs ys : List (UInt64 × Bit)) :
    startStops scl prev (xs ++ ys)
      = startStops scl prev xs ++ startStops scl (Timeline.lastValue prev xs) ys := by
  induction xs generalizing prev with
  | nil => rfl
  | cons x xs ih =>
    obtain ⟨u, v⟩ := x
    simp only [List.cons_append, startStops, ih, Timeline.lastValue_cons, List.append_assoc]

/-- A redundant change of SDA is neither a START nor a STOP, and hides none. -/
theorem startStops_insertChange (hb : sda.valueAt t = some b) :
    startStops scl none (sda.insertChange t b).changes = startStops scl none sda.changes := by
  rw [BitLane.valueAt_eq] at hb
  have hlast : Timeline.lastValue none (sda.changes.takeWhile fun c => c.1 ≤ t) = some b := hb
  have hsplit := List.takeWhile_append_dropWhile (p := fun c => c.1 ≤ t) (l := sda.changes)
  conv_rhs => rw [← hsplit]
  rw [BitLane.insertChange, startStops_append, startStops_append, hlast]
  simp [startStops]

theorem isSample_of_mem_startStops {prev : Option Bit} {changes : List (UInt64 × Bit)}
    {e : UInt64 × Event} (he : e ∈ startStops scl prev changes) : e.2.isSample = false := by
  induction changes generalizing prev with
  | nil => simp [startStops] at he
  | cons c rest ih =>
    obtain ⟨u, v⟩ := c
    simp only [startStops, List.mem_append] at he
    rcases he with he | he
    · split at he
      · cases v with
        | zero => rw [List.mem_singleton.1 he]; rfl
        | one => rw [List.mem_singleton.1 he]; rfl
        | invalid => cases he
      · cases he
    · exact ih he

/-- SDA moves in a high phase when one of its changes lies inside it. -/
theorem sdaMoves_iff (hsorted : sda.changes.Pairwise fun c d => c.1 ≤ d.1) {r fall : UInt64} :
    sdaMoves sda r fall = true ↔ ∃ c ∈ sda.changes, r < c.1 ∧ c.1 < fall := by
  have hsplit := List.takeWhile_append_dropWhile (p := fun c => c.1 ≤ r) (l := sda.changes)
  have hnext : sda.changes[partitionPoint (fun c => c.1 ≤ r) sda.changes]?
      = (sda.changes.dropWhile fun c => c.1 ≤ r).head? := by
    have hcut := congrArg (fun changes : List (UInt64 × Bit) =>
      changes[(sda.changes.takeWhile fun c => c.1 ≤ r).length]?) hsplit
    rw [partitionPoint, ← hcut, List.getElem?_append_right le_rfl, Nat.sub_self,
      List.head?_eq_getElem?]
  rw [sdaMoves, hnext]
  cases hdrop : sda.changes.dropWhile (fun c => c.1 ≤ r) with
  | nil =>
    rw [hdrop, List.append_nil] at hsplit
    simp only [List.head?_nil, Option.any_none, Bool.false_eq_true, false_iff, not_exists, not_and]
    intro c hc hrc
    rw [← hsplit] at hc
    exact absurd hrc (not_lt.2 (BitLane.le_of_mem_takeWhile hc))
  | cons d rest =>
    have hd : r < d.1 := by
      have hnot := List.head_dropWhile_not (fun c : UInt64 × Bit => decide (c.1 ≤ r))
        (l := sda.changes) (by simp [hdrop])
      simpa [hdrop] using hnot
    have hmem : d ∈ sda.changes := by
      rw [← hsplit, hdrop]
      simp
    simp only [List.head?_cons, Option.any_some, decide_eq_true_eq]
    constructor
    · exact fun hfall => ⟨d, hmem, hd, hfall⟩
    · rintro ⟨c, hc, hrc, hfall⟩
      -- the first change of the phase comes no later
      rw [← hsplit, hdrop] at hc hsorted
      rcases List.mem_append.1 hc with hc | hc
      · exact absurd hrc (not_lt.2 (BitLane.le_of_mem_takeWhile hc))
      rcases List.mem_cons.1 hc with rfl | hc
      · exact hfall
      · have hle := (List.pairwise_cons.1 (List.pairwise_append.1 hsorted).2.1).1 c hc
        exact hle.trans_lt hfall

/-- The samples whose high phase a time lies strictly inside of. -/
def highAt (scl : BitLane) (t r : UInt64) : Bool :=
  r < t && t < nextFall (scl.edgesTo .zero) r

/-- A redundant change of SDA drops the samples of the high phase that it lies in. -/
theorem samples_insertChange (hinc : sda.Increasing) (hb : sda.valueAt t = some b) :
    samples scl (sda.insertChange t b) =
      (samples scl sda).filter fun e => !highAt scl t e.1 := by
  have hmoves : ∀ r fall, sdaMoves (sda.insertChange t b) r fall
      = (sdaMoves sda r fall || (decide (r < t) && decide (t < fall))) := by
    intro r fall
    rw [Bool.eq_iff_iff, sdaMoves_iff (BitLane.pairwise_insertChange hinc t b), Bool.or_eq_true,
      sdaMoves_iff (hinc.imp le_of_lt)]
    simp only [BitLane.mem_insertChange, Bool.and_eq_true, decide_eq_true_eq]
    constructor
    · rintro ⟨c, rfl | hc, hrc, hfall⟩
      · exact .inr ⟨hrc, hfall⟩
      · exact .inl ⟨c, hc, hrc, hfall⟩
    · rintro (⟨c, hc, hrc, hfall⟩ | ⟨hrt, hfall⟩)
      · exact ⟨c, .inr hc, hrc, hfall⟩
      · exact ⟨(t, b), .inl rfl, hrt, hfall⟩
  rw [samples, samples, List.filter_filterMap, BitLane.valueAt_insertChange hinc hb]
  apply List.filterMap_congr
  intro r _
  rw [hmoves]
  show (if (sdaMoves sda r _ || highAt scl t r) = true then none else _) = _
  by_cases hmove : sdaMoves sda r (nextFall (scl.edgesTo .zero) r) = true
  · simp [hmove]
  · by_cases hhigh : highAt scl t r = true
    · simp [hmove, hhigh, Option.filter]
    · simp [hmove, hhigh, Option.filter]

theorem isSample_of_mem_samples {e : UInt64 × Event} (he : e ∈ samples scl sda) :
    e.2.isSample = true := by
  obtain ⟨r, -, hr⟩ := List.mem_filterMap.1 he
  split at hr
  · cases hr
  · obtain rfl := Option.some.inj hr
    rfl

/-- A redundant change of SDA drops samples, and changes nothing else about the events. -/
theorem busEvents_insertChange (hinc : sda.Increasing) (hb : sda.valueAt t = some b) :
    busEvents scl (sda.insertChange t b) = thin (highAt scl t) (busEvents scl sda) := by
  have hstarts : (startStops scl none sda.changes).filter
      (fun e => !(e.2.isSample && highAt scl t e.1)) = startStops scl none sda.changes := by
    rw [List.filter_eq_self]
    intro e he
    rw [isSample_of_mem_startStops he]
    rfl
  have hsamples : (samples scl sda).filter (fun e => !(e.2.isSample && highAt scl t e.1))
      = (samples scl sda).filter fun e => !highAt scl t e.1 := by
    apply List.filter_congr
    intro e he
    rw [isSample_of_mem_samples he, Bool.true_and]
  rw [busEvents, busEvents, collectEvents, collectEvents, startStops_insertChange hb,
    samples_insertChange hinc hb, thin, filter_insertionSort, List.filter_append, hstarts, hsamples]

/-- The samples are taken at rising edges, in their order. -/
theorem pairwise_samples {R : UInt64 → UInt64 → Prop} (hedges : (scl.edgesTo .one).Pairwise R) :
    (samples scl sda).Pairwise fun e e' => R e.1 e'.1 := by
  refine List.pairwise_filterMap.2 (hedges.imp fun {r r'} hrel e he e' he' => ?_)
  split at he
  · cases he
  split at he'
  · cases he'
  rw [← Option.some.inj he, ← Option.some.inj he']
  exact hrel

theorem pairwise_rises (hinc : scl.Increasing) : (scl.edgesTo .one).Pairwise (· < ·) := by
  rw [BitLane.edgesTo_eq]
  exact Timeline.pairwise_edgesFrom _ hinc

/-- Sorting keeps the order of the samples. -/
theorem filter_isSample_busEvents (hinc : scl.Increasing) :
    (busEvents scl sda).filter (fun e => e.2.isSample) = samples scl sda := by
  have hstarts : (startStops scl none sda.changes).filter (fun e => e.2.isSample) = [] := by
    rw [List.filter_eq_nil_iff]
    intro e he
    rw [isSample_of_mem_startStops he]
    exact Bool.false_ne_true
  have hsamples : (samples scl sda).filter (fun e => e.2.isSample) = samples scl sda :=
    List.filter_eq_self.2 fun e he => isSample_of_mem_samples he
  rw [busEvents, filter_insertionSort, collectEvents, List.filter_append, hstarts, hsamples]
  exact ((pairwise_samples (pairwise_rises hinc)).imp le_of_lt).insertionSort_eq

/-- The sampling edges are in strict time order. -/
theorem samplesAscend_busEvents (hinc : scl.Increasing) : SamplesAscend (busEvents scl sda) := by
  rw [SamplesAscend, ← List.pairwise_filter, filter_isSample_busEvents hinc]
  exact pairwise_samples (pairwise_rises hinc)

/-- A redundant change of SDA changes what is shown exactly when a sample whose high phase it lies in
is not forgotten. -/
theorem decodeBus_insertChange_iff (s : I2cSettings) (hscl : scl.Increasing) (hsda : sda.Increasing)
    (hb : sda.valueAt t = some b) :
    decodeBus s scl (sda.insertChange t b) = decodeBus s scl sda ↔
      AllForgotten (highAt scl t) (busEvents scl sda) := by
  rw [decodeBus, decodeBus, busEvents_insertChange hsda hb,
    decodeEvents_thin_iff s _ _ (samplesAscend_busEvents hscl)]

/-- A redundant change of SCL changes nothing: the clock is asked for values and edges only. -/
theorem decodeBus_insertChange_scl (s : I2cSettings) (hscl : scl.Increasing)
    (hb : scl.valueAt t = some b) :
    decodeBus s (scl.insertChange t b) sda = decodeBus s scl sda := by
  have hvalue := BitLane.valueAt_insertChange hscl hb
  have hedges := BitLane.edgesTo_insertChange hb
  have hstarts : startStops (scl.insertChange t b) = startStops scl := by
    ext1 prev
    ext1 changes
    induction changes generalizing prev with
    | nil => rfl
    | cons c rest ih =>
      simp only [startStops, hvalue, ih]
  have hsamples : samples (scl.insertChange t b) sda = samples scl sda := by
    unfold samples
    rw [hedges]
  rw [decodeBus, decodeBus, clockPeriod, clockPeriod, hedges, busEvents, busEvents, collectEvents,
    collectEvents, hstarts, hsamples]

/-- There is a time strictly inside the high phase of a sampling edge at which SDA has a value. -/
def HasRoom (scl sda : BitLane) (r : UInt64) : Prop :=
  ∃ t, r < t ∧ t < nextFall (scl.edgesTo .zero) r ∧ (sda.valueAt t).isSome

/-- Every sample whose high phase has room for a redundant change of SDA is forgotten. -/
def RoomForgotten (scl sda : BitLane) : Prop :=
  ∀ before r bit after, busEvents scl sda = before ++ (r, .sample bit) :: after → HasRoom scl sda r →
    Forgotten (framing.final .init (before.map Prod.snd)) (after.map Prod.snd)

theorem roomForgotten_iff :
    RoomForgotten scl sda ↔
      ∀ t b, sda.valueAt t = some b → AllForgotten (highAt scl t) (busEvents scl sda) := by
  constructor
  · intro h t b hb before r bit after hevents hhigh
    obtain ⟨hrt, hfall⟩ := (Bool.and_eq_true _ _).mp hhigh
    exact h before r bit after hevents
      ⟨t, of_decide_eq_true hrt, of_decide_eq_true hfall, by rw [hb]; rfl⟩
  · rintro h before r bit after hevents ⟨t, hrt, hfall, hvalue⟩
    obtain ⟨b, hb⟩ := Option.isSome_iff_exists.1 hvalue
    exact h t b hb before r bit after hevents (by simp [highAt, hrt, hfall])

end I2c

/-! ## All decoders -/

/-- What it takes that no redundant change matters: nothing for SPI; for I2C, that every sample with
room for a redundant change of SDA is forgotten; for UART, that the bit period is set or measured as
a single tick, or that no start edge is on the line. -/
def DecoderSettings.Tolerates (settings : DecoderSettings) (lanes : List (Option BitLane)) : Prop :=
  match settings with
  | .spi _ => True
  | .i2c _ => ∀ scl sda, lanes[I2c.SCL]? = some (some scl) → lanes[I2c.SDA]? = some (some sda) →
    I2c.RoomForgotten scl sda
  | .uart s => ∀ line, lanes[Uart.LINE]? = some (some line) →
    s.bitPeriod ≠ none ∨ line.edgesTo s.start = [] ∨ s.resolveBitPeriod line = some 1

variable {lanes : List (Option BitLane)}

/-- A UART decoder reads one lane. -/
theorem Uart.decode_insensitive_iff (s : Uart.UartSettings)
    (hinc : ∀ lane, some lane ∈ lanes → lane.Increasing) :
    Insensitive (.uart s) lanes ↔ (DecoderSettings.uart s).Tolerates lanes := by
  have hcongr : ∀ lanes' : List (Option BitLane), lanes'[Uart.LINE]? = lanes[Uart.LINE]? →
      s.decode lanes' = s.decode lanes := by
    intro lanes' heq
    rw [Uart.UartSettings.decode, Uart.UartSettings.decode, heq]
  have hline : ∀ (lanes : List (Option BitLane)) (line : BitLane),
      lanes[Uart.LINE]? = some (some line) →
        s.decode lanes = [{ name := "Data", words := s.words line }] := by
    intro lanes line hget
    rw [← s.decode_line, Uart.UartSettings.decode, Uart.UartSettings.decode, hget]
    rfl
  have hset : ∀ {line : BitLane} (t : UInt64) (b : Bit), lanes[Uart.LINE]? = some (some line) →
      (s.decode (lanes.set Uart.LINE (some (line.insertChange t b))) = s.decode lanes ↔
        s.words (line.insertChange t b) = s.words line) := by
    intro line t b hget
    have hlt := (List.getElem?_eq_some_iff.1 hget).1
    rw [hline _ _ (List.getElem?_set_self hlt), hline _ _ hget]
    simp
  constructor
  · intro h line hget
    refine (Uart.words_insertChange_iff s (hinc line (List.mem_of_getElem? hget))).1 fun t b hb => ?_
    exact (hset t b hget).1 (h _ line t b hget hb)
  · intro h i lane t b hget hb
    by_cases hi : i = Uart.LINE
    · subst hi
      have hwords := (Uart.words_insertChange_iff s (hinc lane (List.mem_of_getElem? hget))).2
        (h lane hget) t b hb
      exact (hset t b hget).2 hwords
    · exact hcongr _ (List.getElem?_set_ne hi)

/-- An I2C decoder reads two lanes. -/
theorem I2c.decode_insensitive_iff (s : I2c.I2cSettings)
    (hinc : ∀ lane, some lane ∈ lanes → lane.Increasing) :
    Insensitive (.i2c s) lanes ↔ (DecoderSettings.i2c s).Tolerates lanes := by
  have hcongr : ∀ lanes' : List (Option BitLane), lanes'[I2c.SCL]? = lanes[I2c.SCL]? →
      lanes'[I2c.SDA]? = lanes[I2c.SDA]? →
        (DecoderSettings.i2c s).decode lanes' = (DecoderSettings.i2c s).decode lanes := by
    intro lanes' hscl hsda
    show s.decode lanes' = s.decode lanes
    rw [I2c.I2cSettings.decode, I2c.I2cSettings.decode, hscl, hsda]
  have hbus : ∀ (lanes : List (Option BitLane)) (scl sda : BitLane),
      lanes[I2c.SCL]? = some (some scl) → lanes[I2c.SDA]? = some (some sda) →
        (DecoderSettings.i2c s).decode lanes
          = [{ name := "Bus", words := I2c.decodeBus s scl sda }] := by
    intro lanes scl sda hscl hsda
    show s.decode lanes = _
    rw [I2c.I2cSettings.decode, hscl, hsda]
  -- without both lanes there is an empty row
  have hempty : ∀ lanes : List (Option BitLane),
      (∀ scl sda, lanes[I2c.SCL]? = some (some scl) → lanes[I2c.SDA]? = some (some sda) → False) →
        (DecoderSettings.i2c s).decode lanes = [{ name := "Bus", words := [] }] := by
    intro lanes h
    show s.decode lanes = _
    unfold I2c.I2cSettings.decode
    split
    next scl sda hscl hsda => exact (h scl sda hscl hsda).elim
    next => rfl
  have hne : I2c.SDA ≠ I2c.SCL := by decide
  constructor
  · intro h scl sda hscl hsda
    have hinc' := hinc sda (List.mem_of_getElem? hsda)
    refine I2c.roomForgotten_iff.2 fun t b hb => ?_
    rw [← I2c.decodeBus_insertChange_iff s (hinc scl (List.mem_of_getElem? hscl)) hinc' hb]
    have hdecode := h I2c.SDA sda t b hsda hb
    have hlt := (List.getElem?_eq_some_iff.1 hsda).1
    rw [hbus _ scl _ ((List.getElem?_set_ne hne).trans hscl) (List.getElem?_set_self hlt),
      hbus _ _ _ hscl hsda] at hdecode
    simpa using hdecode
  · intro h i lane t b hget hb
    have hlt := (List.getElem?_eq_some_iff.1 hget).1
    have hlane := hinc lane (List.mem_of_getElem? hget)
    by_cases hi : i = I2c.SDA
    · subst hi
      have hother : (lanes.set I2c.SDA (some (lane.insertChange t b)))[I2c.SCL]? = lanes[I2c.SCL]? :=
        List.getElem?_set_ne hne
      by_cases hscl : ∃ scl, lanes[I2c.SCL]? = some (some scl)
      · obtain ⟨scl, hscl⟩ := hscl
        have hall := I2c.roomForgotten_iff.1 (h scl lane hscl hget) t b hb
        rw [hbus _ scl _ (hother.trans hscl) (List.getElem?_set_self hlt), hbus _ _ _ hscl hget,
          (I2c.decodeBus_insertChange_iff s (hinc scl (List.mem_of_getElem? hscl)) hlane hb).2 hall]
      · rw [hempty _ fun scl _ hscl' _ => hscl ⟨scl, hother ▸ hscl'⟩,
          hempty _ fun scl _ hscl' _ => hscl ⟨scl, hscl'⟩]
    by_cases hi' : i = I2c.SCL
    · subst hi'
      have hother : (lanes.set I2c.SCL (some (lane.insertChange t b)))[I2c.SDA]? = lanes[I2c.SDA]? :=
        List.getElem?_set_ne hne.symm
      by_cases hsda : ∃ sda, lanes[I2c.SDA]? = some (some sda)
      · obtain ⟨sda, hsda⟩ := hsda
        rw [hbus _ _ sda (List.getElem?_set_self hlt) (hother.trans hsda), hbus _ _ _ hget hsda,
          I2c.decodeBus_insertChange_scl s hlane hb]
      · rw [hempty _ fun _ sda _ hsda' => hsda ⟨sda, hother ▸ hsda'⟩,
          hempty _ fun _ sda _ hsda' => hsda ⟨sda, hsda'⟩]
    · exact hcongr _ (List.getElem?_set_ne hi') (List.getElem?_set_ne hi)

/-- No redundant change matters exactly under the condition of the protocol. -/
theorem insensitive_iff (settings : DecoderSettings) (lanes : List (Option BitLane))
    (hinc : ∀ lane, some lane ∈ lanes → lane.Increasing) :
    Insensitive settings lanes ↔ settings.Tolerates lanes := by
  cases settings with
  | spi s => exact iff_of_true (Spi.insensitive s hinc) trivial
  | i2c s => exact I2c.decode_insensitive_iff s hinc
  | uart s => exact Uart.decode_insensitive_iff s hinc

/-- SCL with two pulses, of which the second carries a STOP. -/
def bitThenStop : BitLane := ⟨[(0, .one), (25, .zero), (35, .one), (45, .zero), (55, .one)]⟩

/-- SDA with a START, a bit that is 0, and a STOP. -/
def startZeroStop : BitLane := ⟨[(0, .one), (20, .zero), (60, .one)]⟩

/-- When SDA repeats its 0 inside the first pulse, the bit is lost. -/
theorem not_insensitive_startZeroStop :
    bitThenStop.Increasing ∧ startZeroStop.Increasing ∧
      ¬ Insensitive (.i2c .default) [some bitThenStop, some startZeroStop] := by
  refine ⟨?_, ?_, fun h => ?_⟩
  · unfold BitLane.Increasing Timeline.Increasing
    decide
  · unfold BitLane.Increasing Timeline.Increasing
    decide
  · have hrepeat := h I2c.SDA startZeroStop 40 .zero rfl (by decide)
    revert hrepeat
    decide

/-- Every SPI bus tolerates redundant changes. -/
theorem insensitive_iff_spiClock :
    bitThenStop.Increasing ∧ Insensitive (.spi .default) [some bitThenStop, some bitThenStop] := by
  have hinc : bitThenStop.Increasing := by
    unfold BitLane.Increasing Timeline.Increasing
    decide
  refine ⟨hinc, (insensitive_iff (.spi .default) [some bitThenStop, some bitThenStop] ?_).2 trivial⟩
  intro lane hlane
  obtain rfl : lane = bitThenStop := by simpa using hlane
  exact hinc

end Decoders
