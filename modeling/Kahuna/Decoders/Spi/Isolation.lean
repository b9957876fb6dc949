import Kahuna.Decoders.Spi.Decode
import Kahuna.Transducer.Grouping

/-!
# SPI transfer isolation

The sampling edges at which the device is selected are grouped into words, and a word is promised to
hold the bits of one transfer only, that is, of one stretch of time in which chip select stays
asserted. The decoder looks at chip select at the sampling edges and nowhere else, so it does not
see a deassertion between two of them.

* `shown_decodeOne`: the words are the groups of the selected sampling edges, rendered one by one;
* `TransferIsolation`: the promise;
* `transferIsolation_iff`: it holds exactly when chip select stays asserted between neighbouring
  selected edges of a word.
-/

namespace Decoders.Spi

/-! ## Words are groups of sampling edges -/

section Render

variable (s : SpiSettings) (data : BitLane) (wordSize : ℕ)

/-- The bits are shifted in one after the other. -/
def shiftedIn (order : BitOrder) (bits : List (Option Bit)) : UInt64 × ℕ :=
  bits.foldl (fun (acc, count) bit => (shiftIn order acc count bit, count + 1)) (0, 0)

/-- The bits of a group of sampling edges. -/
def bitsAt (group : List UInt64) : List (Option Bit) := group.map data.valueAt

/-- What is shown for a group of sampling edges: where it starts, and its value, an `x` when some
bit is not clean, or how many bits there are when the word is not complete. -/
def render (group : List UInt64) : UInt64 × String × WordKind :=
  let bits := bitsAt data group
  let shown : String × WordKind :=
    if group.length = wordSize then
      if bits.any isBad then ("x", .error)
      else (s.format.format (shiftedIn s.bitOrder bits).1.toNat wordSize, .data)
    else (cutText group.length wordSize, .error)
  (group.headD 0, shown)

end Render

theorem shiftedIn_concat (order : BitOrder) (bits : List (Option Bit)) (bit : Option Bit) :
    shiftedIn order (bits ++ [bit])
      = (shiftIn order (shiftedIn order bits).1 bits.length bit, bits.length + 1) := by
  have hcount : ∀ bits, (shiftedIn order bits).2 = bits.length := by
    intro bits
    induction bits using List.reverseRecOn with
    | nil => rfl
    | append_singleton bits bit ih =>
      rw [shiftedIn, List.foldl_append, List.foldl_cons, List.foldl_nil, List.length_append,
        List.length_singleton]
      exact congrArg (· + 1) ih
  rw [shiftedIn, List.foldl_append, List.foldl_cons, List.foldl_nil]
  exact Prod.ext (by rw [← hcount bits]; rfl) (congrArg (· + 1) (hcount bits))

/-- The loop variables represent a group in progress. -/
structure Simulates (s : SpiSettings) (data : BitLane) (wordSize : ℕ) (st : DecodeState)
    (pending : List UInt64) : Prop where
  count : st.count = pending.length
  acc : st.acc = (shiftedIn s.bitOrder (bitsAt data pending)).1
  invalid : st.invalid = (bitsAt data pending).any isBad
  wordStart : pending ≠ [] → st.wordStart = pending.headD 0
  wasSelected : pending ≠ [] → st.wasSelected = true
  length_lt : pending.length < wordSize

variable {s : SpiSettings} {data : BitLane} {wordSize : ℕ}

theorem simulates_init (h : 0 < wordSize) : Simulates s data wordSize .init [] :=
  ⟨rfl, rfl, rfl, by simp, by simp, h⟩

/-- The word reported for a group in progress is the rendered group. -/
theorem Simulates.render_closing {st : DecodeState} {pending : List UInt64}
    (h : Simulates s data wordSize st pending) :
    (if 0 < st.count then [(st.wordStart, cutText st.count wordSize, WordKind.error)] else [])
      = (Grouping.closing pending).map (render s data wordSize) := by
  have hne : ¬ pending.length = wordSize := h.length_lt.ne
  by_cases hnil : pending = []
  · rw [h.count, hnil]
    rfl
  · have hpos : 0 < pending.length := List.length_pos_iff.mpr hnil
    rw [h.count, if_pos hpos, Grouping.closing, if_neg hnil, List.map_singleton, render,
      if_neg hne, h.wordStart hnil]

/-- A sampling edge at which the device is not selected closes the group in progress. -/
theorem Simulates.step_deselected {cs : Option BitLane} {st : DecodeState} {pending : List UInt64}
    (h : Simulates s data wordSize st pending) {t : UInt64}
    (ht : s.selectedAt cs t = false) :
    (Spi.step s data cs wordSize st t).words.map shown = st.words.map shown
        ++ (Grouping.closing pending).map (render s data wordSize) ∧
      Simulates s data wordSize (Spi.step s data cs wordSize st t) [] := by
  have hlt : 0 < wordSize := Nat.zero_lt_of_lt h.length_lt
  have hclosing := h.render_closing
  by_cases hnil : pending = []
  · subst hnil
    have hcount : st.count = 0 := h.count
    have hstep : Spi.step s data cs wordSize st t = { st with wasSelected := false } := by
      simp [Spi.step, ht, hcount]
    rw [hstep]
    exact ⟨by simp [Grouping.closing], h.count, h.acc, h.invalid, by simp, by simp, hlt⟩
  · have hpos : 0 < st.count := h.count ▸ List.length_pos_iff.mpr hnil
    rw [if_pos hpos] at hclosing
    rw [← hclosing]
    simp only [Spi.step, h.wasSelected hnil, ht, hpos]
    refine ⟨?_, rfl, rfl, rfl, by simp, by simp, hlt⟩
    simp [shown]

/-- A sampling edge at which the device is selected joins the group in progress. -/
theorem Simulates.step_selected {cs : Option BitLane} {st : DecodeState} {pending : List UInt64}
    (h : Simulates s data wordSize st pending) {t : UInt64} (ht : s.selectedAt cs t = true) :
    (Spi.step s data cs wordSize st t).words.map shown = st.words.map shown
        ++ (if pending.length + 1 = wordSize then [render s data wordSize (pending ++ [t])] else []) ∧
      Simulates s data wordSize (Spi.step s data cs wordSize st t)
        (if pending.length + 1 = wordSize then [] else pending ++ [t]) := by
  have hlt := h.length_lt
  -- the loop variables with the bit shifted in
  have hbits : bitsAt data (pending ++ [t]) = bitsAt data pending ++ [data.valueAt t] := by
    simp [bitsAt]
  have hlen : (bitsAt data pending).length = pending.length := by simp [bitsAt]
  have hacc : shiftIn s.bitOrder st.acc st.count (data.valueAt t)
      = (shiftedIn s.bitOrder (bitsAt data (pending ++ [t]))).1 := by
    rw [hbits, shiftedIn_concat, hlen, h.acc, h.count]
  have hinvalid : (st.invalid || isBad (data.valueAt t))
      = (bitsAt data (pending ++ [t])).any isBad := by
    rw [hbits, List.any_append, h.invalid, List.any_cons, List.any_nil, Bool.or_false]
  have hstart : (if st.count = 0 then t else st.wordStart) = (pending ++ [t]).headD 0 := by
    cases hpending : pending with
    | nil =>
      have hcount : st.count = 0 := by rw [h.count, hpending, List.length_nil]
      rw [if_pos hcount]
      rfl
    | cons a tail =>
      have hcount : ¬ st.count = 0 := by rw [h.count, hpending, List.length_cons]; omega
      rw [if_neg hcount, h.wordStart (by simp [hpending]), hpending]
      rfl
  have hcount : st.count + 1 = (pending ++ [t]).length := by
    rw [h.count, List.length_append, List.length_singleton]
  by_cases hfull : pending.length + 1 = wordSize
  · have hfull' : (pending ++ [t]).length = wordSize := by simpa using hfull
    simp only [Spi.step, ht, hacc, hinvalid, hstart, hcount, hfull', hfull, not_true, and_false,
      false_and, if_false, if_true]
    refine ⟨?_, rfl, rfl, rfl, by simp, by simp, Nat.zero_lt_of_lt hlt⟩
    rw [List.map_append, List.map_singleton, shown, render, if_pos hfull']
    split <;> rfl
  · have hfull' : ¬ (pending ++ [t]).length = wordSize := by simpa using hfull
    simp only [Spi.step, ht, hacc, hinvalid, hstart, hcount, hfull', hfull, not_true, and_false,
      false_and, if_false]
    refine ⟨by simp, rfl, rfl, rfl, fun _ => rfl, fun _ => rfl, ?_⟩
    rw [List.length_append, List.length_singleton]
    omega

/-- One pass of the loop reports the groups that its sampling edge closes. -/
theorem Simulates.step {cs : Option BitLane} {st : DecodeState} {pending : List UInt64}
    (h : Simulates s data wordSize st pending) (t : UInt64) :
    (Spi.step s data cs wordSize st t).words.map shown = st.words.map shown
        ++ (Grouping.step wordSize (s.selectedAt cs) pending t).1.map (render s data wordSize) ∧
      Simulates s data wordSize (Spi.step s data cs wordSize st t)
        (Grouping.step wordSize (s.selectedAt cs) pending t).2 := by
  cases ht : s.selectedAt cs t with
  | false =>
    simp only [Grouping.step, ht, Bool.false_eq_true, if_false]
    exact h.step_deselected ht
  | true =>
    have hstep := h.step_selected ht
    simp only [Grouping.step, ht, if_true]
    by_cases hfull : pending.length + 1 = wordSize
    · simpa only [hfull, if_true, List.map_singleton] using hstep
    · simpa only [hfull, if_false, List.map_nil] using hstep

/-- The words are the groups of the selected sampling edges, rendered one by one. -/
theorem shown_decodeOne (s : SpiSettings) (data : BitLane) (cs : Option BitLane)
    (sampleTimes : List UInt64) {wordSize : ℕ} (h : 0 < wordSize) :
    (decodeOne s data cs sampleTimes wordSize).map shown
      = (Grouping.groups wordSize (s.selectedAt cs) sampleTimes).map (render s data wordSize) := by
  obtain ⟨hwords, hfinal⟩ := (Grouping.grouping wordSize (s.selectedAt cs)).foldl_simulates
    (f := Spi.step s data cs wordSize) (fun st => st.words.map shown) (fun _ _ t h => h.step t)
    (simulates_init h) sampleTimes
  rw [List.map_id'] at hwords hfinal
  have hfinish : ∀ st : DecodeState, (finish sampleTimes wordSize st).map shown
      = st.words.map shown ++
        if 0 < st.count then [(st.wordStart, cutText st.count wordSize, .error)] else [] := by
    intro st
    rw [finish]
    split
    · simp [shown]
    · simp
  rw [decodeOne, map_shown_stretch, hfinish, hfinal.render_closing, hwords, Grouping.groups,
    List.map_append]
  rfl

/-! ## The promise -/

/-- Which sampling edges each word of a data lane counts: the selected edges, in order, cut into
groups that the words show. -/
structure Counts (s : SpiSettings) (sclk data : BitLane) (cs : Option BitLane)
    (groups : List (List UInt64)) : Prop where
  edges : groups.flatten = (sclk.edgesTo s.samplingLevel).filter (s.selectedAt cs)
  ne_nil : ∀ g ∈ groups, g ≠ []
  words : (decodeLane s sclk data cs).map shown = groups.map (render s data s.clampedWordSize)

/-- Every word counts sampling edges of one transfer only, and a word is cut short only where the
transfer ends. -/
def TransferIsolation (s : SpiSettings) (sclk data : BitLane) (cs : Option BitLane) : Prop :=
  ∃ groups, Counts s sclk data cs groups ∧
    ∀ g ∈ groups, Grouping.Uninterrupted (s.selectedAt cs) g ∧
      Grouping.LiesIn s.clampedWordSize (s.selectedAt cs) g (sclk.edgesTo s.samplingLevel)

variable {sclk : BitLane} {cs : Option BitLane}

/-- The groups of the decoder are counted by its words. -/
theorem counts_groups (s : SpiSettings) (sclk data : BitLane) (cs : Option BitLane) :
    Counts s sclk data cs
      (Grouping.groups s.clampedWordSize (s.selectedAt cs) (sclk.edgesTo s.samplingLevel)) where
  edges := Grouping.flatten_groups _
  ne_nil _ hg := Grouping.ne_nil_of_mem_groups hg
  words := shown_decodeOne s data cs _ s.clampedWordSize_pos

/-- The sampling edges are in strict time order. -/
theorem pairwise_sampleTimes (s : SpiSettings) (h : sclk.Increasing) :
    (sclk.edgesTo s.samplingLevel).Pairwise (· < ·) := by
  rw [sclk.edgesTo_eq s.samplingLevel]
  exact Timeline.pairwise_edgesFrom s.samplingLevel h

/-- The words leave no choice which edges they count: they show where their groups start. -/
theorem Counts.unique {groups groups' : List (List UInt64)} (hinc : sclk.Increasing)
    (h : Counts s sclk data cs groups) (h' : Counts s sclk data cs groups') :
    groups = groups' := by
  have hnodup : groups.flatten.Nodup := by
    rw [h.edges]
    exact List.Nodup.filter _ ((pairwise_sampleTimes s hinc).imp ne_of_lt)
  have hhead : ∀ {gs : List (List UInt64)}, (∀ g ∈ gs, g ≠ []) →
      gs.map List.head? = (gs.map (render s data s.clampedWordSize)).map (fun w => some w.1) := by
    intro gs hne
    rw [List.map_map]
    refine List.map_congr_left fun g hg => ?_
    obtain ⟨a, tail, rfl⟩ := List.exists_cons_of_ne_nil (hne g hg)
    rfl
  apply Grouping.eq_of_heads (h.edges.trans h'.edges.symm) hnodup h.ne_nil
  rw [hhead h.ne_nil, hhead h'.ne_nil, ← h.words, ← h'.words]

/-- Words hold bits of one transfer only exactly when chip select stays asserted between neighbouring
sampling edges of a word: it may be deasserted between two selected edges, without a clock edge in
between, only where the edges selected in a row so far make up full words. -/
theorem transferIsolation_iff (s : SpiSettings) (sclk data : BitLane) (cs : Option BitLane)
    (hinc : sclk.Increasing) :
    TransferIsolation s sclk data cs ↔
      Grouping.OpenInGroups s.clampedWordSize (s.selectedAt cs)
        (sclk.edgesTo s.samplingLevel) := by
  have hgroups := counts_groups s sclk data cs
  rw [← Grouping.forall_uninterrupted_iff s.clampedWordSize_pos (pairwise_sampleTimes s hinc)]
  constructor
  · rintro ⟨groups, hcounts, hall⟩ g hg
    rw [← hcounts.unique hinc hgroups] at hg
    exact (hall g hg).1
  · intro h
    exact ⟨_, hgroups, fun g hg =>
      ⟨h g hg, Grouping.liesIn_of_mem_groups s.clampedWordSize_pos hg⟩⟩

/-- A clock of two pulses. -/
def twoPulses : BitLane := ⟨[(0, .zero), (20, .one), (30, .zero), (40, .one), (50, .zero)]⟩

/-- Chip select, active low, is deasserted for a moment between the two rising edges. -/
def glitchedSelect : BitLane := ⟨[(0, .one), (10, .zero), (32, .one), (36, .zero)]⟩

/-- A data line that stays low. -/
def lowData : BitLane := ⟨[(0, .zero)]⟩

theorem not_transferIsolation_glitchedSelect :
    twoPulses.Increasing ∧ glitchedSelect.Increasing ∧ lowData.Increasing ∧
      ¬ TransferIsolation .default twoPulses lowData (some glitchedSelect) := by
  have hinc : twoPulses.Increasing := by
    unfold BitLane.Increasing Timeline.Increasing
    decide
  refine ⟨hinc, ?_, ?_, ?_⟩
  · unfold BitLane.Increasing Timeline.Increasing
    decide
  · unfold BitLane.Increasing Timeline.Increasing
    decide
  · rintro ⟨groups, hcounts, hall⟩
    -- the one word counts both edges
    have hgroups : groups = [[20, 40]] :=
      (hcounts.unique hinc (counts_groups .default _ _ _)).trans (by decide)
    have hsel := (hall [20, 40] (by simp [hgroups])).1 20 rfl 40 rfl 32 (by decide) (by decide)
    exact absurd hsel (by decide)

/-- Without a chip select lane nothing can be deasserted. -/
theorem transferIsolation_noChipSelect :
    twoPulses.Increasing ∧ TransferIsolation .default twoPulses lowData none := by
  have hinc : twoPulses.Increasing := by
    unfold BitLane.Increasing Timeline.Increasing
    decide
  exact ⟨hinc, (transferIsolation_iff .default twoPulses lowData none hinc).mpr
    fun _ _ _ _ _ _ _ _ _ _ _ => rfl⟩

end Decoders.Spi
