import Kahuna.Decoders.Spi.Isolation

/-!
# SPI word spans

The words of a row are promised to tile it: each ends where the next one starts, and none is empty. The
loop gives a word the time of its last sampling edge as its end, and all words but the last are
stretched to the next one. So the last word decides: it is empty when it has one sampling edge and is
not cut short by a deassertion.
-/

namespace Decoders.Spi

open Grouping

/-- Each word starts before the next one and ends where it starts, and no span is empty. -/
structure Tiles (words : List DecodedWord) : Prop where
  meets : words.IsChain fun w next => w.start < next.start ∧ w.end_ = next.start
  filled : ∀ w ∈ words, w.start < w.end_

theorem tiles_nil : Tiles [] := ⟨List.IsChain.nil, by simp⟩

/-- Words that start one after the other are stretched to a tiling exactly when the last one is not
empty. -/
theorem tiles_stretch_iff {words : List DecodedWord}
    (h : words.IsChain fun w next => w.start < next.start) :
    Tiles (stretch words) ↔ ∀ w ∈ words.getLast?, w.start < w.end_ := by
  induction words using stretch.induct with
  | case1 => simp [stretch, tiles_nil]
  | case2 w =>
    constructor
    · intro htiles
      simpa using htiles.filled w (by simp [stretch])
    · intro hlast
      exact ⟨List.IsChain.singleton _, by simpa [stretch] using hlast⟩
  | case3 w next rest ih =>
    rw [List.isChain_cons_cons] at h
    have hhead : ∃ w' rest', stretch (next :: rest) = w' :: rest' ∧ w'.start = next.start := by
      cases rest with
      | nil => exact ⟨_, _, rfl, rfl⟩
      | cons w' rest => exact ⟨_, _, rfl, rfl⟩
    obtain ⟨w', rest', hstretch, hstart⟩ := hhead
    have ih := ih h.2
    rw [List.getLast?_cons_cons, ← ih, stretch, hstretch]
    constructor
    · intro htiles
      exact ⟨(List.isChain_cons_cons.mp htiles.meets).2,
        fun v hv => htiles.filled v (List.mem_cons_of_mem _ hv)⟩
    · intro htiles
      refine ⟨List.isChain_cons_cons.mpr ⟨?_, htiles.meets⟩,
        List.forall_mem_cons.mpr ⟨h.1, htiles.filled⟩⟩
      exact ⟨hstart ▸ h.1, hstart.symm⟩

section Loop

variable {s : SpiSettings} {data : BitLane} {cs : Option BitLane} {wordSize : ℕ} {t : UInt64}
  {st : DecodeState} {pending sampleTimes : List UInt64}

/-- What an edge adds to the words is a word that is not empty, unless words are single bits. -/
theorem Simulates.filled_step (h : Simulates s data wordSize st pending) (hlater : ∀ u ∈ pending, u < t)
    (hwords : ∀ w ∈ st.words, w.start < w.end_ ↔ 1 < wordSize) :
    ∀ w ∈ (Spi.step s data cs wordSize st t).words, w.start < w.end_ ↔ 1 < wordSize := by
  have hlt := h.length_lt
  -- a group in progress starts before the edge
  have hstart : pending ≠ [] → st.wordStart < t := by
    intro hne
    obtain ⟨a, tail, rfl⟩ := List.exists_cons_of_ne_nil hne
    exact h.wordStart hne ▸ hlater a List.mem_cons_self
  have hcount : 0 < st.count ↔ pending ≠ [] := by rw [h.count, List.length_pos_iff]
  cases ht : s.selectedAt cs t with
  | false =>
    by_cases hpos : st.wasSelected ∧ 0 < st.count
    · have hne := hcount.mp hpos.2
      have hlen : 0 < pending.length := List.length_pos_iff.mpr hne
      have hsize : 1 < wordSize := by omega
      intro w hw
      simp only [Spi.step, ht, hpos.1, hpos.2, Bool.false_eq_true, not_false_eq_true, and_self, if_true,
        List.mem_append, List.mem_singleton] at hw
      rcases hw with hold | rfl
      · exact hwords w hold
      · exact iff_of_true (hstart hne) hsize
    · simpa [Spi.step, ht, hpos] using hwords
  | true =>
    by_cases hfull : st.count + 1 = wordSize
    · have hlast : (if st.count = 0 then t else st.wordStart) < t ↔ 1 < wordSize := by
        split
        next hzero => simp [← hfull, hzero]
        next hpos =>
          have hne := hcount.mp (Nat.pos_of_ne_zero hpos)
          exact iff_of_true (hstart hne) (by omega)
      intro w hw
      simp only [Spi.step, ht, hfull, not_true, and_false, false_and, if_false, if_true, List.mem_append,
        List.mem_singleton] at hw
      rcases hw with hold | rfl
      · exact hwords w hold
      · exact hlast
    · simpa [Spi.step, ht, hfull] using hwords

/-- The loop over the edges: what it holds is the group in progress, and the words it has reported are
not empty, unless words are single bits. -/
theorem simulates_run (hsize : 0 < wordSize) (hinc : sampleTimes.Pairwise (· < ·)) :
    Simulates s data wordSize (sampleTimes.foldl (Spi.step s data cs wordSize) .init)
        ((grouping wordSize (s.selectedAt cs)).final [] sampleTimes) ∧
      ∀ w ∈ (sampleTimes.foldl (Spi.step s data cs wordSize) .init).words,
        w.start < w.end_ ↔ 1 < wordSize := by
  induction sampleTimes using List.reverseRecOn with
  | nil => exact ⟨simulates_init hsize, by simp [DecodeState.init]⟩
  | append_singleton xs x ih =>
    obtain ⟨hxs, -, hlater⟩ := List.pairwise_append.mp hinc
    obtain ⟨hsim, hwords⟩ := ih hxs
    have hprogress := @inProgress_final _ wordSize (s.selectedAt cs) hsize xs
    rw [List.foldl_append, List.foldl_cons, List.foldl_nil, final_concat]
    refine ⟨(hsim.step x).2, hsim.filled_step (fun u hu => ?_) hwords⟩
    exact hlater u (hprogress.suffix.subset hu) x (by simp)

/-- The words before they are stretched. -/
theorem map_shown_finish (hsize : 0 < wordSize) :
    (finish sampleTimes wordSize (sampleTimes.foldl (Spi.step s data cs wordSize) .init)).map shown =
      (groups wordSize (s.selectedAt cs) sampleTimes).map (render s data wordSize) := by
  rw [← shown_decodeOne s data cs sampleTimes hsize, decodeOne, map_shown_stretch]

/-- There are words when an edge is selected. -/
theorem finish_eq_nil_iff (hsize : 0 < wordSize) :
    finish sampleTimes wordSize (sampleTimes.foldl (Spi.step s data cs wordSize) .init) = [] ↔
      ∀ t ∈ sampleTimes, s.selectedAt cs t = false := by
  have hshown := @map_shown_finish s data cs wordSize sampleTimes hsize
  have hflat := @flatten_groups _ wordSize (s.selectedAt cs) sampleTimes
  constructor
  · intro hnil
    rw [hnil, List.map_nil, eq_comm, List.map_eq_nil_iff] at hshown
    rw [hshown, List.flatten_nil, eq_comm, List.filter_eq_nil_iff] at hflat
    simpa using hflat
  · intro hnone
    have hfilter : sampleTimes.filter (s.selectedAt cs) = [] := by
      rw [List.filter_eq_nil_iff]
      simpa using hnone
    have hgroups : groups wordSize (s.selectedAt cs) sampleTimes = [] := by
      rw [hfilter, List.flatten_eq_nil_iff] at hflat
      by_contra hne
      obtain ⟨g, hg⟩ := List.exists_mem_of_ne_nil _ hne
      exact ne_nil_of_mem_groups hg (hflat g hg)
    simpa [hgroups] using hshown

/-- The groups of increasing times start one after the other. -/
theorem pairwise_heads {gs : List (List UInt64)} (hflat : gs.flatten.Pairwise (· < ·))
    (hne : ∀ g ∈ gs, g ≠ []) : gs.Pairwise fun g g' => g.headD 0 < g'.headD 0 := by
  rw [List.pairwise_flatten] at hflat
  refine hflat.2.imp_of_mem fun {g g'} hg hg' hlt => ?_
  obtain ⟨a, tail, rfl⟩ := List.exists_cons_of_ne_nil (hne g hg)
  obtain ⟨b, tail', rfl⟩ := List.exists_cons_of_ne_nil (hne g' hg')
  exact hlt a List.mem_cons_self b List.mem_cons_self

/-- The words start one after the other. -/
theorem isChain_finish (hsize : 0 < wordSize) (hinc : sampleTimes.Pairwise (· < ·)) :
    (finish sampleTimes wordSize (sampleTimes.foldl (Spi.step s data cs wordSize) .init)).IsChain
      fun w next => w.start < next.start := by
  have hgroups : (groups wordSize (s.selectedAt cs) sampleTimes).Pairwise
      fun g g' => g.headD 0 < g'.headD 0 := by
    refine pairwise_heads ?_ fun g hg => ne_nil_of_mem_groups hg
    rw [flatten_groups]
    exact hinc.sublist List.filter_sublist
  have hstarts : ((finish sampleTimes wordSize
      (sampleTimes.foldl (Spi.step s data cs wordSize) .init)).map shown).Pairwise
        fun w next => w.1 < next.1 := by
    rw [map_shown_finish hsize, List.pairwise_map]
    exact hgroups
  exact (List.pairwise_map.mp hstarts).isChain

/-- The last word is empty when it counts a single edge and is not cut short. -/
theorem filled_getLast?_iff (hsize : 0 < wordSize) (hinc : sampleTimes.Pairwise (· < ·)) :
    (∀ w ∈ (finish sampleTimes wordSize
        (sampleTimes.foldl (Spi.step s data cs wordSize) .init)).getLast?, w.start < w.end_) ↔
      (∀ t ∈ sampleTimes, s.selectedAt cs t → 1 < wordSize) ∧
        streak (s.selectedAt cs) sampleTimes % wordSize ≠ 1 := by
  obtain ⟨hsim, hwords⟩ := @simulates_run s data cs wordSize sampleTimes hsize hinc
  have hnil := @finish_eq_nil_iff s data cs wordSize sampleTimes hsize
  have hprogress := @inProgress_final _ wordSize (s.selectedAt cs) hsize sampleTimes
  set st := sampleTimes.foldl (Spi.step s data cs wordSize) .init
  set pending := (grouping wordSize (s.selectedAt cs)).final [] sampleTimes
  rw [← hprogress.length]
  by_cases hpos : 0 < st.count
  · -- the word in progress ends at the last edge
    have hlen : 0 < pending.length := hsim.count ▸ hpos
    have hlt := hsim.length_lt
    have hlast : (finish sampleTimes wordSize st).getLast? = some
        { start := st.wordStart
          end_ := sampleTimes.getLast?.getD st.wordStart
          text := cutText st.count wordSize
          kind := .error } := by
      rw [finish, if_pos hpos, List.getLast?_concat]
    obtain ⟨a, tail, hpending⟩ := List.exists_cons_of_ne_nil (List.length_pos_iff.mp hlen)
    obtain ⟨before, hbefore⟩ := hprogress.suffix
    have hstart : st.wordStart = a := by
      rw [hsim.wordStart (by simp [hpending]), hpending]
      rfl
    have hend : sampleTimes.getLast?.getD a = tail.getLast?.getD a := by
      rw [← hbefore, hpending, List.getLast?_append, List.getLast?_cons]
      rfl
    have hpass : ∀ t ∈ sampleTimes, s.selectedAt cs t → 1 < wordSize := fun _ _ _ => by omega
    rw [and_iff_right hpass]
    simp only [hlast, Option.mem_some_iff, forall_eq', hstart, hend]
    rw [hpending, List.length_cons]
    cases hget : tail.getLast? with
    | none =>
      rw [List.getLast?_eq_none_iff.mp hget]
      simp
    | some l =>
      have hl := List.mem_of_getLast? hget
      have hlen : 0 < tail.length := List.length_pos_of_mem hl
      have hlater : a < l := by
        rw [← hbefore, hpending] at hinc
        exact (List.pairwise_cons.mp (List.pairwise_append.mp hinc).2.1).1 l hl
      exact iff_of_true hlater (by omega)
  · have hlen : pending.length = 0 := by
      rw [← hsim.count]
      omega
    have hfinish : finish sampleTimes wordSize st = st.words := by rw [finish, if_neg hpos]
    rw [hfinish] at hnil ⊢
    simp only [hlen, ne_eq, zero_ne_one, not_false_eq_true, and_true]
    constructor
    · intro hlast t ht hsel
      have hne : st.words ≠ [] := fun h => by simp [hnil.mp h t ht] at hsel
      obtain ⟨w, hw⟩ := Option.isSome_iff_exists.mp (List.getLast?_isSome.mpr hne)
      exact (hwords w (List.mem_of_getLast? hw)).mp (hlast w hw)
    · intro hall w hw
      have hne : ¬ ∀ t ∈ sampleTimes, s.selectedAt cs t = false := fun h => by
        rw [hnil.mpr h] at hw
        simp at hw
      push Not at hne
      obtain ⟨t, ht, hsel⟩ := hne
      exact (hwords w (List.mem_of_getLast? hw)).mpr (hall t ht (by simpa using hsel))

/-- The words of a lane tile its row exactly when the last one is not empty. -/
theorem tiles_decodeOne_iff (hsize : 0 < wordSize) (hinc : sampleTimes.Pairwise (· < ·)) :
    Tiles (decodeOne s data cs sampleTimes wordSize) ↔
      (∀ t ∈ sampleTimes, s.selectedAt cs t → 1 < wordSize) ∧
        streak (s.selectedAt cs) sampleTimes % wordSize ≠ 1 := by
  rw [decodeOne, tiles_stretch_iff (isChain_finish hsize hinc), filled_getLast?_iff hsize hinc]

end Loop

/-- No word of a bus is a single sampling edge that the trace ends with: words that are there have two
bits at least, and the selected edges in a row at the end are not one more than full words. -/
def LastWordFilled (s : SpiSettings) (lanes : List (Option BitLane)) : Prop :=
  ∀ sclk data, lanes[SCLK]? = some (some sclk) →
    (lanes[MOSI]? = some (some data) ∨ lanes[MISO]? = some (some data)) →
    (∀ t ∈ sclk.edgesTo s.samplingLevel, s.selectedAt lanes[CS]?.join t → 1 < s.clampedWordSize) ∧
      streak (s.selectedAt lanes[CS]?.join) (sclk.edgesTo s.samplingLevel) % s.clampedWordSize ≠ 1

/-- The words of every row tile it exactly when no word is a single sampling edge at the end of the
trace. -/
theorem tiles_decode_iff (s : SpiSettings) (lanes : List (Option BitLane))
    (hinc : ∀ lane, some lane ∈ lanes → lane.Increasing) :
    (∀ row ∈ s.decode lanes, Tiles row.words) ↔ LastWordFilled s lanes := by
  rcases hsclk : lanes[SCLK]? with _ | _ | sclk
  · -- without a clock there are no words
    simp [SpiSettings.decode, hsclk, SpiSettings.laneNames, tiles_nil, LastWordFilled]
  · simp [SpiSettings.decode, hsclk, SpiSettings.laneNames, tiles_nil, LastWordFilled]
  · have hedges : (sclk.edgesTo s.samplingLevel).Pairwise (· < ·) :=
      pairwise_sampleTimes s (hinc sclk (List.mem_of_getElem? hsclk))
    -- a data lane that is bound has a row that tiles under the condition, one that is not an empty row
    have hrow : ∀ role : ℕ, Tiles (lanes[role]?.join.elim [] fun data =>
          decodeOne s data lanes[CS]?.join (sclk.edgesTo s.samplingLevel) s.clampedWordSize) ↔
        ∀ data, lanes[role]? = some (some data) →
          (∀ t ∈ sclk.edgesTo s.samplingLevel, s.selectedAt lanes[CS]?.join t → 1 < s.clampedWordSize) ∧
            streak (s.selectedAt lanes[CS]?.join) (sclk.edgesTo s.samplingLevel) % s.clampedWordSize ≠
              1 := by
      intro role
      rcases hrole : lanes[role]? with _ | _ | data
      · simp [tiles_nil]
      · simp [tiles_nil]
      · simpa using tiles_decodeOne_iff s.clampedWordSize_pos hedges
    simp only [s.decode_eq, hsclk, Option.join_some, Option.elim_some, SpiSettings.laneNames,
      List.zip_cons_cons, List.zip_nil_right, List.map_cons, List.map_nil, List.forall_mem_cons,
      LastWordFilled, Option.some.injEq]
    constructor
    · rintro ⟨hmosi, hmiso, -⟩ clock data rfl (hdata | hdata)
      · exact (hrow MOSI).mp hmosi data hdata
      · exact (hrow MISO).mp hmiso data hdata
    · intro hfilled
      exact ⟨(hrow MOSI).mpr fun data hdata => hfilled sclk data rfl (.inl hdata),
        (hrow MISO).mpr fun data hdata => hfilled sclk data rfl (.inr hdata), by simp⟩

theorem tiles_decode_twoPulses :
    (∀ row ∈ SpiSettings.default.decode [some twoPulses, some lowData, none, none], Tiles row.words) ↔
      LastWordFilled .default [some twoPulses, some lowData, none, none] := by
  refine tiles_decode_iff .default _ fun lane hlane => ?_
  simp only [List.mem_cons, Option.some.injEq, reduceCtorEq, List.not_mem_nil, or_false] at hlane
  rcases hlane with rfl | rfl
  all_goals
    unfold BitLane.Increasing Timeline.Increasing
    decide

/-- A clock of one pulse. -/
def onePulse : BitLane := ⟨[(0, .zero), (20, .one), (30, .zero)]⟩

/-- A trace that ends after the first bit of a word has a word that is never drawn. -/
theorem not_tiles_onePulse : onePulse.Increasing ∧ lowData.Increasing ∧
    ¬ ∀ row ∈ SpiSettings.default.decode [some onePulse, some lowData, none, none], Tiles row.words := by
  refine ⟨?_, ?_, fun h => ?_⟩
  · unfold BitLane.Increasing Timeline.Increasing
    decide
  · unfold BitLane.Increasing Timeline.Increasing
    decide
  · have hrow : { name := "MOSI", words := [{ start := 20, end_ := 20, text := "1 of 8 bits", kind := .error }] }
        ∈ SpiSettings.default.decode [some onePulse, some lowData, none, none] := by
      decide
    exact absurd ((h _ hrow).filled _ List.mem_cons_self) (by decide)

end Decoders.Spi
