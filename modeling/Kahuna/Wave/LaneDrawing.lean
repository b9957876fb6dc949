import Kahuna.Decoders.Basic
import Kahuna.Timeline.Turns

/-!
# Drawing a decoded lane

The model of `lane_draw_commands` (`drawing_canvas.rs`), which turns the words of a lane into the
regions of a row, and what it draws: each pixel is in one region, which shows the word whose span
contains the time of the pixel.

Pixels are taken from any linear order. Times are natural numbers, since a viewport may show times
that do not fit into 64 bits.
-/

namespace Wave

open Decoders Timeline

/-- `ValueKind`, as far as decoded words have it. -/
inductive ValueKind where
  | normal
  | warn
  deriving DecidableEq, Repr

/-- A text with how it is to be shown. -/
structure TranslatedValue where
  value : String
  kind : ValueKind
  deriving DecidableEq, Repr

/-- How the trace of a value is drawn. -/
inductive TraceValue where
  | normal
  | allZeros
  | allZerosThick
  | allOnes
  deriving DecidableEq, Repr

/-- What a region shows. -/
structure DrawnRegion where
  inner : Option TranslatedValue
  forceAntiAlias : Bool
  traceValue : TraceValue
  deriving DecidableEq, Repr

/-- A region carrying a value that did not come from translating a signal. -/
def DrawnRegion.plain (inner : Option TranslatedValue) : DrawnRegion :=
  { inner, forceAntiAlias := false, traceValue := .normal }

/-- How the values of a row are drawn. -/
inductive DigitalDrawingType where
  | bool
  | clock
  | event
  | vector
  deriving DecidableEq, Repr

/-- An ordered list of values that are drawn from their pixel to the pixel of the next value. -/
structure DigitalDrawingCommands (π : Type*) where
  drawingType : DigitalDrawingType
  values : List (π × DrawnRegion)

namespace DigitalDrawingCommands

variable {π : Type*}

/-- Add a value at the end. -/
def push (commands : DigitalDrawingCommands π) (val : π × DrawnRegion) : DigitalDrawingCommands π :=
  { commands with values := commands.values ++ [val] }

@[simp] theorem push_values (commands : DigitalDrawingCommands π) (val : π × DrawnRegion) :
    (commands.push val).values = commands.values ++ [val] := rfl

variable [LinearOrder π]

/-- The region of a value reaches to the next value, the last region up to its right-hand edge. -/
def Covers (commands : DigitalDrawingCommands π) (i : ℕ) (pixel : π) : Prop :=
  ∃ old new, commands.values[i]? = some old ∧ commands.values[i + 1]? = some new ∧ old.1 ≤ pixel ∧
    (pixel < new.1 ∨ commands.values.length = i + 2 ∧ pixel = new.1)

/-- The regions of values with increasing pixels do not share a pixel. -/
theorem eq_of_covers {commands : DigitalDrawingCommands π}
    (h : commands.values.Pairwise fun old new => old.1 ≤ new.1) {i j : ℕ} {pixel : π}
    (hi : commands.Covers i pixel) (hj : commands.Covers j pixel) : i = j := by
  -- the region in front would have to reach beyond the beginning of the other one
  have hle : ∀ {i j : ℕ}, commands.Covers i pixel → commands.Covers j pixel → j ≤ i := by
    rintro i j ⟨-, new, -, hnew, -, hpixel⟩ ⟨old', new', hold', hnew', hle', -⟩
    by_contra hlt
    obtain ⟨hi1, hnew⟩ := List.getElem?_eq_some_iff.mp hnew
    obtain ⟨hj1, hold'⟩ := List.getElem?_eq_some_iff.mp hold'
    obtain ⟨hj2, -⟩ := List.getElem?_eq_some_iff.mp hnew'
    have hshort : pixel < new.1 := by
      rcases hpixel with hlt' | ⟨hlast, -⟩
      · exact hlt'
      · omega
    have hmono : new.1 ≤ old'.1 := by
      rcases Nat.lt_or_ge (i + 1) j with hgap | hnext
      · exact hnew ▸ hold' ▸ List.pairwise_iff_getElem.mp h (i + 1) j hi1 hj1 hgap
      · obtain rfl : i + 1 = j := by omega
        exact le_of_eq (congrArg Prod.fst (hnew.symm.trans hold'))
    exact absurd (hshort.trans_le (hmono.trans hle')) (lt_irrefl _)
  exact le_antisymm (hle hj hi) (hle hi hj)

end DigitalDrawingCommands

/-! ## The sweep -/

/-- The span of the word contains the time. -/
def SpanContains (w : DecodedWord) (time : ℕ) : Prop := w.start.toNat ≤ time ∧ time < w.end_.toNat

/-- `to_u64().unwrap_or(u64::MAX)`. -/
def clampTime (time : ℕ) : UInt64 :=
  if time < UInt64.size then .ofNat time else .ofNat (UInt64.size - 1)

/-- The value that a region shows for a word. -/
def wordValue (w : DecodedWord) : TranslatedValue :=
  { value := w.text
    kind := match w.kind with
      | .data => .normal
      | .error => .warn }

/-- The loop that goes past the words that end at or before a time. -/
def skipWords (words : List DecodedWord) (time : UInt64) (wordIdx : ℕ) : ℕ :=
  wordIdx + ((words.drop wordIdx).takeWhile fun w => w.end_ ≤ time).length

/-- One turn of the loop over the pixels. -/
def lanePixel {π : Type*} (words : List DecodedWord)
    (acc : ℕ × Option ℕ × DigitalDrawingCommands π) (sample : π × ℕ) :
    ℕ × Option ℕ × DigitalDrawingCommands π :=
  let (wordIdx, prevWord, commands) := acc
  let time := clampTime sample.2
  let wordIdx := skipWords words time wordIdx
  let value := (words[wordIdx]?.filter fun w => w.start ≤ time).map wordValue
  let here := value.map fun _ => wordIdx
  if here ≠ prevWord ∨ commands.values = [] then
    (wordIdx, here, commands.push (sample.1, .plain value))
  else (wordIdx, prevWord, commands)

/-- `lane_draw_commands`. -/
def laneDrawCommands {π : Type*} (lane : DecodedLane) (timestamps : List (π × ℕ)) :
    DigitalDrawingCommands π :=
  let commands := (timestamps.foldl (lanePixel lane.words)
    (0, none, { drawingType := .vector, values := [] })).2.2
  match timestamps.getLast? with
  | some last => commands.push (last.1, .plain none)
  | none => commands

/-! ## What the sweep finds -/

instance (w : DecodedWord) (time : ℕ) : Decidable (SpanContains w time) :=
  inferInstanceAs (Decidable (_ ∧ _))

/-- The word whose span contains the time. -/
def ownerAt (words : List DecodedWord) (time : ℕ) : Option ℕ :=
  words.findIdx? fun w => SpanContains w time

/-- A time that does not fit into 64 bits lies in no span, and neither does the one it becomes. -/
theorem contains_iff (w : DecodedWord) (time : ℕ) :
    SpanContains w time ↔ w.start ≤ clampTime time ∧ clampTime time < w.end_ := by
  have hend := w.end_.toNat_lt_size
  rw [UInt64.le_iff_toNat_le, UInt64.lt_iff_toNat_lt, SpanContains, clampTime]
  split
  next hfits => rw [UInt64.toNat_ofNat_of_lt' hfits]
  next hlarge =>
    rw [UInt64.toNat_ofNat_of_lt' (by decide)]
    omega

/-- Later times become later times. -/
theorem clampTime_mono {s t : ℕ} (h : s ≤ t) : clampTime s ≤ clampTime t := by
  have hsize : ∀ u, (clampTime u).toNat = min u (UInt64.size - 1) := by
    intro u
    rw [clampTime]
    split
    next hfits => rw [UInt64.toNat_ofNat_of_lt' hfits]; omega
    next hlarge => rw [UInt64.toNat_ofNat_of_lt' (by decide)]; omega
  rw [UInt64.le_iff_toNat_le, hsize, hsize]
  omega

/-- The loop passes words that have ended only, and stops at one that has not. -/
theorem skipWords_spec (words : List DecodedWord) (time : UInt64) (wordIdx : ℕ) :
    wordIdx ≤ skipWords words time wordIdx ∧
      (∀ j w, wordIdx ≤ j → j < skipWords words time wordIdx → words[j]? = some w → w.end_ ≤ time) ∧
      ∀ w, words[skipWords words time wordIdx]? = some w → time < w.end_ := by
  have hsplit := List.takeWhile_append_dropWhile (p := fun w : DecodedWord => w.end_ ≤ time)
    (l := words.drop wordIdx)
  refine ⟨Nat.le_add_right _ _, fun j w hle hlt hw => ?_, fun w hw => ?_⟩
  · obtain ⟨d, rfl⟩ := Nat.exists_eq_add_of_le hle
    rw [← List.getElem?_drop, ← hsplit, List.getElem?_append_left (by simp [skipWords] at hlt; omega)]
      at hw
    simpa using List.mem_takeWhile_imp (List.mem_of_getElem? hw)
  · obtain ⟨n, hn⟩ : ∃ n, n = ((words.drop wordIdx).takeWhile fun w => w.end_ ≤ time).length :=
      ⟨_, rfl⟩
    rw [skipWords, ← hn, ← List.getElem?_drop, ← hsplit, List.getElem?_append_right hn.ge, hn,
      Nat.sub_self] at hw
    have hstop := List.head?_dropWhile_not (fun w : DecodedWord => w.end_ ≤ time) (words.drop wordIdx)
    rw [List.head?_eq_getElem?, hw] at hstop
    simpa using hstop

/-- When every word in front of the pointer has ended, the pointer finds the word that contains the
time, if there is one. -/
theorem pointed_eq {words : List DecodedWord} (hsorted : words.Pairwise fun w w' => w.start ≤ w'.start)
    {time : ℕ} {i : ℕ} (hpast : ∀ j w, j < i → words[j]? = some w → w.end_ ≤ clampTime time)
    (hstop : ∀ w, words[i]? = some w → clampTime time < w.end_) :
    ((words[i]?.filter fun w => w.start ≤ clampTime time).map fun _ => i) = ownerAt words time := by
  cases hword : words[i]? with
  | none =>
    -- every word has ended
    symm
    rw [Option.filter_none, Option.map_none, ownerAt, List.findIdx?_eq_none_iff]
    intro w hw
    obtain ⟨j, hj, rfl⟩ := List.getElem_of_mem hw
    have hended := hpast j words[j] (hj.trans_le (List.getElem?_eq_none_iff.mp hword))
      (List.getElem?_eq_getElem hj)
    simp only [contains_iff, decide_eq_false_iff_not, not_and, not_lt]
    exact fun _ => hended
  | some w =>
    have hopen := hstop w hword
    obtain ⟨hi, rfl⟩ := List.getElem?_eq_some_iff.mp hword
    symm
    by_cases hstart : words[i].start ≤ clampTime time
    · simp only [Option.filter_some, hstart, decide_true, if_true, Option.map_some, ownerAt,
        List.findIdx?_eq_some_iff_getElem]
      refine ⟨hi, by simp [contains_iff, hstart, hopen], fun j hj => ?_⟩
      have hended := hpast j _ hj (List.getElem?_eq_getElem (hj.trans hi))
      simp only [contains_iff, decide_eq_true_eq, not_and, not_lt]
      exact fun _ => hended
    · simp only [Option.filter_some, hstart, decide_false, Bool.false_eq_true, if_false,
        Option.map_none, ownerAt, List.findIdx?_eq_none_iff]
      intro w hw
      obtain ⟨j, hj, rfl⟩ := List.getElem_of_mem hw
      simp only [contains_iff, decide_eq_false_iff_not, not_and, not_lt]
      rcases lt_or_ge j i with hbefore | hbehind
      · exact fun _ => hpast j _ hbefore (List.getElem?_eq_getElem hj)
      · -- the words behind start no earlier than this one
        intro hstart'
        have hmono : words[i].start ≤ words[j].start := by
          rcases Nat.eq_or_lt_of_le hbehind with rfl | hlt
          · exact le_refl _
          · exact List.pairwise_iff_getElem.mp hsorted i j hi hj hlt
        exact absurd (hmono.trans hstart') hstart

/-- What the row shows at a time. -/
def shownAt (words : List DecodedWord) (time : ℕ) : DrawnRegion :=
  .plain (((ownerAt words time).bind (words[·]?)).map wordValue)

/-- One turn of the loop finds the word that contains the time of its pixel. -/
theorem lanePixel_eq {π : Type*} {words : List DecodedWord}
    (hsorted : words.Pairwise fun w w' => w.start ≤ w'.start) {wordIdx : ℕ} {prevWord : Option ℕ}
    {commands : DigitalDrawingCommands π} {sample : π × ℕ}
    (hpast : ∀ j w, j < wordIdx → words[j]? = some w → w.end_ ≤ clampTime sample.2) :
    ∃ i, (∀ j w, j < i → words[j]? = some w → w.end_ ≤ clampTime sample.2) ∧
      lanePixel words (wordIdx, prevWord, commands) sample =
        if ownerAt words sample.2 ≠ prevWord ∨ commands.values = [] then
          (i, ownerAt words sample.2, commands.push (sample.1, shownAt words sample.2))
        else (i, prevWord, commands) := by
  obtain ⟨hle, hended, hstop⟩ := skipWords_spec words (clampTime sample.2) wordIdx
  have hpast' : ∀ j w, j < skipWords words (clampTime sample.2) wordIdx → words[j]? = some w →
      w.end_ ≤ clampTime sample.2 := by
    intro j w hj hw
    rcases lt_or_ge j wordIdx with hbefore | hskipped
    · exact hpast j w hbefore hw
    · exact hended j w hskipped hj hw
  refine ⟨skipWords words (clampTime sample.2) wordIdx, hpast', ?_⟩
  have howner := pointed_eq hsorted hpast' hstop
  have hvalue : ((words[skipWords words (clampTime sample.2) wordIdx]?.filter
      fun w => w.start ≤ clampTime sample.2).map wordValue) =
        ((ownerAt words sample.2).bind (words[·]?)).map wordValue := by
    rw [← howner]
    cases hkept : words[skipWords words (clampTime sample.2) wordIdx]?.filter
        fun w => w.start ≤ clampTime sample.2 with
    | none => rfl
    | some w =>
      obtain ⟨hword, -⟩ := Option.filter_eq_some_iff.mp hkept
      simp [hword]
  simp only [lanePixel, Option.map_map, Function.comp_def, shownAt]
  rw [howner, hvalue]

/-- The loop hands on the turns of the owner. -/
theorem foldl_lanePixel {π : Type*} {words : List DecodedWord}
    (hsorted : words.Pairwise fun w w' => w.start ≤ w'.start) (samples : List (π × ℕ))
    (htimes : samples.Pairwise fun s s' => s.2 ≤ s'.2) (wordIdx : ℕ) (prevWord : Option ℕ)
    (commands : DigitalDrawingCommands π)
    (hpast : ∀ s ∈ samples, ∀ j w, j < wordIdx → words[j]? = some w → w.end_ ≤ clampTime s.2) :
    (samples.foldl (lanePixel words) (wordIdx, prevWord, commands)).2.2.values =
      commands.values ++ (turns (fun s => ownerAt words s.2)
        (if commands.values = [] then none else some prevWord) samples).map
          fun s => (s.1, shownAt words s.2) := by
  induction samples generalizing wordIdx prevWord commands with
  | nil => simp
  | cons sample rest ih =>
    obtain ⟨hfirst, hrest⟩ := List.pairwise_cons.mp htimes
    obtain ⟨i, hpast', hstep⟩ := @lanePixel_eq π words hsorted wordIdx prevWord commands sample
      (hpast sample List.mem_cons_self)
    -- times only grow, so what has ended stays ended
    have hlater : ∀ s ∈ rest, ∀ j w, j < i → words[j]? = some w → w.end_ ≤ clampTime s.2 :=
      fun s hs j w hj hw => (hpast' j w hj hw).trans (clampTime_mono (hfirst s hs))
    rw [List.foldl_cons, hstep]
    split
    next hturn =>
      have hkey : (if commands.values = [] then none else some prevWord) ≠
          some (ownerAt words sample.2) := by
        split
        · simp
        next hsome => exact fun h => hturn.elim (· (Option.some.inj h).symm) hsome
      rw [ih hrest _ _ _ hlater, turns, if_neg hkey]
      simp
    next hsame =>
      obtain ⟨hkey, hne⟩ := not_or.mp hsame
      rw [ih hrest _ _ _ hlater, turns, if_neg hne, if_pos]
      rw [not_not.mp hkey]

/-! ## The regions -/

/-- Words whose spans do not share a time. -/
def SpansDisjoint (words : List DecodedWord) : Prop :=
  words.Pairwise fun w w' => ∀ time, ¬ (SpanContains w time ∧ SpanContains w' time)

/-- At most one word contains a time. -/
theorem owner_eq_some {words : List DecodedWord} (hdisjoint : SpansDisjoint words) {time j : ℕ}
    {w : DecodedWord} (hw : words[j]? = some w) (htime : SpanContains w time) :
    ownerAt words time = some j := by
  obtain ⟨hj, rfl⟩ := List.getElem?_eq_some_iff.mp hw
  rw [ownerAt, List.findIdx?_eq_some_iff_getElem]
  refine ⟨hj, by simpa using htime, fun k hk => ?_⟩
  have hk' := List.pairwise_iff_getElem.mp hdisjoint k j (hk.trans hj) hj hk time
  simpa using fun hcontains => hk' ⟨hcontains, htime⟩

/-- The values are the turns of the owner, and the right-hand edge of the last region. -/
theorem laneDrawCommands_values {π : Type*} {lane : DecodedLane} {timestamps : List (π × ℕ)}
    (hsorted : lane.words.Pairwise fun w w' => w.start ≤ w'.start)
    (htimes : timestamps.Pairwise fun s s' => s.2 ≤ s'.2) :
    (laneDrawCommands lane timestamps).values =
      ((turns (fun s => ownerAt lane.words s.2) none timestamps).map
        fun s => (s.1, shownAt lane.words s.2)) ++
          (timestamps.getLast?.map fun last => (last.1, DrawnRegion.plain none)).toList := by
  have hloop := foldl_lanePixel hsorted timestamps htimes 0 none
    { drawingType := .vector, values := [] } (by simp)
  rw [laneDrawCommands]
  cases timestamps.getLast? with
  | none => simpa using hloop
  | some last => simpa using hloop

section Regions

variable {π : Type*} [LinearOrder π] {lane : DecodedLane} {timestamps : List (π × ℕ)}

/-- No pixel is behind the last one. -/
theorem le_getLast? (hpixels : timestamps.Pairwise fun s s' => s.1 < s'.1) {s last : π × ℕ}
    (hs : s ∈ timestamps) (hlast : timestamps.getLast? = some last) : s.1 ≤ last.1 := by
  obtain ⟨front, rfl⟩ := List.getLast?_eq_some_iff.mp hlast
  rcases List.mem_append.mp hs with hfront | hend
  · exact ((List.pairwise_append.mp hpixels).2.2 s hfront last (by simp)).le
  · rw [List.mem_singleton.mp hend]

/-- The values have increasing pixels. -/
theorem pairwise_laneDrawCommands (hsorted : lane.words.Pairwise fun w w' => w.start ≤ w'.start)
    (hpixels : timestamps.Pairwise fun s s' => s.1 < s'.1)
    (htimes : timestamps.Pairwise fun s s' => s.2 ≤ s'.2) :
    (laneDrawCommands lane timestamps).values.Pairwise fun old new => old.1 ≤ new.1 := by
  have hsub := turns_sublist (fun s : π × ℕ => ownerAt lane.words s.2) none timestamps
  rw [laneDrawCommands_values hsorted htimes, List.pairwise_append]
  refine ⟨?_, ?_, ?_⟩
  · rw [List.pairwise_map]
    exact (hpixels.sublist hsub).imp fun hlt => hlt.le
  · cases timestamps.getLast? <;> simp
  · intro old hold new hnew
    obtain ⟨s, hs, rfl⟩ := List.mem_map.mp hold
    obtain ⟨last, hlast, rfl⟩ := Option.map_eq_some_iff.mp (Option.mem_toList.mp hnew)
    exact le_getLast? hpixels (hsub.subset hs) hlast

/-- A pixel is covered by the region of its turn. -/
theorem covers_of_inBlock (hsorted : lane.words.Pairwise fun w w' => w.start ≤ w'.start)
    (hpixels : timestamps.Pairwise fun s s' => s.1 < s'.1)
    (htimes : timestamps.Pairwise fun s s' => s.2 ≤ s'.2) {s : π × ℕ} (hs : s ∈ timestamps) {i : ℕ}
    (hblock : InBlock (fun s : π × ℕ => ownerAt lane.words s.2) Prod.fst
      (turns (fun s => ownerAt lane.words s.2) none timestamps) i s) :
    (laneDrawCommands lane timestamps).Covers i s.1 ∧
      ∃ first, (laneDrawCommands lane timestamps).values[i]? =
          some (first, shownAt lane.words s.2) := by
  obtain ⟨⟨turn, hturn, hkey, hle⟩, hnext⟩ := hblock
  have hvalues := @laneDrawCommands_values π lane _ hsorted htimes
  obtain ⟨hi, -⟩ := List.getElem?_eq_some_iff.mp hturn
  have hold : (laneDrawCommands lane timestamps).values[i]? =
      some (turn.1, shownAt lane.words s.2) := by
    rw [hvalues, List.getElem?_append_left (by simpa using hi), List.getElem?_map, hturn]
    simp [shownAt, hkey]
  refine ⟨?_, turn.1, hold⟩
  rcases Nat.lt_or_ge (i + 1) (turns (fun s => ownerAt lane.words s.2) none timestamps).length
    with hmore | hend
  · -- another turn follows
    obtain ⟨turn', hget⟩ : ∃ turn',
        (turns (fun s => ownerAt lane.words s.2) none timestamps)[i + 1]? =
        some turn' := ⟨_, List.getElem?_eq_getElem hmore⟩
    have hfollow : (laneDrawCommands lane timestamps).values[i + 1]? =
        some (turn'.1, shownAt lane.words turn'.2) := by
      rw [hvalues, List.getElem?_append_left (by simpa using hmore), List.getElem?_map, hget]
      rfl
    exact ⟨_, _, hold, hfollow, hle, .inl (hnext turn' hget)⟩
  · -- the region reaches to the right-hand edge
    obtain ⟨last, hlast⟩ : ∃ last, timestamps.getLast? = some last :=
      Option.isSome_iff_exists.mp (by
        rw [List.getLast?_isSome]
        exact List.ne_nil_of_mem hs)
    have hedge : (laneDrawCommands lane timestamps).values[i + 1]? =
        some (last.1, DrawnRegion.plain none) := by
      rw [hvalues, List.getElem?_append_right (by simpa using hend), hlast, List.length_map,
        show i + 1 - (turns (fun s => ownerAt lane.words s.2) none timestamps).length = 0 by omega]
      rfl
    refine ⟨_, _, hold, hedge, hle, ?_⟩
    rcases lt_or_eq_of_le (le_getLast? hpixels hs hlast) with hlt | heq
    · exact .inl hlt
    · refine .inr ⟨?_, heq⟩
      rw [hvalues, hlast]
      simp only [List.length_append, List.length_map, Option.map_some, Option.toList_some,
        List.length_singleton]
      omega

/-- What the regions of a row say about the words. -/
structure DrawnFaithfully (words : List DecodedWord) (timestamps : List (π × ℕ))
    (commands : DigitalDrawingCommands π) : Prop where
  /-- Each pixel is in one region. -/
  assigned : ∀ s ∈ timestamps, ∃ i, commands.Covers i s.1 ∧ ∀ i', commands.Covers i' s.1 → i' = i
  /-- The region shows the word whose span contains the time of the pixel. -/
  shows : ∀ s ∈ timestamps, ∀ w ∈ words, SpanContains w s.2 → ∀ i, commands.Covers i s.1 →
    ∃ first, commands.values[i]? = some (first, .plain (some (wordValue w)))
  /-- It shows nothing when no span does. -/
  blank : ∀ s ∈ timestamps, (∀ w ∈ words, ¬ SpanContains w s.2) → ∀ i, commands.Covers i s.1 →
    ∃ first, commands.values[i]? = some (first, .plain none)
  /-- Pixels of different words are in different regions. -/
  apart : ∀ s ∈ timestamps, ∀ s' ∈ timestamps, ∀ (j j' : ℕ) (w w' : DecodedWord),
    words[j]? = some w → words[j']? = some w' → SpanContains w s.2 → SpanContains w' s'.2 → j ≠ j' →
    ∀ i, commands.Covers i s.1 → ¬ commands.Covers i s'.1

/-- Decoded lanes are drawn faithfully. -/
theorem laneDrawCommands_faithful (lane : DecodedLane) (timestamps : List (π × ℕ))
    (hsorted : lane.words.Pairwise fun w w' => w.start ≤ w'.start) (hdisjoint : SpansDisjoint lane.words)
    (hpixels : timestamps.Pairwise fun s s' => s.1 < s'.1)
    (htimes : timestamps.Pairwise fun s s' => s.2 ≤ s'.2) :
    DrawnFaithfully lane.words timestamps (laneDrawCommands lane timestamps) := by
  have hpairwise := pairwise_laneDrawCommands hsorted hpixels htimes
  have hblock : ∀ s ∈ timestamps, ∃ i, InBlock (fun s : π × ℕ => ownerAt lane.words s.2) Prod.fst
      (turns (fun s => ownerAt lane.words s.2) none timestamps) i s :=
    fun s hs => exists_inBlock _ Prod.fst hpixels hs
  -- the region that covers a pixel is that of its turn
  have hshown : ∀ s ∈ timestamps, ∀ i, (laneDrawCommands lane timestamps).Covers i s.1 →
      ∃ first, (laneDrawCommands lane timestamps).values[i]? =
        some (first, shownAt lane.words s.2) := by
    intro s hs i hcovers
    obtain ⟨k, hk⟩ := hblock s hs
    obtain ⟨hcovers', hvalue⟩ := covers_of_inBlock hsorted hpixels htimes hs hk
    exact DigitalDrawingCommands.eq_of_covers hpairwise hcovers' hcovers ▸ hvalue
  constructor
  · intro s hs
    obtain ⟨k, hk⟩ := hblock s hs
    obtain ⟨hcovers, -⟩ := covers_of_inBlock hsorted hpixels htimes hs hk
    exact ⟨k, hcovers, fun i' hi' => DigitalDrawingCommands.eq_of_covers hpairwise hi' hcovers⟩
  · intro s hs w hw htime i hcovers
    obtain ⟨j, hj⟩ := List.mem_iff_getElem?.mp hw
    obtain ⟨first, hvalue⟩ := hshown s hs i hcovers
    exact ⟨first, by rw [hvalue, shownAt, owner_eq_some hdisjoint hj htime]; simp [hj]⟩
  · intro s hs hnone i hcovers
    obtain ⟨first, hvalue⟩ := hshown s hs i hcovers
    have howner : ownerAt lane.words s.2 = none := by
      rw [ownerAt, List.findIdx?_eq_none_iff]
      simpa using hnone
    exact ⟨first, by rw [hvalue, shownAt, howner]; rfl⟩
  · intro s hs s' hs' j j' w w' hw hw' htime htime' hne i hcovers hcovers'
    obtain ⟨k, hk⟩ := hblock s hs
    obtain ⟨k', hk'⟩ := hblock s' hs'
    obtain rfl := DigitalDrawingCommands.eq_of_covers hpairwise
      (covers_of_inBlock hsorted hpixels htimes hs hk).1 hcovers
    obtain rfl := DigitalDrawingCommands.eq_of_covers hpairwise
      (covers_of_inBlock hsorted hpixels htimes hs' hk').1 hcovers'
    -- both pixels have the owner of the turn
    obtain ⟨⟨turn, hturn, hkey, -⟩, -⟩ := hk
    obtain ⟨⟨turn', hturn', hkey', -⟩, -⟩ := hk'
    obtain rfl : turn = turn' := Option.some.inj (hturn.symm.trans hturn')
    have howner : ownerAt lane.words s.2 = ownerAt lane.words s'.2 := hkey.symm.trans hkey'
    rw [owner_eq_some hdisjoint hw htime, owner_eq_some hdisjoint hw' htime'] at howner
    exact hne (Option.some.inj howner)

end Regions

/-- A lane with a word that is narrower than a pixel, one next to it, and one behind a gap. -/
def gapLane : DecodedLane :=
  { name := "MOSI"
    words :=
      [{ start := 0, end_ := 2, text := "0x00", kind := .data },
        { start := 2, end_ := 5, text := "0x00", kind := .data },
        { start := 8, end_ := 9, text := "1 of 8 bits", kind := .error }] }

theorem laneDrawCommands_faithful_gapLane :
    DrawnFaithfully gapLane.words [(10, 0), (11, 3), (12, 4), (13, 6), (14, 8)]
      (laneDrawCommands gapLane [(10, 0), (11, 3), (12, 4), (13, 6), (14, 8)]) := by
  have hdisjoint : SpansDisjoint gapLane.words := by
    simp only [SpansDisjoint, gapLane, SpanContains, List.pairwise_cons, List.mem_cons, List.not_mem_nil,
      or_false, forall_eq_or_imp, forall_eq, IsEmpty.forall_iff, implies_true, List.Pairwise.nil,
      and_true]
    refine ⟨⟨fun t h => ?_, fun t h => ?_⟩, fun t h => ?_⟩
    all_goals exact absurd (h.1.2.trans_le (le_trans (by decide) h.2.1)) (lt_irrefl _)
  exact laneDrawCommands_faithful gapLane _ (by decide) hdisjoint (by decide) (by decide)

end Wave
