import Kahuna.Decoders.I2c.Phases
import Kahuna.Decoders.Spans

/-!
# I2C token spans

A byte is meant to run up to its acknowledge. The second pass of the decoder only stretches a token
that starts at most two clock periods before the next one, and a byte starts eight before its
acknowledge; so no such byte is closed. When it is a STOP or the end of the trace that comes after the
eight bits, the byte is shown a second time, as a cut one.

* `SpansOrdered`: what is expected of the spans;
* `spanOf_finish`: the spans of the tokens before they are stretched, phase by phase;
* `spansOrdered_iff`: the spans are as expected when no byte reaches its acknowledge, and three
  coincidences do not happen.
-/

namespace Decoders.I2c

/-- The word is the token of an acknowledge. -/
def isAck (w : DecodedWord) : Bool := w.text = "A" ∨ w.text = "N"

/-- The words are in order, none ends before it starts, and a word before an acknowledge runs up to
it. -/
structure SpansOrdered (words : List DecodedWord) : Prop where
  inOrder : InOrder words
  forward : ∀ w ∈ words, w.start ≤ w.end_
  meets : words.IsChain fun w next => isAck next = true → w.end_ = next.start

/-! ## Stretching -/

/-- A token without what is written in it. -/
structure Span where
  start : UInt64
  end_ : UInt64
  ack : Bool
  deriving DecidableEq, Repr

/-- The span of a word. -/
def spanOf (w : DecodedWord) : Span := ⟨w.start, w.end_, isAck w⟩

/-- Where a token ends when another one comes next. -/
def Span.closed (T : UInt64) (z next : Span) : UInt64 :=
  if next.start > z.start ∧ next.start - z.start ≤ T * 2 then next.start else z.end_

/-- A token and the next one are as expected, once the first is stretched. -/
structure Span.Fits (T : UInt64) (z next : Span) : Prop where
  sorted : z.start ≤ next.start
  forward : z.start ≤ z.closed T next
  closed_le : z.closed T next ≤ next.start
  meets : next.ack = true → z.closed T next = next.start

theorem spansOrdered_cons_cons {w next : DecodedWord} {rest : List DecodedWord} :
    SpansOrdered (w :: next :: rest) ↔
      (w.start ≤ next.start ∧ w.start ≤ w.end_ ∧ w.end_ ≤ next.start ∧
        (isAck next = true → w.end_ = next.start)) ∧ SpansOrdered (next :: rest) := by
  constructor
  · intro h
    obtain ⟨⟨hsorted, hle⟩, hinOrder⟩ := List.isChain_cons_cons.1 h.inOrder
    obtain ⟨hmeets, hmeet⟩ := List.isChain_cons_cons.1 h.meets
    obtain ⟨hforward, hforwards⟩ := List.forall_mem_cons.1 h.forward
    exact ⟨⟨hsorted, hforward, hle, hmeets⟩, hinOrder, hforwards, hmeet⟩
  · rintro ⟨⟨hsorted, hforward, hle, hmeets⟩, h⟩
    exact
      { inOrder := List.isChain_cons_cons.2 ⟨⟨hsorted, hle⟩, h.inOrder⟩
        forward := List.forall_mem_cons.2 ⟨hforward, h.forward⟩
        meets := List.isChain_cons_cons.2 ⟨hmeets, h.meets⟩ }

/-- The stretched words are as expected when every two neighbours are, and the last one does not end
before it starts. -/
theorem spansOrdered_closeGaps_iff {T : UInt64} {words : List DecodedWord} :
    SpansOrdered (closeGaps T words) ↔
      (words.map spanOf).IsChain (Span.Fits T) ∧ ∀ w ∈ (words.map spanOf).getLast?, w.start ≤ w.end_ := by
  induction words using closeGaps.induct with
  | case1 => exact iff_of_true ⟨List.IsChain.nil, by simp [closeGaps], List.IsChain.nil⟩ (by simp)
  | case2 w =>
    constructor
    · intro h
      simpa [spanOf] using h.forward w (by simp [closeGaps])
    · rintro ⟨-, hlast⟩
      exact ⟨List.IsChain.singleton _, by simpa [closeGaps, spanOf] using hlast, List.IsChain.singleton _⟩
  | case3 w next rest ih =>
    have hhead : ∃ w' rest', closeGaps T (next :: rest) = w' :: rest' ∧ w'.start = next.start ∧
        isAck w' = isAck next := by
      cases rest with
      | nil => exact ⟨_, _, rfl, rfl, rfl⟩
      | cons v rest =>
        refine ⟨_, _, rfl, ?_, ?_⟩
        · split <;> rfl
        · split <;> rfl
    obtain ⟨w', rest', hclosed, hstart, hack⟩ := hhead
    have hfits : ∀ e, e = (spanOf w).closed T (spanOf next) →
        ((w.start ≤ w'.start ∧ w.start ≤ e ∧ e ≤ w'.start ∧ (isAck w' = true → e = w'.start)) ↔
          (spanOf w).Fits T (spanOf next)) := by
      rintro e rfl
      rw [hstart, hack]
      exact ⟨fun h => ⟨h.1, h.2.1, h.2.2.1, h.2.2.2⟩, fun h => ⟨h.1, h.2, h.3, h.4⟩⟩
    rw [List.map_cons, List.map_cons, List.isChain_cons_cons, List.getLast?_cons_cons, and_assoc,
      ← List.map_cons, ← ih, closeGaps, hclosed, spansOrdered_cons_cons, ← hfits _ rfl]
    refine and_congr_left fun _ => ?_
    by_cases hnear : next.start > w.start ∧ next.start - w.start ≤ T * 2
    · rw [if_pos hnear, Span.closed, if_pos (by exact hnear)]
      rfl
    · rw [if_neg hnear, Span.closed, if_neg (by exact hnear)]
      rfl

/-! ## The spans of a bus -/

/-- A token one clock period wide. -/
def slot (T t : UInt64) (ack : Bool) : Span := ⟨t, t + T, ack⟩

/-- The token of a byte in progress, from the times of its bits. -/
def cutSpans (T : UInt64) (latched : List UInt64) : List Span :=
  latched.head?.toList.map fun t => slot T t false

/-- The tokens of the samples after a START. The first argument says whether a repeated START comes
after them, which drops a byte in progress; the second one holds the times of its bits. -/
def sampleSpans (T : UInt64) (restart : Bool) : List UInt64 → List UInt64 → List Span
  | latched, [] => if restart then [] else cutSpans T latched
  | latched, t :: rest =>
    if latched.length = 8 then slot T t true :: sampleSpans T restart [] rest
    else (if latched.length + 1 = 8 then [⟨latched.headD t, t, false⟩] else [])
      ++ sampleSpans T restart (latched ++ [t]) rest

/-- The tokens of the phases. -/
def spans (T : UInt64) : List Phase → List Span
  | [] => []
  | p :: ps =>
    slot T p.time false :: ((if p.opens then sampleSpans T (startsNext ps) [] p.samples else [])
      ++ spans T ps)

/-- The loop variables, with the times at which the bits of the byte in progress were latched. -/
structure Clocked (st : DecodeState) (fr : Frame) (times : List UInt64) : Prop where
  simulates : Simulates st fr
  length_eq : times.length = fr.latched.length
  byteStart : ∀ t ∈ times.head?, st.byteStart = t

section Loop

variable {s : I2cSettings} {T t : UInt64} {st : DecodeState} {fr : Frame} {times : List UInt64}

theorem clocked_init : Clocked .init .init [] := ⟨simulates_init, rfl, by simp⟩

theorem map_spanOf_push {words : List DecodedWord} {text : String} {kind : WordKind} {ack : Bool}
    (hack : decide (text = "A" ∨ text = "N") = ack) :
    (push T words t text kind).map spanOf = words.map spanOf ++ [slot T t ack] := by
  subst hack
  rw [push, List.map_append]
  rfl

theorem cutText_not_ack {bits : ℕ} (h : bits ≤ 8) :
    decide (cutText bits = "A" ∨ cutText bits = "N") = false := by
  simpa using cutText_ne h

/-- The span of the byte in progress. -/
theorem Clocked.map_spanOf_closing (h : Clocked st fr times) :
    (if 0 < st.bits then push T st.words st.byteStart (cutText st.bits) .error else st.words).map spanOf
      = st.words.map spanOf ++ cutSpans T times := by
  have hbits : st.bits = times.length := h.simulates.bits.trans h.length_eq.symm
  cases times with
  | nil =>
    rw [if_neg (by rw [hbits]; exact Nat.lt_irrefl 0)]
    simp [cutSpans]
  | cons t times =>
    have hle : st.bits ≤ 8 := by
      rw [h.simulates.bits]
      exact h.simulates.wellFormed.length_le
    rw [if_pos (by rw [hbits]; exact Nat.succ_pos _), map_spanOf_push (cutText_not_ack hle),
      h.byteStart t rfl]
    rfl

/-- Outside a transaction no byte is in progress. -/
theorem Clocked.times_eq_nil (h : Clocked st fr times) (hclosed : ¬ fr.opened = true) : times = [] := by
  have hlatched := h.simulates.wellFormed.closed (by simpa using hclosed)
  rw [← List.length_eq_zero_iff, h.length_eq, hlatched]
  rfl

/-- A START drops the byte in progress. -/
theorem Clocked.start (h : Clocked st fr times) :
    (I2c.step s T st (t, .start)).words.map spanOf = st.words.map spanOf ++ [slot T t false] ∧
      Clocked (I2c.step s T st (t, .start)) (fr.step .start).2 [] := by
  refine ⟨map_spanOf_push ?_, (h.simulates.step s T t .start).2, rfl, by simp⟩
  split <;> decide

/-- A STOP cuts it. -/
theorem Clocked.stop (h : Clocked st fr times) :
    (I2c.step s T st (t, .stop)).words.map spanOf
        = st.words.map spanOf ++ (cutSpans T times ++ [slot T t false]) ∧
      Clocked (I2c.step s T st (t, .stop)) (fr.step .stop).2 [] := by
  refine ⟨?_, (h.simulates.step s T t .stop).2, rfl, by simp⟩
  rw [← List.append_assoc, ← h.map_spanOf_closing]
  exact map_spanOf_push (by decide)

/-- A sample outside a transaction is not looked at. -/
theorem Clocked.ignored (h : Clocked st fr times) (hclosed : ¬ fr.opened = true) (bit : Bit) :
    I2c.step s T st (t, .sample bit) = st ∧ (fr.step (.sample bit)).2 = fr := by
  have hst : ¬ st.inTransaction = true := by rwa [h.simulates.opened]
  simp [I2c.step, Frame.step, hclosed, hst]

/-- The ninth clock. -/
theorem Clocked.ninth (h : Clocked st fr times) (hopen : fr.opened = true) (hfull : times.length = 8)
    (bit : Bit) :
    (I2c.step s T st (t, .sample bit)).words.map spanOf = st.words.map spanOf ++ [slot T t true] ∧
      Clocked (I2c.step s T st (t, .sample bit)) (fr.step (.sample bit)).2 [] := by
  have hst : st.inTransaction = true := h.simulates.opened.trans hopen
  have hlatched : fr.latched.length = 8 := h.length_eq.symm.trans hfull
  have hbits : st.bits = 8 := h.simulates.bits.trans hlatched
  refine ⟨?_, (h.simulates.step s T t (.sample bit)).2, ?_, by simp⟩
  · simp only [I2c.step, hst, hbits, not_true, if_false, if_true]
    refine map_spanOf_push ?_
    split <;> decide
  · simp [Frame.step, hopen, hlatched]

/-- A bit of a byte. The eighth one shows the byte. -/
theorem Clocked.bit (h : Clocked st fr times) (hopen : fr.opened = true) (hfull : times.length ≠ 8)
    (bit : Bit) :
    (I2c.step s T st (t, .sample bit)).words.map spanOf
        = st.words.map spanOf
          ++ (if times.length + 1 = 8 then [⟨times.headD t, t, false⟩] else []) ∧
      Clocked (I2c.step s T st (t, .sample bit)) (fr.step (.sample bit)).2 (times ++ [t]) := by
  have hst : st.inTransaction = true := h.simulates.opened.trans hopen
  have hbits : st.bits = times.length := h.simulates.bits.trans h.length_eq.symm
  have hfull' : ¬ st.bits = 8 := by rwa [hbits]
  have hlen : fr.latched.length < 8 := by
    have hle := h.simulates.wellFormed.length_le
    have heq := h.length_eq
    omega
  have hstart : (if st.bits = 0 then t else st.byteStart) = times.headD t := by
    rw [hbits]
    cases times with
    | nil => rfl
    | cons u times => exact h.byteStart u rfl
  have hsim := h.simulates.step s T t (.sample bit)
  rw [Frame.step_latch hopen hlen] at hsim ⊢
  refine ⟨?_, hsim.2, by simp [h.length_eq], fun u hu => ?_⟩
  · by_cases hlast : times.length + 1 = 8
    · have hlen' : (fr.latched ++ [bit]).length = 8 := by
        rw [List.length_append, ← h.length_eq]
        exact hlast
      have hbits' : st.bits + 1 = 8 := by rw [hbits, hlast]
      have htext := (h.simulates.acc.latch hlen bit).byteText_eq hlen' s fr.expectAddress
      simp only [I2c.step, hst, hfull', hbits', hlast, not_true, if_false, if_true, hstart,
        List.map_append, List.map_singleton, h.simulates.expectAddress, htext, spanOf, isAck]
      rw [decide_eq_false (byte_text_ne s fr.expectAddress hlen')]
    · have hbits' : ¬ st.bits + 1 = 8 := by rwa [hbits]
      simp [I2c.step, hst, hfull', hbits', hlast]
  · have hfirst : u = times.headD t := by
      cases times with
      | nil => exact (Option.some.inj hu).symm
      | cons v times => exact (Option.some.inj hu).symm
    rw [hfirst, ← hstart]
    simp [I2c.step, hst, hfull']

theorem Frame.opened_sample (bit : Bit) : (fr.step (.sample bit)).2.opened = fr.opened := by
  rw [Frame.step]
  split
  · rfl
  · split <;> rfl

/-- The spans of the tokens that the loop and the end of the trace append. -/
theorem Clocked.map_spanOf_finish (h : Clocked st fr times) (events : List (UInt64 × Event)) :
    (finish T (events.foldl (I2c.step s T) st)).map spanOf
      = st.words.map spanOf ++
        ((if fr.opened then sampleSpans T (startsNext (phases events).2) times (phases events).1
          else []) ++ spans T (phases events).2) := by
  induction events generalizing st fr times with
  | nil =>
    rw [List.foldl_nil, finish, h.map_spanOf_closing]
    by_cases hopen : fr.opened = true
    · simp [phases, spans, sampleSpans, startsNext, hopen]
    · simp [phases, spans, hopen, h.times_eq_nil hopen, cutSpans]
  | cons e rest ih =>
    obtain ⟨t, event⟩ := e
    rw [List.foldl_cons]
    cases event with
    | start =>
      obtain ⟨hwords, hnext⟩ := @Clocked.start s T t _ _ _ h
      rw [ih hnext, hwords]
      simp [phases, spans, sampleSpans, startsNext, Frame.step]
    | stop =>
      obtain ⟨hwords, hnext⟩ := @Clocked.stop s T t _ _ _ h
      rw [ih hnext, hwords]
      by_cases hopen : fr.opened = true
      · simp [phases, spans, sampleSpans, startsNext, Frame.step, hopen]
      · simp [phases, spans, Frame.step, hopen, h.times_eq_nil hopen, cutSpans]
    | sample bit =>
      by_cases hopen : fr.opened = true
      case neg =>
        obtain ⟨hst, hfr⟩ := @Clocked.ignored s T t _ _ _ h hopen bit
        rw [hst, ih h]
        simp [phases, hopen]
      by_cases hfull : times.length = 8
      · obtain ⟨hwords, hnext⟩ := @Clocked.ninth s T t _ _ _ h hopen hfull bit
        rw [ih hnext, hwords, Frame.opened_sample, hopen]
        simp [phases, sampleSpans, hfull]
      · obtain ⟨hwords, hnext⟩ := @Clocked.bit s T t _ _ _ h hopen hfull bit
        rw [ih hnext, hwords, Frame.opened_sample, hopen]
        simp [phases, sampleSpans, hfull]

end Loop

/-- The spans of the tokens before they are stretched are those of the phases. -/
theorem map_spanOf_finish (s : I2cSettings) (T : UInt64) (events : List (UInt64 × Event)) :
    (finish T (events.foldl (step s T) .init)).map spanOf = spans T (phases events).2 :=
  clocked_init.map_spanOf_finish events

/-! ## Neighbours -/

/-- How far apart tokens may start: close enough that the first one is stretched, as far as the code
can tell in 64 bits, or far enough that the first one has ended. -/
def Clear (T a b : UInt64) : Prop := b - a ≤ T * 2 ∨ T ≤ b - a

instance (T a b : UInt64) : Decidable (Clear T a b) := inferInstanceAs (Decidable (_ ∨ _))

section Neighbours

variable {T a b : UInt64} {z next : Span}

/-- A token that is stretched is as expected. -/
theorem fits_of_near (hlt : z.start < next.start) (hnear : next.start - z.start ≤ T * 2) :
    z.Fits T next := by
  have hclosed : z.closed T next = next.start := if_pos ⟨hlt, hnear⟩
  exact ⟨hlt.le, hclosed ▸ hlt.le, hclosed.le, fun _ => hclosed⟩

/-- A token that is not stretched is as expected when it lies before the next one. -/
theorem fits_iff_of_far (hfar : ¬ (next.start > z.start ∧ next.start - z.start ≤ T * 2)) :
    z.Fits T next ↔ z.start ≤ z.end_ ∧ z.end_ ≤ next.start ∧ (next.ack = true → z.end_ = next.start) := by
  have hclosed : z.closed T next = z.end_ := if_neg hfar
  constructor
  · rintro ⟨-, hforward, hle, hmeets⟩
    rw [hclosed] at hforward hle hmeets
    exact ⟨hforward, hle, hmeets⟩
  · rintro ⟨hforward, hle, hmeets⟩
    refine ⟨hforward.trans hle, ?_, ?_, ?_⟩
    · rwa [hclosed]
    · rwa [hclosed]
    · rwa [hclosed]

/-- A sum that is not below its first summand has not wrapped. -/
theorem le_add_iff (hT : 0 < T) : a ≤ a + T ↔ a.toNat + T.toNat < UInt64.size := by
  have ha := a.toNat_lt_size
  have hbound := T.toNat_lt_size
  have hsize : UInt64.size = 2 ^ 64 := rfl
  rw [UInt64.lt_iff_toNat_lt, UInt64.toNat_zero] at hT
  rw [UInt64.le_iff_toNat_le, UInt64.toNat_add]
  omega

/-- A token one clock period wide is as expected when the next one starts later, and not too close. -/
theorem fits_slot_iff (hT : 0 < T) (hack : next.ack = false) :
    (slot T a false).Fits T next ↔ a < next.start ∧ Clear T a next.start := by
  by_cases hnear : next.start > a ∧ next.start - a ≤ T * 2
  · exact iff_of_true (fits_of_near hnear.1 hnear.2) ⟨hnear.1, .inl hnear.2⟩
  rw [fits_iff_of_far hnear]
  show a ≤ a + T ∧ a + T ≤ next.start ∧ _ ↔ _
  rw [le_add_iff hT]
  have hb := next.start.toNat_lt_size
  have hsize : UInt64.size = 2 ^ 64 := rfl
  have hpos := UInt64.lt_iff_toNat_lt.1 hT
  rw [UInt64.toNat_zero] at hpos
  constructor
  · rintro ⟨hfits, hle, -⟩
    rw [UInt64.le_iff_toNat_le, UInt64.toNat_add, Nat.mod_eq_of_lt hfits] at hle
    have hlt : a < next.start := by
      rw [UInt64.lt_iff_toNat_lt]
      omega
    refine ⟨hlt, .inr ?_⟩
    rw [UInt64.le_iff_toNat_le, UInt64.toNat_sub_of_le _ _ hlt.le]
    omega
  · rintro ⟨hlt, hclear⟩
    have hfar := hclear.resolve_left fun hle => hnear ⟨hlt, hle⟩
    rw [UInt64.le_iff_toNat_le, UInt64.toNat_sub_of_le _ _ hlt.le] at hfar
    rw [UInt64.lt_iff_toNat_lt] at hlt
    have hfits : a.toNat + T.toNat < UInt64.size := by omega
    refine ⟨hfits, ?_, by simp [hack]⟩
    rw [UInt64.le_iff_toNat_le, UInt64.toNat_add, Nat.mod_eq_of_lt hfits]
    omega

/-- A token that ends before the next one starts needs no stretching. -/
theorem fits_of_le (hforward : z.start ≤ z.end_) (hle : z.end_ ≤ next.start) (hack : next.ack = false) :
    z.Fits T next := by
  by_cases hnear : next.start > z.start ∧ next.start - z.start ≤ T * 2
  · exact fits_of_near hnear.1 hnear.2
  · exact (fits_iff_of_far hnear).2 ⟨hforward, hle, by simp [hack]⟩

/-- A byte starts too early to be stretched to its acknowledge. -/
theorem not_fits_ack (hT : 0 < T) {c d : UInt64} (hab : Apart T a b) (hbc : Apart T b c)
    (hcd : Apart T c d) : ¬ Span.Fits T ⟨a, c, false⟩ (slot T d true) := by
  have hd := d.toNat_lt_size
  have hsize : UInt64.size = 2 ^ 64 := rfl
  have hpos := UInt64.lt_iff_toNat_lt.1 hT
  rw [UInt64.toNat_zero] at hpos
  rw [Apart] at hab hbc hcd
  have hle : a ≤ d := by
    rw [UInt64.le_iff_toNat_le]
    omega
  have hfar : ¬ (d > a ∧ d - a ≤ T * 2) := by
    rintro ⟨-, hnear⟩
    have htwo : (2 : UInt64).toNat = 2 := rfl
    rw [UInt64.le_iff_toNat_le, UInt64.toNat_sub_of_le _ _ hle, UInt64.toNat_mul, htwo] at hnear
    omega
  intro hfits
  have hend : c = d := ((fits_iff_of_far hfar).1 hfits).2.2 rfl
  rw [hend] at hcd
  omega

/-- No token that takes time is followed by one with the same start. -/
theorem not_fits_self {c : UInt64} (hac : a < c) : ¬ Span.Fits T ⟨a, c, false⟩ (slot T a false) := by
  intro hfits
  have hfar : ¬ (a > a ∧ a - a ≤ T * 2) := fun h => absurd h.1 (lt_irrefl a)
  exact absurd ((fits_iff_of_far hfar).1 hfits).2.1 (not_le.2 hac)

end Neighbours

/-! ## Neighbours in lists -/

theorem isChain_and_iff {α : Type*} {R S : α → α → Prop} {l : List α} :
    (l.IsChain fun a b => R a b ∧ S a b) ↔ l.IsChain R ∧ l.IsChain S := by
  induction l with
  | nil => simp
  | cons a l ih =>
    simp only [List.isChain_cons, ih, forall_and]
    tauto

theorem isChain_congr {α : Type*} {R S : α → α → Prop} {l : List α}
    (h : l.IsChain fun a b => (R a b ↔ S a b)) : l.IsChain R ↔ l.IsChain S := by
  induction l with
  | nil => simp
  | cons a l ih =>
    obtain ⟨hhead, htail⟩ := List.isChain_cons.1 h
    rw [List.isChain_cons, List.isChain_cons, ih htail]
    exact and_congr_left fun _ => forall₂_congr hhead

/-! ## Phases whose tokens are as expected -/

/-- No byte after the condition reaches its acknowledge, and one that has all its bits is followed by a
START. -/
def Phase.Held (p : Phase) (restart : Bool) : Prop :=
  p.opens = true → p.samples.length ≤ 8 ∧ (p.samples.length = 8 → restart = true)

/-- The start of a byte that is shown, or is shown as cut, after the condition. -/
def Phase.byteStart (p : Phase) (restart : Bool) : Option UInt64 :=
  if p.opens ∧ (restart = false ∨ p.samples.length = 8) then p.samples.head? else none

/-- The byte does not start at the time of the condition. -/
def Phase.Separate (p : Phase) (restart : Bool) : Prop :=
  ∀ t ∈ p.byteStart restart, p.time ≠ t

/-- Each phase has a property, given whether a START comes next. -/
def EachPhase (P : Phase → Bool → Prop) : List Phase → Prop
  | [] => True
  | p :: ps => P p (startsNext ps) ∧ EachPhase P ps

/-- Where the tokens start. -/
def tokenStarts : List Phase → List UInt64
  | [] => []
  | p :: ps => p.time :: ((p.byteStart (startsNext ps)).toList ++ tokenStarts ps)

/-- The exact condition: no byte reaches its acknowledge, no byte starts at its START, the distances of
the tokens are clear to the code, and the last token fits into 64 bits. -/
structure Unbroken (T : UInt64) (ps : List Phase) : Prop where
  held : EachPhase Phase.Held ps
  separate : EachPhase Phase.Separate ps
  clear : (tokenStarts ps).IsChain (Clear T)
  fits : ∀ t ∈ (tokenStarts ps).getLast?, t.toNat + T.toNat < UInt64.size

section Samples

variable {T : UInt64} {restart : Bool} {samples latched more rest : List UInt64}

/-- The bits before the eighth one are latched. -/
theorem sampleSpans_append (h : latched.length + more.length < 8) :
    sampleSpans T restart latched (more ++ rest) = sampleSpans T restart (latched ++ more) rest := by
  induction more generalizing latched with
  | nil => simp
  | cons t more ih =>
    rw [List.length_cons] at h
    rw [List.cons_append, sampleSpans, if_neg (by omega), if_neg (by omega),
      ih (by simp only [List.length_append, List.length_singleton]; omega)]
    simp

/-- Fewer than eight samples are shown as a cut byte, or dropped. -/
theorem sampleSpans_of_lt (h : samples.length < 8) :
    sampleSpans T restart [] samples = if restart then [] else cutSpans T samples := by
  have happend := @sampleSpans_append T restart [] samples [] (by simpa using h)
  rw [List.append_nil] at happend
  rw [happend]
  rfl

/-- Eight samples make a byte. -/
theorem exists_byte (h : 8 ≤ samples.length) :
    ∃ a b middle c rest, samples = a :: b :: (middle ++ c :: rest) ∧ middle.length = 5 ∧
      ∀ T restart, sampleSpans T restart [] samples
        = ⟨a, c, false⟩ :: sampleSpans T restart (a :: b :: (middle ++ [c])) rest := by
  match samples, h with
  | a :: b :: tail, h =>
    have hdrop : tail.drop 5 ≠ [] := by
      intro hnil
      have hlength := List.drop_eq_nil_iff.1 hnil
      simp only [List.length_cons] at h
      omega
    obtain ⟨c, rest, hrest⟩ := List.exists_cons_of_ne_nil hdrop
    have htail : tail = tail.take 5 ++ c :: rest := by rw [← hrest, List.take_append_drop]
    have hlength : (tail.take 5).length = 5 := by
      simp only [List.length_cons] at h
      rw [List.length_take]
      omega
    refine ⟨a, b, tail.take 5, c, rest, by rw [← htail], hlength, fun T restart => ?_⟩
    have happend := @sampleSpans_append T restart [] (a :: b :: tail.take 5) (c :: rest)
      (by simp only [List.length_cons, List.length_nil, hlength]; omega)
    simp only [List.cons_append, List.nil_append, ← htail] at happend
    rw [happend, sampleSpans, if_neg (by simp [hlength]), if_pos (by simp [hlength])]
    rfl

end Samples

section Phases

variable {T : UInt64} {p : Phase} {ps : List Phase} {restart : Bool}

/-- What is shown of the samples of a phase in which no byte reaches its acknowledge: nothing, a cut
byte, or a byte that a START follows. -/
theorem Phase.Held.cases (h : p.Held restart) (hapart : p.samples.Pairwise (Apart T)) :
    (p.byteStart restart = none ∧
        (if p.opens then sampleSpans T restart [] p.samples else []) = []) ∨
      (∃ a ∈ p.samples, p.byteStart restart = some a ∧
        (if p.opens then sampleSpans T restart [] p.samples else []) = [slot T a false]) ∨
      ∃ a ∈ p.samples, ∃ c ∈ p.samples, p.byteStart restart = some a ∧ restart = true ∧ Apart T a c ∧
        (if p.opens then sampleSpans T restart [] p.samples else []) = [⟨a, c, false⟩] := by
  by_cases hopens : p.opens = true
  case neg => exact .inl ⟨by simp [byteStart, hopens], if_neg hopens⟩
  obtain ⟨hle, hfull⟩ := h hopens
  rw [if_pos hopens]
  by_cases hlt : p.samples.length < 8
  · rw [sampleSpans_of_lt hlt]
    cases restart with
    | true => exact .inl ⟨by simp [byteStart, hlt.ne], rfl⟩
    | false =>
      cases hsamples : p.samples with
      | nil => exact .inl ⟨by simp [byteStart, hsamples], rfl⟩
      | cons a tail =>
        exact .inr (.inl ⟨a, List.mem_cons_self, by simp [byteStart, hopens, hsamples], rfl⟩)
  · obtain ⟨a, b, middle, c, rest, hsamples, hmiddle, hspans⟩ := exists_byte (Nat.le_of_not_lt hlt)
    have hrest : rest = [] := by
      rw [hsamples] at hle
      simp only [List.length_cons, List.length_append, hmiddle] at hle
      exact List.length_eq_zero_iff.1 (by omega)
    have hrestart := hfull (by omega)
    have hac : Apart T a c := by
      rw [hsamples] at hapart
      exact (List.pairwise_cons.1 hapart).1 c (by simp)
    refine .inr (.inr ⟨a, by simp [hsamples], c, by simp [hsamples], ?_, hrestart, hac, ?_⟩)
    · rw [byteStart, if_pos ⟨hopens, .inr (by omega)⟩, hsamples]
      rfl
    · rw [hspans, hrest, hrestart]
      rfl

theorem exists_of_mem_head_spans {y : Span} (hy : y ∈ (spans T ps).head?) :
    ∃ q ∈ ps.head?, y = slot T q.time false := by
  cases ps with
  | nil => cases hy
  | cons q ps => exact ⟨q, rfl, (Option.some.inj hy).symm⟩

/-- Neighbours that are as expected do not hold a byte and its acknowledge, or a byte twice. -/
theorem held_of_isChain (hT : 0 < T) (hin : InTime T ps) (h : (spans T ps).IsChain (Span.Fits T)) :
    EachPhase Phase.Held ps := by
  induction ps with
  | nil => trivial
  | cons p ps ih =>
    obtain ⟨-, hbefore, -, hps⟩ := hin
    rw [spans, ← List.cons_append] at h
    refine ⟨fun hopens => ?_, ih hps h.right_of_append⟩
    have hbytes := (List.isChain_of_isChain_cons h.left_of_append)
    rw [if_pos hopens] at hbytes
    by_cases hlt : p.samples.length < 8
    · exact ⟨hlt.le, fun heq => absurd heq hlt.ne⟩
    obtain ⟨a, b, middle, c, rest, hsamples, hmiddle, hspans⟩ := exists_byte (Nat.le_of_not_lt hlt)
    have hapart := hbefore.apart
    rw [hsamples, List.pairwise_cons, List.pairwise_cons] at hapart
    obtain ⟨hab, hbc, hmore⟩ := hapart
    rw [hspans] at hbytes
    cases rest with
    | nil =>
      have hlength : p.samples.length = 8 := by simp [hsamples, hmiddle]
      refine ⟨hlength.le, fun _ => ?_⟩
      by_contra hstop
      -- the byte is shown again
      have hac : a < c := by
        have hle : Apart T a c := hab c (by simp)
        rw [UInt64.lt_iff_toNat_lt, UInt64.toNat_zero] at hT
        rw [Apart] at hle
        rw [UInt64.lt_iff_toNat_lt]
        omega
      rw [sampleSpans, if_neg hstop] at hbytes
      exact absurd (List.isChain_cons_cons.1 hbytes).1 (not_fits_self hac)
    | cons d rest =>
      -- the next sample is the acknowledge
      have hcd : Apart T c d := (List.pairwise_cons.1 (List.pairwise_append.1 hmore).2.1).1 d (by simp)
      rw [sampleSpans, if_pos (by simp [hmiddle])] at hbytes
      exact absurd (List.isChain_cons_cons.1 hbytes).1
        (not_fits_ack hT (hab b (by simp)) (hbc c (by simp)) hcd)

theorem map_start_spans (hin : InTime T ps) (h : EachPhase Phase.Held ps) :
    (spans T ps).map Span.start = tokenStarts ps := by
  induction ps with
  | nil => rfl
  | cons p ps ih =>
    obtain ⟨-, hbefore, -, hps⟩ := hin
    rw [spans, tokenStarts, List.map_cons, List.map_append, ih hps h.2]
    obtain ⟨hbyte, hspans⟩ | ⟨a, -, hbyte, hspans⟩ | ⟨a, -, c, -, hbyte, -, -, hspans⟩ :=
      h.1.cases hbefore.apart
    · rw [hbyte, hspans]
      rfl
    · rw [hbyte, hspans]
      rfl
    · rw [hbyte, hspans]
      rfl

/-- Two neighbours are as expected when the second one starts later, and clear of the first: a byte is
always clear of the START that follows it. -/
theorem isChain_fits_iff (hT : 0 < T) (hin : InTime T ps) (h : EachPhase Phase.Held ps) :
    (spans T ps).IsChain fun z next =>
      (z.Fits T next ↔ z.start < next.start ∧ Clear T z.start next.start) := by
  induction ps with
  | nil => exact List.IsChain.nil
  | cons p ps ih =>
    obtain ⟨-, hbefore, -, hps⟩ := hin
    have ih := ih hps h.2
    have hslot : ∀ a, ∀ y ∈ (spans T ps).head?,
        ((slot T a false).Fits T y ↔ a < y.start ∧ Clear T a y.start) := by
      intro a y hy
      obtain ⟨q, -, rfl⟩ := exists_of_mem_head_spans hy
      exact fits_slot_iff hT rfl
    rw [spans]
    obtain ⟨-, hspans⟩ | ⟨a, -, -, hspans⟩ | ⟨a, -, c, hc, -, -, hac, hspans⟩ :=
      h.1.cases hbefore.apart
    · rw [hspans]
      exact ih.cons (hslot p.time)
    · rw [hspans]
      exact List.isChain_cons_cons.2 ⟨fits_slot_iff hT rfl, ih.cons (hslot a)⟩
    · rw [hspans]
      refine List.isChain_cons_cons.2 ⟨fits_slot_iff hT rfl, ih.cons fun y hy => ?_⟩
      obtain ⟨q, hq, rfl⟩ := exists_of_mem_head_spans hy
      have hcq : c < q.time := hbefore.before q hq c hc
      rw [Apart] at hac
      rw [UInt64.lt_iff_toNat_lt] at hcq
      have hle : a ≤ c := by
        rw [UInt64.le_iff_toNat_le]
        omega
      have hlt : a < q.time := by
        rw [UInt64.lt_iff_toNat_lt]
        omega
      refine iff_of_true (fits_of_le hle (UInt64.le_iff_toNat_le.2 hcq.le) rfl) ⟨hlt, .inr ?_⟩
      show T ≤ q.time - a
      rw [UInt64.le_iff_toNat_le, UInt64.toNat_sub_of_le _ _ hlt.le]
      omega

/-- The last token is one clock period wide. -/
theorem end_of_mem_getLast_spans (hin : InTime T ps) (h : EachPhase Phase.Held ps) :
    ∀ z ∈ (spans T ps).getLast?, z.end_ = z.start + T := by
  induction ps with
  | nil => simp [spans]
  | cons p ps ih =>
    obtain ⟨-, hbefore, -, hps⟩ := hin
    intro z hz
    rw [spans, ← List.cons_append, List.getLast?_append] at hz
    cases hlast : (spans T ps).getLast? with
    | some y =>
      rw [hlast] at hz
      exact ih hps h.2 z (hlast ▸ hz)
    | none =>
      rw [hlast, Option.none_or] at hz
      have hnil : ps = [] := by
        cases ps with
        | nil => rfl
        | cons q ps => simp [spans] at hlast
      obtain ⟨-, hspans⟩ | ⟨a, -, -, hspans⟩ | ⟨a, -, c, -, -, hrestart, -, -⟩ :=
        h.1.cases hbefore.apart
      · rw [hspans] at hz
        rw [← Option.some.inj hz]
        rfl
      · rw [hspans] at hz
        rw [← Option.some.inj hz]
        rfl
      · simp [hnil, startsNext] at hrestart

/-- The tokens start one after the other when no byte starts at the time of its START. -/
theorem isChain_lt_iff (hin : InTime T ps) (h : EachPhase Phase.Held ps) :
    (tokenStarts ps).IsChain (· < ·) ↔ EachPhase Phase.Separate ps := by
  induction ps with
  | nil => exact iff_of_true List.IsChain.nil trivial
  | cons p ps ih =>
    obtain ⟨hle, hbefore, hlater, hps⟩ := hin
    have hnext : ∀ t, (∀ q ∈ ps.head?, t < q.time) → ∀ y ∈ (tokenStarts ps).head?, t < y := by
      intro t ht y hy
      cases ps with
      | nil => cases hy
      | cons q ps => exact Option.some.inj hy ▸ ht q rfl
    have hbyte : ∀ a ∈ p.samples, p.byteStart (startsNext ps) = some a →
        ((p.time :: ((p.byteStart (startsNext ps)).toList ++ tokenStarts ps)).IsChain (· < ·) ↔
          p.Separate (startsNext ps) ∧ EachPhase Phase.Separate ps) := by
      intro a ha hstart
      rw [Phase.Separate, hstart]
      show List.IsChain _ (p.time :: a :: tokenStarts ps) ↔ _
      rw [List.isChain_cons_cons, List.isChain_cons, ih hps h.2,
        and_iff_right (hnext a fun q hq => hbefore.before q hq a ha)]
      refine and_congr_left fun _ => ⟨?_, fun hne => lt_of_le_of_ne (hle a ha) (hne a rfl)⟩
      rintro hlt t ht
      exact Option.some.inj ht ▸ hlt.ne
    rw [tokenStarts, EachPhase]
    obtain ⟨hnone, -⟩ | ⟨a, ha, hstart, -⟩ | ⟨a, ha, c, -, hstart, -⟩ := h.1.cases hbefore.apart
    · rw [Phase.Separate, hnone]
      show List.IsChain _ (p.time :: tokenStarts ps) ↔ _
      rw [List.isChain_cons, ih hps h.2, and_iff_right (hnext p.time hlater)]
      simp
    · exact hbyte a ha hstart
    · exact hbyte a ha hstart

/-- The spans of phases are as expected exactly when nothing breaks them. -/
theorem unbroken_iff (hT : 0 < T) (hin : InTime T ps) :
    ((spans T ps).IsChain (Span.Fits T) ∧ ∀ w ∈ (spans T ps).getLast?, w.start ≤ w.end_) ↔
      Unbroken T ps := by
  have hboth : EachPhase Phase.Held ps →
      (((spans T ps).IsChain (Span.Fits T) ∧ ∀ w ∈ (spans T ps).getLast?, w.start ≤ w.end_) ↔
        (EachPhase Phase.Separate ps ∧ (tokenStarts ps).IsChain (Clear T)) ∧
          ∀ t ∈ (tokenStarts ps).getLast?, t.toNat + T.toNat < UInt64.size) := by
    intro h
    rw [isChain_congr (isChain_fits_iff hT hin h), ← isChain_lt_iff hin h, ← isChain_and_iff,
      ← map_start_spans hin h, List.isChain_map, List.getLast?_map]
    refine and_congr_right fun _ => ?_
    have hend := end_of_mem_getLast_spans hin h
    cases hlast : (spans T ps).getLast? with
    | none => simp
    | some z =>
      simp only [Option.mem_def, Option.map_some, Option.some.injEq, forall_eq']
      rw [hend z hlast, le_add_iff hT]
  constructor
  · intro hspans
    have h := held_of_isChain hT hin hspans.1
    obtain ⟨⟨hseparate, hclear⟩, hfits⟩ := (hboth h).1 hspans
    exact ⟨h, hseparate, hclear, hfits⟩
  · intro h
    exact (hboth h.held).2 ⟨⟨h.separate, h.clear⟩, h.fits⟩

end Phases

/-! ## The condition -/

/-- The spans of the tokens are ordered exactly when the bus does nothing that breaks them. -/
theorem spansOrdered_iff (s : I2cSettings) {lanes : List (Option BitLane)}
    (hinc : ∀ lane, some lane ∈ lanes → lane.Increasing) :
    (∀ row ∈ s.decode lanes, SpansOrdered row.words) ↔
      ∀ scl sda, lanes[SCL]? = some (some scl) → lanes[SDA]? = some (some sda) →
        Unbroken (clockPeriod scl) (phases (busEvents scl sda)).2 := by
  have hbus : ∀ scl sda : BitLane, lanes[SCL]? = some (some scl) → lanes[SDA]? = some (some sda) →
      (SpansOrdered (decodeBus s scl sda) ↔
        Unbroken (clockPeriod scl) (phases (busEvents scl sda)).2) := by
    intro scl sda hscl hsda
    have hscl := hinc scl (List.mem_of_getElem? hscl)
    have hsda := hinc sda (List.mem_of_getElem? hsda)
    rw [decodeBus, decodeEvents, spansOrdered_closeGaps_iff, map_spanOf_finish]
    exact unbroken_iff (clockPeriod_pos hscl) (inTime_phases (pairwise_ordered_busEvents hscl hsda)).2
  unfold I2cSettings.decode
  split
  next scl sda hscl hsda =>
    rw [List.forall_mem_singleton, hbus scl sda hscl hsda]
    constructor
    · intro h scl' sda' hscl' hsda'
      rw [hscl] at hscl'
      rw [hsda] at hsda'
      rw [← Option.some.inj (Option.some.inj hscl'), ← Option.some.inj (Option.some.inj hsda')]
      exact h
    · exact fun h => h scl sda hscl hsda
  next hnone =>
    rw [List.forall_mem_singleton]
    refine iff_of_true ⟨List.IsChain.nil, by simp, List.IsChain.nil⟩ fun scl sda hscl hsda => ?_
    exact (hnone scl sda hscl hsda).elim

/-- A START, a single bit and a STOP. -/
theorem spansOrdered_bitThenStop :
    bitThenStop.Increasing ∧ startZeroStop.Increasing ∧
      ∀ row ∈ I2cSettings.default.decode [some bitThenStop, some startZeroStop],
        SpansOrdered row.words := by
  have hinc : bitThenStop.Increasing ∧ startZeroStop.Increasing := by
    unfold BitLane.Increasing Timeline.Increasing
    decide
  have hphases : (phases (busEvents bitThenStop startZeroStop)).2
      = [⟨20, true, [35]⟩, ⟨60, false, []⟩] := by decide
  have hperiod : clockPeriod bitThenStop = 20 := by decide
  refine ⟨hinc.1, hinc.2, (spansOrdered_iff .default ?_).2 ?_⟩
  · simp [hinc]
  · intro scl sda hscl hsda
    obtain rfl : bitThenStop = scl := Option.some.inj (Option.some.inj hscl)
    obtain rfl : startZeroStop = sda := Option.some.inj (Option.some.inj hsda)
    rw [hphases, hperiod]
    exact
      { held := ⟨fun _ => ⟨by simp, by simp⟩, nofun, trivial⟩
        separate := ⟨by simp [Phase.Separate, Phase.byteStart, startsNext], nofun, trivial⟩
        clear := by decide
        fits := fun t ht => by
          obtain rfl : 60 = t := Option.some.inj ht
          decide }

/-- The bytes of a transaction do not run up to their acknowledges. -/
theorem not_spansOrdered_writeZero :
    writeZeroRecording.scl.Increasing ∧ writeZeroRecording.sda.Increasing ∧
      ¬ ∀ row ∈ I2cSettings.default.decode
          [some writeZeroRecording.scl, some writeZeroRecording.sda], SpansOrdered row.words := by
  have hinc : writeZeroRecording.scl.Increasing ∧ writeZeroRecording.sda.Increasing := by
    unfold BitLane.Increasing Timeline.Increasing
    decide
  refine ⟨hinc.1, hinc.2, fun h => ?_⟩
  have hmeets := (h _ (by rw [I2cSettings.decode_pair]; exact List.mem_singleton_self _)).meets
  revert hmeets
  decide

end Decoders.I2c
