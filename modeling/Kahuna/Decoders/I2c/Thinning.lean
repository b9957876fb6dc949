import Kahuna.Decoders.I2c.Accounting

/-!
# Dropping samples from an I2C bus

What the decoder shows when some samples of a bus are left out. A sample outside a transaction is not
looked at, and the bits before a repeated START are forgotten when they do not make a whole byte; any
other sample shows, in a byte, in an acknowledge or in the number of bits of a cut byte.

* `Forgotten`: a sample of which nothing is shown;
* `stamps_decodeEvents`: the texts of the words, with the times of the acknowledges;
* `decodeEvents_thin_iff`: leaving out samples changes nothing exactly when all of them are forgotten.
-/

namespace Decoders.I2c

/-! ## Leaving out samples -/

/-- Whether the event is a sample. -/
def Event.isSample : Event → Bool
  | sample _ => true
  | _ => false

/-- The events without the samples that are dropped. -/
def thin (drop : UInt64 → Bool) (events : List (UInt64 × Event)) : List (UInt64 × Event) :=
  events.filter fun e => !(e.2.isSample && drop e.1)

/-- No two samples are taken at the same time, and they are in time order. -/
def SamplesAscend (events : List (UInt64 × Event)) : Prop :=
  events.Pairwise fun a b => a.2.isSample = true → b.2.isSample = true → a.1 < b.1

/-- A repeated START comes before a byte in progress, of `n` bits, is followed by another bit than
those of the byte, or by a STOP. -/
def CutOff : ℕ → List Event → Prop
  | n, .start :: _ => n < 8
  | n, .sample _ :: rest => n < 8 ∧ CutOff (n + 1) rest
  | _, .stop :: _ => False
  | _, [] => False

/-- Nothing is shown of a sample that is taken outside a transaction, or is a bit of a byte that a
repeated START cuts off. -/
def Forgotten (fr : Frame) (rest : List Event) : Prop :=
  fr.opened = false ∨ CutOff (fr.latched.length + 1) rest

/-- All samples that are dropped are forgotten. -/
def AllForgotten (drop : UInt64 → Bool) (events : List (UInt64 × Event)) : Prop :=
  ∀ before t bit after, events = before ++ (t, .sample bit) :: after → drop t = true →
    Forgotten (framing.final .init (before.map Prod.snd)) (after.map Prod.snd)

/-- The same, from any framing state. -/
def AllForgottenFrom (drop : UInt64 → Bool) : Frame → List (UInt64 × Event) → Prop
  | _, [] => True
  | fr, (t, event) :: rest =>
    (event.isSample = true → drop t = true → Forgotten fr (rest.map Prod.snd)) ∧
      AllForgottenFrom drop (fr.step event).2 rest

variable {s : I2cSettings} {drop : UInt64 → Bool} {events rest : List (UInt64 × Event)}
  {t : UInt64} {bit : Bit}

@[simp] theorem thin_nil : thin drop [] = [] := rfl

@[simp] theorem thin_start : thin drop ((t, .start) :: rest) = (t, .start) :: thin drop rest := rfl

@[simp] theorem thin_stop : thin drop ((t, .stop) :: rest) = (t, .stop) :: thin drop rest := rfl

theorem thin_sample_of_drop (h : drop t = true) :
    thin drop ((t, .sample bit) :: rest) = thin drop rest := by
  rw [thin, List.filter_cons_of_neg (by simp [Event.isSample, h])]
  rfl

theorem thin_sample_of_keep (h : ¬ drop t = true) :
    thin drop ((t, .sample bit) :: rest) = (t, .sample bit) :: thin drop rest := by
  rw [thin, List.filter_cons_of_pos (by simp [Event.isSample, h])]
  rfl

theorem CutOff.lt {n : ℕ} {rest : List Event} (h : CutOff n rest) : n < 8 := by
  cases rest with
  | nil => exact h.elim
  | cons event rest =>
    cases event with
    | start => exact h
    | stop => exact h.elim
    | sample bit => exact h.1

/-- The two ways to say it agree. -/
theorem allForgottenFrom_iff (fr : Frame) :
    AllForgottenFrom drop fr events ↔
      ∀ before t bit after, events = before ++ (t, .sample bit) :: after → drop t = true →
        Forgotten (framing.final fr (before.map Prod.snd)) (after.map Prod.snd) := by
  induction events generalizing fr with
  | nil => simp [AllForgottenFrom]
  | cons e events ih =>
    obtain ⟨t, event⟩ := e
    rw [AllForgottenFrom, ih]
    constructor
    · rintro ⟨hhead, htail⟩ before u bit after heq hdrop
      cases before with
      | nil =>
        obtain ⟨hte, rfl⟩ := List.cons.inj heq
        obtain ⟨rfl, rfl⟩ := Prod.mk.inj hte
        exact hhead rfl hdrop
      | cons d before =>
        obtain ⟨rfl, hrest⟩ := List.cons.inj heq
        exact htail before u bit after hrest hdrop
    · intro h
      refine ⟨fun hsample hdrop => ?_, fun before u bit after heq => ?_⟩
      · cases event with
        | start => cases hsample
        | stop => cases hsample
        | sample bit => exact h [] t bit events rfl hdrop
      · exact h ((t, event) :: before) u bit after (by rw [heq]; rfl)

/-! ## What is shown, with the times of the acknowledges -/

/-- The text of a token, and the time of an acknowledge. -/
def Token.stamp (s : I2cSettings) (t : UInt64) (token : Token) : Option UInt64 × String :=
  (match token with
    | .ack _ => some t
    | _ => none, token.text s)

/-- The text of a word, and the time of an acknowledge. -/
def stamp (w : DecodedWord) : Option UInt64 × String :=
  (if w.text = "A" ∨ w.text = "N" then some w.start else none, w.text)

/-- The texts of the tokens from a framing state on, with the times of the acknowledges. -/
def stamps (s : I2cSettings) : Frame → List (UInt64 × Event) → List (Option UInt64 × String)
  | fr, [] => fr.closing.map (Token.stamp s 0)
  | fr, (t, event) :: rest =>
    (fr.step event).1.map (Token.stamp s t) ++ stamps s (fr.step event).2 rest

theorem map_stamp_closeGaps (clockPeriod : UInt64) (words : List DecodedWord) :
    (closeGaps clockPeriod words).map stamp = words.map stamp := by
  induction words using closeGaps.induct with
  | case1 => rfl
  | case2 w => rfl
  | case3 w next rest ih =>
    rw [closeGaps, List.map_cons, ih]
    split <;> rfl

theorem stamp_of_ne {w : DecodedWord} (h : ¬ (w.text = "A" ∨ w.text = "N")) :
    stamp w = (none, w.text) := by rw [stamp, if_neg h]

theorem cutText_ne {n : ℕ} (h : n ≤ 8) : ¬ (cutText n = "A" ∨ cutText n = "N") := by
  have hall : ∀ n ≤ 8, ¬ (cutText n = "A" ∨ cutText n = "N") := by decide
  exact hall n h

theorem byte_text_ne (s : I2cSettings) (isAddress : Bool) {latched : List Bit}
    (h : latched.length = 8) :
    ¬ ((Token.byte isAddress latched).text s = "A" ∨ (Token.byte isAddress latched).text s = "N") := by
  have hnot := byte_text_notMem_fixedTexts s isAddress h
  rintro (heq | heq)
  · exact hnot (heq ▸ by decide)
  · exact hnot (heq ▸ by decide)

/-- The text the loop writes for a byte is that of its token. -/
theorem AccHolds.byteText_eq {acc : UInt64} {latched : List Bit} (h : AccHolds acc latched)
    (hlen : latched.length = 8) (s : I2cSettings) (isAddress : Bool) :
    I2c.byteText s isAddress acc = (Token.byte isAddress latched).text s := by
  rw [h.byteText hlen, Token.text, Token.render]
  split <;> rfl

/-- The word pushed for a byte in progress. -/
theorem Simulates.stamps_closing {st : DecodeState} {fr : Frame} (h : Simulates st fr)
    (s : I2cSettings) (clockPeriod t : UInt64) :
    (if 0 < st.bits then push clockPeriod st.words st.byteStart (cutText st.bits) .error
      else st.words).map stamp = st.words.map stamp ++ fr.closing.map (Token.stamp s t) := by
  rw [Frame.closing, h.bits]
  split
  · rw [push, List.map_append, List.map_singleton, stamp_of_ne (cutText_ne h.wellFormed.length_le)]
    rfl
  · simp

/-- One pass of the loop shows the tokens of the event. -/
theorem Simulates.stamps_step {st : DecodeState} {fr : Frame} (h : Simulates st fr)
    (s : I2cSettings) (clockPeriod t : UInt64) (event : Event) :
    (I2c.step s clockPeriod st (t, event)).words.map stamp
      = st.words.map stamp ++ (fr.step event).1.map (Token.stamp s t) := by
  cases event with
  | start =>
    simp only [I2c.step, Frame.step, push, List.map_append, List.map_singleton, h.opened]
    cases fr.opened <;> rfl
  | stop =>
    simp only [I2c.step, Frame.step, List.map_append, ← List.append_assoc,
      ← h.stamps_closing s clockPeriod t]
    rw [push, List.map_append]
    rfl
  | sample bit =>
    by_cases hopen : fr.opened = true
    case neg =>
      have hst : ¬ st.inTransaction = true := by rwa [h.opened]
      simp [I2c.step, Frame.step, hopen, hst]
    have hst : st.inTransaction = true := h.opened.trans hopen
    by_cases hfull : fr.latched.length = 8
    · have hbits : st.bits = 8 := h.bits.trans hfull
      simp only [I2c.step, Frame.step, hst, hopen, hbits, hfull, not_true, if_false, if_true, push,
        List.map_append, List.map_singleton]
      by_cases hbit : bit = .zero <;> simp [stamp, Token.stamp, Token.text, Token.render, hbit]
    · have hlen : fr.latched.length < 8 := by have := h.wellFormed.length_le; omega
      have hbits : ¬ st.bits = 8 := by rwa [h.bits]
      have hacc := h.acc.latch hlen bit
      simp only [I2c.step, Frame.step, hst, hopen, hfull, hbits, not_true, if_false]
      by_cases hlast : fr.latched.length + 1 = 8
      · have hlen' : (fr.latched ++ [bit]).length = 8 := by simpa using hlast
        have hbits' : st.bits + 1 = 8 := by rw [h.bits, hlast]
        have htext := hacc.byteText_eq hlen' s fr.expectAddress
        simp only [hlen', hbits', if_true, List.map_append, List.map_singleton, h.expectAddress, htext]
        rw [stamp_of_ne (byte_text_ne s fr.expectAddress hlen')]
        rfl
      · have hlen' : ¬ (fr.latched ++ [bit]).length = 8 := by simpa using hlast
        have hbits' : ¬ st.bits + 1 = 8 := by rwa [h.bits]
        simp [hlast, hbits']

/-- The words of the decoder carry the texts of the tokens, and start at the acknowledges. -/
theorem stamps_decodeEvents (s : I2cSettings) (clockPeriod : UInt64)
    (events : List (UInt64 × Event)) :
    (decodeEvents s clockPeriod events).map stamp = stamps s .init events := by
  have hfold : ∀ (events : List (UInt64 × Event)) (st : DecodeState) (fr : Frame),
      Simulates st fr →
      (finish clockPeriod (events.foldl (I2c.step s clockPeriod) st)).map stamp
        = st.words.map stamp ++ stamps s fr events := by
    intro events
    induction events with
    | nil =>
      intro st fr h
      exact h.stamps_closing s clockPeriod 0
    | cons e rest ih =>
      intro st fr h
      rw [List.foldl_cons, ih _ _ (h.step s clockPeriod e.1 e.2).2, stamps,
        h.stamps_step s clockPeriod, List.append_assoc]
  rw [decodeEvents, map_stamp_closeGaps, hfold events _ _ simulates_init]
  rfl

/-! ## A dropped sample shows unless it is forgotten -/

/-- Acknowledges are stamped with the times of samples. -/
theorem exists_sample_of_stamp {fr : Frame} {u : UInt64} {text : String}
    (h : (some u, text) ∈ stamps s fr events) : ∃ bit, (u, Event.sample bit) ∈ events := by
  induction events generalizing fr with
  | nil =>
    simp only [stamps, Frame.closing] at h
    split at h
    · simp [Token.stamp] at h
    · simp at h
  | cons e rest ih =>
    obtain ⟨t, event⟩ := e
    rw [stamps, List.mem_append] at h
    rcases h with h | h
    · obtain ⟨token, htoken, hstamp⟩ := List.mem_map.1 h
      -- only a sample is followed by an acknowledge
      cases token with
      | ack bit =>
        obtain rfl : t = u := Option.some.inj (congrArg Prod.fst hstamp)
        cases event with
        | start => simp [Frame.step] at htoken
        | stop =>
          simp only [Frame.step, Frame.closing] at htoken
          split at htoken <;> simp at htoken
        | sample bit => exact ⟨bit, List.mem_cons_self⟩
      | start repeated => cases congrArg Prod.fst hstamp
      | stop => cases congrArg Prod.fst hstamp
      | byte isAddress latched => cases congrArg Prod.fst hstamp
      | cut bits => cases congrArg Prod.fst hstamp
    · obtain ⟨bit, hmem⟩ := ih h
      exact ⟨bit, List.mem_cons_of_mem _ hmem⟩

theorem mem_of_mem_thin {e : UInt64 × Event} (h : e ∈ thin drop events) : e ∈ events :=
  (List.mem_filter.1 h).1

/-- A sample is not taken again. -/
theorem SamplesAscend.notMem (h : SamplesAscend ((t, .sample bit) :: rest)) (bit' : Bit) :
    (t, Event.sample bit') ∉ rest := fun hmem =>
  absurd ((List.pairwise_cons.1 h).1 _ hmem rfl rfl) (lt_irrefl t)

/-- A sample that comes next in a transaction, when it is no acknowledge. -/
theorem Frame.step_latch {fr : Frame} (hopen : fr.opened = true) (hlen : fr.latched.length < 8) :
    fr.step (.sample bit) =
      (if fr.latched.length + 1 = 8 then [.byte fr.expectAddress (fr.latched ++ [bit])] else [],
        { fr with latched := fr.latched ++ [bit] }) := by
  simp [Frame.step, hopen, hlen.ne]

/-- A bus that has latched a whole byte, and one that is behind, show different texts: the first
shows the byte, and its acknowledge at a time at which the second shows none. -/
theorem byte_cons_stamps_ne {fr fr' : Frame} {text : String} (hascend : SamplesAscend events)
    (hopen : fr.opened = true) (hfull : fr.latched.length = 8) (hopen' : fr'.opened = true)
    (hlen' : fr'.latched.length < 8) (htext : text ∉ fixedTexts) :
    (none, text) :: stamps s fr events ≠ stamps s fr' (thin drop events) := by
  intro heq
  -- the first text of the second bus is none that is fixed
  have hhead : ∀ stamped rest, stamps s fr' (thin drop events) = stamped :: rest →
      stamped.2 ∉ fixedTexts := by
    intro stamped rest hcons
    rw [← heq] at hcons
    rw [← (List.cons.inj hcons).1]
    exact htext
  have hclosing : ∀ token ∈ fr'.closing, token.text s ∈ fixedTexts := by
    intro token htoken
    rw [Frame.closing] at htoken
    split at htoken
    · have hall : ∀ n < 8, cutText n ∈ fixedTexts := by decide
      rw [List.mem_singleton.1 htoken]
      exact hall _ hlen'
    · cases htoken
  cases events with
  | nil =>
    simp only [thin_nil, stamps] at hhead heq
    cases hcut : fr'.closing with
    | nil => simp [hcut] at heq
    | cons token rest =>
      exact hhead _ _ (by rw [hcut]; rfl) (hclosing token (by simp [hcut]))
  | cons e rest =>
    obtain ⟨t, event⟩ := e
    cases event with
    | start =>
      rw [thin_start, stamps] at hhead
      refine hhead _ _ rfl ?_
      rw [hopen']
      show "Sr" ∈ fixedTexts
      decide
    | stop =>
      rw [thin_stop, stamps] at hhead
      cases hcut : fr'.closing with
      | nil =>
        refine hhead (Token.stamp s t .stop) _ (by simp only [Frame.step, hcut]; rfl) ?_
        show "P" ∈ fixedTexts
        decide
      | cons token tokens =>
        exact hhead (Token.stamp s t token) _ (by simp only [Frame.step, hcut]; rfl)
          (hclosing token (by simp [hcut]))
    | sample bit =>
      -- the acknowledge of the first bus
      have hack : (some t, (Token.ack bit).text s) ∈ stamps s fr ((t, .sample bit) :: rest) := by
        rw [stamps]
        refine List.mem_append_left _ ?_
        simp [Frame.step, hopen, hfull, Token.stamp]
      have hmem : (some t, (Token.ack bit).text s) ∈ stamps s fr' (thin drop ((t, .sample bit) :: rest)) :=
        heq ▸ List.mem_cons_of_mem _ hack
      have hlater : ∀ fr, (some t, (Token.ack bit).text s) ∉ stamps s fr (thin drop rest) := by
        intro fr hmem
        obtain ⟨bit', hmem⟩ := exists_sample_of_stamp hmem
        exact hascend.notMem bit' (mem_of_mem_thin hmem)
      by_cases hdrop : drop t = true
      · rw [thin_sample_of_drop hdrop] at hmem
        exact hlater fr' hmem
      · rw [thin_sample_of_keep hdrop, stamps, Frame.step_latch hopen' hlen', List.mem_append] at hmem
        rcases hmem with hmem | hmem
        · split at hmem
          · simp [Token.stamp] at hmem
          · simp at hmem
        · exact hlater _ hmem

/-- Bytes in progress of different lengths show. -/
theorem closing_append_ne {fr fr' : Frame} {t : UInt64} {tail tail' : List (Option UInt64 × String)}
    (hlt : fr'.latched.length < fr.latched.length) (hlen : fr.latched.length < 8)
    (htail : ∀ stamped ∈ tail'.head?, stamped.2 = "P") :
    fr.closing.map (Token.stamp s t) ++ tail ≠ fr'.closing.map (Token.stamp s t) ++ tail' := by
  have hcut : ∀ i < 8, cutText i ≠ "P" ∧ ∀ j < i, cutText i ≠ cutText j := by decide
  obtain ⟨hstop, hne⟩ := hcut _ hlen
  intro heq
  rw [Frame.closing, if_pos (Nat.zero_lt_of_lt hlt), Frame.closing] at heq
  split at heq
  · exact hne _ hlt (congrArg Prod.snd (List.cons.inj heq).1)
  · cases tail' with
    | nil => simp at heq
    | cons stamped rest =>
      have hhead := congrArg Prod.snd (List.cons.inj heq).1
      exact hstop (hhead.trans (htail stamped rfl))

/-- From one framing state, and from two states of which the second has fewer bits of the same byte:
buses that show the same differ by forgotten samples only. -/
theorem allForgottenFrom_of_stamps_eq (s : I2cSettings) (drop : UInt64 → Bool)
    (hascend : SamplesAscend events) :
    (∀ fr : Frame, fr.WellFormed → stamps s fr events = stamps s fr (thin drop events) →
      AllForgottenFrom drop fr events) ∧
    (∀ fr fr' : Frame, fr.WellFormed → fr.opened = true → fr'.opened = true →
      fr'.latched.length < fr.latched.length → fr.latched.length < 8 →
      stamps s fr events = stamps s fr' (thin drop events) →
      CutOff fr.latched.length (events.map Prod.snd) ∧ AllForgottenFrom drop fr events) := by
  induction events with
  | nil =>
    refine ⟨fun _ _ _ => trivial, fun fr fr' _ _ _ hlt hlen heq => ?_⟩
    have hne := @closing_append_ne s fr fr' 0 [] [] hlt hlen (by simp)
    rw [List.append_nil, List.append_nil] at hne
    exact absurd heq hne
  | cons e rest ih =>
    obtain ⟨t, event⟩ := e
    obtain ⟨hsame, hbehind⟩ := ih (List.pairwise_cons.1 hascend).2
    constructor
    · intro fr hwf heq
      have hwf' := hwf.step event
      cases event with
      | start =>
        rw [thin_start, stamps, stamps] at heq
        exact ⟨nofun, hsame _ hwf' (List.append_cancel_left heq)⟩
      | stop =>
        rw [thin_stop, stamps, stamps] at heq
        exact ⟨nofun, hsame _ hwf' (List.append_cancel_left heq)⟩
      | sample bit =>
        by_cases hdrop : drop t = true
        case neg =>
          rw [thin_sample_of_keep hdrop, stamps, stamps] at heq
          exact ⟨fun _ h => absurd h hdrop, hsame _ hwf' (List.append_cancel_left heq)⟩
        rw [thin_sample_of_drop hdrop, stamps] at heq
        by_cases hopen : fr.opened = true
        case neg =>
          have hstep : fr.step (.sample bit) = ([], fr) := by simp [Frame.step, hopen]
          rw [AllForgottenFrom, hstep]
          rw [hstep] at heq
          exact ⟨fun _ _ => .inl (by simpa using hopen), hsame fr hwf heq⟩
        by_cases hfull : fr.latched.length = 8
        · -- the acknowledge shows
          have hack : (some t, (Token.ack bit).text s) ∈ stamps s fr (thin drop rest) := by
            rw [← heq]
            refine List.mem_append_left _ ?_
            simp [Frame.step, hopen, hfull, Token.stamp]
          obtain ⟨bit', hmem⟩ := exists_sample_of_stamp hack
          exact absurd (mem_of_mem_thin hmem) (hascend.notMem bit')
        · have hlen : fr.latched.length < 8 := by have := hwf.length_le; omega
          have hlatched : (fr.latched ++ [bit]).length = fr.latched.length + 1 := by simp
          rw [Frame.step_latch hopen hlen] at heq hwf'
          rw [AllForgottenFrom, Frame.step_latch hopen hlen]
          by_cases hlast : fr.latched.length + 1 = 8
          · -- so does the byte that the bit completes
            rw [if_pos hlast] at heq
            refine absurd heq (byte_cons_stamps_ne (List.pairwise_cons.1 hascend).2 hopen ?_ hopen hlen
              (byte_text_notMem_fixedTexts s _ (hlatched.trans hlast)))
            exact hlatched.trans hlast
          · rw [if_neg hlast] at heq
            obtain ⟨hcut, hall⟩ := hbehind _ fr hwf' hopen hopen (by simp)
              (by show (fr.latched ++ [bit]).length < 8; omega) heq
            exact ⟨fun _ _ => .inr (hlatched ▸ hcut), hall⟩
    · intro fr fr' hwf hopen hopen' hlt hlen heq
      have hwf' := hwf.step event
      cases event with
      | start =>
        rw [thin_start, stamps, stamps, Frame.step, Frame.step, hopen, hopen'] at heq
        exact ⟨hlen, nofun, hsame _ hwf' (List.append_cancel_left heq)⟩
      | stop =>
        rw [thin_stop, stamps, stamps] at heq
        simp only [Frame.step, List.map_append, List.append_assoc] at heq
        exact absurd heq (closing_append_ne hlt hlen fun stamped hhead => by
          obtain rfl : Token.stamp s t .stop = stamped := Option.some.inj hhead
          rfl)
      | sample bit =>
        have hlatched : (fr.latched ++ [bit]).length = fr.latched.length + 1 := by simp
        have hlatched' : (fr'.latched ++ [bit]).length = fr'.latched.length + 1 := by simp
        -- the state behind goes on with the bit or without it, and stays behind
        obtain ⟨fr'', hopen'', hlt'', hthin⟩ : ∃ fr'' : Frame, fr''.opened = true ∧
            fr''.latched.length < fr.latched.length + 1 ∧
            stamps s fr' (thin drop ((t, .sample bit) :: rest)) = stamps s fr'' (thin drop rest) := by
          by_cases hdrop : drop t = true
          · exact ⟨fr', hopen', by omega, by rw [thin_sample_of_drop hdrop]⟩
          · refine ⟨{ fr' with latched := fr'.latched ++ [bit] }, hopen', by rw [hlatched']; omega, ?_⟩
            rw [thin_sample_of_keep hdrop, stamps, Frame.step_latch hopen' (by omega),
              if_neg (by omega)]
            rfl
        rw [hthin, stamps, Frame.step_latch hopen hlen] at heq
        rw [Frame.step_latch hopen hlen] at hwf'
        rw [AllForgottenFrom, Frame.step_latch hopen hlen]
        by_cases hlast : fr.latched.length + 1 = 8
        · rw [if_pos hlast] at heq
          refine absurd heq (byte_cons_stamps_ne (List.pairwise_cons.1 hascend).2 hopen ?_ hopen''
            (by omega) (byte_text_notMem_fixedTexts s _ (hlatched.trans hlast)))
          exact hlatched.trans hlast
        · rw [if_neg hlast] at heq
          obtain ⟨hcut, hall⟩ := hbehind _ fr'' hwf' hopen hopen'' (by rw [hlatched]; exact hlt'')
            (by show (fr.latched ++ [bit]).length < 8; omega) heq
          have hcut' : CutOff (fr.latched.length + 1) (rest.map Prod.snd) := hlatched ▸ hcut
          exact ⟨⟨hlen, hcut'⟩, fun _ _ => .inr hcut', hall⟩

/-! ## Forgotten samples do not show -/

/-- The same loop variables, up to a start that is not looked at before it is set. -/
structure Agree (st st' : DecodeState) : Prop where
  words : st.words = st'.words
  inTransaction : st.inTransaction = st'.inTransaction
  bits : st.bits = st'.bits
  acc : st.acc = st'.acc
  expectAddress : st.expectAddress = st'.expectAddress
  byteStart : 0 < st.bits → st.byteStart = st'.byteStart

/-- Loop variables inside a byte that is going to be cut off. -/
structure Doomed (st st' : DecodeState) : Prop where
  words : st.words = st'.words
  opened : st.inTransaction = true
  opened' : st'.inTransaction = true
  bits_le : st'.bits ≤ st.bits
  expectAddress : st.expectAddress = st'.expectAddress

section Loop

variable {st st' : DecodeState} {clockPeriod : UInt64}

theorem Agree.step (h : Agree st st') (s : I2cSettings) (clockPeriod : UInt64)
    (e : UInt64 × Event) : Agree (I2c.step s clockPeriod st e) (I2c.step s clockPeriod st' e) := by
  obtain ⟨words, opened, bits, acc, byteStart, expectAddress⟩ := st
  obtain ⟨words', opened', bits', acc', byteStart', expectAddress'⟩ := st'
  obtain ⟨hwords, hopened, hbits, hacc, haddress, hstart⟩ := h
  simp only at hwords hopened hbits hacc haddress hstart
  subst hwords hopened hbits hacc haddress
  obtain ⟨t, event⟩ := e
  cases event with
  | start => exact ⟨rfl, rfl, rfl, rfl, rfl, fun h => (Nat.lt_irrefl 0 h).elim⟩
  | stop =>
    refine ⟨?_, rfl, rfl, rfl, rfl, fun h => (Nat.lt_irrefl 0 h).elim⟩
    by_cases hpos : 0 < bits
    · simp [I2c.step, hpos, hstart hpos]
    · simp [I2c.step, hpos]
  | sample bit =>
    by_cases hopen : opened = true
    case neg =>
      simp only [I2c.step, hopen]
      exact ⟨rfl, rfl, rfl, rfl, rfl, hstart⟩
    by_cases hfull : bits = 8
    · simp only [I2c.step, hopen, hfull]
      exact ⟨rfl, rfl, rfl, rfl, rfl, fun h => (Nat.lt_irrefl 0 h).elim⟩
    · have hbyte : (if bits = 0 then t else byteStart) = if bits = 0 then t else byteStart' := by
        by_cases hzero : bits = 0
        · rw [if_pos hzero, if_pos hzero]
        · rw [if_neg hzero, if_neg hzero, hstart (Nat.pos_of_ne_zero hzero)]
      simp only [I2c.step, hopen, hfull, hbyte]
      exact ⟨rfl, rfl, rfl, rfl, rfl, fun _ => rfl⟩

theorem Agree.finish (h : Agree st st') : finish clockPeriod st = finish clockPeriod st' := by
  rw [I2c.finish, I2c.finish, h.words, h.bits]
  by_cases hpos : 0 < st'.bits
  · rw [if_pos hpos, if_pos hpos, h.byteStart (h.bits ▸ hpos)]
  · rw [if_neg hpos, if_neg hpos]

/-- A bit that does not complete a byte is latched and not shown. -/
theorem step_latch (s : I2cSettings) (clockPeriod t : UInt64) (bit : Bit)
    (hopen : st.inTransaction = true) (hbits : st.bits + 1 < 8) :
    (I2c.step s clockPeriod st (t, .sample bit)).words = st.words ∧
      (I2c.step s clockPeriod st (t, .sample bit)).inTransaction = true ∧
      (I2c.step s clockPeriod st (t, .sample bit)).bits = st.bits + 1 ∧
      (I2c.step s clockPeriod st (t, .sample bit)).expectAddress = st.expectAddress := by
  have hfull : ¬ st.bits = 8 := by omega
  have hlast : ¬ st.bits + 1 = 8 := by omega
  simp [I2c.step, hopen, hfull, hlast]

/-- The second of two states in a byte that is going to be cut off may miss the next bit. -/
theorem Doomed.step (h : Doomed st st') (s : I2cSettings) (clockPeriod t : UInt64) (bit : Bit)
    (hbits : st.bits + 1 < 8) :
    Doomed (I2c.step s clockPeriod st (t, .sample bit)) st' ∧
      Doomed (I2c.step s clockPeriod st (t, .sample bit))
        (I2c.step s clockPeriod st' (t, .sample bit)) := by
  have hle := h.bits_le
  obtain ⟨hwords, hopened, hnext, haddress⟩ := step_latch s clockPeriod t bit h.opened hbits
  obtain ⟨hwords', hopened', hnext', haddress'⟩ :=
    step_latch s clockPeriod t bit h.opened' (by omega)
  constructor
  · exact
      { words := hwords.trans h.words
        opened := hopened
        opened' := h.opened'
        bits_le := by omega
        expectAddress := haddress.trans h.expectAddress }
  · exact
      { words := (hwords.trans h.words).trans hwords'.symm
        opened := hopened
        opened' := hopened'
        bits_le := by omega
        expectAddress := (haddress.trans h.expectAddress).trans haddress'.symm }

end Loop

/-- Without samples that are forgotten, the words are the same. -/
theorem finish_foldl_thin (s : I2cSettings) (clockPeriod : UInt64) (drop : UInt64 → Bool)
    (events : List (UInt64 × Event)) :
    (∀ (st st' : DecodeState) (fr : Frame), Agree st st' → Simulates st fr →
      AllForgottenFrom drop fr events →
        finish clockPeriod (events.foldl (I2c.step s clockPeriod) st)
          = finish clockPeriod ((thin drop events).foldl (I2c.step s clockPeriod) st')) ∧
    (∀ (st st' : DecodeState) (fr : Frame), Doomed st st' → Simulates st fr →
      CutOff fr.latched.length (events.map Prod.snd) → AllForgottenFrom drop fr events →
        finish clockPeriod (events.foldl (I2c.step s clockPeriod) st)
          = finish clockPeriod ((thin drop events).foldl (I2c.step s clockPeriod) st')) := by
  induction events with
  | nil => exact ⟨fun st st' fr hagree _ _ => hagree.finish, fun st st' fr _ _ hcut _ => hcut.elim⟩
  | cons e rest ih =>
    obtain ⟨t, event⟩ := e
    obtain ⟨hagrees, hdooms⟩ := ih
    constructor
    · intro st st' fr hagree hsim hall
      obtain ⟨-, hsim'⟩ := hsim.step s clockPeriod t event
      have hnext := hagrees _ _ _ (hagree.step s clockPeriod (t, event)) hsim' hall.2
      cases event with
      | start => exact hnext
      | stop => exact hnext
      | sample bit =>
        by_cases hdrop : drop t = true
        case neg =>
          rw [thin_sample_of_keep hdrop]
          exact hnext
        rw [thin_sample_of_drop hdrop, List.foldl_cons]
        by_cases hopen : fr.opened = true
        case neg =>
          -- the sample is not looked at
          have hst : ¬ st.inTransaction = true := by simpa [hsim.opened] using hopen
          have hstep : I2c.step s clockPeriod st (t, .sample bit) = st := by simp [I2c.step, hst]
          have hframe : fr.step (.sample bit) = ([], fr) := by simp [Frame.step, hopen]
          rw [AllForgottenFrom, hframe] at hall
          rw [hstep]
          exact hagrees st st' fr hagree hsim hall.2
        -- the byte it belongs to is cut off
        have hcut := (hall.1 rfl hdrop).resolve_left (by simp [hopen])
        have hst : st.inTransaction = true := hsim.opened.trans hopen
        have hdoomed : Doomed st st' :=
          ⟨hagree.words, hst, hagree.inTransaction ▸ hst, hagree.bits.ge, hagree.expectAddress⟩
        have hbits : st.bits + 1 < 8 := by rw [hsim.bits]; exact hcut.lt
        refine hdooms _ st' _ (hdoomed.step s clockPeriod t bit hbits).1 hsim' ?_ hall.2
        rw [Frame.step_latch hopen (Nat.lt_of_succ_lt hcut.lt)]
        simpa using hcut
    · intro st st' fr hdoomed hsim hcut hall
      obtain ⟨-, hsim'⟩ := hsim.step s clockPeriod t event
      cases event with
      | start =>
        have hagree : Agree (I2c.step s clockPeriod st (t, .start))
            (I2c.step s clockPeriod st' (t, .start)) := by
          refine ⟨?_, rfl, rfl, rfl, rfl, fun h => (Nat.lt_irrefl 0 h).elim⟩
          simp only [I2c.step, hdoomed.words, hdoomed.opened, hdoomed.opened']
        exact hagrees _ _ _ hagree hsim' hall.2
      | stop => exact hcut.elim
      | sample bit =>
        have hopen : fr.opened = true := hsim.opened.symm.trans hdoomed.opened
        have hlen := hcut.2.lt
        have hbits : st.bits + 1 < 8 := by rw [hsim.bits]; exact hlen
        obtain ⟨hmissed, hlatched⟩ := hdoomed.step s clockPeriod t bit hbits
        have hcut' : CutOff (fr.step (.sample bit)).2.latched.length (rest.map Prod.snd) := by
          rw [Frame.step_latch hopen hcut.1]
          simpa using hcut.2
        by_cases hdrop : drop t = true
        · rw [thin_sample_of_drop hdrop]
          exact hdooms _ _ _ hmissed hsim' hcut' hall.2
        · rw [thin_sample_of_keep hdrop]
          exact hdooms _ _ _ hlatched hsim' hcut' hall.2

/-- Leaving out samples changes nothing exactly when all of them are forgotten. -/
theorem decodeEvents_thin_iff (s : I2cSettings) (clockPeriod : UInt64) (drop : UInt64 → Bool)
    {events : List (UInt64 × Event)} (hascend : SamplesAscend events) :
    decodeEvents s clockPeriod (thin drop events) = decodeEvents s clockPeriod events ↔
      AllForgotten drop events := by
  rw [AllForgotten, ← allForgottenFrom_iff]
  constructor
  · intro heq
    refine (allForgottenFrom_of_stamps_eq s drop hascend).1 .init Frame.wellFormed_init ?_
    rw [← stamps_decodeEvents s clockPeriod, ← stamps_decodeEvents s clockPeriod, heq]
  · intro hall
    have hagree : Agree .init .init := ⟨rfl, rfl, rfl, rfl, rfl, fun _ => rfl⟩
    rw [decodeEvents, decodeEvents,
      (finish_foldl_thin s clockPeriod drop events).1 _ _ _ hagree simulates_init hall]

end Decoders.I2c
