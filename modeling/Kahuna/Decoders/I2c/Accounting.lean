import Kahuna.Decoders.I2c.Framing

/-!
# I2C bit accounting

Every sample taken inside a transaction should be accounted for by one token: a byte token for
eight, an acknowledge for one, a cut byte for the bits it reports. The books are kept per stretch,
the part of a trace from a START to the next START, the STOP or the end of the trace.

* `BitAccounting`: in every stretch the tokens account for exactly the samples;
* `bitAccounting_iff`: the decoder keeps the books exactly when no repeated START interrupts a byte
  and no STOP or end of trace falls between a byte and its acknowledge.
-/

namespace Decoders.I2c

/-! ## The books -/

/-- The number of samples a word accounts for, read off its text. -/
def samplesAccounted (text : String) : ℕ :=
  if text = "S" ∨ text = "Sr" ∨ text = "P" then 0
  else if text = "A" ∨ text = "N" then 1
  else ((List.range 9).find? (fun bits => text = cutText bits)).getD 8

/-- The samples accounted for by the texts after each START token, up to the next START token. The
first argument holds what the open account has so far. -/
def accountedPerStart : Option ℕ → List String → List ℕ
  | account, [] => account.toList
  | account, text :: rest =>
    if text = "S" ∨ text = "Sr" then account.toList ++ accountedPerStart (some 0) rest
    else accountedPerStart (account.map (· + samplesAccounted text)) rest

/-- What ends a stretch. -/
inductive Close where
  | restart
  | stop
  | traceEnd
  deriving DecidableEq, Repr

/-- A stretch of an open transaction: how many samples it takes and what ends it. -/
structure Stretch where
  samples : ℕ
  close : Close
  deriving DecidableEq, Repr

/-- The stretches of an event sequence. The first argument holds the samples of the open stretch, if
a transaction is open. -/
def stretches : Option ℕ → List Event → List Stretch
  | none, [] => []
  | some n, [] => [⟨n, .traceEnd⟩]
  | none, .start :: rest => stretches (some 0) rest
  | some n, .start :: rest => ⟨n, .restart⟩ :: stretches (some 0) rest
  | none, .stop :: rest => stretches none rest
  | some n, .stop :: rest => ⟨n, .stop⟩ :: stretches none rest
  | none, .sample _ :: rest => stretches none rest
  | some n, .sample _ :: rest => stretches (some (n + 1)) rest

/-- In every stretch of the bus the tokens account for exactly the samples taken in it. -/
def BitAccounting (s : I2cSettings) (scl sda : BitLane) : Prop :=
  accountedPerStart none ((decodeBus s scl sda).map DecodedWord.text)
    = (stretches none ((busEvents scl sda).map Prod.snd)).map Stretch.samples

/-- Of nine samples, eight make a byte and the ninth is its acknowledge. A repeated START finds the
books closed at a byte boundary or before an acknowledge, a STOP or the end of the trace anywhere
but before an acknowledge. -/
def Stretch.Closes (stretch : Stretch) : Prop :=
  match stretch.close with
  | .restart => stretch.samples % 9 = 0 ∨ stretch.samples % 9 = 8
  | .stop | .traceEnd => stretch.samples % 9 ≠ 8

/-! ## Texts -/

/-- The samples a token accounts for. -/
def Token.samples : Token → ℕ
  | .start _ | .stop => 0
  | .byte .. => 8
  | .ack _ => 1
  | .cut bits => bits

/-- The texts of the tokens that are no bytes. -/
def fixedTexts : List String :=
  ["S", "Sr", "P", "A", "N"] ++ (List.range 9).map cutText

theorem samplesAccounted_of_notMem {text : String} (h : text ∉ fixedTexts) :
    samplesAccounted text = 8 := by
  simp only [fixedTexts, List.mem_append, List.mem_cons, List.mem_map, not_or] at h
  obtain ⟨⟨hS, hSr, hP, hA, hN, -⟩, hcut⟩ := h
  have hfind : (List.range 9).find? (fun bits => text = cutText bits) = none := by
    rw [List.find?_eq_none]
    intro bits hbits heq
    exact hcut ⟨bits, hbits, (of_decide_eq_true heq).symm⟩
  simp [samplesAccounted, hS, hSr, hP, hA, hN, hfind]

/-- Characters of an upper-case hexadecimal number. -/
def isUpperHex (c : Char) : Bool := c.isDigit || ('A' ≤ c && c ≤ 'F')

/-- The characters of the fixed texts. -/
theorem shape_fixedTexts : ∀ text ∈ fixedTexts,
    ¬ (2 ≤ text.toList.length ∧ text.toList.all isUpperHex) ∧ ¬ text.toList.all Char.isDigit ∧
      text.toList.getLast? ≠ some 'W' ∧ text.toList.getLast? ≠ some 'R' ∧ text.toList.head? ≠ some '\'' ∧
      text ≠ "x" := by
  decide

/-- A text of at least two upper-case hexadecimal digits, or of decimal digits, is no fixed text. -/
theorem notMem_fixedTexts_of_digits {text : String}
    (h : (2 ≤ text.toList.length ∧ text.toList.all isUpperHex) ∨ text.toList.all Char.isDigit) :
    text ∉ fixedTexts := by
  intro hmem
  obtain ⟨hhex, hdec, -⟩ := shape_fixedTexts text hmem
  exact h.elim hhex hdec

/-- A text that ends in `W` or `R` is no fixed text. -/
theorem notMem_fixedTexts_of_getLast {text : String}
    (h : text.toList.getLast? = some 'W' ∨ text.toList.getLast? = some 'R') :
    text ∉ fixedTexts := by
  intro hmem
  obtain ⟨-, -, hW, hR, -⟩ := shape_fixedTexts text hmem
  exact h.elim hW hR

/-- A quoted text is no fixed text. -/
theorem notMem_fixedTexts_of_quoted {text : String} (h : text.toList.head? = some '\'') :
    text ∉ fixedTexts :=
  fun hmem => (shape_fixedTexts text hmem).2.2.2.2.1 h

/-- The digits of a byte in the bases of the formats. -/
theorem all_digits_of_byte : ∀ v < 256, ((Nat.toDigits 16 v).map Char.toUpper).all isUpperHex ∧
    ((Nat.toDigits 2 v).map Char.toUpper).all Char.isDigit ∧
      ((Nat.toDigits 10 v).map Char.toUpper).all Char.isDigit := by
  decide +kernel

theorem all_isUpperHex_paddedDigits {value : ℕ} (h : value < 256) :
    (WordFormat.paddedDigits 16 value 2).toList.all isUpperHex ∧
      2 ≤ (WordFormat.paddedDigits 16 value 2).toList.length := by
  constructor
  · simp only [WordFormat.paddedDigits, String.toList_ofList, List.leftpad, List.all_append,
      (all_digits_of_byte value h).1, Bool.and_true]
    simp [isUpperHex]
  · simp [WordFormat.paddedDigits, List.leftpad]
    omega

theorem all_isDigit_paddedDigits {base value width : ℕ} (h : value < 256)
    (hbase : base = 2 ∨ base = 10) :
    (WordFormat.paddedDigits base value width).toList.all Char.isDigit := by
  obtain ⟨-, h2, h10⟩ := all_digits_of_byte value h
  simp only [WordFormat.paddedDigits, String.toList_ofList, List.leftpad, List.all_append]
  rcases hbase with rfl | rfl <;> simp [h2, h10]

/-- The text of a byte is none of the fixed texts. -/
theorem valueText_notMem_fixedTexts (s : I2cSettings) (isAddress : Bool) {value : ℕ}
    (h : value < 256) : valueText s isAddress value ∉ fixedTexts := by
  rw [valueText]
  split
  · apply notMem_fixedTexts_of_getLast
    split <;> simp [String.toList_append]
  · cases hformat : s.format with
    | hex =>
      obtain ⟨hall, hlen⟩ := all_isUpperHex_paddedDigits h
      exact notMem_fixedTexts_of_digits (.inl ⟨hlen, hall⟩)
    | decimal => exact notMem_fixedTexts_of_digits (.inr (all_isDigit_paddedDigits h (.inr rfl)))
    | binary => exact notMem_fixedTexts_of_digits (.inr (all_isDigit_paddedDigits h (.inl rfl)))
    | ascii =>
      rw [WordFormat.format]
      split
      · exact notMem_fixedTexts_of_quoted (by simp)
      · obtain ⟨hall, hlen⟩ := all_isUpperHex_paddedDigits h
        exact notMem_fixedTexts_of_digits (.inl ⟨hlen, hall⟩)

/-! ## Entries -/

/-- A token as the framing emits it: a byte has eight bits, and a cut byte at most eight. -/
def Token.Valid : Token → Prop
  | .byte _ latched => latched.length = 8
  | .cut bits => bits ≤ 8
  | _ => True

/-- The text of a token. -/
def Token.text (s : I2cSettings) (token : Token) : String := (token.render s).1

/-- The text of a complete byte is none of the fixed texts, nor is that of an unreliable one. -/
theorem byte_text_notMem_fixedTexts (s : I2cSettings) (isAddress : Bool) {latched : List Bit}
    (h : latched.length = 8) : (Token.byte isAddress latched).text s ∉ fixedTexts := by
  have hvalue : packed latched < 256 := by
    have hlt := packed_lt latched
    rwa [h] at hlt
  rw [Token.text, Token.render]
  split
  · exact fun hmem => (shape_fixedTexts "x" hmem).2.2.2.2.2 rfl
  · exact valueText_notMem_fixedTexts s isAddress hvalue

theorem samplesAccounted_cutText {bits : ℕ} (h : bits ≤ 8) :
    cutText bits ≠ "S" ∧ cutText bits ≠ "Sr" ∧ samplesAccounted (cutText bits) = bits := by
  have hall : ∀ n ≤ 8, cutText n ≠ "S" ∧ cutText n ≠ "Sr" ∧ samplesAccounted (cutText n) = n := by
    decide
  exact hall bits h

/-- A START token closes the open account and opens the next. -/
theorem accountedPerStart_start (s : I2cSettings) (account : Option ℕ) (repeated : Bool)
    (rest : List String) :
    accountedPerStart account ((Token.start repeated).text s :: rest)
      = account.toList ++ accountedPerStart (some 0) rest := by
  cases repeated <;> rfl

/-- Any other token adds its samples to the open account. -/
theorem accountedPerStart_token (s : I2cSettings) (account : Option ℕ) (token : Token)
    (hvalid : token.Valid) (hstart : ∀ repeated, token ≠ .start repeated) (rest : List String) :
    accountedPerStart account (token.text s :: rest)
      = accountedPerStart (account.map (· + token.samples)) rest := by
  suffices h : token.text s ≠ "S" ∧ token.text s ≠ "Sr" ∧
      samplesAccounted (token.text s) = token.samples by
    obtain ⟨hS, hSr, hsamples⟩ := h
    simp [accountedPerStart, hS, hSr, hsamples]
  cases token with
  | start repeated => exact absurd rfl (hstart repeated)
  | stop =>
    show "P" ≠ "S" ∧ "P" ≠ "Sr" ∧ samplesAccounted "P" = 0
    decide
  | byte isAddress latched =>
    have hnot := byte_text_notMem_fixedTexts s isAddress hvalid
    refine ⟨?_, ?_, samplesAccounted_of_notMem hnot⟩
    · exact fun heq => hnot (heq ▸ by simp [fixedTexts])
    · exact fun heq => hnot (heq ▸ by simp [fixedTexts])
  | ack bit =>
    have hack : ∀ text, text = "A" ∨ text = "N" →
        text ≠ "S" ∧ text ≠ "Sr" ∧ samplesAccounted text = 1 := by
      rintro text (rfl | rfl) <;> decide
    refine hack _ ?_
    by_cases hbit : bit = .zero <;> simp [Token.text, Token.render, hbit]
  | cut bits => exact samplesAccounted_cutText hvalid

/-! ## Keeping the books -/

/-- The texts of the tokens from a framing state on, with the byte in progress at the end. -/
def texts (s : I2cSettings) (fr : Frame) (events : List Event) : List String :=
  (framing.emit fr events ++ (framing.final fr events).closing).map (Token.text s)

theorem texts_cons (s : I2cSettings) (fr : Frame) (event : Event) (events : List Event) :
    texts s fr (event :: events)
      = (fr.step event).1.map (Token.text s) ++ texts s (fr.step event).2 events := by
  simp only [texts, Transducer.emit_cons, Transducer.final_cons, List.map_append,
    List.append_assoc]
  rfl

/-- The samples the closing token accounts for. -/
theorem accountedPerStart_closing (s : I2cSettings) {fr : Frame} (h : fr.WellFormed)
    (account : Option ℕ) (rest : List String) :
    accountedPerStart account (fr.closing.map (Token.text s) ++ rest)
      = accountedPerStart (account.map (· + fr.latched.length)) rest := by
  rw [Frame.closing]
  split
  · exact accountedPerStart_token s account (.cut fr.latched.length) h.length_le
      (by simp) rest
  · next hlen =>
    have hzero : fr.latched.length = 0 := by omega
    simp [hzero]

/-- Outside a transaction nothing is added to the last account. -/
theorem accountedPerStart_closed (s : I2cSettings) {fr : Frame} (h : fr.WellFormed)
    (hclosed : fr.opened = false) (events : List Event) (total : ℕ) :
    accountedPerStart (some total) (texts s fr events)
      = total :: accountedPerStart none (texts s fr events) := by
  induction events generalizing fr with
  | nil =>
    have hnil := h.closed hclosed
    simp [texts, Frame.closing, hnil, accountedPerStart]
  | cons event rest ih =>
    have hwf := h.step event
    rw [texts_cons]
    cases event with
    | start => simp [Frame.step, accountedPerStart_start]
    | stop =>
      have hstop := fun account => accountedPerStart_token s account .stop trivial
        (by simp) (texts s (fr.step .stop).2 rest)
      simp only [Frame.step, List.map_append, List.append_assoc, accountedPerStart_closing s h,
        List.map_singleton, List.singleton_append, h.closed hclosed, List.length_nil] at hstop ⊢
      rw [hstop, hstop]
      exact ih hwf rfl
    | sample bit =>
      simp only [Frame.step, hclosed] at hwf ⊢
      exact ih hwf hclosed

/-- The books of an open stretch of `n` samples of which `total` are accounted for: nine samples
make a byte and its acknowledge, and the bits of a byte are accounted for when it is complete. -/
structure Books (fr : Frame) (total n : ℕ) : Prop where
  phase : n % 9 = fr.latched.length
  balance : total + (if fr.latched.length = 8 then 0 else fr.latched.length) = n

/-- The books of a stretch that a START closes agree exactly at a byte boundary or before an
acknowledge. -/
theorem Books.total_eq_iff_restart {fr : Frame} {total n : ℕ} (h : Books fr total n) :
    total = n ↔ Stretch.Closes ⟨n, .restart⟩ := by
  obtain ⟨hphase, hbalance⟩ := h
  simp only [Stretch.Closes, hphase]
  split at hbalance <;> omega

/-- The books of a stretch that a cut byte closes agree exactly when no acknowledge is due. -/
theorem Books.total_eq_iff_cut {fr : Frame} {total n : ℕ} (h : Books fr total n) :
    total + fr.latched.length = n ↔ n % 9 ≠ 8 := by
  obtain ⟨hphase, hbalance⟩ := h
  rw [hphase]
  split at hbalance <;> omega

/-- The books of an open stretch after one more sample. -/
theorem Books.sample (s : I2cSettings) {fr : Frame} {total n : ℕ} (h : Books fr total n)
    (hwf : fr.WellFormed) (hopen : fr.opened = true) (bit : Bit) (rest : List String) :
    ∃ total', Books (fr.step (.sample bit)).2 total' (n + 1) ∧
      accountedPerStart (some total) ((fr.step (.sample bit)).1.map (Token.text s) ++ rest)
        = accountedPerStart (some total') rest := by
  obtain ⟨hphase, hbalance⟩ := h
  have hle := hwf.length_le
  by_cases hfull : fr.latched.length = 8
  · -- the acknowledge of a completed byte
    simp only [hfull, if_true] at hbalance
    simp only [Frame.step, hopen, hfull, not_true, if_false, if_true]
    refine ⟨total + 1, ⟨by simp; omega, by simp; omega⟩, ?_⟩
    exact accountedPerStart_token s (some total) (.ack bit) trivial (by simp) rest
  · simp only [hfull, if_false] at hbalance
    simp only [Frame.step, hopen, hfull, not_true, if_false]
    by_cases hlast : fr.latched.length + 1 = 8
    · -- the bit that completes a byte
      have hlen : (fr.latched ++ [bit]).length = 8 := by simpa using hlast
      simp only [hlen, if_true]
      refine ⟨total + 8, ⟨by simp only [hlen]; omega, by simp only [hlen, if_true]; omega⟩, ?_⟩
      exact accountedPerStart_token s (some total) (.byte fr.expectAddress _) hlen
        (by simp) rest
    · have hlen : ¬ (fr.latched ++ [bit]).length = 8 := by simpa using hlast
      simp only [hlen, if_false]
      refine ⟨total, ⟨by simp; omega, ?_⟩, rfl⟩
      rw [if_neg hlen, List.length_append, List.length_singleton]
      omega

/-- What the tokens account for, against what was sampled, from any framing state. -/
theorem accountedPerStart_texts_iff (s : I2cSettings) (events : List Event) :
    (∀ fr : Frame, fr.WellFormed → fr.opened = false →
      (accountedPerStart none (texts s fr events) = (stretches none events).map Stretch.samples ↔
        ∀ stretch ∈ stretches none events, stretch.Closes)) ∧
    (∀ (fr : Frame) (total n : ℕ), fr.WellFormed → fr.opened = true → Books fr total n →
      (accountedPerStart (some total) (texts s fr events)
          = (stretches (some n) events).map Stretch.samples ↔
        ∀ stretch ∈ stretches (some n) events, stretch.Closes)) := by
  have hempty : ∀ {fr : Frame}, fr.latched = [] → Books fr 0 0 := fun hnil =>
    ⟨by simp [hnil], by simp [hnil]⟩
  induction events with
  | nil =>
    constructor
    · intro fr hwf hclosed
      simp [texts, Frame.closing, hwf.closed hclosed, accountedPerStart, stretches]
    · intro fr total n hwf _ hbooks
      have hcut := accountedPerStart_closing s hwf (some total) []
      rw [List.append_nil] at hcut
      simp only [texts, Transducer.emit_nil, Transducer.final_nil, List.nil_append, hcut]
      simpa [accountedPerStart, stretches, Stretch.Closes] using hbooks.total_eq_iff_cut
  | cons event rest ih =>
    obtain ⟨ihclosed, ihopen⟩ := ih
    have hstop := fun account fr => accountedPerStart_token s account .stop trivial
      (by simp) (texts s fr rest)
    constructor
    · intro fr hwf hclosed
      have hwf' := hwf.step event
      rw [texts_cons]
      cases event with
      | start =>
        simp only [Frame.step, List.map_singleton, List.singleton_append, accountedPerStart_start]
        exact ihopen _ 0 0 hwf' rfl (hempty rfl)
      | stop =>
        simp only [Frame.step, List.map_append, List.append_assoc, List.map_singleton,
          List.singleton_append, accountedPerStart_closing s hwf, hstop]
        exact ihclosed _ hwf' rfl
      | sample bit =>
        simp only [Frame.step, hclosed] at hwf' ⊢
        exact ihclosed fr hwf' hclosed
    · intro fr total n hwf hopen hbooks
      have hwf' := hwf.step event
      rw [texts_cons]
      cases event with
      | start =>
        rw [Frame.step, List.map_singleton, List.singleton_append, accountedPerStart_start]
        simp only [stretches, List.map_cons, List.forall_mem_cons, Option.toList_some,
          List.singleton_append, List.cons.injEq]
        exact and_congr hbooks.total_eq_iff_restart (ihopen _ 0 0 hwf' rfl (hempty rfl))
      | stop =>
        simp only [Frame.step, List.map_append, List.append_assoc, List.map_singleton,
          List.singleton_append, accountedPerStart_closing s hwf, hstop, Option.map_some] at hwf' ⊢
        simp only [stretches, List.map_cons, List.forall_mem_cons]
        rw [accountedPerStart_closed s hwf' rfl, List.cons.injEq, ihclosed _ hwf' rfl]
        exact and_congr_left fun _ => hbooks.total_eq_iff_cut
      | sample bit =>
        obtain ⟨total', hbooks', htotal⟩ :=
          hbooks.sample s hwf hopen bit (texts s (fr.step (.sample bit)).2 rest)
        have hopen' : (fr.step (.sample bit)).2.opened = true := by
          simp only [Frame.step, hopen, not_true, if_false]
          split <;> rfl
        rw [htotal]
        exact ihopen _ total' (n + 1) hwf' hopen' hbooks'

/-- The words of a bus carry the texts of its tokens. -/
theorem map_text_decodeBus (s : I2cSettings) (scl sda : BitLane) :
    (decodeBus s scl sda).map DecodedWord.text
      = texts s .init ((busEvents scl sda).map Prod.snd) := by
  have hcontents := congrArg (List.map Prod.fst)
    (contents_decodeEvents s (clockPeriod scl) (busEvents scl sda))
  rw [List.map_map, List.map_map] at hcontents
  exact hcontents

/-- The tokens account for the samples exactly when every repeated START falls on a byte boundary
or before an acknowledge, and no STOP or end of the trace falls before an acknowledge. -/
theorem bitAccounting_iff (s : I2cSettings) (scl sda : BitLane) :
    BitAccounting s scl sda ↔
      ∀ stretch ∈ stretches none ((busEvents scl sda).map Prod.snd), stretch.Closes := by
  rw [BitAccounting, map_text_decodeBus]
  exact (accountedPerStart_texts_iff s _).1 .init Frame.wellFormed_init rfl

/-- Three clock pulses. -/
def threePulses : BitLane := ⟨[(0, .one), (25, .zero), (35, .one), (45, .zero), (55, .one),
  (65, .zero), (75, .one)]⟩

/-- A START, one data bit, a repeated START and a STOP. -/
def restartMidByte : BitLane := ⟨[(0, .one), (20, .zero), (50, .one), (60, .zero), (80, .one)]⟩

/-- The bit latched before a repeated START is lost. -/
theorem not_bitAccounting_restartMidByte :
    threePulses.Increasing ∧ restartMidByte.Increasing ∧
      ¬ BitAccounting .default threePulses restartMidByte := by
  refine ⟨?_, ?_, ?_⟩
  · unfold BitLane.Increasing Timeline.Increasing
    decide
  · unfold BitLane.Increasing Timeline.Increasing
    decide
  · unfold BitAccounting
    decide

end Decoders.I2c
