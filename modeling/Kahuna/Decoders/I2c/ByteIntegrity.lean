import Kahuna.Decoders.I2c.Framing

/-!
# I2C byte integrity

A byte in which some bit was sampled as `x` or `z` is promised to be shown as the error token `x`,
without disturbing the framing. The decoder keeps the mark of an unreliable byte in the top bit of
the accumulator that every further bit shifts, so the mark reaches the byte token only when it is
set by the last bit.

* `ByteIntegrity`: the promise, for the events of two lanes;
* `byteIntegrity_iff`: it holds exactly when every byte with an invalid bit has an invalid last bit;
* `skeleton_eq_of_cleaned`: the framing half of the promise always holds.
-/

namespace Decoders.I2c

/-! ## The promise -/

/-- What is promised of the word shown for a token: a byte is data only if all its bits were clean,
and is the error word `x` if some bit was invalid. -/
def Token.ShownFaithfully : Token → String × WordKind → Prop
  | .byte _ latched, content =>
    (content.2 = .data → ∀ bit ∈ latched, bit.IsClean) ∧
      (Bit.invalid ∈ latched → content = ("x", .error))
  | _, _ => True

/-- `events'` is `events` with one invalid bit of a byte replaced by a clean bit. -/
def Cleaned (events events' : List (UInt64 × Event)) : Prop :=
  ∃ before after time bit, Bit.IsClean bit ∧
    events = before ++ (time, .sample .invalid) :: after ∧
    events' = before ++ (time, .sample bit) :: after ∧
    (framing.final .init (before.map Prod.snd)).opened = true ∧
    (framing.final .init (before.map Prod.snd)).latched.length < 8

/-- The words of an event sequence with the contents of the byte tokens left out: the START, STOP
and acknowledge tokens in order, the cut bytes, and a place for each byte. -/
def skeleton (s : I2cSettings) (clockPeriod : UInt64) (events : List (UInt64 × Event)) :
    List (Option (String × WordKind)) :=
  List.zipWith (fun token word => if token.isByte then none else some word.content)
    (busTokens (events.map Prod.snd)) (decodeEvents s clockPeriod events)

/-- Every byte is shown for what it is, and an invalid bit of a byte leaves the framing as it would
be with a clean bit. -/
def ByteIntegrity (s : I2cSettings) (scl sda : BitLane) : Prop :=
  List.Forall₂ (fun token word => token.ShownFaithfully word.content)
      (busTokens ((busEvents scl sda).map Prod.snd)) (decodeBus s scl sda) ∧
    ∀ events', Cleaned (busEvents scl sda) events' →
      skeleton s (clockPeriod scl) (busEvents scl sda) = skeleton s (clockPeriod scl) events'

/-! ## Framing -/

/-- A token without the bits of its byte. -/
def Token.shape : Token → Token
  | .byte isAddress _ => .byte isAddress []
  | token => token

/-- Two framing states that differ only in the bits latched so far, not in how many. -/
structure Frame.SameShape (fr fr' : Frame) : Prop where
  opened : fr.opened = fr'.opened
  expectAddress : fr.expectAddress = fr'.expectAddress
  length : fr.latched.length = fr'.latched.length

theorem Frame.SameShape.refl (fr : Frame) : fr.SameShape fr := ⟨rfl, rfl, rfl⟩

theorem Frame.SameShape.closing {fr fr' : Frame} (h : fr.SameShape fr') :
    fr.closing = fr'.closing := by
  rw [Frame.closing, Frame.closing, h.length]

/-- States of one shape step to states of one shape, with tokens of one shape. -/
theorem Frame.SameShape.step {fr fr' : Frame} (h : fr.SameShape fr') (event : Event) :
    (fr.step event).1.map Token.shape = (fr'.step event).1.map Token.shape ∧
      (fr.step event).2.SameShape (fr'.step event).2 := by
  obtain ⟨hopened, hexpect, hlen⟩ := h
  cases event with
  | start => exact ⟨by simp [Frame.step, hopened], ⟨rfl, rfl, rfl⟩⟩
  | stop => exact ⟨by simp [Frame.step, Frame.closing, hlen], ⟨rfl, hexpect, rfl⟩⟩
  | sample bit =>
    simp only [Frame.step, hopened, hexpect, hlen, List.length_append]
    split
    · exact ⟨rfl, ⟨hopened, hexpect, hlen⟩⟩
    · split
      · exact ⟨rfl, ⟨rfl, rfl, rfl⟩⟩
      · refine ⟨?_, ⟨rfl, rfl, by simp [hlen]⟩⟩
        split <;> rfl

/-- Latching a clean bit instead of an invalid one leaves a state of the same shape. -/
theorem sameShape_latched {fr : Frame} (hopened : fr.opened = true)
    (hlen : fr.latched.length < 8) (bit bit' : Bit) :
    (fr.step (.sample bit)).1.map Token.shape = (fr.step (.sample bit')).1.map Token.shape ∧
      (fr.step (.sample bit)).2.SameShape (fr.step (.sample bit')).2 := by
  have hnot : ¬ fr.latched.length = 8 := by omega
  simp only [Frame.step, hopened, hnot, not_true, if_false, List.length_append,
    List.length_singleton]
  refine ⟨?_, ⟨rfl, rfl, by simp⟩⟩
  split <;> rfl

/-- Cleaning a bit of a byte leaves the tokens of the bus in shape. -/
theorem Cleaned.map_shape_busTokens {events events' : List (UInt64 × Event)}
    (h : Cleaned events events') :
    (busTokens (events.map Prod.snd)).map Token.shape
      = (busTokens (events'.map Prod.snd)).map Token.shape := by
  obtain ⟨before, after, time, bit, -, rfl, rfl, hopened, hlen⟩ := h
  obtain ⟨hshape, hsame⟩ := sameShape_latched hopened hlen .invalid bit
  obtain ⟨hshapes, hfinal⟩ := framing.map_emit_eq_of_related
    (fun _ _ event h => Frame.SameShape.step h event) hsame (after.map Prod.snd)
  simp only [busTokens, List.map_append, List.map_cons, Transducer.emit_append,
    Transducer.final_append, Transducer.emit_cons, Transducer.final_cons, List.append_assoc]
  congr 1
  change ((framing.final .init (before.map Prod.snd)).step (.sample .invalid)).1.map _ ++ _
    = ((framing.final .init (before.map Prod.snd)).step (.sample bit)).1.map _ ++ _
  rw [hshape]
  congr 1
  exact congrArg₂ (· ++ ·) hshapes (congrArg _ hfinal.closing)

/-- The skeleton of an event sequence is read off the shape of its tokens. -/
theorem skeleton_eq (s : I2cSettings) (clockPeriod : UInt64) (events : List (UInt64 × Event)) :
    skeleton s clockPeriod events
      = ((busTokens (events.map Prod.snd)).map Token.shape).map
          (fun token => if token.isByte then none else some (token.render s)) := by
  have hword : skeleton s clockPeriod events
      = List.zipWith (fun token content => if token.isByte then none else some content)
        (busTokens (events.map Prod.snd))
        ((decodeEvents s clockPeriod events).map DecodedWord.content) := by
    rw [List.zipWith_map_right]
    rfl
  rw [hword, contents_decodeEvents, List.zipWith_map_right, List.zipWith_self, List.map_map]
  refine List.map_congr_left fun token _ => ?_
  cases token <;> rfl

/-- An invalid bit of a byte leaves the framing as it would be with a clean bit. -/
theorem skeleton_eq_of_cleaned (s : I2cSettings) (clockPeriod : UInt64)
    {events events' : List (UInt64 × Event)} (h : Cleaned events events') :
    skeleton s clockPeriod events = skeleton s clockPeriod events' := by
  rw [skeleton_eq, skeleton_eq, h.map_shape_busTokens]

/-! ## Bytes -/

/-- A token is shown faithfully exactly when it is not a byte whose last bit hides an invalid one. -/
theorem Token.shownFaithfully_render_iff (s : I2cSettings) (token : Token) :
    token.ShownFaithfully (token.render s) ↔
      ∀ isAddress latched, token = .byte isAddress latched → Bit.invalid ∈ latched →
        latched.getLast? = some .invalid := by
  cases token with
  | byte isAddress latched =>
    by_cases hlast : latched.getLast? = some .invalid
    · simp [Token.ShownFaithfully, Token.render, hlast]
    · have hclean : (∀ bit ∈ latched, bit.IsClean) ↔ Bit.invalid ∉ latched :=
        ⟨fun h hmem => h _ hmem rfl, fun h bit hmem heq => h (heq ▸ hmem)⟩
      simp [Token.ShownFaithfully, Token.render, hlast, hclean]
  | start repeated => simp [Token.ShownFaithfully]
  | stop => simp [Token.ShownFaithfully]
  | ack bit => simp [Token.ShownFaithfully]
  | cut bits => simp [Token.ShownFaithfully]

/-- The words of an event sequence show every byte faithfully exactly when no last bit of a byte
hides an invalid one. -/
theorem forall₂_shownFaithfully_iff (s : I2cSettings) (clockPeriod : UInt64)
    (events : List (UInt64 × Event)) :
    List.Forall₂ (fun token word => token.ShownFaithfully word.content)
        (busTokens (events.map Prod.snd)) (decodeEvents s clockPeriod events) ↔
      ∀ isAddress latched, .byte isAddress latched ∈ busTokens (events.map Prod.snd) →
        Bit.invalid ∈ latched → latched.getLast? = some .invalid := by
  rw [← List.forall₂_map_right_iff (f := DecodedWord.content), contents_decodeEvents,
    List.forall₂_map_right_iff, List.forall₂_same]
  constructor
  · intro h isAddress latched hmem
    exact (Token.shownFaithfully_render_iff s _).mp (h _ hmem) isAddress latched rfl
  · intro h token hmem
    rw [Token.shownFaithfully_render_iff]
    rintro isAddress latched rfl
    exact h isAddress latched hmem

/-- Bytes are shown for what they are, and invalid bits leave the framing alone, exactly when every
byte of the bus that has an invalid bit has an invalid last bit. -/
theorem byteIntegrity_iff (s : I2cSettings) (scl sda : BitLane) :
    ByteIntegrity s scl sda ↔
      ∀ isAddress latched,
        .byte isAddress latched ∈ busTokens ((busEvents scl sda).map Prod.snd) →
        Bit.invalid ∈ latched → latched.getLast? = some .invalid := by
  rw [ByteIntegrity, decodeBus, forall₂_shownFaithfully_iff]
  exact and_iff_left fun _ h => skeleton_eq_of_cleaned s _ h

/-- A clock of nine pulses after a START, and the rise before a STOP. -/
def addressClock : BitLane := ⟨[(0, .one), (25, .zero), (35, .one), (45, .zero), (55, .one),
  (65, .zero), (75, .one), (85, .zero), (95, .one), (105, .zero), (115, .one), (125, .zero),
  (135, .one), (145, .zero), (155, .one), (165, .zero), (175, .one), (185, .zero), (195, .one),
  (205, .zero), (215, .one)]⟩

/-- The address byte `x0100000`, acknowledged: the first bit is unknown, the others are clean. -/
def firstBitUnknown : BitLane := ⟨[(0, .one), (20, .zero), (30, .invalid), (50, .zero), (70, .one),
  (90, .zero), (220, .one)]⟩

/-- A byte whose first bit is unknown is shown as clean data. -/
theorem not_byteIntegrity_firstBitUnknown :
    addressClock.Increasing ∧ firstBitUnknown.Increasing ∧
      ¬ ByteIntegrity .default addressClock firstBitUnknown := by
  refine ⟨?_, ?_, fun h => ?_⟩
  · unfold BitLane.Increasing Timeline.Increasing
    decide
  · unfold BitLane.Increasing Timeline.Increasing
    decide
  · have hlast := (forall₂_shownFaithfully_iff _ _ _).mp h.1 true
      [.invalid, .zero, .one, .zero, .zero, .zero, .zero, .zero] (by decide) (by decide)
    exact absurd hlast (by decide)

end Decoders.I2c
