import Kahuna.Framing.Basic
import Kahuna.Wcp.Handler

/-!
# A connection of the server

The model of `WcpCSReader` and of the loop of `handle_client`. What comes from the client is cut into frames, which
end with a NUL, and what is written ends with one. Each turn of the loop waits for a frame, for a message of the
program and for the stop signal, and takes what comes first; the bytes of a frame that has not ended stay in the
buffer then.

Serde is a parameter: `decode` and `encode` are `from_slice` and `to_string`. Writes that fail are left out.

* `forwarded_of_run`: which messages are forwarded depends on the bytes alone;
* `frames_stream_of_run`: the client reads the messages as they were sent.
-/

namespace Wcp

open Framing

/-- Whether a byte ends a frame. -/
def isNul (x : UInt8) : Bool := x == 0

/-- Why the loop has ended. -/
inductive Ended where
  | shutdown
  | undecodable
  | failed
  deriving DecidableEq, Repr

/-- A connection. -/
structure Connection where
  buffer : List UInt8
  /-- What was sent to the program. -/
  sender : List WcpCSMessage
  /-- What was taken from the program. -/
  receiver : List WcpSCMessage
  /-- What was written to the client. -/
  stream : List UInt8
  /-- What was read from the client. -/
  read : List UInt8
  ended : Option Ended

/-- What a turn of the loop can find: bytes while it waits for a frame, a frame, the end of the stream or the stop
signal, and a message of the program. -/
inductive Turn where
  | bytes (chunk : List UInt8)
  | frame
  | failed
  | message (message : WcpSCMessage)

section Server

variable (decode : List UInt8 → Option WcpCSMessage) (encode : WcpSCMessage → List UInt8)

/-- `try_decode_frame`: the first frame of the buffer, if it has ended, and what is behind it. -/
def tryDecodeFrame (buffer : List UInt8) : Option (Option WcpCSMessage) × List UInt8 :=
  match buffer.findIdx? isNul with
  | some position => (some (decode (buffer.take position)), buffer.drop (position + 1))
  | none => (none, buffer)

namespace Connection

/-- A new connection. -/
def new : Connection := { buffer := [], sender := [], receiver := [], stream := [], read := [], ended := none }

/-- `send_message`. -/
def sendMessage (c : Connection) (message : WcpSCMessage) : Connection :=
  { c with receiver := c.receiver ++ [message], stream := c.stream ++ encode message ++ [0] }

/-- A turn of the loop. -/
def turn (c : Connection) (t : Turn) : Connection :=
  if c.ended.isSome then c
  else
    match t with
    | .bytes chunk => { c with buffer := c.buffer ++ chunk, read := c.read ++ chunk }
    | .frame =>
      match tryDecodeFrame decode c.buffer with
      | (none, buffer) => { c with buffer }
      | (some none, buffer) => { c with buffer, ended := some .undecodable }
      | (some (some message), buffer) =>
        if message = .command .shutdown then { c with buffer, ended := some .shutdown }
        else { c with buffer, sender := c.sender ++ [message] }
    | .failed => { c with ended := some .failed }
    | .message message => c.sendMessage encode message

/-- `handle_client`. -/
def handleClient (turns : List Turn) : Connection := turns.foldl (turn decode encode) new

end Connection

/-! ## What a connection is for -/

/-- The loop goes on after a frame. -/
def goesOn (frame : List UInt8) : Bool :=
  match decode frame with
  | none => false
  | some message => message ≠ .command .shutdown

/-- The messages of a stream, up to the first frame that ends the connection. -/
def messages (read : List UInt8) : List WcpCSMessage :=
  ((frames isNul [] read).takeWhile (goesOn decode)).filterMap decode

/-- The connection has forwarded the messages of some frames, and perhaps come to one that has ended it. -/
structure Framed (c : Connection) (done : List (List UInt8)) (last : Option (List UInt8)) : Prop where
  frames_eq : frames isNul [] c.read = done ++ (last.toList ++ frames isNul [] c.buffer)
  rest_eq : rest isNul [] c.read = rest isNul [] c.buffer
  done_goesOn (frame : List UInt8) : frame ∈ done → goesOn decode frame = true
  last_ends (frame : List UInt8) : last = some frame → goesOn decode frame = false
  sender_eq : c.sender = done.filterMap decode
  ended_iff : last.isSome = true ↔ c.ended = some .shutdown ∨ c.ended = some .undecodable

end Server

variable {decode : List UInt8 → Option WcpCSMessage} {encode : WcpSCMessage → List UInt8} {c : Connection}
  {done : List (List UInt8)} {last : Option (List UInt8)}

/-- A turn that finds a frame. -/
theorem framed_turn_frame (h : Framed decode c done none) (hrunning : c.ended = none) :
    ∃ done' last', Framed decode (c.turn decode encode .frame) done' last' := by
  have hframes := h.frames_eq
  rw [Option.toList_none, List.nil_append] at hframes
  rw [Connection.turn, if_neg (by simp [hrunning]), tryDecodeFrame]
  cases hposition : c.buffer.findIdx? isNul with
  | none => exact ⟨done, none, h⟩
  | some position =>
    obtain ⟨hfirst, hrest⟩ := frames_of_findIdx? hposition
    rw [hfirst] at hframes
    cases hdecode : decode (c.buffer.take position) with
    | none =>
      -- a frame that cannot be decoded ends the connection
      simp only [hdecode]
      refine ⟨done, some (c.buffer.take position), hframes, h.rest_eq.trans hrest, h.done_goesOn, ?_, h.sender_eq, ?_⟩
      · rintro frame ⟨⟩
        rw [goesOn, hdecode]
      · simp
    | some message =>
      by_cases hshutdown : message = .command .shutdown
      · -- so does `shutdown`, which is not forwarded
        simp only [hdecode, if_pos hshutdown]
        refine ⟨done, some (c.buffer.take position), hframes, h.rest_eq.trans hrest, h.done_goesOn, ?_, h.sender_eq, ?_⟩
        · rintro frame ⟨⟩
          simp [goesOn, hdecode, hshutdown]
        · simp
      · -- any other message is forwarded
        simp only [hdecode, if_neg hshutdown]
        refine ⟨done ++ [c.buffer.take position], none, ?_, h.rest_eq.trans hrest, ?_, nofun, ?_, ?_⟩
        · rw [Option.toList_none, List.nil_append, List.append_assoc, List.singleton_append]
          exact hframes
        · rw [List.forall_mem_append]
          refine ⟨h.done_goesOn, List.forall_mem_singleton.2 ?_⟩
          simp [goesOn, hdecode, hshutdown]
        · rw [List.filterMap_append, h.sender_eq, List.filterMap_cons, hdecode]
          rfl
        · simp [hrunning]

/-- A turn of the loop. -/
theorem framed_turn (h : Framed decode c done last) (t : Turn) :
    ∃ done' last', Framed decode (c.turn decode encode t) done' last' := by
  cases hended : c.ended with
  | some e =>
    -- a connection that has ended does nothing more
    have hsame : c.turn decode encode t = c := by
      unfold Connection.turn
      rw [if_pos (by simp [hended])]
    rw [hsame]
    exact ⟨done, last, h⟩
  | none =>
    have hlast : last = none := by
      rw [← Option.not_isSome_iff_eq_none, h.ended_iff, hended]
      simp
    subst hlast
    cases t with
    | frame => exact framed_turn_frame h hended
    | bytes chunk =>
      rw [Connection.turn, if_neg (by simp [hended])]
      refine ⟨done, none, ?_, ?_, h.done_goesOn, nofun, h.sender_eq, h.ended_iff⟩
      · show frames isNul [] (c.read ++ chunk) = _
        rw [frames_append, h.frames_eq, h.rest_eq, frames_append]
        simp only [Option.toList_none, List.nil_append, List.append_assoc]
      · show rest isNul [] (c.read ++ chunk) = _
        rw [rest_append, rest_append, h.rest_eq]
    | failed =>
      rw [Connection.turn, if_neg (by simp [hended])]
      exact ⟨done, none, h.frames_eq, h.rest_eq, h.done_goesOn, nofun, h.sender_eq, by simp⟩
    | message message =>
      rw [Connection.turn, if_neg (by simp [hended])]
      exact ⟨done, none, h.frames_eq, h.rest_eq, h.done_goesOn, nofun, h.sender_eq, h.ended_iff⟩

theorem framed_handleClient (turns : List Turn) :
    ∃ done last, Framed decode (Connection.handleClient decode encode turns) done last := by
  refine List.reverseRecOn turns ⟨[], none, rfl, rfl, nofun, nofun, rfl, by simp [Connection.handleClient, Connection.new]⟩ ?_
  rintro turns t ⟨done, last, h⟩
  rw [Connection.handleClient, List.foldl_append]
  exact framed_turn h t

/-- What was forwarded are the first messages of the stream. -/
theorem Framed.messages_eq (h : Framed decode c done last) :
    messages decode c.read = c.sender ++ if last.isSome then [] else messages decode c.buffer := by
  rw [messages, h.frames_eq, h.sender_eq, List.takeWhile_append_of_pos h.done_goesOn, List.filterMap_append]
  cases last with
  | none => rfl
  | some frame =>
    rw [Option.toList_some, List.singleton_append, List.takeWhile_cons, h.last_ends frame rfl]
    rfl

theorem Framed.sender_prefix (h : Framed decode c done last) : c.sender <+: messages decode c.read :=
  ⟨_, h.messages_eq.symm⟩

theorem Framed.sender_eq_messages (h : Framed decode c done last)
    (hall : c.buffer.findIdx? isNul = none ∨ c.ended = some .shutdown ∨ c.ended = some .undecodable) :
    c.sender = messages decode c.read := by
  rw [h.messages_eq]
  rcases hall with hnone | hended
  · have hmessages : messages decode c.buffer = [] := by
      rw [messages, (frames_of_findIdx?_none hnone).1]
      rfl
    rw [hmessages, ite_self, List.append_nil]
  · rw [if_pos (h.ended_iff.2 hended), List.append_nil]

/-- What the server forwards depends on the bytes that it has read, and not on how they came, nor on what it has
written meanwhile: always the first of their messages, and all of them when no frame is left, or one of them has ended
the connection. -/
theorem forwarded_of_run (decode : List UInt8 → Option WcpCSMessage) (encode : WcpSCMessage → List UInt8)
    (turns : List Turn) :
    let c := Connection.handleClient decode encode turns
    c.sender <+: messages decode c.read ∧
      ((c.buffer.findIdx? isNul = none ∨ c.ended = some .shutdown ∨ c.ended = some .undecodable) →
        c.sender = messages decode c.read) := by
  obtain ⟨done, last, h⟩ := @framed_handleClient decode encode turns
  exact ⟨h.sender_prefix, h.sender_eq_messages⟩

/-! ## What the client reads -/

theorem stream_turn (h : c.stream = c.receiver.flatMap fun message => encode message ++ [0]) (t : Turn) :
    (c.turn decode encode t).stream
      = (c.turn decode encode t).receiver.flatMap fun message => encode message ++ [0] := by
  unfold Connection.turn
  split
  · exact h
  · cases t with
    | bytes chunk => exact h
    | failed => exact h
    | message message =>
      simp only [Connection.sendMessage, List.flatMap_append, h, List.flatMap_singleton, List.append_assoc]
    | frame =>
      simp only
      split
      · exact h
      · exact h
      · split
        · exact h
        · exact h

theorem stream_handleClient (turns : List Turn) :
    (Connection.handleClient decode encode turns).stream
      = (Connection.handleClient decode encode turns).receiver.flatMap fun message => encode message ++ [0] := by
  refine List.reverseRecOn turns rfl ?_
  intro turns t ih
  rw [Connection.handleClient, List.foldl_append]
  exact stream_turn ih t

/-- A client that writes its messages one after the other gets all of them forwarded, up to a `shutdown`, once nothing
is left to read; and it reads the messages of the program one after the other, however they come. -/
theorem roundTrip_of_run (decode : List UInt8 → Option WcpCSMessage) (encode : WcpSCMessage → List UInt8)
    (write : WcpCSMessage → List UInt8) (turns : List Turn) (sent : List WcpCSMessage)
    (hdecode : ∀ message ∈ sent, decode (write message) = some message)
    (hwrite : ∀ message ∈ sent, ∀ x ∈ write message, isNul x = false)
    (hencode : ∀ message ∈ (Connection.handleClient decode encode turns).receiver,
      ∀ x ∈ encode message, isNul x = false)
    (hread : (Connection.handleClient decode encode turns).read = sent.flatMap fun message => write message ++ [0]) :
    let c := Connection.handleClient decode encode turns
    c.sender <+: sent.takeWhile (· ≠ .command .shutdown) ∧
      ((c.buffer = [] ∨ c.ended = some .shutdown) → c.sender = sent.takeWhile (· ≠ .command .shutdown)) ∧
      frames isNul [] c.stream = c.receiver.map encode ∧ rest isNul [] c.stream = [] := by
  intro c
  have hmessages : messages decode c.read = sent.takeWhile (· ≠ .command .shutdown) := by
    rw [messages, hread, (@frames_flatMap _ isNul _ write 0 rfl sent hwrite).1]
    -- each frame is decoded to the message that it was written from
    clear hread hwrite
    induction sent with
    | nil => rfl
    | cons message sent ih =>
      rw [List.forall_mem_cons] at hdecode
      have hgoesOn : goesOn decode (write message) = decide (message ≠ .command .shutdown) := by
        rw [goesOn, hdecode.1]
      rw [List.map_cons, List.takeWhile_cons, List.takeWhile_cons, hgoesOn]
      split
      · rw [List.filterMap_cons, hdecode.1, ih hdecode.2]
      · rfl
  obtain ⟨done, last, h⟩ := @framed_handleClient decode encode turns
  rw [← hmessages]
  refine ⟨h.sender_prefix, fun hall => h.sender_eq_messages ?_, ?_⟩
  · rcases hall with hempty | hended
    · exact .inl (by rw [hempty]; rfl)
    · exact .inr (.inl hended)
  · have hframes := @frames_flatMap _ isNul _ encode 0 rfl _ hencode
    rwa [← stream_handleClient] at hframes

/-! ### A client that lists the items -/

/-- The bytes of a text. -/
def asciiBytes (s : String) : List UInt8 := s.toList.map fun ch => UInt8.ofNat ch.toNat

/-- What the client sends, as it is written. -/
def clientTexts : List (String × WcpCSMessage) :=
  [("\x7b\"type\":\"greeting\",\"version\":\"0\",\"commands\":[]\x7d", .greeting "0" []),
    ("\x7b\"type\":\"command\",\"command\":\"get_item_list\"\x7d", .command .getItemList),
    ("\x7b\"type\":\"command\",\"command\":\"shutdown\"\x7d", .command .shutdown)]

/-- What the client writes. -/
def clientBytes (message : WcpCSMessage) : List UInt8 :=
  ((clientTexts.find? fun e => e.2 = message).map fun e => asciiBytes e.1).getD []

/-- What the server understands of it. -/
def clientMessage (frame : List UInt8) : Option WcpCSMessage :=
  (clientTexts.find? fun e => asciiBytes e.1 = frame).map Prod.snd

/-- What the server writes. -/
def serverBytes (message : WcpSCMessage) : List UInt8 :=
  if message = .response .ack then asciiBytes "\x7b\"type\":\"response\",\"command\":\"ack\"\x7d" else []

/-- The first frame comes in two pieces, between which an answer is written. -/
def twoPieces : List Turn :=
  let stream := (clientTexts.map Prod.snd).flatMap fun message => clientBytes message ++ [0]
  [.bytes (stream.take 10), .frame, .message (.response .ack), .bytes (stream.drop 10), .frame, .frame, .frame]

theorem roundTrip_of_run_twoPieces :
    let c := Connection.handleClient clientMessage serverBytes twoPieces
    c.sender = [.greeting "0" [], .command .getItemList] ∧
      c.sender <+: [.greeting "0" [], .command .getItemList] ∧
      ((c.buffer = [] ∨ c.ended = some .shutdown) → c.sender = [.greeting "0" [], .command .getItemList]) ∧
      frames isNul [] c.stream = c.receiver.map serverBytes ∧ rest isNul [] c.stream = [] := by
  have htake : (clientTexts.map Prod.snd).takeWhile (· ≠ .command .shutdown)
      = [.greeting "0" [], .command .getItemList] := by decide
  have h := roundTrip_of_run clientMessage serverBytes clientBytes twoPieces (clientTexts.map Prod.snd)
    (by decide +kernel) (by decide +kernel) (by decide +kernel) (by decide +kernel)
  rw [htake] at h
  exact ⟨by decide +kernel, h⟩

end Wcp
