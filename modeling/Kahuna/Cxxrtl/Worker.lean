import Kahuna.Framing.Basic
import Mathlib.Tactic.Push

/-!
# The worker of a CXXRTL connection

The model of `io_worker.rs`. The worker reads bytes from the server as they come, cuts them into messages, which
end with a NUL, and forwards the messages to the container. A read stops at the first chunk that is not UTF-8:
the messages before it in the same read are lost, and what is behind it stays in the buffer until the next read.

- `CxxrtlWorker`, `processStream`: the worker and its buffer;
- `Framed`: each message is forwarded as soon as its NUL has been read;
- `framed_iff`: which ways of cutting a stream into reads do this.
-/

namespace Cxxrtl

open Framing

/-! ## The worker -/

/-- `String::from_utf8`. -/
def fromUtf8 (message : List UInt8) : Option String := String.fromUTF8? ⟨message.toArray⟩

/-- Whether a byte ends a message. -/
def isNul (c : UInt8) : Bool := c == 0

/-- The loop of `process_stream`: messages are drained from the buffer up to the first one that is not UTF-8.
Each step drains a NUL at least, so as many steps as there are bytes are enough. -/
def drainMessages : ℕ → List String → List UInt8 → Option (List String) × List UInt8
  | 0, newMessages, readBuf => (some newMessages, readBuf)
  | steps + 1, newMessages, readBuf =>
    match readBuf.findIdx? isNul with
    | none => (some newMessages, readBuf)
    | some idx =>
      let message := readBuf.take idx
      -- the NUL is not part of this or the next message
      let readBuf := readBuf.drop (idx + 1)
      match fromUtf8 message with
      | none => (none, readBuf)
      | some msg => drainMessages steps (newMessages ++ [msg]) readBuf

/-- `process_stream`: the messages that a read completes, if they are all UTF-8, and the buffer after it. -/
def processStream (readBuf buf : List UInt8) : Option (List String) × List UInt8 :=
  drainMessages (readBuf ++ buf).length [] (readBuf ++ buf)

/-- The worker. -/
structure CxxrtlWorker where
  readBuf : List UInt8
  /-- What was forwarded to the container. -/
  scChannel : List String
  /-- The worker has not left its loop. -/
  running : Bool

/-- What the worker waits for: a command of the client, bytes from the server, or an error of the connection. -/
inductive WorkerEvent where
  | command (msg : Option String)
  | read (buf : List UInt8)
  | readFailed

namespace CxxrtlWorker

/-- A new worker. -/
def new : CxxrtlWorker := { readBuf := [], scChannel := [], running := true }

/-- A turn of the loop of `start`. -/
def turn (w : CxxrtlWorker) (event : WorkerEvent) : CxxrtlWorker :=
  if w.running then
    match event with
    -- the command is sent to the server
    | .command _ => w
    | .read buf =>
      match processStream w.readBuf buf with
      | (some msgs, readBuf) => { w with readBuf, scChannel := w.scChannel ++ msgs }
      -- an error is only logged
      | (none, readBuf) => { w with readBuf }
    | .readFailed => { w with running := false }
  else w

/-- `start`. -/
def start (events : List WorkerEvent) : CxxrtlWorker := events.foldl turn new

end CxxrtlWorker

/-! ## What the worker is for -/

/-- The reads until the connection fails. -/
def reads : List WorkerEvent → List (List UInt8)
  | [] => []
  | .command _ :: events => reads events
  | .read buf :: events => buf :: reads events
  | .readFailed :: _ => []

/-- The messages that end in a stream: the chunks that are UTF-8. -/
def messages (pending stream : List UInt8) : List String := (frames isNul pending stream).filterMap fromUtf8

/-- At any time exactly the messages of the bytes that were read have been forwarded. -/
def Framed (events : List WorkerEvent) : Prop :=
  ∀ n, (CxxrtlWorker.start (events.take n)).scChannel = messages [] (reads (events.take n)).flatten

/-- No read ends both a message and a chunk that is not UTF-8, and no read ends a message while the buffer holds
chunks that are not UTF-8. The first argument counts these, and each read takes one of them out. -/
def KeepsApart : ℕ → List UInt8 → List (List UInt8) → Prop
  | _, _, [] => True
  | waiting, pending, buf :: bufs =>
    let chunks := frames isNul pending buf
    if waiting = 0 ∧ ∀ chunk ∈ chunks, (fromUtf8 chunk).isSome then KeepsApart 0 (rest isNul pending buf) bufs
    else (∀ chunk ∈ chunks, fromUtf8 chunk = none) ∧
      KeepsApart (waiting + chunks.length - 1) (rest isNul pending buf) bufs

/-! ## The buffer -/

variable {readBuf buf bad : List UInt8} {newMessages : List String} {steps : ℕ} {good later : List (List UInt8)}

/-- All chunks are UTF-8. -/
theorem drainMessages_of_good (hsteps : readBuf.length ≤ steps)
    (hgood : ∀ chunk ∈ frames isNul [] readBuf, (fromUtf8 chunk).isSome) :
    ∃ readBuf', drainMessages steps newMessages readBuf
        = (some (newMessages ++ messages [] readBuf), readBuf') ∧ frames isNul [] readBuf' = [] ∧
          rest isNul [] readBuf' = rest isNul [] readBuf := by
  induction steps generalizing newMessages readBuf with
  | zero =>
    obtain rfl : readBuf = [] := List.length_eq_zero_iff.1 (by omega)
    exact ⟨[], by simp [drainMessages, messages], rfl, rfl⟩
  | succ steps ih =>
    rw [drainMessages]
    cases hidx : readBuf.findIdx? isNul with
    | none =>
      obtain ⟨hnone, -⟩ := frames_of_findIdx?_none hidx
      exact ⟨readBuf, by simp [messages, hnone], hnone, rfl⟩
    | some idx =>
      obtain ⟨hframes, hrest⟩ := frames_of_findIdx? hidx
      have hlt : idx < readBuf.length := (List.findIdx?_eq_some_iff_getElem.1 hidx).1
      rw [hframes, List.forall_mem_cons] at hgood
      obtain ⟨msg, hmsg⟩ := Option.isSome_iff_exists.1 hgood.1
      obtain ⟨readBuf', hdrain, hnone, hrest'⟩ :=
        @ih (readBuf.drop (idx + 1)) (newMessages ++ [msg]) (by rw [List.length_drop]; omega) hgood.2
      refine ⟨readBuf', ?_, hnone, hrest'.trans hrest.symm⟩
      simp only [hmsg, hdrain, messages, hframes, List.filterMap_cons, List.append_assoc, List.singleton_append]

/-- Some chunk is not UTF-8: it is lost, and so are the ones before it. -/
theorem drainMessages_of_bad (hsteps : readBuf.length ≤ steps) (hframes : frames isNul [] readBuf = good ++ bad :: later)
    (hgood : ∀ chunk ∈ good, (fromUtf8 chunk).isSome) (hbad : fromUtf8 bad = none) :
    ∃ readBuf', drainMessages steps newMessages readBuf = (none, readBuf') ∧ frames isNul [] readBuf' = later ∧
      rest isNul [] readBuf' = rest isNul [] readBuf := by
  induction steps generalizing newMessages readBuf good with
  | zero =>
    obtain rfl : readBuf = [] := List.length_eq_zero_iff.1 (by omega)
    simp at hframes
  | succ steps ih =>
    rw [drainMessages]
    cases hidx : readBuf.findIdx? isNul with
    | none =>
      obtain ⟨hnone, -⟩ := frames_of_findIdx?_none hidx
      rw [hnone] at hframes
      simp at hframes
    | some idx =>
      obtain ⟨hfirst, hrest⟩ := frames_of_findIdx? hidx
      have hlt : idx < readBuf.length := (List.findIdx?_eq_some_iff_getElem.1 hidx).1
      rw [hfirst] at hframes
      cases good with
      | nil =>
        obtain ⟨rfl, hlater⟩ := List.cons.inj hframes
        exact ⟨readBuf.drop (idx + 1), by simp only [hbad], hlater, hrest.symm⟩
      | cons chunk good =>
        obtain ⟨rfl, hlater⟩ := List.cons.inj hframes
        rw [List.forall_mem_cons] at hgood
        obtain ⟨msg, hmsg⟩ := Option.isSome_iff_exists.1 hgood.1
        obtain ⟨readBuf', hdrain, hlater', hrest'⟩ :=
          @ih (readBuf.drop (idx + 1)) (newMessages ++ [msg]) good (by rw [List.length_drop]; omega) hlater hgood.2
        exact ⟨readBuf', by simp only [hmsg, hdrain], hlater', hrest'.trans hrest.symm⟩

/-! ## Runs -/

namespace CxxrtlWorker

variable {w : CxxrtlWorker} {pending : List UInt8} {waiting : List (List UInt8)} {events : List WorkerEvent}

/-- A worker that is running, with some chunks in its buffer that are not UTF-8, and the beginning of another. -/
structure Holds (w : CxxrtlWorker) (waiting : List (List UInt8)) (pending : List UInt8) : Prop where
  running : w.running = true
  frames : frames isNul [] w.readBuf = waiting
  rest : rest isNul [] w.readBuf = pending
  bad : ∀ chunk ∈ waiting, fromUtf8 chunk = none

theorem holds_new : new.Holds [] [] := ⟨rfl, rfl, rfl, by simp⟩

/-- A read of a worker: all messages of the read are forwarded, or none. -/
theorem Holds.turn_read (h : w.Holds waiting pending) (buf : List UInt8) :
    let chunks := Framing.frames isNul pending buf
    (waiting = [] ∧ (∀ chunk ∈ chunks, (fromUtf8 chunk).isSome) ∧
        (w.turn (.read buf)).scChannel = w.scChannel ++ messages pending buf ∧
        (w.turn (.read buf)).Holds [] (Framing.rest isNul pending buf)) ∨
      ((waiting ≠ [] ∨ ∃ chunk ∈ chunks, fromUtf8 chunk = none) ∧
        (w.turn (.read buf)).scChannel = w.scChannel ∧
        ((∀ chunk ∈ chunks, fromUtf8 chunk = none) → ∃ waiting', waiting'.length = waiting.length + chunks.length - 1 ∧
          (w.turn (.read buf)).Holds waiting' (Framing.rest isNul pending buf))) := by
  intro chunks
  have hframes : Framing.frames isNul [] (w.readBuf ++ buf) = waiting ++ chunks := by
    rw [frames_append, h.frames, h.rest]
  have hrest : Framing.rest isNul [] (w.readBuf ++ buf) = Framing.rest isNul pending buf := by
    rw [rest_append, h.rest]
  by_cases hgood : ∀ chunk ∈ waiting ++ chunks, (fromUtf8 chunk).isSome
  · obtain rfl : waiting = [] := by
      refine List.eq_nil_iff_forall_not_mem.2 fun chunk hchunk => ?_
      have hsome := hgood chunk (List.mem_append_left _ hchunk)
      rw [h.bad chunk hchunk] at hsome
      cases hsome
    obtain ⟨readBuf', hdrain, hnone, hrest'⟩ :=
      @drainMessages_of_good (w.readBuf ++ buf) [] _ (Nat.le_refl _) (hframes ▸ hgood)
    have hmessages : messages [] (w.readBuf ++ buf) = messages pending buf := by
      rw [messages, hframes]
      rfl
    have hturn : w.turn (.read buf) = { w with
        readBuf := readBuf'
        scChannel := w.scChannel ++ messages pending buf } := by
      simp only [turn, h.running, if_true, processStream, hdrain, hmessages, List.nil_append]
    refine .inl ⟨rfl, hgood, ?_, ?_⟩
    · rw [hturn]
    · rw [hturn]
      exact ⟨h.running, hnone, hrest'.trans hrest, by simp⟩
  · -- the first chunk that is not UTF-8 is taken out
    obtain ⟨good, bad, later, hsplit, hgoods, hbad⟩ : ∃ good bad later, waiting ++ chunks = good ++ bad :: later ∧
        (∀ chunk ∈ good, (fromUtf8 chunk).isSome) ∧ fromUtf8 bad = none := by
      push Not at hgood
      obtain ⟨chunk, hchunk, hnone⟩ := hgood
      obtain ⟨bad, hfirst⟩ := Option.isSome_iff_exists.1
        (List.find?_isSome (p := fun chunk => (fromUtf8 chunk).isNone).2 ⟨chunk, hchunk, by simpa using hnone⟩)
      obtain ⟨hbad, good, later, hsplit, hgoods⟩ := List.find?_eq_some_iff_append.1 hfirst
      exact ⟨good, bad, later, hsplit, fun chunk hchunk => by simpa using hgoods chunk hchunk, by simpa using hbad⟩
    obtain ⟨readBuf', hdrain, hlater, hrest'⟩ :=
      @drainMessages_of_bad (w.readBuf ++ buf) bad [] _ good later (Nat.le_refl _) (hframes.trans hsplit) hgoods hbad
    have hturn : w.turn (.read buf) = { w with readBuf := readBuf' } := by
      simp only [turn, h.running, if_true, processStream, hdrain]
    refine .inr ⟨?_, by rw [hturn], fun hchunks => ?_⟩
    · have hmem : bad ∈ waiting ++ chunks := hsplit ▸ List.mem_append_right _ List.mem_cons_self
      rcases List.mem_append.1 hmem with hmem | hmem
      · exact .inl (List.ne_nil_of_mem hmem)
      · exact .inr ⟨bad, hmem, hbad⟩
    · have hall : ∀ chunk ∈ good ++ bad :: later, fromUtf8 chunk = none := by
        intro chunk hchunk
        rw [← hsplit] at hchunk
        rcases List.mem_append.1 hchunk with hchunk | hchunk
        · exact h.bad chunk hchunk
        · exact hchunks chunk hchunk
      obtain rfl : good = [] := by
        refine List.eq_nil_iff_forall_not_mem.2 fun chunk hchunk => ?_
        have hsome := hgoods chunk hchunk
        rw [hall chunk (List.mem_append_left _ hchunk)] at hsome
        cases hsome
      refine ⟨later, ?_, ?_⟩
      · have hlen := congrArg List.length hsplit
        rw [List.length_append, List.nil_append, List.length_cons] at hlen
        omega
      · rw [hturn]
        exact ⟨h.running, hlater, hrest'.trans hrest, fun chunk hchunk =>
          hall chunk (List.mem_cons_of_mem _ hchunk)⟩

/-- A worker that has left its loop does nothing. -/
theorem foldl_turn_of_stopped (h : w.running = false) (events : List WorkerEvent) : events.foldl turn w = w := by
  induction events with
  | nil => rfl
  | cons event events ih =>
    have hturn : w.turn event = w := if_neg (by simp [h])
    rw [List.foldl_cons, hturn, ih]

theorem messages_append (pending buf stream : List UInt8) : messages pending (buf ++ stream)
    = messages pending buf ++ messages (Framing.rest isNul pending buf) stream := by
  rw [messages, frames_append, List.filterMap_append]
  rfl

theorem messages_eq_nil_iff (stream : List UInt8) :
    messages pending stream = [] ↔ ∀ chunk ∈ Framing.frames isNul pending stream, fromUtf8 chunk = none := by
  rw [messages, List.filterMap_eq_nil_iff]

/-- From a worker that is running. -/
theorem Holds.forwards_iff (h : w.Holds waiting pending) :
    (∀ n, ((events.take n).foldl turn w).scChannel
        = w.scChannel ++ messages pending (reads (events.take n)).flatten) ↔
      KeepsApart waiting.length pending (reads events) := by
  induction events generalizing w waiting pending with
  | nil => simp [reads, messages, KeepsApart]
  | cons event events ih =>
    rw [← Nat.and_forall_add_one]
    simp only [List.take_succ_cons, List.foldl_cons, List.take_zero, List.foldl_nil]
    have hstart : w.scChannel = w.scChannel ++ messages pending (reads []).flatten := by simp [reads, messages]
    rw [and_iff_right hstart]
    cases event with
    | command msg =>
      have hturn : w.turn (.command msg) = w := by simp [turn]
      rw [hturn]
      exact ih h
    | readFailed =>
      have hturn : w.turn .readFailed = { w with running := false } := by simp [turn, h.running]
      have hstopped := @foldl_turn_of_stopped { w with running := false } rfl
      simp only [hturn, hstopped, reads, KeepsApart, iff_true]
      exact fun _ => hstart
    | read buf =>
      simp only [reads, List.flatten_cons, messages_append, KeepsApart]
      rcases h.turn_read buf with ⟨rfl, hgood, hforwards, hnext⟩ | ⟨hbad, hforwards, hnext⟩
      · have hlater := ih hnext
        simp only [hforwards, List.append_assoc] at hlater
        rw [if_pos ⟨rfl, hgood⟩]
        exact hlater
      · have hnot : ¬ (waiting.length = 0 ∧ ∀ chunk ∈ Framing.frames isNul pending buf, (fromUtf8 chunk).isSome) := by
          rintro ⟨hzero, hgood⟩
          rcases hbad with hwaiting | ⟨chunk, hchunk, hnone⟩
          · exact hwaiting (List.length_eq_zero_iff.1 hzero)
          · have hsome := hgood chunk hchunk
            rw [hnone] at hsome
            cases hsome
        rw [if_neg hnot, ← messages_eq_nil_iff]
        by_cases hnil : messages pending buf = []
        · obtain ⟨waiting', hlen, hholds⟩ := hnext ((messages_eq_nil_iff buf).1 hnil)
          have hlater := ih hholds
          rw [hforwards, hlen] at hlater
          rw [and_iff_right hnil, ← hlater]
          simp only [hnil, List.nil_append]
        · -- nothing is forwarded, but there was a message
          refine iff_of_false (fun hall => hnil ?_) fun hkeeps => hnil hkeeps.1
          have hfirst := hall 0
          simp only [List.take_zero, List.foldl_nil, hforwards] at hfirst
          exact (List.append_eq_nil_iff.1 (List.self_eq_append_right.1 hfirst)).1

end CxxrtlWorker

/-- Which ways of cutting a stream into reads have each message forwarded as soon as its NUL has been read, and
nothing else. -/
theorem framed_iff (events : List WorkerEvent) : Framed events ↔ KeepsApart 0 [] (reads events) :=
  CxxrtlWorker.holds_new.forwards_iff

/-- A message, a byte that is not UTF-8 and another message come in one read: neither of the messages is
forwarded. -/
theorem not_framed_oneRead : ¬ Framed [.read [97, 0, 255, 0, 98, 0]] := by
  intro h
  have hall := h 1
  revert hall
  decide

end Cxxrtl
