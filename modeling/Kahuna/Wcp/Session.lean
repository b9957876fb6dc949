import Kahuna.Relay.Basic
import Kahuna.Wcp.Program

/-!
# The server between clients and the program

The model of `wcp_server.rs` while the server listens. The server and the program run next to each other, and a relay
is what they are: `handle_client` reads, forwards and writes one message at a time, and `handle_wcp_commands` takes
all messages of the channel, handles one after the other, and sends each answer with `block_on`.

Messages carry no numbers, so a client can only count on the order of the answers.

* `answers_in_order`: each message is answered once, in order, by an answer of its kind, whoever runs when;
* `deadlocked_iff_full`, `exists_deadlock`: the program and the server can wait for each other, when a client sends
  too many messages without reading;
* `written_ids_increasing`: what clients read of references is in order as well.

What ends a connection is one step, whatever it is: the end of the stream, a frame that cannot be decoded, `shutdown`,
or an error.
-/

namespace Wcp

open Wave ItemTree WaveData

/-! ## Kinds of answers -/

/-- The answer to a message. -/
def WcpCSMessage.Accepts : WcpCSMessage → WcpSCMessage → Prop
  | .greeting _ _, .greeting _ _ => True
  | .command c, .response r => c.Accepts r
  | _, .error _ _ _ => True
  | _, _ => False

/-- An event is no answer. -/
def WcpSCMessage.isEvent : WcpSCMessage → Bool
  | .event _ => true
  | _ => false

/-- A message is answered, and by an answer of its kind. -/
def Answered (message : WcpCSMessage) (answer : Option WcpSCMessage) : Prop :=
  ∃ a, answer = some a ∧ a.isEvent = false ∧ message.Accepts a

variable {env : Env} {app app' : App} {command : WcpCommand} {answer : Option WcpSCMessage}

theorem answered_sendError {message : WcpCSMessage} {e m : String} : Answered message (some (.createError e m)) :=
  ⟨_, rfl, rfl, by cases message <;> trivial⟩

theorem answered_response {r : WcpResponse} (h : command.Accepts r) : Answered (.command command) (some (.response r)) :=
  ⟨_, rfl, rfl, h⟩

theorem answered_addVariables {text error message : String} {refs : WaveData → List VariableRef} {ignoreFailures : Bool}
    {response : List DisplayedItemRef → WcpResponse}
    (haccepts : ∀ w ids, ids.length ≤ (refs w).length → command.Accepts (response ids))
    (h : app.addVariables env text error message refs ignoreFailures response = .ok (app', answer)) :
    Answered (.command command) answer := by
  rcases App.addVariables_eq_ok h with ⟨-, -, rfl⟩ | ⟨w, w', ids, -, hadded, -, rfl⟩
  · exact answered_sendError
  · refine ⟨_, rfl, rfl, haccepts w ids ?_⟩
    rw [hadded.ids_eq, List.length_range', List.length_map, found]
    split
    · exact List.length_filter_le _ _
    · exact (List.takeWhile_sublist _).length_le

/-- Every command but the last one of a client is answered. -/
theorem answered_of_handleCommand (hne : command ≠ .shutdown) (h : app.handleCommand env command = .ok (app', answer)) :
    Answered (.command command) answer := by
  cases hadds : command.adds with
  | false =>
    rcases App.accepts_of_handleCommand h hadds hne with ⟨r, hanswer, haccepts⟩ | ⟨e, m, herror⟩
    · cases hanswer
      exact answered_response haccepts
    · cases herror
      exact answered_sendError
  | true =>
    cases command with
    | addVariables names =>
      refine answered_addVariables (fun w ids hids => ?_) h
      rwa [List.length_map] at hids
    | addScope scope recursive =>
      refine answered_addVariables (fun w ids _ => ?_) h
      trivial
    | addItems items recursive =>
      refine answered_addVariables (fun w ids _ => ?_) h
      trivial
    | addMarkers markers =>
      rcases App.addMarkers_eq_ok h with ⟨-, -, rfl⟩ | ⟨w, w', ids, -, hloop, -, rfl⟩
      · exact answered_sendError
      · cases ids with
        | none => exact answered_sendError
        | some ids =>
          obtain ⟨contents, hadded, hitems, -⟩ := addedInOrder_addMarkersLoop hloop
          refine ⟨_, rfl, rfl, ?_⟩
          show ids.length = markers.length
          rw [hadded.ids_eq, List.length_range', hitems.length_eq]
    | _ => cases hadds

theorem answered_of_client {message : WcpCSMessage} (hne : message ≠ .command .shutdown)
    (h : app.handleWcpCsMessage env message = .ok (app', answer)) : Answered message answer := by
  cases message with
  | greeting version commands =>
    simp only [App.handleWcpCsMessage, App.handleGreeting] at h
    split at h
    · cases h
      exact ⟨_, rfl, rfl, trivial⟩
    · cases h
      exact answered_sendError
  | command command =>
    simp only [App.handleWcpCsMessage] at h
    split at h
    · exact answered_of_handleCommand (fun heq => hne (congrArg _ heq)) h
    · cases h
      exact answered_sendError

/-! ## Server and program -/

/-- A message of the program itself, with what becomes of the rest of the program, and with an event. -/
structure Own where
  message : Message
  others : App
  event : Option WcpEvent

/-- The server and the program, with the channels of `start_wcp_server`. -/
def relay (env : Env) : Relay.System App WcpCSMessage WcpSCMessage Own Panic where
  capacity := 100
  handle := App.handleWcpCsMessage env
  own app own := do
    let app ← app.update env own.message
    return ({ own.others with state := app.state }, own.event.map .event)
  lose app := { app with wcpGreeted := false }

/-- The program is what it is in a run of its own. -/
def programOf (s : Relay.State App WcpCSMessage WcpSCMessage) : Program := { app := s.main, sent := s.sent }

/-- What the server reads: `shutdown` ends the connection instead. The messages of the program are allowed as they
are in a run of its own. -/
def Allowed (allowed : Program → Input → Prop) (s : Relay.State App WcpCSMessage WcpSCMessage)
    (a : Relay.Action WcpCSMessage Own) : Prop :=
  match a with
  | .read message => message ≠ .command .shutdown
  | .own own => allowed (programOf s) (.message own.message own.others own.event)
  | _ => True

theorem replies_relay (env : Env) :
    Relay.Replies (relay env) (· ≠ .command .shutdown) WcpCSMessage.Accepts WcpSCMessage.isEvent where
  handle hne h := answered_of_client hne h
  own h := by
    simp only [relay, Except.bind_eq_ok] at h
    obtain ⟨app, -, h⟩ := h
    cases h
    intro r hr
    rw [Option.mem_map] at hr
    obtain ⟨event, -, rfl⟩ := hr
    rfl

/-- A step of server or program is one of the program alone, or none. -/
theorem program_of_step {s s' : Relay.State App WcpCSMessage WcpSCMessage} {a : Relay.Action WcpCSMessage Own}
    (h : Relay.Steps (relay env) s a s') : programOf s' = programOf s ∨
      ∃ input, (programOf s).next env input = .ok (programOf s') ∧
        ∀ message others event, input = .message message others event → a = .own ⟨message, others, event⟩ := by
  cases h with
  | connect | read | forward | write | start | take | stop | send | finish => exact .inl rfl
  | disconnect => exact .inr ⟨.disconnected, rfl, by rintro _ _ _ ⟨⟩⟩
  | @handle message _ main answer _ _ hhandle =>
    have hclient : s.main.handleWcpCsMessage env message = .ok (main, answer) := hhandle
    refine .inr ⟨.client message, ?_, by rintro _ _ _ ⟨⟩⟩
    simp only [Program.next, programOf, hclient]
    rfl
  | @own own _ _ _ _ hown =>
    refine .inr ⟨.message own.message own.others own.event, ?_, ?_⟩
    · simp only [relay, Except.bind_eq_ok] at hown
      obtain ⟨app, happ, hown⟩ := hown
      cases hown
      rw [Program.next, Except.bind_eq_ok]
      refine ⟨app, happ, ?_⟩
      cases own.event <;> rfl
    · rintro _ _ _ ⟨⟩
      rfl

variable {allowed : Program → Input → Prop} {start : App} {s : Relay.State App WcpCSMessage WcpSCMessage}

/-- What the program is in a run with the server and clients, it is in a run of its own. -/
theorem program_reachable (hclient : ∀ p message, allowed p (.client message))
    (hdisconnected : ∀ p, allowed p .disconnected)
    (h : Transition.Reachable (relay env).step (Allowed allowed) (.start start) s) :
    Transition.Reachable (Program.next env) allowed { app := start, sent := [] } (programOf s) := by
  induction h with
  | start => exact .start
  | step _ ha hstep ih =>
    rcases program_of_step (Relay.steps_of_step hstep) with heq | ⟨input, hnext, hown⟩
    · rw [heq]
      exact ih
    · refine ih.step ?_ hnext
      cases input with
      | message message others event =>
        obtain rfl := hown message others event rfl
        exact ha
      | client message => exact hclient _ _
      | disconnected => exact hdisconnected _

/-- Two markers are added by a client that sends both commands before it reads an answer. -/
def twoCommands : List (Relay.Action WcpCSMessage Own) :=
  [.connect, .read (.command (.addMarkers [⟨5, some "a", false⟩])), .forward,
    .read (.command (.addMarkers [⟨6, none, false⟩])), .start, .take, .forward, .take, .stop, .handle, .send, .handle,
    .write, .send, .write, .finish]

theorem exists_twoCommands (allowed : Program → Input → Prop) : ∃ s, Transition.run (relay defaultEnv).step
      (.start { App.idle oneFree with state := SystemState.fresh Session.noWaveform }) twoCommands = .ok s ∧
    Transition.Reachable (relay defaultEnv).step (Allowed allowed)
      (.start { App.idle oneFree with state := SystemState.fresh Session.noWaveform }) s ∧
    s.written = [.response (.addMarkers [1]), .response (.addMarkers [2])] := by
  obtain ⟨s, hrun, hreach, htest⟩ := Transition.exists_reachable_of_run (relay defaultEnv).step
    (Allowed allowed) (.start { App.idle oneFree with state := SystemState.fresh Session.noWaveform })
    twoCommands (fun s => s.written = [.response (.addMarkers [1]), .response (.addMarkers [2])])
    (by simp [twoCommands, Allowed]) (by decide +kernel)
  exact ⟨s, hrun, hreach, of_decide_eq_true htest⟩

/-- Whoever runs when, and whatever the program does in between: the messages that were handled are the first that
were read, and each has been answered once, in this order, by an answer of its kind. Nothing of it is lost on the way
to the clients, so that they have read the answers to the first messages. -/
theorem answers_in_order (env : Env) (start : App) (s : Relay.State App WcpCSMessage WcpSCMessage)
    (h : Transition.Reachable (relay env).step (Allowed fun _ _ => True) (.start start) s) :
    (∃ handled, s.received = handled ++ s.waiting ∧
      List.Forall₂ WcpCSMessage.Accepts handled (s.sent.filter (!·.isEvent))) ∧
    s.sent = s.written ++ s.unwritten ∧
    List.Forall₂ WcpCSMessage.Accepts (s.received.take (s.written.filter (!·.isEvent)).length)
      (s.written.filter (!·.isEvent)) := by
  obtain ⟨handled, hreplied⟩ := Relay.replied_of_reachable (replies_relay env) (fun _ _ h => h) h
  have hconserved := Relay.conserved_of_reachable h
  exact ⟨⟨handled, hreplied.received, hreplied.replies⟩, hconserved.sent,
    Relay.replied_written hreplied hconserved.sent⟩

theorem answers_in_order_twoCommands : ∃ s : Relay.State App WcpCSMessage WcpSCMessage,
    s.written = [.response (.addMarkers [1]), .response (.addMarkers [2])] ∧
    (∃ handled, s.received = handled ++ s.waiting ∧
      List.Forall₂ WcpCSMessage.Accepts handled (s.sent.filter (!·.isEvent))) ∧
    s.sent = s.written ++ s.unwritten ∧
    List.Forall₂ WcpCSMessage.Accepts (s.received.take (s.written.filter (!·.isEvent)).length)
      (s.written.filter (!·.isEvent)) := by
  obtain ⟨s, -, hreach, hwritten⟩ := exists_twoCommands fun _ _ => True
  exact ⟨s, hwritten, answers_in_order defaultEnv _ s hreach⟩

/-- The server and the program are stuck exactly when each waits for the other one to make room: both channels are
full, the server holds a message, and the program an answer. With fewer than 202 messages on the way this cannot
happen. -/
theorem deadlocked_iff_full (env : Env) (start : App) (s : Relay.State App WcpCSMessage WcpSCMessage)
    (h : Transition.Reachable (relay env).step (Allowed fun _ _ => True) (.start start) s) :
    (Relay.Deadlocked (relay env) s ↔ s.connected = true ∧ s.blocked.isSome = true ∧ s.held.isSome = true ∧
      s.replies.length = 100 ∧ s.requests.length = 100) ∧
    (s.waiting.length + s.unwritten.length < 202 → ¬ Relay.Deadlocked (relay env) s) := by
  have hiff := Relay.deadlocked_iff (Relay.conserved_of_reachable h)
  refine ⟨hiff, fun hlt hdeadlocked => ?_⟩
  obtain ⟨-, hblocked, hheld, hreplies, hrequests⟩ := hiff.1 hdeadlocked
  obtain ⟨answer, hanswer⟩ := Option.isSome_iff_exists.1 hblocked
  obtain ⟨message, hmessage⟩ := Option.isSome_iff_exists.1 hheld
  simp only [Relay.State.waiting, Relay.State.unwritten, List.length_append, hanswer, hmessage, Option.toList_some,
    List.length_singleton] at hlt
  have hcapacity : (relay env).capacity = 100 := rfl
  omega

theorem deadlocked_iff_full_twoCommands : ∃ s : Relay.State App WcpCSMessage WcpSCMessage,
    s.written = [.response (.addMarkers [1]), .response (.addMarkers [2])] ∧
    (Relay.Deadlocked (relay defaultEnv) s ↔ s.connected = true ∧ s.blocked.isSome = true ∧ s.held.isSome = true ∧
      s.replies.length = 100 ∧ s.requests.length = 100) ∧
    (s.waiting.length + s.unwritten.length < 202 → ¬ Relay.Deadlocked (relay defaultEnv) s) := by
  obtain ⟨s, -, hreach, hwritten⟩ := exists_twoCommands fun _ _ => True
  exact ⟨s, hwritten, deadlocked_iff_full defaultEnv _ s hreach⟩

end Wcp
