import Kahuna.Transition.Basic
import Mathlib.Data.List.Forall2
import Mathlib.Order.Lattice
import Mathlib.Tactic.Common

/-!
# A relay between clients and a main loop

A relay reads requests of a client and hands them to a main loop, and writes the replies of the main loop to the
client. Both directions are bounded channels. The main loop takes all requests that there are, and then handles one
after the other; it waits when the channel for its replies is full. The relay does one thing at a time as well, and
waits when the channel for the requests is full. Clients come and go, and the channels stay.

* `Conserved`, `conserved_of_reachable`: nothing is lost, and nothing changes its place;
* `Replied`, `replied_of_reachable`: the replies come in the order of the requests, one for each;
* `deadlocked_iff`: when relay and main loop wait for each other;
* `exists_deadlocked`: so they can, for every main loop that has a request which it always replies to.
-/

namespace Relay

/-- What the main loop does: something of its own, taking requests, or handling those it has taken. -/
inductive Phase (κ : Type) where
  | idle
  | taking (requests : List κ)
  | handling (requests : List κ)

/-- The requests that have been taken and not handled. -/
def Phase.requests {κ : Type} : Phase κ → List κ
  | idle => []
  | taking requests => requests
  | handling requests => requests

/-- Relay, main loop and the channels between them. -/
structure State (σ κ ρ : Type) where
  main : σ
  phase : Phase κ
  /-- The reply that the main loop waits to send. -/
  blocked : Option ρ
  connected : Bool
  /-- The request that the relay waits to hand on. -/
  held : Option κ
  requests : List κ
  replies : List ρ
  /-- All that the relay has read. -/
  received : List κ
  /-- All that the main loop has sent, or waits to send. -/
  sent : List ρ
  /-- All that the relay has written. -/
  written : List ρ

inductive Action (κ μ : Type) where
  | connect
  | disconnect
  | read (request : κ)
  | forward
  | write
  | start
  | take
  | stop
  | handle
  | send
  | finish
  | own (message : μ)

/-- A main loop and the size of its channels. -/
structure System (σ κ ρ μ ε : Type) where
  capacity : ℕ
  handle : σ → κ → Except ε (σ × Option ρ)
  own : σ → μ → Except ε (σ × Option ρ)
  /-- What the main loop is told when a client is gone. -/
  lose : σ → σ

variable {σ κ ρ μ ε : Type}

namespace System

/-- A step that the main loop takes: what it has to send blocks it. -/
def mainStep (s : State σ κ ρ) (phase : Phase κ) (x : Except ε (σ × Option ρ)) :
    Except (Option ε) (State σ κ ρ) :=
  match x with
  | .error e => .error (some e)
  | .ok (main, reply) => .ok { s with main, phase, blocked := reply, sent := s.sent ++ reply.toList }

/-- The steps. An error of the main loop is an error; there is none when a step cannot be taken. -/
def step (S : System σ κ ρ μ ε) (s : State σ κ ρ) (a : Action κ μ) : Except (Option ε) (State σ κ ρ) :=
  match a with
  | .connect => if s.connected then .error none else .ok { s with connected := true }
  | .disconnect =>
    if s.connected ∧ s.held.isNone then .ok { s with connected := false, main := S.lose s.main } else .error none
  | .read request =>
    if s.connected ∧ s.held.isNone then .ok { s with held := some request, received := s.received ++ [request] }
    else .error none
  | .forward =>
    match s.held with
    | some request =>
      if s.requests.length < S.capacity then .ok { s with held := none, requests := s.requests ++ [request] }
      else .error none
    | none => .error none
  | .write =>
    match s.replies with
    | reply :: replies =>
      if s.connected ∧ s.held.isNone then .ok { s with replies, written := s.written ++ [reply] } else .error none
    | [] => .error none
  | .start =>
    match s.phase, s.blocked with
    | .idle, none => .ok { s with phase := .taking [] }
    | _, _ => .error none
  | .take =>
    match s.phase, s.requests with
    | .taking taken, request :: requests => .ok { s with phase := .taking (taken ++ [request]), requests }
    | _, _ => .error none
  | .stop =>
    match s.phase, s.requests with
    | .taking taken, [] => .ok { s with phase := .handling taken }
    | _, _ => .error none
  | .handle =>
    match s.phase, s.blocked with
    | .handling (request :: rest), none => mainStep s (.handling rest) (S.handle s.main request)
    | _, _ => .error none
  | .send =>
    match s.blocked with
    | some reply =>
      if s.replies.length < S.capacity then .ok { s with blocked := none, replies := s.replies ++ [reply] }
      else .error none
    | none => .error none
  | .finish =>
    match s.phase, s.blocked with
    | .handling [], none => .ok { s with phase := .idle }
    | _, _ => .error none
  | .own message =>
    match s.phase, s.blocked with
    | .idle, none => mainStep s .idle (S.own s.main message)
    | _, _ => .error none

end System

namespace State

/-- The start: no client, and nothing to do. -/
def start (main : σ) : State σ κ ρ where
  main := main
  phase := .idle
  blocked := none
  connected := false
  held := none
  requests := []
  replies := []
  received := []
  sent := []
  written := []

/-- The requests on their way, the oldest first. -/
def waiting (s : State σ κ ρ) : List κ := s.phase.requests ++ s.requests ++ s.held.toList

/-- The replies on their way, the oldest first. -/
def unwritten (s : State σ κ ρ) : List ρ := s.replies ++ s.blocked.toList

end State

/-! ## What a step does -/

/-- The steps that can be taken, and what they do. -/
inductive Steps (S : System σ κ ρ μ ε) (s : State σ κ ρ) : Action κ μ → State σ κ ρ → Prop
  | connect : s.connected = false → Steps S s .connect { s with connected := true }
  | disconnect : s.connected = true → s.held = none →
      Steps S s .disconnect { s with connected := false, main := S.lose s.main }
  | read {request : κ} : s.connected = true → s.held = none →
      Steps S s (.read request) { s with held := some request, received := s.received ++ [request] }
  | forward {request : κ} : s.held = some request → s.requests.length < S.capacity →
      Steps S s .forward { s with held := none, requests := s.requests ++ [request] }
  | write {reply : ρ} {replies : List ρ} : s.replies = reply :: replies → s.connected = true → s.held = none →
      Steps S s .write { s with replies, written := s.written ++ [reply] }
  | start : s.phase = .idle → s.blocked = none → Steps S s .start { s with phase := .taking [] }
  | take {taken requests : List κ} {request : κ} : s.phase = .taking taken → s.requests = request :: requests →
      Steps S s .take { s with phase := .taking (taken ++ [request]), requests }
  | stop {taken : List κ} : s.phase = .taking taken → s.requests = [] →
      Steps S s .stop { s with phase := .handling taken }
  | handle {request : κ} {rest : List κ} {main : σ} {reply : Option ρ} : s.phase = .handling (request :: rest) →
      s.blocked = none → S.handle s.main request = .ok (main, reply) →
      Steps S s .handle
        { s with main, phase := .handling rest, blocked := reply, sent := s.sent ++ reply.toList }
  | send {reply : ρ} : s.blocked = some reply → s.replies.length < S.capacity →
      Steps S s .send { s with blocked := none, replies := s.replies ++ [reply] }
  | finish : s.phase = .handling [] → s.blocked = none → Steps S s .finish { s with phase := .idle }
  | own {message : μ} {main : σ} {reply : Option ρ} : s.phase = .idle → s.blocked = none →
      S.own s.main message = .ok (main, reply) →
      Steps S s (.own message) { s with main, phase := .idle, blocked := reply, sent := s.sent ++ reply.toList }

variable {S : System σ κ ρ μ ε} {s s' : State σ κ ρ} {a : Action κ μ}

theorem exists_of_mainStep {phase : Phase κ} {x : Except ε (σ × Option ρ)}
    (h : System.mainStep s phase x = .ok s') : ∃ main reply, x = .ok (main, reply) ∧
      s' = { s with main, phase, blocked := reply, sent := s.sent ++ reply.toList } := by
  unfold System.mainStep at h
  split at h
  · cases h
  next main reply =>
    cases h
    exact ⟨main, reply, rfl, rfl⟩

theorem steps_of_step (h : S.step s a = .ok s') : Steps S s a s' := by
  cases a with
  | connect =>
    simp only [System.step] at h
    split at h
    · cases h
    next hconnected =>
      cases h
      exact .connect (by simpa using hconnected)
  | disconnect =>
    simp only [System.step, Option.isNone_iff_eq_none] at h
    split at h
    next hopen =>
      cases h
      exact .disconnect hopen.1 hopen.2
    · cases h
  | read request =>
    simp only [System.step, Option.isNone_iff_eq_none] at h
    split at h
    next hopen =>
      cases h
      exact .read hopen.1 hopen.2
    · cases h
  | forward =>
    simp only [System.step] at h
    split at h
    next request hheld =>
      split at h
      next hroom =>
        cases h
        exact .forward hheld hroom
      · cases h
    · cases h
  | write =>
    simp only [System.step, Option.isNone_iff_eq_none] at h
    split at h
    next reply replies hreplies =>
      split at h
      next hopen =>
        cases h
        exact .write hreplies hopen.1 hopen.2
      · cases h
    · cases h
  | start =>
    simp only [System.step] at h
    split at h
    next hphase hblocked =>
      cases h
      exact .start hphase hblocked
    · cases h
  | take =>
    simp only [System.step] at h
    split at h
    next hphase hrequests =>
      cases h
      exact .take hphase hrequests
    · cases h
  | stop =>
    simp only [System.step] at h
    split at h
    next hphase hrequests =>
      cases h
      exact .stop hphase hrequests
    · cases h
  | handle =>
    simp only [System.step] at h
    split at h
    next hphase hblocked =>
      obtain ⟨main, reply, hhandle, rfl⟩ := exists_of_mainStep h
      exact .handle hphase hblocked hhandle
    · cases h
  | send =>
    simp only [System.step] at h
    split at h
    next hblocked =>
      split at h
      next hroom =>
        cases h
        exact .send hblocked hroom
      · cases h
    · cases h
  | finish =>
    simp only [System.step] at h
    split at h
    next hphase hblocked =>
      cases h
      exact .finish hphase hblocked
    · cases h
  | own message =>
    simp only [System.step] at h
    split at h
    next hphase hblocked =>
      obtain ⟨main, reply, hown, rfl⟩ := exists_of_mainStep h
      exact .own hphase hblocked hown
    · cases h

/-! ## Nothing is lost -/

/-- What was sent has been written, or is on its way; and the channels hold no more than they can. The main loop
does not wait while it takes requests. -/
structure Conserved (S : System σ κ ρ μ ε) (s : State σ κ ρ) : Prop where
  sent : s.sent = s.written ++ s.unwritten
  requests : s.requests.length ≤ S.capacity
  replies : s.replies.length ≤ S.capacity
  taking (taken : List κ) : s.phase = .taking taken → s.blocked = none

theorem conserved_start (main : σ) : Conserved S (.start main) :=
  ⟨rfl, Nat.zero_le _, Nat.zero_le _, fun _ _ => rfl⟩

theorem Conserved.step (hinv : Conserved S s) (h : Steps S s a s') : Conserved S s' := by
  cases h with
  | connect | disconnect | read => exact ⟨hinv.sent, hinv.requests, hinv.replies, hinv.taking⟩
  | forward hheld hroom =>
    refine ⟨hinv.sent, ?_, hinv.replies, hinv.taking⟩
    rw [List.length_append]
    exact hroom
  | write hreplies =>
    have hlength := hinv.replies
    rw [hreplies, List.length_cons] at hlength
    refine ⟨?_, hinv.requests, (Nat.le_succ _).trans hlength, hinv.taking⟩
    rw [hinv.sent, State.unwritten, State.unwritten, hreplies]
    simp
  | start hphase hblocked => exact ⟨hinv.sent, hinv.requests, hinv.replies, fun _ _ => hblocked⟩
  | take hphase hrequests =>
    have hlength := hinv.requests
    rw [hrequests, List.length_cons] at hlength
    exact ⟨hinv.sent, (Nat.le_succ _).trans hlength, hinv.replies, fun _ _ => hinv.taking _ hphase⟩
  | stop => exact ⟨hinv.sent, hinv.requests, hinv.replies, nofun⟩
  | handle hphase hblocked | own hphase hblocked =>
    refine ⟨?_, hinv.requests, hinv.replies, nofun⟩
    rw [hinv.sent, State.unwritten, State.unwritten, hblocked]
    simp
  | send hblocked hroom =>
    refine ⟨?_, hinv.requests, ?_, fun _ _ => rfl⟩
    · rw [hinv.sent, State.unwritten, State.unwritten, hblocked]
      simp
    · rw [List.length_append]
      exact hroom
  | finish hphase hblocked => exact ⟨hinv.sent, hinv.requests, hinv.replies, nofun⟩

variable {allowed : State σ κ ρ → Action κ μ → Prop} {main : σ}

theorem conserved_of_reachable (h : Transition.Reachable S.step allowed (.start main) s) : Conserved S s :=
  h.invariant (conserved_start main) fun _ _ _ hinv _ hstep => hinv.step (steps_of_step hstep)

/-! ## Replies in order -/

/-- The main loop replies to each request, and sends only events otherwise. -/
structure Replies (S : System σ κ ρ μ ε) (P : κ → Prop) (R : κ → ρ → Prop) (isEvent : ρ → Bool) : Prop where
  handle {main main' : σ} {request : κ} {reply : Option ρ} : P request → S.handle main request = .ok (main', reply) →
    ∃ r, reply = some r ∧ isEvent r = false ∧ R request r
  own {main main' : σ} {message : μ} {reply : Option ρ} : S.own main message = .ok (main', reply) →
    ∀ r ∈ reply, isEvent r = true

/-- The requests that have been handled are the first that were read, and what was sent is one reply for each of
them, in their order, with events in between. -/
structure Replied (P : κ → Prop) (R : κ → ρ → Prop) (isEvent : ρ → Bool) (s : State σ κ ρ) (handled : List κ) :
    Prop where
  received : s.received = handled ++ s.waiting
  replies : List.Forall₂ R handled (s.sent.filter (!isEvent ·))
  all (request : κ) : request ∈ s.waiting → P request

variable {P : κ → Prop} {R : κ → ρ → Prop} {isEvent : ρ → Bool} {handled : List κ}

/-- A step that moves requests on their way. -/
theorem Replied.of_waiting_eq (hinv : Replied P R isEvent s handled) (hreceived : s'.received = s.received)
    (hsent : s'.sent = s.sent) (hwaiting : s'.waiting = s.waiting) : Replied P R isEvent s' handled :=
  ⟨by rw [hreceived, hwaiting, hinv.received], by rw [hsent]; exact hinv.replies, by rw [hwaiting]; exact hinv.all⟩

theorem Replied.step (hreplies : Replies S P R isEvent) (hread : ∀ request, a = .read request → P request)
    (hinv : Replied P R isEvent s handled) (h : Steps S s a s') : ∃ handled', Replied P R isEvent s' handled' := by
  cases h with
  | connect | disconnect | write | send => exact ⟨handled, hinv.of_waiting_eq rfl rfl rfl⟩
  | @read request hconnected hheld =>
    have hwaiting : s.waiting = s.phase.requests ++ s.requests := by
      rw [State.waiting, hheld, Option.toList_none, List.append_nil]
    refine ⟨handled, ?_, hinv.replies, ?_⟩
    · show s.received ++ [request] = handled ++ (s.phase.requests ++ s.requests ++ [request])
      rw [hinv.received, hwaiting, List.append_assoc]
    · show ∀ r ∈ s.phase.requests ++ s.requests ++ [request], P r
      rw [← hwaiting]
      exact List.forall_mem_append.2 ⟨hinv.all, List.forall_mem_singleton.2 (hread request rfl)⟩
  | forward hheld hroom =>
    refine ⟨handled, hinv.of_waiting_eq rfl rfl ?_⟩
    simp [State.waiting, hheld]
  | start hphase hblocked =>
    refine ⟨handled, hinv.of_waiting_eq rfl rfl ?_⟩
    simp [State.waiting, hphase, Phase.requests]
  | take hphase hrequests =>
    refine ⟨handled, hinv.of_waiting_eq rfl rfl ?_⟩
    simp [State.waiting, hphase, hrequests, Phase.requests]
  | stop hphase hrequests =>
    refine ⟨handled, hinv.of_waiting_eq rfl rfl ?_⟩
    simp [State.waiting, hphase, Phase.requests]
  | finish hphase hblocked =>
    refine ⟨handled, hinv.of_waiting_eq rfl rfl ?_⟩
    simp [State.waiting, hphase, Phase.requests]
  | @handle request rest main reply hphase hblocked hhandle =>
    -- the request that is handled is the oldest one on its way
    have hwaiting : s.waiting = request :: (rest ++ s.requests ++ s.held.toList) := by
      rw [State.waiting, hphase, Phase.requests, List.cons_append, List.cons_append]
    obtain ⟨hrequest, hrest⟩ := List.forall_mem_cons.1 (hwaiting ▸ hinv.all)
    obtain ⟨r, rfl, hevent, hr⟩ := hreplies.handle hrequest hhandle
    refine ⟨handled ++ [request], ?_, ?_, hrest⟩
    · show s.received = handled ++ [request] ++ (rest ++ s.requests ++ s.held.toList)
      rw [hinv.received, hwaiting, ← List.append_cons]
    · show List.Forall₂ R (handled ++ [request]) ((s.sent ++ [r]).filter (!isEvent ·))
      rw [List.filter_append, List.filter_singleton, hevent]
      exact List.rel_append hinv.replies (.cons hr .nil)
  | @own message main reply hphase hblocked hown =>
    -- events are left out of the replies
    have hnone : reply.toList.filter (!isEvent ·) = [] := by
      rw [List.filter_eq_nil_iff]
      intro r hr
      simpa using hreplies.own hown r (by simpa using hr)
    refine ⟨handled, ?_, ?_, ?_⟩
    · rw [hinv.received, State.waiting, State.waiting, hphase]
    · rw [List.filter_append, hnone, List.append_nil]
      exact hinv.replies
    · have hall := hinv.all
      rw [State.waiting, hphase] at hall
      exact hall

theorem replied_of_reachable (hreplies : Replies S P R isEvent)
    (hread : ∀ s request, allowed s (.read request) → P request)
    (h : Transition.Reachable S.step allowed (.start main) s) : ∃ handled, Replied P R isEvent s handled := by
  have hstart : Replied P R isEvent (.start main : State σ κ ρ) [] := ⟨rfl, .nil, nofun⟩
  refine h.invariant (I := fun s => ∃ handled, Replied P R isEvent s handled) ⟨[], hstart⟩ ?_
  rintro s a s' ⟨handled, hinv⟩ ha hstep
  exact hinv.step hreplies (fun request heq => hread s request (heq ▸ ha)) (steps_of_step hstep)

/-- What has been written replies to the first requests, one reply to each. -/
theorem replied_written (hreplied : Replied P R isEvent s handled) (hsent : s.sent = s.written ++ s.unwritten) :
    List.Forall₂ R (s.received.take (s.written.filter (!isEvent ·)).length) (s.written.filter (!isEvent ·)) := by
  have hall := hreplied.replies
  rw [hsent, List.filter_append] at hall
  have hle : (s.written.filter (!isEvent ·)).length ≤ handled.length := by
    rw [hall.length_eq, List.length_append]
    exact Nat.le_add_right _ _
  rw [hreplied.received, List.take_append_of_le_length hle]
  exact List.forall₂_take_append _ _ _ hall

/-! ## Waiting for each other -/

/-- Neither relay nor main loop can take a step, whatever the clients do. -/
def Deadlocked (S : System σ κ ρ μ ε) (s : State σ κ ρ) : Prop := ∀ a, S.step s a = .error none

/-- A main loop that is not blocked can take a step. -/
theorem Deadlocked.isSome_blocked (h : Deadlocked S s) : s.blocked.isSome = true := by
  rw [Option.isSome_iff_ne_none]
  intro hblocked
  -- each phase has a step that only needs the main loop not to be blocked
  match hphase : s.phase, hrequests : s.requests with
  | .idle, _ =>
    have hstart := h .start
    simp [System.step, hphase, hblocked] at hstart
  | .taking taken, [] =>
    have hstop := h .stop
    simp [System.step, hphase, hrequests] at hstop
  | .taking taken, request :: requests =>
    have htake := h .take
    simp [System.step, hphase, hrequests] at htake
  | .handling [], _ =>
    have hfinish := h .finish
    simp [System.step, hphase, hblocked] at hfinish
  | .handling (request :: rest), _ =>
    have hhandle := h .handle
    simp only [System.step, hphase, hblocked, System.mainStep] at hhandle
    split at hhandle
    · cases hhandle
    · cases hhandle

/-- The main loop fails only when it is not blocked. -/
theorem blocked_of_step_error {e : ε} (h : S.step s a = .error (some e)) : s.blocked = none := by
  cases a with
  | handle =>
    simp only [System.step] at h
    split at h
    next hblocked => exact hblocked
    · cases h
  | own message =>
    simp only [System.step] at h
    split at h
    next hblocked => exact hblocked
    · cases h
  | _ =>
    simp only [System.step] at h
    repeat' split at h
    all_goals cases h

/-- Relay and main loop wait for each other when both channels are full and both have something to send, and only
then. -/
theorem deadlocked_iff (hinv : Conserved S s) : Deadlocked S s ↔
    s.connected = true ∧ s.blocked.isSome = true ∧ s.held.isSome = true ∧ s.replies.length = S.capacity ∧
      s.requests.length = S.capacity := by
  constructor
  · intro h
    have hconnected : s.connected = true := by
      have hconnect := h .connect
      simpa [System.step] using hconnect
    have hheld : s.held.isSome = true := by
      have hdisconnect := h .disconnect
      rw [Option.isSome_iff_ne_none]
      intro hnone
      simp [System.step, hconnected, hnone] at hdisconnect
    obtain ⟨reply, hreply⟩ := Option.isSome_iff_exists.1 h.isSome_blocked
    obtain ⟨request, hrequest⟩ := Option.isSome_iff_exists.1 hheld
    refine ⟨hconnected, h.isSome_blocked, hheld, ?_, ?_⟩
    · have hsend := h .send
      simp only [System.step, hreply, ite_eq_right_iff, reduceCtorEq, imp_false, not_lt] at hsend
      exact le_antisymm hinv.replies hsend
    · have hforward := h .forward
      simp only [System.step, hrequest, ite_eq_right_iff, reduceCtorEq, imp_false, not_lt] at hforward
      exact le_antisymm hinv.requests hforward
  · rintro ⟨hconnected, hblocked, hheld, hreplies, hrequests⟩ a
    match hstep : S.step s a with
    | .error none => rfl
    | .error (some e) =>
      rw [blocked_of_step_error hstep] at hblocked
      cases hblocked
    | .ok s' =>
      exfalso
      -- each step needs the client to be gone, something not to be held, or room in a channel
      cases steps_of_step hstep with
      | connect h =>
        rw [hconnected] at h
        cases h
      | disconnect _ h | read _ h | write _ _ h =>
        rw [h] at hheld
        cases hheld
      | forward _ h => exact h.ne hrequests
      | send _ h => exact h.ne hreplies
      | start _ h | handle _ h | finish _ h | own _ h =>
        rw [h] at hblocked
        cases hblocked
      | take h =>
        rw [hinv.taking _ h] at hblocked
        cases hblocked
      | stop h =>
        rw [hinv.taking _ h] at hblocked
        cases hblocked

/-! ### How they come to wait -/

section Flood

/-- A state like this can be reached, in which there is a client. -/
def Can (S : System σ κ ρ μ ε) (allowed : State σ κ ρ → Action κ μ → Prop) (main : σ) (phase : Phase κ)
    (blocked : Bool) (held : Option κ) (requests : List κ) (replies : ℕ) : Prop :=
  ∃ s, Transition.Reachable S.step allowed (.start main) s ∧ s.connected = true ∧ s.phase = phase ∧
    s.blocked.isSome = blocked ∧ s.held = held ∧ s.requests = requests ∧ s.replies.length = replies

variable {request : κ} {phase : Phase κ} {blocked : Bool} {held : Option κ} {requests taken : List κ} {replies n : ℕ}
  (hallowed : ∀ s a, (∀ r, a = .read r → r = request) → (∀ m, a ≠ .own m) → allowed s a)

include hallowed

/-- The client sends the request. -/
theorem Can.read (h : Can S allowed main phase blocked none requests replies) :
    Can S allowed main phase blocked (some request) requests replies := by
  obtain ⟨s, hreach, hconnected, hphase, hblocked, hheld, hrequests, hreplies⟩ := h
  have hstep : S.step s (.read request)
      = .ok { s with held := some request, received := s.received ++ [request] } := by
    rw [System.step, if_pos ⟨hconnected, Option.isNone_iff_eq_none.2 hheld⟩]
  refine ⟨_, hreach.step (hallowed _ (.read request) ?_ nofun) hstep, hconnected, hphase, hblocked, rfl, hrequests,
    hreplies⟩
  rintro r ⟨⟩
  rfl

theorem Can.forward (h : Can S allowed main phase blocked (some request) requests replies)
    (hroom : requests.length < S.capacity) :
    Can S allowed main phase blocked none (requests ++ [request]) replies := by
  obtain ⟨s, hreach, hconnected, hphase, hblocked, hheld, rfl, hreplies⟩ := h
  have hstep : S.step s .forward = .ok { s with held := none, requests := s.requests ++ [request] } := by
    simp only [System.step, hheld]
    rw [if_pos hroom]
  exact ⟨_, hreach.step (hallowed _ .forward nofun nofun) hstep, hconnected, hphase, hblocked, rfl, rfl, hreplies⟩

/-- The channel to the main loop is filled. -/
theorem Can.fill (h : Can S allowed main phase blocked none [] replies) (hn : n ≤ S.capacity) :
    Can S allowed main phase blocked none (List.replicate n request) replies := by
  induction n with
  | zero => exact h
  | succ n ih =>
    rw [List.replicate_succ']
    refine ((ih (Nat.le_of_succ_le hn)).read hallowed).forward hallowed ?_
    rw [List.length_replicate]
    exact hn

/-- The main loop takes all requests. -/
theorem Can.drain (h : Can S allowed main (.taking taken) blocked held requests replies) :
    Can S allowed main (.taking (taken ++ requests)) blocked held [] replies := by
  induction requests generalizing taken with
  | nil =>
    rw [List.append_nil]
    exact h
  | cons first rest ih =>
    rw [List.append_cons]
    apply ih
    obtain ⟨s, hreach, hconnected, hphase, hblocked, hheld, hrequests, hreplies⟩ := h
    have hstep : S.step s .take = .ok { s with phase := .taking (taken ++ [first]), requests := rest } := by
      simp only [System.step, hphase, hrequests]
    exact ⟨_, hreach.step (hallowed _ .take nofun nofun) hstep, hconnected, rfl, hblocked, hheld, rfl, hreplies⟩

theorem Can.start (h : Can S allowed main .idle false held requests replies) :
    Can S allowed main (.taking []) false held requests replies := by
  obtain ⟨s, hreach, hconnected, hphase, hblocked, hheld, hrequests, hreplies⟩ := h
  have hnone : s.blocked = none := by simpa using hblocked
  have hstep : S.step s .start = .ok { s with phase := .taking [] } := by simp only [System.step, hphase, hnone]
  exact ⟨_, hreach.step (hallowed _ .start nofun nofun) hstep, hconnected, rfl, hblocked, hheld, hrequests, hreplies⟩

theorem Can.stop (h : Can S allowed main (.taking taken) blocked held [] replies) :
    Can S allowed main (.handling taken) blocked held [] replies := by
  obtain ⟨s, hreach, hconnected, hphase, hblocked, hheld, hrequests, hreplies⟩ := h
  have hstep : S.step s .stop = .ok { s with phase := .handling taken } := by simp only [System.step, hphase, hrequests]
  exact ⟨_, hreach.step (hallowed _ .stop nofun nofun) hstep, hconnected, rfl, hblocked, hheld, hrequests, hreplies⟩

variable (hrequest : ∀ main, ∃ main' r, S.handle main request = .ok (main', some r))

include hrequest

theorem Can.handle (h : Can S allowed main (.handling (request :: taken)) false held requests replies) :
    Can S allowed main (.handling taken) true held requests replies := by
  obtain ⟨s, hreach, hconnected, hphase, hblocked, hheld, hrequests, hreplies⟩ := h
  have hnone : s.blocked = none := by simpa using hblocked
  obtain ⟨main', r, hr⟩ := hrequest s.main
  have hstep : S.step s .handle
      = .ok { s with main := main', phase := .handling taken, blocked := some r, sent := s.sent ++ [r] } := by
    simp only [System.step, hphase, hnone, hr, System.mainStep, Option.toList_some]
  exact ⟨_, hreach.step (hallowed _ .handle nofun nofun) hstep, hconnected, rfl, rfl, hheld, hrequests, hreplies⟩

omit hrequest in
theorem Can.send (h : Can S allowed main phase true held requests replies) (hroom : replies < S.capacity) :
    Can S allowed main phase false held requests (replies + 1) := by
  obtain ⟨s, hreach, hconnected, hphase, hblocked, hheld, hrequests, rfl⟩ := h
  obtain ⟨r, hr⟩ := Option.isSome_iff_exists.1 hblocked
  have hstep : S.step s .send = .ok { s with blocked := none, replies := s.replies ++ [r] } := by
    simp only [System.step, hr]
    rw [if_pos hroom]
  refine ⟨_, hreach.step (hallowed _ .send nofun nofun) hstep, hconnected, hphase, rfl, hheld, hrequests, ?_⟩
  rw [List.length_append, List.length_singleton]

/-- The channel from the main loop is filled. -/
theorem Can.reply (h : Can S allowed main (.handling (List.replicate (n + 1) request)) false held requests 0)
    (hn : n ≤ S.capacity) : Can S allowed main (.handling [request]) false held requests n := by
  have hall : ∀ m, m ≤ n →
      Can S allowed main (.handling (List.replicate (n - m + 1) request)) false held requests m := by
    intro m hm
    induction m with
    | zero => exact h
    | succ m ih =>
      have hleft : n - m + 1 = n - (m + 1) + 1 + 1 := by omega
      have hm' := ih (Nat.le_of_succ_le hm)
      rw [hleft, List.replicate_succ] at hm'
      exact (hm'.handle hallowed hrequest).send hallowed (hm.trans hn)
  have hn' := hall n le_rfl
  rwa [Nat.sub_self] at hn'

/-- A client that sends one request again and again, and reads no replies, can make relay and main loop wait for each
other: twice as many requests as a channel holds, and two more, are enough. -/
theorem exists_deadlocked (hcapacity : 0 < S.capacity) :
    ∃ s, Transition.Reachable S.step allowed (.start main) s ∧ Deadlocked S s := by
  have hstart : Can S allowed main .idle false none [] 0 := by
    have hstep : S.step (.start main) .connect = .ok { State.start main with connected := true } := rfl
    exact ⟨_, Transition.Reachable.start.step (hallowed _ .connect nofun nofun) hstep, rfl, rfl, rfl, rfl, rfl, rfl⟩
  -- the relay has one more request than the channel holds when the main loop starts to take them
  have htaken : Can S allowed main (.taking (List.replicate S.capacity request)) false (some request) [] 0 := by
    have hdrain := ((((hstart.fill hallowed le_rfl).read hallowed).start hallowed).drain hallowed)
    rwa [List.nil_append] at hdrain
  have hhandling : Can S allowed main (.handling (List.replicate (S.capacity + 1) request)) false none [] 0 := by
    have hdrain := ((htaken.forward hallowed hcapacity).drain hallowed).stop hallowed
    rwa [List.nil_append, ← List.replicate_succ'] at hdrain
  have hfull := ((hhandling.fill hallowed le_rfl).read hallowed)
  obtain ⟨s, hreach, hconnected, -, hblocked, hheld, hrequests, hreplies⟩ :=
    (hfull.reply hallowed hrequest le_rfl).handle hallowed hrequest
  refine ⟨s, hreach, (deadlocked_iff (conserved_of_reachable hreach)).2 ⟨hconnected, hblocked, ?_, hreplies, ?_⟩⟩
  · rw [hheld]
    rfl
  · rw [hrequests, List.length_replicate]

end Flood

end Relay
