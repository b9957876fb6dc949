import Kahuna.Cxxrtl.Basic
import Kahuna.Transition.Basic
import Mathlib.Logic.Relation

/-!
# A CXXRTL container and its server

The container of a client, and a server that answers the commands in the order in which they were sent,
each with one response or one error. The server may answer with a response of any kind. In between it may
send events, and messages that the client cannot parse.

- `Send`: what a call of the client may do, one command at a time.
- `Receives`: what the client makes of a message.
- `Paired`: the callbacks wait for the replies that are on their way, and for the answers to the commands
  that are.
-/

namespace Cxxrtl

open Wave (ScopeRef VariableRef)

/-! ## The calls -/

/-- The calls of a container that change it. -/
inductive Call where
  | modules
  | rootModules
  | moduleExists (module : ScopeRef)
  | childScopes (parent : ScopeRef)
  | variablesInModule (module : ScopeRef)
  | noVariablesInModule (module : ScopeRef)
  | variableMeta (var : VariableRef)
  | maxTimestamp
  | queryVariable (var : VariableRef) (time : ℕ)
  | loadVariables (vars : List VariableRef)
  | simulationStatus
  | unpause
  | pause

/-- The container after a call. -/
def Call.apply (c : CxxrtlContainer) : Call → CxxrtlContainer
  | .modules => c.modules.2
  | .rootModules => c.rootModules.2
  | .moduleExists module => (c.moduleExists module).2
  | .childScopes parent => (c.childScopes parent).2
  | .variablesInModule module => (c.variablesInModule module).2
  | .noVariablesInModule module => (c.noVariablesInModule module).2
  | .variableMeta var => (c.variableMeta var).2
  | .maxTimestamp => c.maxTimestamp.2
  | .queryVariable var time => (c.queryVariable var time).2
  | .loadVariables vars => c.loadVariables vars
  | .simulationStatus => c.simulationStatus.2
  | .unpause => c.unpause
  | .pause => c.pause

namespace CxxrtlContainer

variable {c : CxxrtlContainer}

/-- The container after a command was sent, and its data changed. -/
def send (c : CxxrtlContainer) (data : CxxrtlData) (command : CxxrtlCommand) (f : Callback) :
    CxxrtlContainer :=
  { c with data, sending := c.sending.runCommand command f }

/-- What a call does to the container, one command at a time. Each cache is asked for when it is out of
date, and waits from then on. -/
inductive Send (c : CxxrtlContainer) : Callback → CxxrtlContainer → Prop
  | listScopes {prev : Option (List ScopeKey)} : c.data.scopesCache = .uncached prev →
      Send c .listScopes
        (c.send { c.data with scopesCache := .waiting prev } (.listScopes none) .listScopes)
  | listItems {prev : Option ItemMap} : c.data.allItemsCache = .uncached prev →
      Send c .listItems
        (c.send { c.data with allItemsCache := .waiting prev } (.listItems none) .listItems)
  | listItemsIn {prev : Option ItemMap} (scope : ScopeKey) :
      (c.data.moduleItemCache.get scope).getD .empty = .uncached prev →
      Send c (.listItemsIn scope) (c.send
        { c.data with moduleItemCache := c.data.moduleItemCache.insert scope (.waiting prev) }
        (.listItems (some (scopeRepr scope))) (.listItemsIn scope))
  | getSimulationStatus {prev : Option CxxrtlSimulationStatus} :
      c.data.simulationStatus = .uncached prev →
      Send c .getSimulationStatus (c.send { c.data with simulationStatus := .waiting prev }
        .getSimulationStatus .getSimulationStatus)
  | queryInterval {prev : Option CxxrtlTimestamp} {status : CxxrtlSimulationStatus} {info : ItemMap} :
      c.data.queryResult = .uncached prev → c.data.simulationStatus.get = some status →
      c.data.allItemsCache.get = some info →
      Send c (.queryInterval status.latestTime c.data.loadedSignals info)
        (c.send { c.data with queryResult := .waiting prev }
          (.queryInterval (.zero, status.latestTime) true (some defaultReference) "base64(u32)" false)
          (.queryInterval status.latestTime c.data.loadedSignals info))
  | referenceItems (vars : List VariableRef) :
      Send c .referenceItems (c.send (vars.foldl addSignal c.data)
        (.referenceItems defaultReference (referencedItems (vars.foldl addSignal c.data).loadedSignals))
        .referenceItems)
  | runSimulation (untilTime : CxxrtlTimestamp) :
      Send c .runSimulation (c.send c.data (.runSimulation (some untilTime) [] true) .runSimulation)
  | pauseSimulation : Send c .pauseSimulation (c.send c.data .pauseSimulation .pauseSimulation)

/-- Some commands with these callbacks are sent, one after the other. -/
abbrev Sends (P : Callback → Prop) : CxxrtlContainer → CxxrtlContainer → Prop :=
  Relation.ReflTransGen fun c c' => ∃ cb, P cb ∧ Send c cb c'

/-! ### Calls send commands -/

theorem getScopes_send : c.getScopes.2 = c ∨ Send c .listScopes c.getScopes.2 := by
  unfold getScopes
  rcases CachedData.fetchIfNeeded_cases c.data.scopesCache with ⟨prev, hcache, hfetch⟩ | hfetch
  · rw [hfetch]
    exact .inr (.listScopes hcache)
  · rw [hfetch]
    exact .inl rfl

theorem fetchItemsInModule_send (scope : ScopeRef) :
    (c.fetchItemsInModule scope).2 = c ∨
      Send c (.listItemsIn scope.strs) (c.fetchItemsInModule scope).2 := by
  unfold fetchItemsInModule
  cases hentry : (c.data.moduleItemCache.get scope.strs).getD .empty with
  | uncached prev => exact .inr (.listItemsIn scope.strs hentry)
  | waiting prev => exact .inl rfl
  | filled val => exact .inl rfl

/-- The items that are fetched are those the cache held, and holds after it as well. -/
theorem fetchAllItems_send : (c.fetchAllItems.2 = c ∨ Send c .listItems c.fetchAllItems.2) ∧
    c.fetchAllItems.1 = c.data.allItemsCache.get ∧
    c.fetchAllItems.2.data.allItemsCache.get = c.data.allItemsCache.get ∧
    c.fetchAllItems.2.data.simulationStatus = c.data.simulationStatus := by
  unfold fetchAllItems
  rcases CachedData.fetchIfNeeded_cases c.data.allItemsCache with ⟨prev, hcache, hfetch⟩ | hfetch
  · rw [hfetch, hcache]
    exact ⟨.inr (.listItems hcache), rfl, rfl, rfl⟩
  · rw [hfetch]
    exact ⟨.inl rfl, rfl, rfl, rfl⟩

/-- The status that is fetched is that the cache held, and holds after it as well. -/
theorem rawSimulationStatus_send :
    (c.rawSimulationStatus.2 = c ∨ Send c .getSimulationStatus c.rawSimulationStatus.2) ∧
    c.rawSimulationStatus.1 = c.data.simulationStatus.get ∧
    c.rawSimulationStatus.2.data.simulationStatus.get = c.data.simulationStatus.get := by
  unfold rawSimulationStatus
  rcases CachedData.fetchIfNeeded_cases c.data.simulationStatus with ⟨prev, hcache, hfetch⟩ | hfetch
  · rw [hfetch, hcache]
    exact ⟨.inr (.getSimulationStatus hcache), rfl, rfl⟩
  · rw [hfetch]
    exact ⟨.inl rfl, rfl, rfl⟩

theorem sends_of_send {P : Callback → Prop} {cb : Callback} {c' : CxxrtlContainer}
    (h : c' = c ∨ Send c cb c') (hP : P cb) : Sends P c c' := by
  rcases h with rfl | h
  · exact .refl
  · exact .single ⟨cb, hP, h⟩

theorem maxTimestamp_fst :
    c.maxTimestamp.1 = c.data.simulationStatus.get.map CxxrtlSimulationStatus.latestTime := by
  rw [← rawSimulationStatus_send.2.1]
  rfl

/-- `query_variable` asks for the status, for the items when the status is known, and for the values when
both are. -/
theorem queryVariable_sends (var : VariableRef) (time : ℕ) :
    Sends (fun _ => True) c (c.queryVariable var time).2 := by
  obtain ⟨hsend, -, hstatus⟩ := rawSimulationStatus_send (c := c)
  have hsends : Sends (fun _ => True) c c.rawSimulationStatus.2 := sends_of_send hsend trivial
  unfold queryVariable
  rcases hmax : c.maxTimestamp with ⟨_ | maxTimestamp, c₁⟩
  all_goals
    have hc₁ : c.rawSimulationStatus.2 = c₁ := congrArg Prod.snd hmax
    rw [hc₁] at hsends hstatus
  · exact hsends
  have hlatest : c.data.simulationStatus.get.map CxxrtlSimulationStatus.latestTime = some maxTimestamp :=
    maxTimestamp_fst.symm.trans (congrArg Prod.fst hmax)
  obtain ⟨status, hget, rfl⟩ := Option.map_eq_some_iff.1 hlatest
  obtain ⟨hsend', hinfo, hitems, hkept⟩ := fetchAllItems_send (c := c₁)
  have hsends' := hsends.trans (sends_of_send hsend' trivial)
  dsimp only
  rcases hfetch : c₁.fetchAllItems with ⟨_ | info, c₂⟩
  all_goals rw [hfetch] at hsends' hinfo hitems hkept
  · exact hsends'
  -- neither the status nor the items have changed since they were read
  have hstatus₂ : c₂.data.simulationStatus.get = some status := by rw [hkept, hstatus, hget]
  have hinfo₂ : c₂.data.allItemsCache.get = some info := by rw [hitems, ← hinfo]
  rcases CachedData.fetchIfNeeded_cases c₂.data.queryResult with ⟨prev, hcache, hquery⟩ | hquery
  · dsimp only
    rw [hquery]
    exact hsends'.tail ⟨_, trivial, .queryInterval hcache hstatus₂ hinfo₂⟩
  · dsimp only
    rw [hquery]
    exact hsends'

end CxxrtlContainer

open CxxrtlContainer

/-- Only one call asks for values. -/
def Call.MaySend (call : Call) : Callback → Prop
  | .queryInterval _ _ _ => ∃ var time, call = .queryVariable var time
  | _ => True

/-- A call sends commands, and does nothing else. -/
theorem Call.sends (c : CxxrtlContainer) (call : Call) : Sends call.MaySend c (call.apply c) := by
  match call with
  | .modules | .rootModules | .moduleExists _ | .childScopes _ => exact sends_of_send getScopes_send trivial
  | .variablesInModule module | .noVariablesInModule module =>
    exact sends_of_send (fetchItemsInModule_send module) trivial
  | .variableMeta _ => exact sends_of_send fetchAllItems_send.1 trivial
  | .maxTimestamp | .simulationStatus => exact sends_of_send rawSimulationStatus_send.1 trivial
  | .queryVariable var time =>
    refine Relation.ReflTransGen.mono ?_ _ _ (queryVariable_sends var time)
    rintro c c' ⟨cb, -, hsend⟩
    refine ⟨cb, ?_, hsend⟩
    match cb with
    | .queryInterval _ _ _ => exact ⟨var, time, rfl⟩
    | .listScopes | .listItems | .listItemsIn _ | .referenceItems | .getSimulationStatus | .runSimulation
    | .pauseSimulation => trivial
  | .loadVariables vars => exact sends_of_send (.inr (.referenceItems vars)) trivial
  | .unpause =>
    have hstatus : Sends (Call.MaySend .unpause) c c.rawSimulationStatus.2 :=
      sends_of_send rawSimulationStatus_send.1 trivial
    exact hstatus.trans (sends_of_send (.inr (.runSimulation _)) trivial)
  | .pause => exact sends_of_send (.inr .pauseSimulation) trivial

/-- What the commands of a call keep, the call keeps. -/
theorem Call.keeps {I : CxxrtlContainer → Prop} {c : CxxrtlContainer} (call : Call) (hc : I c)
    (hsend : ∀ c cb c', I c → call.MaySend cb → Send c cb c' → I c') : I (call.apply c) := by
  have hsends := call.sends c
  generalize call.apply c = c' at hsends
  induction hsends with
  | refl => exact hc
  | tail _ hstep ih =>
    obtain ⟨cb, hcb, hstep⟩ := hstep
    exact hsend _ cb _ ih hcb hstep

/-! ## The messages of the server -/

/-- The answer to a command, if a message is one. -/
def reply? : Except String SCMessage → Option (Except String CommandResponse)
  | .ok (.response response) => some (.ok response)
  | .ok (.error message) => some (.error message)
  | _ => none

/-- The message with an answer. -/
def replyMessage : Except String CommandResponse → Except String SCMessage
  | .ok response => .ok (.response response)
  | .error message => .ok (.error message)

@[simp]
theorem reply?_replyMessage (reply : Except String CommandResponse) :
    reply? (replyMessage reply) = some reply := by
  match reply with
  | .ok _ => rfl
  | .error _ => rfl

/-- The command in a message, if it is one. -/
def command? : CSMessage → Option CxxrtlCommand
  | .command command => some command
  | .greeting _ => none

/-- What a callback makes of an answer: an error never gets to it. -/
def Callback.take (reply : Except String CommandResponse) (data : CxxrtlData) (cb : Callback) : CxxrtlData :=
  match reply with
  | .ok response => cb.call response data
  | .error _ => data

/-- What a pass of the loop of `tick` is about. -/
inductive Taken where
  | nothing
  | event (event : Event)
  | reply (cb : Callback) (reply : Except String CommandResponse)

namespace CxxrtlContainer

variable {c : CxxrtlContainer}

/-- What the next pass of the loop of `tick` is about. -/
def taken (c : CxxrtlContainer) : Taken :=
  match c.scMessages.head? with
  | some (.ok (.event event)) => .event event
  | some msg =>
    match reply? msg, c.sending.callbackQueue with
    | some reply, cb :: _ => .reply cb reply
    | _, _ => .nothing
  | none => .nothing

/-- What a pass of the loop of `tick` does. -/
inductive Receives (c : CxxrtlContainer) : Taken → CxxrtlContainer → Prop
  | nothing (h : ∀ msg ∈ c.scMessages.head?, reply? msg = none ∨ c.sending.callbackQueue = []) :
      Receives c .nothing { c with scMessages := c.scMessages.tail }
  | event {event : Event} {rest : List (Except String SCMessage)}
      (h : c.scMessages = .ok (.event event) :: rest) :
      Receives c (.event event)
        { c with data := c.data.onSimulationStatusUpdate event.status, scMessages := rest }
  | reply {msg : Except String SCMessage} {rest : List (Except String SCMessage)}
      {reply : Except String CommandResponse} {cb : Callback} {queue : List Callback}
      (h : c.scMessages = msg :: rest) (hreply : reply? msg = some reply)
      (hqueue : c.sending.callbackQueue = cb :: queue) :
      Receives c (.reply cb reply)
        { data := cb.take reply c.data
          sending := { c.sending with callbackQueue := queue }
          scMessages := rest }

theorem receives (c : CxxrtlContainer) : Receives c c.taken c.receive := by
  obtain ⟨data, ⟨csMessages, queue⟩, scMessages⟩ := c
  match scMessages, queue with
  | [], _ => exact .nothing (by simp)
  | .error _ :: _, _ => exact .nothing (by simp [reply?])
  | .ok .greeting :: _, _ => exact .nothing (by simp [reply?])
  | .ok (.event event) :: _, _ => exact .event rfl
  | .ok (.response _) :: _, [] => exact .nothing (by simp)
  | .ok (.error _) :: _, [] => exact .nothing (by simp)
  | .ok (.response _) :: _, cb :: _ => exact .reply rfl rfl rfl
  | .ok (.error _) :: _, cb :: _ => exact .reply rfl rfl rfl

end CxxrtlContainer

/-! ## The system -/

/-- The items that are known under a reference. -/
abbrev Items := List (List String)

/-- The client and the server. Of the server, only the items held under the reference count. -/
structure Connection where
  container : CxxrtlContainer
  held : Items

/-- What may happen next. -/
inductive Action where
  /-- The client calls the container. -/
  | call (call : Call)
  /-- A pass of the loop of `tick`. -/
  | receive
  /-- A task that was spawned goes on with a sample. -/
  | work (i j : ℕ)
  /-- The server answers the next message of the client, a greeting with a greeting. -/
  | answer (reply : Except String CommandResponse)
  /-- The server sends a message that answers nothing. -/
  | tell (msg : Except String SCMessage)

namespace Connection

variable {s : Connection}

/-- The client has connected, and the server holds no items. -/
def new : Connection := { container := .new, held := [] }

/-- The items held after a command. A command that is refused changes nothing. -/
def heldAfter (held : Items) (reply : Except String CommandResponse) : CxxrtlCommand → Items
  | .referenceItems _ items =>
    match reply with
    | .ok _ => items
    | .error _ => held
  | _ => held

/-- The server answers the next message of the client. -/
def answer (s : Connection) (reply : Except String CommandResponse) : Connection :=
  let c := s.container
  match c.sending.csMessages with
  | [] => s
  | .greeting _ :: rest =>
    { s with
      container := { c with
        sending := { c.sending with csMessages := rest }
        scMessages := c.scMessages ++ [.ok .greeting] } }
  | .command command :: rest =>
    { container := { c with
        sending := { c.sending with csMessages := rest }
        scMessages := c.scMessages ++ [replyMessage reply] }
      held := heldAfter s.held reply command }

/-- The server sends a message that is no answer. -/
def tell (s : Connection) (msg : Except String SCMessage) : Connection :=
  match reply? msg with
  | some _ => s
  | none => { s with container := { s.container with scMessages := s.container.scMessages ++ [msg] } }

/-- A task goes on with a sample. -/
def work (decode : String → Option (List UInt8)) (s : Connection) (i j : ℕ) : Connection :=
  let data := s.container.data
  let intervalQueryCache := data.intervalQueryCache.work decode i j
  { s with container := { s.container with data := { data with intervalQueryCache } } }

/-- The system after an action. -/
def next (decode : String → Option (List UInt8)) (s : Connection) : Action → Connection
  | .call call => { s with container := call.apply s.container }
  | .receive => { s with container := s.container.receive }
  | .work i j => s.work decode i j
  | .answer reply => s.answer reply
  | .tell msg => s.tell msg

/-- The step of the system. Every action can be taken, though some do nothing. -/
def step (decode : String → Option (List UInt8)) (s : Connection) (a : Action) : Run Connection :=
  .ok (s.next decode a)

/-- The state after a list of actions is reachable. -/
theorem reachable_foldl (decode : String → Option (List UInt8)) (s : Connection) (actions : List Action) :
    Transition.Reachable (step decode) (fun _ _ => True) s (actions.foldl (next decode) s) :=
  Transition.reachable_of_allowedRun (fun _ _ => rfl) (Transition.allowedRun_true _ _ _)

section

variable {γ : Type} (decode : String → Option (List UInt8)) (note : γ → Connection → Action → Connection → γ)

/-- The system after an action, and what an observer notes of it. -/
def observedNext (s : Connection × γ) (a : Action) : Connection × γ :=
  (s.1.next decode a, note s.2 s.1 a (s.1.next decode a))

variable {decode note}

/-- The state after some allowed actions is reachable. -/
theorem reachable_of_allowedRun {allowed : Connection × γ → Action → Prop} {start : Connection × γ}
    {actions : List Action} (h : Transition.AllowedRun (observedNext decode note) allowed start actions) :
    Transition.Reachable (Transition.observed (step decode) note) allowed start
      (actions.foldl (observedNext decode note) start) :=
  Transition.reachable_of_allowedRun (fun _ _ => rfl) h

end

/-- The answers on their way to the client. -/
def replies (s : Connection) : List (Except String CommandResponse) := s.container.scMessages.filterMap reply?

/-- The commands on their way to the server. -/
def commands (s : Connection) : List CxxrtlCommand := s.container.sending.csMessages.filterMap command?

/-- The callbacks that wait for an answer. -/
abbrev callbacks (s : Connection) : List Callback := s.container.sending.callbackQueue

/-- What the parties know, and what is on its way, is the same. -/
structure Unmoved (s s' : Connection) : Prop where
  data : s'.container.data = s.container.data
  callbacks : s'.callbacks = s.callbacks
  replies : s'.replies = s.replies
  commands : s'.commands = s.commands
  held : s'.held = s.held

/-- The server has answered a command. -/
structure Answered (s : Connection) (reply : Except String CommandResponse) (command : CxxrtlCommand)
    (s' : Connection) : Prop where
  data : s'.container.data = s.container.data
  callbacks : s'.callbacks = s.callbacks
  replies : s'.replies = s.replies ++ [reply]
  commands : s.commands = command :: s'.commands
  held : s'.held = heldAfter s.held reply command

/-- The server answers a command, or the greeting. -/
theorem answer_cases (s : Connection) (reply : Except String CommandResponse) :
    (∃ command, s.container.sending.csMessages.head? = some (.command command) ∧
      Answered s reply command (s.answer reply)) ∨
    (∀ command, s.container.sending.csMessages.head? ≠ some (.command command)) ∧
      Unmoved s (s.answer reply) := by
  obtain ⟨⟨data, ⟨csMessages, queue⟩, scMessages⟩, held⟩ := s
  match csMessages with
  | [] => exact .inr ⟨by simp, rfl, rfl, rfl, rfl, rfl⟩
  | .greeting _ :: rest =>
    refine .inr ⟨by simp, rfl, rfl, ?_, rfl, rfl⟩
    show List.filterMap reply? (scMessages ++ [.ok .greeting]) = _
    simp [replies, reply?]
  | .command command :: rest =>
    refine .inl ⟨command, rfl, rfl, rfl, ?_, rfl, rfl⟩
    show List.filterMap reply? (scMessages ++ [replyMessage reply]) = _
    simp [replies]

theorem tell_unmoved (s : Connection) (msg : Except String SCMessage) : Unmoved s (s.tell msg) := by
  unfold tell
  split
  · exact ⟨rfl, rfl, rfl, rfl, rfl⟩
  next hmsg =>
    refine ⟨rfl, rfl, ?_, rfl, rfl⟩
    show List.filterMap reply? (s.container.scMessages ++ [msg]) = _
    simp [replies, hmsg]

end Connection

open Connection

/-! ## Callbacks and answers -/

/-- To load signals changes the list of the loaded ones, and its index. -/
theorem exists_foldl_addSignal (vars : List VariableRef) (data : CxxrtlData) :
    ∃ loadedSignals signalIndexMap,
      vars.foldl addSignal data = { data with loadedSignals, signalIndexMap } := by
  induction vars generalizing data with
  | nil => exact ⟨_, _, rfl⟩
  | cons v rest ih =>
    rw [List.foldl_cons]
    obtain ⟨loadedSignals, signalIndexMap, heq⟩ := ih (addSignal data v)
    rw [heq]
    unfold addSignal
    split
    · exact ⟨loadedSignals, signalIndexMap, rfl⟩
    · exact ⟨loadedSignals, signalIndexMap, rfl⟩

/-- The command that a callback was sent with. -/
inductive Callback.Sent : Callback → CxxrtlCommand → Prop
  | listScopes : Sent .listScopes (.listScopes none)
  | listItems : Sent .listItems (.listItems none)
  | listItemsIn (scope : ScopeKey) : Sent (.listItemsIn scope) (.listItems (some (scopeRepr scope)))
  | queryInterval (maxTimestamp : CxxrtlTimestamp) (loadedSignals : List VariableRef) (info : ItemMap) :
      Sent (.queryInterval maxTimestamp loadedSignals info)
        (.queryInterval (.zero, maxTimestamp) true (some defaultReference) "base64(u32)" false)
  | referenceItems (items : Items) : Sent .referenceItems (.referenceItems defaultReference items)
  | getSimulationStatus : Sent .getSimulationStatus .getSimulationStatus
  | runSimulation (untilTime : CxxrtlTimestamp) :
      Sent .runSimulation (.runSimulation (some untilTime) [] true)
  | pauseSimulation : Sent .pauseSimulation .pauseSimulation

/-- Each command is sent with its callback. -/
theorem CxxrtlContainer.Send.exists_send {c c' : CxxrtlContainer} {cb : Callback} (h : Send c cb c') :
    ∃ data command, c' = c.send data command cb ∧ cb.Sent command := by
  match h with
  | .listScopes _ => exact ⟨_, _, rfl, .listScopes⟩
  | .listItems _ => exact ⟨_, _, rfl, .listItems⟩
  | .listItemsIn scope _ => exact ⟨_, _, rfl, .listItemsIn scope⟩
  | .getSimulationStatus _ => exact ⟨_, _, rfl, .getSimulationStatus⟩
  | .queryInterval _ _ _ => exact ⟨_, _, rfl, .queryInterval _ _ _⟩
  | .referenceItems _ => exact ⟨_, _, rfl, .referenceItems _⟩
  | .runSimulation untilTime => exact ⟨_, _, rfl, .runSimulation untilTime⟩
  | .pauseSimulation => exact ⟨_, _, rfl, .pauseSimulation⟩

/-- The oldest callbacks wait for the replies on their way, the others for the answers to the commands
that are. -/
structure Paired (s : Connection) : Prop where
  pairs : ∃ answered unanswered, s.callbacks = answered ++ unanswered ∧
    answered.length = s.replies.length ∧ List.Forall₂ Callback.Sent unanswered s.commands

namespace Paired

variable {s s' : Connection}

theorem new : Paired Connection.new := ⟨[], [], rfl, rfl, .nil⟩

theorem unmoved (h : Paired s) (hs : Unmoved s s') : Paired s' := by
  obtain ⟨answered, unanswered, hqueue, hlen, hsent⟩ := h.pairs
  exact ⟨answered, unanswered, hs.callbacks.trans hqueue, by rw [hlen, hs.replies], hs.commands ▸ hsent⟩

theorem send (h : Paired s) {cb : Callback} {c : CxxrtlContainer} (hc : Send s.container cb c) :
    Paired { s with container := c } := by
  obtain ⟨answered, unanswered, hqueue, hlen, hsent⟩ := h.pairs
  obtain ⟨data, command, rfl, hcb⟩ := hc.exists_send
  refine ⟨answered, unanswered ++ [cb], ?_, hlen, ?_⟩
  · show s.callbacks ++ [cb] = _
    rw [hqueue, List.append_assoc]
  · show List.Forall₂ _ _ (List.filterMap command? (s.container.sending.csMessages ++ [.command command]))
    rw [List.filterMap_append]
    exact List.rel_append hsent (.cons hcb .nil)

theorem answered {reply : Except String CommandResponse} {command : CxxrtlCommand} (h : Paired s)
    (hs : Answered s reply command s') : Paired s' := by
  obtain ⟨answered, unanswered, hqueue, hlen, hsent⟩ := h.pairs
  rw [hs.commands] at hsent
  obtain ⟨cb, rest, -, hrest, rfl⟩ := List.forall₂_cons_right_iff.1 hsent
  refine ⟨answered ++ [cb], rest, ?_, ?_, hrest⟩
  · rw [hs.callbacks, hqueue, List.append_assoc, List.singleton_append]
  · rw [hs.replies, List.length_append, List.length_append, hlen]
    rfl

/-- The next answer is for the oldest callback. -/
theorem head (h : Paired s) {reply : Except String CommandResponse}
    {rest : List (Except String CommandResponse)} (hreplies : s.replies = reply :: rest) :
    ∃ cb queue, s.callbacks = cb :: queue := by
  obtain ⟨answered, unanswered, hqueue, hlen, -⟩ := h.pairs
  rw [hreplies] at hlen
  obtain ⟨cb, answered, rfl⟩ := List.exists_cons_of_length_eq_add_one hlen
  exact ⟨cb, answered ++ unanswered, hqueue⟩

/-- A callback without an answer has its command on the way. -/
theorem exists_command (h : Paired s) {i : ℕ} {cb : Callback} (hcb : s.callbacks[i]? = some cb)
    (hreply : s.replies[i]? = none) :
    ∃ command, s.commands[i - s.replies.length]? = some command ∧ cb.Sent command := by
  obtain ⟨answered, unanswered, hqueue, hlen, hsent⟩ := h.pairs
  have hle : answered.length ≤ i := hlen ▸ List.getElem?_eq_none_iff.1 hreply
  rw [hqueue, List.getElem?_append_right hle, hlen] at hcb
  obtain ⟨hlt, hget⟩ := List.getElem?_eq_some_iff.1 hcb
  have hlt' : i - s.replies.length < s.commands.length := hsent.length_eq ▸ hlt
  exact ⟨_, List.getElem?_eq_getElem hlt', hget ▸ hsent.get hlt hlt'⟩

/-- What the parties know after a pass of the loop of `tick`. -/
inductive Received (s s' : Connection) : Prop
  | nothing : s.container.taken = .nothing → Unmoved s s' → Received s s'
  | event {event : Event} : s.container.taken = .event event →
      Unmoved { s with container := { s.container with
        data := s.container.data.onSimulationStatusUpdate event.status } } s' → Received s s'
  | reply {cb : Callback} {reply : Except String CommandResponse} :
      s.container.taken = .reply cb reply → s.callbacks = cb :: s'.callbacks →
      s.replies = reply :: s'.replies → s'.commands = s.commands →
      s'.container.data = cb.take reply s.container.data → Received s s'

/-- Each answer finds its callback. -/
theorem received (h : Paired s) : Received s { s with container := s.container.receive } := by
  have hreceive := s.container.receives
  generalize htaken : s.container.taken = taken at hreceive
  generalize s.container.receive = c' at hreceive
  cases hreceive with
  | nothing hmsg =>
    refine .nothing htaken ⟨rfl, rfl, ?_, rfl, rfl⟩
    show List.filterMap reply? s.container.scMessages.tail = s.replies
    match hmsgs : s.container.scMessages with
    | [] => simp [replies, hmsgs]
    | msg :: rest =>
      rw [hmsgs] at hmsg
      rcases hmsg msg rfl with hnone | hempty
      · simp [replies, hmsgs, hnone]
      · match hreply : reply? msg with
        | none => simp [replies, hmsgs, hreply]
        | some reply =>
          -- an answer without a callback, which cannot be
          have hreplies : s.replies = reply :: rest.filterMap reply? := by simp [replies, hmsgs, hreply]
          obtain ⟨cb, queue, hqueue⟩ := h.head hreplies
          exact absurd (hqueue.symm.trans hempty) (List.cons_ne_nil _ _)
  | @event event rest hmsgs =>
    refine .event htaken ⟨rfl, rfl, ?_, rfl, rfl⟩
    show List.filterMap reply? rest = List.filterMap reply? s.container.scMessages
    rw [hmsgs]
    rfl
  | reply hmsgs hreply hqueue =>
    refine .reply htaken hqueue ?_ rfl rfl
    simp [replies, hmsgs, hreply]

theorem receive (h : Paired s) : Paired { s with container := s.container.receive } := by
  match h.received with
  | .nothing _ hs => exact h.unmoved hs
  | .event _ hs =>
    refine unmoved ?_ hs
    exact ⟨h.pairs⟩
  | .reply _ hqueue hreplies hcommands _ =>
    obtain ⟨answered, unanswered, hsplit, hlen, hsent⟩ := h.pairs
    rw [hreplies] at hlen
    obtain ⟨cb', answered, rfl⟩ := List.exists_cons_of_length_eq_add_one hlen
    rw [hqueue, List.cons_append, List.cons.injEq] at hsplit
    exact ⟨answered, unanswered, hsplit.2, Nat.succ.inj hlen, hcommands ▸ hsent⟩

/-- Every step keeps the callbacks paired with the answers. -/
theorem next (h : Paired s) (decode : String → Option (List UInt8)) (a : Action) :
    Paired (s.next decode a) := by
  match a with
  | .call call =>
    exact call.keeps (I := fun c => Paired { s with container := c }) h fun c cb c' hc _ hsend => hc.send hsend
  | .receive => exact h.receive
  | .work _ _ => exact ⟨h.pairs⟩
  | .answer reply =>
    rcases s.answer_cases reply with ⟨command, -, hs⟩ | ⟨-, hs⟩
    · exact h.answered hs
    · exact h.unmoved hs
  | .tell msg => exact h.unmoved (s.tell_unmoved msg)

end Paired

/-! ## A run -/

/-- The clock is loaded, the status and the items of the design are fetched, and after some actions samples
are asked for and given. -/
def queryRun (between : List Action) (sample : CxxrtlSample) : List Action :=
  let status := { status := .paused, latestTime := { seconds := 0, femtoseconds := 5 } }
  [.call (.loadVariables [topSignal "clk"]), .call .maxTimestamp, .call (.variableMeta (topSignal "clk")),
    -- the first answer is to the greeting
    .answer (.error ""), .answer (.ok .referenceItems), .answer (.ok (.getSimulationStatus status)),
    .answer (.ok (.listItems (FiniteMap.empty.insert "top clk" { width := 8 }))),
    .receive, .receive, .receive, .receive] ++ between ++
  [.call (.queryVariable (topSignal "clk") 3), .answer (.ok (.queryInterval [sample]))]

end Cxxrtl
