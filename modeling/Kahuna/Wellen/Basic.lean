import Kahuna.FiniteMap.Keys
import Kahuna.Wave.Hierarchy
import Kahuna.Transition.Basic
import Mathlib.Data.Finset.Sort

/-!
# The loading of signals

The model of the part of `wellen.rs` that loads the signals of a file. The body of a file is read once, and
a signal is read when it is first asked for. A task in the background reads the signals of one command at a
time: it is given what the file is read through, and gives it back with the signals.

- `loadSignals`: the signals that are asked for are queued, and a command takes the whole queue.
- `addBody`, `onSignalsLoaded`: the file can be read from now on, or again.
-/

namespace Wellen

open Wave (Hierarchy SignalRef VariableRef VarId Var)

/-- `wellen::SignalSource`, through which the signals of a local file are read. -/
abbrev SignalSource := ℕ

/-- `wellen::Signal`, the changes of a signal. -/
structure Signal where
  signalRef : SignalRef
  changes : List (UInt64 × Wave.VariableValue)
  deriving DecidableEq, Repr

/-- What the signals of a command are read through. -/
inductive LoadSignalPayload where
  | localSource (source : SignalSource) (hierarchy : Hierarchy)
  | remote (server : String) (fileIndex : ℕ)

/-- The signals that are to be loaded, for the container with a number. -/
structure LoadSignalsCmd where
  signals : List SignalRef
  fromUniqueId : ℕ
  payload : LoadSignalPayload

/-- The signals that were loaded. -/
structure LoadSignalsResult where
  source : Option SignalSource
  server : Option String
  signals : List Signal
  fromUniqueId : ℕ

/-- What is known of a file once its body was read. -/
inductive BodyResult where
  | localBody (timeTable : List ℕ) (source : SignalSource)
  | remote (timeTable : List ℕ) (server : String)

/-- `load_variables` of the state, without the signals that the task has read. The task has given back
what it was given. -/
def LoadSignalsCmd.answer (cmd : LoadSignalsCmd) (signals : List Signal) : LoadSignalsResult :=
  match cmd.payload with
  | .localSource source _ =>
    { source := some source, server := none, signals, fromUniqueId := cmd.fromUniqueId }
  | .remote server _ =>
    { source := none, server := some server, signals, fromUniqueId := cmd.fromUniqueId }

/-- A file, and the signals of it that are loaded. -/
structure WellenContainer where
  hierarchy : Hierarchy
  /-- `Hierarchy::all_vars`. -/
  allVars : List VarId
  /-- The url of a remote server, none if waveforms are loaded locally. -/
  server : Option String
  /-- Selected file index on the remote server, none for local waveforms. -/
  remoteFileIndex : Option ℕ
  signals : FiniteMap SignalRef Signal
  /-- The signals that need to be loaded once the file can be read. -/
  signalsToBeLoaded : Finset SignalRef
  timeTable : List ℕ
  source : Option SignalSource
  uniqueId : ℕ
  bodyLoaded : Bool

namespace WellenContainer

/-- A file of which only the hierarchy is known, the next container of all. -/
def new (hierarchy : Hierarchy) (allVars : List VarId) (server : Option String)
    (remoteFileIndex : Option ℕ) (uniqueId : ℕ) : WellenContainer where
  hierarchy := hierarchy
  allVars := allVars
  server := server
  remoteFileIndex := remoteFileIndex
  signals := .empty
  signalsToBeLoaded := ∅
  timeTable := []
  source := none
  uniqueId := uniqueId
  bodyLoaded := false

/-- `new_waveform`, for a local file, or `new_remote_waveform`, for a file of a server. -/
def newWaveform (hierarchy : Hierarchy) (allVars : List VarId) (remote : Option (String × ℕ))
    (uniqueId : ℕ) : WellenContainer :=
  match remote with
  | none => new hierarchy allVars none none uniqueId
  | some (serverUrl, fileIndex) => new hierarchy allVars (some serverUrl) (some fileIndex) uniqueId

/-- The file as its readers see it. -/
def waves (c : WellenContainer) : Wave.WaveContainer where
  hierarchy := c.hierarchy
  signals id := (c.signals.get id).map Signal.changes

/-- Whether the data of a signal is available. -/
def isSignalLoaded (c : WellenContainer) (id : SignalRef) : Bool := (c.signals.get id).isSome

/-- Nothing is left to be loaded. -/
def isFullyLoaded (c : WellenContainer) : Bool :=
  (c.source.isSome || c.server.isSome) && decide (c.signalsToBeLoaded = ∅)

/-- The signals of which the loading has to be started. -/
def filterIds (c : WellenContainer) (ids : List SignalRef) : List SignalRef :=
  ids.filter fun id => !c.isSignalLoaded id && decide (id ∉ c.signalsToBeLoaded)

/-- Queue signals, and start to load what is queued. -/
def loadSignals (c : WellenContainer) (ids : List SignalRef) : Option LoadSignalsCmd × WellenContainer :=
  -- make sure that we do not load signals that have already been loaded
  let filteredIds := c.filterIds ids
  let c := { c with signalsToBeLoaded := c.signalsToBeLoaded ∪ filteredIds.toFinset }
  if c.signalsToBeLoaded = ∅ then (none, c)
  else if c.bodyLoaded = false then (none, c)
  else
    let signals := c.signalsToBeLoaded.sort
    match c.server with
    | some server =>
      match c.remoteFileIndex with
      | none => (none, { c with server := none })
      | some fileIndex =>
        (some { signals, payload := .remote server fileIndex, fromUniqueId := c.uniqueId },
          { c with server := none, signalsToBeLoaded := ∅ })
    | none =>
      match c.source with
      | some source =>
        (some { signals, payload := .localSource source c.hierarchy, fromUniqueId := c.uniqueId },
          { c with source := none, signalsToBeLoaded := ∅ })
      | none => (none, c)

/-- The signals of the variables. A variable that is not found is left out. -/
def signalRefs (c : WellenContainer) (vars : List VariableRef) : Run (List SignalRef) := do
  let refs ← vars.mapM c.waves.signalRef
  return refs.reduceOption

/-- Load the signals of the variables. -/
def loadVariables (c : WellenContainer) (vars : List VariableRef) :
    Run (Option LoadSignalsCmd × WellenContainer) := do
  let ids ← c.signalRefs vars
  return c.loadSignals ids

/-- The signals of all parameters. -/
def params (c : WellenContainer) : List SignalRef :=
  ((c.allVars.filterMap c.hierarchy.var).filter Var.isParameter).map Var.signalRef

/-- Load the signals of all parameters. -/
def loadAllParams (c : WellenContainer) : Option LoadSignalsCmd × WellenContainer :=
  c.loadSignals c.params

/-- The container with the body of its file, of which nothing is loaded yet. -/
def withBody (c : WellenContainer) (body : BodyResult) : Except String WellenContainer :=
  if c.bodyLoaded then .error "Did we just parse the body twice? That should not happen!"
  else
    match body with
    | .localBody timeTable source =>
      if c.server.isSome then
        .error ("We are connected to a server, but also received the result of parsing a file locally. " ++
          "Something is going wrong here!")
      else .ok { c with timeTable, source := some source, bodyLoaded := true }
    | .remote timeTable server =>
      match c.server with
      | none => .error "Missing server URL!"
      | some old =>
        if old ≠ server then .error s!"Inconsistent server URLs: {old} vs. {server}"
        else .ok { c with timeTable, bodyLoaded := true }

/-- The body of the file was read, and the signals that were asked for before can be loaded. -/
def addBody (c : WellenContainer) (body : BodyResult) :
    Except String (Option LoadSignalsCmd × WellenContainer) := do
  let c ← c.withBody body
  return c.loadSignals []

/-- Install the signals. -/
def install (c : WellenContainer) (signals : List Signal) : WellenContainer :=
  { c with signals := signals.foldl (fun m signal => m.insert signal.signalRef signal) c.signals }

/-- The container after a result that is its own was taken. The source or the server is back. -/
def take (c : WellenContainer) (res : LoadSignalsResult) : WellenContainer :=
  if res.fromUniqueId = c.uniqueId then
    { c with source := res.source, server := res.server }.install res.signals
  else c

/-- A task has read the signals of a command, of this container or of a file that was open before. -/
def onSignalsLoaded (c : WellenContainer) (res : LoadSignalsResult) :
    Option LoadSignalsCmd × WellenContainer :=
  (c.take res).loadSignals []

/-! ## What a call does -/

variable {c c' : WellenContainer} {ids : List SignalRef} {id : SignalRef}

@[simp]
theorem waves_isSignalLoaded (c : WellenContainer) (id : SignalRef) :
    c.waves.isSignalLoaded id = c.isSignalLoaded id := by
  rw [Wave.WaveContainer.isSignalLoaded, waves, isSignalLoaded, Option.isSome_map]

theorem mem_filterIds :
    id ∈ c.filterIds ids ↔ id ∈ ids ∧ c.isSignalLoaded id = false ∧ id ∉ c.signalsToBeLoaded := by
  simp [filterIds]

/-- The signals that are queued after some were asked for. -/
def queued (c : WellenContainer) (ids : List SignalRef) : Finset SignalRef :=
  c.signalsToBeLoaded ∪ (c.filterIds ids).toFinset

theorem mem_queued :
    id ∈ c.queued ids ↔ id ∈ c.signalsToBeLoaded ∨ id ∈ ids ∧ c.isSignalLoaded id = false := by
  rw [queued, Finset.mem_union, List.mem_toFinset, mem_filterIds]
  by_cases hid : id ∈ c.signalsToBeLoaded
  · simp [hid]
  · simp [hid]

/-- Nothing is queued when nothing is asked for. -/
@[simp]
theorem queued_nil (c : WellenContainer) : c.queued [] = c.signalsToBeLoaded := by
  simp [queued, filterIds]

end WellenContainer

/-- What the signals of a file are read through. -/
inductive Token where
  | source (source : SignalSource)
  | server (url : String)
  deriving DecidableEq, Repr

/-- The token that a command takes with it. -/
def LoadSignalsCmd.token (cmd : LoadSignalsCmd) : Token :=
  match cmd.payload with
  | .localSource source _ => .source source
  | .remote server _ => .server server

/-- The tokens in a source and a server. -/
def tokensOf (source : Option SignalSource) (server : Option String) : List Token :=
  server.toList.map .server ++ source.toList.map .source

/-- A task gives back the token of its command. -/
@[simp]
theorem LoadSignalsCmd.tokensOf_answer (cmd : LoadSignalsCmd) (signals : List Signal) :
    tokensOf (cmd.answer signals).source (cmd.answer signals).server = [cmd.token] := by
  obtain ⟨ids, fromUniqueId, payload⟩ := cmd
  cases payload with
  | localSource source hierarchy => rfl
  | remote server fileIndex => rfl

@[simp]
theorem LoadSignalsCmd.answer_signals (cmd : LoadSignalsCmd) (signals : List Signal) :
    (cmd.answer signals).signals = signals := by
  unfold answer
  split <;> rfl

@[simp]
theorem LoadSignalsCmd.answer_fromUniqueId (cmd : LoadSignalsCmd) (signals : List Signal) :
    (cmd.answer signals).fromUniqueId = cmd.fromUniqueId := by
  unfold answer
  split <;> rfl

namespace WellenContainer

variable {c c' : WellenContainer} {ids : List SignalRef} {id : SignalRef}

/-- The tokens in the container. -/
def tokens (c : WellenContainer) : List Token := tokensOf c.source c.server

/-- What `load_signals` may do with the signals that are queued. -/
inductive Loads (c : WellenContainer) (q : Finset SignalRef) :
    Option LoadSignalsCmd × WellenContainer → Prop
  /-- Nothing is queued, or the file cannot be read at the moment. -/
  | waits (h : q = ∅ ∨ c.bodyLoaded = false ∨ c.tokens = []) :
      Loads c q (none, { c with signalsToBeLoaded := q })
  /-- A server without a file index is forgotten. -/
  | missesIndex {server : String} (hserver : c.server = some server) (hindex : c.remoteFileIndex = none) :
      Loads c q (none, { c with signalsToBeLoaded := q, server := none })
  /-- All signals that are queued are loaded by one command, which takes a token with it. -/
  | starts {cmd : LoadSignalsCmd} {source : Option SignalSource} {server : Option String}
      (hq : q.Nonempty) (hbody : c.bodyLoaded = true) (hsignals : cmd.signals = q.sort)
      (hid : cmd.fromUniqueId = c.uniqueId) (htokens : c.tokens = cmd.token :: tokensOf source server) :
      Loads c q (some cmd, { c with signalsToBeLoaded := ∅, source, server })

theorem loadSignals_loads (c : WellenContainer) (ids : List SignalRef) :
    Loads c (c.queued ids) (c.loadSignals ids) := by
  unfold loadSignals queued
  dsimp only
  generalize c.signalsToBeLoaded ∪ (c.filterIds ids).toFinset = q
  by_cases hq : q = ∅
  · rw [if_pos hq]
    exact .waits (.inl hq)
  rw [if_neg hq]
  by_cases hbody : c.bodyLoaded = false
  · rw [if_pos hbody]
    exact .waits (.inr (.inl hbody))
  rw [if_neg hbody]
  have hnonempty : q.Nonempty := Finset.nonempty_iff_ne_empty.2 hq
  rw [Bool.not_eq_false] at hbody
  split
  next server hserver =>
    split
    next hindex => exact .missesIndex hserver hindex
    next fileIndex _ =>
      refine .starts hnonempty hbody rfl rfl ?_
      rw [tokens, hserver]
      rfl
  next hserver =>
    split
    next source hsource =>
      refine .starts hnonempty hbody rfl rfl ?_
      rw [tokens, hserver, hsource]
      rfl
    next hsource =>
      refine .waits (.inr (.inr ?_))
      rw [tokens, hserver, hsource]
      rfl

/-- What loading changes. -/
theorem Loads.frame {q : Finset SignalRef} {r : Option LoadSignalsCmd × WellenContainer} (h : Loads c q r) :
    r.2.signals = c.signals ∧ r.2.uniqueId = c.uniqueId ∧ r.2.bodyLoaded = c.bodyLoaded ∧
      r.2.remoteFileIndex = c.remoteFileIndex ∧ ∀ cmd ∈ r.1, cmd.fromUniqueId = c.uniqueId := by
  cases h with
  | waits _ => exact ⟨rfl, rfl, rfl, rfl, by simp⟩
  | missesIndex _ _ => exact ⟨rfl, rfl, rfl, rfl, by simp⟩
  | starts _ _ _ hid _ => exact ⟨rfl, rfl, rfl, rfl, by simp [hid]⟩

@[simp]
theorem newWaveform_uniqueId (hierarchy : Hierarchy) (allVars : List VarId)
    (remote : Option (String × ℕ)) (uniqueId : ℕ) :
    (newWaveform hierarchy allVars remote uniqueId).uniqueId = uniqueId := by
  unfold newWaveform
  split <;> rfl

/-- What a body changes. -/
theorem withBody_eq_ok {body : BodyResult} (h : c.withBody body = .ok c') :
    c.bodyLoaded = false ∧
      ((∃ timeTable source, body = .localBody timeTable source ∧ c.server = none ∧
          c' = { c with timeTable, source := some source, bodyLoaded := true }) ∨
        ∃ timeTable server, body = .remote timeTable server ∧ c.server = some server ∧
          c' = { c with timeTable, bodyLoaded := true }) := by
  unfold withBody at h
  split at h
  · cases h
  next hbody =>
    refine ⟨by simpa using hbody, ?_⟩
    cases body with
    | localBody timeTable source =>
      dsimp only at h
      split at h
      · cases h
      next hserver =>
        refine .inl ⟨timeTable, source, rfl, by simpa using hserver, (Except.ok.inj h).symm⟩
    | remote timeTable server =>
      dsimp only at h
      split at h
      · cases h
      next old hserver =>
        split at h
        · cases h
        next hsame =>
          rw [not_not] at hsame
          exact .inr ⟨timeTable, server, rfl, hsame ▸ hserver, (Except.ok.inj h).symm⟩

@[simp]
theorem take_uniqueId (c : WellenContainer) (res : LoadSignalsResult) :
    (c.take res).uniqueId = c.uniqueId := by
  unfold take
  split <;> rfl

/-- The container takes a result of its own. -/
theorem take_own {res : LoadSignalsResult} (h : res.fromUniqueId = c.uniqueId) :
    c.take res = { c with source := res.source, server := res.server }.install res.signals :=
  if_pos h

/-- The container does not look at a result of another one. -/
theorem take_other {res : LoadSignalsResult} (h : res.fromUniqueId ≠ c.uniqueId) : c.take res = c :=
  if_neg h

@[simp]
theorem tokens_install (c : WellenContainer) (signals : List Signal) :
    (c.install signals).tokens = c.tokens := rfl

/-- A signal is available once it was installed. -/
theorem isSignalLoaded_install (c : WellenContainer) (signals : List Signal) (id : SignalRef) :
    (c.install signals).isSignalLoaded id = true ↔
      c.isSignalLoaded id = true ∨ id ∈ signals.map Signal.signalRef :=
  FiniteMap.isSome_get_foldl_insert Signal.signalRef signals c.signals id

/-- A reader of the file panics exactly when the loading does. -/
theorem loadVariables_ok_iff (c : WellenContainer) (vars : List VariableRef) :
    c.waves.loadVariables vars = .ok () ↔ ∃ r, c.loadVariables vars = .ok r := by
  have hrefs : c.waves.loadVariables vars = .ok () ↔ ∃ refs, vars.mapM c.waves.signalRef = .ok refs := by
    induction vars with
    | nil => simp [Wave.WaveContainer.loadVariables, pure, Except.pure]
    | cons r vars ih =>
      rw [Wave.WaveContainer.loadVariables, List.mapM_cons, Wave.WaveContainer.signalRef]
      cases c.waves.getVar r with
      | error p => simp [bind, Except.bind]
      | ok v =>
        simp only [ih]
        constructor
        · rintro ⟨refs, hrefs⟩
          exact ⟨_, by rw [hrefs]; rfl⟩
        · rintro ⟨refs, hrefs⟩
          obtain ⟨_, -, hrefs⟩ := Except.bind_eq_ok.1 hrefs
          obtain ⟨refs', hrefs', -⟩ := Except.bind_eq_ok.1 hrefs
          exact ⟨refs', hrefs'⟩
  rw [hrefs]
  constructor
  · rintro ⟨refs, hrefs⟩
    refine ⟨c.loadSignals refs.reduceOption, Except.bind_eq_ok.2 ⟨refs.reduceOption, ?_, rfl⟩⟩
    exact Except.bind_eq_ok.2 ⟨refs, hrefs, rfl⟩
  · rintro ⟨r, hr⟩
    obtain ⟨ids, hids, -⟩ := Except.bind_eq_ok.1 hr
    obtain ⟨refs, hrefs, -⟩ := Except.bind_eq_ok.1 hids
    exact ⟨refs, hrefs⟩

end WellenContainer

end Wellen
