import Kahuna.Notify.Basic
import Kahuna.Transition.Basic
import Kahuna.Wellen.Basic
import Mathlib.Data.List.Sort

/-!
# The server of files

The model of the handlers and of the loader in `server.rs`. For each file a thread, the loader, reads the
body, and then the signals that the handlers ask for. A handler sends its request to the loader and waits
until the signals are there. What a handler or the loader does under one lock is one step.

- `Handler.next`: the steps of the handlers.
- `FileServer.next`: the steps of a file, its handlers and its loader.
- `Server`: all files.
-/

namespace Surver

open Wave (SignalRef)
open Wellen (Signal)

/-! ## The state of a file -/

/-- The signals that a handler asks for. -/
abbrev SignalRequest := { ids : List SignalRef // ids ≠ [] }

/-- What is sent to the loader. -/
inductive LoaderMessage where
  | signalRequest (ids : SignalRequest)
  | reload
  deriving DecidableEq

/-- What a handler waits for. -/
inductive Wait where
  | timetable
  | signals (ids : SignalRequest)
  deriving DecidableEq

/-- The answer to a request. -/
inductive Response where
  | hierarchy
  | timetable (table : List ℕ)
  | signals (signals : List Signal)
  | accepted
  | notModified
  | notFound
  | error
  deriving DecidableEq

/-- What is known of a file. -/
structure FileInfo where
  timetable : List ℕ
  signals : FiniteMap SignalRef Signal
  reloading : Bool
  requestedInSession : Bool
  lastReloadOk : Bool
  lastModificationTime : Option ℕ

/-- The modification time of a file, when its body was read. -/
inductive Metadata where
  | missing
  /-- The platform does not know modification times. -/
  | unsupported
  | modified (time : ℕ)
  deriving DecidableEq, Repr

namespace FileInfo

/-- A file of which only the header was read. -/
def new : FileInfo where
  timetable := []
  signals := .empty
  reloading := false
  requestedInSession := false
  lastReloadOk := true
  lastModificationTime := none

/-- Whether a signal is loaded. -/
def isLoaded (f : FileInfo) (id : SignalRef) : Bool := (f.signals.get id).isSome

/-- The answer to a handler, once what it waits for is there. -/
def ready (f : FileInfo) : Wait → Option Response
  | .timetable => if f.timetable.isEmpty then none else some (.timetable f.timetable)
  | .signals ids =>
    if ids.1.all f.isLoaded then some (.signals (ids.1.filterMap f.signals.get)) else none

/-- The body was read. The signals of the last body are not those of this one. -/
def setBody (f : FileInfo) (timetable : List ℕ) : FileInfo := { f with timetable, signals := .empty }

/-- The reading of the body is over. -/
def finishReload (f : FileInfo) (metadata : Metadata) : FileInfo where
  timetable := f.timetable
  signals := f.signals
  reloading := false
  requestedInSession := f.requestedInSession
  lastReloadOk := true
  lastModificationTime :=
    match metadata with
    | .modified time => some time
    | _ => f.lastModificationTime

/-- Signals were read. -/
def install (f : FileInfo) (signals : List Signal) : FileInfo :=
  { f with signals := signals.foldl (fun m signal => m.insert signal.signalRef signal) f.signals }

/-- `mark_file_requested`. -/
def markFileRequested (f : FileInfo) : FileInfo := { f with requestedInSession := true }

/-- The file has changed since it was read. -/
def startReload (f : FileInfo) (mtime : ℕ) : FileInfo :=
  { f with
    requestedInSession := true
    lastModificationTime := some mtime
    reloading := true
    lastReloadOk := false }

end FileInfo

/-- Where the loader stands. -/
inductive Loader where
  | readsBody
  | receives
  /-- Those signals of a request are looked for that are not loaded. -/
  | filters (ids : SignalRequest)
  | readsSignals (ids : List SignalRef)
  | readsHeader
  | stopped
  deriving DecidableEq

/-- What the handlers and the loader of a file share. -/
structure File where
  info : FileInfo
  queue : List LoaderMessage
  loader : Loader

namespace File

/-- A file of which only the header was read, and its loader. -/
def new : File := { info := .new, queue := [], loader := .readsBody }

/-- Send a message to the loader. Nobody receives it when the loader has stopped. -/
def send (f : File) (msg : LoaderMessage) : Option File :=
  if f.loader = .stopped then none else some { f with queue := f.queue ++ [msg] }

/-- The loader stops, and the messages that are left are dropped. -/
def stop (f : File) : File := { f with queue := [], loader := .stopped }

end File

/-! ## The handlers -/

/-- What a client asks for, apart from a reload. -/
inductive Query where
  | getHierarchy
  | getTimeTable
  | getSignals (ids : List SignalRef)
  deriving DecidableEq

/-- Where a handler stands. -/
inductive Handler where
  /-- The file is marked as requested next. -/
  | marks (query : Query)
  | sends (ids : SignalRequest)
  | waits (wait : Wait) (phase : Notify.Phase)
  | readsMetadata
  /-- Whether the file is to be reloaded is decided next. -/
  | decides (mtime : ℕ)
  | sendsReload
  | done (response : Response)
  deriving DecidableEq

namespace Handler

/-- The handler after the file was marked. Nothing is sent when no signals are asked for. -/
def marked : Query → Handler
  | .getHierarchy => .done .hierarchy
  | .getTimeTable => .waits .timetable .checks
  | .getSignals ids => if h : ids = [] then .done (.signals []) else .sends ⟨ids, h⟩

/-- The decision of `handle_reload_cmd`. -/
def decide (mtime : ℕ) (f : FileInfo) : Handler × FileInfo :=
  if f.lastModificationTime = some mtime ∧ f.lastReloadOk = true then
    if f.requestedInSession then (.done .notModified, f)
    -- the file is unchanged, but it is new to this session
    else (.done .accepted, f.markFileRequested)
  else (.sendsReload, f.startReload mtime)

/-- The next step of a handler. Only a handler that is asleep has none. -/
def next (mtime : Option ℕ) (f : File) : Handler → Handler × File
  | .marks query => (marked query, { f with info := f.info.markFileRequested })
  | .sends ids =>
    match f.send (.signalRequest ids) with
    | some f => (.waits (.signals ids) .checks, f)
    | none => (.done .error, f)
  | .waits wait .checks =>
    match f.info.ready wait with
    | some response => (.done response, f)
    | none => (.waits wait .registers, f)
  -- the lock was released
  | .waits wait .registers => (.waits wait .asleep, f)
  | .waits wait .asleep => (.waits wait .asleep, f)
  | .readsMetadata =>
    match mtime with
    | some mtime => (.decides mtime, f)
    | none => (.done .notFound, f)
  | .decides mtime =>
    let (h, info) := decide mtime f.info
    (h, { f with info })
  | .sendsReload =>
    match f.send .reload with
    | some f => (.done .accepted, f)
    | none => (.done .error, f)
  | .done response => (.done response, f)

/-- What `notify_waiters` does to a handler. -/
def notified : Handler → Handler
  | .waits wait phase => .waits wait phase.notified
  | h => h

end Handler

/-! ## What a handler does -/

section

variable {f f' : File} {h : Handler} {ids : SignalRequest} {wait : Wait} {id : SignalRef}

namespace FileInfo

/-- Only the signals and the time table matter to those that wait. -/
theorem ready_congr {info info' : FileInfo} (htimetable : info'.timetable = info.timetable)
    (hsignals : info'.signals = info.signals) (wait : Wait) : info'.ready wait = info.ready wait := by
  unfold ready isLoaded
  rw [htimetable, hsignals]

theorem ready_finishReload (info : FileInfo) (metadata : Metadata) (wait : Wait) :
    (info.finishReload metadata).ready wait = info.ready wait :=
  ready_congr rfl rfl wait

theorem ready_timetable_eq_none {info : FileInfo} : info.ready .timetable = none ↔ info.timetable = [] := by
  simp [ready]

theorem ready_signals_eq_none {info : FileInfo} :
    info.ready (.signals ids) = none ↔ ∃ id ∈ ids.1, info.isLoaded id = false := by
  simp [ready]

/-- Nobody's signals are there when a body was read. -/
theorem ready_signals_setBody (info : FileInfo) (timetable : List ℕ) :
    (info.setBody timetable).ready (.signals ids) = none := by
  obtain ⟨id, hid⟩ := List.exists_mem_of_ne_nil ids.1 ids.2
  exact ready_signals_eq_none.2 ⟨id, hid, rfl⟩

/-- A signal is loaded once it was installed. -/
theorem isLoaded_install (info : FileInfo) (signals : List Signal) (id : SignalRef) :
    (info.install signals).isLoaded id = true ↔
      info.isLoaded id = true ∨ id ∈ signals.map Signal.signalRef :=
  FiniteMap.isSome_get_foldl_insert Signal.signalRef signals info.signals id

end FileInfo

/-- What a handler leaves as it is. It only adds to the queue. -/
structure Handler.Frame (f f' : File) : Prop where
  timetable : f'.info.timetable = f.info.timetable
  signals : f'.info.signals = f.info.signals
  loader : f'.loader = f.loader
  queue : f.queue ⊆ f'.queue

theorem File.send_frame {msg : LoaderMessage} (hsend : f.send msg = some f') :
    Handler.Frame f f' ∧ msg ∈ f'.queue := by
  unfold File.send at hsend
  split at hsend
  · cases hsend
  · obtain rfl := Option.some.inj hsend
    exact ⟨⟨rfl, rfl, rfl, List.subset_append_left _ _⟩, List.mem_append_right _ (List.mem_singleton_self _)⟩

theorem Handler.next_frame (mtime : Option ℕ) (f : File) (h : Handler) : Frame f (h.next mtime f).2 := by
  have hself : Frame f f := ⟨rfl, rfl, rfl, List.Subset.refl _⟩
  unfold next
  split
  next => exact ⟨rfl, rfl, rfl, List.Subset.refl _⟩
  next ids =>
    split
    next f' hsend => exact (File.send_frame hsend).1
    next => exact hself
  next =>
    split
    · exact hself
    · exact hself
  next => exact hself
  next => exact hself
  next =>
    split
    · exact hself
    · exact hself
  next mtime =>
    dsimp only
    unfold decide
    split
    · split
      · exact hself
      · exact ⟨rfl, rfl, rfl, List.Subset.refl _⟩
    · exact ⟨rfl, rfl, rfl, List.Subset.refl _⟩
  next =>
    split
    next f' hsend => exact (File.send_frame hsend).1
    next => exact hself
  next => exact hself

/-- How a handler comes to wait, and how it goes on waiting. -/
inductive Handler.WaitsBy (f f' : File) : Handler → Wait → Notify.Phase → Prop
  | asks : WaitsBy f f' (.marks .getTimeTable) .timetable .checks
  | sends {ids : SignalRequest} (h : .signalRequest ids ∈ f'.queue) :
      WaitsBy f f' (.sends ids) (.signals ids) .checks
  | looks {wait : Wait} (h : f.info.ready wait = none) : WaitsBy f f' (.waits wait .checks) wait .registers
  | registers (wait : Wait) : WaitsBy f f' (.waits wait .registers) wait .asleep
  | sleeps (wait : Wait) : WaitsBy f f' (.waits wait .asleep) wait .asleep

theorem Handler.waitsBy {mtime : Option ℕ} {phase : Notify.Phase}
    (hnext : (h.next mtime f).1 = .waits wait phase) : WaitsBy f (h.next mtime f).2 h wait phase := by
  cases h with
  | marks query =>
    cases query with
    | getHierarchy => cases hnext
    | getTimeTable =>
      cases hnext
      exact .asks
    | getSignals ids =>
      simp only [next, marked] at hnext
      split at hnext
      · cases hnext
      · cases hnext
  | sends ids =>
    simp only [next] at hnext ⊢
    split at hnext
    next f' hsend =>
      cases hnext
      exact .sends (File.send_frame hsend).2
    next => cases hnext
  | waits wait' phase' =>
    cases phase' with
    | checks =>
      simp only [next] at hnext ⊢
      split at hnext
      next => cases hnext
      next hnone =>
        cases hnext
        exact .looks hnone
    | registers =>
      cases hnext
      exact .registers wait
    | asleep =>
      cases hnext
      exact .sleeps wait
  | readsMetadata =>
    simp only [next] at hnext
    split at hnext
    · cases hnext
    · cases hnext
  | decides mtime =>
    simp only [next, decide] at hnext
    split at hnext
    · split at hnext
      · cases hnext
      · cases hnext
    · cases hnext
  | sendsReload =>
    simp only [next] at hnext
    split at hnext
    · cases hnext
    · cases hnext
  | done response => cases hnext

end

/-! ## The system -/

/-- A file, and the handlers of the requests about it. -/
structure FileServer where
  file : File
  handlers : List Handler

/-- What may happen next. -/
inductive Action where
  /-- A client asks for something. -/
  | query (query : Query)
  /-- A client asks for a reload. -/
  | reload
  /-- A handler goes on. The time is that of the file, if the handler looks for it. -/
  | handle (i : ℕ) (mtime : Option ℕ)
  /-- The client of a handler has gone. -/
  | disconnect (i : ℕ)
  /-- The loader has read the body, if it could. -/
  | bodyRead (timetable : Option (List ℕ)) (metadata : Metadata)
  /-- The loader takes a message, or looks for the signals of the last one. -/
  | receive
  /-- The loader has read signals. -/
  | signalsRead (signals : List Signal)
  /-- The loader has read the header, if it could. -/
  | headerRead (ok : Bool)

/-- Whether a client or its handler acts, and not the loader. -/
def Action.ofClient : Action → Bool
  | .query _ | .reload | .handle _ _ | .disconnect _ => true
  | _ => false

namespace FileServer

/-- The server was started. -/
def new : FileServer := { file := .new, handlers := [] }

/-- The file has changed. -/
def set (s : FileServer) (file : File) : FileServer := { s with file }

/-- The file has changed, and the handlers are notified. -/
def notify (s : FileServer) (file : File) : FileServer :=
  { file, handlers := s.handlers.map Handler.notified }

/-- The body was read. When the modification time cannot be read, the loader stops before it notifies. -/
def bodyRead (s : FileServer) (timetable : Option (List ℕ)) (metadata : Metadata) : FileServer :=
  match timetable with
  | none => s.set s.file.stop
  | some timetable =>
    let info := s.file.info.setBody timetable
    if metadata = .unsupported then s.set { s.file with info }.stop
    else s.notify { s.file with info := info.finishReload metadata, loader := .receives }

/-- The signals that the loader has to read. -/
def filterIds (f : FileInfo) (ids : SignalRequest) : List SignalRef :=
  -- make sure that we do not load signals that have already been loaded
  ((ids.1.filter fun id => !f.isLoaded id).insertionSort (· ≤ ·)).dedup

/-- The loader takes a message, or looks for the signals of the last one. -/
def receive (s : FileServer) : FileServer :=
  match s.file.loader, s.file.queue with
  | .receives, .signalRequest ids :: queue => s.set { s.file with queue, loader := .filters ids }
  | .receives, .reload :: queue => s.set { s.file with queue, loader := .readsHeader }
  | .filters ids, _ =>
    match filterIds s.file.info ids with
    | [] => s.set { s.file with loader := .receives }
    | ids => s.set { s.file with loader := .readsSignals ids }
  | _, _ => s

/-- The system after an action. What the loader cannot do where it stands has no effect. -/
def next (s : FileServer) : Action → FileServer
  | .query query => { s with handlers := s.handlers ++ [.marks query] }
  | .reload => { s with handlers := s.handlers ++ [.readsMetadata] }
  | .handle i mtime =>
    match s.handlers[i]? with
    | none => s
    | some h =>
      let (h, file) := h.next mtime s.file
      { file, handlers := s.handlers.set i h }
  | .disconnect i => { s with handlers := s.handlers.eraseIdx i }
  | .bodyRead timetable metadata =>
    if s.file.loader = .readsBody then s.bodyRead timetable metadata else s
  | .receive => s.receive
  | .signalsRead signals =>
    match s.file.loader with
    | .readsSignals _ =>
      s.notify { s.file with info := s.file.info.install signals, loader := .receives }
    | _ => s
  | .headerRead ok =>
    if s.file.loader = .readsHeader then
      if ok then s.set { s.file with loader := .readsBody } else s.set s.file.stop
    else s

/-- The step of the system. Every action can be taken, though some do nothing. -/
def step (s : FileServer) (a : Action) : Run FileServer := .ok (s.next a)

/-- The library reads the signals that it is asked for. -/
def Reads (s : FileServer) : Action → Prop
  | .signalsRead signals =>
    ∀ ids, s.file.loader = .readsSignals ids → ∀ id ∈ ids, id ∈ signals.map Signal.signalRef
  | _ => True

end FileServer

/-- A property of handlers that the handlers keep among themselves. -/
structure Handler.Invariant (P : File → Handler → Prop) : Prop where
  marks (f : File) (query : Query) : P f (.marks query)
  readsMetadata (f : File) : P f .readsMetadata
  next {f : File} {h : Handler} (mtime : Option ℕ) : P f h → P (h.next mtime f).2 (h.next mtime f).1
  frame {f f' : File} {h : Handler} : Frame f f' → P f h → P f' h

/-- The handlers keep it when the loader rests. -/
theorem Handler.Invariant.forall_next {P : File → Handler → Prop} (hP : Invariant P) {s : FileServer}
    {a : Action} (hs : ∀ h ∈ s.handlers, P s.file h) (ha : a.ofClient = true) :
    ∀ h ∈ (s.next a).handlers, P (s.next a).file h := by
  cases a with
  | query query =>
    intro h hh
    rcases List.mem_append.1 hh with hh | hh
    · exact hs h hh
    · rw [List.mem_singleton.1 hh]
      exact hP.marks s.file query
  | reload =>
    intro h hh
    rcases List.mem_append.1 hh with hh | hh
    · exact hs h hh
    · rw [List.mem_singleton.1 hh]
      exact hP.readsMetadata s.file
  | handle i mtime =>
    simp only [FileServer.next]
    split
    · exact hs
    next h hget =>
      intro h' hh'
      have hmem : h ∈ s.handlers := List.mem_of_getElem? hget
      rcases List.mem_or_eq_of_mem_set hh' with hh' | rfl
      · exact hP.frame (h.next_frame mtime s.file) (hs h' hh')
      · exact hP.next mtime (hs h hmem)
  | disconnect i => exact fun h hh => hs h (List.mem_of_mem_eraseIdx hh)
  | bodyRead _ _ | receive | signalsRead _ | headerRead _ => cases ha

/-- The files of a server, which share nothing but a lock. -/
abbrev Server (n : ℕ) := Fin n → FileServer

/-- A server that was started. -/
def Server.new (n : ℕ) : Server n := fun _ => .new

/-- The step of a server. -/
abbrev Server.step {n : ℕ} : Server n → Fin n × Action → Run (Server n) :=
  Transition.interleave FileServer.step

/-- A request for one signal. -/
def oneSignal : SignalRequest := ⟨[3], by simp⟩

end Surver
