import Kahuna.Surver.Basic

/-!
# The requests of the handlers

A handler asks the loader for its signals once. The loader drops the signals that are loaded whenever it
has read the body, but not every request of a handler that still waits for them is before it at that time.

- `ready_signals_asked`: a handler answers the signals that it was asked for, in the same order.
- `requests_kept`: whatever a handler waits for is loaded, or in a request that is still before the loader,
  if the loader reads no body and does not stop while a handler that waits needs what is lost by it.
-/

namespace Surver

open Wave (SignalRef)
open Wellen (Signal)
open Transition

/-! ## The answers -/

/-- Each signal is found under its own number. -/
def FileInfo.Keyed (info : FileInfo) : Prop := FiniteMap.All (fun id signal => signal.signalRef = id) info.signals

theorem FileInfo.Keyed.install {info : FileInfo} (h : info.Keyed) (signals : List Signal) :
    (info.install signals).Keyed := by
  unfold Keyed FileInfo.install at *
  dsimp only
  generalize info.signals = m at h
  induction signals generalizing m with
  | nil => exact h
  | cons signal signals ih => exact ih _ (h.insert rfl)

theorem FileInfo.Keyed.of_signals {info info' : FileInfo} (h : info.Keyed)
    (hsignals : info'.signals = info.signals) : info'.Keyed := by
  unfold Keyed
  rw [hsignals]
  exact h

/-- Every step keeps the signals under their numbers. -/
theorem FileServer.keyed_next {s : FileServer} (h : s.file.info.Keyed) (a : Action) :
    (s.next a).file.info.Keyed := by
  cases a with
  | query _ => exact h
  | reload => exact h
  | disconnect _ => exact h
  | handle i mtime =>
    simp only [FileServer.next]
    split
    · exact h
    next handler _ => exact h.of_signals (handler.next_frame mtime s.file).signals
  | bodyRead timetable metadata =>
    simp only [FileServer.next]
    split
    · cases timetable with
      | none => exact h
      | some timetable =>
        simp only [FileServer.bodyRead]
        split
        · exact FiniteMap.all_empty
        · exact FiniteMap.all_empty
    · exact h
  | receive =>
    simp only [FileServer.next, FileServer.receive]
    split
    · exact h
    · exact h
    · split
      · exact h
      · exact h
    · exact h
  | signalsRead signals =>
    simp only [FileServer.next]
    split
    · exact h.install signals
    · exact h
  | headerRead ok =>
    simp only [FileServer.next]
    split
    · split
      · exact h
      · exact h
    · exact h

/-- The signals of an answer are those that were asked for, in the same order. -/
theorem FileInfo.Keyed.ready_signals {info : FileInfo} (h : info.Keyed) {ids : SignalRequest}
    {signals : List Signal} (hready : info.ready (.signals ids) = some (.signals signals)) :
    signals.map Signal.signalRef = ids.1 := by
  simp only [ready, Option.ite_none_right_eq_some, List.all_eq_true, Option.some.injEq,
    Response.signals.injEq] at hready
  obtain ⟨hloaded, rfl⟩ := hready
  rw [List.map_filterMap]
  have hkey : ∀ id ∈ ids.1, (info.signals.get id).map Signal.signalRef = some id := by
    intro id hid
    obtain ⟨signal, hsignal⟩ := Option.isSome_iff_exists.1 (hloaded id hid)
    rw [hsignal, Option.map_some, h id signal hsignal]
  rw [List.filterMap_congr hkey, List.filterMap_some]

/-- In every run, a handler answers the signals that it was asked for, in the same order. -/
theorem ready_signals_asked {n : ℕ} {s : Server n}
    (h : Reachable Server.step (fun _ _ => True) (Server.new n) s) (fileIndex : Fin n)
    {ids : SignalRequest} {signals : List Signal}
    (hready : (s fileIndex).file.info.ready (.signals ids) = some (.signals signals)) :
    signals.map Signal.signalRef = ids.1 := by
  have halone : Reachable FileServer.step (fun _ _ => True) (Server.new n fileIndex) (s fileIndex) :=
    h.component fileIndex
  have hkeyed : (s fileIndex).file.info.Keyed := by
    refine halone.invariant (I := fun s => s.file.info.Keyed) FiniteMap.all_empty ?_
    intro s a s' hs _ hstep
    obtain rfl := Except.ok.inj hstep
    exact FileServer.keyed_next hs a
  exact hkeyed.ready_signals hready

/-! ## The requests -/

/-- The signals of the request that the loader is about. -/
def Loader.processing : Loader → List SignalRef
  | .filters ids => ids.1
  | .readsSignals ids => ids
  | _ => []

namespace File

variable {f f' : File} {id : SignalRef}

/-- A request for a signal waits for the loader. -/
def Queued (f : File) (id : SignalRef) : Prop := ∃ ids : SignalRequest, .signalRequest ids ∈ f.queue ∧ id ∈ ids.1

/-- A signal is loaded, or the loader will be about it, or is. -/
def Kept (f : File) (id : SignalRef) : Prop :=
  f.info.isLoaded id = true ∨ f.Queued id ∨ id ∈ f.loader.processing

theorem Kept.frame (h : f.Kept id) (hframe : Handler.Frame f f') : f'.Kept id := by
  rcases h with hloaded | ⟨ids, hqueue, hid⟩ | hprocessing
  · refine .inl ?_
    rw [FileInfo.isLoaded, hframe.signals]
    exact hloaded
  · exact .inr (.inl ⟨ids, hframe.queue hqueue, hid⟩)
  · refine .inr (.inr ?_)
    rw [hframe.loader]
    exact hprocessing

end File

/-- What a handler waits for is not forgotten. -/
def Handler.Kept (f : File) (h : Handler) : Prop :=
  ∀ ids phase, h = .waits (.signals ids) phase → ∀ id ∈ ids.1, f.Kept id

/-- A request is before the loader once it was sent. -/
theorem Handler.kept_invariant : Handler.Invariant Handler.Kept where
  marks f query ids phase h := by cases h
  readsMetadata f ids phase h := by cases h
  next {f h} mtime hkept ids phase hnext id hid := by
    have hframe := h.next_frame mtime f
    have hwaits := h.waitsBy hnext
    generalize (h.next mtime f).2 = f' at hframe hwaits
    cases hwaits with
    | sends hqueue => exact .inr (.inl ⟨ids, hqueue, hid⟩)
    | looks _ => exact (hkept ids .checks rfl id hid).frame hframe
    | registers _ => exact (hkept ids .registers rfl id hid).frame hframe
    | sleeps _ => exact (hkept ids .asleep rfl id hid).frame hframe
  frame hframe hkept ids phase h id hid := (hkept ids phase h id hid).frame hframe

namespace FileServer

variable {s : FileServer} {a : Action}

/-- No request is forgotten. -/
def Kept (s : FileServer) : Prop := ∀ h ∈ s.handlers, h.Kept s.file

/-- A handler waits for some signals. -/
def WaitsFor (s : FileServer) (id : SignalRef) : Prop :=
  ∃ ids phase, Handler.waits (.signals ids) phase ∈ s.handlers ∧ id ∈ ids.1

/-- Neither the signals that are dropped when a body was read nor the requests that are dropped when the
loader stops are those that a handler needs. -/
def Spares (s : FileServer) : Action → Prop
  | .bodyRead (some _) metadata =>
    s.file.loader = .readsBody → ∀ id, s.WaitsFor id → metadata ≠ .unsupported ∧ s.file.Queued id
  | .bodyRead none _ => s.file.loader = .readsBody → ∀ id, s.WaitsFor id → s.file.info.isLoaded id = true
  | .headerRead false => s.file.loader = .readsHeader → ∀ id, s.WaitsFor id → s.file.info.isLoaded id = true
  | _ => True

/-- What is kept in the file is kept for the handlers, whether or not they are notified. -/
theorem Kept.of_file {s' : FileServer} (hs : s.Kept)
    (hhandlers : s'.handlers = s.handlers ∨ s'.handlers = s.handlers.map Handler.notified)
    (hfile : ∀ id, s.WaitsFor id → s.file.Kept id → s'.file.Kept id) : s'.Kept := by
  have hsame : ∀ h ∈ s.handlers, h.Kept s'.file := by
    intro h hh ids phase hwaits id hid
    exact hfile id ⟨ids, phase, hwaits ▸ hh, hid⟩ (hs h hh ids phase hwaits id hid)
  rcases hhandlers with hhandlers | hhandlers
  · intro h hh
    exact hsame h (hhandlers ▸ hh)
  · intro h hh
    rw [hhandlers] at hh
    obtain ⟨h', hh', rfl⟩ := List.mem_map.1 hh
    intro ids phase hwaits
    cases h' with
    | waits wait phase' =>
      cases hwaits
      exact hsame _ hh' ids phase' rfl
    | marks _ | sends _ | readsMetadata | decides _ | sendsReload | done _ => cases hwaits

theorem mem_filterIds {f : FileInfo} {ids : SignalRequest} {id : SignalRef} :
    id ∈ filterIds f ids ↔ id ∈ ids.1 ∧ f.isLoaded id = false := by
  simp [filterIds]

/-- The loader takes a message, or finds out what is to be loaded for the last one. -/
theorem Kept.receive (hs : s.Kept) : s.receive.Kept := by
  unfold FileServer.receive
  split
  next ids queue hloader hqueue =>
    refine hs.of_file (.inl rfl) fun id _ hkept => ?_
    rcases hkept with hloaded | ⟨ids', hmem, hid⟩ | hprocessing
    · exact .inl hloaded
    · rw [hqueue] at hmem
      rcases List.mem_cons.1 hmem with heq | hmem
      · cases heq
        exact .inr (.inr hid)
      · exact .inr (.inl ⟨ids', hmem, hid⟩)
    · rw [hloader] at hprocessing
      cases hprocessing
  next queue hloader hqueue =>
    refine hs.of_file (.inl rfl) fun id _ hkept => ?_
    rcases hkept with hloaded | ⟨ids', hmem, hid⟩ | hprocessing
    · exact .inl hloaded
    · rw [hqueue] at hmem
      rcases List.mem_cons.1 hmem with heq | hmem
      · cases heq
      · exact .inr (.inl ⟨ids', hmem, hid⟩)
    · rw [hloader] at hprocessing
      cases hprocessing
  next _ ids hloader =>
    -- what is filtered out is loaded
    have hfiltered : ∀ id, s.file.Kept id → s.file.info.isLoaded id = true ∨ s.file.Queued id ∨
        id ∈ filterIds s.file.info ids := by
      intro id hkept
      rcases hkept with hloaded | hqueued | hprocessing
      · exact .inl hloaded
      · exact .inr (.inl hqueued)
      · rw [hloader] at hprocessing
        cases hid : s.file.info.isLoaded id with
        | true => exact .inl rfl
        | false => exact .inr (.inr (mem_filterIds.2 ⟨hprocessing, hid⟩))
    split
    next hnil =>
      refine hs.of_file (.inl rfl) fun id _ hkept => ?_
      rcases hfiltered id hkept with hloaded | hqueued | hid
      · exact .inl hloaded
      · exact .inr (.inl hqueued)
      · rw [hnil] at hid
        cases hid
    next ids' _ _ => exact hs.of_file (.inl rfl) fun id _ hkept => hfiltered id hkept
  next => exact hs

/-- A step that spares what the handlers need forgets no request. -/
theorem Kept.next (hs : s.Kept) (hreads : s.Reads a) (hspares : s.Spares a) : (s.next a).Kept := by
  cases a with
  | query _ | reload | handle _ _ | disconnect _ => exact Handler.kept_invariant.forall_next hs rfl
  | receive => exact hs.receive
  | bodyRead timetable metadata =>
    simp only [FileServer.next]
    split
    next hloader =>
      cases timetable with
      | none => exact hs.of_file (.inl rfl) fun id hwaits _ => .inl (hspares hloader id hwaits)
      | some timetable =>
        simp only [bodyRead]
        split
        next hmetadata =>
          exact hs.of_file (.inl rfl) fun id hwaits _ => absurd hmetadata (hspares hloader id hwaits).1
        next =>
          exact hs.of_file (.inr rfl) fun id hwaits _ => .inr (.inl (hspares hloader id hwaits).2)
    next => exact hs
  | signalsRead signals =>
    simp only [FileServer.next]
    split
    next ids hloader =>
      refine hs.of_file (.inr rfl) fun id _ hkept => ?_
      have hinstall := s.file.info.isLoaded_install signals id
      rcases hkept with hloaded | hqueued | hprocessing
      · exact .inl (hinstall.2 (.inl hloaded))
      · exact .inr (.inl hqueued)
      · rw [hloader] at hprocessing
        exact .inl (hinstall.2 (.inr (hreads ids hloader id hprocessing)))
    next => exact hs
  | headerRead ok =>
    simp only [FileServer.next]
    split
    next hloader =>
      cases ok with
      | true =>
        refine hs.of_file (.inl rfl) fun id _ hkept => ?_
        rcases hkept with hloaded | hqueued | hprocessing
        · exact .inl hloaded
        · exact .inr (.inl hqueued)
        · rw [hloader] at hprocessing
          cases hprocessing
      | false => exact hs.of_file (.inl rfl) fun id hwaits _ => .inl (hspares hloader id hwaits)
    next => exact hs

end FileServer

/-- In every run in which the library reads the signals that it is asked for, and in which the loader reads
no body and does not stop while a handler needs what is dropped then, every signal that a handler waits for
is loaded, or in a request that waits for the loader or that the loader is about. -/
theorem requests_kept {n : ℕ} {s : Server n}
    (h : Reachable Server.step (fun s a => (s a.1).Reads a.2 ∧ (s a.1).Spares a.2) (Server.new n) s)
    (fileIndex : Fin n) {ids : SignalRequest} {phase : Notify.Phase}
    (hwaits : .waits (.signals ids) phase ∈ (s fileIndex).handlers) :
    ∀ id ∈ ids.1, (s fileIndex).file.info.isLoaded id = true ∨ (s fileIndex).file.Queued id ∨
      id ∈ (s fileIndex).file.loader.processing := by
  have halone : Reachable FileServer.step (fun s a => s.Reads a ∧ s.Spares a)
      (Server.new n fileIndex) (s fileIndex) :=
    h.component fileIndex
  have hkept : (s fileIndex).Kept := by
    refine halone.invariant (I := FileServer.Kept) ?_ ?_
    · exact fun h hh => absurd hh List.not_mem_nil
    · rintro s a s' hs ⟨hreads, hspares⟩ hstep
      obtain rfl := Except.ok.inj hstep
      exact hs.next hreads hspares
  exact fun id hid => hkept _ hwaits ids phase rfl id hid

/-- A client asks for a signal, and its handler sends the request. -/
def askOne : List Action := [.query (.getSignals [3]), .handle 0 none, .handle 0 none]

/-- A signal is asked for while the body is read, and the loader is about it when the body was read. -/
theorem requests_kept_body :
    ∃ s : Server 1,
      Reachable Server.step (fun s a => (s a.1).Reads a.2 ∧ (s a.1).Spares a.2) (Server.new 1) s ∧
      .waits (.signals oneSignal) .checks ∈ (s 0).handlers ∧ (s 0).file.info.timetable = [0, 5] ∧
      ∀ id ∈ oneSignal.1, (s 0).file.info.isLoaded id = true ∨ (s 0).file.Queued id ∨
        id ∈ (s 0).file.loader.processing := by
  have hrun : AllowedRun FileServer.next (fun s a => s.Reads a ∧ s.Spares a) .new
      (askOne ++ [.bodyRead (some [0, 5]) .missing, .receive]) := by
    refine ⟨⟨trivial, trivial⟩, ⟨trivial, trivial⟩, ⟨trivial, trivial⟩, ⟨trivial, fun _ id hwaits => ?_⟩,
      ⟨trivial, trivial⟩, trivial⟩
    obtain ⟨ids, phase, hmem, hid⟩ := hwaits
    cases List.mem_singleton.1 hmem
    exact ⟨by simp, oneSignal, List.mem_cons_self, hid⟩
  have halone : Reachable FileServer.step (fun s a => s.Reads a ∧ s.Spares a) (Server.new 1 0) _ :=
    reachable_of_allowedRun (fun _ _ => rfl) hrun
  have hreach := halone.single
  exact ⟨_, hreach, List.mem_cons_self, rfl, requests_kept hreach 0 List.mem_cons_self⟩

/-- The signals of a handler are loaded, but before the handler looks for them the file is loaded again. The
handler waits from then on for signals that nobody loads. -/
theorem request_stranded :
    ¬ ∀ {n : ℕ} {s : Server n},
      Reachable Server.step (fun s a => (s a.1).Reads a.2) (Server.new n) s →
      ∀ (fileIndex : Fin n) {ids : SignalRequest} {phase : Notify.Phase},
      .waits (.signals ids) phase ∈ (s fileIndex).handlers →
      ∀ id ∈ ids.1, (s fileIndex).file.info.isLoaded id = true ∨ (s fileIndex).file.Queued id ∨
        id ∈ (s fileIndex).file.loader.processing := by
  intro hall
  have hrun : AllowedRun FileServer.next (fun s a => s.Reads a) .new
      (askOne ++ [.bodyRead (some [0, 5]) .missing, .receive, .receive,
        .signalsRead [{ signalRef := 3, changes := [] }],
        .reload, .handle 1 (some 9), .handle 1 none, .handle 1 none, .receive, .headerRead true,
        .bodyRead (some [0, 7]) .missing]) := by
    refine ⟨trivial, trivial, trivial, trivial, trivial, trivial, fun ids hids id hid => ?_, trivial, trivial,
      trivial, trivial, trivial, trivial, trivial, trivial⟩
    cases hids
    exact hid
  have halone : Reachable FileServer.step (fun s a => s.Reads a) (Server.new 1 0) _ :=
    reachable_of_allowedRun (fun _ _ => rfl) hrun
  have hreach := halone.single
  rcases @hall 1 _ hreach 0 oneSignal .checks List.mem_cons_self 3 List.mem_cons_self with
    hloaded | ⟨ids, hmem, -⟩ | hprocessing
  · cases hloaded
  · cases hmem
  · cases hprocessing

end Surver
