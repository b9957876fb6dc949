import Kahuna.Surver.Basic

/-!
# The notifications of the loader

A handler looks whether what it waits for is there, and registers for notifications after it has released
the lock. A notification in between does not wake it.

- `asleep_not_ready`: what a handler waits for that is asleep is not there, if the loader does not make it
  come true while the handler is about to register.
-/

namespace Surver

open Wave (SignalRef)
open Wellen (Signal)
open Transition

/-- What a handler waits for is not there, unless the handler looks for it next. -/
def Handler.Quiet (f : File) (h : Handler) : Prop :=
  ∀ wait phase, h = .waits wait phase → phase.Quiet (f.info.ready wait ≠ none)

namespace Handler

theorem ready_of_frame {f f' : File} (h : Frame f f') (wait : Wait) :
    f'.info.ready wait = f.info.ready wait :=
  FileInfo.ready_congr h.timetable h.signals wait

/-- A handler registers only after it has looked. -/
theorem quiet_invariant : Invariant Quiet where
  marks f query wait phase h := by cases h
  readsMetadata f wait phase h := by cases h
  next {f h} mtime hquiet wait phase hnext := by
    have hwaits := h.waitsBy hnext
    rw [ready_of_frame (h.next_frame mtime f)]
    generalize (h.next mtime f).2 = f' at hwaits
    cases hwaits with
    | asks => exact .checks
    | sends _ => exact .checks
    | looks hnone => exact .of_not (not_not_intro hnone)
    | registers _ => exact (hquiet wait .registers rfl).register
    | sleeps _ => exact hquiet wait .asleep rfl
  frame hframe hquiet wait phase h := by
    rw [ready_of_frame hframe]
    exact hquiet wait phase h

end Handler

namespace FileServer

variable {s : FileServer} {a : Action}

/-- All handlers of the file are quiet. -/
def Quiet (s : FileServer) : Prop := ∀ h ∈ s.handlers, h.Quiet s.file

/-- The loader fills the time table while no handler is about to register for it, and without notifying
only while none is asleep. It installs signals while no handler is about to register whose other signals are
loaded. -/
def InTime (s : FileServer) : Action → Prop
  | .bodyRead (some timetable) metadata =>
    s.file.loader = .readsBody → timetable ≠ [] →
      .waits .timetable .registers ∉ s.handlers ∧
        (metadata = .unsupported → .waits .timetable .asleep ∉ s.handlers)
  | .signalsRead signals =>
    ∀ reads, s.file.loader = .readsSignals reads → ∀ ids, .waits (.signals ids) .registers ∈ s.handlers →
      ∃ id ∈ ids.1, s.file.info.isLoaded id = false ∧ id ∉ signals.map Signal.signalRef
  | _ => True

/-- A change of the file without a notification. -/
theorem Quiet.set {file : File} (hs : s.Quiet)
    (hfile : ∀ wait phase, .waits wait phase ∈ s.handlers → phase ≠ .checks → file.info.ready wait ≠ none →
      s.file.info.ready wait ≠ none) : (s.set file).Quiet := by
  intro h hh wait phase hwaits hphase hready
  exact hs h hh wait phase hwaits hphase (hfile wait phase (hwaits ▸ hh) hphase hready)

/-- A change of the file with a notification. -/
theorem Quiet.notify {file : File}
    (hfile : ∀ wait, .waits wait .registers ∈ s.handlers → file.info.ready wait = none) :
    (s.notify file).Quiet := by
  intro h hh wait phase hwaits
  obtain ⟨h', hh', rfl⟩ := List.mem_map.1 hh
  cases h' with
  | waits wait' phase' =>
    cases hwaits
    refine .notified fun hregisters => ?_
    subst hregisters
    exact not_not_intro (hfile wait hh')
  | marks _ | sends _ | readsMetadata | decides _ | sendsReload | done _ => cases hwaits

/-- A step in time leaves no handler asleep that should be awake. -/
theorem Quiet.next (hs : s.Quiet) (htime : s.InTime a) : (s.next a).Quiet := by
  cases a with
  | query _ | reload | handle _ _ | disconnect _ => exact Handler.quiet_invariant.forall_next hs rfl
  | receive =>
    simp only [FileServer.next, FileServer.receive]
    split
    · exact hs.set fun _ _ _ _ hready => hready
    · exact hs.set fun _ _ _ _ hready => hready
    · split
      · exact hs.set fun _ _ _ _ hready => hready
      · exact hs.set fun _ _ _ _ hready => hready
    · exact hs
  | bodyRead timetable metadata =>
    simp only [FileServer.next]
    split
    next hloader =>
      cases timetable with
      | none => exact hs.set fun _ _ _ _ hready => hready
      | some timetable =>
        have htimetable : ∀ {wait}, (s.file.info.setBody timetable).ready wait ≠ none →
            wait = .timetable ∧ timetable ≠ [] := by
          intro wait hready
          cases wait with
          | timetable => exact ⟨rfl, fun hnil => hready (FileInfo.ready_timetable_eq_none.2 hnil)⟩
          | signals ids => exact absurd (FileInfo.ready_signals_setBody _ _) hready
        simp only [FileServer.bodyRead]
        split
        next hmetadata =>
          refine hs.set fun wait phase hwaits hphase hready => ?_
          obtain ⟨rfl, hne⟩ := htimetable hready
          obtain ⟨hregisters, hasleep⟩ := htime hloader hne
          cases phase with
          | checks => exact absurd rfl hphase
          | registers => exact absurd hwaits hregisters
          | asleep => exact absurd hwaits (hasleep hmetadata)
        next =>
          refine .notify fun wait hwaits => ?_
          show ((s.file.info.setBody timetable).finishReload metadata).ready wait = none
          rw [FileInfo.ready_finishReload]
          by_contra hready
          obtain ⟨rfl, hne⟩ := htimetable hready
          exact (htime hloader hne).1 hwaits
    next => exact hs
  | signalsRead signals =>
    simp only [FileServer.next]
    split
    next reads hloader =>
      refine .notify fun wait hwaits => ?_
      cases wait with
      | timetable =>
        have hnone := hs _ hwaits .timetable .registers rfl (by simp)
        rw [not_not] at hnone
        exact hnone
      | signals ids =>
        obtain ⟨id, hid, hunloaded, hnot⟩ := htime reads hloader ids hwaits
        refine FileInfo.ready_signals_eq_none.2 ⟨id, hid, ?_⟩
        rw [← Bool.not_eq_true, FileInfo.isLoaded_install]
        rintro (hloaded | hread)
        · exact absurd (hunloaded.symm.trans hloaded) Bool.false_ne_true
        · exact hnot hread
    next => exact hs
  | headerRead ok =>
    simp only [FileServer.next]
    split
    · split
      · exact hs.set fun _ _ _ _ hready => hready
      · exact hs.set fun _ _ _ _ hready => hready
    · exact hs

end FileServer

/-- In every run in which the loader fills the time table while no handler is about to register for it, and
installs signals while no handler is about to register whose other signals are loaded, what a handler waits
for that is asleep is not there. -/
theorem asleep_not_ready {n : ℕ} {s : Server n}
    (h : Reachable Server.step (fun s a => (s a.1).InTime a.2) (Server.new n) s)
    (fileIndex : Fin n) {wait : Wait} (hasleep : .waits wait .asleep ∈ (s fileIndex).handlers) :
    (s fileIndex).file.info.ready wait = none := by
  have halone : Reachable FileServer.step FileServer.InTime (Server.new n fileIndex) (s fileIndex) :=
    h.component fileIndex
  have hquiet : (s fileIndex).Quiet := by
    refine halone.invariant (I := FileServer.Quiet) ?_ ?_
    · exact fun h hh => absurd hh List.not_mem_nil
    · intro s a s' hs htime hstep
      obtain rfl := Except.ok.inj hstep
      exact hs.next htime
  have hnot := hquiet _ hasleep wait .asleep rfl (by simp)
  rw [not_not] at hnot
  exact hnot

/-- A handler asks for the time table, looks for it in vain, and registers. Another one asks for a signal
when the body was read. -/
def sleepers : List Action :=
  [.query .getTimeTable, .handle 0 none, .handle 0 none, .handle 0 none,
    .bodyRead (some [0, 5]) .missing,
    .query (.getSignals [3]), .handle 1 none, .handle 1 none, .handle 1 none, .handle 1 none]

/-- The first handler was woken, and the other one is asleep, as its signal is not there. -/
theorem asleep_not_ready_sleepers :
    ∃ s : Server 1, Reachable Server.step (fun s a => (s a.1).InTime a.2) (Server.new 1) s ∧
      (s 0).handlers = [.waits .timetable .checks, .waits (.signals oneSignal) .asleep] ∧
      (s 0).file.info.ready (.signals oneSignal) = none := by
  have hrun : AllowedRun FileServer.next FileServer.InTime .new sleepers := by
    refine ⟨trivial, trivial, trivial, trivial, fun _ _ => ⟨?_, ?_⟩, trivial, trivial, trivial, trivial,
      trivial, trivial⟩
    · decide
    · intro h
      cases h
  have halone : Reachable FileServer.step FileServer.InTime (Server.new 1 0) _ :=
    reachable_of_allowedRun (fun _ _ => rfl) hrun
  have hreach := halone.single
  exact ⟨_, hreach, rfl, asleep_not_ready hreach 0 (List.mem_cons_of_mem _ List.mem_cons_self)⟩

/-- The body is read after a handler has looked for the time table and before it has registered. The handler
sleeps from then on, though the time table is there. -/
theorem wakeup_lost :
    ¬ ∀ {n : ℕ} {s : Server n}, Reachable Server.step (fun _ _ => True) (Server.new n) s →
      ∀ (fileIndex : Fin n) {wait : Wait}, .waits wait .asleep ∈ (s fileIndex).handlers →
      (s fileIndex).file.info.ready wait = none := by
  intro hall
  have halone : Reachable FileServer.step (fun _ _ => True) (Server.new 1 0) _ :=
    reachable_of_allowedRun (fun _ _ => rfl) (allowedRun_true FileServer.next .new
      [.query .getTimeTable, .handle 0 none, .handle 0 none, .bodyRead (some [0, 5]) .missing,
        .handle 0 none])
  have hreach := halone.single
  have hnone := @hall 1 _ hreach 0 .timetable List.mem_cons_self
  exact absurd hnone (by decide)

end Surver
