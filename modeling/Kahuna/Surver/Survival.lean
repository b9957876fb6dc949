import Kahuna.Surver.OneGeneration

/-!
# Reloads that fail

When a reload cannot read the file, the loader stops. What it has read stays as it is and goes on being
served, but nobody takes the messages of the handlers any more, and the file counts as being reloaded from
then on.

- `DiskServer.Survives`: what is expected of a server that could not read its file again.
- `not_survives`: no server does so. All signals and all reloads are answered with an error afterwards.
-/

namespace Surver

open Transition

namespace DiskServer

variable {H : Type} (h : FileHistory H)

/-- The loader is to read the header or the body again, and cannot. The first body is treated alike. -/
def RereadFails (d : DiskServer H) : DiskAction → Prop
  | .headerRead false => d.server.file.loader = .readsHeader
  | .bodyRead none _ => d.server.file.loader = .readsBody
  | _ => False

/-- What is served is the same in two states. -/
structure SameData (d d' : DiskServer H) : Prop where
  hierarchy : d'.hierarchy = d.hierarchy
  timetable : d'.info.timetable = d.info.timetable
  signals : d'.info.signals = d.info.signals

/-- A handler that needs the loader goes on with an error. -/
def Refused (d : DiskServer H) (i : ℕ) (handler : Handler) : Prop :=
  ∀ found, d.response h (.handle i found) = some (handler, .error)

/-- A handler that sends a message to the loader. -/
def Sends : Handler → Prop
  | .sends _ | .sendsReload => True
  | _ => False

/-- The server goes on with what it has loaded, it says that the reload is over, and each later request for
signals and each later reload reaches the loader. -/
structure Survives (d d' : DiskServer H) : Prop where
  sameData : d.SameData d'
  reloading : d'.info.reloading = false
  processed {e : DiskServer H} {i : ℕ} {handler : Handler} :
    Reachable (step h) (fun _ _ => True) d' e → e.server.handlers[i]? = some handler → Sends handler →
    ¬ e.Refused h i handler

variable {h} {d : DiskServer H}

theorem SameData.refl (d : DiskServer H) : d.SameData d := ⟨rfl, rfl, rfl⟩

theorem SameData.trans {d' d'' : DiskServer H} (hd : d.SameData d') (hd' : d'.SameData d'') :
    d.SameData d'' :=
  ⟨hd'.hierarchy.trans hd.hierarchy, hd'.timetable.trans hd.timetable, hd'.signals.trans hd.signals⟩

/-- The loader stops, and nothing else changes. -/
theorem file_of_rereadFails {a : DiskAction} (ha : d.RereadFails a) :
    (d.next h a).server.file = d.server.file.stop := by
  cases a with
  | headerRead ok =>
    cases ok with
    | false => simp only [next, action, FileServer.next, if_pos (show _ = _ from ha)]; rfl
    | true => exact ha.elim
  | bodyRead body found =>
    cases body with
    | none => exact next_bodyRead_none ha found
    | some g => exact ha.elim
  | _ => exact ha.elim

/-- Once the loader has stopped, only handlers do anything to the file. -/
theorem next_of_stopped (hstopped : d.server.file.loader = .stopped) (a : DiskAction) :
    (d.next h a).server.file = d.server.file ∨
      ∃ handler : Handler, ∃ mtime,
        (d.next h a).server.file = (handler.next mtime d.server.file).2 := by
  cases a with
  | rewrite | query _ | reload | disconnect _ => exact .inl rfl
  | handle i found =>
    cases hget : d.server.handlers[i]? with
    | none => exact .inl (by rw [next_handle_none hget])
    | some handler => exact .inr ⟨handler, _, next_handle_file hget found⟩
  -- the loader is at none of its tasks
  | receive => exact .inl (by simp [next, action, FileServer.next, FileServer.receive, hstopped])
  | headerRead ok => exact .inl (by rw [next_headerRead_of_ne (by simp [hstopped])])
  | signalsRead => exact .inl (by rw [next_signalsRead_of_ne (by simp [hstopped])])
  | bodyRead body found => exact .inl (by rw [next_bodyRead_of_ne (by simp [hstopped])])

/-- A server whose loader has stopped, with the data of another state. -/
structure Stopped (d e : DiskServer H) : Prop where
  loader : e.server.file.loader = .stopped
  sameData : d.SameData e
  reloading : d.info.reloading = true → e.info.reloading = true

theorem Stopped.next {e : DiskServer H} (he : d.Stopped e) (a : DiskAction) :
    d.Stopped (e.next h a) := by
  rcases next_of_stopped (h := h) he.loader a with hfile | ⟨handler, mtime, hfile⟩
  · refine ⟨by rw [hfile, he.loader], he.sameData.trans ⟨rfl, ?_, ?_⟩, fun hreloading => ?_⟩
    · rw [info, hfile]
    · rw [info, hfile]
    · rw [info, hfile]
      exact he.reloading hreloading
  · have hframe := handler.next_frame mtime e.server.file
    have heffect := handler.next_effect mtime e.server.file
    refine ⟨by rw [hfile, hframe.loader, he.loader], he.sameData.trans ⟨rfl, ?_, ?_⟩,
      fun hreloading => ?_⟩
    · rw [info, hfile, hframe.timetable]
    · rw [info, hfile, hframe.signals]
    · rw [info, hfile]
      exact heffect.reloading (he.reloading hreloading)

/-- It never starts again. -/
theorem Stopped.reachable {e e' : DiskServer H} (he : d.Stopped e)
    (hreach : Reachable (step h) (fun _ _ => True) e e') : d.Stopped e' := by
  refine hreach.invariant (I := fun e => d.Stopped e) he ?_
  intro e a e' he _ hstep
  obtain rfl := Except.ok.inj hstep
  exact he.next a

theorem stopped_of_rereadFails {a : DiskAction} (ha : d.RereadFails a) : d.Stopped (d.next h a) := by
  have hfile := file_of_rereadFails (h := h) ha
  exact ⟨by rw [hfile]; rfl, ⟨rfl, by rw [info, hfile]; rfl, by rw [info, hfile]; rfl⟩,
    fun hreloading => by rw [info, hfile]; exact hreloading⟩

/-- Nobody takes a message. -/
theorem Stopped.refused {e : DiskServer H} (he : d.Stopped e) {i : ℕ} {handler : Handler}
    (hget : e.server.handlers[i]? = some handler) (hsends : Sends handler) : e.Refused h i handler := by
  intro found
  cases handler with
  | sends ids => simp [response, hget, Handler.next, File.send, he.loader]
  | sendsReload => simp [response, hget, Handler.next, File.send, he.loader]
  | _ => exact hsends.elim

/-- After a client has asked for signals, its handler is about to send the request. -/
theorem exists_sends (h : FileHistory H) (d : DiskServer H) :
    ∃ (e : DiskServer H) (i : ℕ), Reachable (step h) (fun _ _ => True) d e ∧
      e.server.handlers[i]? = some (Handler.sends oneSignal) := by
  refine ⟨(d.next h (.query (.getSignals [3]))).next h (.handle d.server.handlers.length false),
    d.server.handlers.length, (Reachable.start.step trivial rfl).step trivial rfl, ?_⟩
  have hget : (d.next h (.query (.getSignals [3]))).server.handlers[d.server.handlers.length]? =
      some (.marks (.getSignals [3])) := by
    simp [next, action, FileServer.next]
  have hserver := FileServer.next_handle none hget
  have hhandlers := congrArg FileServer.handlers hserver
  have hlt : d.server.handlers.length < (d.next h (.query (.getSignals [3]))).server.handlers.length := by
    simp [next, action, FileServer.next]
  refine (congrArg (·[d.server.handlers.length]?) hhandlers).trans ?_
  rw [List.getElem?_set_self hlt]
  rfl

/-- A server that cannot read its file again does not survive: it keeps its data, but the loader never
starts again, a reload that was under way is never over, and whatever needs the loader is answered with an
error. -/
theorem not_survives {a : DiskAction} (ha : d.RereadFails a) :
    ¬ Survives h d (d.next h a) ∧
      ∀ e, Reachable (step h) (fun _ _ => True) (d.next h a) e →
        d.SameData e ∧ (d.info.reloading = true → e.info.reloading = true) ∧
        ∀ i handler, e.server.handlers[i]? = some handler → Sends handler → e.Refused h i handler := by
  have hstopped := stopped_of_rereadFails (h := h) ha
  constructor
  · intro hsurvives
    obtain ⟨e, i, hreach, hget⟩ := exists_sends h (d.next h a)
    exact hsurvives.processed hreach hget trivial ((hstopped.reachable hreach).refused hget trivial)
  · intro e hreach
    have he := hstopped.reachable hreach
    exact ⟨he.sameData, he.reloading, fun i handler hget hsends => he.refused hget hsends⟩

/-- A file that was rewritten is reloaded, but its header cannot be read. -/
def reloadFails : List DiskAction :=
  [.bodyRead (some 0) true, .rewrite, .reload, .handle 0 true, .handle 0 true, .handle 0 true, .receive]

theorem not_survives_reloadFails :
    ¬ Survives (growing 0) (reloadFails.foldl (next (growing 0)) (new (growing 0)))
      ((reloadFails.foldl (next (growing 0)) (new (growing 0))).next (growing 0) (.headerRead false)) :=
  (not_survives (by show _ = _; decide)).1

theorem not_forall_survives :
    ¬ ∀ (H : Type) (h : FileHistory H) d a, Reachable (step h) (fun _ _ => True) (new h) d →
      d.RereadFails a → Survives h d (d.next h a) := by
  intro hall
  have hreach : Reachable (step (growing 0)) (fun _ _ => True) (new (growing 0))
      (reloadFails.foldl (next (growing 0)) (new (growing 0))) :=
    reachable_of_allowedRun (fun _ _ => rfl) (allowedRun_true _ _ _)
  have hfails : (reloadFails.foldl (next (growing 0)) (new (growing 0))).RereadFails (.headerRead false) := by
    show _ = _
    decide
  -- the file counts as being reloaded from then on
  have hover := (hall _ _ _ _ hreach hfails).reloading
  revert hover
  decide

end DiskServer

end Surver
