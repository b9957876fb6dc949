import Kahuna.Surver.Disk

/-!
# Files that were not modified

A reload is answered with `notModified` if the modification time is the one that was stored when the body
was read. The stored time is looked for after the body was read, so that it can be that of a later
generation, and the hierarchy is never read again.

- `DiskServer.Sound`: what is served comes from one generation.
- `notModified_sound`: `notModified` is answered only if the file is served as it stood at that time, if
  rewrites keep the hierarchy and each stored time is that of the generation whose body was read.
-/

namespace Surver

open Wave (SignalRef)
open Wellen (Signal)
open Transition

/-! ## What a handler does to the file -/

/-- What a handler does to the time of the last reload and to the messages. -/
structure Handler.Effect (f f' : File) (h h' : Handler) : Prop where
  lastReloadOk : f'.info.lastReloadOk = true → f.info.lastReloadOk = true ∧
    f'.info.lastModificationTime = f.info.lastModificationTime
  /-- The time of a handler is stored when it decides. -/
  stored {t : ℕ} : f'.info.lastModificationTime = some t →
    f.info.lastModificationTime = some t ∨ h = .decides t
  /-- Only the loader says that a reload is over. -/
  reloading : f.info.reloading = true → f'.info.reloading = true
  /-- A handler that sends a reload is done. -/
  reload : .reload ∈ f'.queue → .reload ∈ f.queue ∨ h = .sendsReload ∧ h' = .done .accepted
  /-- A handler decides about the time that it has looked for. -/
  decides {t : ℕ} : h' = .decides t → h = .readsMetadata

theorem File.send_effect {f f' : File} {msg : LoaderMessage} (hsend : f.send msg = some f') :
    f'.info = f.info ∧ f'.queue = f.queue ++ [msg] := by
  simp only [File.send] at hsend
  split at hsend
  · cases hsend
  · obtain rfl := Option.some.inj hsend
    exact ⟨rfl, rfl⟩

/-- A handler that leaves the times and the reloads alone. -/
theorem Handler.Effect.of_eq {f f' : File} {h h' : Handler}
    (hok : f'.info.lastReloadOk = f.info.lastReloadOk)
    (htime : f'.info.lastModificationTime = f.info.lastModificationTime)
    (hreloading : f'.info.reloading = f.info.reloading)
    (hreload : LoaderMessage.reload ∈ f'.queue → LoaderMessage.reload ∈ f.queue)
    (hdecides : ∀ t, h' ≠ .decides t) : Effect f f' h h' where
  lastReloadOk hok' := ⟨hok ▸ hok', htime⟩
  stored ht := .inl (htime ▸ ht)
  reloading hreload' := hreloading ▸ hreload'
  reload hmem := .inl (hreload hmem)
  decides heq := (hdecides _ heq).elim

theorem Handler.Effect.refl {f : File} {h h' : Handler} (hdecides : ∀ t, h' ≠ .decides t) :
    Effect f f h h' := .of_eq rfl rfl rfl id hdecides

theorem Handler.next_effect (mtime : Option ℕ) (f : File) (h : Handler) :
    Effect f (h.next mtime f).2 h (h.next mtime f).1 := by
  cases h with
  | marks query =>
    refine .of_eq rfl rfl rfl id fun t => ?_
    cases query with
    | getHierarchy => simp [next, marked]
    | getTimeTable => simp [next, marked]
    | getSignals ids =>
      simp only [next, marked]
      split <;> simp
  | sends ids =>
    simp only [next]
    split
    next f' hsend =>
      obtain ⟨hinfo, hqueue⟩ := File.send_effect hsend
      exact .of_eq (by rw [hinfo]) (by rw [hinfo]) (by rw [hinfo]) (by simp [hqueue]) (by simp)
    next => exact .refl (by simp)
  | waits wait phase =>
    cases phase with
    | checks =>
      simp only [next]
      split
      · exact .refl (by simp)
      · exact .refl (by simp)
    | registers => exact .refl (by simp [next])
    | asleep => exact .refl (by simp [next])
  | readsMetadata =>
    simp only [next]
    split
    · exact ⟨fun hok => ⟨hok, rfl⟩, .inl, id, .inl, fun _ => rfl⟩
    · exact .refl (by simp)
  | decides t =>
    simp only [next, Handler.decide]
    split
    · split
      · exact .refl (by simp)
      · exact .of_eq rfl rfl rfl id (by simp)
    · -- the file does not count as loaded until the reload is over
      refine ⟨fun hok => (by cases hok), fun ht => ?_, fun _ => rfl, .inl,
        fun hdecides => (by cases hdecides)⟩
      simp only [FileInfo.startReload, Option.some.injEq] at ht
      exact .inr (by rw [ht])
  | sendsReload =>
    simp only [next]
    split
    next f' hsend =>
      obtain ⟨hinfo, -⟩ := File.send_effect hsend
      exact ⟨fun hok => ⟨hinfo ▸ hok, by rw [hinfo]⟩, fun ht => .inl (hinfo ▸ ht),
        fun hreloading => hinfo.symm ▸ hreloading, fun _ => .inr ⟨rfl, rfl⟩,
        fun hdecides => (by cases hdecides)⟩
    next => exact .refl (by simp)
  | done response =>
    refine ⟨fun hok => ⟨hok, rfl⟩, .inl, id, .inl, fun hdecides => ?_⟩
    cases hdecides

theorem Handler.eq_of_next_decides {mtime : Option ℕ} {f : File} {h : Handler} {t : ℕ}
    (hnext : (h.next mtime f).1 = .decides t) : mtime = some t := by
  obtain rfl := (h.next_effect mtime f).decides hnext
  simp only [next] at hnext
  split at hnext
  · cases hnext; rfl
  · cases hnext

namespace FileServer

variable {s : FileServer} {a : Action}

/-- What a handler does to the file is what the system does when it goes on. -/
theorem next_handle {i : ℕ} {h : Handler} (mtime : Option ℕ) (hget : s.handlers[i]? = some h) :
    s.next (.handle i mtime) =
      { file := (h.next mtime s.file).2, handlers := s.handlers.set i (h.next mtime s.file).1 } := by
  simp only [next, hget]

theorem next_handle_none {i : ℕ} (mtime : Option ℕ) (hget : s.handlers[i]? = none) :
    s.next (.handle i mtime) = s := by
  simp only [next, hget]

/-- The loader rests while clients and handlers act. -/
theorem next_frame (ha : a.ofClient = true) : Handler.Frame s.file (s.next a).file := by
  have hself : Handler.Frame s.file s.file := ⟨rfl, rfl, rfl, List.Subset.refl _⟩
  cases a with
  | query _ | reload | disconnect _ => exact hself
  | handle i mtime =>
    cases hget : s.handlers[i]? with
    | none => rw [next_handle_none mtime hget]; exact hself
    | some h => rw [next_handle mtime hget]; exact h.next_frame mtime s.file
  | bodyRead _ _ | receive | signalsRead _ | headerRead _ => cases ha

theorem notified_eq_decides {h : Handler} {t : ℕ} (hh : h.notified = .decides t) : h = .decides t := by
  cases h with
  | waits _ _ => cases hh
  | _ => exact hh

theorem mem_receive_handlers {h : Handler} : h ∈ s.receive.handlers ↔ h ∈ s.handlers := by
  simp only [receive]
  split
  · rfl
  · rfl
  · split <;> rfl
  · rfl

/-- A handler that decides has just looked for the modification time, or has done so before. -/
theorem decides_of_next {t : ℕ} (ht : .decides t ∈ (s.next a).handlers) :
    .decides t ∈ s.handlers ∨ ∃ i, a = .handle i (some t) := by
  have hnotify {file : File} (ht : .decides t ∈ (s.notify file).handlers) :
      .decides t ∈ s.handlers := by
    obtain ⟨h, hmem, hh⟩ := List.mem_map.1 ht
    rwa [notified_eq_decides hh] at hmem
  cases a with
  | query _ => exact .inl (by simpa [next] using ht)
  | reload => exact .inl (by simpa [next] using ht)
  | disconnect i => exact .inl (List.mem_of_mem_eraseIdx ht)
  | handle i mtime =>
    cases hget : s.handlers[i]? with
    | none =>
      rw [next_handle_none mtime hget] at ht
      exact .inl ht
    | some h =>
      rw [next_handle mtime hget] at ht
      rcases List.mem_or_eq_of_mem_set ht with ht | ht
      · exact .inl ht
      · exact .inr ⟨i, by rw [Handler.eq_of_next_decides ht.symm]⟩
  | receive => exact .inl (mem_receive_handlers.1 ht)
  | bodyRead timetable metadata =>
    left
    simp only [next] at ht
    split at ht
    · cases timetable with
      | none => exact ht
      | some timetable =>
        simp only [FileServer.bodyRead] at ht
        split at ht
        · exact ht
        · exact hnotify ht
    · exact ht
  | signalsRead signals =>
    left
    simp only [next] at ht
    split at ht
    · exact hnotify ht
    · exact ht
  | headerRead ok =>
    left
    simp only [next] at ht
    split at ht
    · split at ht
      · exact ht
      · exact ht
    · exact ht

end FileServer

namespace DiskServer

variable {H : Type} (h : FileHistory H)

/-! ## What is served -/

/-- What the server knows of the file. -/
abbrev info (d : DiskServer H) : FileInfo := d.server.file.info

/-- The file is served as it stood at a generation: what is in the answers about the hierarchy, the time
table and the signals is what is read from that generation. -/
structure Serves (d : DiskServer H) (g : ℕ) : Prop where
  hierarchy : d.hierarchy = (h.contents g).hierarchy
  timetable : d.info.timetable = ((h.contents g).body (h.contents g).hierarchy).timetable
  signals : d.info.signals.All fun id signal =>
    signal = ((h.contents g).body (h.contents g).hierarchy).signal id

/-- A handler that is about to answer `notModified` does so because the file is served as it stood at the
modification time that the handler has read. -/
def NotModifiedSound (d : DiskServer H) : Prop :=
  ∀ t, .decides t ∈ d.server.handlers → (Handler.decide t d.info).1 = .done .notModified →
    ∃ g, h.mtime g = t ∧ d.Serves h g

/-- Rewrites keep the hierarchy, and the modification time that is stored when a body was read is that of
a generation with the same contents. If none is found the last one is kept, if there is one. -/
def KeepsTime (d : DiskServer H) : DiskAction → Prop
  | .rewrite => (h.contents (d.generation + 1)).hierarchy = (h.contents d.generation).hierarchy
  | .bodyRead (some g) true => d.server.file.loader = .readsBody → d.CanRead g →
    h.contents d.generation = h.contents g
  | .bodyRead (some g) false => d.server.file.loader = .readsBody → d.CanRead g →
    ∀ g', d.info.lastModificationTime = some (h.mtime g') → h.contents g' = h.contents g
  | _ => True

/-- What is served comes from the body that was read last. -/
structure FromBody (d : DiskServer H) : Prop where
  header_le : d.header ≤ d.generation
  body_le : d.body ≤ d.generation
  timetable : d.info.timetable = [] ∨ d.info.timetable = (d.readBody h d.body).timetable
  signals : d.info.signals.All fun id signal => signal = (d.readBody h d.body).signal id
  times {t : ℕ} : .decides t ∈ d.server.handlers → ∃ g ≤ d.generation, h.mtime g = t
  stored {t : ℕ} : d.info.lastModificationTime = some t → ∃ g ≤ d.generation, h.mtime g = t

/-- It comes from one generation, and so does the stored time. -/
structure Sound (d : DiskServer H) : Prop where
  hierarchy {g : ℕ} : g ≤ d.generation → d.hierarchy = (h.contents g).hierarchy
  time {g : ℕ} : d.info.lastReloadOk = true → d.info.lastModificationTime = some (h.mtime g) →
    h.contents g = h.contents d.body ∧ d.info.timetable = (d.readBody h d.body).timetable

variable {h} {d : DiskServer H}

/-! ## Steps of the server -/

/-- What a handler does to the file. -/
theorem next_handle_file {i : ℕ} {handler : Handler} (hget : d.server.handlers[i]? = some handler)
    (found : Bool) : (d.next h (.handle i found)).server.file =
      (handler.next (d.found h found) d.server.file).2 :=
  congrArg FileServer.file (FileServer.next_handle (d.found h found) hget)

theorem next_handle_none {i : ℕ} (hget : d.server.handlers[i]? = none) (found : Bool) :
    (d.next h (.handle i found)).server = d.server :=
  FileServer.next_handle_none (d.found h found) hget

/-- The body of a generation was read. -/
theorem next_bodyRead {g : ℕ} {found : Bool} (hread : d.CanRead g)
    (hloader : d.server.file.loader = .readsBody) :
    (d.next h (.bodyRead (some g) found)).server = d.server.notify
      { d.server.file with
        info := (d.info.setBody (d.readBody h g).timetable).finishReload (d.metadata h found)
        loader := .receives } := by
  -- the platform knows modification times
  have hmetadata : d.metadata h found ≠ .unsupported := by
    simp only [metadata]
    split <;> simp
  simp only [next, action, if_pos hread, FileServer.next, if_pos hloader, FileServer.bodyRead,
    if_neg hmetadata]

theorem next_bodyRead_none (hloader : d.server.file.loader = .readsBody) (found : Bool) :
    (d.next h (.bodyRead none found)).server.file = d.server.file.stop := by
  simp only [next, action, FileServer.next, if_pos hloader]
  rfl

theorem next_bodyRead_of_ne {body : Option ℕ} {found : Bool}
    (hloader : d.server.file.loader ≠ .readsBody) :
    (d.next h (.bodyRead body found)).server = d.server := by
  cases body with
  | none => simp only [next, action, FileServer.next, if_neg hloader]
  | some g =>
    by_cases hread : d.CanRead g
    · simp only [next, action, if_pos hread, FileServer.next, if_neg hloader]
    · simp only [next, action, if_neg hread]

theorem next_bodyRead_of_not_canRead {g : ℕ} {found : Bool} (hread : ¬ d.CanRead g) :
    (d.next h (.bodyRead (some g) found)).server = d.server := by
  simp only [next, action, if_neg hread]

theorem next_signalsRead {ids : List SignalRef} (hloader : d.server.file.loader = .readsSignals ids) :
    (d.next h .signalsRead).server = d.server.notify
      { d.server.file with
        info := d.info.install (ids.map (d.readBody h d.body).signal)
        loader := .receives } := by
  simp only [next, action, hloader, FileServer.next]

theorem next_signalsRead_of_ne (hloader : ∀ ids, d.server.file.loader ≠ .readsSignals ids) :
    (d.next h .signalsRead).server = d.server := by
  have hnone : d.action h .signalsRead = none := by
    simp only [action]
  simp only [next, hnone]

theorem next_headerRead_of_ne {ok : Bool} (hloader : d.server.file.loader ≠ .readsHeader) :
    (d.next h (.headerRead ok)).server = d.server := by
  simp only [next, action, FileServer.next, if_neg hloader]

/-! ## What is known of the stored time -/

theorem receive_info (s : FileServer) : s.receive.file.info = s.file.info := by
  simp only [FileServer.receive]
  split
  · rfl
  · rfl
  · split <;> rfl
  · rfl

theorem headerRead_info (s : FileServer) (ok : Bool) :
    (s.next (.headerRead ok)).file.info = s.file.info := by
  simp only [FileServer.next]
  split
  · split <;> rfl
  · rfl

theorem generation_le_next (d : DiskServer H) (a : DiskAction) :
    d.generation ≤ (d.next h a).generation := by
  cases a with
  | rewrite => exact Nat.le_succ _
  | _ => exact le_rfl

/-- A handler decides about the time of a generation. -/
theorem times_next (hd : d.FromBody h) (a : DiskAction) {t : ℕ}
    (ht : .decides t ∈ (d.next h a).server.handlers) :
    ∃ g ≤ (d.next h a).generation, h.mtime g = t := by
  have hle := generation_le_next (h := h) d a
  have hold {t : ℕ} (ht : .decides t ∈ d.server.handlers) :
      ∃ g ≤ (d.next h a).generation, h.mtime g = t := by
    obtain ⟨g, hg, rfl⟩ := hd.times ht
    exact ⟨g, hg.trans hle, rfl⟩
  cases hb : d.action h a with
  | none => exact hold (by simpa only [next, hb] using ht)
  | some b =>
    have ht' : .decides t ∈ (d.server.next b).handlers := by simpa only [next, hb] using ht
    rcases FileServer.decides_of_next ht' with ht' | ⟨i, rfl⟩
    · exact hold ht'
    · -- the time that the handler found is that of the file as it stands
      refine ⟨d.generation, hle, ?_⟩
      cases a with
      | handle j found =>
        cases found with
        | true => exact (by simpa [action] using hb : j = i ∧ _).2
        | false => simp [action] at hb
      | bodyRead body found =>
        cases body with
        | none => cases hb
        | some g =>
          simp only [action] at hb
          split at hb <;> cases hb
      | signalsRead =>
        simp only [action] at hb
        split at hb <;> cases hb
      | rewrite | query _ | reload | disconnect _ | receive | headerRead _ => cases hb

/-- What an action does to what is served. -/
inductive InfoStep (h : FileHistory H) (d : DiskServer H) (a : DiskAction) (d' : DiskServer H) : Prop
  | keeps (htimetable : d'.info.timetable = d.info.timetable)
      (hsignals : d'.info.signals = d.info.signals)
      (htime : d'.info.lastReloadOk = true → d.info.lastReloadOk = true ∧
        d'.info.lastModificationTime = d.info.lastModificationTime)
      (hstored : ∀ t, d'.info.lastModificationTime = some t →
        d.info.lastModificationTime = some t ∨ .decides t ∈ d.server.handlers)
      (hbody : d'.body = d.body)
  | body {g : ℕ} {found : Bool} (ha : a = .bodyRead (some g) found)
      (hloader : d.server.file.loader = .readsBody) (hread : d.CanRead g)
      (hinfo : d'.info =
        (d.info.setBody (d.readBody h g).timetable).finishReload (d.metadata h found))
      (hbody : d'.body = g)
  | signals {ids : List SignalRef} (ha : a = .signalsRead)
      (hloader : d.server.file.loader = .readsSignals ids)
      (hinfo : d'.info = d.info.install (ids.map (d.readBody h d.body).signal))
      (hbody : d'.body = d.body)

theorem InfoStep.of_info {a : DiskAction} {d' : DiskServer H} (hinfo : d'.info = d.info)
    (hbody : d'.body = d.body) : InfoStep h d a d' :=
  .keeps (by rw [hinfo]) (by rw [hinfo]) (fun hok => ⟨hinfo ▸ hok, by rw [hinfo]⟩)
    (fun _ ht => .inl (hinfo ▸ ht)) hbody

theorem infoStep (d : DiskServer H) (a : DiskAction) : InfoStep h d a (d.next h a) := by
  cases a with
  | rewrite | query _ | reload | disconnect _ => exact .of_info rfl rfl
  | receive => exact .of_info (receive_info _) rfl
  | headerRead ok => exact .of_info (headerRead_info _ _) rfl
  | handle i found =>
    cases hget : d.server.handlers[i]? with
    | none => exact .of_info (by rw [info, next_handle_none hget]) rfl
    | some handler =>
      have hframe := handler.next_frame (d.found h found) d.server.file
      have heffect := handler.next_effect (d.found h found) d.server.file
      refine .keeps ?_ ?_ ?_ ?_ rfl <;> simp only [info, next_handle_file hget]
      · exact hframe.timetable
      · exact hframe.signals
      · exact heffect.lastReloadOk
      · intro t ht
        refine (heffect.stored ht).imp_right fun hdecides => ?_
        exact hdecides ▸ List.mem_of_getElem? hget
  | bodyRead body found =>
    by_cases hloader : d.server.file.loader = .readsBody
    · cases body with
      | none => exact .of_info (by rw [info, next_bodyRead_none hloader]; rfl) rfl
      | some g =>
        by_cases hread : d.CanRead g
        · refine .body rfl hloader hread ?_ (by simp [next, hread, hloader])
          rw [info, next_bodyRead hread hloader]
          rfl
        · refine .of_info ?_ (by simp [next, hread])
          rw [info, next_bodyRead_of_not_canRead hread]
    · refine .of_info (by rw [info, next_bodyRead_of_ne hloader]) ?_
      cases body <;> simp [next, hloader]
  | signalsRead =>
    by_cases hloader : ∃ ids, d.server.file.loader = .readsSignals ids
    · obtain ⟨ids, hloader⟩ := hloader
      refine .signals rfl hloader ?_ rfl
      rw [info, next_signalsRead hloader]
      rfl
    · refine .of_info ?_ rfl
      rw [info, next_signalsRead_of_ne fun ids hids => hloader ⟨ids, hids⟩]

/-- Signals that are read belong to the body. -/
theorem all_install {body : Body} {info : FileInfo} (ids : List SignalRef)
    (hall : info.signals.All fun id signal => signal = body.signal id) :
    (info.install (ids.map body.signal)).signals.All fun id signal => signal = body.signal id := by
  simp only [FileInfo.install]
  generalize info.signals = m at hall
  induction ids generalizing m with
  | nil => exact hall
  | cons id ids ih => exact ih _ (hall.insert (by rw [body.signalRef_signal]))

theorem fromBody_new : (new h).FromBody h where
  header_le := le_rfl
  body_le := le_rfl
  timetable := .inl rfl
  signals := FiniteMap.all_empty
  times ht := by cases ht
  stored ht := by cases ht

theorem header_le_next (hle : d.header ≤ d.generation) (a : DiskAction) :
    (d.next h a).header ≤ (d.next h a).generation := by
  cases a with
  | rewrite => exact hle.trans (Nat.le_succ _)
  | headerRead ok =>
    cases ok with
    | false => exact hle
    | true =>
      simp only [next]
      split
      · exact le_rfl
      · exact hle
  | _ => exact hle

/-- A stored time is that of a generation. -/
theorem stored_next (hd : d.FromBody h) (a : DiskAction) {t : ℕ}
    (ht : (d.next h a).info.lastModificationTime = some t) :
    ∃ g ≤ (d.next h a).generation, h.mtime g = t := by
  have hle := generation_le_next (h := h) d a
  have hold {t : ℕ} (ht : d.info.lastModificationTime = some t) :
      ∃ g ≤ (d.next h a).generation, h.mtime g = t := by
    obtain ⟨g, hg, rfl⟩ := hd.stored ht
    exact ⟨g, hg.trans hle, rfl⟩
  rcases infoStep (h := h) d a with
    ⟨-, -, -, hstored, -⟩ | @⟨g, found, -, -, -, hinfo, -⟩ | ⟨-, -, hinfo, -⟩
  · rcases hstored t ht with ht | hdecides
    · exact hold ht
    · obtain ⟨g, hg, rfl⟩ := hd.times hdecides
      exact ⟨g, hg.trans hle, rfl⟩
  · rw [hinfo] at ht
    cases found with
    | true => exact ⟨d.generation, hle, Option.some.inj ht⟩
    | false => exact hold ht
  · rw [hinfo] at ht
    exact hold ht

/-- Whatever happens, what is served comes from the body that was read last. -/
theorem FromBody.next (hd : d.FromBody h) (a : DiskAction) : (d.next h a).FromBody h := by
  have hheader := header_le_next (h := h) hd.header_le a
  have hle := generation_le_next (h := h) d a
  have htimes : ∀ {t}, .decides t ∈ (d.next h a).server.handlers → _ := fun ht => times_next hd a ht
  have hstored : ∀ {t}, (d.next h a).info.lastModificationTime = some t → _ :=
    fun ht => stored_next hd a ht
  rcases infoStep (h := h) d a with
    ⟨htimetable, hsignals, -, -, hbody⟩ | ⟨-, -, hread, hinfo, hbody⟩ | ⟨-, -, hinfo, hbody⟩
  · refine ⟨hheader, hbody ▸ hd.body_le.trans hle, ?_, ?_, htimes, hstored⟩
    · rw [htimetable, hbody]
      exact hd.timetable
    · rw [hsignals, hbody]
      exact hd.signals
  · -- there are no signals of this body yet
    refine ⟨hheader, hbody ▸ hread.2.trans hle, .inr ?_, ?_, htimes, hstored⟩
    · rw [hinfo, hbody]
      rfl
    · rw [hinfo]
      exact FiniteMap.all_empty
  · refine ⟨hheader, hbody ▸ hd.body_le.trans hle, ?_, ?_, htimes, hstored⟩
    · rw [hinfo, hbody]
      exact hd.timetable
    · rw [hinfo, hbody]
      exact all_install _ hd.signals

theorem sound_new : (new h).Sound h where
  hierarchy hg := by rw [Nat.le_zero.1 hg]; rfl
  time _ ht := by cases ht

/-- The stored time stays that of the body. -/
theorem Sound.next (hd : d.Sound h) {a : DiskAction} (hkeeps : d.KeepsTime h a) :
    (d.next h a).Sound h where
  hierarchy {g} hg := by
    cases a with
    | rewrite =>
      rcases Nat.le_succ_iff.1 hg with hg | rfl
      · exact hd.hierarchy hg
      · exact (hd.hierarchy le_rfl).trans hkeeps.symm
    | _ => exact hd.hierarchy hg
  time {g'} hok ht := by
    rcases infoStep (h := h) d a with
      ⟨htimetable, -, htime, -, hbody⟩ | @⟨g, found, ha, hloader, hread, hinfo, hbody⟩ |
      ⟨-, -, hinfo, hbody⟩
    · obtain ⟨hok', htime⟩ := htime hok
      rw [htime] at ht
      rw [htimetable, hbody]
      exact hd.time hok' ht
    · refine ⟨?_, by rw [hinfo, hbody]; rfl⟩
      subst ha
      rw [hinfo] at ht
      rw [hbody]
      cases found with
      | true =>
        -- the time that was found is that of the file as it stands
        obtain rfl := h.mtime_injective (Option.some.inj ht)
        exact hkeeps hloader hread
      | false => exact hkeeps hloader hread g' ht
    · rw [hinfo] at hok ht
      rw [hinfo, hbody]
      exact hd.time hok ht

/-- Where the stored time is that of the body, `notModified` says the truth. -/
theorem Sound.notModifiedSound (hd : d.Sound h) (hbody : d.FromBody h) : d.NotModifiedSound h := by
  intro t _ hanswer
  have hunchanged : d.info.lastModificationTime = some t ∧ d.info.lastReloadOk = true := by
    by_contra hchanged
    simp [Handler.decide, hchanged] at hanswer
  obtain ⟨g, hg, rfl⟩ := hbody.stored hunchanged.1
  obtain ⟨hcontents, htimetable⟩ := hd.time hunchanged.2 hunchanged.1
  have hhierarchy := hd.hierarchy hg
  refine ⟨g, rfl, hhierarchy, ?_, ?_⟩
  · rw [htimetable, readBody, ← hcontents, hhierarchy]
  · rw [← hhierarchy, hcontents]
    exact hbody.signals

theorem fromBody_of_reachable {allowed : DiskServer H → DiskAction → Prop}
    (hd : Reachable (step h) allowed (new h) d) : d.FromBody h := by
  refine hd.invariant (I := fun d => d.FromBody h) fromBody_new ?_
  intro d a d' hd _ hstep
  obtain rfl := Except.ok.inj hstep
  exact hd.next a

/-- In every run in which rewrites keep the hierarchy and the stored times are those of the bodies,
`notModified` is answered only if the file is served as it stood at the time that was found. -/
theorem notModified_sound (hd : Reachable (step h) (KeepsTime h) (new h) d) :
    d.NotModifiedSound h := by
  have hsound : d.Sound h := by
    refine hd.invariant (I := fun d => d.Sound h) sound_new ?_
    intro d a d' hd ha hstep
    obtain rfl := Except.ok.inj hstep
    exact hd.next ha
  exact hsound.notModifiedSound (fromBody_of_reachable hd)

/-- The body is read, a client asks for the hierarchy, and then for a reload. -/
def readThenReload (rewrites : List DiskAction) : List DiskAction :=
  rewrites ++ [.bodyRead (some 0) true, .query .getHierarchy, .handle 0 true, .reload, .handle 1 true]

theorem notModified_sound_readThenReload :
    ((readThenReload []).foldl (next (growing 0)) (new (growing 0))).NotModifiedSound (growing 0) := by
  refine notModified_sound (reachable_of_allowedRun (fun _ _ => rfl) ?_)
  exact ⟨fun _ _ => rfl, trivial, trivial, trivial, trivial, trivial⟩

/-- The body of the first generation is read, and the modification time of the second one. -/
theorem not_forall_notModifiedSound :
    ¬ ∀ (H : Type) (h : FileHistory H) d, Reachable (step h) (fun _ _ => True) (new h) d →
      d.NotModifiedSound h := by
  intro hall
  have hreach : Reachable (step (growing 0)) (fun _ _ => True) (new (growing 0))
      ((readThenReload [.rewrite]).foldl (next (growing 0)) (new (growing 0))) :=
    reachable_of_allowedRun (fun _ _ => rfl) (allowedRun_true _ _ _)
  have hmem : Handler.decides 1 ∈
      ((readThenReload [.rewrite]).foldl (next (growing 0)) (new (growing 0))).server.handlers := by
    decide
  obtain ⟨g, hg, hserves⟩ := hall _ _ _ hreach 1 hmem (by decide)
  obtain rfl : g = 1 := hg
  have htimetable := hserves.timetable
  revert htimetable
  decide

end DiskServer

end Surver
