import Kahuna.Surver.NotModified
import Kahuna.Transition.Basic

/-!
# Answers from one generation

After a reload was accepted, the hierarchy, the time table and the signals are expected from one generation
of the file, which is not older than the one that the reload has seen. Until the next reload is accepted,
an observer collects the answers.

- `DiskServer.LoaderStep`: what an action does to the loader and to the generations that it has read.
- `DiskServer.Tracks`: what is known of the answers since the last reload was accepted.
- `oneGeneration`: they come from one generation, if rewrites keep the hierarchy, stored times are those of
  the bodies, and no time table and no signals are answered before a reload is over.
-/

namespace Surver

open Wave (SignalRef)
open Wellen (Signal)
open Transition

/-! ## The observer -/

/-- What a client is told about the file. -/
inductive Answer (H : Type) where
  | hierarchy (hierarchy : H)
  | timetable (table : List ℕ)
  | signals (signals : List Signal)

/-- An answer is that of a file. -/
def Answer.From {H : Type} (c : Contents H) : Answer H → Prop
  | .hierarchy x => x = c.hierarchy
  | .timetable table => table = (c.body c.hierarchy).timetable
  | .signals answers => ∀ s ∈ answers, s = (c.body c.hierarchy).signal s.signalRef

/-- What was noted since a reload was accepted. -/
structure Seen (H : Type) where
  /-- The modification time of the file when the reload was accepted, or the one that was found unchanged. -/
  accepted : Option ℕ
  answers : List (Answer H)

namespace DiskServer

variable {H : Type} (h : FileHistory H)

/-- The handler that answers, and its answer. -/
def response (d : DiskServer H) : DiskAction → Option (Handler × Response)
  | .handle i found =>
    match d.server.handlers[i]? with
    | none => none
    | some (.done _) => none
    | some handler =>
      match (handler.next (d.found h found) d.server.file).1 with
      | .done response => some (handler, response)
      | _ => none
  | _ => none

/-- The observer notes the answers, and starts anew when a reload is accepted. -/
def note (seen : Seen H) (d : DiskServer H) (a : DiskAction) (_ : DiskServer H) : Seen H :=
  match d.response h a with
  | some (_, .hierarchy) => { seen with answers := seen.answers ++ [.hierarchy d.hierarchy] }
  | some (_, .timetable table) => { seen with answers := seen.answers ++ [.timetable table] }
  | some (_, .signals signals) => { seen with answers := seen.answers ++ [.signals signals] }
  | some (.decides t, .accepted) => { accepted := some t, answers := [] }
  | some (_, .accepted) => { accepted := some (h.mtime d.generation), answers := [] }
  | _ => seen

/-- What was answered since the last reload was accepted comes from one generation, which is not older
than the one that the reload has seen. -/
def OneGeneration (seen : Seen H) : Prop :=
  ∀ t, seen.accepted = some t → ∃ g₀ g, h.mtime g₀ = t ∧ g₀ ≤ g ∧
    ∀ answer ∈ seen.answers, answer.From (h.contents g)

/-- No reload waits for the loader, and the loader is not about one and has not stopped. -/
def Settled (d : DiskServer H) : Prop :=
  LoaderMessage.reload ∉ d.server.file.queue ∧ d.server.file.loader ≠ .readsHeader ∧
    d.server.file.loader ≠ .readsBody ∧ d.server.file.loader ≠ .stopped

instance (d : DiskServer H) : Decidable d.Settled := inferInstanceAs (Decidable (_ ∧ _))

/-- A time table or signals are answered only when no reload is under way. -/
def AnswersSettled (d : DiskServer H) : DiskAction → Prop
  | .handle i _ => ∀ wait response, d.server.handlers[i]? = some (.waits wait .checks) →
    d.info.ready wait = some response → d.Settled
  | _ => True

/-- What has to hold of a step. -/
def KeepsGeneration (d : DiskServer H) (a : DiskAction) : Prop := d.KeepsTime h a ∧ d.AnswersSettled a

end DiskServer

/-! ## Answers -/

/-- How a handler comes to its answer. -/
inductive Handler.Answers (f f' : File) : Handler → Response → Prop
  | hierarchy : Answers f f' (.marks .getHierarchy) .hierarchy
  | nothing : Answers f f' (.marks (.getSignals [])) (.signals [])
  | ready {wait : Wait} {response : Response} (h : f.info.ready wait = some response) :
      Answers f f' (.waits wait .checks) response
  | unchanged {t : ℕ} (htime : f.info.lastModificationTime = some t)
      (hok : f.info.lastReloadOk = true) : Answers f f' (.decides t) .accepted
  | notModified {t : ℕ} : Answers f f' (.decides t) .notModified
  | accepted (h : f.send .reload = some f') : Answers f f' .sendsReload .accepted
  | error (handler : Handler) : Answers f f' handler .error
  | notFound : Answers f f' .readsMetadata .notFound

theorem Handler.answers {mtime : Option ℕ} {f : File} {handler : Handler} {response : Response}
    (hnext : (handler.next mtime f).1 = .done response) (hdone : ∀ r, handler ≠ .done r) :
    Answers f (handler.next mtime f).2 handler response := by
  cases handler with
  | marks query =>
    cases query with
    | getHierarchy =>
      cases hnext
      exact .hierarchy
    | getTimeTable => cases hnext
    | getSignals ids =>
      simp only [next, marked] at hnext
      split at hnext
      next hids =>
        subst hids
        cases hnext
        exact .nothing
      next => cases hnext
  | sends ids =>
    simp only [next] at hnext
    split at hnext
    next => cases hnext
    next =>
      cases hnext
      exact .error _
  | waits wait phase =>
    cases phase with
    | checks =>
      simp only [next] at hnext
      split at hnext
      next hready =>
        cases hnext
        exact .ready hready
      next => cases hnext
    | registers => cases hnext
    | asleep => cases hnext
  | readsMetadata =>
    simp only [next] at hnext
    split at hnext
    next => cases hnext
    next =>
      cases hnext
      exact .notFound
  | decides t =>
    simp only [next, Handler.decide] at hnext
    split at hnext
    next hunchanged =>
      split at hnext
      next =>
        cases hnext
        exact .notModified
      next =>
        cases hnext
        exact .unchanged hunchanged.1 hunchanged.2
    next => cases hnext
  | sendsReload =>
    simp only [next] at hnext ⊢
    split at hnext
    next f' hsend =>
      cases hnext
      exact .accepted hsend
    next =>
      cases hnext
      exact .error _
  | done r => exact (hdone r rfl).elim

theorem FileInfo.timetable_of_ready {info : FileInfo} {wait : Wait} {table : List ℕ}
    (hready : info.ready wait = some (.timetable table)) : table = info.timetable ∧ table ≠ [] := by
  cases wait with
  | timetable =>
    simp only [ready] at hready
    split at hready
    next => cases hready
    next hne =>
      cases hready
      exact ⟨rfl, by simpa using hne⟩
  | signals ids =>
    simp only [ready] at hready
    split at hready <;> cases hready

theorem FileInfo.ready_ne_accepted {info : FileInfo} {wait : Wait} :
    info.ready wait ≠ some .accepted := by
  cases wait with
  | timetable =>
    simp only [ready]
    split <;> simp
  | signals ids =>
    simp only [ready]
    split <;> simp

theorem FileInfo.signals_of_ready {info : FileInfo} {wait : Wait} {signals : List Signal}
    (hready : info.ready wait = some (.signals signals)) {signal : Signal} (hmem : signal ∈ signals) :
    ∃ id, info.signals.get id = some signal := by
  cases wait with
  | timetable =>
    simp only [ready] at hready
    split at hready <;> cases hready
  | signals ids =>
    simp only [ready] at hready
    split at hready
    next =>
      cases hready
      obtain ⟨id, -, hid⟩ := List.mem_filterMap.1 hmem
      exact ⟨id, hid⟩
    next => cases hready

namespace DiskServer

variable {H : Type} {h : FileHistory H} {d : DiskServer H} {a : DiskAction}

/-- Where an answer comes from. -/
theorem answers_of_response {handler : Handler} {response : Response}
    (hresponse : d.response h a = some (handler, response)) :
    ∃ i found, a = .handle i found ∧ d.server.handlers[i]? = some handler ∧
      (d.next h a).server.file = (handler.next (d.found h found) d.server.file).2 ∧
      Handler.Answers d.server.file (d.next h a).server.file handler response := by
  cases a with
  | handle i found =>
    simp only [DiskServer.response] at hresponse
    split at hresponse
    next => cases hresponse
    next => cases hresponse
    next handler' hdone hget =>
      split at hresponse
      next response' hnext =>
        cases hresponse
        have hfile := next_handle_file (h := h) hget found
        refine ⟨i, found, rfl, hget, hfile, ?_⟩
        rw [hfile]
        exact Handler.answers hnext hdone
      next => cases hresponse
  | _ => cases hresponse

/-- What an action does to the loader and to what it has read. -/
inductive LoaderStep (h : FileHistory H) (d : DiskServer H) (a : DiskAction) (d' : DiskServer H) : Prop
  | rests (hloader : d'.server.file.loader = d.server.file.loader) (hheader : d'.header = d.header)
      (hbody : d'.body = d.body) (hqueue : d.server.file.queue ⊆ d'.server.file.queue)
      (hreload : .reload ∈ d'.server.file.queue → .reload ∈ d.server.file.queue ∨
        d.response h a = some (.sendsReload, .accepted))
  | takesReload (hloader : d'.server.file.loader = .readsHeader)
      (hqueue : .reload ∈ d.server.file.queue)
  | serves (hloader : d.server.file.loader ≠ .readsHeader ∧ d.server.file.loader ≠ .readsBody ∧
        d.server.file.loader ≠ .stopped)
      (hloader' : d'.server.file.loader ≠ .readsHeader ∧ d'.server.file.loader ≠ .readsBody ∧
        d'.server.file.loader ≠ .stopped)
      (hbody : d'.body = d.body)
      (hreload : .reload ∈ d'.server.file.queue ↔ .reload ∈ d.server.file.queue)
  | readsHeader (hloader : d.server.file.loader = .readsHeader)
      (hloader' : d'.server.file.loader = .readsBody) (hheader : d'.header = d.generation)
      (hgeneration : d'.generation = d.generation)
  | readsBody {g : ℕ} (hloader : d.server.file.loader = .readsBody)
      (hloader' : d'.server.file.loader = .receives) (hread : d.CanRead g) (hbody : d'.body = g)
      (hqueue : d'.server.file.queue = d.server.file.queue)
  | stops (hloader : d.server.file.loader = .readsHeader ∨ d.server.file.loader = .readsBody)
      (hloader' : d'.server.file.loader = .stopped)

theorem loaderStep (d : DiskServer H) (a : DiskAction) : LoaderStep h d a (d.next h a) := by
  have hself {d' : DiskServer H} (hloader : d'.server.file.loader = d.server.file.loader)
      (hqueue : d'.server.file.queue = d.server.file.queue) (hheader : d'.header = d.header)
      (hbody : d'.body = d.body) : LoaderStep h d a d' :=
    .rests hloader hheader hbody (by rw [hqueue]; exact List.Subset.refl _) fun hmem => .inl (hqueue ▸ hmem)
  cases a with
  | rewrite | query _ | reload | disconnect _ => exact hself rfl rfl rfl rfl
  | handle i found =>
    cases hget : d.server.handlers[i]? with
    | none =>
      have hserver := next_handle_none (h := h) hget found
      exact hself (by rw [hserver]) (by rw [hserver]) rfl rfl
    | some handler =>
      have hframe := handler.next_frame (d.found h found) d.server.file
      have heffect := handler.next_effect (d.found h found) d.server.file
      have hfile := next_handle_file (h := h) hget found
      refine .rests (by rw [hfile, hframe.loader]) rfl rfl (by rw [hfile]; exact hframe.queue) ?_
      rw [hfile]
      intro hmem
      refine (heffect.reload hmem).imp_right ?_
      rintro ⟨rfl, haccepted⟩
      simp only [DiskServer.response, hget, haccepted]
  | receive =>
    have hserver : (d.next h .receive).server = d.server.receive := rfl
    simp only [FileServer.receive] at hserver
    split at hserver
    next ids queue hloader hqueue =>
      refine .serves ?_ ?_ rfl ?_
      · simp [hloader]
      · simp [hserver, FileServer.set]
      · simp [hserver, FileServer.set, hqueue]
    next queue hloader hqueue =>
      exact .takesReload (by rw [hserver]; rfl) (by simp [hqueue])
    next ids hloader =>
      split at hserver
      · refine .serves (by simp [hloader]) (by simp [hserver, FileServer.set]) rfl ?_
        simp [hserver, FileServer.set]
      · refine .serves (by simp [hloader]) (by simp [hserver, FileServer.set]) rfl ?_
        simp [hserver, FileServer.set]
    next => exact hself (by rw [hserver]) (by rw [hserver]) rfl rfl
  | headerRead ok =>
    by_cases hloader : d.server.file.loader = .readsHeader
    · cases ok with
      | false => exact .stops (.inl hloader) (by simp [next, action, FileServer.next, hloader,
          FileServer.set, File.stop])
      | true => exact .readsHeader hloader (by simp [next, action, FileServer.next, hloader,
          FileServer.set]) (by simp [next, hloader]) rfl
    · have hserver := @next_headerRead_of_ne _ h d ok hloader
      refine hself (by rw [hserver]) (by rw [hserver]) ?_ rfl
      cases ok <;> simp [next, hloader]
  | bodyRead body found =>
    by_cases hloader : d.server.file.loader = .readsBody
    · cases body with
      | none => exact .stops (.inr hloader) (by rw [next_bodyRead_none hloader]; rfl)
      | some g =>
        by_cases hread : d.CanRead g
        · have hserver := @next_bodyRead _ h d g found hread hloader
          exact .readsBody hloader (by rw [hserver]; rfl) hread (by simp [next, hread, hloader])
            (by rw [hserver]; rfl)
        · have hserver := @next_bodyRead_of_not_canRead _ h d g found hread
          exact hself (by rw [hserver]) (by rw [hserver]) rfl (by simp [next, hread])
    · have hserver := @next_bodyRead_of_ne _ h d body found hloader
      refine hself (by rw [hserver]) (by rw [hserver]) rfl ?_
      cases body <;> simp [next, hloader]
  | signalsRead =>
    by_cases hloader : ∃ ids, d.server.file.loader = .readsSignals ids
    · obtain ⟨ids, hloader⟩ := hloader
      have hserver := next_signalsRead (h := h) hloader
      refine .serves (by simp [hloader]) ?_ rfl ?_
      · simp [hserver, FileServer.notify]
      · simp [hserver, FileServer.notify]
    · have hserver := next_signalsRead_of_ne (h := h) fun ids hids => hloader ⟨ids, hids⟩
      exact hself (by rw [hserver]) (by rw [hserver]) rfl rfl

/-! ## The generation of the answers -/

/-- The loader will read, has read or is reading a generation that is not older than a given one, unless it
has stopped. -/
def Awaited (h : FileHistory H) (d : DiskServer H) (g₀ : ℕ) : Prop :=
  .reload ∈ d.server.file.queue ∨ d.server.file.loader = .readsHeader ∨
    d.server.file.loader = .readsBody ∧ g₀ ≤ d.header ∨ d.server.file.loader = .stopped ∨
    d.server.file.loader ≠ .readsBody ∧ ∃ g ≤ d.generation, g₀ ≤ g ∧ h.contents g = h.contents d.body

theorem Awaited.next {g₀ : ℕ} (hd : Awaited h d g₀) (hg₀ : g₀ ≤ d.generation) (a : DiskAction) :
    Awaited h (d.next h a) g₀ := by
  have hle := generation_le_next (h := h) d a
  rcases loaderStep (h := h) d a with
    ⟨hloader, hheader, hbody, hqueue, -⟩ | ⟨hloader, -⟩ | ⟨hloader, hloader', hbody, hreload⟩ |
    ⟨-, hloader', hheader, -⟩ | ⟨hloader, hloader', hread, hbody, hqueue⟩ | ⟨-, hloader'⟩
  · simp only [Awaited, hloader, hheader, hbody]
    rcases hd with hd | hd | hd | hd | ⟨hne, g, hg, hd⟩
    · exact .inl (hqueue hd)
    · exact .inr (.inl hd)
    · exact .inr (.inr (.inl hd))
    · exact .inr (.inr (.inr (.inl hd)))
    · exact .inr (.inr (.inr (.inr ⟨hne, g, hg.trans hle, hd⟩)))
  · exact .inr (.inl hloader)
  · rcases hd with hd | hd | hd | hd | ⟨-, g, hg, hd⟩
    · exact .inl (hreload.2 hd)
    · exact (hloader.1 hd).elim
    · exact (hloader.2.1 hd.1).elim
    · exact (hloader.2.2 hd).elim
    · exact .inr (.inr (.inr (.inr ⟨hloader'.2.1, g, hg.trans hle, hbody.symm ▸ hd⟩)))
  · -- the header that is read is that of the file as it stands
    exact .inr (.inr (.inl ⟨hloader', hheader ▸ hg₀⟩))
  · rcases hd with hd | hd | hd | hd | ⟨hne, -⟩
    · exact .inl (hqueue ▸ hd)
    · rw [hloader] at hd
      cases hd
    · refine .inr (.inr (.inr (.inr ⟨by simp [hloader'], _, hread.2.trans hle, ?_, by rw [hbody]⟩)))
      exact hd.2.trans hread.1
    · rw [hloader] at hd
      cases hd
    · exact (hne hloader).elim
  · exact .inr (.inr (.inr (.inl hloader')))

/-- When no reload is under way, the body is not older. -/
theorem Awaited.exists_of_settled {g₀ : ℕ} (hd : Awaited h d g₀) (hsettled : d.Settled) :
    ∃ g ≤ d.generation, g₀ ≤ g ∧ h.contents g = h.contents d.body := by
  obtain ⟨hqueue, hheader, hbody, hstopped⟩ := hsettled
  rcases hd with hd | hd | hd | hd | ⟨-, hd⟩
  · exact (hqueue hd).elim
  · exact (hheader hd).elim
  · exact (hbody hd.1).elim
  · exact (hstopped hd).elim
  · exact hd

/-- It stays so until a reload is accepted, and the body stays as it is. -/
theorem Settled.next (hd : d.Settled) (ha : d.response h a ≠ some (.sendsReload, .accepted)) :
    (d.next h a).Settled ∧ (d.next h a).body = d.body := by
  obtain ⟨hqueue, hheader, hbody, hstopped⟩ := hd
  rcases loaderStep (h := h) d a with
    ⟨hloader, -, hbody', -, hreload⟩ | ⟨-, hmem⟩ | ⟨-, hloader', hbody', hreload⟩ |
    ⟨hloader, -⟩ | ⟨hloader, -⟩ | ⟨hloader | hloader, -⟩
  · refine ⟨⟨fun hmem => ?_, ?_⟩, hbody'⟩
    · rcases hreload hmem with hmem | haccepted
      · exact hqueue hmem
      · exact ha haccepted
    · rw [hloader]
      exact ⟨hheader, hbody, hstopped⟩
  · exact (hqueue hmem).elim
  · exact ⟨⟨fun hmem => hqueue (hreload.1 hmem), hloader'⟩, hbody'⟩
  · exact (hheader hloader).elim
  · exact (hbody hloader).elim
  · exact (hheader hloader).elim
  · exact (hbody hloader).elim

/-- While the loader reads a body, the stored time is not newer than the header. -/
def FoundBefore (h : FileHistory H) (d : DiskServer H) : Prop :=
  d.server.file.loader = .readsBody → d.info.lastReloadOk = true →
    ∀ t, d.info.lastModificationTime = some t → ∃ g ≤ d.header, h.mtime g = t

theorem FoundBefore.next (hd : FoundBefore h d) (hbody : d.FromBody h) (a : DiskAction) :
    FoundBefore h (d.next h a) := by
  intro hreads hok t ht
  rcases loaderStep (h := h) d a with
    ⟨hloader, hheader, -⟩ | ⟨hloader, -⟩ | ⟨-, hloader, -⟩ | ⟨-, -, hheader, hgeneration⟩ |
    ⟨-, hloader, -⟩ | ⟨-, hloader⟩
  · rw [hloader] at hreads
    rw [hheader]
    rcases infoStep (h := h) d a with
      ⟨-, -, htime, -⟩ | ⟨rfl, -, hread, -⟩ | ⟨-, hsignals, -⟩
    · obtain ⟨hok', htime⟩ := htime hok
      exact hd hreads hok' t (htime ▸ ht)
    · -- the body was read, so that the loader is not about it any more
      rw [next_bodyRead hread hreads, hreads] at hloader
      cases hloader
    · rw [hsignals] at hreads
      cases hreads
  · rw [hloader] at hreads
    cases hreads
  · exact (hloader.2.1 hreads).elim
  · -- all times that were stored are those of older generations
    obtain ⟨g, hg, rfl⟩ := (hbody.next a).stored ht
    exact ⟨g, by omega, rfl⟩
  · rw [hloader] at hreads
    cases hreads
  · rw [hloader] at hreads
    cases hreads

/-- What is known of the answers since the last reload was accepted. Those about the time table and the
signals come from the body that is served, and then no reload is under way. -/
def Tracks (h : FileHistory H) (d : DiskServer H) (seen : Seen H) : Prop :=
  ∀ t, seen.accepted = some t → ∃ g₀ ≤ d.generation, h.mtime g₀ = t ∧ Awaited h d g₀ ∧
    ∀ answer ∈ seen.answers, answer = .hierarchy d.hierarchy ∨ answer = .signals [] ∨
      d.Settled ∧ ∀ g, h.contents g = h.contents d.body → (h.contents g).hierarchy = d.hierarchy →
        answer.From (h.contents g)

/-- So they come from one generation. -/
theorem Tracks.sameGeneration {seen : Seen H} (ht : Tracks h d seen) (hsound : d.Sound h) :
    OneGeneration h seen := by
  intro t haccepted
  obtain ⟨g₀, hg₀, rfl, hawaited, hanswers⟩ := ht t haccepted
  by_cases hsettled : d.Settled
  · obtain ⟨g, hg, hle, hcontents⟩ := hawaited.exists_of_settled hsettled
    refine ⟨g₀, g, rfl, hle, fun answer hanswer => ?_⟩
    have hhierarchy := hsound.hierarchy hg
    rcases hanswers answer hanswer with rfl | rfl | ⟨-, hfrom⟩
    · exact hhierarchy
    · exact fun s hs => absurd hs List.not_mem_nil
    · exact hfrom g hcontents hhierarchy.symm
  · -- only the hierarchy was answered
    refine ⟨g₀, g₀, rfl, le_rfl, fun answer hanswer => ?_⟩
    rcases hanswers answer hanswer with rfl | rfl | ⟨hd, -⟩
    · exact hsound.hierarchy hg₀
    · exact fun s hs => absurd hs List.not_mem_nil
    · exact (hsettled hd).elim

/-- A step in which no reload is accepted. -/
theorem Tracks.keep {seen : Seen H} (ht : Tracks h d seen)
    (ha : d.response h a ≠ some (.sendsReload, .accepted)) : Tracks h (d.next h a) seen := by
  intro t haccepted
  obtain ⟨g₀, hg₀, rfl, hawaited, hanswers⟩ := ht t haccepted
  refine ⟨g₀, hg₀.trans (generation_le_next d a), rfl, hawaited.next hg₀ a, fun answer hanswer => ?_⟩
  rcases hanswers answer hanswer with rfl | rfl | ⟨hsettled, hfrom⟩
  · exact .inl rfl
  · exact .inr (.inl rfl)
  · obtain ⟨hsettled', hbody⟩ := hsettled.next ha
    exact .inr (.inr ⟨hsettled', hbody.symm ▸ hfrom⟩)

/-- One more answer. -/
theorem Tracks.append {seen : Seen H} (ht : Tracks h d seen) {answer : Answer H}
    (hanswer : answer = .hierarchy d.hierarchy ∨ answer = .signals [] ∨
      d.Settled ∧ ∀ g, h.contents g = h.contents d.body → (h.contents g).hierarchy = d.hierarchy →
        answer.From (h.contents g)) :
    Tracks h d { seen with answers := seen.answers ++ [answer] } := by
  intro t haccepted
  obtain ⟨g₀, hg₀, rfl, hawaited, hanswers⟩ := ht t haccepted
  refine ⟨g₀, hg₀, rfl, hawaited, fun answer' hmem => ?_⟩
  rcases List.mem_append.1 hmem with hmem | hmem
  · exact hanswers answer' hmem
  · rw [List.mem_singleton.1 hmem]
    exact hanswer

theorem Tracks.next {seen : Seen H} (ht : Tracks h d seen) (hbody : d.FromBody h)
    (hsound : d.Sound h) (hbefore : FoundBefore h d) (ha : d.AnswersSettled a) :
    Tracks h (d.next h a) (note h seen d a (d.next h a)) := by
  simp only [note]
  split
  next handler hresponse =>
    exact (ht.append (.inl rfl)).keep (by rw [hresponse]; simp)
  next handler table hresponse =>
    refine (ht.append (.inr (.inr ?_))).keep (by rw [hresponse]; simp)
    obtain ⟨i, found, rfl, hget, -, hanswers⟩ := answers_of_response hresponse
    cases hanswers with
    | ready hready =>
      refine ⟨ha _ _ hget hready, fun g hcontents hhierarchy => ?_⟩
      obtain ⟨rfl, hne⟩ := FileInfo.timetable_of_ready hready
      rw [Answer.From, hhierarchy, hcontents]
      exact hbody.timetable.resolve_left hne
  next handler signals hresponse =>
    refine (ht.append (.inr ?_)).keep (by rw [hresponse]; simp)
    obtain ⟨i, found, rfl, hget, -, hanswers⟩ := answers_of_response hresponse
    cases hanswers with
    | nothing => exact .inl rfl
    | ready hready =>
      refine .inr ⟨ha _ _ hget hready, fun g hcontents hhierarchy s hs => ?_⟩
      rw [hhierarchy, hcontents]
      obtain ⟨id, hid⟩ := FileInfo.signals_of_ready hready hs
      -- the signal has the number that it is kept under
      have hsignal := hbody.signals id s hid
      rw [hsignal, (d.readBody h d.body).signalRef_signal id]
      rfl
  next t hresponse =>
    intro t' haccepted
    obtain rfl := Option.some.inj haccepted
    obtain ⟨i, found, rfl, hget, -, hanswers⟩ := answers_of_response hresponse
    cases hanswers with
    | unchanged htime hok =>
      obtain ⟨g, hg, rfl⟩ := hbody.stored htime
      have hawaited : Awaited h d g := by
        by_cases hloader : d.server.file.loader = .readsBody
        · obtain ⟨g', hg', heq⟩ := hbefore hloader hok _ htime
          exact .inr (.inr (.inl ⟨hloader, h.mtime_injective heq ▸ hg'⟩))
        · exact .inr (.inr (.inr (.inr ⟨hloader, g, hg, le_rfl, (hsound.time hok htime).1⟩)))
      exact ⟨g, hg.trans (generation_le_next d _), rfl, hawaited.next hg _,
        fun _ hmem => absurd hmem List.not_mem_nil⟩
  next handler hdecides hresponse =>
    intro t' haccepted
    obtain rfl := Option.some.inj haccepted
    obtain ⟨i, found, rfl, hget, -, hanswers⟩ := answers_of_response hresponse
    cases hanswers with
    | ready hready => exact (FileInfo.ready_ne_accepted hready).elim
    | unchanged _ _ => exact (hdecides _ rfl).elim
    | accepted hsend =>
      -- the request for the reload waits for the loader now
      have hqueue := (File.send_effect hsend).2
      refine ⟨d.generation, generation_le_next d _, rfl, .inl ?_,
        fun _ hmem => absurd hmem List.not_mem_nil⟩
      rw [hqueue]
      exact List.mem_append_right _ (List.mem_singleton_self _)
  next haccepted => exact ht.keep fun hresponse => haccepted _ hresponse

theorem tracks_new : Tracks h (new h) { accepted := none, answers := [] } := by
  intro t haccepted
  cases haccepted

theorem foundBefore_new : FoundBefore h (new h) := by
  intro _ _ t ht
  cases ht

/-- In every run in which rewrites keep the hierarchy, the stored times are those of the bodies and a time
table or signals are answered only when no reload is under way, what is answered after a reload was
accepted comes from one generation, which is not older than the one that the reload has seen. -/
theorem oneGeneration {s : DiskServer H × Seen H}
    (hs : Reachable (observed (step h) (note h)) (fun s a => s.1.KeepsGeneration h a)
      (new h, { accepted := none, answers := [] }) s) : OneGeneration h s.2 := by
  have hinv : (s.1.FromBody h ∧ FoundBefore h s.1) ∧ s.1.Sound h ∧ Tracks h s.1 s.2 := by
    refine hs.invariant_observed (I := fun d => d.FromBody h ∧ FoundBefore h d)
      (J := fun d seen => d.Sound h ∧ Tracks h d seen) ⟨fromBody_new, foundBefore_new⟩ ?_
      ⟨sound_new, tracks_new⟩ ?_
    · rintro d a d' ⟨hbody, hbefore⟩ hstep
      obtain rfl := Except.ok.inj hstep
      exact ⟨hbody.next a, hbefore.next hbody a⟩
    · rintro d seen a d' ⟨hbody, hbefore⟩ ⟨hsound, ht⟩ ⟨hkeeps, hanswers⟩ hstep
      obtain rfl := Except.ok.inj hstep
      exact ⟨hsound.next hkeeps, ht.next hbody hsound hbefore hanswers⟩
  exact hinv.2.2.sameGeneration hinv.2.1

/-- The file is rewritten and loaded again, and a client asks for the hierarchy and the time table. -/
def reloadThenAsk : List DiskAction :=
  [.bodyRead (some 0) true, .rewrite, .reload, .handle 0 true, .handle 0 true, .handle 0 true, .receive,
    .headerRead true, .bodyRead (some 1) true, .query .getHierarchy, .handle 1 true, .query .getTimeTable,
    .handle 2 true, .handle 2 true]

/-- The server and what was noted after an action. -/
def observedNext (h : FileHistory H) (s : DiskServer H × Seen H) (a : DiskAction) :
    DiskServer H × Seen H := (s.1.next h a, note h s.2 s.1 a (s.1.next h a))

/-- What is noted of the reload and the answers. -/
def seenOf (h : FileHistory H) (actions : List DiskAction) : DiskServer H × Seen H :=
  actions.foldl (observedNext h) (new h, { accepted := none, answers := [] })

theorem oneGeneration_reloadThenAsk :
    (seenOf (growing 0) reloadThenAsk).2.accepted = some 1 ∧
      (seenOf (growing 0) reloadThenAsk).2.answers.length = 2 ∧
      OneGeneration (growing 0) (seenOf (growing 0) reloadThenAsk).2 := by
  have hrun : AllowedRun (observedNext (growing 0)) (fun s a => s.1.KeepsGeneration (growing 0) a)
      (new (growing 0), { accepted := none, answers := [] }) reloadThenAsk := by
    refine ⟨⟨fun _ _ => rfl, trivial⟩, ⟨rfl, trivial⟩, ⟨trivial, trivial⟩, ?_, ?_, ?_,
      ⟨trivial, trivial⟩, ⟨trivial, trivial⟩, ⟨fun _ _ => rfl, trivial⟩, ⟨trivial, trivial⟩, ?_,
      ⟨trivial, trivial⟩, ?_, ?_, trivial⟩
    -- a handler goes on only when no reload is under way
    all_goals exact ⟨trivial, fun _ _ _ _ => by decide⟩
  exact ⟨rfl, rfl, oneGeneration (reachable_of_allowedRun (fun _ _ => rfl) hrun)⟩

/-- The hierarchy of the first generation is answered with the time table of the second one. -/
theorem not_forall_oneGeneration :
    ¬ ∀ (H : Type) (h : FileHistory H) s, Reachable (observed (step h) (note h)) (fun _ _ => True)
      (new h, { accepted := none, answers := [] }) s → OneGeneration h s.2 := by
  intro hall
  have hreach : Reachable (observed (step (growing id)) (note (growing id))) (fun _ _ => True)
      (new (growing id), { accepted := none, answers := [] }) (seenOf (growing id) reloadThenAsk) :=
    reachable_of_allowedRun (fun _ _ => rfl) (allowedRun_true _ _ _)
  obtain ⟨g₀, g, -, -, hanswers⟩ := hall _ _ _ hreach 1 rfl
  have hhierarchy : 0 = g := hanswers (.hierarchy 0) List.mem_cons_self
  have htimetable : [2] = [g + 1] :=
    hanswers (.timetable [2]) (List.mem_cons_of_mem _ List.mem_cons_self)
  simp [← hhierarchy] at htimetable

end DiskServer

end Surver
