import Kahuna.Cxxrtl.Connection

/-!
# The times that the client knows

The client knows the time of the simulation from the status that it caches, which the server reports. A
query asks for the values up to that time, and its answer fills the query result with it. Whatever may
change the values invalidates the query result.

An answer does not tell the query that it answers from one sent after it, so that the query result can be
filled by a query that an invalidation has overtaken. When the simulation goes on, the status says that the
time is zero until the server reports the next one.

- `filled_is_fresh`: a query result that is filled has the time that was reported last, and nothing was
  invalidated since its query was sent, if neither of the two happens.
- `maxTimestamp_monotone`: the times that are read never decrease, if none is read while the status says
  zero after another time was read.
-/

namespace Cxxrtl

open Connection CxxrtlContainer Transition

/-! ## What a message does to the status and the query result -/

/-- The status that the server reports with a message. -/
def Taken.status : Taken → Option CxxrtlSimulationStatus
  | .event e => some e.status
  | .reply .getSimulationStatus (.ok (.getSimulationStatus status)) => some status
  | .reply .pauseSimulation (.ok (.pauseSimulation time)) => some { status := .paused, latestTime := time }
  | _ => none

/-- The samples of a message are those that a query has asked for. -/
def Taken.fills : Taken → Option CxxrtlTimestamp
  | .reply (.queryInterval maxTimestamp _ _) (.ok (.queryInterval _)) => some maxTimestamp
  | _ => none

/-- The items held by the server have changed. -/
def Taken.updates : Taken → Bool
  | .reply .referenceItems (.ok _) => true
  | _ => false

/-- The simulation goes on. -/
def Taken.resumes : Taken → Bool
  | .reply .runSimulation (.ok _) => true
  | _ => false

/-- What an answer does to the status and to the query result. -/
inductive Callback.Took (t : Taken) (data data' : CxxrtlData) : Prop
  | status {status : CxxrtlSimulationStatus} : t.status = some status → t.fills = none →
      t.updates = false → data' = data.onSimulationStatusUpdate status → Took t data data'
  | updates : t.status = none → t.fills = none → t.updates = true →
      data' = data.invalidateQueryResult → Took t data data'
  | fills {time : CxxrtlTimestamp} : t.status = none → t.fills = some time → t.updates = false →
      data'.queryResult = .filled time → data'.simulationStatus = data.simulationStatus → Took t data data'
  | resumes : t.status = none → t.fills = none → t.updates = false → data'.queryResult = data.queryResult →
      data'.simulationStatus = .filled { status := .running, latestTime := .zero } → Took t data data'
  | other : t.status = none → t.fills = none → t.updates = false → data'.queryResult = data.queryResult →
      data'.simulationStatus = data.simulationStatus → Took t data data'

theorem Callback.took (cb : Callback) (reply : Except String CommandResponse) (data : CxxrtlData) :
    Took (.reply cb reply) data (cb.take reply data) := by
  match cb, reply with
  | .referenceItems, .ok _ => exact .updates rfl rfl rfl rfl
  | .runSimulation, .ok _ => exact .resumes rfl rfl rfl rfl rfl
  | .getSimulationStatus, .ok response =>
    match response with
    | .getSimulationStatus _ => exact .status rfl rfl rfl rfl
    | .listScopes _ | .listItems _ | .queryInterval _ | .referenceItems | .runSimulation
    | .pauseSimulation _ => exact .other rfl rfl rfl rfl rfl
  | .pauseSimulation, .ok response =>
    match response with
    | .pauseSimulation _ => exact .status rfl rfl rfl rfl
    | .listScopes _ | .listItems _ | .queryInterval _ | .referenceItems | .runSimulation
    | .getSimulationStatus _ => exact .other rfl rfl rfl rfl rfl
  | .queryInterval _ _ _, .ok response =>
    match response with
    | .queryInterval _ => exact .fills rfl rfl rfl rfl rfl
    | .listScopes _ | .listItems _ | .pauseSimulation _ | .referenceItems | .runSimulation
    | .getSimulationStatus _ => exact .other rfl rfl rfl rfl rfl
  | .listScopes, .ok response | .listItems, .ok response | .listItemsIn _, .ok response =>
    match response with
    | .queryInterval _ | .listScopes _ | .listItems _ | .pauseSimulation _ | .referenceItems
    | .runSimulation | .getSimulationStatus _ => exact .other rfl rfl rfl rfl rfl
  | .referenceItems, .error _ | .runSimulation, .error _ | .getSimulationStatus, .error _
  | .pauseSimulation, .error _ | .queryInterval _ _ _, .error _ | .listScopes, .error _
  | .listItems, .error _ | .listItemsIn _, .error _ => exact .other rfl rfl rfl rfl rfl

/-- Only the callback of a query takes samples. -/
theorem Taken.exists_of_fills {cb : Callback} {reply : Except String CommandResponse} {time : CxxrtlTimestamp}
    (h : fills (.reply cb reply) = some time) :
    ∃ loadedSignals info, cb = .queryInterval time loadedSignals info := by
  unfold fills at h
  split at h
  next heq =>
    obtain ⟨rfl, -⟩ := Taken.reply.inj heq
    obtain rfl := Option.some.inj h
    exact ⟨_, _, rfl⟩
  next => cases h

/-- What a command does to the status and to the query result: only a query makes the query result wait. -/
theorem CxxrtlContainer.Send.query_cases {c c' : CxxrtlContainer} {cb : Callback} (h : Send c cb c') :
    c'.sending.callbackQueue = c.sending.callbackQueue ++ [cb] ∧
      c'.data.simulationStatus.get = c.data.simulationStatus.get ∧
      ((∃ status info prev, cb = .queryInterval status.latestTime c.data.loadedSignals info ∧
          c.data.simulationStatus.get = some status ∧ c'.data.queryResult = .waiting prev) ∨
        (∀ time loadedSignals info, cb ≠ .queryInterval time loadedSignals info) ∧
          c'.data.queryResult = c.data.queryResult) := by
  match h with
  | .listScopes _ | .listItems _ | .listItemsIn _ _ | .runSimulation _ | .pauseSimulation =>
    exact ⟨rfl, rfl, .inr ⟨by simp, rfl⟩⟩
  | .getSimulationStatus hstatus => exact ⟨rfl, by rw [hstatus]; rfl, .inr ⟨by simp, rfl⟩⟩
  | .queryInterval _ hstatus _ => exact ⟨rfl, rfl, .inl ⟨_, _, _, rfl, hstatus, rfl⟩⟩
  | .referenceItems vars =>
    obtain ⟨loadedSignals, signalIndexMap, heq⟩ := exists_foldl_addSignal vars c.data
    refine ⟨rfl, ?_, .inr ⟨by simp, ?_⟩⟩
    · show (vars.foldl addSignal c.data).simulationStatus.get = _
      rw [heq]
    · show (vars.foldl addSignal c.data).queryResult = _
      rw [heq]

/-! ## Queries and invalidations -/

/-- What an observer of the client notes. -/
structure Watch where
  /-- The time that was reported last. -/
  latest : Option CxxrtlTimestamp
  /-- The number of times that the values may have changed. -/
  invalidations : ℕ
  /-- For each command without an answer, the number of invalidations when it was sent. -/
  issued : List ℕ
  /-- The number of invalidations when the query was sent that has filled the query result. -/
  filledAt : ℕ

namespace Watch

/-- Nothing has happened yet. -/
def new : Watch := { latest := none, invalidations := 0, issued := [], filledAt := 0 }

/-- What the observer notes of a message. -/
def take (w : Watch) (t : Taken) : Watch where
  latest := (t.status.map CxxrtlSimulationStatus.latestTime).or w.latest
  invalidations := if t.status.isSome || t.updates then w.invalidations + 1 else w.invalidations
  issued := match t with
    | .reply _ _ => w.issued.tail
    | _ => w.issued
  filledAt := match t.fills with
    | some _ => w.issued.head?.getD 0
    | none => w.filledAt

/-- What the observer notes of commands that are sent. -/
def sent (w : Watch) (n : ℕ) : Watch := { w with issued := w.issued ++ List.replicate n w.invalidations }

/-- What the observer notes of a step. -/
def note (w : Watch) (s : Connection) (a : Action) (s' : Connection) : Watch :=
  match a with
  | .call _ => w.sent (s'.callbacks.length - s.callbacks.length)
  | .receive => w.take s.container.taken
  | _ => w

/-- The time of a query, and the invalidations before it was sent. -/
def query? : Callback × ℕ → Option (CxxrtlTimestamp × ℕ)
  | (.queryInterval maxTimestamp _ _, n) => some (maxTimestamp, n)
  | _ => none

/-- The query that was sent last, among those without an answer. -/
def lastQuery (c : CxxrtlContainer) (w : Watch) : Option (CxxrtlTimestamp × ℕ) :=
  ((c.sending.callbackQueue.zip w.issued).filterMap query?).getLast?

/-- A query result that is filled is up to date, and one that waits will be, if it is filled by the query
that was sent last. -/
structure Fresh (c : CxxrtlContainer) (w : Watch) : Prop where
  issued : w.issued.length = c.sending.callbackQueue.length
  waiting : c.data.queryResult.isWaiting → ∀ q ∈ lastQuery c w,
    w.latest = some q.1 ∧ q.2 = w.invalidations
  filled : ∀ t, c.data.queryResult = .filled t → w.latest = some t ∧ w.filledAt = w.invalidations

namespace Fresh

variable {c c' : CxxrtlContainer} {w : Watch}

theorem new : Fresh .new .new := ⟨rfl, by simp [CxxrtlContainer.new, CxxrtlData.new, CachedData.empty,
  CachedData.isWaiting], by simp [CxxrtlContainer.new, CxxrtlData.new, CachedData.empty]⟩

theorem send {cb : Callback} (h : Fresh c w) (hsend : Send c cb c')
    (htime : ∀ time loadedSignals info, cb = .queryInterval time loadedSignals info → w.latest = some time) :
    Fresh c' (w.sent 1) := by
  obtain ⟨hqueue, -, hcases⟩ := hsend.query_cases
  have hissued : (w.sent 1).issued = w.issued ++ [w.invalidations] := rfl
  have hzip : c'.sending.callbackQueue.zip (w.sent 1).issued =
      c.sending.callbackQueue.zip w.issued ++ [(cb, w.invalidations)] := by
    rw [hqueue, hissued, List.zip_append h.issued.symm]
    rfl
  refine ⟨?_, ?_, ?_⟩
  · rw [hqueue, hissued, List.length_append, List.length_append, h.issued]
    rfl
  · intro hwaiting q hq
    rw [Option.mem_def, lastQuery, hzip, List.filterMap_append] at hq
    rcases hcases with ⟨status, info, prev, rfl, -, -⟩ | ⟨hcb, hkept⟩
    · -- the query that makes the result wait is the last one
      obtain rfl : (status.latestTime, w.invalidations) = q := by simpa [query?] using hq
      exact ⟨htime _ _ _ rfl, rfl⟩
    · have hnone : query? (cb, w.invalidations) = none := by
        unfold query?
        split
        next heq => exact absurd (congrArg Prod.fst heq) (hcb _ _ _)
        next => rfl
      have hsingle : [(cb, w.invalidations)].filterMap query? = [] := by simp [hnone]
      rw [hsingle, List.append_nil] at hq
      exact h.waiting (hkept ▸ hwaiting) q hq
  · intro t ht
    rcases hcases with ⟨status, info, prev, -, -, hwaiting⟩ | ⟨-, hkept⟩
    · exact absurd (hwaiting.symm.trans ht) (by simp)
    · exact h.filled t (hkept ▸ ht)

theorem sent_succ (w : Watch) (n : ℕ) : w.sent (n + 1) = (w.sent n).sent 1 := by
  rw [sent, sent, sent, List.replicate_succ', List.append_assoc]
  rfl

theorem call (h : Fresh c w) (call : Call)
    (htime : ∀ var time, call = .queryVariable var time →
      ∀ status, c.data.simulationStatus.get = some status → w.latest = some status.latestTime) :
    Fresh (call.apply c)
      (w.sent ((call.apply c).sending.callbackQueue.length - c.sending.callbackQueue.length)) := by
  have hkeep := call.keeps (c := c)
    (I := fun c' => ∃ n, c'.sending.callbackQueue.length = c.sending.callbackQueue.length + n ∧
      c'.data.simulationStatus.get = c.data.simulationStatus.get ∧ Fresh c' (w.sent n)) ?_ ?_
  · obtain ⟨n, hlen, -, hfresh⟩ := hkeep
    rw [hlen, Nat.add_sub_cancel_left]
    exact hfresh
  · exact ⟨0, rfl, rfl, by simpa [sent] using h⟩
  · rintro c₁ cb c₂ ⟨n, hlen, hstatus, hfresh⟩ hmay hsend
    obtain ⟨hqueue, hkept, hcases⟩ := hsend.query_cases
    refine ⟨n + 1, ?_, hkept.trans hstatus, ?_⟩
    · rw [hqueue, List.length_append, hlen]
      rfl
    · rw [sent_succ]
      refine hfresh.send hsend fun time loadedSignals info hcb => ?_
      rcases hcases with ⟨status, _, _, hquery, hget, -⟩ | ⟨hnot, -⟩
      · rw [hcb] at hquery hmay
        obtain ⟨var, t, rfl⟩ := hmay
        obtain ⟨rfl, -, -⟩ := Callback.queryInterval.inj hquery
        exact htime var t rfl status (hstatus ▸ hget)
      · exact absurd hcb (hnot _ _ _)

theorem getLast?_filterMap_cons {α β : Type} {f : α → Option β} {a : α} {l : List α} {b : β}
    (h : (l.filterMap f).getLast? = some b) : ((a :: l).filterMap f).getLast? = some b := by
  rw [List.filterMap_cons]
  split
  · exact h
  · rw [List.getLast?_cons, h]
    rfl

/-- A status or new items leave nothing that is filled or waits. -/
theorem of_makeUncached {prev : CachedData CxxrtlTimestamp}
    (hlen : w.issued.length = c.sending.callbackQueue.length)
    (h : c.data.queryResult = prev.makeUncached) : Fresh c w := by
  refine ⟨hlen, fun hwaiting => ?_, fun t ht => ?_⟩
  · simp [h] at hwaiting
  · match prev with
    | .uncached _ | .waiting _ | .filled _ => exact absurd (h.symm.trans ht) (by simp [CachedData.makeUncached])

/-- Only the query result and the callbacks matter. -/
theorem congr (h : Fresh c w) (hdata : c'.data = c.data)
    (hqueue : c'.sending.callbackQueue = c.sending.callbackQueue) : Fresh c' w := by
  refine ⟨by rw [h.issued, hqueue], ?_, ?_⟩
  · rw [hdata, lastQuery, hqueue]
    exact h.waiting
  · rw [hdata]
    exact h.filled

theorem receive (h : Fresh c w)
    (hfills : ∀ time, c.taken.fills = some time → c.data.queryResult.isWaiting ∧
      ∀ cb ∈ c.sending.callbackQueue.tail, ∀ n, query? (cb, n) = none) :
    Fresh c.receive (w.take c.taken) := by
  have hreceives := c.receives
  generalize c.taken = taken at hreceives hfills
  generalize c.receive = c' at hreceives
  cases hreceives with
  | nothing _ => exact ⟨h.issued, h.waiting, h.filled⟩
  | event _ => exact of_makeUncached h.issued rfl
  | @reply msg rest reply cb queue hmsgs hreply hqueue =>
    obtain ⟨n, issued, hissued⟩ : ∃ n issued, w.issued = n :: issued := by
      refine List.exists_cons_of_length_pos ?_
      rw [h.issued, hqueue]
      exact Nat.succ_pos _
    have hlen : issued.length = queue.length := by
      have hboth := h.issued
      rw [hissued, hqueue] at hboth
      exact Nat.succ.inj hboth
    have hzip : c.sending.callbackQueue.zip w.issued = (cb, n) :: queue.zip issued := by
      rw [hqueue, hissued]
      rfl
    have htail : (w.take (.reply cb reply)).issued.length = queue.length := by
      show w.issued.tail.length = _
      rw [hissued]
      exact hlen
    have hkept (hstatus : (Taken.reply cb reply).status = none) (hfill : (Taken.reply cb reply).fills = none)
        (hupdates : (Taken.reply cb reply).updates = false)
        (hresult : (cb.take reply c.data).queryResult = c.data.queryResult) :
        Fresh { data := cb.take reply c.data
                sending := { c.sending with callbackQueue := queue }
                scMessages := rest } (w.take (.reply cb reply)) := by
      have hlatest : (w.take (.reply cb reply)).latest = w.latest := by simp [take, hstatus]
      have hcount : (w.take (.reply cb reply)).invalidations = w.invalidations := by
        simp [take, hstatus, hupdates]
      have hfilledAt : (w.take (.reply cb reply)).filledAt = w.filledAt := by simp [take, hfill]
      refine ⟨htail, fun hwaits q hq => ?_, fun t ht => ?_⟩
      · rw [hlatest, hcount]
        refine h.waiting (hresult ▸ hwaits) q ?_
        -- the answer is not to the query that was sent last, if that is still without one
        rw [Option.mem_def, lastQuery, hzip]
        refine getLast?_filterMap_cons ?_
        have hq' : ((queue.zip w.issued.tail).filterMap query?).getLast? = some q := hq
        rwa [hissued] at hq'
      · rw [hlatest, hcount, hfilledAt]
        exact h.filled t (hresult ▸ ht)
    match cb.took reply c.data with
    | .status _ _ _ hdata => exact of_makeUncached htail (congrArg CxxrtlData.queryResult hdata)
    | .updates _ _ _ hdata => exact of_makeUncached htail (congrArg CxxrtlData.queryResult hdata)
    | @Callback.Took.fills _ _ _ time hstatus hfill hupdates hresult _ =>
      obtain ⟨hwaiting, hothers⟩ := hfills _ hfill
      obtain ⟨loadedSignals, info, rfl⟩ := Taken.exists_of_fills hfill
      refine ⟨htail, fun hwaits => ?_, fun t ht => ?_⟩
      · rw [hresult] at hwaits
        cases hwaits
      · -- the query is the only one without an answer, so that nothing was invalidated since
        have hrest : (queue.zip issued).filterMap query? = [] := by
          refine List.filterMap_eq_nil_iff.2 ?_
          rintro ⟨cb', m⟩ hmem
          exact hothers cb' (by rw [hqueue]; exact (List.of_mem_zip hmem).1) m
        have hlast : lastQuery c w = some (time, n) := by
          have hquery : query? (.queryInterval time loadedSignals info, n) = some (time, n) := rfl
          rw [lastQuery, hzip, List.filterMap_cons_some hquery, hrest]
          rfl
        obtain ⟨hlatest, hn⟩ := h.waiting hwaiting (time, n) hlast
        obtain rfl := CachedData.filled.inj (hresult.symm.trans ht)
        refine ⟨?_, ?_⟩
        · simpa [take, hstatus] using hlatest
        · simpa [take, hstatus, hupdates, hfill, hissued] using hn
    | .resumes hstatus hfill hupdates hresult _ => exact hkept hstatus hfill hupdates hresult
    | .other hstatus hfill hupdates hresult _ => exact hkept hstatus hfill hupdates hresult

end Fresh

/-- A query is answered before anything is invalidated, and is sent when the status says the time that was
reported last. -/
def Timely (s : Connection × Watch) (a : Action) : Prop :=
  match a with
  | .call (.queryVariable _ _) =>
    ∀ status, s.1.container.data.simulationStatus.get = some status → s.2.latest = some status.latestTime
  | .receive =>
    ∀ time, s.1.container.taken.fills = some time → s.1.container.data.queryResult.isWaiting ∧
      ∀ cb ∈ s.1.callbacks.tail, ∀ n, query? (cb, n) = none
  | _ => True

theorem timely_receive {s : Connection × Watch} (h : s.1.container.taken.fills = none) : Timely s .receive :=
  fun _ hfills => absurd (h.symm.trans hfills) (by simp)

/-- A step keeps the query result up to date. -/
theorem Fresh.next {s : Connection} {w : Watch} (h : Fresh s.container w)
    (decode : String → Option (List UInt8)) {a : Action} (ha : Timely (s, w) a) :
    Fresh (s.next decode a).container (w.note s a (s.next decode a)) := by
  match a with
  | .call call =>
    refine h.call call fun var time hcall => ?_
    subst hcall
    exact ha
  | .receive => exact h.receive ha
  | .work _ _ => exact ⟨h.issued, h.waiting, h.filled⟩
  | .answer reply =>
    rcases s.answer_cases reply with ⟨_, -, hs⟩ | ⟨-, hs⟩
    · exact h.congr hs.data hs.callbacks
    · exact h.congr hs.data hs.callbacks
  | .tell msg =>
    have hs := s.tell_unmoved msg
    exact h.congr hs.data hs.callbacks

end Watch

/-- In every run in which queries are timely, a query result that is filled has the time that was reported
last, and nothing was invalidated since the query that has filled it was sent. -/
theorem filled_is_fresh {decode : String → Option (List UInt8)} {s : Connection} {w : Watch}
    (h : Reachable (observed (Connection.step decode) Watch.note) Watch.Timely (.new, .new) (s, w))
    {t : CxxrtlTimestamp} (ht : s.container.data.queryResult = .filled t) :
    w.latest = some t ∧ w.filledAt = w.invalidations := by
  have hinv : Watch.Fresh s.container w := by
    refine h.invariant (I := fun x => Watch.Fresh x.1.container x.2) Watch.Fresh.new ?_
    rintro ⟨s, w⟩ a ⟨s', w'⟩ hw ha hstep
    obtain ⟨hs, hnote⟩ := observed_eq_ok hstep
    obtain rfl := Except.ok.inj hs
    have hnext := hw.next decode ha
    exact hnote.symm ▸ hnext
  exact hinv.filled t ht

/-- Samples are asked for and given, and nothing happens in between. -/
theorem filled_is_fresh_clk :
    ∃ s w, Reachable (observed (Connection.step fun _ => none) Watch.note) Watch.Timely (.new, .new) (s, w) ∧
      s.container.data.queryResult = .filled { seconds := 0, femtoseconds := 5 } ∧
      w.latest = some { seconds := 0, femtoseconds := 5 } ∧ w.filledAt = w.invalidations := by
  have htimely : AllowedRun (observedNext (fun _ => none) Watch.note) Watch.Timely (.new, .new)
      (queryRun [] { time := .zero, itemValues := "" } ++ [.receive]) := by
    refine ⟨trivial, trivial, trivial, trivial, trivial, trivial, trivial, Watch.timely_receive rfl,
      Watch.timely_receive rfl, Watch.timely_receive rfl, Watch.timely_receive rfl, ?_, trivial, ?_, trivial⟩
    · intro status hstatus
      exact Option.some.inj hstatus ▸ rfl
    · exact fun _ _ => ⟨rfl, List.forall_mem_nil _⟩
  have hreach := reachable_of_allowedRun htimely
  exact ⟨_, _, hreach, rfl, filled_is_fresh hreach rfl⟩

/-- The simulation pauses while a query is on its way. The answer to the query marks the query result as up
to date, with the time before the pause. -/
theorem filled_by_stale_query :
    ¬ ∀ (decode : String → Option (List UInt8)) (s : Connection) (w : Watch),
      Reachable (observed (Connection.step decode) Watch.note) (fun _ _ => True) (.new, .new) (s, w) →
      ∀ t, s.container.data.queryResult = .filled t → w.latest = some t ∧ w.filledAt = w.invalidations := by
  intro hall
  let pause : Event := .simulationPaused { seconds := 0, femtoseconds := 9 }
  let crossing : List Action := [.call (.queryVariable (topSignal "clk") 3), .tell (.ok (.event pause))]
  obtain ⟨hlatest, -⟩ := hall (fun _ => none) _ _
    (reachable_of_allowedRun (allowedRun_true _ _
      (queryRun crossing { time := .zero, itemValues := "" } ++ [.receive, .receive]))) { seconds := 0, femtoseconds := 5 } rfl
  exact absurd (Option.some.inj hlatest) (by decide)

/-! ## The times that are read -/

/-- What an observer of the client notes of the times. -/
structure Times where
  /-- The times that were reported, the last one at the end. -/
  reported : List CxxrtlTimestamp
  /-- What was returned as the maximum time, the last one at the end. -/
  returned : List (Option CxxrtlTimestamp)

/-- A time is not later than another one. Before the first status there is no time. -/
def NotLater (a b : Option CxxrtlTimestamp) : Prop :=
  ∀ t, a = some t → ∃ t', b = some t' ∧ t.asFemtoseconds ≤ t'.asFemtoseconds

namespace Times

/-- Nothing is known yet. -/
def new : Times := { reported := [], returned := [] }

/-- The calls that read the maximum time. -/
def reads : Call → Bool
  | .maxTimestamp | .queryVariable _ _ => true
  | _ => false

/-- What the observer notes of a step. -/
def note (g : Times) (s : Connection) (a : Action) (_ : Connection) : Times :=
  match a with
  | .call call =>
    if reads call then { g with returned := g.returned ++ [s.container.maxTimestamp.1] } else g
  | .receive =>
    { g with reported := g.reported ++
        (s.container.taken.status.map CxxrtlSimulationStatus.latestTime).toList }
  | _ => g

/-- The times that the server reports never decrease. -/
def Ordered (s : Connection × Times) (a : Action) : Prop :=
  match a with
  | .receive =>
    ∀ status, s.1.container.taken.status = some status →
      ∀ t ∈ s.2.reported, t.asFemtoseconds ≤ status.latestTime.asFemtoseconds
  | _ => True

/-- The time is read when the status says the one that was reported last, or when none but zero was read. -/
def Timely (s : Connection × Times) (a : Action) : Prop :=
  match a with
  | .call call =>
    reads call = true → ∀ status, s.1.container.data.simulationStatus.get = some status →
      s.2.reported.getLast? = some status.latestTime ∨
        ∀ t, some t ∈ s.2.returned → t.asFemtoseconds = 0
  | _ => True

/-- The status says the time that was reported last, or zero, and no time that was read is later than that
was reported last. -/
structure Bounded (s : Connection) (g : Times) : Prop where
  status : ∀ status, s.container.data.simulationStatus.get = some status →
    status.latestTime = .zero ∨ g.reported.getLast? = some status.latestTime
  known : ∀ t, some t ∈ g.returned → ∃ status, s.container.data.simulationStatus.get = some status
  bound : ∀ t, some t ∈ g.returned → t.asFemtoseconds = 0 ∨
    ∃ r, g.reported.getLast? = some r ∧ t.asFemtoseconds ≤ r.asFemtoseconds
  monotone : g.returned.Pairwise NotLater

/-- A call does not change what is known of the status. -/
theorem status_call (c : CxxrtlContainer) (call : Call) :
    (call.apply c).data.simulationStatus.get = c.data.simulationStatus.get :=
  call.keeps (I := fun c' => c'.data.simulationStatus.get = c.data.simulationStatus.get) rfl
    fun _ _ _ hc _ hsend => hsend.query_cases.2.1.trans hc

/-- A message reports a status, or sets the time to zero, or leaves the status as it is. -/
theorem status_receive (c : CxxrtlContainer) :
    (∃ status, c.taken.status = some status ∧ c.receive.data.simulationStatus.get = some status) ∨
      c.taken.status = none ∧
        (c.receive.data.simulationStatus.get = some { status := .running, latestTime := .zero } ∨
          c.receive.data.simulationStatus.get = c.data.simulationStatus.get) := by
  have hreceives := c.receives
  generalize c.taken = taken at hreceives
  generalize c.receive = c' at hreceives
  cases hreceives with
  | nothing _ => exact .inr ⟨rfl, .inr rfl⟩
  | event _ => exact .inl ⟨_, rfl, rfl⟩
  | @reply msg rest reply cb queue _ _ _ =>
    match cb.took reply c.data with
    | .status hstatus _ _ hdata => exact .inl ⟨_, hstatus, congrArg (·.simulationStatus.get) hdata⟩
    | .updates hstatus _ _ hdata => exact .inr ⟨hstatus, .inr (congrArg (·.simulationStatus.get) hdata)⟩
    | .fills hstatus _ _ _ hkept => exact .inr ⟨hstatus, .inr (congrArg CachedData.get hkept)⟩
    | .resumes hstatus _ _ _ hzero => exact .inr ⟨hstatus, .inl (congrArg CachedData.get hzero)⟩
    | .other hstatus _ _ _ hkept => exact .inr ⟨hstatus, .inr (congrArg CachedData.get hkept)⟩

namespace Bounded

variable {s s' : Connection} {g : Times}

theorem new : Bounded .new .new :=
  ⟨fun _ h => absurd h (by simp [Connection.new, CxxrtlContainer.new, CxxrtlData.new, CachedData.empty,
    CachedData.get]), fun _ h => absurd h List.not_mem_nil, fun _ h => absurd h List.not_mem_nil,
    List.Pairwise.nil⟩

/-- Only what is known of the status matters. -/
theorem congr (h : Bounded s g)
    (hstatus : s'.container.data.simulationStatus.get = s.container.data.simulationStatus.get) :
    Bounded s' g := by
  refine ⟨?_, ?_, h.bound, h.monotone⟩
  · rw [hstatus]
    exact h.status
  · rw [hstatus]
    exact h.known

/-- The time that is read is not earlier than those that were read before. -/
theorem read (h : Bounded s g)
    (htimely : ∀ status, s.container.data.simulationStatus.get = some status →
      g.reported.getLast? = some status.latestTime ∨ ∀ t, some t ∈ g.returned → t.asFemtoseconds = 0) :
    Bounded s { g with returned := g.returned ++ [s.container.maxTimestamp.1] } := by
  rw [maxTimestamp_fst]
  match hget : s.container.data.simulationStatus.get with
  | none =>
    have hnone : ∀ t, some t ∉ g.returned ++ [none] := by
      intro t ht
      rw [List.mem_append, List.mem_singleton] at ht
      rcases ht with ht | ht
      · obtain ⟨status, hstatus⟩ := h.known t ht
        exact absurd (hget.symm.trans hstatus) (by simp)
      · cases ht
    refine ⟨h.status, fun t ht => absurd ht (hnone t), fun t ht => absurd ht (hnone t), ?_⟩
    refine List.pairwise_append.2 ⟨h.monotone, List.pairwise_singleton _ _, ?_⟩
    rintro a ha b - t rfl
    exact absurd (List.mem_append_left _ ha) (hnone t)
  | some status =>
    have hmem : ∀ {t}, some t ∈ g.returned ++ [some status.latestTime] →
        some t ∈ g.returned ∨ t = status.latestTime := by
      intro t ht
      rw [List.mem_append, List.mem_singleton] at ht
      exact ht.imp_right Option.some.inj
    refine ⟨h.status, fun _ _ => ⟨status, hget⟩, fun t ht => ?_, ?_⟩
    · rcases hmem ht with hold | rfl
      · exact h.bound t hold
      · rcases h.status status hget with hzero | hlast
        · exact .inl (by rw [hzero]; rfl)
        · exact .inr ⟨_, hlast, le_rfl⟩
    · refine List.pairwise_append.2 ⟨h.monotone, List.pairwise_singleton _ _, ?_⟩
      intro a ha b hb t hat
      subst hat
      refine ⟨status.latestTime, List.mem_singleton.1 hb, ?_⟩
      rcases htimely status hget with hlast | hzero
      · rcases h.bound t ha with ht | ⟨r, hr, hle⟩
        · omega
        · obtain rfl := Option.some.inj (hlast.symm.trans hr)
          exact hle
      · rw [hzero t ha]
        exact Nat.zero_le _

theorem receive (h : Bounded s g)
    (hordered : ∀ status, s.container.taken.status = some status →
      ∀ t ∈ g.reported, t.asFemtoseconds ≤ status.latestTime.asFemtoseconds) (s'' : Connection) :
    Bounded { s with container := s.container.receive } (g.note s .receive s'') := by
  rcases status_receive s.container with ⟨status, htaken, hget⟩ | ⟨htaken, hget⟩
  · have hnote : g.note s .receive s'' = { g with reported := g.reported ++ [status.latestTime] } := by
      rw [note, htaken]
      rfl
    rw [hnote]
    refine ⟨fun status' hstatus' => .inr ?_, fun _ _ => ⟨status, hget⟩, fun t ht => ?_, h.monotone⟩
    · obtain rfl := Option.some.inj (hget.symm.trans hstatus')
      exact List.getLast?_concat
    · refine .inr ⟨status.latestTime, List.getLast?_concat, ?_⟩
      rcases h.bound t ht with hzero | ⟨r, hr, hle⟩
      · omega
      · exact hle.trans (hordered status htaken r (List.mem_of_getLast? hr))
  · have hnote : g.note s .receive s'' = g := by
      rw [note, htaken]
      simp
    rw [hnote]
    rcases hget with hzero | hkept
    · refine ⟨fun status' hstatus' => .inl ?_, fun _ _ => ⟨_, hzero⟩, h.bound, h.monotone⟩
      obtain rfl := Option.some.inj (hzero.symm.trans hstatus')
      rfl
    · exact h.congr hkept

/-- A step keeps the times bounded. -/
theorem next (h : Bounded s g) (decode : String → Option (List UInt8)) {a : Action}
    (hordered : Ordered (s, g) a) (htimely : Timely (s, g) a) :
    Bounded (s.next decode a) (g.note s a (s.next decode a)) := by
  match a with
  | .call call =>
    have hstatus := status_call s.container call
    simp only [note]
    split
    next hreads => exact (h.read (htimely hreads)).congr hstatus
    next => exact h.congr hstatus
  | .receive => exact h.receive hordered _
  | .work _ _ => exact h.congr rfl
  | .answer reply =>
    rcases s.answer_cases reply with ⟨_, -, hs⟩ | ⟨-, hs⟩
    · exact h.congr (congrArg (·.simulationStatus.get) hs.data)
    · exact h.congr (congrArg (·.simulationStatus.get) hs.data)
  | .tell msg => exact h.congr (congrArg (·.simulationStatus.get) (s.tell_unmoved msg).data)

end Bounded

end Times

/-- When the times that the server reports never decrease, those that are read never decrease, in every run
in which the status is read while it says the time that was reported last or when none but zero was read. -/
theorem maxTimestamp_monotone {decode : String → Option (List UInt8)} {s : Connection} {g : Times}
    (h : Reachable (observed (Connection.step decode) Times.note)
      (fun s a => Times.Ordered s a ∧ Times.Timely s a) (.new, .new) (s, g)) :
    g.returned.Pairwise NotLater := by
  have hinv : Times.Bounded s g := by
    refine h.invariant (I := fun x => Times.Bounded x.1 x.2) Times.Bounded.new ?_
    rintro ⟨s, g⟩ a ⟨s', g'⟩ hg ha hstep
    obtain ⟨hs, hnote⟩ := observed_eq_ok hstep
    obtain rfl := Except.ok.inj hs
    have hnext := hg.next decode ha.1 ha.2
    exact hnote.symm ▸ hnext
  exact hinv.monotone

/-- A status is read, a later one is reported and read. -/
theorem maxTimestamp_monotone_pause :
    ∃ s g, Reachable (observed (Connection.step fun _ => none) Times.note)
        (fun s a => Times.Ordered s a ∧ Times.Timely s a) (.new, .new) (s, g) ∧
      g.returned = [none, some { seconds := 0, femtoseconds := 5 }, some { seconds := 0, femtoseconds := 9 }] ∧
      g.returned.Pairwise NotLater := by
  let status : CxxrtlSimulationStatus := { status := .running, latestTime := { seconds := 0, femtoseconds := 5 } }
  let actions : List Action :=
    [.call .maxTimestamp, .answer (.error ""), .answer (.ok (.getSimulationStatus status)), .receive, .receive,
      .call .maxTimestamp, .tell (.ok (.event (.simulationPaused { seconds := 0, femtoseconds := 9 }))),
      .receive, .call .maxTimestamp]
  have hallowed : AllowedRun (observedNext (fun _ => none) Times.note) (fun s a => Times.Ordered s a ∧ Times.Timely s a)
      (.new, .new) actions := by
    have hknown (time : CxxrtlTimestamp) {status : CxxrtlSimulationStatus} {st : SimulationStatusType}
        (h : some { status := st, latestTime := time } = some status) : some time = some status.latestTime :=
      congrArg (fun s => some s.latestTime) (Option.some.inj h)
    refine ⟨⟨trivial, fun _ status h => absurd h (Option.some_ne_none status).symm⟩, ⟨trivial, trivial⟩,
      ⟨trivial, trivial⟩, ⟨fun _ _ => List.forall_mem_nil _, trivial⟩,
      ⟨fun _ _ => List.forall_mem_nil _, trivial⟩, ⟨trivial, fun _ _ h => .inl (hknown _ h)⟩,
      ⟨trivial, trivial⟩, ⟨fun status h t ht => ?_, trivial⟩,
      ⟨trivial, fun _ _ h => .inl (hknown _ h)⟩, trivial⟩
    obtain rfl := List.mem_singleton.1 ht
    obtain rfl := Option.some.inj h
    decide
  have hreach := reachable_of_allowedRun hallowed
  exact ⟨_, _, hreach, rfl, maxTimestamp_monotone hreach⟩

/-- The simulation goes on, and the time that is read is zero until the server reports the next one. -/
theorem maxTimestamp_not_monotone :
    ¬ ∀ (decode : String → Option (List UInt8)) (s : Connection) (g : Times),
      Reachable (observed (Connection.step decode) Times.note) Times.Ordered (.new, .new) (s, g) →
      g.returned.Pairwise NotLater := by
  intro hall
  let status : CxxrtlSimulationStatus := { status := .paused, latestTime := { seconds := 0, femtoseconds := 5 } }
  let actions : List Action :=
    [.call .simulationStatus, .answer (.error ""), .answer (.ok (.getSimulationStatus status)), .receive,
      .receive, .call .maxTimestamp, .call .unpause, .answer (.ok .runSimulation), .receive,
      .call .maxTimestamp]
  have hordered : AllowedRun (observedNext (fun _ => none) Times.note) Times.Ordered (.new, .new) actions :=
    ⟨trivial, trivial, trivial, fun _ _ => List.forall_mem_nil _, fun _ _ => List.forall_mem_nil _, trivial,
      trivial, trivial, fun status h => absurd h (Option.some_ne_none status).symm, trivial, trivial⟩
  have hmono := hall _ _ _ (reachable_of_allowedRun hordered)
  have hpair : NotLater (some { seconds := 0, femtoseconds := 5 }) (some .zero) :=
    List.rel_of_pairwise_cons hmono (List.mem_singleton_self _)
  obtain ⟨t, ht, hle⟩ := hpair _ rfl
  obtain rfl := Option.some.inj ht
  exact absurd hle (by decide)

end Cxxrtl
