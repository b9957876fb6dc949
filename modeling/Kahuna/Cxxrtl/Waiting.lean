import Kahuna.Cxxrtl.Connection

/-!
# Caches that wait

A cache waits for the answer to a request. An error is dropped together with the callback that waited for
the answer, and a callback returns early on a response of another kind, so that the cache it was to fill
waits on. The cache is left without a request unless another one settles it as well.

- `waiting_has_request`: when no such answer is given to the only request that settles a waiting cache,
  every cache that waits has a request that settles it.
-/

namespace Cxxrtl

open Connection CxxrtlContainer Transition

/-- The caches of the container. -/
inductive Cache where
  | scopes
  | moduleItems (scope : ScopeKey)
  | allItems
  | queryResult
  | simulationStatus
  deriving DecidableEq

/-- A cache waits for data. -/
def CxxrtlData.Waits (data : CxxrtlData) : Cache → Prop
  | .scopes => data.scopesCache.isWaiting
  | .moduleItems scope => (data.moduleItemCache.get scope).any CachedData.isWaiting
  | .allItems => data.allItemsCache.isWaiting
  | .queryResult => data.queryResult.isWaiting
  | .simulationStatus => data.simulationStatus.isWaiting

namespace Callback

/-- The responses that a callback expects. -/
def Accepts : Callback → CommandResponse → Prop
  | .listScopes, .listScopes _ => True
  | .listItems, .listItems _ => True
  | .listItemsIn _, .listItems _ => True
  | .queryInterval _ _ _, .queryInterval _ => True
  | .referenceItems, _ => True
  | .getSimulationStatus, .getSimulationStatus _ => True
  | .runSimulation, _ => True
  | .pauseSimulation, .pauseSimulation _ => True
  | _, _ => False

/-- An answer is a response that the callback expects. -/
def AcceptsReply (cb : Callback) : Except String CommandResponse → Prop
  | .ok response => cb.Accepts response
  | .error _ => False

/-- Any response that the callback expects fills the cache, or sets it back to uncached. -/
def Settles (cb : Callback) (n : Cache) : Prop :=
  ∀ response data, cb.Accepts response → ¬ (cb.call response data).Waits n

end Callback

/-! ## What is out of date after a message -/

namespace CxxrtlData

variable {data : CxxrtlData} {n : Cache}

theorem waits_invalidateQueryResult (h : data.invalidateQueryResult.Waits n) :
    data.Waits n ∧ n ≠ .queryResult := by
  cases n with
  | scopes | moduleItems _ | allItems | simulationStatus => exact ⟨h, by simp⟩
  | queryResult => simp [Waits, invalidateQueryResult, triggerRedraw] at h

theorem waits_onSimulationStatusUpdate {status : CxxrtlSimulationStatus}
    (h : (data.onSimulationStatusUpdate status).Waits n) :
    data.Waits n ∧ n ≠ .queryResult ∧ n ≠ .simulationStatus := by
  obtain ⟨h, hn⟩ := waits_invalidateQueryResult h
  cases n with
  | scopes | moduleItems _ | allItems => exact ⟨h, hn, by simp⟩
  | queryResult => exact absurd rfl hn
  | simulationStatus => simp [Waits, triggerRedraw] at h

/-- No response makes a cache wait. -/
theorem waits_call {cb : Callback} {response : CommandResponse} (h : (cb.call response data).Waits n) :
    data.Waits n := by
  cases cb with
  | listScopes =>
    simp only [Callback.call] at h
    split at h
    · cases n with
      | scopes => simp [Waits] at h
      | moduleItems _ | allItems | queryResult | simulationStatus => exact h
    · exact h
  | listItems =>
    simp only [Callback.call] at h
    split at h
    · cases n with
      | allItems => simp [Waits] at h
      | scopes | moduleItems _ | queryResult | simulationStatus => exact h
    · exact h
  | listItemsIn scope =>
    simp only [Callback.call] at h
    split at h
    · cases n with
      | moduleItems scope' =>
        simp only [Waits, FiniteMap.get_insert] at h
        split at h
        · simp at h
        · exact h
      | scopes | allItems | queryResult | simulationStatus => exact h
    · exact h
  | queryInterval _ _ _ =>
    simp only [Callback.call] at h
    split at h
    · cases n with
      | queryResult => simp [Waits] at h
      | scopes | moduleItems _ | allItems | simulationStatus => exact h
    · exact h
  | referenceItems => exact (waits_invalidateQueryResult h).1
  | getSimulationStatus =>
    simp only [Callback.call] at h
    split at h
    · exact (waits_onSimulationStatusUpdate h).1
    · exact h
  | runSimulation =>
    cases n with
    | simulationStatus => simp [Waits, Callback.call] at h
    | scopes | moduleItems _ | allItems | queryResult => exact h
  | pauseSimulation =>
    simp only [Callback.call] at h
    split at h
    · exact (waits_onSimulationStatusUpdate h).1
    · exact h

theorem waits_take {cb : Callback} {reply : Except String CommandResponse}
    (h : (cb.take reply data).Waits n) : data.Waits n := by
  cases reply with
  | ok _ => exact waits_call h
  | error _ => exact h

end CxxrtlData

/-! ## What settles a cache -/

/-- A cache that a command has made wait is settled by the callback of the command. -/
theorem waits_send {c c' : CxxrtlContainer} {cb : Callback} (h : Send c cb c') {n : Cache}
    (hn : c'.data.Waits n) : c.data.Waits n ∨ cb.Settles n := by
  cases h with
  | listScopes _ =>
    cases n with
    | scopes =>
      refine .inr fun response data haccepts => ?_
      cases response with
      | listScopes _ => simp [CxxrtlData.Waits, Callback.call]
      | _ => cases haccepts
    | moduleItems _ | allItems | queryResult | simulationStatus => exact .inl hn
  | listItems _ =>
    cases n with
    | allItems =>
      refine .inr fun response data haccepts => ?_
      cases response with
      | listItems _ => simp [CxxrtlData.Waits, Callback.call]
      | _ => cases haccepts
    | scopes | moduleItems _ | queryResult | simulationStatus => exact .inl hn
  | listItemsIn scope _ =>
    cases n with
    | moduleItems scope' =>
      by_cases hscope : scope' = scope
      · subst hscope
        refine .inr fun response data haccepts => ?_
        cases response with
        | listItems _ => simp [CxxrtlData.Waits, Callback.call, FiniteMap.get_insert]
        | _ => cases haccepts
      · refine .inl ?_
        simpa [CxxrtlData.Waits, send, FiniteMap.get_insert, hscope] using hn
    | scopes | allItems | queryResult | simulationStatus => exact .inl hn
  | getSimulationStatus _ =>
    cases n with
    | simulationStatus =>
      refine .inr fun response data haccepts hwaits => ?_
      cases response with
      | getSimulationStatus _ => exact (CxxrtlData.waits_onSimulationStatusUpdate hwaits).2.2 rfl
      | _ => cases haccepts
    | scopes | moduleItems _ | allItems | queryResult => exact .inl hn
  | queryInterval _ _ _ =>
    cases n with
    | queryResult =>
      refine .inr fun response data haccepts => ?_
      cases response with
      | queryInterval _ => simp [CxxrtlData.Waits, Callback.call]
      | _ => cases haccepts
    | scopes | moduleItems _ | allItems | simulationStatus => exact .inl hn
  | referenceItems vars =>
    refine .inl ?_
    obtain ⟨loadedSignals, signalIndexMap, heq⟩ := exists_foldl_addSignal vars c.data
    have hdata : (c.send (vars.foldl addSignal c.data) (.referenceItems defaultReference
        (referencedItems (vars.foldl addSignal c.data).loadedSignals)) .referenceItems).data =
        { c.data with loadedSignals, signalIndexMap } := heq
    rw [hdata] at hn
    cases n with
    | scopes | moduleItems _ | allItems | queryResult | simulationStatus => exact hn
  | runSimulation _ => exact .inl hn
  | pauseSimulation => exact .inl hn

/-! ## Runs -/

namespace Connection

variable {s s' : Connection}

/-- A request that is not answered yet, or whose answer is on its way and will be accepted. -/
structure Outstanding (s : Connection) (i : ℕ) (cb : Callback) : Prop where
  callback : s.callbacks[i]? = some cb
  reply : ∀ reply, s.replies[i]? = some reply → cb.AcceptsReply reply

/-- Every cache that waits has a request that settles it. -/
def Served (s : Connection) : Prop :=
  ∀ n, s.container.data.Waits n → ∃ i cb, s.Outstanding i cb ∧ cb.Settles n

/-- An error or a response of another kind is not given to the only request that settles a cache which
waits. -/
def Answerable (s : Connection) (a : Action) : Prop :=
  ∀ reply cb command, a = .answer reply → s.container.sending.csMessages.head? = some (.command command) →
    s.callbacks[s.replies.length]? = some cb → ¬ cb.AcceptsReply reply →
    ∀ n, s.container.data.Waits n → cb.Settles n →
      ∃ i cb', i ≠ s.replies.length ∧ s.Outstanding i cb' ∧ cb'.Settles n

theorem Served.unmoved (h : Served s) (hs : Unmoved s s') : Served s' := by
  intro n hn
  obtain ⟨i, cb, hout, hsettles⟩ := h n (hs.data ▸ hn)
  exact ⟨i, cb, ⟨hs.callbacks ▸ hout.callback, hs.replies ▸ hout.reply⟩, hsettles⟩

theorem Served.send (h : Served s) (hpaired : Paired s) {cb : Callback} {c : CxxrtlContainer}
    (hc : Send s.container cb c) : Served { s with container := c } := by
  intro n hn
  have hcases := waits_send hc hn
  obtain ⟨data, command, rfl, -⟩ := hc.exists_send
  rcases hcases with hwaits | hsettles
  · obtain ⟨i, cb', hout, hsettles⟩ := h n hwaits
    refine ⟨i, cb', ⟨?_, hout.reply⟩, hsettles⟩
    have hlt := (List.getElem?_eq_some_iff.1 hout.callback).1
    show (s.callbacks ++ [cb])[i]? = some cb'
    rw [List.getElem?_append_left hlt, hout.callback]
  · -- the request that was sent now is the last one, and is not answered yet
    refine ⟨s.callbacks.length, cb, ⟨List.getElem?_concat_length, fun reply hreply => ?_⟩, hsettles⟩
    obtain ⟨answered, unanswered, hqueue, hlen, -⟩ := hpaired.pairs
    have hlt : s.callbacks.length < s.replies.length := (List.getElem?_eq_some_iff.1 hreply).1
    rw [hqueue, List.length_append, hlen] at hlt
    omega

theorem Served.receive (h : Served s) (hpaired : Paired s) :
    Served { s with container := s.container.receive } := by
  match hpaired.received with
  | .nothing _ hs => exact h.unmoved hs
  | .event _ hs =>
    refine unmoved (fun n hn => ?_) hs
    obtain ⟨i, cb, hout, hsettles⟩ := h n (CxxrtlData.waits_onSimulationStatusUpdate hn).1
    exact ⟨i, cb, ⟨hout.callback, hout.reply⟩, hsettles⟩
  | @Paired.Received.reply _ _ cb reply _ hqueue hreplies _ hdata =>
    intro n hn
    rw [hdata] at hn
    obtain ⟨i, cb', ⟨hcb', hreply'⟩, hsettles⟩ := h n (CxxrtlData.waits_take hn)
    rw [hqueue] at hcb'
    rw [hreplies] at hreply'
    match i with
    | 0 =>
      -- the request that settles the cache is answered, and the cache does not wait any more
      obtain rfl : cb = cb' := Option.some.inj hcb'
      have haccepts := hreply' reply rfl
      match reply with
      | .ok response => exact absurd hn (hsettles response s.container.data haccepts)
    | i + 1 => exact ⟨i, cb', ⟨hcb', hreply'⟩, hsettles⟩

theorem Served.answer (h : Served s) {reply : Except String CommandResponse}
    (hs : Answerable s (.answer reply)) : Served (s.answer reply) := by
  rcases s.answer_cases reply with ⟨command, hcommand, hanswered⟩ | ⟨-, hunmoved⟩
  · intro n hn
    rw [hanswered.data] at hn
    obtain ⟨i, cb, hout, hsettles⟩ := h n hn
    -- a request other than the one that is answered, or an answer that will be accepted
    have hkept : ∃ i cb, s.Outstanding i cb ∧ cb.Settles n ∧
        (i = s.replies.length → cb.AcceptsReply reply) := by
      by_cases hi : i = s.replies.length
      · by_cases haccepts : cb.AcceptsReply reply
        · exact ⟨i, cb, hout, hsettles, fun _ => haccepts⟩
        · obtain ⟨j, cb', hj, hout', hsettles'⟩ :=
            hs reply cb command rfl hcommand (hi ▸ hout.callback) haccepts n hn hsettles
          exact ⟨j, cb', hout', hsettles', fun heq => absurd heq hj⟩
      · exact ⟨i, cb, hout, hsettles, fun heq => absurd heq hi⟩
    obtain ⟨j, cb', hout', hsettles', haccepts⟩ := hkept
    refine ⟨j, cb', ⟨hanswered.callbacks ▸ hout'.callback, fun reply' hreply' => ?_⟩, hsettles'⟩
    rw [hanswered.replies, List.getElem?_append] at hreply'
    split at hreply'
    · exact hout'.reply reply' hreply'
    · rw [List.getElem?_singleton] at hreply'
      split at hreply'
      · obtain rfl := Option.some.inj hreply'
        exact haccepts (by omega)
      · cases hreply'
  · exact h.unmoved hunmoved

/-- A step keeps every waiting cache served, when the server answers as it should. -/
theorem Served.next (h : Served s) (hpaired : Paired s) (decode : String → Option (List UInt8))
    {a : Action} (ha : Answerable s a) : Served (s.next decode a) := by
  match a with
  | .call call =>
    have hkeep := call.keeps
      (I := fun c => Paired { s with container := c } ∧ Served { s with container := c }) ⟨hpaired, h⟩
      fun c cb c' hc _ hsend => ⟨hc.1.send hsend, hc.2.send hc.1 hsend⟩
    exact hkeep.2
  | .receive => exact h.receive hpaired
  | .work _ _ =>
    intro n hn
    have hdata : s.container.data.Waits n := by
      match n with
      | .scopes | .moduleItems _ | .allItems | .queryResult | .simulationStatus => exact hn
    obtain ⟨i, cb, hout, hsettles⟩ := h n hdata
    exact ⟨i, cb, ⟨hout.callback, hout.reply⟩, hsettles⟩
  | .answer reply => exact h.answer ha
  | .tell msg => exact h.unmoved (s.tell_unmoved msg)

end Connection

/-- A cache that waits has a request that will fill it or set it back, in every run in which the server
gives no error and no response of another kind to the only such request. -/
theorem waiting_has_request {decode : String → Option (List UInt8)} {s : Connection}
    (h : Reachable (Connection.step decode) Answerable .new s) (n : Cache)
    (hn : s.container.data.Waits n) :
    ∃ i cb, s.Outstanding i cb ∧ cb.Settles n ∧ (s.replies[i]? = none →
      ∃ command, s.commands[i - s.replies.length]? = some command ∧ cb.Sent command) := by
  have hinv : Paired s ∧ Served s := by
    refine h.invariant (I := fun s => Paired s ∧ Served s) ⟨.new, ?_⟩ ?_
    · intro n hn
      match n with
      | .scopes | .moduleItems _ | .allItems | .queryResult | .simulationStatus => cases hn
    · rintro s a s' ⟨hpaired, hserved⟩ ha hs
      obtain rfl := Except.ok.inj hs
      exact ⟨hpaired.next decode a, hserved.next hpaired decode ha⟩
  obtain ⟨i, cb, hout, hsettles⟩ := hinv.2 n hn
  exact ⟨i, cb, hout, hsettles, hinv.1.exists_command hout.callback⟩

/-- The scopes are asked for, and the request for them is on its way. -/
theorem waiting_has_request_scopes :
    CxxrtlData.Waits (Connection.next (fun _ => none) .new (.call .modules)).container.data .scopes ∧
      ∃ i cb, Outstanding (Connection.next (fun _ => none) .new (.call .modules)) i cb ∧
        cb.Settles .scopes ∧
        ((Connection.next (fun _ => none) .new (.call .modules)).replies[i]? = none →
          ∃ command, (Connection.next (fun _ => none) .new (.call .modules)).commands[
            i - (Connection.next (fun _ => none) .new (.call .modules)).replies.length]? = some command ∧
            cb.Sent command) := by
  have hallowed : Answerable .new (.call .modules) := fun _ _ _ ha => Action.noConfusion ha
  exact ⟨rfl, waiting_has_request (.step .start hallowed rfl) .scopes rfl⟩

/-- The server answers with an error, and the scopes are waited for without a request. -/
theorem waiting_without_request :
    ¬ ∀ (decode : String → Option (List UInt8)) (s : Connection),
      Reachable (Connection.step decode) (fun _ _ => True) .new s → ∀ n, s.container.data.Waits n →
        ∃ i cb, s.Outstanding i cb ∧ cb.Settles n := by
  intro hall
  -- the first answer is to the greeting
  let actions : List Action := [.call .modules, .answer (.error ""), .answer (.error ""), .receive, .receive]
  obtain ⟨i, cb, hout, -⟩ := hall (fun _ => none) _ (reachable_foldl _ _ actions) .scopes rfl
  have hempty : (actions.foldl (Connection.next fun _ => none) .new).callbacks = [] := rfl
  have hcb := hout.callback
  rw [hempty] at hcb
  cases hcb

end Cxxrtl
