import Kahuna.Cxxrtl.Connection
import Kahuna.Cxxrtl.Packing
import Kahuna.FiniteMap.Keys
import Kahuna.Pipeline.Basic

/-!
# The variables of a sample

The client and the server each hold the list of the items that the samples are made of. The list of the
client changes when variables are loaded, that of the server when it accepts the list of the client. A
reply with samples is unpacked with the list that the client had when it sent the query.

- `Attributed`: the client has sent what leads from the list that the server was last asked to hold to its
  own, so that a query is answered when that list is the one it was sent with.
- `populate_attributed`: when the server holds the list that it was last asked to hold, each variable gets
  the bits of its own item.
-/

namespace Cxxrtl

open Wave (VariableRef VariableValue)
open Connection CxxrtlContainer Transition Pipeline

/-! ## Unpacking a sample -/

/-- Each variable of a sample gets the words of its own item. -/
theorem fillVariableValues_eq_ok (decode : String → Option (List UInt8)) {task : FillTask}
    {sample : CxxrtlSample} {items : Items} (bits : List String → List UInt8)
    (hitems : referencedItems task.vars = items)
    (hdecode : decode sample.itemValues = some (items.flatMap bits))
    (hbits : ∀ v ∈ task.vars, ∃ item, task.itemInfo.get (variableKey v) = some item ∧
      (bits [variableRepr v]).length = item.sizeU32.toNat * 4)
    (hfits : (items.flatMap bits).length < 2 ^ 32) :
    ∃ values, task.fillVariableValues decode sample = .ok (sample.time.asFemtoseconds, values) ∧
      ∀ v ∈ task.vars, values.get (variableKey v) = some (.bigUint (fromBytesLe (bits [variableRepr v]))) := by
  let entry (v : VariableRef) : VariableRef × List UInt8 := (v, bits [variableRepr v])
  have hflat : items.flatMap bits = (task.vars.map entry).flatMap Prod.snd := by
    rw [← hitems, referencedItems, List.flatMap_map, List.flatMap_map]
  have hvars : (task.vars.map entry).map Prod.fst = task.vars := by
    rw [List.map_map]
    exact List.map_id _
  rw [hflat] at hdecode hfits
  obtain ⟨hoffsets, hvalues⟩ := mapM_variableValue (task.vars.map entry) 0 [] rfl
    (by simpa [entry] using hbits) hfits
  let value (k : VariableKey) : VariableValue := .bigUint (fromBytesLe (bits [keyRepr k]))
  have hread : ((task.vars.map entry).map fun e =>
      (variableKey e.1, VariableValue.bigUint (fromBytesLe e.2))) =
        (task.vars.map variableKey).map fun k => (k, value k) := by
    rw [List.map_map, List.map_map]
    rfl
  rw [List.nil_append, hvars, hread] at hvalues
  rw [hvars] at hoffsets
  refine ⟨((task.vars.map variableKey).map fun k => (k, value k)).foldl
    (fun m e => m.insert e.1 e.2) FiniteMap.empty, ?_, ?_⟩
  · refine Except.bind_eq_ok.2 ⟨_, hoffsets, Except.bind_eq_ok.2 ⟨_, ?_, rfl⟩⟩
    unfold sampleValues
    rw [hdecode]
    exact Except.bind_eq_ok.2 ⟨_, hvalues, rfl⟩
  · intro v hv
    rw [FiniteMap.get_foldl_insert, if_pos (List.mem_map_of_mem hv)]
    rfl

/-! ## The lists of the parties -/

/-- An answer on its way: the items that the server held when it gave the answer, and those that it was
last asked to hold before. -/
structure Delivery where
  command : CxxrtlCommand
  held : Items
  asked : Items

/-- What an observer of the server notes. -/
structure Ledger where
  /-- The items that the server was last asked to hold. -/
  asked : Items
  /-- The answers on their way to the client. -/
  deliveries : List Delivery

namespace Ledger

/-- Nothing was asked yet. -/
def new : Ledger := { asked := [], deliveries := [] }

/-- The items that are asked for last, after a command. -/
def askedAfter (asked : Items) : CxxrtlCommand → Items
  | .referenceItems _ items => items
  | _ => asked

/-- What the observer notes of a step. -/
def note (g : Ledger) (s : Connection) (a : Action) (_ : Connection) : Ledger :=
  match a with
  | .answer _ =>
    match s.container.sending.csMessages.head? with
    | some (.command command) =>
      { asked := askedAfter g.asked command
        deliveries := g.deliveries ++ [{ command, held := s.held, asked := g.asked }] }
    | _ => g
  | .receive =>
    match s.container.taken with
    | .reply _ _ => { g with deliveries := g.deliveries.tail }
    | _ => g
  | _ => g

end Ledger

/-- The list of variables that a callback will unpack samples with stands for these items. -/
def Callback.Captures (cb : Callback) (items : Items) : Prop :=
  match cb with
  | .queryInterval _ loadedSignals _ => referencedItems loadedSignals = items
  | _ => True

/-- A query is answered with samples only when the server holds the items that it was last asked to hold. -/
def Delivery.Sound (d : Delivery) (reply : Except String CommandResponse) : Prop :=
  match d.command, reply with
  | .queryInterval _ _ _ _ _, .ok (.queryInterval _) => d.held = d.asked
  | _, _ => True

/-- The server gives samples only while it holds the items that it was last asked to hold. -/
def Ledger.Sound (s : Connection × Ledger) (a : Action) : Prop :=
  match a, s.1.container.sending.csMessages.head? with
  | .answer reply, some (.command command) =>
    Delivery.Sound { command, held := s.1.held, asked := s.2.asked } reply
  | _, _ => True

/-- What the client has sent leads from the items that the server was last asked to hold to its own. -/
structure Attributed (s : Connection) (g : Ledger) : Prop where
  pairs : ∃ answered unanswered, s.callbacks = answered ++ unanswered ∧
    List.Forall₂ (fun cb d => cb.Sent d.command ∧ cb.Captures d.asked) answered g.deliveries ∧
    List.Forall₂ Callback.Sent unanswered s.commands ∧
    InStep (fun items e => Ledger.askedAfter items e.2) (fun items e => Callback.Captures e.1 items)
      g.asked (unanswered.zip s.commands) (referencedItems s.container.data.loadedSignals)
  sound : List.Forall₂ Delivery.Sound g.deliveries s.replies

/-- Each command is sent with the list of the client, or changes it. -/
theorem CxxrtlContainer.Send.exists_captures {c c' : CxxrtlContainer} {cb : Callback} (h : Send c cb c') :
    ∃ data command, c' = c.send data command cb ∧ cb.Sent command ∧
      cb.Captures (referencedItems c.data.loadedSignals) ∧
      referencedItems data.loadedSignals =
        Ledger.askedAfter (referencedItems c.data.loadedSignals) command := by
  match h with
  | .listScopes _ => exact ⟨_, _, rfl, .listScopes, trivial, rfl⟩
  | .listItems _ => exact ⟨_, _, rfl, .listItems, trivial, rfl⟩
  | .listItemsIn scope _ => exact ⟨_, _, rfl, .listItemsIn scope, trivial, rfl⟩
  | .getSimulationStatus _ => exact ⟨_, _, rfl, .getSimulationStatus, trivial, rfl⟩
  | .queryInterval _ _ _ => exact ⟨_, _, rfl, .queryInterval _ _ _, rfl, rfl⟩
  | .referenceItems _ => exact ⟨_, _, rfl, .referenceItems _, trivial, rfl⟩
  | .runSimulation untilTime => exact ⟨_, _, rfl, .runSimulation untilTime, trivial, rfl⟩
  | .pauseSimulation => exact ⟨_, _, rfl, .pauseSimulation, trivial, rfl⟩

/-- No answer changes the list of the client. -/
theorem Callback.take_loadedSignals (cb : Callback) (reply : Except String CommandResponse)
    (data : CxxrtlData) : (cb.take reply data).loadedSignals = data.loadedSignals := by
  match reply with
  | .error _ => rfl
  | .ok response =>
    match cb with
    | .referenceItems | .runSimulation => rfl
    | .listScopes | .listItems | .listItemsIn _ | .queryInterval _ _ _ | .getSimulationStatus
    | .pauseSimulation =>
      simp only [Callback.take, Callback.call]
      split <;> rfl

namespace Attributed

variable {s s' : Connection} {g : Ledger}

theorem new : Attributed .new .new := ⟨⟨[], [], rfl, .nil, .nil, .nil _⟩, .nil⟩

theorem unmoved (h : Attributed s g) (hs : Unmoved s s') : Attributed s' g := by
  obtain ⟨answered, unanswered, hqueue, hanswered, hsent, hstep⟩ := h.pairs
  refine ⟨⟨answered, unanswered, hs.callbacks.trans hqueue, hanswered, ?_, ?_⟩, ?_⟩
  · exact hs.commands ▸ hsent
  · rw [hs.commands, hs.data]
    exact hstep
  · exact hs.replies ▸ h.sound

theorem send (h : Attributed s g) {cb : Callback} {c : CxxrtlContainer} (hc : Send s.container cb c) :
    Attributed { s with container := c } g := by
  obtain ⟨answered, unanswered, hqueue, hanswered, hsent, hstep⟩ := h.pairs
  obtain ⟨data, command, rfl, hcb, hcaptures, hloaded⟩ := hc.exists_captures
  have hcommands : Connection.commands { s with container := s.container.send data command cb } =
      s.commands ++ [command] := by
    show List.filterMap command? (s.container.sending.csMessages ++ [.command command]) = _
    rw [List.filterMap_append]
    rfl
  refine ⟨⟨answered, unanswered ++ [cb], ?_, hanswered, ?_, ?_⟩, h.sound⟩
  · show s.callbacks ++ [cb] = _
    rw [hqueue, List.append_assoc]
  · rw [hcommands]
    exact List.rel_append hsent (.cons hcb .nil)
  · show InStep _ _ _ _ (referencedItems data.loadedSignals)
    rw [hcommands, hloaded, List.zip_append hsent.length_eq]
    exact hstep.send (k := (cb, command)) hcaptures

theorem receive (h : Attributed s g) (hpaired : Paired s) (s'' : Connection) :
    Attributed { s with container := s.container.receive } (g.note s .receive s'') := by
  match hpaired.received with
  | .nothing htaken hs =>
    rw [Ledger.note, htaken]
    exact h.unmoved hs
  | .event htaken hs =>
    rw [Ledger.note, htaken]
    refine unmoved ?_ hs
    exact ⟨h.pairs, h.sound⟩
  | .reply htaken hqueue hreplies hcommands hdata =>
    rw [Ledger.note, htaken]
    obtain ⟨answered, unanswered, hsplit, hanswered, hsent, hstep⟩ := h.pairs
    have hsound := h.sound
    rw [hreplies] at hsound
    obtain ⟨d, deliveries, -, hrest, hdeliveries⟩ := List.forall₂_cons_right_iff.1 hsound
    rw [hdeliveries] at hanswered ⊢
    obtain ⟨cb', answered', -, hanswered', rfl⟩ := List.forall₂_cons_right_iff.1 hanswered
    rw [hqueue, List.cons_append, List.cons.injEq] at hsplit
    refine ⟨⟨answered', unanswered, hsplit.2, hanswered', hcommands ▸ hsent, ?_⟩, hrest⟩
    rw [hdata, Callback.take_loadedSignals, hcommands]
    exact hstep

theorem answer (h : Attributed s g) {reply : Except String CommandResponse} (s'' : Connection)
    (hsound : ∀ command, s.container.sending.csMessages.head? = some (.command command) →
      Delivery.Sound { command, held := s.held, asked := g.asked } reply) :
    Attributed (s.answer reply) (g.note s (.answer reply) s'') := by
  rcases s.answer_cases reply with ⟨command, hcommand, hs⟩ | ⟨hcommand, hs⟩
  · obtain ⟨answered, unanswered, hqueue, hanswered, hsent, hstep⟩ := h.pairs
    rw [Ledger.note, hcommand]
    rw [hs.commands] at hsent hstep
    obtain ⟨cb, rest, hcb, hrest, rfl⟩ := List.forall₂_cons_right_iff.1 hsent
    -- the server takes the oldest command, in the state in which it was sent
    obtain ⟨hcaptures, hstep⟩ := hstep.deliver
    refine ⟨⟨answered ++ [cb], rest, ?_, List.rel_append hanswered (.cons ⟨hcb, hcaptures⟩ .nil), hrest, ?_⟩, ?_⟩
    · rw [hs.callbacks, hqueue, List.append_assoc, List.singleton_append]
    · rw [hs.data]
      exact hstep
    · rw [hs.replies]
      exact List.rel_append h.sound (.cons (hsound command hcommand) .nil)
  · have hnote : g.note s (.answer reply) s'' = g := by
      show (match s.container.sending.csMessages.head? with | some (.command command) => _ | _ => g) = g
      split
      next command heq => exact absurd heq (hcommand command)
      next => rfl
    rw [hnote]
    exact h.unmoved hs

/-- A step keeps the lists of the parties in step, when the server is sound. -/
theorem next (h : Attributed s g) (hpaired : Paired s) (decode : String → Option (List UInt8)) (a : Action)
    (s'' : Connection) (hsound : Ledger.Sound (s, g) a) :
    Attributed (s.next decode a) (g.note s a s'') := by
  match a with
  | .call call =>
    exact call.keeps (I := fun c => Attributed { s with container := c } g) h
      fun c cb c' hc _ hsend => hc.send hsend
  | .receive => exact h.receive hpaired s''
  | .work _ _ => exact ⟨h.pairs, h.sound⟩
  | .answer reply =>
    refine h.answer s'' fun command hcommand => ?_
    simpa only [Ledger.Sound, hcommand] using hsound
  | .tell msg => exact h.unmoved (s.tell_unmoved msg)

end Attributed

/-- In every run in which the server gives samples only while it holds the items that it was last asked to
hold, the samples of a reply are unpacked with the items that the server held, and each variable gets the
words of its own item. -/
theorem populate_attributed {decode : String → Option (List UInt8)} {s : Connection} {g : Ledger}
    (h : Reachable (observed (Connection.step decode) Ledger.note) Ledger.Sound (.new, .new) (s, g))
    {maxTimestamp : CxxrtlTimestamp} {loadedSignals : List VariableRef} {info : ItemMap}
    {samples : List CxxrtlSample}
    (htaken : s.container.taken =
      .reply (.queryInterval maxTimestamp loadedSignals info) (.ok (.queryInterval samples))) :
    ∃ d task, g.deliveries.head? = some d ∧
      s.container.receive.data.intervalQueryCache.tasks =
        s.container.data.intervalQueryCache.tasks ++ [task] ∧
      task.data = samples ∧ task.itemInfo = info ∧ referencedItems task.vars = d.held ∧
      ∀ (bits : List String → List UInt8), ∀ sample ∈ samples,
        decode sample.itemValues = some (d.held.flatMap bits) →
        (∀ v ∈ task.vars, ∃ item, info.get (variableKey v) = some item ∧
          (bits [variableRepr v]).length = item.sizeU32.toNat * 4) →
        (d.held.flatMap bits).length < 2 ^ 32 →
        ∃ values, task.fillVariableValues decode sample = .ok (sample.time.asFemtoseconds, values) ∧
          ∀ v ∈ task.vars,
            values.get (variableKey v) = some (.bigUint (fromBytesLe (bits [variableRepr v]))) := by
  have hinv : Paired s ∧ Attributed s g := by
    refine h.invariant_observed Paired.new ?_ Attributed.new ?_
    · intro s a s' hs hstep
      obtain rfl := Except.ok.inj hstep
      exact hs.next decode a
    · intro s g a s' hs hg ha hstep
      obtain rfl := Except.ok.inj hstep
      exact hg.next hs decode a _ ha
  obtain ⟨hpaired, hattributed⟩ := hinv
  have hreceived := hpaired.received
  generalize hs' : s.container.receive = c' at hreceived
  match hreceived with
  | .nothing hnothing _ => exact absurd (htaken.symm.trans hnothing) (by simp)
  | .event hevent _ => exact absurd (htaken.symm.trans hevent) (by simp)
  | .reply hreply hqueue hreplies _ hdata =>
    obtain ⟨rfl, rfl⟩ := Taken.reply.inj (hreply.symm.trans htaken)
    obtain ⟨answered, unanswered, hsplit, hanswered, -, -⟩ := hattributed.pairs
    have hsound := hattributed.sound
    rw [hreplies] at hsound
    obtain ⟨d, deliveries, hd, -, hdeliveries⟩ := List.forall₂_cons_right_iff.1 hsound
    rw [hdeliveries] at hanswered
    obtain ⟨cb, answered', ⟨hsent, hcaptures⟩, -, rfl⟩ := List.forall₂_cons_right_iff.1 hanswered
    rw [hqueue, List.cons_append, List.cons.injEq] at hsplit
    obtain ⟨rfl, -⟩ := hsplit
    have hheld : referencedItems loadedSignals = d.held := by
      obtain ⟨command, held, asked⟩ := d
      cases hsent with
      | queryInterval _ _ _ =>
        have hsame : held = asked := hd
        exact hsame ▸ hcaptures
    refine ⟨d, { vars := loadedSignals, itemInfo := info, data := samples, panicked := false },
      by rw [hdeliveries]; rfl, ?_, rfl, rfl, hheld, ?_⟩
    · show c'.data.intervalQueryCache.tasks = _
      rw [hdata]
      rfl
    · intro bits sample _ hdecode hbits hfits
      exact fillVariableValues_eq_ok decode bits hheld hdecode hbits hfits

/-- The value of the clock is unpacked from the words of the clock. -/
theorem populate_attributed_clk :
    ∃ (d : Delivery) (task : FillTask) (values : ValueMap),
      ((queryRun [] { time := .zero, itemValues := "BwAAAA==" }).foldl
        (observedNext (fun _ => some [7, 0, 0, 0]) Ledger.note) (.new, .new)).2.deliveries.head? = some d ∧
      referencedItems task.vars = d.held ∧
      task.fillVariableValues (fun _ => some [7, 0, 0, 0]) { time := .zero, itemValues := "BwAAAA==" } =
        .ok (0, values) ∧
      values.get (["top"], "clk") = some (.bigUint 7) := by
  have hsound : AllowedRun (observedNext (fun _ => some [7, 0, 0, 0]) Ledger.note) Ledger.Sound (.new, .new)
      (queryRun [] { time := .zero, itemValues := "BwAAAA==" }) :=
    ⟨trivial, trivial, trivial, trivial, trivial, trivial, trivial, trivial, trivial, trivial, trivial,
      trivial, rfl, trivial⟩
  obtain ⟨d, task, hd, htasks, hdata, hinfo, hheld, hbits⟩ :=
    populate_attributed (reachable_of_allowedRun hsound) rfl
  obtain rfl := Option.some.inj hd
  obtain rfl := (List.singleton_inj.1 htasks).symm
  obtain ⟨values, hfill, hvalues⟩ := hbits (fun _ => [7, 0, 0, 0]) _ (List.mem_singleton_self _) rfl
    (by decide) (by decide)
  exact ⟨_, _, values, hd, hheld, hfill, hvalues (topSignal "clk") (List.mem_singleton_self _)⟩

/-- A second variable is loaded, and the server refuses to hold it. The samples of the first one are
unpacked as those of both. -/
theorem populate_with_refused_items :
    ¬ ∀ (decode : String → Option (List UInt8)) (s : Connection) (g : Ledger),
      Reachable (observed (Connection.step decode) Ledger.note) (fun _ _ => True) (.new, .new) (s, g) →
      ∀ maxTimestamp loadedSignals info samples,
        s.container.taken =
          .reply (.queryInterval maxTimestamp loadedSignals info) (.ok (.queryInterval samples)) →
        ∃ d task, g.deliveries.head? = some d ∧
          s.container.receive.data.intervalQueryCache.tasks =
            s.container.data.intervalQueryCache.tasks ++ [task] ∧
          referencedItems task.vars = d.held := by
  intro hall
  let refused : List Action :=
    [.call (.loadVariables [topSignal "rst"]), .answer (.error "unknown item"), .receive]
  obtain ⟨d, task, hd, htasks, hheld⟩ := hall (fun _ => none) _ _
    (reachable_of_allowedRun
      (allowedRun_true _ _ (queryRun refused { time := .zero, itemValues := "BwAAAA==" }))) _ _ _ _ rfl
  obtain rfl := Option.some.inj hd
  obtain rfl := (List.singleton_inj.1 htasks).symm
  exact absurd (congrArg List.length hheld) (by decide)

end Cxxrtl
