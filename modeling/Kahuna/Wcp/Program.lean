import Kahuna.ItemTree.Covering
import Kahuna.Wcp.Adding

/-!
# The program and its clients

The program gets messages of its own and messages of clients, in any order, and notes what it sends.

* `sound_of_reachable`: tree and item map stay in step, whoever changes them;
* `told_of_reachable`: no reference is told twice, as long as nothing is loaded that sets the counter back.
-/

namespace Wcp

open Wave ItemTree WaveData

/-- What the program is given. A message of its own may change the rest of the program in any way, and may come with
an event for the client. The server tells it when a client is gone. -/
inductive Input where
  | message (message : Message) (others : App) (event : Option WcpEvent)
  | client (message : WcpCSMessage)
  | disconnected

/-- The program, and what it has sent so far. -/
structure Program where
  app : App
  sent : List WcpSCMessage

/-- The references that a message of the server tells of added items. -/
def WcpSCMessage.toldIds : WcpSCMessage → List DisplayedItemRef
  | .response r => r.addedIds.getD []
  | _ => []

namespace Program

/-- The program with a waveform that was just loaded. -/
def start (others : App) (inner : WaveContainer) : Program :=
  { app := { others with state := SystemState.fresh inner }, sent := [] }

/-- A step of the program. -/
def next (env : Env) (p : Program) (input : Input) : Run Program :=
  match input with
  | .message message others event => do
    let app ← p.app.update env message
    return { app := { others with state := app.state }, sent := p.sent ++ event.toList.map .event }
  | .client message => do
    let (app, answer) ← p.app.handleWcpCsMessage env message
    return { app, sent := p.sent ++ answer.toList }
  | .disconnected => .ok { p with app := { p.app with wcpGreeted := false } }

/-- The references that clients have been told, in order. -/
def told (p : Program) : List DisplayedItemRef := p.sent.flatMap WcpSCMessage.toldIds

/-- The session of the program, without transactions. -/
def session (p : Program) : Session Unit := { state := p.app.state, transactions := none }

/-- What keeps references apart, which no client can break. -/
def KeepsRefs (p : Program) (input : Input) : Prop :=
  match input with
  | .message message _ _ => p.session.KeepsRefs (.wave message)
  | .client _ => True
  | .disconnected => True

/-- Nothing is loaded that sets the counter back. -/
def KeepsCounter (_ : Program) (input : Input) : Prop :=
  match input with
  | .message (.wavesLoaded _ .clear) _ _ => False
  | .message (.loadState _) _ _ => False
  | _ => True

end Program

/-! ## What a client changes -/

variable {env : Env} {app app' : App} {w : WaveData} {answer : Option WcpSCMessage}

/-- Any items may be added. -/
def addsAny : Effect where
  adds _ := True
  removes _ := False
  drops _ := False
  annotates := False

/-- A message changes the waveform data by edits. -/
def Edits (app app' : App) (w : WaveData) : Prop :=
  ∃ e w', SystemState.Changed app.state w app'.state w' ∧ Edited e w w'

/-- The waveform data stays what it is. -/
theorem edits_of_state_eq (hw : app.state.user.waves = some w) (h : app'.state = app.state) : Edits app app' w := by
  refine ⟨addsAny, w, ⟨?_, ?_, fun c hc => .inl ?_⟩, .refl⟩
  · rw [h, hw]
  · rw [h]
  · rwa [h] at hc

theorem state_modifyViewport {viewportIdx : ℕ} {f : View.Viewport → View.Viewport}
    (h : app.modifyViewport viewportIdx f = .ok app') : app'.state = app.state := by
  unfold App.modifyViewport at h
  split at h
  · cases h
  · cases h
    rfl

theorem state_onViewport {viewportIdx : ℕ} {f : View.Viewport → ℤ → View.Viewport}
    (h : app.onViewport viewportIdx f = .ok app') : app'.state = app.state := by
  unfold App.onViewport at h
  split at h
  · exact state_modifyViewport h
  · cases h
    rfl

theorem state_zoomToFit {viewportIdx : ℕ} (h : app.zoomToFit viewportIdx = .ok app') : app'.state = app.state := by
  unfold App.zoomToFit at h
  split at h
  · cases h
    rfl
  · exact state_modifyViewport h

theorem state_reloadWaveform : app.reloadWaveform.state = app.state := by
  unfold App.reloadWaveform
  split <;> rfl

theorem edits_edited (hw : app.state.user.waves = some w) {e : Effect} {text : String} {w' : WaveData}
    (h : Edited e w w') : Edits app (app.edited env text w') w := by
  refine ⟨e, w', ⟨rfl, ?_, SystemState.saveCurrentCanvas_snapshots env text hw⟩, h⟩
  show (app.state.saveCurrentCanvas env text).user.previousWaves = _
  rw [SystemState.saveCurrentCanvas_user]

/-- A message of the program that is no load. -/
theorem edits_update (hw : app.state.user.waves = some w) {m : Message} (h : app.update env m = .ok app')
    (hm : m.Ordinary) : Edits app app' w := by
  unfold App.update at h
  rw [Except.bind_eq_ok] at h
  obtain ⟨σ, hσ, h⟩ := h
  cases h
  obtain ⟨w', hchanged, hedited⟩ := SystemState.update_edited hm hw hσ
  exact ⟨_, w', hchanged, hedited⟩

theorem edits_cursorSet (hw : app.state.user.waves = some w) {time : ℤ} (h : app.cursorSet time = .ok app') :
    Edits app app' w := by
  unfold App.cursorSet at h
  rw [Except.bind_eq_ok] at h
  obtain ⟨σ, hσ, h⟩ := h
  cases h
  obtain ⟨w', hf, rfl⟩ := SystemState.onWaves_eq_ok hw hσ
  cases hf
  exact ⟨addsAny, _, ⟨rfl, rfl, fun c hc => .inl hc⟩, .of_perm rfl rfl rfl rfl (.refl _)⟩

theorem edits_itemColorChange (hw : app.state.user.waves = some w) {color : String} :
    Edits app (app.itemColorChange env color) w := by
  refine ⟨addsAny, w, ⟨?_, ?_, SystemState.saveCurrentCanvas_snapshots env _ hw⟩, .refl⟩
  · show (app.state.saveCurrentCanvas env _).user.waves = _
    rw [SystemState.saveCurrentCanvas_user, hw]
  · show (app.state.saveCurrentCanvas env _).user.previousWaves = _
    rw [SystemState.saveCurrentCanvas_user]

theorem edited_addMarkersLoop {markers : List MarkerInfo} {ids : Option (List DisplayedItemRef)} {w' : WaveData}
    (h : addMarkersLoop markers w = .ok (ids, w')) : Edited addsAny w w' := by
  induction markers generalizing w ids with
  | nil =>
    cases h
    exact .refl
  | cons marker rest ih =>
    simp only [addMarkersLoop, Except.bind_eq_ok] at h
    obtain ⟨⟨id, w₁⟩, hadd, h⟩ := h
    have hmarker : w.addMarker marker.time marker.name marker.moveFocus = .ok w₁ := by
      rw [addMarker_eq, hadd]
      rfl
    have hfirst : Edited addsAny w w₁ := edited_addMarker hmarker fun _ _ => trivial
    split at h
    · cases h
      exact hfirst
    · rw [Except.bind_eq_ok] at h
      obtain ⟨⟨ids', w₂⟩, hrest, h⟩ := h
      cases h
      exact hfirst.trans (ih hrest)

/-- Variables are added by edits. -/
theorem edits_addVariables (hw : app.state.user.waves = some w) {text error message : String}
    {refs : WaveData → List VariableRef} {ignoreFailures : Bool} {response : List DisplayedItemRef → WcpResponse}
    (h : app.addVariables env text error message refs ignoreFailures response = .ok (app', answer)) :
    Edits app app' w := by
  rcases App.edit_eq_ok h with ⟨hnone, -, -⟩ | ⟨w₁, w', a, hw₁, hf, rfl, -⟩
  · rw [hw] at hnone
    cases hnone
  · obtain rfl : w = w₁ := Option.some.inj (hw.symm.trans hw₁)
    rw [Except.bind_eq_ok] at hf
    obtain ⟨⟨ids, w₂⟩, hadd, hf⟩ := hf
    cases hf
    exact edits_edited hw (edited_addVariables (e := addsAny) hadd fun _ _ => trivial)

/-- A command that is acknowledged after a change. -/
theorem edits_of_ack {x : Run App} (h : (do let app ← x; return app.sendResponse .ack : Run Handled) = .ok (app', answer))
    (hx : x = .ok app' → Edits app app' w) : Edits app app' w := by
  rw [Except.bind_eq_ok] at h
  obtain ⟨app₁, happ₁, h⟩ := h
  cases h
  exact hx happ₁

theorem edits_of_command (hw : app.state.user.waves = some w) {command : WcpCommand}
    (h : app.handleCommand env command = .ok (app', answer)) : Edits app app' w := by
  -- most commands change no waveform data at all
  have hsame : app' = app → Edits app app' w := fun heq => edits_of_state_eq hw (congrArg App.state heq)
  cases command with
  | addVariables names => exact edits_addVariables hw h
  | addScope scope recursive => exact edits_addVariables hw h
  | addItems items recursive => exact edits_addVariables hw h
  | addMarkers markers =>
    rcases App.addMarkers_eq_ok h with ⟨hnone, -, -⟩ | ⟨w₁, w', ids, hw₁, hloop, rfl, -⟩
    · rw [hw] at hnone
      cases hnone
    · obtain rfl : w = w₁ := Option.some.inj (hw.symm.trans hw₁)
      exact edits_edited hw (edited_addMarkersLoop hloop)
  | setViewportTo timestamp => exact edits_of_ack h fun h => edits_of_state_eq hw (state_onViewport h)
  | setViewportRange start stop => exact edits_of_ack h fun h => edits_of_state_eq hw (state_onViewport h)
  | zoomToFit viewportIdx => exact edits_of_ack h fun h => edits_of_state_eq hw (state_zoomToFit h)
  | setCursor timestamp => exact edits_of_ack h fun h => edits_cursorSet hw h
  | reload =>
    cases h
    exact edits_of_state_eq hw state_reloadWaveform
  | removeItems ids =>
    simp only [App.handleCommand, hw] at h
    exact edits_of_ack h fun h => edits_update hw h trivial
  | clear =>
    simp only [App.handleCommand, hw] at h
    exact edits_of_ack h fun h => edits_update hw h trivial
  | focusItem id =>
    simp only [App.handleCommand, hw] at h
    split at h
    · exact edits_of_ack h fun h => edits_update hw h trivial
    · cases h
      exact hsame rfl
  | setItemColor id color =>
    simp only [App.handleCommand, hw] at h
    split at h
    · cases h
      exact edits_itemColorChange hw
    · cases h
      exact hsame rfl
  | getItemList =>
    simp only [App.handleCommand, hw] at h
    cases h
    exact hsame rfl
  | getItemInfo ids =>
    simp only [App.handleCommand, hw] at h
    split at h
    · cases h
      exact hsame rfl
    · cases h
      exact hsame rfl
  | load source =>
    simp only [App.handleCommand] at h
    split at h
    · cases h
      exact edits_of_state_eq hw rfl
    · cases h
      exact edits_of_state_eq hw rfl
    · cases h
      exact hsame rfl
  | shutdown =>
    cases h
    exact hsame rfl

/-- A client changes the waveform data by edits only. -/
theorem edits_of_client (hw : app.state.user.waves = some w) {message : WcpCSMessage}
    (h : app.handleWcpCsMessage env message = .ok (app', answer)) : Edits app app' w := by
  cases message with
  | greeting version commands =>
    simp only [App.handleWcpCsMessage, App.handleGreeting] at h
    split at h
    · cases h
      exact edits_of_state_eq hw rfl
    · cases h
      exact edits_of_state_eq hw rfl
  | command command =>
    simp only [App.handleWcpCsMessage] at h
    split at h
    · exact edits_of_command hw h
    · cases h
      exact edits_of_state_eq hw rfl

/-! ## Runs -/

namespace Program

variable {others : App} {inner : WaveContainer} {p p' : Program} {input : Input}

/-- What keeps an invariant of all canvases that edits keep. -/
theorem holds_of_client {I : Contents → Prop} (hmono : ∀ c n, I c → c.counter ≤ n → I { c with counter := n })
    (hedit : ∀ e c c', I c → Edit e c c' → I c') {app app' : App} {w : WaveData} (h : app.state.Holds I w)
    (hedits : Edits app app' w) : ∃ w', app'.state.Holds I w' := by
  obtain ⟨e, w', hchanged, hedited⟩ := hedits
  refine ⟨w', h.of_changed hmono hchanged hedited.counter_le ?_⟩
  have hall : ∀ c, Relation.ReflTransGen (Edit e) w.contents c → I c := by
    intro c hc
    induction hc with
    | refl => exact h.display
    | tail _ hstep ih => exact hedit _ _ _ ih hstep
  exact hall _ hedited.edits

/-- The steps of the program. -/
theorem next_message {message : Message} {event : Option WcpEvent} {others : App}
    (h : p.next env (.message message others event) = .ok p') : ∃ σ, p.app.state.update env message = .ok σ ∧
      p'.app.state = σ ∧ p'.sent = p.sent ++ event.toList.map .event := by
  simp only [next, Except.bind_eq_ok] at h
  obtain ⟨app, happ, h⟩ := h
  cases h
  simp only [App.update, Except.bind_eq_ok] at happ
  obtain ⟨σ, hσ, happ⟩ := happ
  cases happ
  exact ⟨σ, hσ, rfl, rfl⟩

theorem next_client {message : WcpCSMessage} (h : p.next env (.client message) = .ok p') :
    ∃ answer, p.app.handleWcpCsMessage env message = .ok (p'.app, answer) ∧ p'.sent = p.sent ++ answer.toList := by
  simp only [next, Except.bind_eq_ok] at h
  obtain ⟨⟨app, answer⟩, hhandle, h⟩ := h
  cases h
  exact ⟨answer, hhandle, rfl⟩

/-- Tree and item map stay in step. -/
theorem sound_step (hinv : ∃ w, p.app.state.Holds Contents.RefsSound w) (hinput : p.KeepsRefs input)
    (h : p.next env input = .ok p') : ∃ w, p'.app.state.Holds Contents.RefsSound w := by
  obtain ⟨w, hinv⟩ := hinv
  cases input with
  | message message others event =>
    obtain ⟨σ, hσ, rfl, -⟩ := next_message h
    exact Session.refsSound_update (s := p.session) hinv hinput hσ
  | client message =>
    obtain ⟨answer, hhandle, -⟩ := next_client h
    exact holds_of_client (fun c n hc => hc.mono n) (fun _ _ _ hc hedit => hc.edit hedit) hinv
      (edits_of_client hinv.waves hhandle)
  | disconnected =>
    cases h
    exact ⟨w, hinv⟩

theorem sound_of_reachable (h : Transition.Reachable (next env) KeepsRefs (start others inner) p) :
    ∃ w, p.app.state.Holds Contents.RefsSound w := by
  refine h.invariant ⟨_, rfl, rfl, Session.refsSound_empty rfl rfl, ?_⟩ fun _ _ _ => sound_step
  intro c hc
  cases hc

/-! ### References that are told -/

/-- The references that were told are in order, and the counter has reached them. -/
structure ToldInOrder (p : Program) (w : WaveData) : Prop where
  holds : p.app.state.Holds (fun c => ∀ k ∈ p.told, k ≤ c.counter) w
  increasing : p.told.Pairwise (· < ·)

theorem told_append {sent : List WcpSCMessage} (h : p'.sent = p.sent ++ sent) :
    p'.told = p.told ++ sent.flatMap WcpSCMessage.toldIds := by
  rw [told, h, List.flatMap_append, told]

/-- An answer tells of no added items, or of those that were added just now. -/
theorem told_of_client {app app' : App} {message : WcpCSMessage} {answer : Option WcpSCMessage}
    (h : app.handleWcpCsMessage env message = .ok (app', answer)) :
    answer.toList.flatMap WcpSCMessage.toldIds = [] ∨
      ∃ w w' contents, app.state.user.waves = some w ∧ app'.state.user.waves = some w' ∧
        AddedInOrder w (answer.toList.flatMap WcpSCMessage.toldIds) contents w' := by
  match answer with
  | some (.response r) =>
    cases hids : r.addedIds with
    | none => exact .inl (by simp [WcpSCMessage.toldIds, hids])
    | some ids =>
      obtain ⟨command, -, -, hcommand⟩ := exists_command_of_addedIds h
      obtain ⟨w, w', contents, hw, hw', hadded, -⟩ := addedInOrder_of_handleCommand hcommand hids
      refine .inr ⟨w, w', contents, hw, hw', ?_⟩
      simpa [WcpSCMessage.toldIds, hids] using hadded
  | none => exact .inl rfl
  | some (.greeting version commands) => exact .inl rfl
  | some (.error e args m) => exact .inl rfl
  | some (.event event) => exact .inl rfl

/-- The counter does not go back. -/
theorem told_message {w : WaveData} {message : Message} {σ σ' : SystemState} {ids : List DisplayedItemRef}
    (hinv : σ.Holds (fun c => ∀ k ∈ ids, k ≤ c.counter) w) (hclear : ∀ newWaves, message ≠ .wavesLoaded newWaves .clear)
    (hstate : ∀ loaded, message ≠ .loadState loaded) (h : σ.update env message = .ok σ') :
    ∃ w', σ'.Holds (fun c => ∀ k ∈ ids, k ≤ c.counter) w' := by
  -- edits only raise the counter, an undo keeps it, and a reload that keeps items takes it over
  refine hinv.step (fun c n hc hn k hk => (hc k hk).trans hn) ?_ ?_ ?_ h
  · intro e c' _ _ _ hedits
    have hall : ∀ c, Relation.ReflTransGen (Edit e) w.contents c → ∀ k ∈ ids, k ≤ c.counter := by
      intro c hc
      induction hc with
      | refl => exact hinv.display
      | tail _ hstep ih => exact fun k hk => (ih k hk).trans hstep.counter_le
    exact hall c' hedits
  · intro c' hc' _ k hk
    rw [hc'.counter]
    exact hinv.display k hk
  · intro c' hc'
    cases message with
    | wavesLoaded newWaves loadOptions =>
      have hrevalued : w.contents.Revalued c' := by
        cases loadOptions with
        | clear => exact absurd rfl (hclear newWaves)
        | keepAvailable | keepAll => exact hc'.1
      have hcounter : ∀ k ∈ ids, k ≤ c'.counter := by
        rw [hrevalued.counter]
        exact hinv.display
      exact ⟨hcounter, fun _ _ => hcounter⟩
    | loadState loaded => exact absurd rfl (hstate loaded)
    | _ => exact hc'.elim

theorem told_step (hinv : ∃ w, p.ToldInOrder w) (hinput : p.KeepsCounter input) (h : p.next env input = .ok p') :
    ∃ w, p'.ToldInOrder w := by
  obtain ⟨w, hinv⟩ := hinv
  cases input with
  | message message others event =>
    obtain ⟨σ, hσ, rfl, hsent⟩ := next_message h
    have htold : p'.told = p.told := by
      rw [told_append hsent]
      cases event <;> simp [WcpSCMessage.toldIds]
    obtain ⟨w', hw'⟩ := told_message hinv.holds (by rintro newWaves rfl; exact hinput)
      (by rintro loaded rfl; exact hinput) hσ
    exact ⟨w', by rw [htold]; exact hw', by rw [htold]; exact hinv.increasing⟩
  | client message =>
    obtain ⟨answer, hhandle, hsent⟩ := next_client h
    obtain ⟨w', hw'⟩ := holds_of_client (fun c n hc hn k hk => (hc k hk).trans hn)
      (fun _ _ _ hc hedit k hk => (hc k hk).trans hedit.counter_le) hinv.holds (edits_of_client hinv.holds.waves hhandle)
    rcases told_of_client hhandle with hnone | ⟨w₁, w₂, contents, hw₁, hw₂, hadded⟩
    · have htold : p'.told = p.told := by rw [told_append hsent, hnone, List.append_nil]
      exact ⟨w', by rw [htold]; exact hw', by rw [htold]; exact hinv.increasing⟩
    · obtain rfl : w = w₁ := Option.some.inj (hinv.holds.waves.symm.trans hw₁)
      obtain rfl : w' = w₂ := Option.some.inj (hw'.waves.symm.trans hw₂)
      -- what is told now is between the two counters
      have hnew : ∀ k : ℕ, k ∈ answer.toList.flatMap WcpSCMessage.toldIds →
          w.displayItemRefCounter < k ∧ k ≤ w'.displayItemRefCounter := by
        intro k hk
        rw [hadded.ids_eq, List.mem_range'_1] at hk
        have hcounter := hadded.counter
        omega
      have hle : ∀ k ∈ p'.told, k ≤ w'.displayItemRefCounter := by
        rw [told_append hsent]
        exact List.forall_mem_append.2 ⟨hw'.display, fun k hk => (hnew k hk).2⟩
      refine ⟨w', ⟨hw'.waves, hw'.previousWaves, hle, fun _ _ => hle⟩, ?_⟩
      rw [told_append hsent, List.pairwise_append]
      refine ⟨hinv.increasing, ?_, fun a ha b hb => (hinv.holds.display a ha).trans_lt (hnew b hb).1⟩
      rw [hadded.ids_eq]
      exact List.pairwise_lt_range'
  | disconnected =>
    cases h
    exact ⟨w, hinv.holds, hinv.increasing⟩

theorem toldInOrder_of_reachable (h : Transition.Reachable (next env) KeepsCounter (start others inner) p) :
    ∃ w, p.ToldInOrder w := by
  refine h.invariant (I := fun p => ∃ w, p.ToldInOrder w) ⟨_, ⟨rfl, rfl, ?_, ?_⟩, .nil⟩ fun _ _ _ => told_step
  · intro k hk
    cases hk
  · intro c hc
    cases hc

end Program

end Wcp
