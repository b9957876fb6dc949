import Kahuna.Wave.Bijection

/-!
# Invariants of what is shown

What a display shows depends on the levels of the tree and on the focus, which the contents leave out. An
invariant of both has to hold of every canvas that undo and redo can restore. Messages that do neither
undo nor load change the waveform data, and a reload keeps the display as far as it can.

- `Display`: the tree, its items and the focus.
- `SystemState.Shows`: an invariant of all displays.
- `Shows.step`, `Session.shows_step`: what a message has to do to keep it.
-/

namespace Wave

open ItemTree Decoders

/-- The tree with its items, and the focus. -/
structure Display where
  tree : DisplayedItemTree
  items : FiniteMap DisplayedItemRef DisplayedItem
  focusedItem : Option ℕ

/-- The display of the waveform data. -/
def WaveData.display (w : WaveData) : Display where
  tree := w.itemsTree
  items := w.displayedItems
  focusedItem := w.focusedItem

/-- The display of a snapshot. -/
def CanvasState.display (c : CanvasState) : Display where
  tree := c.itemsTree
  items := c.displayedItems
  focusedItem := c.focusedItem

/-- What a reload has to do to a display to keep `P`. Loading without keeping the items and loading a state
are left out. -/
def Message.Reloads (P : Display → Prop) (w : WaveData) (m : Message) : Prop :=
  match m with
  | .wavesLoaded newWaves loadOptions =>
    loadOptions ≠ .clear ∧
      ∀ w', w.updateWithWaves newWaves (loadOptions = .keepAll) = .ok w' → P w'.display
  | .loadState _ => False
  | _ => True

namespace SystemState

variable {env : Env} {σ σ' : SystemState} {w w' : WaveData} {P : Display → Prop}

/-- Tree and items are in step, and the invariant holds of the display and of all snapshots. -/
structure Shows (P : Display → Prop) (σ : SystemState) (w : WaveData) : Prop where
  refsSound : σ.Holds Contents.RefsSound w
  display : P w.display
  snapshots : ∀ c ∈ σ.snapshots, P c.display

/-- A snapshot of the display is as good as the display. -/
theorem snapshots_of_changed (hdisplay : P w.display) (hsnap : ∀ c ∈ σ.snapshots, P c.display)
    (h : Changed σ w σ' w') : ∀ c ∈ σ'.snapshots, P c.display := by
  intro c hc
  rcases h.snapshots c hc with hold | ⟨message, rfl⟩
  · exact hsnap c hold
  · exact hdisplay

/-- Undo and redo keep an invariant of all displays. -/
theorem display_exchange (count : ℕ) {stack other : List CanvasState} (hdisplay : P w.display)
    (hstack : ∀ c ∈ stack, P c.display) (hother : ∀ c ∈ other, P c.display) :
    P (w.exchangeCanvas count stack other).1.display ∧
      (∀ c ∈ (w.exchangeCanvas count stack other).2.1, P c.display) ∧
      ∀ c ∈ (w.exchangeCanvas count stack other).2.2, P c.display := by
  rw [WaveData.exchangeCanvas_eq]
  exact @History.exchange_all _ _ WaveData.swapCanvas count w stack other (fun w => P w.display)
    (fun c => P c.display) (fun w c hw hc => ⟨hc, hw⟩) hdisplay hstack hother

/-- A message keeps an invariant of all displays, when the change of the waveform data does, and the reload
does. -/
theorem Shows.step {m : Message} (hinv : σ.Shows P w)
    (hchange : ∀ f w', m.change env σ = some f → f w = .ok w' → P w'.display)
    (hload : m.Reloads P w) (h : σ.update env m = .ok σ') : ∃ w', σ'.Shows P w' := by
  have hw := hinv.refsSound.waves
  -- the references are those of a session without transactions
  have hkeeps : Session.KeepsRefs ({ state := σ, transactions := none } : Session Unit) (.wave m) := by
    cases m with
    | wavesLoaded newWaves loadOptions =>
      cases loadOptions with
      | clear => exact absurd rfl hload.1
      | _ => trivial
    | loadState => exact hload.elim
    | _ => trivial
  obtain ⟨w', hrefs⟩ := Session.refsSound_update
    (s := ({ state := σ, transactions := none } : Session Unit)) hinv.refsSound hkeeps h
  suffices hall : ∀ w', σ'.user.waves = some w' → P w'.display ∧ ∀ c ∈ σ'.snapshots, P c.display from
    ⟨w', hrefs, (hall w' hrefs.waves).1, (hall w' hrefs.waves).2⟩
  clear hrefs hkeeps w'
  intro w' hw'
  cases hm : m.change env σ with
  | some f =>
    obtain ⟨w₁, hf, hchanged⟩ := change_of_update hm hw h
    obtain rfl : w₁ = w' := Option.some.inj (hchanged.waves.symm.trans hw')
    exact ⟨hchange f w₁ hm hf, snapshots_of_changed hinv.display hinv.snapshots hchanged⟩
  | none =>
    cases m with
    | undo count =>
      obtain ⟨hdisplay, hundo, hredo⟩ := display_exchange count hinv.display
        (fun c hc => hinv.snapshots c (List.mem_append_left _ hc))
        fun c hc => hinv.snapshots c (List.mem_append_right _ hc)
      simp only [update, undo, hw] at h
      cases h
      obtain rfl := Option.some.inj hw'
      exact ⟨hdisplay, fun c hc => (List.mem_append.1 hc).elim (hundo c) (hredo c)⟩
    | redo count =>
      obtain ⟨hdisplay, hredo, hundo⟩ := display_exchange count hinv.display
        (fun c hc => hinv.snapshots c (List.mem_append_right _ hc))
        fun c hc => hinv.snapshots c (List.mem_append_left _ hc)
      simp only [update, redo, hw] at h
      cases h
      obtain rfl := Option.some.inj hw'
      exact ⟨hdisplay, fun c hc => (List.mem_append.1 hc).elim (hundo c) (hredo c)⟩
    | wavesLoaded newWaves loadOptions =>
      simp only [update, onWavesLoaded, hw, if_neg hload.1, Except.bind_eq_ok] at h
      obtain ⟨w₁, hupdate, h⟩ := h
      cases h
      obtain rfl := Option.some.inj hw'
      exact ⟨hload.2 _ hupdate, hinv.snapshots⟩
    | loadState loaded => exact hload.elim
    | removeVisibleItems target => cases target <;> cases hm
    | _ => cases hm

end SystemState

namespace Session

variable {F : Type} {ftr : FtrParser F} {env : Env} {s s' : Session F} {w : WaveData} {P : Display → Prop}

/-- The same for a session: adding streams has to keep the invariant as well, and it has to hold of the
empty display that a file of streams starts with. -/
theorem shows_step {m : SessionMessage F} (hinv : s.state.Shows P w) (hkeeps : s.KeepsRefs m)
    (hwave : ∀ m', m = .wave m' → m'.Reloads P w ∧
      ∀ f w', m'.change env s.state = some f → f w = .ok w' → P w'.display)
    (hstreams : ∀ w', WaveData.InsertsStreams w w' → P w'.display)
    (hempty : P (WaveData.loaded noWaveform).display) (h : s.update ftr env m = .ok s') :
    ∃ w', s'.state.Shows P w' := by
  cases m with
  | wave m' =>
    obtain ⟨hload, hchange⟩ := hwave m' rfl
    rcases wave_eq_ok h with hsame | ⟨text, hsaved⟩ | hupdate
    · rw [hsame]
      exact ⟨w, hinv⟩
    · have hchanged : SystemState.Changed s.state w s'.state w := by
        rw [hsaved]
        exact ⟨by simpa using hinv.refsSound.waves, by simp,
          SystemState.saveCurrentCanvas_snapshots env text hinv.refsSound.waves⟩
      exact ⟨w, hinv.refsSound.of_changed (fun c n hc => hc.mono n) hchanged le_rfl hinv.refsSound.display,
        hinv.display, SystemState.snapshots_of_changed hinv.display hinv.snapshots hchanged⟩
    · exact hinv.step hchange hload hupdate
  | transactionStreamsLoaded newFtr =>
    cases h
    exact ⟨_, ⟨rfl, hinv.refsSound.previousWaves, refsSound_empty rfl rfl,
      refsSound_snapshots hinv.refsSound hkeeps⟩, hempty, hinv.snapshots⟩
  | _ =>
    obtain ⟨w', hchanged, hinserts⟩ := insertsStreams_of_update hinv.refsSound.waves h trivial
    exact ⟨w', hinv.refsSound.of_changed (fun c n hc => hc.mono n) hchanged hinserts.edited.counter_le
        (hinv.refsSound.display.edits hinserts.edited.edits),
      hstreams w' hinserts, SystemState.snapshots_of_changed hinv.display hinv.snapshots hchanged⟩

end Session

end Wave
