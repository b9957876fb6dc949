import Kahuna.Wave.Effects
import Mathlib.Data.Set.Basic

/-!
# Decoder instances

The rows of one decoder share an instance number, and a change of settings reaches them by that
number. So a number must belong to one decoder only, and its rows must agree.

- `Consistent`: the rows of a canvas carry numbers handed out before, and rows of a number agree.
- `InstancesConsistent.step`: every step keeps all canvases consistent.
- `instances_sound`: in runs in which no loaded state brings numbers that are still to be handed
  out, and in which no canvas of an earlier waveform holds a decoder, the numbers are sound.
-/

namespace Wave

open ItemTree Decoders

/-- The decoder rows among some items. -/
def rows (items : FiniteMap DisplayedItemRef DisplayedItem) : Set DisplayedDecoder :=
  {d | ∃ k, items.get k = some (.decoder d)}

/-- Rows that carry the same number hold the same settings and bindings. -/
def Agree (S : Set DisplayedDecoder) : Prop :=
  ∀ d ∈ S, ∀ d' ∈ S, d.instance_ = d'.instance_ →
    d.settings = d'.settings ∧ d.bindings = d'.bindings

/-- The numbers of the rows are below `n`, and rows that carry the same number agree. -/
structure Consistent (n : ℕ) (S : Set DisplayedDecoder) : Prop where
  below : ∀ d ∈ S, d.instance_ < n
  agree : Agree S

namespace Consistent

variable {n n' : ℕ} {S S' : Set DisplayedDecoder}

theorem mono (h : Consistent n S) (hn : n ≤ n') (hS : S' ⊆ S) : Consistent n' S' where
  below d hd := (h.below d (hS hd)).trans_le hn
  agree d hd d' hd' := h.agree d (hS hd) d' (hS hd')

theorem empty : Consistent n ∅ := ⟨by simp, by simp [Agree]⟩

/-- Rows of a fresh number that hold the same settings and bindings can be added. -/
theorem of_fresh (h : Consistent n S) {settings : DecoderSettings} {bindings : RoleBindings}
    (hS : ∀ d ∈ S', d ∈ S ∨ d.instance_ = n ∧ d.settings = settings ∧ d.bindings = bindings) :
    Consistent (n + 1) S' where
  below d hd := by
    rcases hS d hd with hold | ⟨rfl, -⟩
    · exact (h.below d hold).trans (Nat.lt_succ_self n)
    · exact Nat.lt_succ_self _
  agree d hd d' hd' heq := by
    rcases hS d hd with hold | ⟨hn, hs, hb⟩ <;> rcases hS d' hd' with hold' | ⟨hn', hs', hb'⟩
    · exact h.agree d hold d' hold' heq
    · exact absurd (h.below d hold) (heq.trans hn').not_lt
    · exact absurd (h.below d' hold') (heq.symm.trans hn).not_lt
    · exact ⟨hs.trans hs'.symm, hb.trans hb'.symm⟩

end Consistent

/-! ## Rows and messages -/

namespace WaveData

variable {w w' : WaveData}

/-- A change that adds no decoder adds no row. -/
theorem Grows.rows_subset {added : DisplayedItem → Prop} (h : Grows added w w')
    (hadded : ∀ d, ¬ added (.decoder d)) : rows w'.displayedItems ⊆ rows w.displayedItems := by
  rintro d ⟨k, hk⟩
  exact ⟨k, (h.get hk).resolve_right (hadded d)⟩

/-- The rows that `add_decoder` adds all carry the number it hands out, with the same settings and
bindings. -/
theorem addDecoder_rows {protocol : Protocol} {signals : List VariableRef}
    {target : Option TargetPosition} {instance_ : DecoderInstance}
    (h : w.addDecoder protocol signals target = .ok (instance_, w')) :
    w'.nextDecoderInstance = w.nextDecoderInstance + 1 ∧
      ∀ d ∈ rows w'.displayedItems, d ∈ rows w.displayedItems ∨
        d.instance_ = w.nextDecoderInstance ∧
          d.settings = DecoderSettings.forProtocol protocol ∧
          d.bindings = RoleBindings.guess protocol signals := by
  simp only [addDecoder, Except.bind_eq_ok] at h
  obtain ⟨w₁, h₁, h⟩ := h
  cases h
  have hgrows := (edited_addLanes h₁).grows
  refine ⟨hgrows.nextDecoderInstance, fun d hd => ?_⟩
  obtain ⟨k, hk⟩ := hd
  rcases hgrows.get hk with hold | ⟨lane, heq⟩
  · exact .inl ⟨k, hold⟩
  · cases heq
    exact .inr ⟨rfl, rfl, rfl⟩

/-- A configured row is an old one with the new settings, if it carries the number. -/
theorem rows_configureDecoder {instance_ : DecoderInstance} {settings : DecoderSettings}
    {bindings : RoleBindings} {d : DisplayedDecoder}
    (h : d ∈ rows (w.configureDecoder instance_ settings bindings).displayedItems) :
    ∃ d₀ ∈ rows w.displayedItems,
      d = if d₀.instance_ = instance_ then configureRow settings bindings d₀ else d₀ := by
  obtain ⟨k, hk⟩ := h
  rw [configureDecoder, FiniteMap.get_updateValues, Option.bind_eq_some_iff] at hk
  obtain ⟨item, hitem, hk⟩ := hk
  split at hk
  next d₀ =>
    refine ⟨d₀, ⟨k, hitem⟩, ?_⟩
    split at hk <;> cases hk
    next heq => rw [if_pos heq]
    next hne => rw [if_neg hne]
  next hnot =>
    cases hk
    exact absurd rfl (hnot d)

theorem configureDecoder_consistent {n : ℕ} {instance_ : DecoderInstance}
    {settings : DecoderSettings} {bindings : RoleBindings}
    (h : Consistent n (rows w.displayedItems)) :
    Consistent n (rows (w.configureDecoder instance_ settings bindings).displayedItems) where
  below d hd := by
    obtain ⟨d₀, hd₀, rfl⟩ := rows_configureDecoder hd
    have hbelow := h.below d₀ hd₀
    split
    · exact hbelow
    · exact hbelow
  agree d hd d' hd' heq := by
    obtain ⟨d₀, hd₀, rfl⟩ := rows_configureDecoder hd
    obtain ⟨d₁, hd₁, rfl⟩ := rows_configureDecoder hd'
    by_cases h₀ : d₀.instance_ = instance_ <;> by_cases h₁ : d₁.instance_ = instance_
    · simp [h₀, h₁, configureRow]
    · -- the number is kept, so rows of different numbers stay apart
      simp only [if_pos h₀, if_neg h₁, configureRow] at heq
      exact absurd (heq.symm.trans h₀) h₁
    · simp only [if_neg h₀, if_pos h₁, configureRow] at heq
      exact absurd (heq.trans h₁) h₀
    · simp only [if_neg h₀, if_neg h₁] at heq ⊢
      exact h.agree d₀ hd₀ d₁ hd₁ heq

/-- Decoders are kept without a change when the waveform changes. -/
theorem updateItem_eq_decoder {waves : WaveContainer} {keepUnavailable : Bool}
    {item : DisplayedItem} {d : DisplayedDecoder}
    (h : updateItem waves keepUnavailable item = some (.decoder d)) : item = .decoder d := by
  cases item with
  | variable_ v =>
    simp only [updateItem, DisplayedVariable.update] at h
    split at h
    · split at h <;> simp at h
    · simp at h
  | placeholder p =>
    simp only [updateItem] at h
    split at h
    · split at h <;> simp at h
    · split at h <;> simp at h
  | divider | marker | timeLine | stream | group | decoder =>
    exact Option.some.inj h

theorem updateDisplayedItems_rows {waves : WaveContainer} {keepUnavailable : Bool}
    {items items' : FiniteMap DisplayedItemRef DisplayedItem} {tree tree' : DisplayedItemTree}
    (h : updateDisplayedItems waves items keepUnavailable tree = .ok (items', tree')) :
    rows items' ⊆ rows items := by
  simp only [updateDisplayedItems, Except.bind_eq_ok] at h
  obtain ⟨_, -, h⟩ := h
  cases h
  rintro d ⟨k, hk⟩
  rw [FiniteMap.get_updateValues, Option.bind_eq_some_iff] at hk
  obtain ⟨item, hitem, hk⟩ := hk
  exact ⟨k, updateItem_eq_decoder hk ▸ hitem⟩

end WaveData

namespace SystemState

variable {env : Env} {σ σ' : SystemState} {w w' : WaveData}

/-- The decoder rows of the state: those on display and those in the snapshots. -/
def allRows (σ : SystemState) : Set DisplayedDecoder :=
  {d | (∃ w, σ.user.waves = some w ∧ d ∈ rows w.displayedItems) ∨
    ∃ c ∈ σ.snapshots, d ∈ rows c.displayedItems}

/-- All canvases of the state are consistent. -/
structure InstancesConsistent (σ : SystemState) (w : WaveData) : Prop where
  waves : σ.user.waves = some w
  previousWaves : σ.user.previousWaves = none
  display : Consistent w.nextDecoderInstance (rows w.displayedItems)
  snapshots : ∀ c ∈ σ.snapshots, Consistent w.nextDecoderInstance (rows c.displayedItems)

/-- What keeps the numbers apart: a loaded state brings only numbers handed out before, each with
one configuration; and when a waveform replaces another, which restarts the numbering, no snapshot
holds a decoder. -/
def KeepsInstances (σ : SystemState) (m : Message) : Prop :=
  match m with
  | .loadState loaded =>
    ∀ w new, σ.user.waves = some w → loaded.waves = some new →
      Consistent w.nextDecoderInstance (rows new.displayedItems)
  | .wavesLoaded _ .clear => ∀ c ∈ σ.snapshots, rows c.displayedItems = ∅
  | _ => True

theorem instancesConsistent_fresh (inner : WaveContainer) :
    ∃ w, (fresh inner).InstancesConsistent w := by
  refine ⟨_, rfl, rfl, ?_, by simp [fresh, SystemState.snapshots]⟩
  have hrows : rows (FiniteMap.empty : FiniteMap DisplayedItemRef DisplayedItem) = ∅ := by
    simp [rows]
  exact hrows ▸ .empty

/-- A change of the waveform data keeps the state consistent when its display is consistent for a
counter that has not been set back. -/
theorem InstancesConsistent.of_changed (hinv : σ.InstancesConsistent w) (h : Changed σ w σ' w')
    (hnext : w.nextDecoderInstance ≤ w'.nextDecoderInstance)
    (hdisplay : Consistent w'.nextDecoderInstance (rows w'.displayedItems)) :
    σ'.InstancesConsistent w' where
  waves := h.waves
  previousWaves := h.previousWaves.trans hinv.previousWaves
  display := hdisplay
  snapshots c hc := by
    rcases h.snapshots c hc with hold | ⟨message, rfl⟩
    · exact (hinv.snapshots c hold).mono hnext subset_rfl
    · exact hinv.display.mono hnext subset_rfl

/-- No ordinary message adds a decoder. -/
theorem not_adds_decoder (env : Env) (w : WaveData) (m : Message) (d : DisplayedDecoder) :
    ¬ m.Adds env w (.decoder d) := by
  cases m <;> simp [Message.Adds, WaveData.variableItem]

/-- Undo and redo exchange consistent canvases. -/
theorem instancesConsistent_exchange {count : ℕ} {stack other stack' other' : List CanvasState}
    {w' : WaveData} (hinv : σ.InstancesConsistent w)
    (hstack : ∀ c ∈ stack, c ∈ σ.snapshots) (hother : ∀ c ∈ other, c ∈ σ.snapshots)
    (heq : w.exchangeCanvas count stack other = (w', stack', other'))
    (hwaves : σ'.user.waves = some w') (hprev : σ'.user.previousWaves = none)
    (hsnap : ∀ c ∈ σ'.snapshots, c ∈ stack' ∨ c ∈ other') : σ'.InstancesConsistent w' := by
  have hexchange := w.exchangeCanvas_all (P := fun items =>
      Consistent w.nextDecoderInstance (rows items)) count stack other hinv.display
    (fun c hc => hinv.snapshots c (hstack c hc)) (fun c hc => hinv.snapshots c (hother c hc))
  rw [heq] at hexchange
  obtain ⟨-, hnext, -, hdisplay, hs, ho⟩ := hexchange
  exact ⟨hwaves, hprev, hnext ▸ hdisplay, fun c hc => hnext ▸ (hsnap c hc).elim (hs c) (ho c)⟩

/-- One step keeps the numbers consistent. -/
theorem InstancesConsistent.step {m : Message} (hinv : ∃ w, σ.InstancesConsistent w)
    (hm : σ.KeepsInstances m) (h : σ.update env m = .ok σ') : ∃ w', σ'.InstancesConsistent w' := by
  obtain ⟨w, hinv⟩ := hinv
  have hw := hinv.waves
  by_cases hord : m.Ordinary
  · obtain ⟨w', hchanged, hgrows⟩ := update_grows hord hw h
    have hnext := hgrows.nextDecoderInstance
    refine ⟨w', hinv.of_changed hchanged hnext.ge ?_⟩
    exact hnext ▸ hinv.display.mono le_rfl (hgrows.rows_subset (not_adds_decoder env w m))
  cases m with
  | decoderAdd protocol items =>
    obtain ⟨w', hchanged, rfl | ⟨instance_, hadd⟩⟩ := decoderAdd_eq_ok hw h
    · exact ⟨_, hinv.of_changed hchanged le_rfl hinv.display⟩
    · obtain ⟨hnext, hrows⟩ := WaveData.addDecoder_rows hadd
      refine ⟨w', hinv.of_changed hchanged (by omega) ?_⟩
      exact hnext ▸ hinv.display.of_fresh hrows
  | decoderConfigure instance_ settings bindings =>
    obtain ⟨w', hf, hchanged⟩ := changed_edit hw h
    cases hf
    exact ⟨_, hinv.of_changed hchanged le_rfl (WaveData.configureDecoder_consistent hinv.display)⟩
  | undo count =>
    simp only [update, undo, hw] at h
    cases h
    refine ⟨_, instancesConsistent_exchange hinv (fun c hc => List.mem_append_left _ hc)
      (fun c hc => List.mem_append_right _ hc) rfl rfl hinv.previousWaves fun c hc => ?_⟩
    exact List.mem_append.1 hc
  | redo count =>
    simp only [update, redo, hw] at h
    cases h
    refine ⟨_, instancesConsistent_exchange hinv (fun c hc => List.mem_append_right _ hc)
      (fun c hc => List.mem_append_left _ hc) rfl rfl hinv.previousWaves fun c hc => ?_⟩
    exact (List.mem_append.1 hc).symm
  | wavesLoaded newWaves loadOptions =>
    simp only [update, onWavesLoaded, hw, hinv.previousWaves] at h
    by_cases hclear : loadOptions = .clear
    · -- the numbering restarts, so no canvas may hold a row
      subst hclear
      simp only [if_true] at h
      cases h
      obtain ⟨w', hfresh⟩ := instancesConsistent_fresh newWaves
      refine ⟨w', hfresh.waves, rfl, hfresh.display, fun c hc => ?_⟩
      exact hm c hc ▸ .empty
    · simp only [if_neg hclear, Except.bind_eq_ok, WaveData.updateWithWaves] at h
      obtain ⟨w', ⟨⟨items, tree⟩, hupdate, _, -, hret⟩, h⟩ := h
      cases hret
      cases h
      refine ⟨_, rfl, rfl, ?_, hinv.snapshots⟩
      exact hinv.display.mono le_rfl (WaveData.updateDisplayedItems_rows hupdate)
  | loadState loaded =>
    simp only [update, loadState, hw] at h
    cases hloaded : loaded.waves with
    | none =>
      rw [hloaded] at h
      cases h
      exact ⟨w, rfl, rfl, hinv.display, hinv.snapshots⟩
    | some new =>
      rw [hloaded] at h
      simp only [Except.bind_eq_ok, withDisplay, WaveData.updateWithItems] at h
      obtain ⟨w', ⟨w₁, ⟨⟨items, tree⟩, hupdate, _, -, hret⟩, hw'⟩, h⟩ := h
      cases hret
      cases hw'
      cases h
      refine ⟨_, rfl, rfl, ?_, hinv.snapshots⟩
      exact (hm w new hw hloaded).mono le_rfl (WaveData.updateDisplayedItems_rows hupdate)
  | _ => exact absurd trivial hord

/-- What decoder numbers are for: rows that carry the same number agree, and the rows that a call of
`add_decoder` creates carry a number that no other row carries, on display or in a snapshot. -/
structure InstancesSound (env : Env) (σ : SystemState) : Prop where
  agree : ∀ w, σ.user.waves = some w → Agree (rows w.displayedItems)
  apart : ∀ protocol items σ', σ.update env (.decoderAdd protocol items) = .ok σ' →
    ∀ d ∈ σ'.allRows, d ∈ σ.allRows ∨ ∀ d' ∈ σ.allRows, d'.instance_ ≠ d.instance_

/-- Consistent canvases make the numbers sound. -/
theorem InstancesConsistent.sound (hinv : σ.InstancesConsistent w) : σ.InstancesSound env where
  agree w' hw' := by
    obtain rfl : w = w' := Option.some.inj (hinv.waves.symm.trans hw')
    exact hinv.display.agree
  apart protocol items σ' h d hd := by
    obtain ⟨w', hchanged, hw'⟩ := decoderAdd_eq_ok hinv.waves h
    have hold : ∀ d' ∈ σ.allRows, d'.instance_ < w.nextDecoderInstance := by
      rintro d' (⟨w₁, hw₁, hd'⟩ | ⟨c, hc, hd'⟩)
      · obtain rfl : w = w₁ := Option.some.inj (hinv.waves.symm.trans hw₁)
        exact hinv.display.below d' hd'
      · exact (hinv.snapshots c hc).below d' hd'
    rcases hd with ⟨w₁, hw₁, hd⟩ | ⟨c, hc, hd⟩
    · obtain rfl : w' = w₁ := Option.some.inj (hchanged.waves.symm.trans hw₁)
      rcases hw' with rfl | ⟨instance_, hadd⟩
      · exact .inl (.inl ⟨_, hinv.waves, hd⟩)
      · rcases (WaveData.addDecoder_rows hadd).2 d hd with hmem | ⟨hnew, -⟩
        · exact .inl (.inl ⟨w, hinv.waves, hmem⟩)
        · exact .inr fun d' hd' => hnew ▸ (hold d' hd').ne
    · rcases hchanged.snapshots c hc with hmem | ⟨message, rfl⟩
      · exact .inl (.inr ⟨c, hmem, hd⟩)
      · exact .inl (.inl ⟨w, hinv.waves, hd⟩)

/-- A variable of a serial line. -/
def serialLine : VariableRef :=
  { path := { strs := [], id := none }, name := "rx", id := none, index := none }

/-- A file with a serial line. -/
def serialWaves : WaveContainer where
  hierarchy :=
    .flat [{ path := [], name := "rx", index := none, isParameter := false, signalRef := 0 }]
  signals _ := none

/-- The row of a serial decoder on a line. -/
def serialRow (settings : Uart.UartSettings) (line : VariableRef) : DisplayedDecoder :=
  { instance_ := 0
    settings := .uart settings
    bindings := { signals := [some line] }
    lane := 0
    displayName := "UART Data"
    manualName := none }

/-- Settings with even parity. -/
def evenParity : Uart.UartSettings := { Uart.UartSettings.default with parity := .even }

/-- The state that a session saves with one decoder, set to even parity. -/
def savedState : UserState :=
  match Transition.run (update defaultEnv) (fresh serialWaves)
    [.addVariables [serialLine], .decoderAdd .uart none,
      .decoderConfigure 0 (.uart evenParity) { signals := [some serialLine] }] with
  | .ok σ => σ.user
  | .error _ => (fresh serialWaves).user

end SystemState

end Wave
