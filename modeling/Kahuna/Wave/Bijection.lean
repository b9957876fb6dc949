import Kahuna.Wave.Canvases
import Kahuna.Wave.Streams

/-!
# Tree and item map

The items on display are the values of a map, whose keys are the references in the tree. Tree and map have
to change together, and a new item needs a reference that is not in use.

- `Contents.RefsSound`: the invariant, which also bounds the references by the counter.
- `Session.KeepsRefs`: what keeps it when the counter is set back.
- `display_inBijection`: in every run that keeps it, tree and map are in bijection.
-/

namespace Wave

open ItemTree Decoders

namespace Contents

/-- Tree and map are in step, and no reference in use is larger than the counter. -/
structure RefsSound (c : Contents) : Prop where
  inStep : FiniteMap.InStep c.refs c.items
  le_counter (k : DisplayedItemRef) : (c.items.get k).isSome → k ≤ c.counter

namespace RefsSound

variable {c c' : Contents} {e : Effect}

theorem mono (h : c.RefsSound) (n : ℕ) (hn : c.counter ≤ n) : RefsSound { c with counter := n } :=
  ⟨h.inStep, fun k hk => (h.le_counter k hk).trans hn⟩

/-- The next reference is not in use. -/
theorem next_free (h : c.RefsSound) : c.counter + 1 ∉ c.refs := by
  intro hmem
  exact Nat.not_succ_le_self _ (h.le_counter _ ((h.inStep.mem_iff _).1 hmem))

/-- A new item takes the next reference. -/
theorem add (h : c.RefsSound) {refs : List DisplayedItemRef} (item : DisplayedItem)
    (hperm : refs.Perm ((c.counter + 1) :: c.refs)) :
    RefsSound
      { c with refs, items := c.items.insert (c.counter + 1) item, counter := c.counter + 1 } where
  inStep := h.inStep.insert h.next_free item hperm
  le_counter k hk := by
    simp only [FiniteMap.get_insert] at hk
    split at hk
    next heq => exact heq.le
    next => exact (h.le_counter k hk).trans (Nat.le_succ _)

/-- Items are removed from both. -/
theorem removeAll (h : c.RefsSound) {refs removed : List DisplayedItemRef}
    (hperm : c.refs.Perm (removed ++ refs)) :
    RefsSound { c with refs, items := removed.foldl FiniteMap.remove c.items } where
  inStep := h.inStep.removeAll hperm
  le_counter k hk := by
    simp only [FiniteMap.get_removeAll] at hk
    split at hk
    · cases hk
    · exact h.le_counter k hk

/-- The invariant does not depend on markers and annotations. -/
theorem congr (h : c.RefsSound) (hrefs : c'.refs = c.refs) (hitems : c'.items = c.items)
    (hcounter : c'.counter = c.counter) : c'.RefsSound := by
  refine ⟨?_, ?_⟩
  · rw [hrefs, hitems]
    exact h.inStep
  · rw [hitems, hcounter]
    exact h.le_counter

theorem edit (h : c.RefsSound) (hedit : Edit e c c') : c'.RefsSound := by
  cases hedit with
  | rearrange hperm => exact ⟨h.inStep.perm hperm, h.le_counter⟩
  | @add refs item _ _ hperm => exact h.add item hperm
  | @addMarker refs name idx location _ _ hperm => exact (h.add _ hperm).congr rfl rfl rfl
  | moveMarker | annotate => exact h.congr rfl rfl rfl
  | remove hperm =>
    obtain ⟨hrefs, hitems, hcounter, -⟩ := Contents.foldl_forget _ _
    exact (h.removeAll hperm).congr hrefs hitems hcounter
  | drop hperm => exact h.removeAll hperm

theorem edits (h : c.RefsSound) (hedits : Relation.ReflTransGen (Edit e) c c') : c'.RefsSound := by
  induction hedits with
  | refl => exact h
  | tail _ hedit ih => exact ih.edit hedit

theorem revalued (h : c.RefsSound) (hrevalued : c.Revalued c') : c'.RefsSound where
  inStep := hrevalued.inStep h.inStep
  le_counter k hk := hrevalued.counter ▸ h.le_counter k (hrevalued.keys k hk)

end RefsSound

end Contents

/-! ## Streams -/

namespace WaveData

variable {F : Type} {ftr : FtrParser F} {t t' : F} {w w' w'' : WaveData}

/-- The effect of adding streams. -/
def addsStreams : Effect where
  adds item := ∃ name, item = .stream name
  removes _ := False
  drops _ := False
  annotates := False

/-- Streams are inserted at the focus, one after the other. -/
inductive InsertsStreams : WaveData → WaveData → Prop
  | refl {w : WaveData} : InsertsStreams w w
  | insert {w w₁ w' : WaveData} {name : String} {k : DisplayedItemRef} :
      w.insertItem (.stream name) none true = .ok (k, w₁) → InsertsStreams w₁ w' → InsertsStreams w w'

namespace InsertsStreams

theorem trans (h : InsertsStreams w w') (h' : InsertsStreams w' w'') : InsertsStreams w w'' := by
  induction h with
  | refl => exact h'
  | insert hinsert _ ih => exact .insert hinsert (ih h')

theorem edited (h : InsertsStreams w w') : Edited addsStreams w w' := by
  induction h with
  | refl => exact .refl
  | insert hinsert _ ih =>
    have hfirst := edited_insertItem (e := addsStreams) hinsert ⟨_, rfl⟩ rfl
    exact hfirst.trans ih

theorem of_insertStream {name : String} (h : w.insertStream t name = .ok (t', w')) :
    InsertsStreams w w' := by
  simp only [insertStream, Except.bind_eq_ok] at h
  obtain ⟨⟨_, w₁⟩, h₁, h⟩ := h
  cases h
  exact .insert h₁ .refl

theorem of_addGenerator {ref : TransactionStreamRef} (h : w.addGenerator ftr t ref = .ok (t', w')) :
    InsertsStreams w w' := by
  unfold addGenerator at h
  split at h
  · cases h
    exact .refl
  · split at h
    · cases h
      exact .refl
    next generator _ =>
      generalize (if generator.isEmpty then _ else _ : Bool × F) = read at h
      simp only at h
      split at h
      · exact of_insertStream h
      · cases h
        exact .refl

theorem of_addStream {ref : TransactionStreamRef} (h : w.addStream ftr t ref = .ok (t', w')) :
    InsertsStreams w w' := by
  unfold addStream at h
  split at h
  · cases h
  next stream _ =>
    generalize (if stream.transactionsLoaded then _ else _ : Bool × F) = read at h
    simp only at h
    split at h
    · cases h
      exact .refl
    · split at h
      · cases h
      · split at h
        · exact of_insertStream h
        · cases h

theorem of_addEach {add : F → WaveData → TransactionStreamRef → Run (F × WaveData)}
    {refs : List TransactionStreamRef}
    (hadd : ∀ {t t' w w' ref}, add t w ref = .ok (t', w') → InsertsStreams w w')
    (h : addEach add refs t w = .ok (t', w')) : InsertsStreams w w' := by
  induction refs generalizing t w with
  | nil =>
    cases h
    exact .refl
  | cons ref rest ih =>
    simp only [addEach, Except.bind_eq_ok] at h
    obtain ⟨⟨t₁, w₁⟩, h₁, h₂⟩ := h
    exact (hadd h₁).trans (ih h₂)

theorem of_addStreamOrGeneratorFromName {scope : Option StreamScopeRef} {name : String}
    (h : w.addStreamOrGeneratorFromName ftr t scope name = .ok (t', w')) : InsertsStreams w w' := by
  unfold addStreamOrGeneratorFromName at h
  split at h
  · split at h
    · cases h
      exact .refl
    · exact of_addStream h
  · split at h
    · cases h
      exact .refl
    · exact of_addGenerator h
  · cases h
    exact .refl
  · split at h
    · cases h
      exact .refl
    · exact of_addGenerator h

theorem of_addAllFromStreamScope {env : Env} {scopeName : String}
    (h : w.addAllFromStreamScope ftr env t scopeName = .ok (t', w')) : InsertsStreams w w' := by
  simp only [addAllFromStreamScope, addAllStreams] at h
  split at h
  · exact of_addEach of_addStream h
  · split at h
    · cases h
      exact .refl
    · split at h
      · exact of_addEach of_addGenerator h
      · cases h

end InsertsStreams

end WaveData

/-! ## Runs -/

/-- The messages about streams that load no file. -/
def SessionMessage.AddsStreams {F : Type} (m : SessionMessage F) : Prop :=
  match m with
  | .wave _ | .transactionStreamsLoaded _ => False
  | _ => True

namespace SystemState

/-- No snapshot holds a reference larger than `n`. -/
def RefsUpTo (σ : SystemState) (n : ℕ) : Prop :=
  ∀ c ∈ σ.snapshots, ∀ k, (c.displayedItems.get k).isSome → k ≤ n

end SystemState

namespace Session

variable {F : Type} {ftr : FtrParser F} {env : Env} {s s' : Session F} {w : WaveData}

/-- What keeps references apart: when something is loaded that sets the counter back, no snapshot holds a
reference larger than the counter is then; and the display of a loaded state is sound. -/
def KeepsRefs (s : Session F) (m : SessionMessage F) : Prop :=
  match m with
  | .wave (.loadState loaded) =>
    ∀ new, loaded.waves = some new →
      FiniteMap.InStep new.itemsTree.refs new.displayedItems ∧
        s.state.RefsUpTo (WaveData.maxRef new.displayedItems)
  | .wave (.wavesLoaded _ .clear) | .transactionStreamsLoaded _ => s.state.RefsUpTo 0
  | _ => True

/-- The snapshots are sound for another counter. -/
theorem refsSound_snapshots (hinv : s.state.Holds Contents.RefsSound w) {n : ℕ}
    (hn : s.state.RefsUpTo n) : ∀ c ∈ s.state.snapshots, (c.contents n).RefsSound :=
  fun c hc => ⟨(hinv.snapshots c hc).inStep, hn c hc⟩

/-- An empty display. -/
theorem refsSound_empty {c : Contents} (hrefs : c.refs = []) (hitems : c.items = .empty) :
    c.RefsSound := by
  refine ⟨?_, ?_⟩
  · rw [hrefs, hitems]
    exact FiniteMap.inStep_empty
  · rw [hitems]
    simp

/-- A message that is not about streams keeps the references sound. -/
theorem refsSound_update {m : Message} {σ' : SystemState}
    (hinv : s.state.Holds Contents.RefsSound w) (hm : s.KeepsRefs (.wave m))
    (h : s.state.update env m = .ok σ') : ∃ w', σ'.Holds Contents.RefsSound w' := by
  refine hinv.step (fun c n hc => hc.mono n) (fun e c' _ _ _ => hinv.display.edits)
    (fun c' hc' _ => hinv.display.revalued hc') (fun c' hc' => ?_) h
  cases m with
  | wavesLoaded newWaves loadOptions =>
    cases loadOptions with
    | clear =>
      obtain rfl := hc'
      exact ⟨refsSound_empty rfl rfl, refsSound_snapshots hinv hm⟩
    | keepAvailable | keepAll =>
      refine ⟨hinv.display.revalued hc'.1, ?_⟩
      rw [hc'.1.counter]
      exact hinv.snapshots
  | loadState loaded =>
    simp only [Message.Loads] at hc'
    cases hloaded : loaded.waves with
    | none =>
      rw [hloaded] at hc'
      obtain rfl := hc'
      exact ⟨hinv.display, hinv.snapshots⟩
    | some new =>
      rw [hloaded] at hc'
      obtain ⟨hstep, hsnap⟩ := hm new hloaded
      have hnew : Contents.RefsSound
          { new.contents with counter := WaveData.maxRef new.displayedItems } :=
        ⟨hstep, fun k hk => WaveData.le_maxRef hk⟩
      refine ⟨hnew.revalued hc'.1, ?_⟩
      rw [hc'.1.counter]
      exact refsSound_snapshots hinv hsnap
  | _ => exact hc'.elim

/-- What a message about streams does: the canvas is saved, and the waveform data may change. -/
theorem edit_eq_ok {text : String} {needsFile : Bool} {f : F → WaveData → Run (F × WaveData)}
    (hw : s.state.user.waves = some w) (h : s.edit env text needsFile f = .ok s') :
    ∃ w', SystemState.Changed s.state w s'.state w' ∧ (w' = w ∨ ∃ t t', f t w = .ok (t', w')) := by
  have hsaved := SystemState.saveCurrentCanvas_snapshots env text hw
  simp only [edit, SystemState.saveCurrentCanvas_user, hw] at h
  cases htransactions : s.transactions with
  | none =>
    -- without a file only the canvas is saved
    rw [htransactions] at h
    simp only at h
    split at h
    · cases h
    · cases h
      exact ⟨w, ⟨by simpa using hw, by simp, hsaved⟩, .inl rfl⟩
  | some t =>
    rw [htransactions] at h
    simp only [Except.bind_eq_ok] at h
    obtain ⟨⟨t', w'⟩, hf, h⟩ := h
    cases h
    exact ⟨w', ⟨rfl, by simp, hsaved⟩, .inr ⟨t, t', hf⟩⟩

/-- A message about streams that loads no file inserts streams. -/
theorem insertsStreams_of_update {m : SessionMessage F} (hw : s.state.user.waves = some w)
    (h : s.update ftr env m = .ok s') (hm : m.AddsStreams) :
    ∃ w', SystemState.Changed s.state w s'.state w' ∧ WaveData.InsertsStreams w w' := by
  have hedit : ∀ {text needsFile} {f : F → WaveData → Run (F × WaveData)},
      s.edit env text needsFile f = .ok s' →
      (∀ {t t' w'}, f t w = .ok (t', w') → WaveData.InsertsStreams w w') →
      ∃ w', SystemState.Changed s.state w s'.state w' ∧ WaveData.InsertsStreams w w' := by
    intro text needsFile f h hf
    obtain ⟨w', hchanged, rfl | ⟨t, t', hrun⟩⟩ := edit_eq_ok hw h
    · exact ⟨_, hchanged, .refl⟩
    · exact ⟨w', hchanged, hf hrun⟩
  cases m with
  | wave | transactionStreamsLoaded => exact hm.elim
  | addStreamOrGenerator ref =>
    simp only [update, addStreamOrGenerator] at h
    split at h
    · exact hedit h .of_addGenerator
    · exact hedit h .of_addStream
  | addStreamOrGeneratorFromName scope name => exact hedit h .of_addStreamOrGeneratorFromName
  | addAllFromStreamScope scopeName => exact hedit h .of_addAllFromStreamScope

/-- A message that is not about streams does what it does without a file, or nothing but save the canvas. -/
theorem wave_eq_ok {m : Message} (h : s.update ftr env (.wave m) = .ok s') :
    s'.state = s.state ∨ (∃ text, s'.state = s.state.saveCurrentCanvas env text) ∨
      s.state.update env m = .ok s'.state := by
  have hkeep : ∀ {transactions : Option F},
      (do let σ ← s.state.update env m; return { state := σ, transactions } : Run (Session F))
        = .ok s' → s.state.update env m = .ok s'.state := by
    intro transactions h
    simp only [Except.bind_eq_ok] at h
    obtain ⟨σ', hupdate, h⟩ := h
    cases h
    exact hupdate
  simp only [update] at h
  cases htransactions : s.transactions with
  | none =>
    rw [htransactions] at h
    exact .inr (.inr (hkeep h))
  | some t =>
    rw [htransactions] at h
    cases m with
    | addVariables vars =>
      simp only [updateStreams] at h
      split at h
      · cases h
        exact .inl rfl
      · cases h
    | addScope | addDraggedVariables => cases h
    | addScopeAsGroup scope recursive =>
      cases h
      exact .inr (.inl ⟨_, rfl⟩)
    | loadState loaded =>
      simp only [updateStreams] at h
      split at h
      · cases h
      · exact .inr (.inr (hkeep h))
    | _ => exact .inr (.inr (hkeep h))

/-- One step keeps the references sound. -/
theorem refsSound_step {m : SessionMessage F} (hinv : ∃ w, s.state.Holds Contents.RefsSound w)
    (hm : s.KeepsRefs m) (h : s.update ftr env m = .ok s') :
    ∃ w', s'.state.Holds Contents.RefsSound w' := by
  obtain ⟨w, hinv⟩ := hinv
  cases m with
  | wave m =>
    rcases wave_eq_ok h with hsame | ⟨text, hsaved⟩ | hupdate
    · rw [hsame]
      exact ⟨w, hinv⟩
    · have hchanged : SystemState.Changed s.state w s'.state w := by
        rw [hsaved]
        exact ⟨by simpa using hinv.waves, by simp,
          SystemState.saveCurrentCanvas_snapshots env text hinv.waves⟩
      exact ⟨w, hinv.of_changed (fun c n hc => hc.mono n) hchanged le_rfl hinv.display⟩
    · exact refsSound_update hinv hm hupdate
  | transactionStreamsLoaded newFtr =>
    cases h
    exact ⟨_, rfl, hinv.previousWaves, refsSound_empty rfl rfl, refsSound_snapshots hinv hm⟩
  | _ =>
    obtain ⟨w', hchanged, hstreams⟩ := insertsStreams_of_update hinv.waves h trivial
    exact ⟨w', hinv.of_changed (fun c n hc => hc.mono n) hchanged hstreams.edited.counter_le
      (hinv.display.edits hstreams.edited.edits)⟩

end Session

/-- The references in the tree are distinct and are the keys of the item map, and an item that is inserted
gets a reference that is not in use. -/
structure WaveData.InBijection (w : WaveData) : Prop where
  nodup : w.itemsTree.refs.Nodup
  mem_iff (k : DisplayedItemRef) : k ∈ w.itemsTree.refs ↔ k ∈ w.displayedItems.keys
  next_free : w.displayItemRefCounter + 1 ∉ w.displayedItems.keys
  insert_free {item : DisplayedItem} {target : Option TargetPosition} {moveFocus : Bool}
    {k : DisplayedItemRef} {w' : WaveData} :
    w.insertItem item target moveFocus = .ok (k, w') → k ∉ w.displayedItems.keys

theorem Contents.RefsSound.inBijection {w : WaveData} (h : w.contents.RefsSound) : w.InBijection := by
  have hmem : ∀ k, k ∈ w.itemsTree.refs ↔ k ∈ w.displayedItems.keys := fun k =>
    (h.inStep.mem_iff k).trans FiniteMap.isSome_get_iff
  have hfree : w.displayItemRefCounter + 1 ∉ w.displayedItems.keys := mt (hmem _).2 h.next_free
  refine ⟨h.inStep.nodup, hmem, hfree, fun hinsert => ?_⟩
  obtain ⟨-, -, -, rfl, -⟩ := WaveData.insertItem_eq_ok hinsert
  exact hfree

namespace Session

variable {F : Type} {ftr : FtrParser F} {env : Env} {s : Session F}

/-- In every run that keeps references apart, tree and item map are in bijection in every state. -/
theorem display_inBijection {inner : WaveContainer}
    (h : Transition.Reachable (update ftr env) KeepsRefs (fresh inner) s) :
    ∀ w, s.state.user.waves = some w → w.InBijection := by
  have hstart : ∃ w, (fresh inner : Session F).state.Holds Contents.RefsSound w :=
    ⟨_, rfl, rfl, refsSound_empty rfl rfl, by simp [fresh, SystemState.fresh, SystemState.snapshots]⟩
  obtain ⟨w, hinv⟩ := h.invariant hstart fun _ _ _ hinv hm hstep => refsSound_step hinv hm hstep
  intro w' hw'
  obtain rfl : w = w' := Option.some.inj (hinv.waves.symm.trans hw')
  exact hinv.display.inBijection

/-! ### A file with one stream -/

/-- A stream without generators. -/
def busStream : TxStream := { id := 1, name := "bus", generators := [], transactionsLoaded := true }

/-- A file with one stream. -/
def busFtr : FtrParser Unit where
  streams _ := [busStream]
  getStream _ id := if id = 1 then some busStream else none
  getStreamFromName _ name := if name = "bus" then some busStream else none
  getGenerator _ _ := none
  getGeneratorFromName _ _ _ := none
  loadStreamIntoMemory t _ := (true, t)

/-- Something may only be loaded while there is nothing to undo. -/
def loadsFirst (s : Session F) (m : SessionMessage F) : Bool :=
  match m with
  | .wave (.loadState _) => false
  | .wave (.wavesLoaded ..) | .transactionStreamsLoaded _ => s.state.snapshots.isEmpty
  | _ => true

theorem keepsRefs_of_loadsFirst (s : Session F) (m : SessionMessage F) (h : s.loadsFirst m = true) :
    s.KeepsRefs m := by
  have hempty : s.state.snapshots.isEmpty = true → s.state.RefsUpTo 0 := by
    intro hnil c hc
    rw [List.isEmpty_iff.1 hnil] at hc
    cases hc
  cases m with
  | wave m =>
    cases m with
    | loadState => cases h
    | wavesLoaded newWaves loadOptions =>
      cases loadOptions with
      | clear => exact hempty h
      | _ => trivial
    | _ => trivial
  | transactionStreamsLoaded newFtr => exact hempty h
  | _ => trivial

/-- A stream and a marker are added; a divider in between is undone. -/
theorem display_inBijection_bus :
    ∃ s w, Transition.checkedRun (update busFtr defaultEnv) loadsFirst (fresh noWaveform)
        [.transactionStreamsLoaded (), .addStreamOrGenerator ⟨1, none, "bus"⟩,
          .wave (.addDivider none none), .wave (.undo 1), .wave (.addMarker 5 none false)] = some s ∧
      s.state.user.waves = some w ∧ w.itemsTree.refs = [1, 3] ∧ w.InBijection := by
  obtain ⟨s, hrun, hreach, htest⟩ := Transition.exists_reachable_of_checkedRun (update busFtr defaultEnv)
    KeepsRefs (fresh noWaveform) loadsFirst
    [.transactionStreamsLoaded (), .addStreamOrGenerator ⟨1, none, "bus"⟩,
      .wave (.addDivider none none), .wave (.undo 1), .wave (.addMarker 5 none false)]
    (fun s => s.state.user.waves.any fun w => w.itemsTree.refs = [1, 3])
    keepsRefs_of_loadsFirst (by decide)
  obtain ⟨w, hw, hrefs⟩ := (Option.any_eq_true _ _).1 htest
  exact ⟨s, w, hrun, hw, by simpa using hrefs, display_inBijection hreach w hw⟩

/-- When a waveform is loaded without keeping the items, and an undo brings an item back, the next item
takes its reference. -/
theorem not_inBijection_clearedLoad :
    ¬ ∀ (F : Type) (ftr : FtrParser F) (env : Env) (inner : WaveContainer) (s : Session F),
      Transition.Reachable (update ftr env) (fun _ _ => True) (fresh inner) s →
        ∀ w, s.state.user.waves = some w → w.InBijection := by
  intro h
  obtain ⟨s, -, hreach, htest⟩ := Transition.exists_reachable_of_run (update busFtr defaultEnv)
    (fun _ _ => True) (fresh noWaveform)
    [.wave (.addDivider (some "a") none), .wave (.addDivider (some "b") none),
      .wave (.wavesLoaded noWaveform .clear), .wave (.undo 1), .wave (.addDivider (some "c") none)]
    (fun s => s.state.user.waves.any fun w => ¬ w.itemsTree.refs.Nodup) (by simp) (by decide)
  obtain ⟨w, hw, hrefs⟩ := (Option.any_eq_true _ _).1 htest
  rw [decide_eq_true_eq] at hrefs
  exact hrefs (h Unit busFtr defaultEnv noWaveform s hreach w hw).nodup

end Session

end Wave
