import Kahuna.Wave.Effects

/-!
# Invariants of all canvases

An invariant of the display has to hold of every canvas that undo and redo can restore. Once edits keep
it, and a change of the values of the items does, only messages that load something are left.

- `Contents.Revalued`: the items have other values, and some are gone from tree and map.
- `revalued_updateDisplayedItems`: what a reload does to the items.
- `SystemState.Holds`, `Holds.step`: an invariant of all canvases, and what a message has to do to keep it.
-/

namespace Wave

open ItemTree Decoders

namespace Contents

/-- The marker number of the item of a reference. -/
def markerOf (c : Contents) (k : DisplayedItemRef) : Option ℕ :=
  (c.items.get k).bind DisplayedItem.markerIdx

/-- The items have other values, or are gone from tree and map. Markers stay markers. -/
structure Revalued (c c' : Contents) : Prop where
  refs : ∃ removed, c.refs.Perm (removed ++ c'.refs) ∧ ∀ k ∈ removed, c.markerOf k = none
  inStep : FiniteMap.InStep c.refs c.items → FiniteMap.InStep c'.refs c'.items
  keys (k : DisplayedItemRef) : (c'.items.get k).isSome → (c.items.get k).isSome
  markerOf (k : DisplayedItemRef) : c'.markerOf k = c.markerOf k
  counter : c'.counter = c.counter
  markers : c'.markers = c.markers
  annotations : c'.annotations = c.annotations

end Contents

namespace WaveData

variable {w w' : WaveData}

/-- The numbers of markers are kept. -/
theorem bind_updateItem (waves : WaveContainer) (keepUnavailable : Bool) (item : DisplayedItem) :
    (updateItem waves keepUnavailable item).bind DisplayedItem.markerIdx = item.markerIdx := by
  cases item with
  | variable_ v =>
    simp only [updateItem, DisplayedVariable.update]
    split
    · split <;> rfl
    · rfl
  | placeholder p =>
    simp only [updateItem]
    split
    · split <;> rfl
    · split <;> rfl
  | _ => rfl

/-- Every item is kept when unavailable ones are. -/
theorem isSome_updateItem (waves : WaveContainer) (item : DisplayedItem) :
    (updateItem waves true item).isSome := by
  cases item with
  | variable_ v =>
    simp only [updateItem, DisplayedVariable.update]
    split <;> rfl
  | placeholder p =>
    simp only [updateItem]
    split
    · rfl
    · split <;> rfl
  | _ => rfl

/-- Dropping nodes takes out their references, and no others. -/
theorem refs_dropNodes {dropped : List DisplayedItemRef} {tree tree' : DisplayedItemTree}
    (h : dropNodes dropped tree = .ok tree') :
    ∃ removed, tree.refs.Perm (removed ++ tree'.refs) ∧ (∀ k ∈ removed, k ∈ dropped) ∧
      ∀ k ∈ dropped, k ∉ tree'.refs := by
  induction dropped generalizing tree with
  | nil =>
    cases h
    exact ⟨[], .refl _, by simp, by simp⟩
  | cons id rest ih =>
    simp only [dropNodes] at h
    have hperm := tree.refs_drainRecursiveIf fun node => node.itemRef == id
    split at h
    · cases h
    next hlen =>
      obtain ⟨removed, hrest, hsub, hgone⟩ := ih h
      have hid : id ∉ (tree.drainRecursiveIf fun node => node.itemRef == id).2.refs := by
        intro hmem
        obtain ⟨node, hnode, rfl⟩ := List.mem_map.1 hmem
        simpa using DisplayedItemTree.not_of_mem_drainRecursiveIf hnode
      -- the node is taken out, and nothing with it
      have honly : ∀ k ∈ (tree.drainRecursiveIf fun node => node.itemRef == id).1, k = id := by
        intro k hk
        obtain ⟨node, hnode, hnodeId⟩ := DisplayedItemTree.exists_of_drainRecursiveIf hk
        have hmem : id ∈ tree.refs := List.mem_map.2 ⟨node, hnode, by simpa using hnodeId⟩
        have hin := (List.mem_append.1 (hperm.mem_iff.1 hmem)).resolve_right hid
        match hlist : (tree.drainRecursiveIf fun node => node.itemRef == id).1 with
        | [] => simp [hlist] at hk
        | [x] =>
          rw [hlist, List.mem_singleton] at hk hin
          exact hk.trans hin.symm
        | _ :: _ :: _ => simp [hlist] at hlen
      refine ⟨_, hperm.trans ((hrest.append_left _).trans (.of_eq (List.append_assoc _ _ _).symm)),
        ?_, List.forall_mem_cons.2 ⟨fun hmem => ?_, hgone⟩⟩
      · intro k hk
        rcases List.mem_append.1 hk with hk | hk
        · exact honly k hk ▸ List.mem_cons_self
        · exact List.mem_cons_of_mem _ (hsub k hk)
      · exact hid (hrest.mem_iff.2 (List.mem_append_right _ hmem))

/-- What a reload does to the tree and the items. -/
theorem refs_updateDisplayedItems {waves : WaveContainer} {keepUnavailable : Bool}
    {items items' : FiniteMap DisplayedItemRef DisplayedItem} {tree tree' : DisplayedItemTree}
    (h : updateDisplayedItems waves items keepUnavailable tree = .ok (items', tree')) :
    (∃ removed, tree.refs.Perm (removed ++ tree'.refs) ∧
        ∀ k ∈ removed, (items.get k).bind DisplayedItem.markerIdx = none) ∧
      (FiniteMap.InStep tree.refs items → FiniteMap.InStep tree'.refs items') := by
  simp only [updateDisplayedItems, Except.bind_eq_ok] at h
  obtain ⟨tree₁, hdrop, h⟩ := h
  cases h
  have hmem : ∀ k, k ∈ (items.entries.filter fun e =>
      (updateItem waves keepUnavailable e.2).isNone).map Sigma.fst ↔
        ∃ item, items.get k = some item ∧ updateItem waves keepUnavailable item = none := by
    intro k
    simp only [List.mem_map, List.mem_filter, Option.isNone_iff_eq_none]
    constructor
    · rintro ⟨e, he, rfl⟩
      exact ⟨e.2, AList.mem_lookup_iff.2 he.1, he.2⟩
    · rintro ⟨item, hget, hnone⟩
      exact ⟨⟨k, item⟩, ⟨AList.mem_lookup_iff.1 hget, hnone⟩, rfl⟩
  obtain ⟨removed, hperm, hsub, hgone⟩ := refs_dropNodes hdrop
  refine ⟨⟨removed, hperm, fun k hk => ?_⟩, fun hstep => hstep.updateValues hperm fun k item hget => ?_⟩
  · obtain ⟨item, hget, hnone⟩ := (hmem k).1 (hsub k hk)
    rw [hget, Option.bind_some, ← bind_updateItem waves keepUnavailable, hnone]
    rfl
  · constructor
    · intro hk
      obtain ⟨item', hget', hnone⟩ := (hmem k).1 (hsub k hk)
      exact Option.some.inj (hget.symm.trans hget') ▸ hnone
    · intro hnone
      have hin : k ∈ tree.refs := (hstep.mem_iff k).2 (by rw [hget]; rfl)
      exact (List.mem_append.1 (hperm.mem_iff.1 hin)).resolve_right (hgone k ((hmem k).2 ⟨item, hget, hnone⟩))

theorem items_updateDisplayedItems {waves : WaveContainer} {keepUnavailable : Bool}
    {items items' : FiniteMap DisplayedItemRef DisplayedItem} {tree tree' : DisplayedItemTree}
    (h : updateDisplayedItems waves items keepUnavailable tree = .ok (items', tree')) :
    items' = items.updateValues fun _ item => updateItem waves keepUnavailable item := by
  simp only [updateDisplayedItems, Except.bind_eq_ok] at h
  obtain ⟨tree₁, -, h⟩ := h
  cases h
  rfl

/-- A value that is updated keeps its marker number. -/
theorem markerOf_updateValues {items : FiniteMap DisplayedItemRef DisplayedItem}
    {f : DisplayedItemRef → DisplayedItem → Option DisplayedItem}
    (hf : ∀ k item, (f k item).bind DisplayedItem.markerIdx = item.markerIdx) (k : DisplayedItemRef) :
    ((items.updateValues f).get k).bind DisplayedItem.markerIdx
      = (items.get k).bind DisplayedItem.markerIdx := by
  rw [FiniteMap.get_updateValues]
  cases items.get k with
  | none => rfl
  | some item => exact hf k item

/-- A reload with another waveform. -/
theorem revalued_updateWithWaves {newWaves : WaveContainer} {keepUnavailable : Bool}
    (h : w.updateWithWaves newWaves keepUnavailable = .ok w') :
    w.contents.Revalued w'.contents ∧ w'.annotationGroups = [] := by
  simp only [updateWithWaves, Except.bind_eq_ok] at h
  obtain ⟨⟨items, tree⟩, hupdate, _, -, h⟩ := h
  cases h
  have hitems := items_updateDisplayedItems hupdate
  obtain ⟨hrefs, hstep⟩ := refs_updateDisplayedItems hupdate
  refine ⟨⟨hrefs, hstep, fun k hk => ?_, fun k => ?_, rfl, rfl, rfl⟩, rfl⟩
  · have hsome : (items.get k).isSome := hk
    rw [hitems, FiniteMap.get_updateValues] at hsome
    exact Option.isSome_of_isSome_bind hsome
  · show (items.get k).bind _ = _
    rw [hitems]
    exact markerOf_updateValues (fun _ => bind_updateItem newWaves keepUnavailable) k

/-- New values for all items, when markers keep their numbers. -/
theorem revalued_updateValues {f : DisplayedItemRef → DisplayedItem → Option DisplayedItem}
    (hmarker : ∀ k item, (f k item).bind DisplayedItem.markerIdx = item.markerIdx)
    (hsome : ∀ k item, (f k item).isSome) :
    w.contents.Revalued { w with displayedItems := w.displayedItems.updateValues f }.contents := by
  have hkeys : ∀ k, ((w.displayedItems.updateValues f).get k).isSome = (w.displayedItems.get k).isSome := by
    intro k
    rw [FiniteMap.get_updateValues]
    cases w.displayedItems.get k with
    | none => rfl
    | some item => exact hsome k item
  exact ⟨⟨[], .refl _, by simp⟩, fun hstep => hstep.congr hkeys, fun k hk => (hkeys k).symm.trans hk,
    markerOf_updateValues hmarker, rfl, rfl, rfl⟩

/-- New settings for the rows of a decoder. -/
theorem revalued_configureDecoder (w : WaveData) (instance_ : DecoderInstance)
    (settings : DecoderSettings) (bindings : RoleBindings) :
    w.contents.Revalued (w.configureDecoder instance_ settings bindings).contents := by
  refine revalued_updateValues (fun k item => ?_) fun k item => ?_
  · cases item with
    | decoder d =>
      dsimp only
      split <;> rfl
    | _ => rfl
  · cases item with
    | decoder d =>
      dsimp only
      split <;> rfl
    | _ => rfl

/-- The largest reference, which `update_with_items` sets the counter to. -/
def maxRef (items : FiniteMap DisplayedItemRef DisplayedItem) : ℕ := (items.keys.max?).getD 0

theorem le_maxRef {items : FiniteMap DisplayedItemRef DisplayedItem} {k : DisplayedItemRef}
    (hk : (items.get k).isSome) : k ≤ maxRef items := by
  rw [FiniteMap.isSome_get_iff] at hk
  rw [maxRef]
  cases hmax : items.keys.max? with
  | none =>
    rw [List.max?_eq_none_iff] at hmax
    rw [hmax] at hk
    cases hk
  | some n => exact (List.max?_eq_some_iff.1 hmax).2 k hk

/-- The display of a loaded state. -/
theorem revalued_withDisplay {new : WaveData} (h : SystemState.withDisplay w new = .ok w') :
    { new.contents with counter := maxRef new.displayedItems }.Revalued w'.contents ∧
      w'.annotationGroups = new.annotationGroups := by
  simp only [SystemState.withDisplay, updateWithItems, Except.bind_eq_ok] at h
  obtain ⟨w₁, ⟨⟨items, tree⟩, hupdate, _, -, hret⟩, h⟩ := h
  cases hret
  cases h
  have hitems := items_updateDisplayedItems hupdate
  have hkeys : items.keys = new.displayedItems.keys := by
    rw [hitems]
    exact FiniteMap.keys_updateValues (fun _ => isSome_updateItem w.inner) _
  obtain ⟨hrefs, hstep⟩ := refs_updateDisplayedItems hupdate
  refine ⟨⟨hrefs, hstep, fun k hk => ?_, fun k => ?_, ?_, rfl, rfl⟩, rfl⟩
  · rw [FiniteMap.isSome_get_iff] at hk ⊢
    exact hkeys ▸ hk
  · show (items.get k).bind _ = _
    rw [hitems]
    exact markerOf_updateValues (fun _ => bind_updateItem w.inner true) k
  · show (items.keys.max?).getD 0 = _
    rw [hkeys, maxRef]

end WaveData

/-! ## Runs -/

/-- The contents after a message that loads something. -/
def Message.Loads (w : WaveData) (m : Message) (c' : Contents) : Prop :=
  match m with
  | .wavesLoaded newWaves .clear =>
    c' = { WaveData.loaded newWaves with annotationGroups := [SystemState.ungrouped] }.contents
  | .wavesLoaded .. => w.contents.Revalued c' ∧ c'.groups = []
  | .loadState loaded =>
    match loaded.waves with
    | some new =>
      { new.contents with counter := WaveData.maxRef new.displayedItems }.Revalued c' ∧
        c'.groups = new.annotationGroups
    | none => c' = w.contents
  | _ => False

namespace SystemState

variable {env : Env} {σ σ' : SystemState} {w w' : WaveData} {I : Contents → Prop}

/-- The invariant holds of the display and of all snapshots. -/
structure Holds (I : Contents → Prop) (σ : SystemState) (w : WaveData) : Prop where
  waves : σ.user.waves = some w
  previousWaves : σ.user.previousWaves = none
  display : I w.contents
  snapshots : ∀ c ∈ σ.snapshots, I (c.contents w.displayItemRefCounter)

/-- A change of the waveform data keeps an invariant that does not mind a larger counter. -/
theorem Holds.of_changed (hmono : ∀ c n, I c → c.counter ≤ n → I { c with counter := n })
    (hinv : σ.Holds I w) (h : Changed σ w σ' w')
    (hcounter : w.displayItemRefCounter ≤ w'.displayItemRefCounter) (hdisplay : I w'.contents) :
    σ'.Holds I w' where
  waves := h.waves
  previousWaves := h.previousWaves.trans hinv.previousWaves
  display := hdisplay
  snapshots c hc := by
    rcases h.snapshots c hc with hold | ⟨message, rfl⟩
    · exact hmono _ _ (hinv.snapshots c hold) hcounter
    · exact hmono _ _ hinv.display hcounter

/-- Undo and redo keep an invariant. -/
theorem Holds.exchange {count : ℕ} {stack other : List CanvasState} (hinv : σ.Holds I w)
    (hstack : ∀ c ∈ stack, c ∈ σ.snapshots) (hother : ∀ c ∈ other, c ∈ σ.snapshots)
    (hwaves : σ'.user.waves = some (w.exchangeCanvas count stack other).1)
    (hprev : σ'.user.previousWaves = none)
    (hsnap : ∀ c ∈ σ'.snapshots, c ∈ (w.exchangeCanvas count stack other).2.1 ∨
      c ∈ (w.exchangeCanvas count stack other).2.2) : ∃ w', σ'.Holds I w' := by
  let n := w.displayItemRefCounter
  have hall := @History.exchange_all _ _ WaveData.swapCanvas count w stack other
    (fun w' => w'.displayItemRefCounter = n ∧ I w'.contents) (fun c => I (c.contents n))
    (fun w' c hw' hc => ⟨⟨hw'.1, (congrArg (fun n => I (c.contents n)) hw'.1).mpr hc⟩, hw'.1 ▸ hw'.2⟩)
    ⟨rfl, hinv.display⟩ (fun c hc => hinv.snapshots c (hstack c hc))
    fun c hc => hinv.snapshots c (hother c hc)
  rw [← WaveData.exchangeCanvas_eq] at hall
  obtain ⟨⟨hcounter, hdisplay⟩, hs, ho⟩ := hall
  refine ⟨_, hwaves, hprev, hdisplay, fun c hc => ?_⟩
  rw [hcounter]
  exact (hsnap c hc).elim (hs c) (ho c)

/-- A message keeps an invariant of all canvases, when the edits it consists of keep it, other values of
the items keep it, and what it loads has it, together with the snapshots. -/
theorem Holds.step {m : Message} (hmono : ∀ c n, I c → c.counter ≤ n → I { c with counter := n })
    (hinv : σ.Holds I w)
    (hedit : ∀ e c', (∀ k, e.removes k → m.Removes w k) → (∀ k, e.drops k → m.Drops w k) →
      (e.annotates → m.Annotates) → Relation.ReflTransGen (Edit e) w.contents c' → I c')
    (hrevalue : ∀ c', w.contents.Revalued c' → c'.groups = w.annotationGroups → I c')
    (hload : ∀ c', m.Loads w c' → I c' ∧ ∀ c ∈ σ.snapshots, I (c.contents c'.counter))
    (h : σ.update env m = .ok σ') : ∃ w', σ'.Holds I w' := by
  have hw := hinv.waves
  by_cases hord : m.Ordinary
  · obtain ⟨w', hchanged, hedited⟩ := update_edited hord hw h
    refine ⟨w', hinv.of_changed hmono hchanged hedited.counter_le ?_⟩
    exact hedit _ _ (fun _ hk => hk) (fun _ hk => hk) (fun ha => ha) hedited.edits
  cases m with
  | decoderAdd protocol items =>
    obtain ⟨w', hchanged, rfl | ⟨instance_, hadd⟩⟩ := decoderAdd_eq_ok hw h
    · exact ⟨_, hinv.of_changed hmono hchanged le_rfl hinv.display⟩
    · simp only [WaveData.addDecoder, Except.bind_eq_ok] at hadd
      obtain ⟨w₁, hlanes, hret⟩ := hadd
      cases hret
      have hedited := WaveData.edited_addLanes hlanes
      refine ⟨w', hinv.of_changed hmono hchanged hedited.counter_le ?_⟩
      exact hedit (.addsRows _) _ (fun _ => False.elim) (fun _ => False.elim) False.elim hedited.edits
  | decoderConfigure instance_ settings bindings =>
    obtain ⟨w', hf, hchanged⟩ := changed_edit hw h
    cases hf
    refine ⟨_, hinv.of_changed hmono hchanged le_rfl (hrevalue _ ?_ rfl)⟩
    exact w.revalued_configureDecoder instance_ settings bindings
  | undo count =>
    simp only [update, undo, hw] at h
    cases h
    exact hinv.exchange (fun c hc => List.mem_append_left _ hc)
      (fun c hc => List.mem_append_right _ hc) rfl hinv.previousWaves
      fun c hc => List.mem_append.1 hc
  | redo count =>
    simp only [update, redo, hw] at h
    cases h
    exact hinv.exchange (fun c hc => List.mem_append_right _ hc)
      (fun c hc => List.mem_append_left _ hc) rfl hinv.previousWaves
      fun c hc => (List.mem_append.1 hc).symm
  | wavesLoaded newWaves loadOptions =>
    simp only [update, onWavesLoaded, hw, hinv.previousWaves] at h
    by_cases hclear : loadOptions = .clear
    · subst hclear
      simp only [if_true] at h
      cases h
      obtain ⟨hdisplay, hsnap⟩ := hload _ rfl
      exact ⟨_, rfl, rfl, hdisplay, hsnap⟩
    · simp only [if_neg hclear, Except.bind_eq_ok] at h
      obtain ⟨w', hupdate, h⟩ := h
      cases h
      have hloads : (Message.wavesLoaded newWaves loadOptions).Loads w w'.contents := by
        cases loadOptions with
        | clear => exact absurd rfl hclear
        | keepAvailable | keepAll => exact WaveData.revalued_updateWithWaves hupdate
      obtain ⟨hdisplay, hsnap⟩ := hload _ hloads
      exact ⟨w', rfl, rfl, hdisplay, hsnap⟩
  | loadState loaded =>
    simp only [update, loadState, hw] at h
    cases hloaded : loaded.waves with
    | none =>
      rw [hloaded] at h
      cases h
      exact ⟨w, rfl, rfl, hinv.display, hinv.snapshots⟩
    | some new =>
      rw [hloaded] at h
      simp only [Except.bind_eq_ok] at h
      obtain ⟨w', hdisplay, h⟩ := h
      cases h
      have hloads : (Message.loadState loaded).Loads w w'.contents := by
        rw [Message.Loads, hloaded]
        exact WaveData.revalued_withDisplay hdisplay
      obtain ⟨hdisplay, hsnap⟩ := hload _ hloads
      exact ⟨w', rfl, rfl, hdisplay, hsnap⟩
  | _ => exact absurd trivial hord

end SystemState

end Wave
