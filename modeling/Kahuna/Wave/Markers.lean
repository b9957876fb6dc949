import Kahuna.Wave.Canvases
import Kahuna.Wave.References

/-!
# Markers

A marker has an item in the tree and an entry with its time in a table. The items are drawn with the times
of the table, so items and entries have to come and go together.

- `Contents.MarkersSound`: the invariant, the numbers of the marker items are the keys of the table.
- `SystemState.KeepsMarkers`: what keeps it.
- `markers_consistent`: in every run that keeps it, every marker item has its time, and every time its item.
-/

namespace Wave

open ItemTree Decoders

namespace Contents

/-- The numbers of the marker items, in the order of the tree. -/
def markerNumbers (c : Contents) : List ℕ := c.refs.filterMap c.markerOf

/-- The marker items have the numbers of the table, each once, and no reference in the tree is larger than
the counter. -/
structure MarkersSound (c : Contents) : Prop where
  inStep : FiniteMap.InStep c.markerNumbers c.markers
  le_counter : ∀ k ∈ c.refs, k ≤ c.counter

variable {c c' : Contents} {e : Effect}

/-- A rearranged tree. -/
theorem markerNumbers_perm (hperm : c'.refs.Perm c.refs) (hmarker : ∀ k ∈ c.refs, c'.markerOf k = c.markerOf k) :
    c'.markerNumbers.Perm c.markerNumbers := by
  rw [markerNumbers, markerNumbers, ← List.filterMap_congr hmarker]
  exact hperm.filterMap _

/-- Without references that are no markers, the numbers are the same. -/
theorem markerNumbers_of_removed {removed : List DisplayedItemRef}
    (hperm : c.refs.Perm (removed ++ c'.refs)) (hremoved : ∀ k ∈ removed, c.markerOf k = none)
    (hmarker : ∀ k, c'.markerOf k = c.markerOf k) : c.markerNumbers.Perm c'.markerNumbers := by
  have hnumbers := hperm.filterMap c.markerOf
  rw [List.filterMap_append, List.filterMap_eq_nil_iff.2 hremoved, List.nil_append] at hnumbers
  rwa [markerNumbers, markerNumbers, funext hmarker]

theorem markerOf_forget (c : Contents) (removed k : DisplayedItemRef) :
    (c.forget removed).markerOf k = if k = removed then none else c.markerOf k := by
  show ((c.items.remove removed).get k).bind _ = _
  rw [FiniteMap.get_remove]
  split <;> rfl

/-- Forgetting an item forgets the entry of its marker. -/
theorem markers_forget (c : Contents) (removed : DisplayedItemRef) :
    (c.forget removed).markers = (c.markerOf removed).toList.foldl FiniteMap.remove c.markers := by
  rw [forget, markerOf]
  split
  next hget => rw [hget]; rfl
  next hnot =>
    cases hget : c.items.get removed with
    | none => rfl
    | some item =>
      cases item with
      | marker name idx => exact absurd hget (hnot name idx)
      | _ => rfl

/-- Items are forgotten one by one. -/
theorem inStep_foldl_forget {removed refs : List DisplayedItemRef}
    (h : FiniteMap.InStep ((removed ++ refs).filterMap c.markerOf) c.markers) :
    FiniteMap.InStep (refs.filterMap (removed.foldl forget c).markerOf)
      (removed.foldl forget c).markers := by
  induction removed generalizing c with
  | nil => exact h
  | cons k rest ih =>
    refine @ih (c.forget k) ?_
    rw [markers_forget]
    rw [List.cons_append, List.filterMap_cons] at h
    have hforget : ∀ k' ∈ rest ++ refs, k' ≠ k → (c.forget k).markerOf k' = c.markerOf k' :=
      fun k' _ hne => by rw [markerOf_forget, if_neg hne]
    cases hk : c.markerOf k with
    | none =>
      rw [hk] at h
      have hsame : (c.forget k).markerOf = c.markerOf := by
        funext k'
        rw [markerOf_forget]
        split
        next heq => rw [heq, hk]
        next => rfl
      rw [hsame]
      exact h
    | some idx =>
      rw [hk] at h
      -- the number is that of no other item
      have hk' : k ∉ rest ++ refs := by
        intro hmem
        exact (List.nodup_cons.1 h.nodup).1 (List.mem_filterMap.2 ⟨k, hmem, hk⟩)
      have hsame : (rest ++ refs).filterMap (c.forget k).markerOf = (rest ++ refs).filterMap c.markerOf :=
        List.filterMap_congr fun k' hmem => hforget k' hmem fun heq => hk' (heq ▸ hmem)
      rw [hsame]
      have hperm : (idx :: (rest ++ refs).filterMap c.markerOf).Perm
          ([idx] ++ (rest ++ refs).filterMap c.markerOf) := .refl _
      exact h.removeAll hperm

namespace MarkersSound

theorem mono (h : c.MarkersSound) (n : ℕ) (hn : c.counter ≤ n) : MarkersSound { c with counter := n } :=
  ⟨h.inStep, fun k hk => (h.le_counter k hk).trans hn⟩

/-- The next reference is not in the tree. -/
theorem next_free (h : c.MarkersSound) : c.counter + 1 ∉ c.refs :=
  fun hmem => Nat.not_succ_le_self _ (h.le_counter _ hmem)

/-- A new item adds its own number, if it has one. -/
theorem numbers_add (h : c.MarkersSound) (item : DisplayedItem)
    (hperm : c'.refs.Perm ((c.counter + 1) :: c.refs))
    (hitems : c'.items = c.items.insert (c.counter + 1) item) :
    c'.markerNumbers.Perm (item.markerIdx.toList ++ c.markerNumbers) := by
  have hmarker : ∀ k, c'.markerOf k = if k = c.counter + 1 then item.markerIdx else c.markerOf k := by
    intro k
    rw [markerOf, hitems, FiniteMap.get_insert]
    split <;> rfl
  have hold : c.refs.filterMap c'.markerOf = c.markerNumbers := by
    refine List.filterMap_congr fun k hk => ?_
    rw [hmarker, if_neg]
    rintro rfl
    exact h.next_free hk
  refine (hperm.filterMap c'.markerOf).trans ?_
  rw [List.filterMap_cons, hold, hmarker, if_pos rfl]
  cases item.markerIdx <;> exact .refl _

/-- The references stay in range. -/
theorem le_add (h : c.MarkersSound) {refs : List DisplayedItemRef}
    (hperm : refs.Perm ((c.counter + 1) :: c.refs)) : ∀ k ∈ refs, k ≤ c.counter + 1 := by
  intro k hk
  rcases List.mem_cons.1 (hperm.mem_iff.1 hk) with rfl | hk
  · exact le_rfl
  · exact (h.le_counter k hk).trans (Nat.le_succ _)

theorem le_of_removed (h : c.MarkersSound) {removed refs : List DisplayedItemRef}
    (hperm : c.refs.Perm (removed ++ refs)) : ∀ k ∈ refs, k ≤ c.counter :=
  fun k hk => h.le_counter k (hperm.mem_iff.2 (List.mem_append_right _ hk))

/-- An edit keeps markers sound when it drops no marker item. -/
theorem edit (h : c.MarkersSound) (hdrops : ∀ k, e.drops k → c.markerOf k = none) (hedit : Edit e c c') :
    c'.MarkersSound := by
  cases hedit with
  | rearrange hperm =>
    exact ⟨h.inStep.perm (markerNumbers_perm hperm fun _ _ => rfl),
      fun k hk => h.le_counter k (hperm.mem_iff.1 hk)⟩
  | @add refs item _ hitem hperm =>
    refine ⟨h.inStep.perm ((h.numbers_add item hperm rfl).trans ?_), h.le_add hperm⟩
    rw [hitem]
    exact .refl _
  | @addMarker refs name idx location _ hfree hperm =>
    refine ⟨h.inStep.insert ?_ location (h.numbers_add (.marker name idx) hperm rfl), h.le_add hperm⟩
    rw [h.inStep.mem_iff, hfree]
    exact Bool.false_ne_true
  | moveMarker hsome => exact ⟨h.inStep.insert_of_mem ((h.inStep.mem_iff _).2 hsome) _, h.le_counter⟩
  | @remove refs removed hperm _ =>
    obtain ⟨hrefs, -, hcounter, -⟩ := foldl_forget removed { c with refs }
    have hstep := h.inStep.perm (hperm.filterMap c.markerOf).symm
    refine ⟨?_, ?_⟩
    · rw [markerNumbers, hrefs]
      exact @inStep_foldl_forget { c with refs } removed refs hstep
    · rw [hrefs, hcounter]
      exact h.le_of_removed hperm
  | @drop refs dropped hperm hdropped =>
    have hnone : ∀ k ∈ dropped, c.markerOf k = none := fun k hk => hdrops k (hdropped k hk)
    refine ⟨h.inStep.perm (markerNumbers_of_removed hperm hnone fun k => ?_).symm, h.le_of_removed hperm⟩
    show ((dropped.foldl FiniteMap.remove c.items).get k).bind _ = _
    rw [FiniteMap.get_removeAll]
    split
    next hk => exact (hnone k hk).symm
    next => rfl
  | annotate => exact ⟨h.inStep, h.le_counter⟩

/-- What is no marker item does not become one. -/
theorem markerOf_edit (hedit : Edit e c c') {k : DisplayedItemRef} (hk : k ≤ c.counter)
    (hnone : c.markerOf k = none) : c'.markerOf k = none := by
  have hremove : ∀ ks : List DisplayedItemRef,
      ((ks.foldl FiniteMap.remove c.items).get k).bind DisplayedItem.markerIdx = none := by
    intro ks
    rw [FiniteMap.get_removeAll]
    split
    · rfl
    · exact hnone
  have hinsert : ∀ item : DisplayedItem,
      ((c.items.insert (c.counter + 1) item).get k).bind DisplayedItem.markerIdx = none := by
    intro item
    rw [FiniteMap.get_insert, if_neg]
    · exact hnone
    · rintro rfl
      exact Nat.not_succ_le_self _ hk
  cases hedit with
  | rearrange | moveMarker | annotate => exact hnone
  | add | addMarker => exact hinsert _
  | @remove refs removed =>
    rw [markerOf, (foldl_forget removed { c with refs }).2.1]
    exact hremove removed
  | drop => exact hremove _

theorem edits (h : c.MarkersSound) (hdrops : ∀ k, e.drops k → k ∈ c.refs ∧ c.markerOf k = none)
    (hedits : Relation.ReflTransGen (Edit e) c c') : c'.MarkersSound := by
  have hall : c'.MarkersSound ∧ ∀ k, e.drops k → k ≤ c'.counter ∧ c'.markerOf k = none := by
    induction hedits with
    | refl => exact ⟨h, fun k hk => ⟨h.le_counter k (hdrops k hk).1, (hdrops k hk).2⟩⟩
    | tail _ hedit ih =>
      refine ⟨ih.1.edit (fun k hk => (ih.2 k hk).2) hedit, fun k hk => ?_⟩
      exact ⟨(ih.2 k hk).1.trans hedit.counter_le, markerOf_edit hedit (ih.2 k hk).1 (ih.2 k hk).2⟩
  exact hall.1

theorem revalued (h : c.MarkersSound) (hrevalued : c.Revalued c') : c'.MarkersSound := by
  obtain ⟨removed, hperm, hremoved⟩ := hrevalued.refs
  have hnumbers := markerNumbers_of_removed hperm hremoved hrevalued.markerOf
  refine ⟨?_, ?_⟩
  · rw [hrevalued.markers]
    exact h.inStep.perm hnumbers.symm
  · rw [hrevalued.counter]
    exact h.le_of_removed hperm

end MarkersSound

end Contents

/-! ## Runs -/

/-- The marker items in the tree have distinct numbers, which are those of the table; so the time of every
marker on display is there. -/
structure WaveData.MarkersConsistent (w : WaveData) : Prop where
  distinct : w.contents.markerNumbers.Nodup
  mem_iff (idx : ℕ) : idx ∈ w.contents.markerNumbers ↔ idx ∈ w.markers.keys
  time {k : DisplayedItemRef} {name : Option String} {idx : ℕ} : k ∈ w.itemsTree.refs →
    w.displayedItems.get k = some (.marker name idx) → ∃ time, w.numberedMarkerTime idx = .ok time

theorem Contents.MarkersSound.consistent {w : WaveData} (h : w.contents.MarkersSound) :
    w.MarkersConsistent where
  distinct := h.inStep.nodup
  mem_iff idx := (h.inStep.mem_iff idx).trans FiniteMap.isSome_get_iff
  time {k name idx} hk hget := by
    have hnumber : idx ∈ w.contents.markerNumbers := by
      refine List.mem_filterMap.2 ⟨k, hk, ?_⟩
      show (w.displayedItems.get k).bind _ = _
      rw [hget]
      rfl
    obtain ⟨time, htime⟩ := Option.isSome_iff_exists.1 ((h.inStep.mem_iff idx).1 hnumber)
    have hmarkers : w.markers.get idx = some time := htime
    exact ⟨time, by rw [WaveData.numberedMarkerTime, hmarkers]⟩

namespace SystemState

variable {env : Env} {σ σ' : SystemState} {w : WaveData}

/-- No tree of a snapshot has a reference larger than `n`. -/
def TreesUpTo (σ : SystemState) (n : ℕ) : Prop := ∀ c ∈ σ.snapshots, ∀ k ∈ c.itemsTree.refs, k ≤ n

/-- What keeps markers consistent: a message that drops items drops no marker item; the markers of a loaded
state are sound; and when the counter is set back, no snapshot has a larger reference. -/
def KeepsMarkers (σ : SystemState) (m : Message) : Prop :=
  match m with
  | .loadState loaded =>
    ∀ new, loaded.waves = some new →
      Contents.MarkersSound { new.contents with counter := WaveData.maxRef new.displayedItems } ∧
        σ.TreesUpTo (WaveData.maxRef new.displayedItems)
  | .wavesLoaded _ .clear => σ.TreesUpTo 0
  | m => ∀ w, σ.user.waves = some w → ∀ k, m.Drops w k → w.contents.markerOf k = none

/-- The markers of the snapshots are sound for another counter. -/
theorem markersSound_snapshots (hinv : σ.Holds Contents.MarkersSound w) {n : ℕ} (hn : σ.TreesUpTo n) :
    ∀ c ∈ σ.snapshots, (c.contents n).MarkersSound :=
  fun c hc => ⟨(hinv.snapshots c hc).inStep, hn c hc⟩

theorem markersSound_loaded (inner : WaveContainer) (groups : List AnnotationGroup) :
    { WaveData.loaded inner with annotationGroups := groups }.contents.MarkersSound :=
  ⟨FiniteMap.inStep_empty, by simp [WaveData.contents, WaveData.loaded, DisplayedItemTree.refs]⟩

/-- One step keeps the markers sound. -/
theorem markersSound_step {m : Message} (hinv : ∃ w, σ.Holds Contents.MarkersSound w)
    (hm : σ.KeepsMarkers m) (h : σ.update env m = .ok σ') : ∃ w', σ'.Holds Contents.MarkersSound w' := by
  obtain ⟨w, hinv⟩ := hinv
  have hdrops : ∀ k, m.Drops w k → k ∈ w.contents.refs ∧ w.contents.markerOf k = none := by
    intro k hk
    refine ⟨hk.mem_refs, ?_⟩
    cases m with
    | groupDissolve | removePlaceholders => exact hm w hinv.waves k hk
    | _ => exact hk.elim
  refine hinv.step (fun c n hc => hc.mono n) (fun e c' _ he _ hedits => ?_)
    (fun c' hc' _ => hinv.display.revalued hc') (fun c' hc' => ?_) h
  · exact hinv.display.edits (fun k hk => hdrops k (he k hk)) hedits
  · cases m with
    | wavesLoaded newWaves loadOptions =>
      cases loadOptions with
      | clear =>
        obtain rfl := hc'
        exact ⟨markersSound_loaded newWaves _, markersSound_snapshots hinv hm⟩
      | keepAvailable | keepAll =>
        refine ⟨hinv.display.revalued hc'.1, ?_⟩
        rw [hc'.1.counter]
        exact hinv.snapshots
    | loadState loaded =>
      simp only [Message.Loads] at hc'
      cases hloaded : loaded.waves with
      | none =>
        rw [hloaded] at hc'
        obtain rfl := hc'
        exact ⟨hinv.display, hinv.snapshots⟩
      | some new =>
        rw [hloaded] at hc'
        obtain ⟨hnew, hsnap⟩ := hm new hloaded
        refine ⟨hnew.revalued hc'.1, ?_⟩
        rw [hc'.1.counter]
        exact markersSound_snapshots hinv hsnap
    | _ => exact hc'.elim

/-- In every run that keeps markers consistent, they are consistent in every state. -/
theorem markers_consistent {inner : WaveContainer}
    (h : Transition.Reachable (update env) KeepsMarkers (fresh inner) σ) :
    ∀ w, σ.user.waves = some w → w.MarkersConsistent := by
  have hstart : ∃ w, (fresh inner).Holds Contents.MarkersSound w :=
    ⟨_, rfl, rfl, markersSound_loaded inner _, by simp [fresh, SystemState.snapshots]⟩
  obtain ⟨w, hinv⟩ := h.invariant hstart fun _ _ _ hinv hm hstep => markersSound_step hinv hm hstep
  intro w' hw'
  obtain rfl : w = w' := Option.some.inj (hinv.waves.symm.trans hw')
  exact hinv.display.consistent

/-- No item is dropped by dissolving or with placeholders, and nothing is loaded but waveforms that keep
the items. -/
def dropsNothing (_ : SystemState) (m : Message) : Bool :=
  match m with
  | .groupDissolve _ | .removePlaceholders | .loadState _ | .wavesLoaded _ .clear => false
  | _ => true

theorem keepsMarkers_of_dropsNothing (σ : SystemState) (m : Message) (h : σ.dropsNothing m = true) :
    σ.KeepsMarkers m := by
  cases m with
  | wavesLoaded newWaves loadOptions =>
    cases loadOptions with
    | clear => cases h
    | _ => exact fun _ _ _ => False.elim
  | groupDissolve | removePlaceholders | loadState => cases h
  | _ => exact fun _ _ _ => False.elim

/-- A marker is added and moved, a second one is removed, and the removal is undone. -/
theorem markers_consistent_removal :
    ∃ σ w, Transition.checkedRun (update defaultEnv) dropsNothing (fresh linkWaves)
        [.addMarker 5 (some "start") false, .setMarker 0 7, .setMarker 3 9, .removeItems [2], .undo 1]
          = some σ ∧
      σ.user.waves = some w ∧ w.contents.markerNumbers = [0, 3] ∧ w.MarkersConsistent := by
  obtain ⟨σ, hrun, hreach, htest⟩ := Transition.exists_reachable_of_checkedRun (update defaultEnv)
    KeepsMarkers (fresh linkWaves) dropsNothing
    [.addMarker 5 (some "start") false, .setMarker 0 7, .setMarker 3 9, .removeItems [2], .undo 1]
    (fun σ => σ.user.waves.any fun w => w.contents.markerNumbers = [0, 3])
    keepsMarkers_of_dropsNothing (by decide)
  obtain ⟨w, hw, hnumbers⟩ := (Option.any_eq_true _ _).1 htest
  exact ⟨σ, w, hrun, hw, by simpa using hnumbers, markers_consistent hreach w hw⟩

/-- A marker item that is dissolved leaves its entry in the table. -/
theorem not_markersConsistent_dissolved :
    ¬ ∀ (env : Env) (inner : WaveContainer) (σ : SystemState),
      Transition.Reachable (update env) (fun _ _ => True) (fresh inner) σ →
        ∀ w, σ.user.waves = some w → w.MarkersConsistent := by
  intro h
  obtain ⟨σ, -, hreach, htest⟩ := Transition.exists_reachable_of_run (update defaultEnv)
    (fun _ _ => True) (fresh linkWaves) [.addMarker 5 none false, .groupDissolve (some 1)]
    (fun σ => σ.user.waves.any fun w => w.contents.markerNumbers = [] ∧ 0 ∈ w.markers.keys)
    (by simp) (by decide)
  obtain ⟨w, hw, hnumbers⟩ := (Option.any_eq_true _ _).1 htest
  rw [decide_eq_true_eq] at hnumbers
  have hmem := ((h defaultEnv linkWaves σ hreach w hw).mem_iff 0).2 hnumbers.2
  rw [hnumbers.1] at hmem
  cases hmem

end SystemState

end Wave
