import Kahuna.Wave.Drawing
import Kahuna.Wave.Effects

/-!
# Soundness of the decode cache

What is drawn from the cache against what a fresh decode gives, in every state that messages,
arriving signals and draws can reach.

The key of a cached result compares its bindings as references are compared, by path and name. The
elements of an array have the same path and name, so a decoder that is rebound from one element to
another keeps the result of the first.

- `lanes_eq_of_isValidFor`: two keys that compare equal, over bindings to the same signals, belong to
  equal results.
- `CachedFrom`: where an entry of the cache comes from.
- `cache_sound`: the cache is sound in every run in which bindings that compare equal name the same
  signals.
-/

namespace Wave

open ItemTree Decoders

/-! ## Stages of loading -/

namespace WaveContainer

variable {c c' c'' : WaveContainer} {s : SignalRef} {changes : List (UInt64 × VariableValue)}
  {signals : List (Option SignalRef)}

/-- `c` is an earlier stage of `c'`: the same file, of which no more is loaded. -/
structure Stage (c c' : WaveContainer) : Prop where
  hierarchy : c'.hierarchy = c.hierarchy
  signals {s : SignalRef} {changes : List (UInt64 × VariableValue)} :
    c.signals s = some changes → c'.signals s = some changes

namespace Stage

theorem refl (c : WaveContainer) : Stage c c := ⟨rfl, id⟩

theorem trans (h : Stage c c') (h' : Stage c' c'') : Stage c c'' :=
  ⟨h'.hierarchy.trans h.hierarchy, fun hs => h'.signals (h.signals hs)⟩

/-- A signal that arrives opens a new stage, unless it is there with other changes. -/
theorem of_signalLoaded (h : ∀ old, c.signals s = some old → old = changes) :
    Stage c (c.signalLoaded s changes) where
  hierarchy := rfl
  signals {s' changes'} hs' := by
    simp only [signalLoaded]
    split
    next heq =>
      subst heq
      rw [h changes' hs']
    next => exact hs'

/-- The signals behind bindings are the same in all stages. -/
theorem boundSignals (h : Stage c c') (bindings : List (Option VariableRef)) :
    c'.boundSignals bindings = c.boundSignals bindings := by
  have hsignal : ∀ r, c'.signalRef r = c.signalRef r := by
    intro r
    simp only [signalRef, getVar, getVarRef, h.hierarchy]
  induction bindings with
  | nil => rfl
  | cons binding rest ih =>
    cases binding with
    | none => simp only [WaveContainer.boundSignals, ih]
    | some r => simp only [WaveContainer.boundSignals, ih, hsignal]

/-- Where the same signals are loaded in two stages, they have the same lanes. -/
theorem lanes_eq (h : Stage c c') (hloaded : c.loadedFlags signals = c'.loadedFlags signals) :
    c.lanes signals = c'.lanes signals := by
  refine List.map_congr_left fun s hs => ?_
  have hflag := List.map_inj_left.1 hloaded s hs
  cases s with
  | none => rfl
  | some s =>
    simp only [Option.any_some, isSignalLoaded] at hflag
    simp only [Option.bind_some, bitLane]
    cases hold : c.signals s with
    | some changes => rw [h.signals hold]
    | none =>
      rw [hold, Option.isSome_none, eq_comm, Option.isSome_eq_false_iff,
        Option.isNone_iff_eq_none] at hflag
      rw [hflag]

end Stage

end WaveContainer

/-! ## Entries of the cache -/

/-- What a valid key has in common with the key it is valid for. -/
theorem CachedDecode.eq_of_isValidFor {e : CachedDecode} {key : DecodeKey}
    (h : e.isValidFor key = true) :
    e.key.generation = key.generation ∧ e.key.settings = key.settings ∧
      e.key.loaded = key.loaded := by
  simp only [isValidFor, DecodeKey.eq, Bool.and_eq_true, beq_iff_eq] at h
  exact ⟨h.1.1.1, h.1.1.2, h.2⟩

namespace WaveData

variable {w w' : WaveData} {rows : List Row} {i : DecoderInstance} {e : CachedDecode}
  {cache cache' : DecodeCache} {drawn : Drawn}

/-- The entry was decoded from an earlier generation or, in this one, from a stage of the file. -/
structure CachedFrom (w : WaveData) (e : CachedDecode) : Prop where
  generation_le : e.key.generation ≤ w.cacheGeneration
  stage : e.key.generation = w.cacheGeneration →
    ∃ (c : WaveContainer) (signals : List (Option SignalRef)), c.Stage w.inner ∧
      c.boundSignals e.key.bindings.signals = .ok signals ∧
      e.key.loaded = c.loadedFlags signals ∧ e.lanes = e.key.settings.decode (c.lanes signals)

/-- A fresh result comes from the file. -/
theorem cachedFrom_freshDecode {settings : DecoderSettings} {bindings : RoleBindings}
    {signals : List (Option SignalRef)} (h : w.inner.boundSignals bindings.signals = .ok signals) :
    w.CachedFrom (w.freshDecode settings bindings signals) :=
  ⟨le_rfl, fun _ => ⟨w.inner, signals, .refl _, h, rfl, rfl⟩⟩

/-- An entry is from the file also when more of the file has been loaded. -/
theorem CachedFrom.of_stage (h : w.CachedFrom e) (hgeneration : w'.cacheGeneration = w.cacheGeneration)
    (hstage : w.inner.Stage w'.inner) : w'.CachedFrom e where
  generation_le := hgeneration ▸ h.generation_le
  stage heq := by
    obtain ⟨c, signals, hc, hrest⟩ := h.stage (heq.trans hgeneration)
    exact ⟨c, signals, hc.trans hstage, hrest⟩

/-- Every entry is older than a new generation. -/
theorem CachedFrom.of_reload (h : w.CachedFrom e)
    (hgeneration : w'.cacheGeneration = w.cacheGeneration + 1) : w'.CachedFrom e where
  generation_le := (h.generation_le.trans (Nat.le_succ _)).trans hgeneration.ge
  stage heq := absurd (heq.trans hgeneration) (Nat.lt_succ_of_le h.generation_le).ne

/-- The bindings of the entry name the same signals as `bindings`. -/
def SameSignals (w : WaveData) (e : CachedDecode) (bindings : RoleBindings) : Prop :=
  w.inner.boundSignals e.key.bindings.signals = w.inner.boundSignals bindings.signals

/-- A result whose key compares equal is the one that decoding gives, if the bindings name the same
signals. -/
theorem lanes_eq_of_isValidFor {settings : DecoderSettings} {bindings : RoleBindings}
    {signals : List (Option SignalRef)} (hfrom : w.CachedFrom e)
    (hbound : w.inner.boundSignals bindings.signals = .ok signals)
    (hvalid : e.isValidFor (w.decodeKey settings bindings signals) = true)
    (hsame : w.SameSignals e bindings) : e.lanes = settings.decode (w.inner.lanes signals) := by
  obtain ⟨hgeneration, hsettings, hloaded⟩ := CachedDecode.eq_of_isValidFor hvalid
  obtain ⟨c, signals', hstage, hbound', hloaded', hlanes⟩ := hfrom.stage hgeneration
  -- the same signals are behind both bindings, and the same of them are loaded
  have hsignals : signals' = signals := by
    rw [← hstage.boundSignals, hsame, hbound] at hbound'
    exact (Except.ok.inj hbound').symm
  subst hsignals
  rw [hlanes, hsettings, hstage.lanes_eq (hloaded'.symm.trans hloaded)]
  rfl

/-! ## Draws -/

/-- A property of the entry of a decoder, where it is valid for the key of the first row. -/
def OnValid (w : WaveData) (rows : List Row)
    (P : DisplayedDecoder → List (Option SignalRef) → CachedDecode → Prop) (i : DecoderInstance)
    (e : CachedDecode) : Prop :=
  ∀ first ∈ (rowsOf rows i).head?, ∀ signals,
    w.inner.boundSignals first.2.bindings.signals = .ok signals →
    e.isValidFor (w.decodeKey first.2.settings first.2.bindings signals) = true →
    P first.2 signals e

/-- The entry holds the result of a fresh decode. -/
def HoldsFresh (w : WaveData) (first : DisplayedDecoder) (signals : List (Option SignalRef))
    (e : CachedDecode) : Prop :=
  e.lanes = first.settings.decode (w.inner.lanes signals)

/-- What decoding the signals of a decoder afresh draws for its rows. -/
def freshInstance (w : WaveData) (rows : List Row) (i : DecoderInstance) : Run Drawn :=
  match rowsOf rows i with
  | [] => .ok []
  | (itemRef, first) :: rest => do
    let signals ← w.inner.boundSignals first.bindings.signals
    return drawRows ((itemRef, first) :: rest) (first.settings.decode (w.inner.lanes signals))

/-- What decoding the signals of all decoders afresh draws. -/
def freshInstances (w : WaveData) (rows : List Row) : List DecoderInstance → Run Drawn
  | [] => .ok []
  | i :: rest => do
    let drawn ← w.freshInstance rows i
    let drawnRest ← w.freshInstances rows rest
    return drawn ++ drawnRest

/-- What decoding the signals that are bound now draws. -/
def drawFresh (w : WaveData) : Run Drawn := w.freshInstances w.decoderRows (instances w.decoderRows)

/-- A cache of fresh results draws what a fresh decode does for a decoder, and stays fresh. -/
theorem drawInstance_eq_fresh (hfresh : cache.All (w.OnValid rows w.HoldsFresh)) :
    ∃ cache₁ : DecodeCache, cache₁.All (w.OnValid rows w.HoldsFresh) ∧
      w.drawInstance rows i cache = (·, cache₁) <$> w.freshInstance rows i := by
  unfold drawInstance freshInstance
  cases hrows : rowsOf rows i with
  | nil => exact ⟨cache, hfresh, rfl⟩
  | cons first rest =>
    match hbound : w.inner.boundSignals first.2.bindings.signals with
    | .error p => exact ⟨cache, hfresh, by simp only [hbound]; rfl⟩
    | .ok signals =>
      have hhead : first ∈ (rowsOf rows i).head? := by rw [hrows]; rfl
      have hnew : w.OnValid rows w.HoldsFresh i
          (w.freshDecode first.2.settings first.2.bindings signals) := by
        intro first' hfirst' signals' hbound' _
        obtain rfl : first = first' := Option.some.inj (hhead.symm.trans hfirst')
        rw [hbound] at hbound'
        cases hbound'
        rfl
      -- whatever is fetched holds the fresh lanes
      have hlanes : (w.fetchDecode cache i first.2.settings first.2.bindings signals).1.lanes
          = first.2.settings.decode (w.inner.lanes signals) := by
        rcases cache.fetch_fst with ⟨e, hget, hvalid, heq⟩ | heq
        · rw [fetchDecode, heq]
          exact hfresh i e hget first hhead signals hbound hvalid
        · rw [fetchDecode, heq]
          rfl
      refine ⟨(w.fetchDecode cache i first.2.settings first.2.bindings signals).2,
        hfresh.fetch hnew, ?_⟩
      simp only [hbound]
      show Except.ok (drawRows _ (w.fetchDecode ..).1.lanes, _) = _
      rw [hlanes]
      rfl

/-- A cache of fresh results draws what a fresh decode does. -/
theorem drawInstances_eq_fresh {instances : List DecoderInstance}
    (hfresh : cache.All (w.OnValid rows w.HoldsFresh)) :
    Prod.fst <$> w.drawInstances rows instances cache = w.freshInstances rows instances := by
  induction instances generalizing cache with
  | nil => rfl
  | cons i rest ih =>
    obtain ⟨cache₁, hfresh₁, hdraw⟩ := drawInstance_eq_fresh (i := i) hfresh
    simp only [drawInstances, freshInstances, hdraw, ← ih hfresh₁]
    match w.freshInstance rows i with
    | .error p => rfl
    | .ok drawn =>
      match hrest : w.drawInstances rows rest cache₁ with
      | .error p =>
        show Prod.fst <$> (w.drawInstances rows rest cache₁ >>= _) = _
        rw [hrest]
        rfl
      | .ok (drawnRest, cache₂) =>
        show Prod.fst <$> (w.drawInstances rows rest cache₁ >>= _) = _
        rw [hrest]
        rfl

/-- What a draw leaves in the cache comes from the file, if what it used did. -/
theorem drawInstance_cachedFrom
    (hvalid : cache.All (w.OnValid rows fun _ _ e => w.CachedFrom e))
    (h : w.drawInstance rows i cache = .ok (drawn, cache')) :
    cache'.All (w.OnValid rows fun _ _ e => w.CachedFrom e) ∧
      (∀ k e, cache'.get k = some e → cache.get k = some e ∨ w.CachedFrom e) ∧
      (rowsOf rows i ≠ [] → ∀ e, cache'.get i = some e → w.CachedFrom e) := by
  unfold drawInstance at h
  cases hrows : rowsOf rows i with
  | nil =>
    rw [hrows] at h
    cases h
    exact ⟨hvalid, fun _ _ h => .inl h, fun hne => absurd rfl hne⟩
  | cons first rest =>
    simp only [hrows, Except.bind_eq_ok] at h
    obtain ⟨signals, hbound, h⟩ := h
    cases h
    have hnew : w.CachedFrom (w.freshDecode first.2.settings first.2.bindings signals) :=
      cachedFrom_freshDecode hbound
    have hself : w.CachedFrom
        (w.fetchDecode cache i first.2.settings first.2.bindings signals).1 := by
      rcases cache.fetch_fst with ⟨e, hget, he, heq⟩ | heq
      · rw [fetchDecode, heq]
        exact hvalid i e hget first (by rw [hrows]; rfl) signals hbound he
      · rw [fetchDecode, heq]
        exact hnew
    refine ⟨hvalid.fetch fun _ _ _ _ _ => hnew, fun k e hget => ?_, fun _ e hget => ?_⟩
    · by_cases hk : k = i
      · subst hk
        rw [fetchDecode, FiniteMap.get_fetch_self] at hget
        exact .inr (Option.some.inj hget ▸ hself)
      · rw [fetchDecode, FiniteMap.get_fetch_of_ne hk] at hget
        exact .inl hget
    · rw [fetchDecode, FiniteMap.get_fetch_self] at hget
      exact Option.some.inj hget ▸ hself

/-- So does what all draws leave there. Entries of decoders that are not drawn stay. -/
theorem drawInstances_cachedFrom {instances : List DecoderInstance}
    (hvalid : cache.All (w.OnValid rows fun _ _ e => w.CachedFrom e))
    (hrows : ∀ i ∈ instances, rowsOf rows i ≠ [])
    (h : w.drawInstances rows instances cache = .ok (drawn, cache')) :
    ∀ k e, cache'.get k = some e → w.CachedFrom e ∨ k ∉ instances ∧ cache.get k = some e := by
  induction instances generalizing cache drawn with
  | nil =>
    cases h
    exact fun k e hget => .inr ⟨List.not_mem_nil, hget⟩
  | cons i rest ih =>
    rw [List.forall_mem_cons] at hrows
    simp only [drawInstances, Except.bind_eq_ok] at h
    obtain ⟨⟨drawn₁, cache₁⟩, h₁, ⟨drawn₂, cache₂⟩, h₂, h⟩ := h
    cases h
    obtain ⟨hvalid₁, hold, hself⟩ := drawInstance_cachedFrom hvalid h₁
    intro k e hget
    rcases ih hvalid₁ hrows.2 h₂ k e hget with hfrom | ⟨hk, hget₁⟩
    · exact .inl hfrom
    by_cases hki : k = i
    · subst hki
      exact .inl (hself hrows.1 e hget₁)
    · refine (hold k e hget₁).symm.imp_right fun hget₀ => ⟨?_, hget₀⟩
      simpa using ⟨hki, hk⟩

/-- Every decoder that is drawn has a row. -/
theorem rowsOf_ne_nil (h : i ∈ instances rows) : rowsOf rows i ≠ [] := by
  simp only [instances, List.mem_eraseDups, List.mem_map] at h
  obtain ⟨row, hrow, heq⟩ := h
  exact List.ne_nil_of_mem (List.mem_filter.2 ⟨hrow, by simp [heq]⟩)

/-- The valid entries that a draw of the visible rows uses have a property. -/
def ValidEntries (w : WaveData) (cache : DecodeCache)
    (P : DisplayedDecoder → List (Option SignalRef) → CachedDecode → Prop) : Prop :=
  cache.All (w.OnValid w.decoderRows P)

theorem ValidEntries.retain {P : DisplayedDecoder → List (Option SignalRef) → CachedDecode → Prop}
    (h : w.ValidEntries cache P) (keep : DecoderInstance → Bool) :
    w.ValidEntries (cache.retain keep) P := by
  intro k e hget
  rw [FiniteMap.get_retain] at hget
  split at hget
  · exact h k e hget
  · cases hget

/-- A draw whose valid entries hold fresh results draws what a fresh decode does. -/
theorem decoderDrawCommands_eq_fresh (h : w.ValidEntries cache w.HoldsFresh) :
    Prod.fst <$> w.decoderDrawCommands cache = w.drawFresh :=
  drawInstances_eq_fresh (h.retain _)

/-- After a draw whose valid entries come from the file, all entries do. -/
theorem decoderDrawCommands_cachedFrom (h : w.ValidEntries cache fun _ _ e => w.CachedFrom e)
    (hdraw : w.decoderDrawCommands cache = .ok (drawn, cache')) :
    cache'.All fun _ e => w.CachedFrom e := by
  intro k e hget
  have hentries := drawInstances_cachedFrom (h.retain _) (fun _ => rowsOf_ne_nil) hdraw
  rcases hentries k e hget with hfrom | ⟨hk, hget₀⟩
  · exact hfrom
  · rw [FiniteMap.get_retain, if_neg (by simpa using hk)] at hget₀
    cases hget₀

end WaveData

/-! ## Runs -/

namespace DrawState

variable {env : Env} {s s' : DrawState} {w : WaveData} {event : DrawEvent}

/-- The file does not change: a signal that arrives again has the changes it had. -/
def FromFile (s : DrawState) (event : DrawEvent) : Prop :=
  match event with
  | .signalLoaded id changes =>
    ∀ w, s.system.user.waves = some w → ∀ old, w.inner.signals id = some old → old = changes
  | _ => True

/-- Bindings that are compared mean the same: the entry was not left behind by another file, and its
bindings name the same signals as `bindings`. -/
def SameSource (s : DrawState) (w : WaveData) (e : CachedDecode) (bindings : RoleBindings) : Prop :=
  s.replaced = false ∧ w.SameSignals e bindings

/-- What keeps the cache sound: where a draw finds a valid entry, the bindings mean the same. -/
def KeepsCache (s : DrawState) (event : DrawEvent) : Prop :=
  s.FromFile event ∧
    match event with
    | .draw => ∀ w, s.system.user.waves = some w →
        w.ValidEntries s.cache fun first _ e => s.SameSource w e first.bindings
    | _ => True

/-- The entries of the cache come from the file, unless another file was loaded since. -/
structure CacheConsistent (s : DrawState) (w : WaveData) : Prop where
  waves : s.system.user.waves = some w
  previousWaves : s.system.user.previousWaves = none
  cachedFrom : s.replaced = false → s.cache.All fun _ e => w.CachedFrom e

theorem cacheConsistent_fresh (inner : WaveContainer) : ∃ w, (fresh inner).CacheConsistent w :=
  ⟨_, rfl, rfl, fun _ => FiniteMap.all_empty⟩

/-- Where the bindings mean the same, valid entries come from the file. -/
theorem CacheConsistent.validEntries (hinv : s.CacheConsistent w)
    (hsame : w.ValidEntries s.cache fun first _ e => s.SameSource w e first.bindings) :
    w.ValidEntries s.cache fun _ _ e => w.CachedFrom e := by
  intro i e hget first hfirst signals hbound hvalid
  obtain ⟨hreplaced, -⟩ := hsame i e hget first hfirst signals hbound hvalid
  exact hinv.cachedFrom hreplaced i e hget

/-- One step keeps the cache consistent. -/
theorem CacheConsistent.step (hinv : ∃ w, s.CacheConsistent w) (hkeeps : s.KeepsCache event)
    (h : s.step env event = .ok s') : ∃ w', s'.CacheConsistent w' := by
  obtain ⟨w, hinv⟩ := hinv
  cases event with
  | message m =>
    simp only [DrawState.step, Except.bind_eq_ok] at h
    obtain ⟨σ', hupdate, h⟩ := h
    cases h
    obtain ⟨w', hw', hprevious, hcontainer⟩ :=
      SystemState.update_container hinv.waves hinv.previousWaves hupdate
    refine ⟨w', hw', hprevious, fun hreplaced i e hget => ?_⟩
    obtain ⟨hbefore, hkept⟩ := Bool.or_eq_false_iff.1 hreplaced
    have hfrom := hinv.cachedFrom hbefore i e hget
    cases m with
    | wavesLoaded newWaves loadOptions =>
      have hclear : loadOptions ≠ .clear := by
        rintro rfl
        cases hkept
      exact hfrom.of_reload (hcontainer.2.trans (if_neg hclear))
    | _ => exact hfrom.of_stage hcontainer.2 (hcontainer.1 ▸ .refl _)
  | signalLoaded id changes =>
    simp only [DrawState.step, Except.bind_eq_ok] at h
    obtain ⟨σ', honWaves, h⟩ := h
    cases h
    obtain ⟨w', hf, rfl⟩ := SystemState.onWaves_eq_ok hinv.waves honWaves
    cases hf
    refine ⟨_, rfl, hinv.previousWaves, fun hreplaced i e hget => ?_⟩
    have hstage := WaveContainer.Stage.of_signalLoaded (hkeeps.1 w hinv.waves)
    exact (hinv.cachedFrom hreplaced i e hget).of_stage rfl hstage
  | draw =>
    simp only [DrawState.step, draw, hinv.waves, Except.bind_eq_ok] at h
    obtain ⟨⟨drawn, cache⟩, hdraw, h⟩ := h
    cases h
    have hvalid := hinv.validEntries (hkeeps.2 w hinv.waves)
    exact ⟨w, hinv.waves, hinv.previousWaves, fun _ =>
      WaveData.decoderDrawCommands_cachedFrom hvalid hdraw⟩

/-- The law of the keys: a cached result whose key compares equal to the key of a configuration is
what decoding the lanes that this configuration binds gives. -/
def KeyLaw (w : WaveData) (e : CachedDecode) (settings : DecoderSettings)
    (bindings : RoleBindings) : Prop :=
  ∀ signals, w.inner.boundSignals bindings.signals = .ok signals →
    e.isValidFor (w.decodeKey settings bindings signals) = true →
    e.lanes = settings.decode (w.inner.lanes signals)

/-- What is drawn is what a fresh decode of the signals that are bound now draws. -/
def DrawsFresh (w : WaveData) (cache : DecodeCache) : Prop :=
  Prod.fst <$> w.decoderDrawCommands cache = w.drawFresh

/-- In every run in which bindings that compare equal mean the same wherever a draw finds a valid
entry, the keys obey their law where they do, and what is drawn is fresh. -/
theorem cache_sound {inner : WaveContainer}
    (h : Transition.Reachable (step env) KeepsCache (fresh inner) s)
    (hw : s.system.user.waves = some w) :
    (∀ i e settings bindings, s.cache.get i = some e → s.SameSource w e bindings →
        KeyLaw w e settings bindings) ∧
      (s.KeepsCache .draw → DrawsFresh w s.cache) := by
  obtain ⟨w', hinv⟩ := h.invariant (cacheConsistent_fresh inner)
    fun _ _ _ hinv hkeeps hstep => CacheConsistent.step hinv hkeeps hstep
  obtain rfl : w' = w := Option.some.inj (hinv.waves.symm.trans hw)
  refine ⟨fun i e settings bindings hget hsame signals hbound hvalid => ?_, fun hdraw => ?_⟩
  · have hfrom := hinv.cachedFrom hsame.1 i e hget
    exact WaveData.lanes_eq_of_isValidFor hfrom hbound hvalid hsame.2
  · refine WaveData.decoderDrawCommands_eq_fresh
      fun i e hget first hfirst signals hbound hvalid => ?_
    have hsame := hdraw.2 w' hw i e hget first hfirst signals hbound hvalid
    have hfrom := hinv.cachedFrom hsame.1 i e hget
    exact WaveData.lanes_eq_of_isValidFor hfrom hbound hvalid hsame.2

/-! ### The elements of an array -/

/-- No decoder was rebound since it was decoded, and no other file was loaded since. -/
def sameBindings (s : DrawState) : Bool :=
  !s.replaced && s.system.user.waves.all fun w => w.decoderRows.all fun row =>
    (s.cache.get row.2.instance_).all fun e => e.key.bindings == row.2.bindings

/-- Bindings that are the same mean the same. -/
theorem keepsCache_of_sameBindings (h : s.sameBindings = true) : s.KeepsCache .draw := by
  refine ⟨trivial, fun w hw i e hget first hfirst signals _ _ => ?_⟩
  simp only [sameBindings, hw, Option.all_some, Bool.and_eq_true, Bool.not_eq_true',
    List.all_eq_true] at h
  obtain ⟨hrow, hi⟩ := List.mem_filter.1 (List.mem_of_mem_head? hfirst)
  have hi : first.2.instance_ = i := by simpa using hi
  have hentry := h.2 first hrow
  rw [hi, hget, Option.all_some, beq_iff_eq] at hentry
  exact ⟨h.1, congrArg (fun b : RoleBindings => w.inner.boundSignals b.signals) hentry⟩

/-- An element of an array of serial lines. -/
def line (i : ℤ) : VariableRef :=
  { path := { strs := [], id := none }, name := "rx", id := none, index := some i }

/-- A file with an array of two serial lines. A byte is sent on line 0, and line 1 is idle. -/
def arrayWaves : WaveContainer where
  hierarchy := .flat
    [{ path := [], name := "rx", index := some ⟨0, 0⟩, isParameter := false, signalRef := 0 },
      { path := [], name := "rx", index := some ⟨1, 1⟩, isParameter := false, signalRef := 1 }]
  signals s :=
    if s = 0 then some [(0, .bigUint 1), (10, .bigUint 0), (12, .bigUint 1)]
    else some [(0, .bigUint 1)]

/-- Decode line 0, and draw the result. -/
def decodeFirstLine : List DrawEvent :=
  [.message (.addVariables [line 0]), .message (.decoderAdd .uart none), .draw]

/-- Bind the decoder to a line. -/
def rebind (i : ℤ) (settings : Uart.UartSettings) : DrawEvent :=
  .message (.decoderConfigure 0 (.uart settings) { signals := [some (line i)] })

/-- Draws are fresh after a decoder has been reconfigured. -/
theorem cache_sound_evenParity :
    ∃ s w, Transition.checkedRun (step defaultEnv)
        (fun s event => match event with | .draw => s.sameBindings | .message _ => true | _ => false)
        (fresh arrayWaves)
        (decodeFirstLine ++ [rebind 0 { Uart.UartSettings.default with parity := .even }]) = some s ∧
      s.system.user.waves = some w ∧ DrawsFresh w s.cache := by
  obtain ⟨s, hrun, hreach, htest⟩ := Transition.exists_reachable_of_checkedRun (step defaultEnv)
    KeepsCache (fresh arrayWaves)
    (fun s event => match event with | .draw => s.sameBindings | .message _ => true | _ => false)
    (decodeFirstLine ++ [rebind 0 { Uart.UartSettings.default with parity := .even }])
    (fun s => s.system.user.waves.isSome && s.sameBindings)
    (fun s event hcheck => by
      match event with
      | .draw => exact keepsCache_of_sameBindings hcheck
      | .message _ => exact ⟨trivial, trivial⟩
      | .signalLoaded .. => cases hcheck)
    (by decide)
  obtain ⟨hsome, hsame⟩ := Bool.and_eq_true_iff.1 htest
  obtain ⟨w, hw⟩ := Option.isSome_iff_exists.1 hsome
  exact ⟨s, w, hrun, hw, (cache_sound hreach hw).2 (keepsCache_of_sameBindings hsame)⟩

/-- A decoder that is rebound to the other line shows the byte of the first. -/
theorem not_cacheSound_reboundElement :
    ¬ ∀ (env : Env) (inner : WaveContainer) (s : DrawState) (w : WaveData),
      Transition.Reachable (step env) FromFile (fresh inner) s → s.system.user.waves = some w →
      (∀ i e settings bindings, s.cache.get i = some e → KeyLaw w e settings bindings) ∧
        DrawsFresh w s.cache := by
  intro h
  obtain ⟨s, -, hreach, htest⟩ := Transition.exists_reachable_of_run (step defaultEnv)
    FromFile (fresh arrayWaves) (decodeFirstLine ++ [rebind 1 Uart.UartSettings.default])
    (fun s => s.system.user.waves.any fun w =>
      (Prod.fst <$> w.decoderDrawCommands s.cache).toOption != w.drawFresh.toOption)
    (by simp [FromFile, decodeFirstLine, rebind]) (by decide)
  obtain ⟨w, hw, hdiffer⟩ := (Option.any_eq_true _ _).1 htest
  have hfresh := (h defaultEnv arrayWaves s w hreach hw).2
  rw [DrawsFresh] at hfresh
  rw [hfresh] at hdiffer
  simp at hdiffer

end DrawState

end Wave
