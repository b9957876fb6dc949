import Kahuna.MemoryViewer.Freshness

/-!
# Steps that leave the rows alone

Cursor moves, changes of the format and of the modes and changes of the scope lead to another key. As long as
nothing is loaded and no marker moves, the rows that are shown are always right.

- `Steady`: a step after which the container would answer as before.
- `showsFresh_of_quiet`: the rows are right in every run of such steps.
-/

namespace MemoryViewer

open Wave Wellen Asking Transition
open WaveContainer (Like)

/-- A file answers from its hierarchy, its times and the signals that are loaded. -/
theorem WaveContainer.like_of_file {f f' : WellenContainer} (hhierarchy : f'.hierarchy = f.hierarchy)
    (hsignals : f'.signals = f.signals) (htimes : f'.timeTable = f.timeTable)
    (declared : VarId → Option ℕ × Declaration) : Like (.wellen f declared) (.wellen f' declared) := by
  have hwaves : f'.waves = f.waves := by rw [WellenContainer.waves, hhierarchy, hsignals]; rfl
  refine ⟨fun scope => ?_, fun var time => ?_, fun var => ?_⟩
  · show Wellen.variablesInScope f'.hierarchy scope = Wellen.variablesInScope f.hierarchy scope
    rw [hhierarchy]
  · simp only [WaveContainer.query, WaveContainer.queryVariable, WellenContainer.queryVariable,
      WellenContainer.querySignal, WellenContainer.hasBegun, hwaves, hsignals, htimes, map_bind, map_pure]
  · simp only [WaveContainer.metadata, WaveContainer.variableMeta, hwaves, map_bind, map_pure]

/-- Loading variables changes nothing that is loaded already. -/
theorem WaveContainer.loadVariables_like {w w' : WaveContainer} {vars : List VariableRef}
    (h : w.loadVariables vars = .ok w') : Like w w' := by
  match w with
  | .wellen f declared =>
    obtain ⟨⟨cmd, f'⟩, hload, h⟩ := Except.bind_eq_ok.1 h
    cases h
    obtain ⟨ids, -, hload⟩ := Except.bind_eq_ok.1 hload
    have hloads := f.loadSignals_loads ids
    rw [show f.loadSignals ids = (cmd, f') from Except.ok.inj hload] at hloads
    cases hloads with
    | waits _ | missesIndex _ _ | starts _ _ _ _ _ =>
      refine like_of_file ?_ ?_ ?_ declared
      all_goals rfl
  | .empty =>
    cases h
    exact Std.Refl.refl _
  | .cxxrtl c =>
    cases h
    exact like_onCxxrtl (.loadVariables vars) (.cxxrtl c)

theorem rel_trans {w w' w'' : Option WaveContainer} (h : Option.Rel Like w w') (h' : Option.Rel Like w' w'') :
    Option.Rel Like w w'' := by
  cases h with
  | none => exact h'
  | some h =>
    cases h' with
    | some h' => exact .some (IsTrans.trans _ _ _ h h')

namespace SystemState

variable {env : Env} {s s' : SystemState}

/-- The wave container would answer as before, and the markers are where they were. -/
structure Steady (s s' : SystemState) : Prop where
  container : Option.Rel Like (s.waves.bind Waves.inner) (s'.waves.bind Waves.inner)
  markers : s'.waves.map Waves.markers = s.waves.map Waves.markers

theorem Steady.refl (s : SystemState) : Steady s s := by
  refine ⟨?_, rfl⟩
  match s.waves.bind Waves.inner with
  | none => exact .none
  | some w => exact .some (Std.Refl.refl w)

/-- Only the waveform data counts. -/
theorem Steady.congr {s₁ : SystemState} (h : Steady s s₁) (hwaves : s'.waves = s₁.waves) : Steady s s' :=
  ⟨hwaves ▸ h.container, hwaves ▸ h.markers⟩

theorem source_eq_some {source : Source} (h : s.source = some source) :
    s.waves.bind Waves.inner = some source.container ∧ s.waves.map Waves.markers = some source.markers ∧
      s.memoryViewer.scope = some source.key.scope := by
  unfold SystemState.source at h
  rw [if_pos (isOpen_of_source h)] at h
  obtain ⟨scope, hscope, h⟩ := Option.bind_eq_some_iff.1 h
  obtain ⟨waves, hwaves, h⟩ := Option.bind_eq_some_iff.1 h
  obtain ⟨cursor, -, h⟩ := Option.bind_eq_some_iff.1 h
  obtain ⟨container, hinner, rfl⟩ := Option.map_eq_some_iff.1 h
  rw [hwaves]
  exact ⟨hinner, rfl, hscope⟩

theorem steady_withContainer {w w' : WaveContainer} (hw : s.waves.bind Waves.inner = some w)
    (h : Like w w') : Steady s (s.withContainer w') := by
  obtain ⟨waves, hwaves, hinner⟩ := Option.bind_eq_some_iff.1 hw
  refine ⟨?_, ?_⟩
  · rw [hw, withContainer, hwaves]
    exact .some h
  · rw [withContainer, hwaves]
    rfl

theorem steady_of_cursor (s : SystemState) (time : Option ℤ) :
    Steady s (s.onWaves fun waves => { waves with cursor := time }) := by
  have hsteady := Steady.refl s
  obtain ⟨waves, previousWaves, memoryViewer, memoryViewerCache⟩ := s
  match waves with
  | none => exact hsteady
  | some waves => exact ⟨hsteady.container, rfl⟩

theorem steady_onContainer {f : WaveContainer → WaveContainer} (hf : ∀ w, Like w (f w)) (s : SystemState) :
    Steady s (s.onContainer f) := by
  refine ⟨?_, ?_⟩
  all_goals
    unfold onContainer onWaves
    match s.waves with
    | none => first | exact .none | rfl
    | some ⟨inner, cursor, markers⟩ =>
      match inner with
      | none => first | exact .none | rfl
      | some w => first | exact .some (hf w) | rfl

/-- The steps that load nothing and move no marker. A scope is opened by its path. -/
def Quiet : Event → Prop
  | .cursorSet _ | .draw _ | .variablesAdded _ | .cxxrtlCalled _ | .messageSent _ => True
  | .openMemoryViewer scope _ => scope.id = none
  | _ => False

theorem Steady.frameRows {source : Source} {rows : List MemoryRow} (hsource : s.source = some source)
    (h : s.frameRows env source = .ok (rows, s')) :
    Steady s s' ∧ s'.memoryViewer = s.memoryViewer := by
  obtain ⟨hcontainer, -, -⟩ := source_eq_some hsource
  unfold SystemState.frameRows at h
  split at h
  next =>
    cases h
    refine ⟨steady_withContainer hcontainer ?_, rfl⟩
    rw [WaveContainer.variablesInScope_eq]
    exact WaveContainer.like_onCxxrtl _ _
  next =>
    obtain ⟨⟨computed, w⟩, hcompute, h⟩ := Except.bind_eq_ok.1 h
    cases h
    have hsteady := steady_withContainer hcontainer ((source.computeRows_asks env).kept hcompute)
    exact ⟨hsteady.congr rfl, rfl⟩

theorem Steady.draw {shown : Option (List MemoryRow)} {controls : Controls}
    (h : s.draw env controls = .ok (shown, s')) :
    Steady s s' ∧ s'.memoryViewer.scope = s.memoryViewer.scope := by
  unfold SystemState.draw at h
  split at h
  next =>
    match hsource : s.source with
    | none =>
      rw [hsource] at h
      cases h
      exact ⟨(Steady.refl s).congr rfl, rfl⟩
    | some source =>
      rw [hsource] at h
      obtain ⟨⟨rows, s₁⟩, hframe, h⟩ := Except.bind_eq_ok.1 h
      cases h
      obtain ⟨hsteady, hviewer⟩ := Steady.frameRows hsource hframe
      refine ⟨hsteady.congr rfl, ?_⟩
      show s₁.memoryViewer.scope = s.memoryViewer.scope
      rw [hviewer]
  next =>
    cases h
    exact ⟨.refl s, rfl⟩

/-- A quiet step leaves the answers alone. -/
theorem Steady.of_quiet {event : Event} (hquiet : Quiet event) (h : s.step env event = .ok s')
    (hscope : ∀ scope ∈ s.memoryViewer.scope, scope.id = none) :
    Steady s s' ∧ ∀ scope ∈ s'.memoryViewer.scope, scope.id = none := by
  cases event with
  | cursorSet time =>
    cases h
    exact ⟨steady_of_cursor s time, hscope⟩
  | draw controls =>
    obtain ⟨⟨shown, s'⟩, hdraw, rfl⟩ := Except.map_eq_ok.1 h
    obtain ⟨hsteady, hviewer⟩ := Steady.draw hdraw
    exact ⟨hsteady, hviewer ▸ hscope⟩
  | variablesAdded vars =>
    simp only [step] at h
    split at h
    · cases h
      exact ⟨.refl s, hscope⟩
    next w hw =>
      obtain ⟨w', hload, rfl⟩ := Except.map_eq_ok.1 h
      exact ⟨steady_withContainer hw (WaveContainer.loadVariables_like hload), hscope⟩
  | cxxrtlCalled call =>
    cases h
    exact ⟨steady_onContainer (WaveContainer.like_onCxxrtl call) s, hscope⟩
  | messageSent msg =>
    cases h
    have hlike : ∀ w : WaveContainer,
        Like w (w.onCxxrtl fun c => { c with scMessages := c.scMessages ++ [msg] }) := by
      intro w
      cases w with
      | cxxrtl c => exact WaveContainer.like_of_sameData ⟨fun _ => rfl, rfl, rfl, rfl, rfl⟩
      | _ => exact Std.Refl.refl _
    exact ⟨steady_onContainer hlike s, hscope⟩
  | openMemoryViewer scope name =>
    simp only [step, openMemoryViewer] at h
    split at h
    · cases h
      exact ⟨.refl s, hscope⟩
    next w hw =>
      obtain ⟨w', hload, h⟩ := Except.bind_eq_ok.1 h
      cases h
      rw [WaveContainer.variablesInScope_eq] at hload
      have hlike : Like w w' := IsTrans.trans _ _ _ (WaveContainer.like_onCxxrtl _ _)
        (WaveContainer.loadVariables_like hload)
      have hsteady := steady_withContainer hw hlike
      refine ⟨hsteady.congr rfl, fun scope' hscope' => ?_⟩
      obtain rfl := Option.mem_some_iff.1 hscope'
      exact hquiet
  | _ => exact hquiet.elim

/-- The rows in the cache were computed from a container that answers like the one that is open, with the
markers that there are. -/
def Undisturbed (s : SystemState) (filled : Option Source) : Prop :=
  (∀ scope ∈ s.memoryViewer.scope, scope.id = none) ∧
    ∀ cache ∈ s.memoryViewerCache, ∃ old, filled = some old ∧ old.key = cache.key ∧
      cache.key.scope.id = none ∧ Option.Rel Like (some old.container) (s.waves.bind Waves.inner) ∧
      s.waves.map Waves.markers = some old.markers

/-- Where the answers and the markers are the same, the same is known of the variables. -/
theorem sameAnswers_of_like {a b : Source} (hkey : b.key = a.key) (hmarkers : b.markers = a.markers)
    (hlike : Like a.container b.container) (env : Env) : a.SameAnswers env b := by
  have hdisplayed : b.displayed env = a.displayed env := by
    funext var
    simp only [Source.displayed, hkey, hlike.query, hlike.metadata]
  have hchanged : b.changed = a.changed := by
    funext mode var
    simp only [Source.changed, Source.range, hkey, hmarkers, hlike.changedIn]
  have hlisted : b.listedVars env = a.listedVars env := by
    simp only [Source.listedVars, Source.vars, hkey, hlike.vars, hdisplayed]
  rw [Source.SameAnswers, hlisted]
  refine List.forall₂_same.2 fun var _ => ⟨rfl, ?_, ?_, ?_⟩
  · rw [hdisplayed]
  · rw [hchanged, hkey]
  · rw [hchanged, hkey]

/-- Scopes without a number are the same if they compare equal, and so are the keys that name them. -/
theorem eq_of_keyEq {a b : MemoryViewerCacheKey} (ha : a.scope.id = none) (hb : b.scope.id = none)
    (h : a.eq b = true) : b = a := by
  obtain ⟨⟨strs, id⟩, cursor, valueFormat, filterMode, highlightMode⟩ := a
  obtain ⟨⟨strs', id'⟩, cursor', valueFormat', filterMode', highlightMode'⟩ := b
  simp only [MemoryViewerCacheKey.eq, ScopeRef.eq, Bool.and_eq_true, beq_iff_eq] at h
  obtain ⟨⟨⟨⟨rfl, rfl⟩, rfl⟩, rfl⟩, rfl⟩ := h
  obtain rfl := ha
  obtain rfl := hb
  rfl

theorem Undisturbed.upToDate {filled : Option Source} (h : Undisturbed s filled) (env : Env) :
    s.UpToDate env filled := by
  intro source hsource hcached old hold
  obtain ⟨hcontainer, hmarkers, hscope⟩ := source_eq_some hsource
  obtain ⟨rows, hrows⟩ := Option.isSome_iff_exists.1 hcached
  obtain ⟨cache, hcache, heq, -⟩ := cachedRows_eq_some hrows
  obtain ⟨_, rfl, hkey, hid, hlike, hold'⟩ := h.2 cache hcache
  obtain rfl := Option.mem_some_iff.1 hold
  have hsame : source.key = cache.key := eq_of_keyEq hid (h.1 _ hscope) heq
  rw [hcontainer] at hlike
  refine sameAnswers_of_like (hsame.trans hkey.symm) (Option.some.inj (hmarkers.symm.trans hold')) ?_ env
  cases hlike with
  | some hlike => exact hlike

theorem Undisturbed.step {filled : Option Source} {event : Event} (hundisturbed : Undisturbed s filled)
    (hquiet : Quiet event) (h : s.step env event = .ok s') : Undisturbed s' (note filled s event s') := by
  obtain ⟨hsteady, hscope⟩ := Steady.of_quiet hquiet h hundisturbed.1
  refine ⟨hscope, fun cache hcache => ?_⟩
  rcases step_note filled h with ⟨hkept, hnote⟩ | ⟨source, rows, hsource, -, hcomputed, hnote⟩
  · -- rows that are kept were computed from answers that are still given
    obtain ⟨old, hold, hkey, hid, hlike, hmarkers⟩ := hundisturbed.2 cache (hkept ▸ hcache)
    rw [hnote]
    exact ⟨old, hold, hkey, hid, rel_trans hlike hsteady.container, hsteady.markers.trans hmarkers⟩
  · rw [hcomputed] at hcache
    obtain rfl := Option.mem_some_iff.1 hcache
    obtain ⟨hcontainer, hmarkers, hsourceScope⟩ := source_eq_some hsource
    refine ⟨source, hnote, rfl, hundisturbed.1 _ hsourceScope, ?_, hsteady.markers.trans hmarkers⟩
    rw [← hcontainer]
    exact hsteady.container

/-- Rows are right in every run of quiet steps that starts without rows in the cache. -/
theorem showsFresh_of_quiet {start : SystemState} (hstart : start.memoryViewerCache = none)
    (hscope : ∀ scope ∈ start.memoryViewer.scope, scope.id = none)
    (h : Reachable (SystemState.step env) (fun _ event => Quiet event) start s) : s.ShowsFresh env := by
  obtain ⟨filled, h⟩ : ∃ filled, Reachable (observed (SystemState.step env) note)
      (fun _ event => Quiet event) (start, none) (s, filled) := h.exists_observed
  have hinvariant : Filled env s filled ∧ Undisturbed s filled := by
    refine h.invariant (I := fun s => Filled env s.1 s.2 ∧ Undisturbed s.1 s.2) ?_ ?_
    · have hempty : ∀ cache, cache ∉ start.memoryViewerCache := by simp [hstart]
      exact ⟨fun cache hcache => absurd hcache (hempty cache), hscope,
        fun cache hcache => absurd hcache (hempty cache)⟩
    · rintro ⟨s, filled⟩ event ⟨s', filled'⟩ ⟨hfilled, hundisturbed⟩ hquiet hs
      obtain ⟨hstep, hnote⟩ : s.step env event = .ok s' ∧ filled' = note filled s event s' :=
        observed_eq_ok hs
      rw [hnote]
      exact ⟨Filled.step hfilled hstep, hundisturbed.step hquiet hstep⟩
  exact (Filled.showsFresh_iff hinvariant.1).2 (hinvariant.2.upToDate env)

end SystemState

end MemoryViewer
