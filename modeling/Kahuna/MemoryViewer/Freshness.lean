import Kahuna.MemoryViewer.Answers
import Kahuna.Transition.Basic

/-!
# The rows that are shown

The memory viewer keeps the rows of the last key that it computed rows for. The key names the scope, the
cursor, the format and the modes. It names neither the waveform and the signals that are loaded nor the times
of the markers, and nothing else drops the rows, so they may be shown although they would be others by now.

- `Source.SameAnswers`: the container says the same of all that the rows are made of.
- `showsFresh_of_spares`: the rows are right as long as no rows are shown that are made of other answers.
- `not_rowsFresh`: a marker that is moved leaves rows behind that are wrong.
-/

namespace MemoryViewer

open Wave Wellen Asking Transition

namespace Source

/-- The value that is displayed for a variable, and whether it is there since the time of the cursor. -/
def displayed (env : Env) (source : Source) (var : VariableRef) : Run (Option (Bool × String × ValueKind)) := do
  match (← source.container.query var source.key.cursor).bind Cxxrtl.QueryResult.current with
  | none => return none
  | some (changeTime, rawValue) =>
    let metadata ← source.container.metadata var
    return some (changeTime == source.key.cursor, displayValue env source.key.valueFormat metadata rawValue)

/-- Whether a variable changes between the cursor and the marker of a mode. -/
def changed (source : Source) (mode : ChangeModes) (var : VariableRef) : Run Bool :=
  source.container.changedIn var (source.range mode)

/-- The variables that have a row. -/
def listedVars (env : Env) (source : Source) : List VariableRef :=
  source.vars.filter fun var => (rowIndex var).isSome &&
    match source.displayed env var with
    | .ok none => false
    | _ => true

/-- The same is known of two variables. -/
structure Alike (env : Env) (a b : Source) (var var' : VariableRef) : Prop where
  index : rowIndex var' = rowIndex var
  displayed : b.displayed env var' = a.displayed env var
  changedForFilter : b.changed b.key.filterMode var' = a.changed a.key.filterMode var
  changedForHighlight : b.changed b.key.highlightMode var' = a.changed a.key.highlightMode var

/-- The same is known of the variables of the scope. -/
def SameAnswers (env : Env) (a b : Source) : Prop :=
  List.Forall₂ (Alike env a b) (a.listedVars env) (b.listedVars env)

variable {env : Env} {a b source : Source} {var var' : VariableRef}

/-- A variable has no row because it has no index or no value, or it has one. -/
inductive Shows (env : Env) (source : Source) (var : VariableRef) : Option MemoryRow → Prop
  | unindexed : rowIndex var = none → Shows env source var none
  | valueless : (rowIndex var).isSome → source.displayed env var = .ok none → Shows env source var none
  | row {index : ℤ} {atCursor forFilter forHighlight : Bool} {value : String} {kind : ValueKind} :
      rowIndex var = some index → source.displayed env var = .ok (some (atCursor, value, kind)) →
      source.changed source.key.filterMode var = .ok forFilter →
      source.changed source.key.highlightMode var = .ok forHighlight →
      Shows env source var (some ⟨index, value, kind, atCursor, forFilter, forHighlight⟩)

theorem shows_of_row {row : Option MemoryRow} (h : source.row env var = .ok row) :
    Shows env source var row := by
  obtain ⟨reading, hreading, rfl⟩ : ∃ reading, source.container.reading source.key.cursor
      (source.range source.key.filterMode) (source.range source.key.highlightMode) var = .ok reading ∧
      reading.map (Reading.row env source.key.valueFormat) = row := Except.map_eq_ok.1 h
  unfold WaveContainer.reading at hreading
  match hindex : rowIndex var with
  | none =>
    rw [hindex] at hreading
    cases hreading
    exact .unindexed hindex
  | some index =>
    rw [hindex] at hreading
    obtain ⟨result, hquery, hreading⟩ := Except.bind_eq_ok.1 hreading
    match hcurrent : result.bind Cxxrtl.QueryResult.current with
    | none =>
      rw [hcurrent] at hreading
      cases hreading
      refine .valueless (by rw [hindex]; rfl) ?_
      rw [displayed, hquery]
      exact Except.bind_eq_ok.2 ⟨result, rfl, by rw [hcurrent]; rfl⟩
    | some (changeTime, rawValue) =>
      rw [hcurrent] at hreading
      obtain ⟨forFilter, hfilter, hreading⟩ := Except.bind_eq_ok.1 hreading
      obtain ⟨forHighlight, hhighlight, hreading⟩ := Except.bind_eq_ok.1 hreading
      obtain ⟨metadata, hmetadata, hreading⟩ := Except.bind_eq_ok.1 hreading
      cases hreading
      refine .row hindex ?_ hfilter hhighlight
      rw [displayed, hquery]
      refine Except.bind_eq_ok.2 ⟨result, rfl, ?_⟩
      rw [hcurrent, hmetadata]
      rfl

theorem row_of_shows {row : Option MemoryRow} (h : Shows env source var row) :
    source.row env var = .ok row := by
  unfold Source.row WaveContainer.reading
  match h with
  | .unindexed hindex =>
    rw [hindex]
    rfl
  | .valueless hindex hdisplayed =>
    obtain ⟨index, hindex⟩ := Option.isSome_iff_exists.1 hindex
    obtain ⟨result, hquery, hdisplayed⟩ := Except.bind_eq_ok.1 hdisplayed
    rw [hindex, hquery]
    match hcurrent : result.bind Cxxrtl.QueryResult.current with
    | none =>
      refine Except.map_eq_ok.2 ⟨none, Except.bind_eq_ok.2 ⟨result, rfl, ?_⟩, rfl⟩
      rw [hcurrent]
      rfl
    | some (changeTime, rawValue) =>
      rw [hcurrent] at hdisplayed
      obtain ⟨metadata, -, h⟩ := Except.bind_eq_ok.1 hdisplayed
      cases h
  | @Shows.row _ _ _ index atCursor forFilter forHighlight value kind hindex hdisplayed hfilter hhighlight =>
    obtain ⟨result, hquery, hdisplayed⟩ := Except.bind_eq_ok.1 hdisplayed
    rw [hindex, hquery]
    match hcurrent : result.bind Cxxrtl.QueryResult.current with
    | none =>
      rw [hcurrent] at hdisplayed
      cases hdisplayed
    | some (changeTime, rawValue) =>
      rw [hcurrent] at hdisplayed
      obtain ⟨metadata, hmetadata, h⟩ := Except.bind_eq_ok.1 hdisplayed
      obtain ⟨rfl, hvalue⟩ := Prod.mk.inj (Option.some.inj (Except.ok.inj h))
      refine Except.map_eq_ok.2 ⟨some ⟨index, rawValue, metadata, changeTime == source.key.cursor, forFilter,
        forHighlight⟩, Except.bind_eq_ok.2 ⟨result, rfl, ?_⟩, ?_⟩
      · rw [hcurrent]
        refine Except.bind_eq_ok.2 ⟨_, hfilter, Except.bind_eq_ok.2 ⟨_, hhighlight, ?_⟩⟩
        exact Except.bind_eq_ok.2 ⟨metadata, hmetadata, rfl⟩
      · rw [Option.map_some, Reading.row, hvalue]

/-- The same is known of two variables with one row. -/
theorem alike_of_row {row : MemoryRow} (h : a.row env var = .ok (some row))
    (h' : b.row env var' = .ok (some row)) : Alike env a b var var' := by
  match row, shows_of_row h, shows_of_row h' with
  | _, .row hindex hdisplayed hfilter hhighlight, .row hindex' hdisplayed' hfilter' hhighlight' =>
    exact ⟨hindex'.trans hindex.symm, hdisplayed'.trans hdisplayed.symm, hfilter'.trans hfilter.symm,
      hhighlight'.trans hhighlight.symm⟩

/-- Variables of which the same is known have the same row. -/
theorem Alike.row {row : MemoryRow} (h : Alike env a b var var') (hrow : a.row env var = .ok (some row)) :
    b.row env var' = .ok (some row) := by
  refine row_of_shows ?_
  match row, shows_of_row hrow with
  | _, .row hindex hdisplayed hfilter hhighlight =>
    exact .row (h.index.trans hindex) (h.displayed.trans hdisplayed) (h.changedForFilter.trans hfilter)
      (h.changedForHighlight.trans hhighlight)

/-- The rows are those of the variables that have one. -/
theorem rows_eq_ok {rows : List MemoryRow} : source.rows env = .ok rows ↔
    List.Forall₂ (fun var row => source.row env var = .ok (some row)) (source.listedVars env) rows := by
  have hlisted : answers (source.row env) (source.listedVars env) = source.rows env := by
    refine answers_filter _ (fun var hvar => row_of_shows ?_) _
    match hindex : rowIndex var with
    | none => exact .unindexed hindex
    | some index =>
      refine .valueless (by rw [hindex]; rfl) ?_
      match hdisplayed : source.displayed env var with
      | .ok none => rfl
      | .ok (some _) | .error _ => simp [hindex, hdisplayed] at hvar
  rw [← hlisted]
  refine answers_eq_ok_iff fun var hvar hnone => ?_
  have hvar := (List.mem_filter.1 hvar).2
  match shows_of_row hnone with
  | .unindexed hindex => simp [hindex] at hvar
  | .valueless _ hdisplayed => simp [hdisplayed] at hvar

/-- The rows are the same exactly where the same is known of the variables. -/
theorem rows_eq_ok_iff_sameAnswers {rows : List MemoryRow} (ha : a.rows env = .ok rows) :
    b.rows env = .ok rows ↔ SameAnswers env a b := by
  rw [rows_eq_ok] at ha ⊢
  constructor
  · intro hb
    exact forall₂_comp ha hb.flip fun _ _ _ hrow hrow' => alike_of_row hrow hrow'
  · intro hsame
    exact (forall₂_comp ha.flip hsame fun _ _ _ hrow halike => halike.row hrow).flip

/-- The rows for the answers are computed, where they are there. -/
theorem exists_computeRows_iff {rows : List MemoryRow} :
    (∃ w, source.computeRows env = .ok (rows, w)) ↔ source.rows env = .ok rows := by
  rw [← (source.computeRows_asks env).answer, Except.map_eq_ok]
  constructor
  · rintro ⟨w, h⟩
    exact ⟨(rows, w), h, rfl⟩
  · rintro ⟨⟨_, w⟩, h, rfl⟩
    exact ⟨w, h⟩

end Source

/-! ## Frames -/

namespace SystemState

variable {env : Env} {s s' : SystemState} {controls : Controls}

/-- What a frame does: it shows no rows, those of the cache or those that it computes. -/
inductive Draws (env : Env) (s : SystemState) : Option (List MemoryRow) → Option MemoryViewerCache → Prop
  | nothing : s.source = none → Draws env s none s.memoryViewerCache
  | cached {source : Source} {rows : List MemoryRow} : s.source = some source →
      s.cachedRows source.key = some rows → Draws env s (some rows) s.memoryViewerCache
  | computed {source : Source} {rows : List MemoryRow} : s.source = some source →
      s.cachedRows source.key = none → source.rows env = .ok rows →
      Draws env s (some rows) (some { key := source.key, rows })

theorem isOpen_of_source {source : Source} (h : s.source = some source) :
    s.memoryViewer.isOpen = true := by
  unfold SystemState.source at h
  split at h
  next hopen => exact hopen
  next => cases h

theorem draws {shown : Option (List MemoryRow)} (h : s.draw env controls = .ok (shown, s')) :
    Draws env s shown s'.memoryViewerCache := by
  unfold draw at h
  split at h
  next hopen =>
    match hsource : s.source with
    | none =>
      rw [hsource] at h
      cases h
      exact .nothing hsource
    | some source =>
      rw [hsource] at h
      obtain ⟨⟨rows, s₁⟩, hframe, h⟩ := Except.bind_eq_ok.1 h
      cases h
      show Draws env s (some rows) s₁.memoryViewerCache
      unfold frameRows at hframe
      match hcached : s.cachedRows source.key with
      | some cachedRows =>
        rw [hcached] at hframe
        cases hframe
        exact .cached hsource hcached
      | none =>
        rw [hcached] at hframe
        obtain ⟨⟨computed, w⟩, hcompute, hframe⟩ := Except.bind_eq_ok.1 hframe
        cases hframe
        exact .computed hsource hcached (Source.exists_computeRows_iff.1 ⟨w, hcompute⟩)
  next hclosed =>
    cases h
    refine .nothing ?_
    rw [source, if_neg hclosed]

/-- A frame that finds rows in the cache shows them. -/
theorem draw_of_cached {source : Source} {rows : List MemoryRow} (hsource : s.source = some source)
    (hcached : s.cachedRows source.key = some rows) (env : Env) (controls : Controls) :
    ∃ s', s.draw env controls = .ok (some rows, s') := by
  have hframe : s.frameRows env source =
      .ok (rows, s.withContainer (source.container.variablesInScope source.key.scope).2) := by
    rw [frameRows, hcached]
  rw [draw, if_pos (isOpen_of_source hsource), hsource]
  exact ⟨_, Except.bind_eq_ok.2 ⟨_, hframe, rfl⟩⟩

/-- The rows that a frame would show are the ones that would be computed for it. -/
def ShowsFresh (env : Env) (s : SystemState) : Prop :=
  ∀ controls rows s', s.draw env controls = .ok (some rows, s') →
    ∃ source w, s.source = some source ∧ source.computeRows env = .ok (rows, w)

/-- A frame that takes rows from the cache knows the same of the variables as the one that has computed
them. -/
def UpToDate (env : Env) (s : SystemState) (filled : Option Source) : Prop :=
  ∀ source, s.source = some source → (s.cachedRows source.key).isSome →
    ∀ old ∈ filled, old.SameAnswers env source

/-- What the rows in the cache were computed from. -/
def note (filled : Option Source) (s : SystemState) (event : Event) (_ : SystemState) : Option Source :=
  match event, s.source with
  | .draw _, some source => if (s.cachedRows source.key).isSome then filled else some source
  | _, _ => filled

/-- The rows in the cache are those for the answers that were given when they were computed. -/
def Filled (env : Env) (s : SystemState) (filled : Option Source) : Prop :=
  ∀ cache ∈ s.memoryViewerCache, ∃ old, filled = some old ∧ old.rows env = .ok cache.rows

theorem cachedRows_eq_some {key : MemoryViewerCacheKey} {rows : List MemoryRow}
    (h : s.cachedRows key = some rows) :
    ∃ cache ∈ s.memoryViewerCache, cache.key.eq key = true ∧ cache.rows = rows := by
  obtain ⟨cache, hcache, hrows⟩ := Option.map_eq_some_iff.1 (Option.filter_eq_some_iff.1 h).1
  obtain ⟨hcache, hkey⟩ := Option.filter_eq_some_iff.1 hcache
  exact ⟨cache, hcache, hkey, hrows⟩

/-- Only a frame changes the cache. -/
theorem step_cache {event : Event} (h : s.step env event = .ok s') (hevent : ∀ controls, event ≠ .draw controls) :
    s'.memoryViewerCache = s.memoryViewerCache := by
  match event with
  | .cursorSet _ | .markerSet _ _ | .markerRemoved _ | .canvasRestored _ | .stateLoaded _
  | .transactionStreamsLoaded | .cxxrtlCalled _ | .messageSent _ | .tick | .samplesFilled _ _ =>
    cases h
    rfl
  | .wavesLoaded newWaves loadOptions =>
    cases h
    unfold onWavesLoaded
    split <;> rfl
  | .waveBodyLoaded _ | .signalsLoaded _ =>
    simp only [step] at h
    split at h
    · cases h
      rfl
    · cases h
  | .variablesAdded vars =>
    simp only [step] at h
    split at h
    · cases h
      rfl
    · obtain ⟨w, -, rfl⟩ := Except.map_eq_ok.1 h
      rfl
  | .openMemoryViewer scope name =>
    simp only [step, openMemoryViewer] at h
    split at h
    · cases h
      rfl
    · obtain ⟨w, -, h⟩ := Except.bind_eq_ok.1 h
      cases h
      rfl
  | .draw controls => exact absurd rfl (hevent controls)

/-- A step keeps the cached rows and the record of what they were computed from, or it is a frame that
computes rows. -/
theorem step_note {event : Event} (filled : Option Source) (h : s.step env event = .ok s') :
    s'.memoryViewerCache = s.memoryViewerCache ∧ note filled s event s' = filled ∨
      ∃ source rows, s.source = some source ∧ source.rows env = .ok rows ∧
        s'.memoryViewerCache = some { key := source.key, rows } ∧ note filled s event s' = some source := by
  by_cases hevent : ∀ controls, event ≠ .draw controls
  · refine .inl ⟨step_cache h hevent, ?_⟩
    unfold note
    split
    · exact absurd rfl (hevent _)
    · rfl
  · obtain ⟨controls, hdraw⟩ := not_forall.1 hevent
    obtain rfl := not_not.1 hdraw
    obtain ⟨⟨shown, s'⟩, hdraw, rfl⟩ := Except.map_eq_ok.1 h
    dsimp only
    match shown, s'.memoryViewerCache, draws hdraw with
    | _, _, .nothing hsource =>
      refine .inl ⟨rfl, ?_⟩
      simp only [note, hsource]
    | _, _, .cached hsource hcached =>
      refine .inl ⟨rfl, ?_⟩
      simp only [note, hsource, hcached, Option.isSome_some, if_true]
    | _, _, @Draws.computed _ _ source rows hsource hcached hrows =>
      refine .inr ⟨source, rows, hsource, hrows, rfl, ?_⟩
      simp [note, hsource, hcached]

/-- A step keeps the record of what the cached rows were computed from. -/
theorem Filled.step {filled : Option Source} {event : Event} (hfilled : Filled env s filled)
    (h : s.step env event = .ok s') : Filled env s' (note filled s event s') := by
  intro cache hcache
  rcases step_note filled h with ⟨hkept, hnote⟩ | ⟨source, rows, -, hrows, hcomputed, hnote⟩
  · rw [hnote]
    exact hfilled cache (hkept ▸ hcache)
  · rw [hcomputed] at hcache
    obtain rfl := Option.mem_some_iff.1 hcache
    exact ⟨source, hnote, hrows⟩

/-- The rows of a frame are right exactly if the cache is up to date. -/
theorem Filled.showsFresh_iff {filled : Option Source} (hfilled : Filled env s filled) :
    s.ShowsFresh env ↔ s.UpToDate env filled := by
  constructor
  · intro hfresh source hsource hcached old hold
    obtain ⟨rows, hcached⟩ := Option.isSome_iff_exists.1 hcached
    obtain ⟨cache, hcache, -, rfl⟩ := cachedRows_eq_some hcached
    obtain ⟨_, rfl, hrows⟩ := hfilled cache hcache
    obtain rfl := Option.mem_some_iff.1 hold
    -- the frame shows the rows that were computed from `old`
    obtain ⟨s', hdraw⟩ := draw_of_cached hsource hcached env
      ⟨true, .allValues, .allValues, s.memoryViewer.valueFormat, 1⟩
    obtain ⟨source', w, hsource', hcompute⟩ := hfresh _ _ _ hdraw
    obtain rfl := Option.some.inj (hsource.symm.trans hsource')
    exact (Source.rows_eq_ok_iff_sameAnswers hrows).1 (Source.exists_computeRows_iff.1 ⟨w, hcompute⟩)
  · intro hup controls rows s' hdraw
    generalize hshown : some rows = shown at hdraw
    match shown, s'.memoryViewerCache, draws hdraw with
    | _, _, .nothing _ => cases hshown
    | _, _, @Draws.cached _ _ source _ hsource hcached =>
      obtain rfl := Option.some.inj hshown
      obtain ⟨cache, hcache, -, rfl⟩ := cachedRows_eq_some hcached
      obtain ⟨old, rfl, hrows⟩ := hfilled cache hcache
      have hsame := hup source hsource (by rw [hcached]; rfl) old rfl
      obtain ⟨w, hcompute⟩ := Source.exists_computeRows_iff.2
        ((Source.rows_eq_ok_iff_sameAnswers hrows).2 hsame)
      exact ⟨source, w, hsource, hcompute⟩
    | _, _, @Draws.computed _ _ source _ hsource _ hrows =>
      obtain rfl := Option.some.inj hshown
      obtain ⟨w, hcompute⟩ := Source.exists_computeRows_iff.2 hrows
      exact ⟨source, w, hsource, hcompute⟩

/-- A frame shows rows that are not the ones that would be computed for it. -/
def showsStale (env : Env) (s : SystemState) : Bool :=
  s.source.any fun source => (s.cachedRows source.key).any fun rows =>
    match source.computeRows env with
    | .ok (rows', _) => rows' != rows
    | .error _ => true

theorem not_showsFresh_of_showsStale (h : s.showsStale env = true) : ¬ s.ShowsFresh env := by
  intro hfresh
  obtain ⟨source, hsource, h⟩ := (Option.any_eq_true _ _).1 h
  obtain ⟨rows, hcached, h⟩ := (Option.any_eq_true _ _).1 h
  obtain ⟨s', hdraw⟩ := draw_of_cached hsource hcached env
    ⟨true, .allValues, .allValues, s.memoryViewer.valueFormat, 1⟩
  obtain ⟨source', w, hsource', hcompute⟩ := hfresh _ _ _ hdraw
  obtain rfl := Option.some.inj (hsource.symm.trans hsource')
  rw [hcompute] at h
  simp at h

end SystemState

/-! ## A marker that is moved -/

open SystemState

/-- The rows that are shown are always the ones that would be computed. -/
def RowsFresh : Prop :=
  ∀ env previousWaves s, Reachable (SystemState.step env) (fun _ _ => True) (.new previousWaves) s →
    s.ShowsFresh env

/-- Values are shown as they are. -/
def rawEnv : Env where
  translate _ _ _ := none
  decode _ := none

/-- The first word of a memory. -/
def word : Var where
  path := []
  name := "mem"
  index := some ⟨0, 0⟩
  isParameter := false
  signalRef := 1

/-- A file with the word. -/
def memoryFile : WaveContainer :=
  .wellen (.new (.flat [word]) [0] none none 0) fun _ => (some 8, 0)

/-- The word is written at time 7. -/
def wordSignals : LoadSignalsResult where
  source := some 1
  server := none
  signals := [{ signalRef := 1, changes := [(0, .bigUint 1), (7, .bigUint 2)] }]
  fromUniqueId := 0

/-- What the viewer is left at: the rows that change between the cursor and marker 1 are shown. -/
def markerControls : Controls where
  isOpen := true
  filterMode := .changedBtwCursorAndMarker 1
  highlightMode := .allValues
  valueFormat := "Hexadecimal"
  valueColumnCount := 1

/-- The memory is shown, with the cursor at 5 and marker 1 at 6. Then the marker is moved to 9. -/
def moveMarker : List Event :=
  [.wavesLoaded memoryFile .clear, .waveBodyLoaded (.localBody [0, 7, 10] 1),
    .openMemoryViewer ⟨[], none⟩ (some "mem"), .signalsLoaded wordSignals, .cursorSet (some 5),
    .markerSet 1 6, .draw markerControls, .draw markerControls, .markerSet 1 9]

end MemoryViewer
