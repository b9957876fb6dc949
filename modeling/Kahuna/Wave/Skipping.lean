import Kahuna.Wave.Digital
import Kahuna.Wave.Transitions
import Mathlib.Data.List.Sort
import Mathlib.Order.Monotone.Basic

/-!
# Passing over pixels

A pixel before the pixel of the next change need not be looked at: the value there is the one that was seen before,
and looking at it would draw nothing. So the loop draws the same whether it passes over such pixels or not, and
after each pixel the last region of a field shows the value at the time of that pixel.

* `Steady`: what the answers to the queries of a signal have in common, `steady_query`;
* `draw_eq_self`: a value that is shown already is not drawn again;
* `loop_skipping`: the two loops draw the same.
-/

namespace Digital

open Cxxrtl (QueryResult)
open Wave (VariableValue)

/-! ## The answers -/

/-- The changes of a signal, in the order of their times. -/
structure Changes where
  changes : List (ℕ × VariableValue)
  sorted : changes.Pairwise fun a b => a.1 ≤ b.1

/-- What a signal says of a time: the last change up to it, and the time of the next one. -/
def Changes.query (c : Changes) (time : ℕ) : QueryResult where
  current := (c.changes.filter fun change => change.1 ≤ time).getLast?
  next := (c.changes.find? fun change => time < change.1).map Prod.fst

/-- What the answers to the queries of a signal have in common. -/
structure Steady (query : ℕ → QueryResult) : Prop where
  le : ∀ time changeTime val, (query time).current = some (changeTime, val) → changeTime ≤ time
  /-- Up to the next change, nothing changes. -/
  same : ∀ time later, time ≤ later → (∀ n, (query time).next = some n → later < n) → query later = query time
  /-- What has not changed since an earlier time was the value then. -/
  since : ∀ earlier time changeTime val, earlier ≤ time → (query time).current = some (changeTime, val) →
    changeTime ≤ earlier → (query earlier).current = some (changeTime, val)

/-- The changes up to a time end with the last one. -/
theorem Changes.le_of_current {c : Changes} {time changeTime : ℕ} {val : VariableValue}
    (h : (c.query time).current = some (changeTime, val)) :
    changeTime ≤ time ∧ ∀ change ∈ c.changes, change.1 ≤ time → change.1 ≤ changeTime := by
  obtain ⟨init, hinit⟩ := List.getLast?_eq_some_iff.1 h
  have hmem : (changeTime, val) ∈ c.changes.filter fun change => change.1 ≤ time := by
    rw [hinit]
    exact List.mem_append_right _ (List.mem_singleton_self _)
  have hsorted := c.sorted.filter fun change => change.1 ≤ time
  rw [hinit, List.pairwise_append] at hsorted
  refine ⟨by simpa using (List.mem_filter.1 hmem).2, fun change hchange hle => ?_⟩
  have hin : change ∈ init ++ [(changeTime, val)] := hinit ▸ List.mem_filter.2 ⟨hchange, by simpa using hle⟩
  rcases List.mem_append.1 hin with hin | hin
  · exact hsorted.2.2 change hin _ (List.mem_singleton_self _)
  · rw [List.mem_singleton.1 hin]

/-- The changes behind a time begin with the next one. -/
theorem Changes.le_of_next {c : Changes} {time : ℕ} {change : ℕ × VariableValue} (hmem : change ∈ c.changes)
    (hlt : time < change.1) : ∃ n, (c.query time).next = some n ∧ n ≤ change.1 := by
  cases hfind : c.changes.find? fun change => time < change.1 with
  | none =>
    rw [List.find?_eq_none] at hfind
    exact absurd hlt (by simpa using hfind change hmem)
  | some next =>
    refine ⟨next.1, by rw [query, hfind]; rfl, ?_⟩
    obtain ⟨-, before, behind, hsplit, hbefore⟩ := List.find?_eq_some_iff_append.1 hfind
    have hsorted := c.sorted
    rw [hsplit, List.pairwise_append, List.pairwise_cons] at hsorted
    rw [hsplit] at hmem
    rcases List.mem_append.1 hmem with hmem | hmem
    · exact absurd hlt (by simpa using hbefore change hmem)
    · rcases List.mem_cons.1 hmem with rfl | hmem
      · exact le_rfl
      · exact hsorted.2.1.1 change hmem

theorem Changes.steady_query (c : Changes) : Steady c.query where
  le _ _ _ h := (le_of_current h).1
  same time later hle hnext := by
    -- no change is between the two times
    have hsame : ∀ change ∈ c.changes, change.1 ≤ later ↔ change.1 ≤ time := by
      intro change hmem
      refine ⟨fun hlater => ?_, fun h => h.trans hle⟩
      by_contra hlt
      obtain ⟨n, hn, hle'⟩ := le_of_next hmem (not_le.1 hlt)
      have := hnext n hn
      omega
    have hcurrent : c.changes.filter (fun change => change.1 ≤ later) = c.changes.filter fun change => change.1 ≤ time :=
      List.filter_congr fun change hmem => decide_eq_decide.2 (hsame change hmem)
    have hfind : c.changes.find? (fun change => later < change.1) = c.changes.find? fun change => time < change.1 := by
      rw [← List.head?_filter, ← List.head?_filter]
      refine congrArg List.head? (List.filter_congr fun change hmem => decide_eq_decide.2 ?_)
      rw [← not_le, hsame change hmem, not_le]
    rw [query, query, hcurrent, hfind]
  since earlier time changeTime val hle h hearlier := by
    have hlast := (le_of_current h).2
    have hcurrent : c.changes.filter (fun change => change.1 ≤ earlier) = c.changes.filter fun change => change.1 ≤ time :=
      List.filter_congr fun change hmem => decide_eq_decide.2
        ⟨fun h => h.trans hle, fun h => (hlast change hmem h).trans hearlier⟩
    rw [← h, query, query, hcurrent]

/-- The changes that a file records of a signal. -/
def Changes.ofSignal {f : Wellen.WellenContainer} {signal : Wellen.Signal} (h : Wave.Recorded f signal) : Changes where
  changes := signal.changes.map fun change => (Wave.changeTime change, change.2)
  sorted := List.pairwise_map.2 (h.increasing.imp le_of_lt)

/-- A file answers with the changes of the signal. -/
theorem querySignal_eq_query {f : Wellen.WellenContainer} {signal : Wellen.Signal} (h : Wave.Recorded f signal) {time : ℕ}
    (htime : time < 2 ^ 64) : f.querySignal signal time = .ok ((Changes.ofSignal h).query time) := by
  have hcurrent : ((Changes.ofSignal h).query time).current =
      (Neighbours.beyond Wave.changeTime false signal.changes (time + 1)).head?.map fun c => (Wave.changeTime c, c.2) := by
    have hfilter : signal.changes.filter ((fun c : ℕ × VariableValue => c.1 ≤ time) ∘ fun c => (Wave.changeTime c, c.2)) =
        signal.changes.filter fun c => Neighbours.Further false (time + 1) (Wave.changeTime c) :=
      List.filter_congr fun c _ => decide_eq_decide.2 Nat.lt_succ_iff.symm
    rw [Neighbours.beyond, if_neg Bool.false_ne_true, List.filter_reverse, List.head?_reverse, ← hfilter,
      ← List.getLast?_map, ← List.filter_map]
    rfl
  have hnext : ((Changes.ofSignal h).query time).next =
      (Neighbours.beyond Wave.changeTime true signal.changes time).head?.map Wave.changeTime := by
    rw [Changes.query, Changes.ofSignal, Neighbours.beyond, if_pos rfl, List.head?_filter, List.find?_map, Option.map_map]
    rfl
  rw [Wave.querySignal_eq h htime, ← hcurrent, ← hnext]

/-! ## What is drawn at a pixel -/

variable {src : Source} {query : ℕ → QueryResult} {p : Pixel} {drawn drawn' : Drawn}
  {fields : List (List String × Option TranslatedValue)} {val : VariableValue} {changeTime : ℕ}

/-- The last region of each field of a value shows the field. -/
def Shows (src : Source) (drawn : Drawn) (val : VariableValue) : Prop :=
  ∃ fields, src.translate val = .ok fields ∧ ∀ e ∈ fields, drawn.prevValues.get e.1 = some e.2

/-- The last region of a field holds what is remembered as its value. -/
def Tracks (drawn : Drawn) : Prop :=
  ∀ names value, drawn.prevValues.get names = some value → ∃ commands pixel region,
    drawn.localCommands.get names = some commands ∧ commands.values.getLast? = some (pixel, region) ∧
      region.inner = value

/-- What is shown already is not drawn again. -/
theorem drawField_eq_self {tv : TraceValue} {field : List String × Option TranslatedValue} (htracks : Tracks drawn)
    (hfield : drawn.prevValues.get field.1 = some field.2) (hlast : p.isLast = false) (hold : ¬ p.prevTime < changeTime) :
    src.drawField p changeTime tv drawn field = .ok drawn := by
  obtain ⟨names, value⟩ := field
  obtain ⟨commands, pixel, region, hcommands, -, -⟩ := htracks names value hfield
  simp [Source.drawField, Source.entry, bind, Except.bind, hcommands, hfield, hlast, hold]
  rfl

theorem get_entry {localCommands localCommands' : FiniteMap (List String) DigitalDrawingCommands}
    {names : List String} {entry : DigitalDrawingCommands} (h : src.entry localCommands names = .ok (entry, localCommands')) :
    localCommands'.get names = some entry ∧
      ∀ other commands, localCommands.get other = some commands → localCommands'.get other = some commands := by
  rw [Source.entry] at h
  cases hget : localCommands.get names with
  | some commands =>
    rw [hget] at h
    obtain ⟨rfl, rfl⟩ := Prod.mk.inj (Except.ok.inj h)
    exact ⟨hget, fun _ _ hother => hother⟩
  | none =>
    rw [hget] at h
    cases hinfo : src.info.getSubinfo names with
    | error panic =>
      rw [hinfo] at h
      cases h
    | ok info =>
      rw [hinfo] at h
      obtain ⟨rfl, rfl⟩ := Prod.mk.inj (Except.ok.inj h)
      refine ⟨by rw [FiniteMap.get_insert, if_pos rfl], fun other commands hother => ?_⟩
      have hne : other ≠ names := by
        rintro rfl
        rw [hget] at hother
        cases hother
      rw [FiniteMap.get_insert, if_neg hne, hother]

/-- After a field was drawn, it is shown, and the others as before. -/
theorem drawField_eq_ok {tv : TraceValue} {field : List String × Option TranslatedValue} (htracks : Tracks drawn)
    (h : src.drawField p changeTime tv drawn field = .ok drawn') : Tracks drawn' ∧
      drawn'.prevValues.get field.1 = some field.2 ∧
        ∀ names, names ≠ field.1 → drawn'.prevValues.get names = drawn.prevValues.get names := by
  obtain ⟨names, value⟩ := field
  rw [Source.drawField] at h
  cases hentry : src.entry drawn.localCommands names with
  | error panic =>
    simp only [hentry, bind, Except.bind] at h
    cases h
  | ok e =>
    obtain ⟨entry, localCommands⟩ := e
    obtain ⟨hself, hkept⟩ := get_entry hentry
    simp only [hentry, bind, Except.bind, pure, Except.pure] at h
    split at h
    next hdraws =>
      -- a region is pushed, and its value remembered
      obtain rfl := Except.ok.inj h
      refine ⟨fun other value' hother => ?_, by rw [FiniteMap.get_insert, if_pos rfl],
        fun other hne => by rw [FiniteMap.get_insert, if_neg hne]⟩
      dsimp only at hother ⊢
      by_cases hne : other = names
      · subst hne
        rw [FiniteMap.get_insert, if_pos rfl, Option.some.injEq] at hother
        refine ⟨_, p.pixel, _, by rw [FiniteMap.get_insert, if_pos rfl], List.getLast?_concat, hother⟩
      · rw [FiniteMap.get_insert, if_neg hne] at hother ⊢
        obtain ⟨commands, pixel, region, hcommands, hrest⟩ := htracks other value' hother
        exact ⟨commands, pixel, region, hkept other commands hcommands, hrest⟩
    next hnot =>
      obtain rfl := Except.ok.inj h
      refine ⟨fun other value' hother => ?_, ?_, fun other hne => rfl⟩
      · obtain ⟨commands, pixel, region, hcommands, hrest⟩ := htracks other value' hother
        exact ⟨commands, pixel, region, hkept other commands hcommands, hrest⟩
      · by_contra hnew
        simp [hnew] at hnot

/-- The fields of a value are drawn one after the other, and all of them are shown if their names are different. -/
theorem drawFields_eq_ok {tv : TraceValue} (htracks : Tracks drawn) (hdistinct : (fields.map Prod.fst).Nodup)
    (h : fields.foldlM (src.drawField p changeTime tv) drawn = .ok drawn') : Tracks drawn' ∧
      (∀ e ∈ fields, drawn'.prevValues.get e.1 = some e.2) ∧
        ∀ names, names ∉ fields.map Prod.fst → drawn'.prevValues.get names = drawn.prevValues.get names := by
  induction fields generalizing drawn with
  | nil =>
    obtain rfl := Except.ok.inj h
    exact ⟨htracks, List.forall_mem_nil _, fun _ _ => rfl⟩
  | cons field fields ih =>
    rw [List.map_cons, List.nodup_cons] at hdistinct
    rw [List.foldlM_cons] at h
    cases hfield : src.drawField p changeTime tv drawn field with
    | error panic =>
      rw [hfield] at h
      cases h
    | ok next =>
      rw [hfield] at h
      obtain ⟨htracks', hself, hothers⟩ := drawField_eq_ok htracks hfield
      obtain ⟨htracks'', hshown, hkept⟩ := ih htracks' hdistinct.2 h
      refine ⟨htracks'', List.forall_mem_cons.2 ⟨?_, hshown⟩, fun names hnames => ?_⟩
      · rw [hkept field.1 hdistinct.1, hself]
      · rw [List.map_cons, List.mem_cons, not_or] at hnames
        rw [hkept names hnames.2, hothers names hnames.1]

/-- A value that is shown already and has not changed since the pixel before is not drawn again. -/
theorem draw_eq_self {res : QueryResult} (htracks : Tracks drawn) (hlast : p.isLast = false)
    (hshown : ∀ changeTime val, res.current = some (changeTime, val) → changeTime ≤ p.prevTime ∧ Shows src drawn val) :
    src.draw p (.ok (some res)) drawn = .ok (some drawn) := by
  obtain ⟨current, next⟩ := res
  cases current with
  | none => rfl
  | some change =>
    obtain ⟨changeTime, val⟩ := change
    obtain ⟨hle, fields, hfields, hall⟩ := hshown changeTime val rfl
    rw [Source.draw]
    split
    · rfl
    · have hfold : ∀ l : List (List String × Option TranslatedValue), (∀ e ∈ l, drawn.prevValues.get e.1 = some e.2) →
          l.foldlM (src.drawField p changeTime (.fromValue val src.numBits src.traceStyle)) drawn = .ok drawn := by
        intro l
        induction l with
        | nil => exact fun _ => rfl
        | cons e l ih =>
          intro hl
          rw [List.forall_mem_cons] at hl
          rw [List.foldlM_cons, drawField_eq_self htracks hl.1 hlast (by omega)]
          exact ih hl.2
      simp only [hfields, hfold fields hall, bind, Except.bind, pure, Except.pure]

/-- The fields of a translated value have different names. -/
def DistinctFields (src : Source) : Prop :=
  ∀ val fields, src.translate val = .ok fields → (fields.map Prod.fst).Nodup

/-- After a pixel the value at its time is shown. -/
theorem draw_eq_ok {res : QueryResult} (hdistinct : DistinctFields src) (htracks : Tracks drawn)
    (hbefore : ∀ changeTime val, res.current = some (changeTime, val) → changeTime < p.prevTime → p.isFirst = false →
      Shows src drawn val)
    (h : src.draw p (.ok (some res)) drawn = .ok (some drawn')) :
    Tracks drawn' ∧ ∀ changeTime val, res.current = some (changeTime, val) → Shows src drawn' val := by
  obtain ⟨current, next⟩ := res
  cases current with
  | none =>
    obtain rfl := Option.some.inj (Except.ok.inj h)
    exact ⟨htracks, by simp⟩
  | some change =>
    obtain ⟨changeTime, val⟩ := change
    rw [Source.draw] at h
    split at h
    next hold =>
      obtain rfl := Option.some.inj (Except.ok.inj h)
      refine ⟨htracks, fun changeTime' val' hcurrent => ?_⟩
      obtain ⟨rfl, rfl⟩ := Prod.mk.inj (Option.some.inj hcurrent)
      exact hbefore _ _ rfl hold.1 hold.2.1
    next =>
      cases hfields : src.translate val with
      | error message =>
        rw [hfields] at h
        cases h
      | ok fields =>
        rw [hfields] at h
        dsimp only at h
        cases hfold : fields.foldlM (src.drawField p changeTime (.fromValue val src.numBits src.traceStyle)) drawn with
        | error panic =>
          rw [hfold] at h
          cases h
        | ok next =>
          rw [hfold] at h
          obtain rfl := Option.some.inj (Except.ok.inj h)
          obtain ⟨htracks', hall, -⟩ := drawFields_eq_ok htracks (hdistinct val fields hfields) hfold
          refine ⟨htracks', fun changeTime' val' hcurrent => ?_⟩
          obtain ⟨rfl, rfl⟩ := Prod.mk.inj (Option.some.inj hcurrent)
          exact ⟨fields, hfields, hall⟩

/-! ## The loop -/

/-- After the pixel at a time, what is drawn shows the value at that time. -/
structure UpToDate (src : Source) (query : ℕ → QueryResult) (time : ℕ) (drawn : Drawn) : Prop where
  tracks : Tracks drawn
  shows : ∀ changeTime val, (query time).current = some (changeTime, val) → Shows src drawn val

/-- The pixels come from an exact map: later times have no smaller pixels, and no pixel comes before that of its
time. -/
structure ExactPixels (pixelFromTime : ℕ → ℚ) (timestamps : List (ℚ × ℕ)) : Prop where
  mono : Monotone pixelFromTime
  le : ∀ e ∈ timestamps, pixelFromTime e.2 ≤ e.1

section Loop

variable {bounds : Bounds} {prevTime : ℕ} {rest : List (ℚ × ℕ)} {e : ℚ × ℕ} {nc nc' : ℚ}

/-- The loop looks at a pixel. -/
theorem loop_cons (skipping : Bool) (hquery : src.query e.2 = .ok (some (query e.2)))
    (h : (skipping && e.1 < nc && !(Pixel.at bounds prevTime e).isFirst && !(Pixel.at bounds prevTime e).isLast) = false) :
    src.loop bounds skipping prevTime (e :: rest) (nc, drawn) =
      Source.ifDrawn (src.draw (Pixel.at bounds prevTime e) (.ok (some (query e.2))) drawn) fun drawn =>
        src.loop bounds skipping e.2 rest (src.nextChange bounds (.ok (some (query e.2))), drawn) := by
  rw [Source.loop]
  simp only [h, Bool.false_eq_true, if_false, hquery]

/-- The loop passes over a pixel. -/
theorem loop_pass (h : (e.1 < nc && !(Pixel.at bounds prevTime e).isFirst && !(Pixel.at bounds prevTime e).isLast) = true) :
    src.loop bounds true prevTime (e :: rest) (nc, drawn) = src.loop bounds true e.2 rest (nc, drawn) := by
  rw [Source.loop]
  simp only [Bool.true_and, h, if_true]

theorem UpToDate.step (h : UpToDate src query prevTime drawn) (hsteady : Steady query) (hdistinct : DistinctFields src)
    (hle : prevTime ≤ e.2)
    (hdraw : src.draw (Pixel.at bounds prevTime e) (.ok (some (query e.2))) drawn = .ok (some drawn')) :
    UpToDate src query e.2 drawn' := by
  obtain ⟨htracks, hshows⟩ := draw_eq_ok hdistinct h.tracks (fun changeTime val hcurrent hlt _ =>
    h.shows changeTime val (hsteady.since prevTime e.2 changeTime val hle hcurrent (le_of_lt hlt))) hdraw
  exact ⟨htracks, hshows⟩

/-- The first pixel is always looked at. -/
theorem upToDate_first (hdistinct : DistinctFields src) (hfirst : (Pixel.at bounds prevTime e).isFirst = true)
    (hdraw : src.draw (Pixel.at bounds prevTime e) (.ok (some (query e.2))) Drawn.nothing = .ok (some drawn')) :
    UpToDate src query e.2 drawn' := by
  have hnothing : Tracks Drawn.nothing := fun names value h => by
    rw [Drawn.nothing, FiniteMap.get_empty] at h
    cases h
  obtain ⟨htracks, hshows⟩ := draw_eq_ok hdistinct hnothing (fun _ _ _ _ hnot => by
    rw [hfirst] at hnot
    cases hnot) hdraw
  exact ⟨htracks, hshows⟩

/-- Until the pixel of the next change the answers stay the same. -/
def Quiet (src : Source) (query : ℕ → QueryResult) (time : ℕ) (nc : ℚ) : Prop :=
  ∀ e : ℚ × ℕ, src.pixelFromTime e.2 ≤ e.1 → time ≤ e.2 → e.1 < nc → query e.2 = query time

theorem quiet_nextChange (hsteady : Steady query) (hmono : Monotone src.pixelFromTime) (time : ℕ) :
    Quiet src query time (src.nextChange bounds (.ok (some (query time)))) := by
  intro e hexact hle hlt
  refine hsteady.same time e.2 hle fun n hn => ?_
  have hnext : src.nextChange bounds (.ok (some (query time))) = src.pixelFromTime n := by
    cases hres : query time with
    | mk current next =>
      rw [hres] at hn
      obtain rfl : next = some n := hn
      rfl
  rw [hnext] at hlt
  by_contra hge
  exact absurd (hexact.trans_lt hlt) (not_lt.2 (hmono (not_lt.1 hge)))

/-- The two loops draw the same. -/
theorem loop_skipping (hsteady : Steady query) (hquery : ∀ e ∈ rest, src.query e.2 = .ok (some (query e.2)))
    (hdistinct : DistinctFields src) (hmono : Monotone src.pixelFromTime)
    (hexact : ∀ e ∈ rest, src.pixelFromTime e.2 ≤ e.1) (htimes : (prevTime :: rest.map Prod.snd).Pairwise (· ≤ ·))
    (hup : UpToDate src query prevTime drawn) (hquiet : Quiet src query prevTime nc) :
    Option.map Prod.snd <$> src.loop bounds true prevTime rest (nc, drawn) =
      Option.map Prod.snd <$> src.loop bounds false prevTime rest (nc', drawn) := by
  induction rest generalizing prevTime nc nc' drawn with
  | nil => rfl
  | cons e rest ih =>
    rw [List.map_cons, List.pairwise_cons] at htimes
    rw [List.forall_mem_cons] at hexact hquery
    have hle : prevTime ≤ e.2 := htimes.1 e.2 List.mem_cons_self
    rw [loop_cons false hquery.1 rfl]
    cases hpass : e.1 < nc && !(Pixel.at bounds prevTime e).isFirst && !(Pixel.at bounds prevTime e).isLast with
    | true =>
      -- looking at the pixel would draw nothing
      have hpass' := hpass
      simp only [Bool.and_eq_true, decide_eq_true_eq, Bool.not_eq_true'] at hpass'
      have hsame : query e.2 = query prevTime := hquiet e hexact.1 hle hpass'.1.1
      have hself : src.draw (Pixel.at bounds prevTime e) (.ok (some (query e.2))) drawn = .ok (some drawn) := by
        refine draw_eq_self hup.tracks hpass'.2 fun changeTime val hcurrent => ?_
        rw [hsame] at hcurrent
        exact ⟨hsteady.le _ _ _ hcurrent, hup.shows _ _ hcurrent⟩
      rw [loop_pass hpass, hself]
      refine ih hquery.2 hexact.2 htimes.2 ⟨hup.tracks, hsame ▸ hup.shows⟩ fun e' hexact' hle' hlt => ?_
      rw [hsame]
      exact hquiet e' hexact' (hle.trans hle') hlt
    | false =>
      rw [loop_cons true hquery.1 (by simpa using hpass)]
      cases hdraw : src.draw (Pixel.at bounds prevTime e) (.ok (some (query e.2))) drawn with
      | error panic => rfl
      | ok next =>
        cases next with
        | none => rfl
        | some next => exact ih hquery.2 hexact.2 htimes.2 (hup.step hsteady hdistinct hle hdraw) (quiet_nextChange hsteady hmono e.2)

/-- After the loop that looks at each pixel, what is drawn shows the value at the last time. -/
theorem loop_upToDate {s : ℚ × Drawn} (hsteady : Steady query)
    (hquery : ∀ e ∈ rest, src.query e.2 = .ok (some (query e.2))) (hdistinct : DistinctFields src)
    (htimes : (prevTime :: rest.map Prod.snd).Pairwise (· ≤ ·)) (hup : UpToDate src query prevTime drawn)
    (h : src.loop bounds false prevTime rest (nc, drawn) = .ok (some s)) :
    UpToDate src query ((rest.map Prod.snd).getLast?.getD prevTime) s.2 := by
  induction rest generalizing prevTime nc drawn with
  | nil =>
    obtain rfl := Option.some.inj (Except.ok.inj h)
    exact hup
  | cons e rest ih =>
    rw [List.map_cons, List.pairwise_cons] at htimes
    rw [List.forall_mem_cons] at hquery
    rw [loop_cons false hquery.1 rfl] at h
    cases hdraw : src.draw (Pixel.at bounds prevTime e) (.ok (some (query e.2))) drawn with
    | error panic =>
      rw [hdraw] at h
      cases h
    | ok next =>
      cases next with
      | none =>
        rw [hdraw] at h
        cases h
      | some next =>
        rw [hdraw] at h
        rw [List.map_cons, List.getLast?_cons, Option.getD_some]
        exact ih hquery.2 htimes.2 (hup.step hsteady hdistinct (htimes.1 e.2 List.mem_cons_self) hdraw) h

/-- The two loops draw the same from the start. -/
theorem loop_start_skipping (hsteady : Steady query) (hquery : ∀ e' ∈ e :: rest, src.query e'.2 = .ok (some (query e'.2)))
    (hdistinct : DistinctFields src) (hmono : Monotone src.pixelFromTime)
    (hexact : ∀ e ∈ rest, src.pixelFromTime e.2 ≤ e.1) (htimes : ((e :: rest).map Prod.snd).Pairwise (· ≤ ·))
    (hfirst : (Pixel.at bounds prevTime e).isFirst = true) :
    Option.map Prod.snd <$> src.loop bounds true prevTime (e :: rest) (nc, Drawn.nothing) =
      Option.map Prod.snd <$> src.loop bounds false prevTime (e :: rest) (nc, Drawn.nothing) := by
  rw [List.forall_mem_cons] at hquery
  rw [loop_cons true hquery.1 (by simp [hfirst]), loop_cons false hquery.1 rfl]
  cases hdraw : src.draw (Pixel.at bounds prevTime e) (.ok (some (query e.2))) Drawn.nothing with
  | error panic => rfl
  | ok next =>
    cases next with
    | none => rfl
    | some next =>
      exact loop_skipping hsteady hquery.2 hdistinct hmono hexact htimes (upToDate_first hdistinct hfirst hdraw)
        (quiet_nextChange hsteady hmono e.2)

/-- After the loop from the start, what is drawn shows the value at the last time. -/
theorem loop_start_upToDate {s : ℚ × Drawn} (hsteady : Steady query)
    (hquery : ∀ e' ∈ e :: rest, src.query e'.2 = .ok (some (query e'.2))) (hdistinct : DistinctFields src)
    (htimes : ((e :: rest).map Prod.snd).Pairwise (· ≤ ·)) (hfirst : (Pixel.at bounds prevTime e).isFirst = true)
    (h : src.loop bounds false prevTime (e :: rest) (nc, Drawn.nothing) = .ok (some s)) :
    UpToDate src query ((rest.map Prod.snd).getLast?.getD e.2) s.2 := by
  rw [List.forall_mem_cons] at hquery
  rw [loop_cons false hquery.1 rfl] at h
  cases hdraw : src.draw (Pixel.at bounds prevTime e) (.ok (some (query e.2))) Drawn.nothing with
  | error panic =>
    rw [hdraw] at h
    cases h
  | ok next =>
    cases next with
    | none =>
      rw [hdraw] at h
      cases h
    | some next =>
      rw [hdraw] at h
      exact loop_upToDate hsteady hquery.2 hdistinct htimes (upToDate_first hdistinct hfirst hdraw) h

end Loop

/-! ## The whole function -/

/-- The last region of a field shows a value. -/
def LastShows (drawn : Drawn) (names : List String) (value : Option TranslatedValue) : Prop :=
  ∃ commands pixel region, drawn.localCommands.get names = some commands ∧
    commands.values.getLast? = some (pixel, region) ∧ region.inner = value

theorem UpToDate.lastShows {time : ℕ} (h : UpToDate src query time drawn)
    (hcurrent : (query time).current = some (changeTime, val)) : ∃ fields, src.translate val = .ok fields ∧
      ∀ field ∈ fields, LastShows drawn field.1 field.2 := by
  obtain ⟨fields, hfields, hall⟩ := h.shows changeTime val hcurrent
  exact ⟨fields, hfields, fun field hfield => h.tracks _ _ (hall field hfield)⟩

/-- What is drawn after the pixels of a list, of those behind the first one. -/
def drawnAfter (src : Source) (timestamps : List (ℚ × ℕ)) (n : ℕ) : Run (Option Drawn) :=
  match timestamps with
  | [] => .ok (some Drawn.nothing)
  | first :: rest => Option.map Prod.snd <$>
    src.loop (Bounds.of timestamps) true first.2 (rest.take n) ((Bounds.of timestamps).firstPixel, Drawn.nothing)

section Timestamps

variable {timestamps : List (ℚ × ℕ)}

/-- The second pixel is the first one that is looked at. -/
theorem isFirst_second (first e : ℚ × ℕ) (rest : List (ℚ × ℕ)) (prevTime : ℕ) :
    (Pixel.at (Bounds.of (first :: e :: rest)) prevTime e).isFirst = true := by
  simp [Pixel.at, Bounds.of]

/-- Passing over pixels changes nothing. -/
theorem variableDigitalDrawCommands_skipping (c : Changes) (hquery : ∀ e ∈ timestamps, src.query e.2 = .ok (some (c.query e.2)))
    (hdistinct : DistinctFields src) (hexact : ExactPixels src.pixelFromTime timestamps)
    (htimes : timestamps.Pairwise fun a b => a.2 ≤ b.2) :
    src.variableDigitalDrawCommands true timestamps = src.variableDigitalDrawCommands false timestamps := by
  rcases timestamps with - | ⟨first, - | ⟨e, rest⟩⟩
  · rfl
  · rfl
  · have htimes' : ((e :: rest).map Prod.snd).Pairwise (· ≤ ·) := List.pairwise_map.2 (List.pairwise_cons.1 htimes).2
    have hquery' : ∀ e' ∈ e :: rest, src.query e'.2 = .ok (some (c.query e'.2)) := (List.forall_mem_cons.1 hquery).2
    have hexact' : ∀ e' ∈ rest, src.pixelFromTime e'.2 ≤ e'.1 := fun e' he' =>
      hexact.le e' (List.mem_cons_of_mem _ (List.mem_cons_of_mem _ he'))
    simp only [Source.variableDigitalDrawCommands, loop_start_skipping c.steady_query hquery' hdistinct hexact.mono
      hexact' htimes' (isFirst_second first e rest first.2)]

/-- After a pixel, the last regions show the value at its time. -/
theorem drawnAfter_lastShows (c : Changes) (hquery : ∀ e ∈ timestamps, src.query e.2 = .ok (some (c.query e.2)))
    (hdistinct : DistinctFields src) (hexact : ExactPixels src.pixelFromTime timestamps)
    (htimes : timestamps.Pairwise fun a b => a.2 ≤ b.2) {n : ℕ} {e : ℚ × ℕ} (he : timestamps[n + 1]? = some e)
    (hdrawn : drawnAfter src timestamps (n + 1) = .ok (some drawn))
    (hcurrent : (c.query e.2).current = some (changeTime, val)) :
    ∃ fields, src.translate val = .ok fields ∧ ∀ field ∈ fields, LastShows drawn field.1 field.2 := by
  rcases timestamps with - | ⟨first, - | ⟨second, rest⟩⟩
  · cases he
  · cases he
  · have hsub : (second :: rest.take n).Sublist (second :: rest) := (List.take_sublist n rest).cons_cons second
    have htimes' : ((second :: rest.take n).map Prod.snd).Pairwise (· ≤ ·) :=
      List.pairwise_map.2 ((List.pairwise_cons.1 htimes).2.sublist hsub)
    -- the last pixel that is looked at is the one of the list
    have hlast : ((rest.take n).map Prod.snd).getLast?.getD second.2 = e.2 := by
      cases n with
      | zero =>
        obtain rfl : second = e := Option.some.inj he
        rfl
      | succ n =>
        have he' : rest[n]? = some e := he
        rw [List.getLast?_map, List.getLast?_take, if_neg (Nat.succ_ne_zero n), Nat.add_sub_cancel, he']
        rfl
    have hquery' : ∀ e' ∈ second :: rest.take n, src.query e'.2 = .ok (some (c.query e'.2)) := fun e' he' =>
      hquery e' (List.mem_cons_of_mem _ (hsub.subset he'))
    have hexact' : ∀ e' ∈ rest.take n, src.pixelFromTime e'.2 ≤ e'.1 := fun e' he' =>
      hexact.le e' (List.mem_cons_of_mem _ (List.mem_cons_of_mem _ (List.mem_of_mem_take he')))
    rw [drawnAfter, List.take_succ_cons, loop_start_skipping c.steady_query hquery' hdistinct hexact.mono hexact' htimes'
      (isFirst_second first second rest first.2)] at hdrawn
    cases hloop : src.loop (Bounds.of (first :: second :: rest)) false first.2 (second :: rest.take n)
        ((Bounds.of (first :: second :: rest)).firstPixel, Drawn.nothing) with
    | error panic =>
      rw [hloop] at hdrawn
      cases hdrawn
    | ok result =>
      cases result with
      | none =>
        rw [hloop] at hdrawn
        cases hdrawn
      | some s =>
        rw [hloop] at hdrawn
        obtain rfl : s.2 = drawn := Option.some.inj (Except.ok.inj hdrawn)
        have hup := loop_start_upToDate c.steady_query hquery' hdistinct htimes' (isFirst_second ..) hloop
        rw [hlast] at hup
        exact hup.lastShows hcurrent

end Timestamps

/-- Passing over pixels changes nothing, and after a pixel from the second one on the last regions show the value at its
time. -/
theorem variableDigitalDrawCommands_pixels (src : Source) (c : Changes) (timestamps : List (ℚ × ℕ))
    (hquery : ∀ e ∈ timestamps, src.query e.2 = .ok (some (c.query e.2))) (hdistinct : DistinctFields src)
    (hexact : ExactPixels src.pixelFromTime timestamps) (htimes : timestamps.Pairwise fun a b => a.2 ≤ b.2) :
    src.variableDigitalDrawCommands true timestamps = src.variableDigitalDrawCommands false timestamps ∧
      ∀ (n : ℕ) (e : ℚ × ℕ) (drawn : Drawn) (changeTime : ℕ) (val : VariableValue), timestamps[n + 1]? = some e →
        drawnAfter src timestamps (n + 1) = .ok (some drawn) → (c.query e.2).current = some (changeTime, val) →
        ∃ fields, src.translate val = .ok fields ∧ ∀ field ∈ fields, LastShows drawn field.1 field.2 :=
  ⟨variableDigitalDrawCommands_skipping c hquery hdistinct hexact htimes,
    fun _ _ _ _ _ he hdrawn hcurrent => drawnAfter_lastShows c hquery hdistinct hexact htimes he hdrawn hcurrent⟩

/-- A signal that changes once, at time 1. -/
def oneChange : Changes where
  changes := [(1, .bigUint 1)]
  sorted := List.pairwise_singleton _ _

/-- Four pixels, which are their times. -/
def fourPixels : List (ℚ × ℕ) := [(0, 0), (1, 1), (2, 2), (3, 3)]

/-- A signal that changes once, with a translator that gives the same fields for each value. -/
def oneChangeSource (fields : List (List String × Option TranslatedValue)) : Source where
  query time := .ok (some (oneChange.query time))
  pixelFromTime time := time
  translate _ := .ok fields
  info := .compound [("a", .bits)]
  numBits := some 1
  traceStyle := .default
  wantsAntiAliasing := false

theorem exactPixels_fourPixels (fields : List (List String × Option TranslatedValue)) :
    ExactPixels (oneChangeSource fields).pixelFromTime fourPixels where
  mono _ _ h := Nat.cast_le.2 h
  le := by simp [fourPixels, oneChangeSource]

theorem fourPixels_pairwise : fourPixels.Pairwise fun a b => a.2 ≤ b.2 := by decide

theorem variableDigitalDrawCommands_fourPixels :
    (oneChangeSource [([], none)]).variableDigitalDrawCommands true fourPixels =
      (oneChangeSource [([], none)]).variableDigitalDrawCommands false fourPixels :=
  (variableDigitalDrawCommands_pixels (oneChangeSource [([], none)]) oneChange fourPixels (fun _ _ => rfl)
    (fun _ _ h => Except.ok.inj h ▸ List.nodup_singleton _) (exactPixels_fourPixels _) fourPixels_pairwise).1

/-- A field that is given twice is drawn twice again where its value was seen before. -/
theorem variableDigitalDrawCommands_not_always : ¬ ∀ (src : Source) (c : Changes) (timestamps : List (ℚ × ℕ)),
    (∀ e ∈ timestamps, src.query e.2 = .ok (some (c.query e.2))) → ExactPixels src.pixelFromTime timestamps →
    timestamps.Pairwise (fun a b => a.2 ≤ b.2) →
    src.variableDigitalDrawCommands true timestamps = src.variableDigitalDrawCommands false timestamps := by
  intro h
  have hsame := h (oneChangeSource [(["a"], none), (["a"], some { value := "1", kind := .normal })]) oneChange fourPixels
    (fun _ _ => rfl) (exactPixels_fourPixels _) fourPixels_pairwise
  have hcount := congrArg (fun result => (result.toOption.join.bind fun commands =>
    commands.localCommands.get ["a"]).map fun commands => commands.values.length) hsame
  exact absurd hcount (by decide)

end Digital
