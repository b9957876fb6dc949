import Kahuna.MemoryViewer.Basic
import Kahuna.Neighbours.Basic

/-!
# Stepping the cursor along the transitions of a variable

The model of `set_cursor_at_transition`. The signal of the variable is queried at the cursor, and the cursor is set to
the next change, or to the current one; when it lies on a change, to the one before. To skip zeros, one more step is
taken from a zero.

* `querySignal_eq`: a query gives the nearest changes on both sides of a time;
* `setCursorAtTransition_eq`: where a step leads;
* `setCursorAtTransition_iff`: when a step does not panic, goes in its direction and reaches the nearest change.
-/

namespace Wellen.WellenContainer

/-- `max_timestamp`. -/
def maxTimestamp (f : WellenContainer) : Option ℕ := f.timeTable.getLast?

end Wellen.WellenContainer

namespace Wave

open Neighbours Wellen
open Cxxrtl (QueryResult)

/-! ## The step -/

namespace WaveData

variable (w : WaveData)

/-- The variable to step along, the one in focus if none is given. -/
def steppedVariable (vidx : Option ℕ) : Option (ℕ × VariableRef) := do
  let vidx ← vidx.or w.focusedItem
  let node ← w.itemsTree.getVisible vidx
  let variableRef ← w.variableOf node
  return (vidx, variableRef)

/-- `max_timestamp`: a waveform of no time has none. -/
def maxTimestamp (f : WellenContainer) : Option ℕ := f.maxTimestamp.filter (· ≠ 0)

/-- Where the cursor is set after a query at it. -/
def movedCursor (f : WellenContainer) (next : Bool) (variableRef : VariableRef) (cursor : ℤ) (res : QueryResult) :
    Run ℤ :=
  if next then
    match res.next with
    | some time => .ok time
    -- no next transition, go to end
    | none => .ok ((maxTimestamp f).elim cursor fun endTime => endTime)
  else
    match res.current with
    | none => .error .unwrap
    | some (stime, _) =>
      -- on a transition, the time before is queried
      if (stime : ℤ) = cursor ∧ 1 ≤ cursor then do
        match ← f.queryVariable variableRef (cursor - 1).toNat with
        | some { current := some (newstime, _), .. } => return newstime
        | _ => return cursor
      else .ok stime

/-- A step without the skipping of zeros, with the variable that was stepped along. -/
def stepCursor (f : WellenContainer) (next : Bool) (vidx : Option ℕ) : Run (Option ((ℕ × VariableRef) × ℤ)) :=
  match w.steppedVariable vidx, w.cursor with
  | some (vidx, variableRef), some cursor => do
    match ← f.queryVariable variableRef cursor.toNat with
    | none => return none
    | some res =>
      let moved ← movedCursor f next variableRef cursor res
      return some ((vidx, variableRef), moved)
  | _, _ => .ok none

/-- Whether a query answers that the value is a zero. -/
def isZero (res : Option QueryResult) : Bool :=
  match res with
  | some { current := some (_, .bigUint 0), .. } => true
  | _ => false

/-- `set_cursor_at_transition`. The queries go to `f`. -/
def setCursorAtTransition (f : WellenContainer) (next : Bool) (vidx : Option ℕ) (skipZero : Bool) : Run WaveData := do
  match ← w.stepCursor f next vidx with
  | none => return w
  | some ((vidx, variableRef), cursor) =>
    let w := { w with cursor := some cursor }
    if skipZero then
      let nextValue ← f.queryVariable variableRef cursor.toNat
      if isZero nextValue then
        match ← w.stepCursor f next (some vidx) with
        | none => return w
        | some (_, cursor) => return { w with cursor := some cursor }
      else return w
    else return w

end WaveData

/-! ## Queries -/

/-- The time of a change. -/
def changeTime (change : UInt64 × VariableValue) : ℕ := change.1.toNat

/-- What a file records of a signal: changes at increasing times, which are in its time table. -/
structure Recorded (f : WellenContainer) (signal : Signal) : Prop where
  increasing : signal.changes.Pairwise fun a b => changeTime a < changeTime b
  table : f.timeTable.Pairwise (· < ·)
  mem_table : ∀ c ∈ signal.changes, changeTime c ∈ f.timeTable
  lt : ∀ t ∈ f.timeTable, t < 2 ^ 64

/-- The signal of a variable is loaded. -/
def Loaded (f : WellenContainer) (variableRef : VariableRef) (signal : Signal) : Prop :=
  ∃ v, f.waves.getVar variableRef = .ok (some v) ∧ f.signals.get v.signalRef = some signal

variable {f : WellenContainer} {signal : Signal} {variableRef : VariableRef} {time : ℕ}

theorem queryVariable_eq (h : Loaded f variableRef signal) (time : ℕ) :
    f.queryVariable variableRef time = some <$> f.querySignal signal time := by
  obtain ⟨v, hvar, hsignal⟩ := h
  simp only [WellenContainer.queryVariable, hvar, hsignal, bind, Except.bind]

/-- Before the time table begins there is no change. -/
theorem Recorded.lt_of_not_begun (h : Recorded f signal) (hbegun : f.timeTable.head?.any (· ≤ time) = false) :
    ∀ c ∈ signal.changes, time < changeTime c := by
  intro c hc
  have hmem := h.mem_table c hc
  cases htable : f.timeTable with
  | nil =>
    rw [htable] at hmem
    cases hmem
  | cons first rest =>
    have htable' := h.table
    rw [htable] at hbegun hmem htable'
    have hfirst : time < first := by simpa using hbegun
    rcases List.mem_cons.1 hmem with heq | hmem
    · exact heq ▸ hfirst
    · exact hfirst.trans ((List.pairwise_cons.1 htable').1 _ hmem)

/-- A query gives the nearest changes on both sides of a time. -/
theorem querySignal_eq (h : Recorded f signal) (htime : time < 2 ^ 64) :
    f.querySignal signal time = .ok
      { current := (beyond changeTime false signal.changes (time + 1)).head?.map fun c => (changeTime c, c.2)
        next := (beyond changeTime true signal.changes time).head?.map changeTime } := by
  have hbefore : (if f.timeTable.head?.any (· ≤ time) then signal.changes.filter fun c => c.1.toNat ≤ time else []) =
      (beyond changeTime false signal.changes (time + 1)).reverse := by
    have hfilter : signal.changes.filter (fun c => c.1.toNat ≤ time) =
        (beyond changeTime false signal.changes (time + 1)).reverse := by
      rw [beyond, if_neg Bool.false_ne_true, List.filter_reverse, List.reverse_reverse]
      exact List.filter_congr fun c _ => decide_eq_decide.2 Nat.lt_succ_iff.symm
    split
    · exact hfilter
    next hbegun =>
      rw [← hfilter, eq_comm, List.filter_eq_nil_iff]
      intro c hc
      have := h.lt_of_not_begun (Bool.not_eq_true _ ▸ hbegun) c hc
      rw [changeTime] at this
      simpa using this
  have hahead : signal.changes.find? (fun c => time < c.1.toNat) = (beyond changeTime true signal.changes time).head? := by
    rw [beyond, if_pos rfl, List.head?_filter]
    rfl
  have hfirst : (if f.timeTable = [] then none else signal.changes.head?) = signal.changes.head? := by
    split
    next htable =>
      cases hchanges : signal.changes with
      | nil => rfl
      | cons c rest =>
        have hmem := h.mem_table c (hchanges ▸ List.mem_cons_self)
        rw [htable] at hmem
        cases hmem
    · rfl
  rw [WellenContainer.querySignal, WellenContainer.hasBegun, if_pos htime]
  simp only [bind, Except.bind, pure, Except.pure, hbefore, hahead, hfirst, List.getLast?_reverse]
  cases hcurrent : (beyond changeTime false signal.changes (time + 1)).head? with
  | some c => simp only [Option.map_some]; rfl
  | none =>
    -- every change is ahead
    have hall : signal.changes.find? (fun c => time < c.1.toNat) = signal.changes.head? := by
      cases hchanges : signal.changes with
      | nil => rfl
      | cons c rest =>
        rw [List.head?_eq_none_iff] at hcurrent
        have hnot : ¬ Further false (time + 1) (changeTime c) := by
          intro hfurther
          have hmem := mem_beyond.2 ⟨(hchanges ▸ List.mem_cons_self : c ∈ signal.changes), hfurther⟩
          rw [hcurrent] at hmem
          cases hmem
        rw [further_false, changeTime] at hnot
        have htime : time < c.1.toNat := by omega
        simp [htime]
    rw [← hahead, hall]
    rfl

/-! ## Where a step leads -/

/-- Where the cursor goes, from the changes beyond it. -/
def landing (f : WellenContainer) (next : Bool) (cursor : ℤ) : List (UInt64 × VariableValue) → ℤ
  | [] => if next then (WaveData.maxTimestamp f).elim cursor fun endTime => endTime else cursor
  | c :: _ => changeTime c

/-- A step backwards needs a change at the cursor or before it. -/
structure Supported (signal : Signal) (next : Bool) (cursor : ℤ) : Prop where
  lt : cursor < 2 ^ 64
  previous : next = false → 0 ≤ cursor ∧ ∃ c ∈ signal.changes, (changeTime c : ℤ) ≤ cursor

variable {next : Bool} {cursor : ℤ}

theorem Supported.toNat_lt (h : Supported signal next cursor) : cursor.toNat < 2 ^ 64 := by
  have := h.lt
  omega

/-- Before the cursor is the change that a query answers, or the one before that. -/
theorem movedCursor_previous (hrec : Recorded f signal) (hloaded : Loaded f variableRef signal)
    (h : Supported signal false cursor) {res : QueryResult} (hres : f.querySignal signal cursor.toNat = .ok res) :
    WaveData.movedCursor f false variableRef cursor res =
      .ok (landing f false cursor (beyond changeTime false signal.changes cursor.toNat)) := by
  obtain ⟨hpos, c, hc, hle⟩ := h.previous rfl
  obtain ⟨n, rfl⟩ := Int.eq_ofNat_of_zero_le hpos
  have hn : n < 2 ^ 64 := h.toNat_lt
  rw [Int.toNat_natCast] at hres ⊢
  rw [querySignal_eq hrec hn] at hres
  cases hbehind : beyond changeTime false signal.changes (n + 1) with
  | nil =>
    have hmem := mem_beyond.2 ⟨hc, (by rw [further_false]; omega : Further false (n + 1) (changeTime c))⟩
    rw [hbehind] at hmem
    cases hmem
  | cons x rest =>
    rw [hbehind] at hres
    obtain rfl := Except.ok.inj hres
    have hmem : x ∈ beyond changeTime false signal.changes (n + 1) := hbehind ▸ List.mem_cons_self
    have hx : changeTime x < n + 1 := (mem_beyond.1 hmem).2
    simp only [WaveData.movedCursor, if_neg Bool.false_ne_true, List.head?_cons, Option.map_some]
    by_cases hat : changeTime x = n
    · have hrest : beyond changeTime false signal.changes n = rest := hat ▸ beyond_of_cons hrec.increasing hbehind
      by_cases hone : 1 ≤ n
      · have hpred : ((n : ℤ) - 1).toNat = n - 1 := by omega
        have hsucc : n - 1 + 1 = n := by omega
        rw [if_pos ⟨by omega, by omega⟩, queryVariable_eq hloaded, hpred, querySignal_eq hrec (by omega), hsucc, hrest]
        cases rest <;> rfl
      · -- nothing is before the time 0
        obtain rfl : n = 0 := by omega
        have hnil : beyond changeTime false signal.changes 0 = [] :=
          List.eq_nil_iff_forall_not_mem.2 fun y hy => absurd (mem_beyond.1 hy).2 (Nat.not_lt_zero _)
        rw [if_neg (by omega), hnil, hat]
        rfl
    · have hcons : beyond changeTime false signal.changes n =
          x :: rest.filter fun y => Further false n (changeTime y) := by
        rw [beyond_eq_filter (a := n + 1) (fun y _ hy => by rw [further_false] at hy ⊢; omega), hbehind,
          List.filter_cons_of_pos (by simpa using by omega)]
      rw [if_neg (by omega), hcons]
      rfl

theorem stepCursor_eq {w : WaveData} {vidx : Option ℕ} {i : ℕ} (hrec : Recorded f signal)
    (hloaded : Loaded f variableRef signal) (h : Supported signal next cursor)
    (hvar : w.steppedVariable vidx = some (i, variableRef)) (hcursor : w.cursor = some cursor) :
    w.stepCursor f next vidx = .ok (some ((i, variableRef),
      landing f next cursor (beyond changeTime next signal.changes cursor.toNat))) := by
  have hmoved : ∃ res, f.querySignal signal cursor.toNat = .ok res ∧ WaveData.movedCursor f next variableRef cursor res =
      .ok (landing f next cursor (beyond changeTime next signal.changes cursor.toNat)) := by
    refine ⟨_, querySignal_eq hrec h.toNat_lt, ?_⟩
    cases next with
    | false => exact movedCursor_previous hrec hloaded h (querySignal_eq hrec h.toNat_lt)
    | true =>
      rw [WaveData.movedCursor, if_pos rfl]
      cases beyond changeTime true signal.changes cursor.toNat <;> rfl
  obtain ⟨res, hquery, hlanding⟩ := hmoved
  rw [WaveData.stepCursor, hvar, hcursor]
  dsimp only
  rw [queryVariable_eq hloaded, hquery]
  simp only [bind, Except.bind, Functor.map, Except.map, hlanding]
  rfl

/-- Where the cursor goes when zeros are skipped or not. -/
def landed (f : WellenContainer) (next skipZero : Bool) (cursor : ℤ) : List (UInt64 × VariableValue) → ℤ
  | [] => landing f next cursor []
  | c :: rest => if skipZero ∧ c.2 = .bigUint 0 then landing f next (changeTime c) rest else changeTime c

/-- A query at a change answers the change. -/
theorem head?_beyond_of_mem (h : signal.changes.Pairwise fun a b => changeTime a < changeTime b)
    {c : UInt64 × VariableValue} (hc : c ∈ signal.changes) :
    (beyond changeTime false signal.changes (changeTime c + 1)).head? = some c := by
  have hself : Further false (changeTime c + 1) (changeTime c) := Nat.lt_succ_self _
  have hmem : c ∈ beyond changeTime false signal.changes (changeTime c + 1) := mem_beyond.2 ⟨hc, hself⟩
  cases hbehind : beyond changeTime false signal.changes (changeTime c + 1) with
  | nil =>
    rw [hbehind] at hmem
    cases hmem
  | cons x rest =>
    have hpair := pairwise_beyond false h (changeTime c + 1)
    have hx : x ∈ beyond changeTime false signal.changes (changeTime c + 1) := hbehind ▸ List.mem_cons_self
    have hle : changeTime x < changeTime c + 1 := (mem_beyond.1 hx).2
    rw [hbehind] at hmem hpair
    rcases List.mem_cons.1 hmem with rfl | hrest
    · rfl
    · -- no change is between the first one behind and the end of its own time
      have hlt : changeTime c < changeTime x := (List.pairwise_cons.1 hpair).1 c hrest
      omega

/-- No change is beyond the end of the time table. -/
theorem changeTime_le_maxTimestamp (h : Recorded f signal) {endTime : ℕ} (hend : WaveData.maxTimestamp f = some endTime)
    {c : UInt64 × VariableValue} (hc : c ∈ signal.changes) : changeTime c ≤ endTime := by
  rw [WaveData.maxTimestamp, Option.filter_eq_some_iff, WellenContainer.maxTimestamp] at hend
  obtain ⟨front, heq⟩ := List.getLast?_eq_some_iff.1 hend.1
  have hmem := h.mem_table c hc
  have htable := h.table
  rw [heq] at hmem htable
  rcases List.mem_append.1 hmem with hmem | hmem
  · exact ((List.pairwise_append.1 htable).2.2 _ hmem _ List.mem_cons_self).le
  · exact (List.mem_singleton.1 hmem).le

theorem steppedVariable_some {w : WaveData} {vidx : Option ℕ} {i : ℕ}
    (hvar : w.steppedVariable vidx = some (i, variableRef)) (cursor : ℤ) :
    ({ w with cursor := some cursor } : WaveData).steppedVariable (some i) = some (i, variableRef) := by
  simp only [WaveData.steppedVariable, Option.bind_eq_bind, Option.bind_eq_some_iff] at hvar ⊢
  obtain ⟨j, -, node, hnode, r, hr, heq⟩ := hvar
  cases heq
  exact ⟨i, rfl, node, hnode, variableRef, hr, rfl⟩

/-- From where no change is left, a step goes to the end, and stays there. -/
theorem landing_of_nil (h : Recorded f signal) (hnil : beyond changeTime next signal.changes cursor.toNat = []) :
    beyond changeTime next signal.changes (landing f next cursor []).toNat = [] ∧
      landing f next (landing f next cursor []) [] = landing f next cursor [] := by
  cases next with
  | false => exact ⟨hnil, rfl⟩
  | true =>
    cases hend : WaveData.maxTimestamp f with
    | none => exact ⟨by rwa [landing, if_pos rfl, hend], by simp [landing, hend]⟩
    | some endTime =>
      refine ⟨?_, by simp [landing, hend]⟩
      rw [landing, if_pos rfl, hend, List.eq_nil_iff_forall_not_mem]
      intro c hc
      obtain ⟨hmem, hlt⟩ := mem_beyond.1 hc
      have hle := changeTime_le_maxTimestamp h hend hmem
      rw [further_true, Option.elim_some, Int.toNat_natCast] at hlt
      omega

theorem supported_landing (hrec : Recorded f signal) (h : Supported signal next cursor) :
    Supported signal next (landing f next cursor (beyond changeTime next signal.changes cursor.toNat)) := by
  cases hbeyond : beyond changeTime next signal.changes cursor.toNat with
  | cons c rest =>
    have hmem : c ∈ beyond changeTime next signal.changes cursor.toNat := hbeyond ▸ List.mem_cons_self
    have hc := (mem_beyond.1 hmem).1
    have hlt := hrec.lt _ (hrec.mem_table c hc)
    exact ⟨by rw [landing]; omega, fun _ => ⟨by rw [landing]; omega, c, hc, le_rfl⟩⟩
  | nil =>
    cases next with
    | false => exact h
    | true =>
      refine ⟨?_, nofun⟩
      cases hend : WaveData.maxTimestamp f with
      | none => simpa [landing, hend] using h.lt
      | some endTime =>
        have hmem : endTime ∈ f.timeTable := by
          rw [WaveData.maxTimestamp, Option.filter_eq_some_iff, WellenContainer.maxTimestamp] at hend
          exact List.mem_of_getLast? hend.1
        have hlt := hrec.lt _ hmem
        rw [landing, if_pos rfl, hend, Option.elim_some]
        omega

theorem isZero_eq (t : ℕ) (v : VariableValue) (n : Option ℕ) :
    WaveData.isZero (some { current := some (t, v), next := n }) = decide (v = .bigUint 0) := by
  cases v with
  | string text => rfl
  | bigUint value =>
    cases value with
    | zero => rfl
    | succ value => simp [WaveData.isZero]

theorem setCursorAtTransition_eq {w : WaveData} {vidx : Option ℕ} {i : ℕ} (skipZero : Bool) (hrec : Recorded f signal)
    (hloaded : Loaded f variableRef signal) (h : Supported signal next cursor)
    (hvar : w.steppedVariable vidx = some (i, variableRef)) (hcursor : w.cursor = some cursor) :
    w.setCursorAtTransition f next vidx skipZero = .ok { w with
      cursor := some (landed f next skipZero cursor (beyond changeTime next signal.changes cursor.toNat)) } := by
  have hstep := stepCursor_eq hrec hloaded h hvar hcursor
  have hsupported := supported_landing hrec h
  rw [WaveData.setCursorAtTransition, hstep]
  simp only [bind, Except.bind]
  cases skipZero with
  | false =>
    rw [if_neg Bool.false_ne_true]
    cases beyond changeTime next signal.changes cursor.toNat <;> simp [landed, landing, pure, Except.pure]
  | true =>
    rw [if_pos rfl, queryVariable_eq hloaded, querySignal_eq hrec hsupported.toNat_lt]
    have hagain := stepCursor_eq (w := { w with cursor := some (landing f next cursor
      (beyond changeTime next signal.changes cursor.toNat)) }) hrec hloaded hsupported (steppedVariable_some hvar _) rfl
    cases hbeyond : beyond changeTime next signal.changes cursor.toNat with
    | nil =>
      -- from the end, the second step goes nowhere
      rw [hbeyond] at hagain
      obtain ⟨hnil, hstays⟩ := landing_of_nil hrec hbeyond
      rw [hnil, hstays] at hagain
      simp only [Functor.map, Except.map, hagain]
      split <;> rfl
    | cons c rest =>
      rw [hbeyond] at hagain
      have hmem : c ∈ beyond changeTime next signal.changes cursor.toNat := hbeyond ▸ List.mem_cons_self
      have hrest := beyond_of_cons hrec.increasing hbeyond
      have htoNat : (landing f next cursor (c :: rest)).toNat = changeTime c := Int.toNat_natCast _
      rw [htoNat, hrest] at hagain
      rw [htoNat, head?_beyond_of_mem hrec.increasing (mem_beyond.1 hmem).1]
      simp only [Functor.map, Except.map, hagain, Option.map_some, isZero_eq, decide_eq_true_eq]
      by_cases hzero : c.2 = .bigUint 0
      · rw [if_pos hzero, landed, if_pos ⟨rfl, hzero⟩]
        rfl
      · rw [if_neg hzero, landed, if_neg fun hskip => hzero hskip.2]
        rfl

/-! ## Steps to the nearest change -/

/-- A change to land on. -/
def Lands (skipZero : Bool) (c : UInt64 × VariableValue) : Prop := skipZero = true → c.2 ≠ .bigUint 0

instance (skipZero : Bool) (c : UInt64 × VariableValue) : Decidable (Lands skipZero c) := by
  unfold Lands
  infer_instance

/-- The nearest change to land on beyond the cursor. -/
structure Nearest (signal : Signal) (next skipZero : Bool) (cursor : ℤ) (c : UInt64 × VariableValue) : Prop where
  mem : c ∈ signal.changes
  further : Further next cursor (changeTime c)
  lands : Lands skipZero c
  nearest : ∀ d ∈ signal.changes, Further next cursor (changeTime d) → Lands skipZero d →
    changeTime d = changeTime c ∨ Further next (changeTime c) (changeTime d)

/-- A step does not panic, does not go the other way, and reaches the nearest change if there is one. -/
def Steps (signal : Signal) (next skipZero : Bool) (cursor : ℤ) (result : Run WaveData) : Prop :=
  ∃ w' cursor', result = .ok w' ∧ w'.cursor = some cursor' ∧ (cursor' = cursor ∨ Further next cursor cursor') ∧
    ∀ c, Nearest signal next skipZero cursor c → cursor' = changeTime c

/-- When it does. Forwards, the cursor is not behind the end, and none that is negative has a change to land on at 0.
Zeros to skip come one at a time, unless no other change follows. -/
structure Clear (f : WellenContainer) (signal : Signal) (next skipZero : Bool) (cursor : ℤ) : Prop where
  supported : Supported signal next cursor
  forwards : next = true → (∀ endTime, WaveData.maxTimestamp f = some endTime → cursor ≤ endTime) ∧
    (cursor < 0 → ∀ c ∈ signal.changes, changeTime c = 0 → ¬ Lands skipZero c)
  zeros : skipZero = true → ∀ a b rest, beyond changeTime next signal.changes cursor.toNat = a :: b :: rest →
    a.2 = .bigUint 0 → b.2 = .bigUint 0 → ∀ c ∈ rest, c.2 = .bigUint 0

variable {skipZero : Bool} {c : UInt64 × VariableValue}

theorem further_of_mem_beyond (h : next = false → 0 ≤ cursor)
    (hc : c ∈ beyond changeTime next signal.changes cursor.toNat) : Further next cursor (changeTime c : ℤ) := by
  have hfurther := (mem_beyond.1 hc).2
  cases next with
  | false =>
    have := h rfl
    rw [further_false] at hfurther ⊢
    omega
  | true =>
    rw [further_true] at hfurther ⊢
    omega

/-- A change to land on beyond the cursor is beyond its time. -/
theorem mem_beyond_of_further (hprevious : next = false → 0 ≤ cursor)
    (hnext : next = true → cursor < 0 → ∀ c ∈ signal.changes, changeTime c = 0 → ¬ Lands skipZero c)
    (hmem : c ∈ signal.changes) (hfurther : Further next cursor (changeTime c : ℤ)) (hlands : Lands skipZero c) :
    c ∈ beyond changeTime next signal.changes cursor.toNat := by
  refine mem_beyond.2 ⟨hmem, ?_⟩
  cases next with
  | false =>
    have := hprevious rfl
    rw [further_false] at hfurther ⊢
    omega
  | true =>
    rw [further_true] at hfurther ⊢
    by_cases hneg : cursor < 0
    · have hzero : changeTime c ≠ 0 := fun hzero => hnext rfl hneg c hmem hzero hlands
      omega
    · omega

/-- A first change to land on is the nearest one. -/
theorem Nearest.changeTime_eq {a : UInt64 × VariableValue} {rest : List (UInt64 × VariableValue)}
    (h : Nearest signal next skipZero cursor c)
    (hpair : (a :: rest).Pairwise fun x y => Further next (changeTime x) (changeTime y))
    (hmem : c ∈ a :: rest) (ha : a ∈ signal.changes) (hfurther : Further next cursor (changeTime a : ℤ))
    (hlands : Lands skipZero a) : changeTime a = changeTime c := by
  rcases List.mem_cons.1 hmem with rfl | hmem
  · rfl
  · rcases h.nearest a ha hfurther hlands with heq | hback
    · exact heq
    · exact absurd (((List.pairwise_cons.1 hpair).1 c hmem).trans hback) (Further.irrefl next _)

/-- A step from a change, or from where no change is beyond, does not go back. -/
theorem landing_eq_or_further {l : List (UInt64 × VariableValue)}
    (hl : ∀ c ∈ l, Further next cursor (changeTime c : ℤ))
    (hend : next = true → ∀ endTime, WaveData.maxTimestamp f = some endTime → cursor ≤ endTime) :
    landing f next cursor l = cursor ∨ Further next cursor (landing f next cursor l) := by
  cases l with
  | cons c rest => exact .inr (hl c List.mem_cons_self)
  | nil =>
    cases next with
    | false => exact .inl rfl
    | true =>
      rw [landing, if_pos rfl]
      cases hmax : WaveData.maxTimestamp f with
      | none => exact .inl rfl
      | some endTime => exact (hend rfl endTime hmax).lt_or_eq.symm.imp Eq.symm id

theorem Clear.further_of_mem (h : Clear f signal next skipZero cursor) :
    ∀ c ∈ beyond changeTime next signal.changes cursor.toNat,
      c ∈ signal.changes ∧ Further next cursor (changeTime c : ℤ) :=
  fun _ hc => ⟨(mem_beyond.1 hc).1, further_of_mem_beyond (fun hnext => (h.supported.previous hnext).1) hc⟩

/-- The cursor does not go back. -/
theorem Clear.landed_eq_or_further (hrec : Recorded f signal) (h : Clear f signal next skipZero cursor) :
    landed f next skipZero cursor (beyond changeTime next signal.changes cursor.toNat) = cursor ∨
      Further next cursor (landed f next skipZero cursor (beyond changeTime next signal.changes cursor.toNat)) := by
  have hl := h.further_of_mem
  have hpair := pairwise_beyond next hrec.increasing cursor.toNat
  generalize beyond changeTime next signal.changes cursor.toNat = l at hl hpair ⊢
  cases l with
  | nil => exact landing_eq_or_further (fun c hc => absurd hc List.not_mem_nil) fun hnext => (h.forwards hnext).1
  | cons a rest =>
    obtain ⟨ha, hfurther⟩ := hl a List.mem_cons_self
    rw [landed]
    split
    · -- the second step starts at the first change
      have hagain : landing f next (changeTime a) rest = changeTime a ∨
          Further next (changeTime a : ℤ) (landing f next (changeTime a) rest) := by
        refine landing_eq_or_further (fun c hc => ?_) fun _ endTime hend => ?_
        · have hac := (List.pairwise_cons.1 hpair).1 c hc
          cases next <;> exact Int.ofNat_lt.2 hac
        · exact Int.ofNat_le.2 (changeTime_le_maxTimestamp hrec hend ha)
      rcases hagain with heq | hagain
      · exact .inr (by rwa [heq])
      · exact .inr (hfurther.trans hagain)
    · exact .inr hfurther

/-- The nearest change is landed on. -/
theorem Clear.landed_eq (hrec : Recorded f signal) (h : Clear f signal next skipZero cursor)
    (hc : Nearest signal next skipZero cursor c) :
    landed f next skipZero cursor (beyond changeTime next signal.changes cursor.toNat) = changeTime c := by
  have hmem := mem_beyond_of_further (fun hnext => (h.supported.previous hnext).1) (fun hnext => (h.forwards hnext).2)
    hc.mem hc.further hc.lands
  have hl := h.further_of_mem
  have hpair := pairwise_beyond next hrec.increasing cursor.toNat
  have hzeros := h.zeros
  generalize beyond changeTime next signal.changes cursor.toNat = l at hmem hl hpair hzeros
  cases l with
  | nil => cases hmem
  | cons a rest =>
    obtain ⟨ha, hfurther⟩ := hl a List.mem_cons_self
    rw [landed]
    split
    next hzero =>
      -- the first change is a zero to skip, so the nearest one is among the rest
      have hrest : c ∈ rest := by
        refine (List.mem_cons.1 hmem).resolve_left ?_
        rintro rfl
        exact hc.lands hzero.1 hzero.2
      cases rest with
      | nil => cases hrest
      | cons b rest =>
        obtain ⟨hb, hfurther'⟩ := hl b (List.mem_cons_of_mem a List.mem_cons_self)
        have hlands : Lands skipZero b := by
          intro hskip hbzero
          have hall := hzeros hskip a b rest rfl hzero.2 hbzero
          rcases List.mem_cons.1 hrest with rfl | hrest
          · exact hc.lands hskip hbzero
          · exact hc.lands hskip (hall c hrest)
        exact congrArg Nat.cast (hc.changeTime_eq (List.pairwise_cons.1 hpair).2 hrest hb hfurther' hlands)
    next hlands =>
      exact congrArg Nat.cast (hc.changeTime_eq hpair hmem ha hfurther fun hskip hzero => hlands ⟨hskip, hzero⟩)

/-- A step back from before the time 0 is one from the time 0. -/
theorem setCursorAtTransition_of_neg {w : WaveData} {vidx : Option ℕ} {i : ℕ} (hloaded : Loaded f variableRef signal)
    (hvar : w.steppedVariable vidx = some (i, variableRef)) (hcursor : w.cursor = some cursor) (hneg : cursor < 0) :
    w.setCursorAtTransition f false vidx skipZero =
      ({ w with cursor := some 0 } : WaveData).setCursorAtTransition f false vidx skipZero := by
  have hmoved : ∀ res, WaveData.movedCursor f false variableRef cursor res =
      WaveData.movedCursor f false variableRef 0 res := by
    intro res
    rw [WaveData.movedCursor, WaveData.movedCursor, if_neg Bool.false_ne_true, if_neg Bool.false_ne_true]
    cases res.current with
    | none => rfl
    | some current =>
      dsimp only
      rw [if_neg (by omega), if_neg (by omega)]
  have hvar' : ({ w with cursor := some 0 } : WaveData).steppedVariable vidx = some (i, variableRef) := hvar
  have htoNat : cursor.toNat = (0 : ℤ).toNat := by omega
  have hstep : w.stepCursor f false vidx = ({ w with cursor := some 0 } : WaveData).stepCursor f false vidx := by
    rw [WaveData.stepCursor, WaveData.stepCursor, hvar, hvar', hcursor]
    simp only [htoNat, hmoved]
  rw [WaveData.setCursorAtTransition, WaveData.setCursorAtTransition, ← hstep]
  cases hresult : w.stepCursor f false vidx with
  | error e => rfl
  | ok step =>
    cases step with
    | some step => rfl
    | none =>
      -- a variable that is loaded is always answered for
      rw [WaveData.stepCursor, hvar, hcursor] at hresult
      dsimp only at hresult
      rw [queryVariable_eq hloaded, Except.bind_eq_ok] at hresult
      obtain ⟨res, hres, hnone⟩ := hresult
      obtain ⟨res, -, rfl⟩ := Except.map_eq_ok.1 hres
      obtain ⟨moved, -, hsome⟩ := Except.bind_eq_ok.1 hnone
      cases hsome

/-- A step that does not panic is within the times of the file, and one back is not before the first change. -/
theorem lt_of_setCursorAtTransition {w w' : WaveData} {vidx : Option ℕ} {i : ℕ} (hrec : Recorded f signal)
    (hloaded : Loaded f variableRef signal) (hvar : w.steppedVariable vidx = some (i, variableRef))
    (hcursor : w.cursor = some cursor) (h : w.setCursorAtTransition f next vidx skipZero = .ok w') :
    cursor < 2 ^ 64 ∧ (next = false → ∃ c ∈ signal.changes, changeTime c ≤ cursor.toNat) := by
  have hquery : ∃ res, f.querySignal signal cursor.toNat = .ok res ∧
      ∃ moved, WaveData.movedCursor f next variableRef cursor res = .ok moved := by
    rw [WaveData.setCursorAtTransition, Except.bind_eq_ok] at h
    obtain ⟨step, hstep, -⟩ := h
    rw [WaveData.stepCursor, hvar, hcursor] at hstep
    dsimp only at hstep
    rw [queryVariable_eq hloaded, Except.bind_eq_ok] at hstep
    obtain ⟨res, hres, hmoved⟩ := hstep
    obtain ⟨res, hquery, rfl⟩ := Except.map_eq_ok.1 hres
    obtain ⟨moved, hmoved, -⟩ := Except.bind_eq_ok.1 hmoved
    exact ⟨res, hquery, moved, hmoved⟩
  obtain ⟨res, hquery, moved, hmoved⟩ := hquery
  -- a time of more than 64 bits cannot be queried
  have hlt : cursor.toNat < 2 ^ 64 := by
    by_contra hge
    rw [WellenContainer.querySignal, WellenContainer.hasBegun, if_neg hge] at hquery
    cases hquery
  refine ⟨by omega, ?_⟩
  rintro rfl
  rw [querySignal_eq hrec hlt] at hquery
  cases hbehind : beyond changeTime false signal.changes (cursor.toNat + 1) with
  | nil =>
    rw [hbehind] at hquery
    obtain rfl := Except.ok.inj hquery
    cases hmoved
  | cons c rest =>
    have hmem : c ∈ beyond changeTime false signal.changes (cursor.toNat + 1) := hbehind ▸ List.mem_cons_self
    exact ⟨c, (mem_beyond.1 hmem).1, Nat.lt_succ_iff.1 (mem_beyond.1 hmem).2⟩

/-- A step that goes through is supported, and goes forwards or starts at 0 or later. -/
theorem Steps.supported {w : WaveData} {vidx : Option ℕ} {i : ℕ} (hrec : Recorded f signal)
    (hloaded : Loaded f variableRef signal) (hvar : w.steppedVariable vidx = some (i, variableRef))
    (hcursor : w.cursor = some cursor)
    (h : Steps signal next skipZero cursor (w.setCursorAtTransition f next vidx skipZero)) :
    Supported signal next cursor := by
  obtain ⟨w', cursor', hok, hcursor', hway, -⟩ := h
  obtain ⟨hlt, hprevious⟩ := lt_of_setCursorAtTransition hrec hloaded hvar hcursor hok
  refine ⟨hlt, ?_⟩
  rintro rfl
  obtain ⟨c, hc, hle⟩ := hprevious rfl
  have hpos : 0 ≤ cursor := by
    by_contra hneg
    rw [not_le] at hneg
    have hzero : Supported signal false (0 : ℤ) := ⟨by norm_num, fun _ => ⟨le_rfl, c, hc, by omega⟩⟩
    have hnil : beyond changeTime false signal.changes (0 : ℤ).toNat = [] :=
      List.eq_nil_iff_forall_not_mem.2 fun y hy => absurd (mem_beyond.1 hy).2 (Nat.not_lt_zero _)
    -- the cursor is set to 0, which is after it
    rw [setCursorAtTransition_of_neg hloaded hvar hcursor hneg,
      setCursorAtTransition_eq (w := { w with cursor := some 0 }) skipZero hrec hloaded hzero hvar rfl, hnil] at hok
    obtain rfl := Except.ok.inj hok
    have hlanded : cursor' = 0 := (Option.some.inj hcursor').symm
    rw [hlanded, further_false] at hway
    omega
  exact ⟨hpos, c, hc, by omega⟩

/-- Some change that is to be landed on is the nearest one. -/
theorem exists_nearest (hrec : Recorded f signal) (hprevious : next = false → 0 ≤ cursor)
    (hnext : next = true → cursor < 0 → ∀ c ∈ signal.changes, changeTime c = 0 → ¬ Lands skipZero c)
    (hc : c ∈ beyond changeTime next signal.changes cursor.toNat) (hlands : Lands skipZero c) :
    ∃ d ∈ beyond changeTime next signal.changes cursor.toNat, Nearest signal next skipZero cursor d := by
  have hsome : ((beyond changeTime next signal.changes cursor.toNat).find? (decide <| Lands skipZero ·)).isSome :=
    List.find?_isSome.2 ⟨c, hc, decide_eq_true hlands⟩
  obtain ⟨d, hd⟩ := Option.isSome_iff_exists.1 hsome
  have hmem := List.mem_of_find?_eq_some hd
  have hdlands : Lands skipZero d := by simpa using List.find?_some hd
  refine ⟨d, hmem, (mem_beyond.1 hmem).1, further_of_mem_beyond hprevious hmem, hdlands, ?_⟩
  intro e he hfurther he'
  have hbeyond := mem_beyond_of_further hprevious hnext he hfurther he'
  exact further_of_find? hrec.increasing hd e he (mem_beyond.1 hbeyond).2 (decide_eq_true he')

/-- Steps forwards from before the time 0 do not end there. -/
theorem landed_ne_zero (hneg : cursor < 0) :
    landed f true skipZero cursor (beyond changeTime true signal.changes cursor.toNat) ≠ 0 := by
  have hend : ∀ time : ℤ, time ≠ 0 → landing f true time [] ≠ 0 := by
    intro time htime
    rw [landing, if_pos rfl]
    cases hmax : WaveData.maxTimestamp f with
    | none => exact htime
    | some endTime =>
      rw [WaveData.maxTimestamp, Option.filter_eq_some_iff, decide_eq_true_eq] at hmax
      exact Int.natCast_ne_zero.2 hmax.2
  have hpos : ∀ c ∈ beyond changeTime true signal.changes cursor.toNat, (changeTime c : ℤ) ≠ 0 := by
    intro c hc
    have := (mem_beyond.1 hc).2
    rw [further_true] at this
    omega
  generalize beyond changeTime true signal.changes cursor.toNat = l at hpos
  cases l with
  | nil => exact hend cursor hneg.ne
  | cons a rest =>
    have ha := hpos a List.mem_cons_self
    rw [landed]
    split
    · cases rest with
      | nil => exact hend _ ha
      | cons b rest => exact hpos b (List.mem_cons_of_mem a List.mem_cons_self)
    · exact ha

/-- No change is ahead behind the end. -/
theorem beyond_eq_nil_of_end_lt (hrec : Recorded f signal) {endTime : ℕ} (hend : WaveData.maxTimestamp f = some endTime)
    (hlt : (endTime : ℤ) < cursor) : beyond changeTime true signal.changes cursor.toNat = [] := by
  refine List.eq_nil_iff_forall_not_mem.2 fun c hc => ?_
  have hle := changeTime_le_maxTimestamp hrec hend (mem_beyond.1 hc).1
  have hfurther := (mem_beyond.1 hc).2
  rw [further_true] at hfurther
  omega

/-- The second of two zeros is landed on, and not the change behind them. -/
theorem Nearest.landed_ne {a b d : UInt64 × VariableValue} {rest : List (UInt64 × VariableValue)}
    (h : Nearest signal next skipZero cursor d)
    (hpair : (a :: b :: rest).Pairwise fun x y => Further next (changeTime x) (changeTime y)) (hd : d ∈ a :: b :: rest)
    (hskip : skipZero = true) (ha : a.2 = .bigUint 0) (hb : b.2 = .bigUint 0) :
    landed f next skipZero cursor (a :: b :: rest) ≠ changeTime d := by
  have hrest : d ∈ rest := by
    rcases List.mem_cons.1 hd with rfl | hd
    · exact absurd ha (h.lands hskip)
    · rcases List.mem_cons.1 hd with rfl | hd
      · exact absurd hb (h.lands hskip)
      · exact hd
  have hbd := (List.pairwise_cons.1 (List.pairwise_cons.1 hpair).2).1 d hrest
  rw [landed, if_pos ⟨hskip, ha⟩, landing]
  intro hlanded
  rw [Int.natCast_inj.1 hlanded] at hbd
  exact Further.irrefl next _ hbd

/-- A step does not panic, does not go the other way and reaches the nearest change exactly when the way is clear. -/
theorem setCursorAtTransition_iff {w : WaveData} {vidx : Option ℕ} {i : ℕ} (hrec : Recorded f signal)
    (hloaded : Loaded f variableRef signal) (hvar : w.steppedVariable vidx = some (i, variableRef))
    (hcursor : w.cursor = some cursor) :
    Steps signal next skipZero cursor (w.setCursorAtTransition f next vidx skipZero) ↔
      Clear f signal next skipZero cursor := by
  constructor
  · intro h
    have hsupported := h.supported hrec hloaded hvar hcursor
    obtain ⟨w', cursor', hok, hcursor', hway, hnearest⟩ := h
    rw [setCursorAtTransition_eq skipZero hrec hloaded hsupported hvar hcursor] at hok
    obtain rfl := Except.ok.inj hok
    obtain rfl := Option.some.inj hcursor'
    have hneg : next = true → cursor < 0 → ∀ c ∈ signal.changes, changeTime c = 0 → ¬ Lands skipZero c := by
      rintro rfl hneg c hc hzero hlands
      have hc : Nearest signal true skipZero cursor c := by
        refine ⟨hc, by rw [further_true, hzero]; omega, hlands, fun d _ _ _ => ?_⟩
        rw [hzero, further_true]
        omega
      exact landed_ne_zero hneg ((hnearest c hc).trans (by rw [hzero]; rfl))
    refine ⟨hsupported, fun hnext => ⟨fun endTime hend => ?_, hneg hnext⟩, fun hskip a b rest hbeyond ha hb c hc => ?_⟩
    · -- from behind the end, a step goes back to it
      subst hnext
      by_contra hlt
      have hnil := beyond_eq_nil_of_end_lt hrec hend (not_le.1 hlt)
      have hlanded : landed f true skipZero cursor [] = endTime := by
        rw [landed, landing, if_pos rfl, hend, Option.elim_some]
      rw [hnil, hlanded, further_true] at hway
      omega
    · -- a second zero is landed on
      by_contra hcz
      have hmem : c ∈ beyond changeTime next signal.changes cursor.toNat := by
        rw [hbeyond]
        exact List.mem_cons_of_mem a (List.mem_cons_of_mem b hc)
      obtain ⟨d, hd, hnear⟩ := exists_nearest hrec (fun hnext => (hsupported.previous hnext).1) hneg hmem fun _ => hcz
      have hpair := pairwise_beyond next hrec.increasing cursor.toNat
      have hlanded := hnearest d hnear
      rw [hbeyond] at hd hpair hlanded
      exact hnear.landed_ne hpair hd hskip ha hb hlanded
  · intro h
    exact ⟨_, _, setCursorAtTransition_eq skipZero hrec hloaded h.supported hvar hcursor, rfl,
      h.landed_eq_or_further hrec, fun c hc => h.landed_eq hrec hc⟩

/-- A variable outside all scopes. -/
def clock : VariableRef := { path := ⟨[], none⟩, name := "clk", id := some 0, index := none }

/-- A file of that variable. -/
def clockFile (timeTable : List ℕ) (signal : Signal) : WellenContainer :=
  { WellenContainer.newWaveform
      (.flat [{ path := [], name := "clk", index := none, isParameter := false, signalRef := 0 }]) [0] none 0 with
    signals := FiniteMap.empty.insert 0 signal
    timeTable }

/-- The variable on display, with the cursor at a time. -/
def clockAt (f : WellenContainer) (cursor : ℤ) : WaveData :=
  { WaveData.loaded f.waves with
    itemsTree := { items := [{ itemRef := 1, level := 0, unfolded := true, selected := false }] }
    displayedItems := FiniteMap.empty.insert 1 (.variable_ ⟨clock, none, none⟩)
    focusedItem := some 0
    cursor := some cursor }

/-- A zero between two ones. -/
def pulses : Signal := ⟨0, [(2, .bigUint 1), (4, .bigUint 0), (7, .bigUint 1)]⟩

theorem recorded_pulses : Recorded (clockFile [0, 2, 4, 7] pulses) pulses where
  increasing := by decide
  table := by decide
  mem_table := by decide
  lt := by decide

theorem setCursorAtTransition_iff_skip :
    Steps pulses true true 2 ((clockAt (clockFile [0, 2, 4, 7] pulses) 2).setCursorAtTransition
      (clockFile [0, 2, 4, 7] pulses) true none true) := by
  have hloaded : Loaded (clockFile [0, 2, 4, 7] pulses) clock pulses := ⟨_, rfl, rfl⟩
  refine (setCursorAtTransition_iff recorded_pulses hloaded (i := 0) rfl rfl).2 ⟨⟨by norm_num, nofun⟩, fun _ => ⟨?_, ?_⟩, ?_⟩
  · rintro _ ⟨⟩
    norm_num
  · intro hneg
    omega
  · -- ahead are the zero and the one behind it
    rintro - a b rest hbeyond - hb
    cases hbeyond
    cases hb

/-- Before the first change, a step back panics. -/
theorem not_forall_cursor_steps :
    ¬ ∀ (f : WellenContainer) (signal : Signal) (variableRef : VariableRef) (w : WaveData) (vidx : Option ℕ) (i : ℕ)
        (next skipZero : Bool) (cursor : ℤ), Recorded f signal → Loaded f variableRef signal →
      w.steppedVariable vidx = some (i, variableRef) → w.cursor = some cursor →
      Steps signal next skipZero cursor (w.setCursorAtTransition f next vidx skipZero) := by
  intro h
  obtain ⟨w', -, hok, -⟩ := h (clockFile [0, 2, 4, 7] pulses) pulses clock (clockAt (clockFile [0, 2, 4, 7] pulses) 1)
    none 0 false false 1 recorded_pulses ⟨_, rfl, rfl⟩ rfl rfl
  cases hok

end Wave
