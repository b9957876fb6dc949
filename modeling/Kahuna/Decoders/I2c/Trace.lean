import Kahuna.Decoders.I2c.Decode

/-!
# The I2C bus as one trace

The decoder reads two lanes and extracts its events in two passes, which a sort puts back into time
order. Here the bus is one chronological list of changes, and the events are recognised in one pass
over it (`recognise`), from the value of each line and a look ahead to the end of the high phase.

* `busEvents_eq_recognise`: on a bus whose two lines never change at the same time, the two passes
  and the sort compute the one pass.
-/

namespace Decoders.I2c

/-- A change of one of the two lines. -/
inductive Change where
  | scl (value : Bit)
  | sda (value : Bit)
  deriving DecidableEq, Repr

/-- The changes of a bus in time order. -/
abbrev Trace := List (UInt64 × Change)

/-- The changes of the SCL line. -/
def sclChanges (trace : Trace) : List (UInt64 × Bit) :=
  trace.filterMap fun c => match c with
    | (t, .scl v) => some (t, v)
    | (_, .sda _) => none

/-- The changes of the SDA line. -/
def sdaChanges (trace : Trace) : List (UInt64 × Bit) :=
  trace.filterMap fun c => match c with
    | (_, .scl _) => none
    | (t, .sda v) => some (t, v)

/-- The SCL high phase that `rest` begins in ends with SDA where it was. -/
def steady : Trace → Bool
  | [] => true
  | (_, .sda _) :: _ => false
  | (_, .scl .zero) :: _ => true
  | (_, .scl _) :: rest => steady rest

/-- The events of a trace, from the values that the lines hold before it. -/
def recognise : Option Bit → Option Bit → Trace → List (UInt64 × Event)
  | _, _, [] => []
  | scl, sda, (t, .sda v) :: rest =>
    let here :=
      if sda.any (· ≠ v) ∧ scl = some .one then
        match v with
        | .zero => [(t, Event.start)]
        | .one => [(t, Event.stop)]
        | .invalid => []
      else []
    here ++ recognise scl (some v) rest
  | scl, sda, (t, .scl v) :: rest =>
    let here :=
      if scl.any (· ≠ v) ∧ v = .one ∧ steady rest then
        [(t, Event.sample (sda.getD .invalid))]
      else []
    here ++ recognise (some v) sda rest

/-! ## The two lines of a trace -/

section Lines

variable (t : UInt64) (v : Bit) (rest : Trace)

@[simp] theorem sclChanges_nil : sclChanges [] = [] := rfl

@[simp] theorem sdaChanges_nil : sdaChanges [] = [] := rfl

@[simp] theorem sclChanges_scl : sclChanges ((t, .scl v) :: rest) = (t, v) :: sclChanges rest := rfl

@[simp] theorem sclChanges_sda : sclChanges ((t, .sda v) :: rest) = sclChanges rest := rfl

@[simp] theorem sdaChanges_scl : sdaChanges ((t, .scl v) :: rest) = sdaChanges rest := rfl

@[simp] theorem sdaChanges_sda : sdaChanges ((t, .sda v) :: rest) = (t, v) :: sdaChanges rest := rfl

end Lines

theorem mem_of_mem_sclChanges {trace : Trace} {c : UInt64 × Bit} (h : c ∈ sclChanges trace) :
    (c.1, .scl c.2) ∈ trace := by
  induction trace with
  | nil => simp at h
  | cons d rest ih =>
    rcases d with ⟨t, v | v⟩
    · rcases List.mem_cons.mp h with rfl | h
      · exact List.mem_cons_self
      · exact List.mem_cons_of_mem _ (ih h)
    · exact List.mem_cons_of_mem _ (ih h)

theorem mem_of_mem_sdaChanges {trace : Trace} {c : UInt64 × Bit} (h : c ∈ sdaChanges trace) :
    (c.1, .sda c.2) ∈ trace := by
  induction trace with
  | nil => simp at h
  | cons d rest ih =>
    rcases d with ⟨t, v | v⟩
    · exact List.mem_cons_of_mem _ (ih h)
    · rcases List.mem_cons.mp h with rfl | h
      · exact List.mem_cons_self
      · exact List.mem_cons_of_mem _ (ih h)

theorem after_sclChanges (trace : Trace) {t : UInt64} (h : Timeline.After trace t) :
    Timeline.After (sclChanges trace) t :=
  fun _ hc => h _ (mem_of_mem_sclChanges hc)

theorem after_sdaChanges (trace : Trace) {t : UInt64} (h : Timeline.After trace t) :
    Timeline.After (sdaChanges trace) t :=
  fun _ hc => h _ (mem_of_mem_sdaChanges hc)

/-- The SCL line of a trace changes at strictly increasing times. -/
theorem increasing_sclChanges {trace : Trace} (h : Timeline.Increasing trace) :
    Timeline.Increasing (sclChanges trace) := by
  induction trace with
  | nil => exact List.Pairwise.nil
  | cons c rest ih =>
    obtain ⟨hafter, hrest⟩ := List.pairwise_cons.mp h
    rcases c with ⟨t, v | v⟩
    · exact List.pairwise_cons.mpr ⟨after_sclChanges rest hafter, ih hrest⟩
    · exact ih hrest

/-! ## The high phase after a rise -/

/-- `u64::MAX`, which stands for the end of a high phase that does not end. -/
def maxTime : UInt64 := UInt64.ofNat (UInt64.size - 1)

/-- The end of the high phase that `rest` begins in. -/
def phaseEnd (value : Bit) (rest : Trace) : UInt64 :=
  ((Timeline.edgesFrom .zero (some value) (sclChanges rest)).head?).getD maxTime

/-- Everything after `t` ends its high phase after `t`. -/
theorem lt_phaseEnd {value : Bit} (rest : Trace) {t : UInt64} (h : Timeline.After rest t)
    (hmax : t < maxTime) : t < phaseEnd value rest := by
  unfold phaseEnd
  cases hedges : Timeline.edgesFrom .zero (some value) (sclChanges rest) with
  | nil => exact hmax
  | cons fall falls =>
    have hmem := Timeline.exists_mem_of_mem_edgesFrom Bit.zero (hedges ▸ List.mem_cons_self)
    exact after_sclChanges rest h _ hmem

/-- SDA moves before the high phase ends exactly when the phase is not steady. -/
theorem any_head?_sdaChanges {value : Bit} (hvalue : value ≠ .zero) {rest : Trace}
    (hinc : Timeline.Increasing rest) (hmax : ∀ c ∈ rest, c.1 < maxTime) :
    (sdaChanges rest).head?.any (fun c => c.1 < phaseEnd value rest) = !steady rest := by
  induction rest generalizing value with
  | nil => rfl
  | cons c rest ih =>
    obtain ⟨hc, hinc'⟩ := List.pairwise_cons.mp hinc
    have ht : c.1 < maxTime := hmax c List.mem_cons_self
    have hrest : ∀ c ∈ rest, c.1 < maxTime := fun c hc => hmax c (List.mem_cons_of_mem _ hc)
    rcases c with ⟨t, v | v⟩
    · by_cases hv : v = .zero
      · -- the phase ends at `t`, before any later move of SDA
        subst hv
        have hend : phaseEnd value ((t, .scl .zero) :: rest) = t := by
          simp [phaseEnd, Timeline.edgesFrom, hvalue]
        rw [hend, sdaChanges_scl]
        cases hsda : sdaChanges rest with
        | nil => rfl
        | cons d ds =>
          have hd : t < d.1 := after_sdaChanges rest hc d (hsda ▸ List.mem_cons_self)
          simpa [steady] using hd.le
      · have hend : phaseEnd value ((t, .scl v) :: rest) = phaseEnd v rest := by
          simp [phaseEnd, Timeline.edgesFrom, hv]
        have hsteady : steady ((t, .scl v) :: rest) = steady rest := by
          cases v with
          | zero => exact absurd rfl hv
          | one => rfl
          | invalid => rfl
        rw [hend, hsteady, sdaChanges_scl]
        exact ih hv hinc' hrest
    · have hlt : t < phaseEnd value ((t, .sda v) :: rest) := lt_phaseEnd rest hc ht
      simp [steady, hlt]

/-! ## The two passes -/

/-- The first element of a partitioned list past its partition point. -/
theorem getElem?_partitionPoint {α : Type*} {p : α → Bool} {xs ys : List α}
    (hxs : ∀ x ∈ xs, p x = true) (hys : ∀ y ∈ ys, p y = false) :
    (xs ++ ys)[partitionPoint p (xs ++ ys)]? = ys.head? := by
  have hnil : ys.takeWhile p = [] := by
    cases ys with
    | nil => rfl
    | cons y ys => simp [hys y List.mem_cons_self]
  rw [partitionPoint, List.takeWhile_append_of_pos hxs, hnil, List.append_nil,
    List.getElem?_append_right le_rfl, Nat.sub_self, List.head?_eq_getElem?]

/-- A lane is cut at a trace: what it recorded before, then its line in the trace. -/
structure CutAt (lane : BitLane) (past changes : List (UInt64 × Bit)) (trace : Trace) : Prop where
  changes_eq : lane.changes = past ++ changes
  before : ∀ c ∈ trace, Timeline.Before past c.1

/-- A change that the lane records is behind its cut. -/
theorem CutAt.change {lane : BitLane} {past changes : List (UInt64 × Bit)} {t : UInt64}
    {change : Change} {v : Bit} {rest : Trace}
    (h : CutAt lane past ((t, v) :: changes) ((t, change) :: rest))
    (hafter : Timeline.After rest t) : CutAt lane (past ++ [(t, v)]) changes rest where
  changes_eq := by rw [h.changes_eq, List.append_cons]
  before c hc := by
    rw [Timeline.before_append]
    exact ⟨h.before c (List.mem_cons_of_mem _ hc), by simpa using hafter c hc⟩

/-- A change of the other line leaves the cut of a lane where it is. -/
theorem CutAt.other {lane : BitLane} {past changes : List (UInt64 × Bit)} {c : UInt64 × Change}
    {rest : Trace} (h : CutAt lane past changes (c :: rest)) : CutAt lane past changes rest where
  changes_eq := h.changes_eq
  before d hd := h.before d (List.mem_cons_of_mem _ hd)

/-- The value in force at the cut is the last one recorded before it. -/
theorem CutAt.valueAt {lane : BitLane} {past changes : List (UInt64 × Bit)}
    {c : UInt64 × Change} {rest : Trace} (h : CutAt lane past changes (c :: rest))
    (hafter : Timeline.After changes c.1) : lane.valueAt c.1 = Timeline.lastValue none past := by
  rw [BitLane.valueAt_eq, h.changes_eq]
  exact Timeline.valueAt_append (fun d hd => (h.before c List.mem_cons_self d hd).le) hafter

variable {scl sda : BitLane} {sclPast sdaPast : List (UInt64 × Bit)}

/-- The first SDA change past `t`. -/
theorem CutAt.sdaMoves {past changes : List (UInt64 × Bit)} {c : UInt64 × Change} {rest : Trace}
    (h : CutAt sda past changes (c :: rest)) (hafter : Timeline.After changes c.1) (fall : UInt64) :
    sdaMoves sda c.1 fall = changes.head?.any (fun d => d.1 < fall) := by
  rw [I2c.sdaMoves, h.changes_eq, getElem?_partitionPoint]
  · exact fun d hd => decide_eq_true (h.before c List.mem_cons_self d hd).le
  · exact fun d hd => decide_eq_false (not_le.mpr (hafter d hd))

/-- The end of the high phase that a rise begins. -/
theorem CutAt.nextFall {t : UInt64} {rest : Trace}
    (h : CutAt scl sclPast ((t, .one) :: sclChanges rest) ((t, .scl .one) :: rest))
    (hafter : Timeline.After rest t) :
    nextFall (scl.edgesTo .zero) t = phaseEnd .one rest := by
  have hedges : scl.edgesTo .zero
      = Timeline.edgesFrom .zero none (sclPast ++ [(t, .one)])
        ++ Timeline.edgesFrom .zero (some .one) (sclChanges rest) := by
    rw [BitLane.edgesTo_eq, h.changes_eq, List.append_cons, Timeline.edgesTo,
      Timeline.edgesFrom_append, Timeline.lastValue_append]
    rfl
  rw [I2c.nextFall, hedges, getElem?_partitionPoint]
  · rfl
  · intro fall hfall
    have hmem := Timeline.exists_mem_of_mem_edgesFrom Bit.zero hfall
    rcases List.mem_append.mp hmem with hmem | hmem
    · exact decide_eq_true (h.before _ List.mem_cons_self _ hmem).le
    · simp at hmem
  · intro fall hfall
    have hmem := Timeline.exists_mem_of_mem_edgesFrom Bit.zero hfall
    exact decide_eq_false (not_le.mpr (after_sclChanges rest hafter _ hmem))

/-- The event of a rise at `t`, if SDA stays put for the whole high phase. -/
def sampleAt (scl sda : BitLane) (t : UInt64) : Option (UInt64 × Event) :=
  if sdaMoves sda t (nextFall (scl.edgesTo .zero) t) then none
  else some (t, .sample ((sda.valueAt t).getD .invalid))

theorem samples_eq (scl sda : BitLane) :
    samples scl sda = (Timeline.edgesTo Bit.one scl.changes).filterMap (sampleAt scl sda) := by
  rw [samples, scl.edgesTo_eq .one]
  rfl

/-- A rise is sampled exactly when the high phase is steady. -/
theorem sampleAt_eq {t : UInt64} {rest : Trace} (hinc : Timeline.Increasing rest)
    (hafter : Timeline.After rest t) (hmax : ∀ c ∈ rest, c.1 < maxTime)
    (hscl : CutAt scl sclPast ((t, .one) :: sclChanges rest) ((t, .scl .one) :: rest))
    (hsda : CutAt sda sdaPast (sdaChanges rest) ((t, .scl .one) :: rest)) :
    sampleAt scl sda t = if steady rest
      then some (t, .sample ((Timeline.lastValue none sdaPast).getD .invalid)) else none := by
  have hmoves := hsda.sdaMoves (after_sdaChanges rest hafter) (phaseEnd .one rest)
  rw [any_head?_sdaChanges (by decide) hinc hmax] at hmoves
  rw [sampleAt, hscl.nextFall hafter, hmoves, hsda.valueAt (after_sdaChanges rest hafter)]
  cases steady rest <;> rfl

/-- The two passes over the lines of a trace find the events of the trace. -/
theorem perm_recognise (scl sda : BitLane) (sclPast sdaPast : List (UInt64 × Bit)) {trace : Trace}
    (hinc : Timeline.Increasing trace)
    (hmax : ∀ c ∈ trace, c.1 < maxTime) (hscl : CutAt scl sclPast (sclChanges trace) trace)
    (hsda : CutAt sda sdaPast (sdaChanges trace) trace) :
    (startStops scl (Timeline.lastValue none sdaPast) (sdaChanges trace) ++
        (Timeline.edgesFrom Bit.one (Timeline.lastValue none sclPast)
          (sclChanges trace)).filterMap (sampleAt scl sda)).Perm
      (recognise (Timeline.lastValue none sclPast) (Timeline.lastValue none sdaPast) trace) := by
  induction trace generalizing sclPast sdaPast with
  | nil => simp [startStops, recognise]
  | cons c rest ih =>
    obtain ⟨hafter, hinc'⟩ := List.pairwise_cons.mp hinc
    have hmax' : ∀ c ∈ rest, c.1 < maxTime := fun c hc => hmax c (List.mem_cons_of_mem _ hc)
    rcases c with ⟨t, v | v⟩
    · have ih := ih _ _ hinc' hmax' (hscl.change hafter) hsda.other
      rw [Timeline.lastValue_append] at ih
      rw [sdaChanges_scl, sclChanges_scl, Timeline.edgesFrom_cons, List.filterMap_append, recognise]
      -- the sample of this rise moves in front of the STARTs and STOPs
      refine List.perm_append_comm_assoc _ _ _ |>.trans (List.Perm.append (.of_eq ?_) ih)
      by_cases hedge : (Timeline.lastValue none sclPast).any (· ≠ v) ∧ v = .one
      · obtain ⟨hprev, rfl⟩ := hedge
        have hsample := sampleAt_eq hinc' hafter hmax' hscl hsda
        cases hsteady : steady rest with
        | true =>
          rw [hsteady, if_pos rfl] at hsample
          rw [if_pos ⟨hprev, rfl⟩, if_pos ⟨hprev, rfl, rfl⟩, List.filterMap_cons, hsample]
          rfl
        | false =>
          rw [hsteady, if_neg Bool.false_ne_true] at hsample
          rw [if_pos ⟨hprev, rfl⟩, if_neg (by simp), List.filterMap_cons, hsample]
          rfl
      · rw [if_neg hedge, if_neg fun h => hedge ⟨h.1, h.2.1⟩, List.filterMap_nil]
    · have ih := ih _ _ hinc' hmax' hscl.other (hsda.change hafter)
      have hvalue : scl.valueAt t = _ := hscl.valueAt (after_sclChanges rest hafter)
      rw [Timeline.lastValue_append] at ih
      simp only [sdaChanges_sda, sclChanges_sda, startStops, recognise, List.append_assoc, hvalue]
      exact List.Perm.append_left _ ih

/-! ## Time order -/

/-- The events of a trace carry times of the trace. -/
theorem exists_mem_of_mem_recognise {scl sda : Option Bit} {trace : Trace} {e : UInt64 × Event}
    (h : e ∈ recognise scl sda trace) : ∃ c ∈ trace, c.1 = e.1 := by
  induction trace generalizing scl sda with
  | nil => simp [recognise] at h
  | cons c rest ih =>
    rcases c with ⟨t, v | v⟩
    · rcases List.mem_append.mp h with h | h
      · refine ⟨_, List.mem_cons_self, ?_⟩
        split at h <;> simp_all
      · obtain ⟨c, hc, htime⟩ := ih h
        exact ⟨c, List.mem_cons_of_mem _ hc, htime⟩
    · rcases List.mem_append.mp h with h | h
      · refine ⟨_, List.mem_cons_self, ?_⟩
        split at h
        · cases v <;> simp_all
        · simp at h
      · obtain ⟨c, hc, htime⟩ := ih h
        exact ⟨c, List.mem_cons_of_mem _ hc, htime⟩

/-- The events of a trace are in strict time order. -/
theorem pairwise_recognise (scl sda : Option Bit) {trace : Trace}
    (hinc : Timeline.Increasing trace) :
    (recognise scl sda trace).Pairwise (fun a b => a.1 < b.1) := by
  induction trace generalizing scl sda with
  | nil => simp [recognise]
  | cons c rest ih =>
    obtain ⟨hafter, hinc'⟩ := List.pairwise_cons.mp hinc
    have hlater : ∀ {scl sda}, ∀ e ∈ recognise scl sda rest, c.1 < e.1 := by
      intro scl sda e he
      obtain ⟨d, hd, htime⟩ := exists_mem_of_mem_recognise he
      exact htime ▸ hafter d hd
    rcases c with ⟨t, v | v⟩
    · refine List.pairwise_append.mpr ⟨?_, ih _ _ hinc', ?_⟩
      · split <;> simp
      · intro a ha b hb
        split at ha
        · have := hlater b hb
          simp_all
        · simp at ha
    · refine List.pairwise_append.mpr ⟨?_, ih _ _ hinc', ?_⟩
      · split
        · cases v <;> simp
        · simp
      · intro a ha b hb
        split at ha
        · have := hlater b hb
          cases v <;> simp_all
        · simp at ha

/-- On a bus whose lines first hold one value each and then change as the trace says, the two passes
and the sort find the events of the trace. -/
theorem busEvents_eq_recognise {trace : Trace} (sclFirst sdaFirst : UInt64 × Bit)
    (hinc : Timeline.Increasing trace) (hmax : ∀ c ∈ trace, c.1 < maxTime)
    (hscl : ∀ c ∈ trace, sclFirst.1 < c.1) (hsda : ∀ c ∈ trace, sdaFirst.1 < c.1) :
    busEvents ⟨sclFirst :: sclChanges trace⟩ ⟨sdaFirst :: sdaChanges trace⟩
      = recognise (some sclFirst.2) (some sdaFirst.2) trace := by
  have hperm := perm_recognise ⟨sclFirst :: sclChanges trace⟩ ⟨sdaFirst :: sdaChanges trace⟩
    [sclFirst] [sdaFirst] hinc hmax
    ⟨rfl, by simpa using hscl⟩ ⟨rfl, by simpa using hsda⟩
  have hcollect : collectEvents ⟨sclFirst :: sclChanges trace⟩ ⟨sdaFirst :: sdaChanges trace⟩
      = startStops ⟨sclFirst :: sclChanges trace⟩ (some sdaFirst.2) (sdaChanges trace) ++
        (Timeline.edgesFrom Bit.one (some sclFirst.2) (sclChanges trace)).filterMap
          (sampleAt ⟨sclFirst :: sclChanges trace⟩ ⟨sdaFirst :: sdaChanges trace⟩) := by
    rw [collectEvents, samples_eq]
    simp only [startStops, Option.any_none, Bool.false_eq_true, false_and, if_false,
      List.nil_append]
    rfl
  have hsorted := pairwise_recognise (some sclFirst.2) (some sdaFirst.2) hinc
  have hsort := List.perm_insertionSort (fun a b : UInt64 × Event => a.1 ≤ b.1)
    (collectEvents ⟨sclFirst :: sclChanges trace⟩ ⟨sdaFirst :: sdaChanges trace⟩)
  -- a sorted list of events at different times is determined by its members
  have hnodup : ((recognise (some sclFirst.2) (some sdaFirst.2) trace).map Prod.fst).Nodup :=
    List.pairwise_map.mpr (hsorted.imp ne_of_lt)
  refine List.Perm.eq_of_pairwise ?_ (List.pairwise_insertionSort _ _) (hsorted.imp le_of_lt)
    (hsort.trans (hcollect ▸ hperm))
  intro a b ha hb hab hba
  have ha' := (hcollect ▸ hperm).mem_iff.mp (hsort.mem_iff.mp ha)
  exact List.inj_on_of_nodup_map hnodup ha' hb (le_antisymm hab hba)

end Decoders.I2c
