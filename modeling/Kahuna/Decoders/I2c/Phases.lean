import Kahuna.Decoders.I2c.RoundTrip
import Kahuna.Decoders.Redundant

/-!
# The phases of an I2C bus

A condition on the bus opens a phase, with the samples that are taken before the next condition.
`phases` reads them off the events in time order; `inTime_phases` says when things happen in them. A
condition and a sample at the same time come in this order, because the conditions are collected first
and the events are sorted by a stable sort.
-/

namespace Decoders.I2c

/-- What happens on a bus from one START or STOP to the next: the time of the condition, whether it is a
START, and the times of the samples. -/
structure Phase where
  time : UInt64
  opens : Bool
  samples : List UInt64
  deriving DecidableEq, Repr

/-- The samples before the first condition, and the phases. -/
def phases : List (UInt64 × Event) → List UInt64 × List Phase
  | [] => ([], [])
  | (t, .start) :: rest => ([], ⟨t, true, (phases rest).1⟩ :: (phases rest).2)
  | (t, .stop) :: rest => ([], ⟨t, false, (phases rest).1⟩ :: (phases rest).2)
  | (t, .sample _) :: rest => (t :: (phases rest).1, (phases rest).2)

/-- A START comes next. -/
def startsNext (ps : List Phase) : Bool := ps.head?.any Phase.opens

/-- Two times are at least a clock period apart. -/
def Apart (T a b : UInt64) : Prop := a.toNat + T.toNat ≤ b.toNat

/-- What the times of samples tell about the times of the condition that comes next. -/
structure SamplesBefore (T : UInt64) (samples : List UInt64) (ps : List Phase) : Prop where
  apart : samples.Pairwise (Apart T)
  before : ∀ q ∈ ps.head?, ∀ t ∈ samples, t < q.time

/-- The times in phases: a condition comes no later than its samples, these are at least a clock period
apart, and the next condition comes later than all of it. -/
def InTime (T : UInt64) : List Phase → Prop
  | [] => True
  | p :: ps =>
    (∀ t ∈ p.samples, p.time ≤ t) ∧ SamplesBefore T p.samples ps ∧
      (∀ q ∈ ps.head?, p.time < q.time) ∧ InTime T ps

variable {T : UInt64} {events : List (UInt64 × Event)} {scl sda : BitLane}

/-! ## Times of events -/

/-- The times of two events, of which the second comes later. -/
structure Ordered (T : UInt64) (e e' : UInt64 × Event) : Prop where
  le : e.1 ≤ e'.1
  lt : e'.2.isSample = false → e.1 < e'.1
  apart : e.2.isSample = true → e'.2.isSample = true → Apart T e.1 e'.1

theorem exists_of_mem_fst_phases {t : UInt64} (ht : t ∈ (phases events).1) :
    ∃ e ∈ events, e.1 = t ∧ e.2.isSample = true := by
  induction events with
  | nil => simp [phases] at ht
  | cons e rest ih =>
    obtain ⟨u, event⟩ := e
    cases event with
    | start => simp [phases] at ht
    | stop => simp [phases] at ht
    | sample bit =>
      rcases List.mem_cons.1 ht with rfl | ht
      · exact ⟨_, List.mem_cons_self, rfl, rfl⟩
      · obtain ⟨e, he, heq⟩ := ih ht
        exact ⟨e, List.mem_cons_of_mem _ he, heq⟩

theorem exists_of_mem_snd_phases {p : Phase} (hp : p ∈ (phases events).2) :
    ∃ e ∈ events, e.1 = p.time ∧ e.2.isSample = false := by
  induction events with
  | nil => simp [phases] at hp
  | cons e rest ih =>
    obtain ⟨u, event⟩ := e
    have hrest : p ∈ (phases rest).2 → ∃ e ∈ (u, event) :: rest, e.1 = p.time ∧ e.2.isSample = false := by
      intro hp
      obtain ⟨e, he, heq⟩ := ih hp
      exact ⟨e, List.mem_cons_of_mem _ he, heq⟩
    cases event with
    | start =>
      rcases List.mem_cons.1 hp with rfl | hp
      · exact ⟨_, List.mem_cons_self, rfl, rfl⟩
      · exact hrest hp
    | stop =>
      rcases List.mem_cons.1 hp with rfl | hp
      · exact ⟨_, List.mem_cons_self, rfl, rfl⟩
      · exact hrest hp
    | sample bit => exact hrest hp

/-- The phases of events in time order are in time. -/
theorem inTime_phases (h : events.Pairwise (Ordered T)) :
    SamplesBefore T (phases events).1 (phases events).2 ∧ InTime T (phases events).2 := by
  induction events with
  | nil => exact ⟨⟨List.Pairwise.nil, by simp [phases]⟩, trivial⟩
  | cons e rest ih =>
    obtain ⟨hhead, hrest⟩ := List.pairwise_cons.1 h
    obtain ⟨hsamples, hphases⟩ := ih hrest
    have hle : ∀ t ∈ (phases rest).1, e.1 ≤ t := by
      intro t ht
      obtain ⟨e', he', rfl, -⟩ := exists_of_mem_fst_phases ht
      exact (hhead e' he').le
    have hlt : ∀ q ∈ (phases rest).2.head?, e.1 < q.time := by
      intro q hq
      obtain ⟨e', he', htime, hevent⟩ := exists_of_mem_snd_phases (List.mem_of_mem_head? hq)
      exact htime ▸ (hhead e' he').lt hevent
    obtain ⟨t, event⟩ := e
    cases event with
    | start => exact ⟨⟨List.Pairwise.nil, by simp [phases]⟩, hle, hsamples, hlt, hphases⟩
    | stop => exact ⟨⟨List.Pairwise.nil, by simp [phases]⟩, hle, hsamples, hlt, hphases⟩
    | sample bit =>
      refine ⟨⟨List.pairwise_cons.2 ⟨fun u hu => ?_, hsamples.apart⟩, fun q hq u hu => ?_⟩, hphases⟩
      · obtain ⟨e', he', rfl, hevent⟩ := exists_of_mem_fst_phases hu
        exact (hhead e' he').apart rfl hevent
      · rcases List.mem_cons.1 hu with rfl | hu
        · exact hlt q hq
        · exact hsamples.before q hq u hu

/-! ## Events of a bus -/

/-- Times of which neighbours are at least a clock period apart. -/
theorem pairwise_apart {times : List UInt64} (h : times.Pairwise (· < ·))
    (hleast : ∀ d ∈ List.zipWith (fun a b => b - a) times times.tail, T ≤ d) :
    times.Pairwise (Apart T) := by
  induction times with
  | nil => exact List.Pairwise.nil
  | cons a times ih =>
    obtain ⟨ha, htimes⟩ := List.pairwise_cons.1 h
    cases times with
    | nil => exact List.pairwise_singleton _ _
    | cons b times =>
      rw [List.tail_cons, List.zipWith_cons_cons, List.forall_mem_cons] at hleast
      refine List.pairwise_cons.2 ⟨fun c hc => ?_, ih htimes hleast.2⟩
      have hab : a < b := ha b List.mem_cons_self
      have hbc : b ≤ c := by
        rcases List.mem_cons.1 hc with rfl | hc
        · exact le_rfl
        · exact ((List.pairwise_cons.1 htimes).1 c hc).le
      have hsub := UInt64.toNat_sub_of_le b a hab.le
      have hd := UInt64.le_iff_toNat_le.1 hleast.1
      rw [UInt64.lt_iff_toNat_lt] at hab
      rw [UInt64.le_iff_toNat_le] at hbc
      rw [Apart]
      omega

/-- The rising edges of a clock are at least a clock period apart. -/
theorem pairwise_apart_rises (hinc : scl.Increasing) :
    (scl.edgesTo .one).Pairwise (Apart (clockPeriod scl)) := by
  refine pairwise_apart (pairwise_rises hinc) fun d hd => ?_
  rw [clockPeriod]
  cases hmin : (List.zipWith (fun a b => b - a) (scl.edgesTo .one) (scl.edgesTo .one).tail).min? with
  | none =>
    rw [List.min?_eq_none_iff.1 hmin] at hd
    cases hd
  | some least => exact (List.min?_eq_some_iff.1 hmin).2 d hd

theorem exists_of_mem_startStops {prev : Option Bit} {changes : List (UInt64 × Bit)}
    {e : UInt64 × Event} (he : e ∈ startStops scl prev changes) : ∃ c ∈ changes, c.1 = e.1 := by
  induction changes generalizing prev with
  | nil => simp [startStops] at he
  | cons c rest ih =>
    obtain ⟨u, v⟩ := c
    simp only [startStops, List.mem_append] at he
    rcases he with he | he
    · refine ⟨(u, v), List.mem_cons_self, ?_⟩
      split at he
      · cases v with
        | zero => rw [List.mem_singleton.1 he]
        | one => rw [List.mem_singleton.1 he]
        | invalid => cases he
      · cases he
    · obtain ⟨c, hc, heq⟩ := ih he
      exact ⟨c, List.mem_cons_of_mem _ hc, heq⟩

/-- The conditions are found at changes of SDA, in their order. -/
theorem pairwise_startStops {prev : Option Bit} {changes : List (UInt64 × Bit)}
    (hinc : Timeline.Increasing changes) :
    (startStops scl prev changes).Pairwise fun e e' => e.1 < e'.1 := by
  induction changes generalizing prev with
  | nil => exact List.Pairwise.nil
  | cons c rest ih =>
    obtain ⟨u, v⟩ := c
    obtain ⟨hu, hrest⟩ := List.pairwise_cons.1 hinc
    refine List.pairwise_append.2 ⟨?_, ih hrest, fun e he e' he' => ?_⟩
    · split
      · cases v <;> simp
      · exact List.Pairwise.nil
    · obtain ⟨c, hc, htime⟩ := exists_of_mem_startStops he'
      have heu : e.1 = u := by
        split at he
        · cases v with
          | zero => rw [List.mem_singleton.1 he]
          | one => rw [List.mem_singleton.1 he]
          | invalid => cases he
        · cases he
      rw [heu, ← htime]
      exact hu c hc

/-- The events of a bus are in time order, and a condition comes before a sample at its time. -/
theorem pairwise_ordered_busEvents (hscl : scl.Increasing) (hsda : sda.Increasing) :
    (busEvents scl sda).Pairwise (Ordered (clockPeriod scl)) := by
  rw [List.pairwise_iff_forall_sublist]
  intro e e' hsub
  have htimes : (busEvents scl sda).Pairwise fun d d' => d.1 ≤ d'.1 :=
    List.pairwise_insertionSort (fun d d' : UInt64 × Event => d.1 ≤ d'.1) _
  have hle : e.1 ≤ e'.1 := List.pairwise_iff_forall_sublist.1 htimes hsub
  refine ⟨hle, fun hevent => lt_of_le_of_ne hle fun heq => ?_, fun hevent hevent' => ?_⟩
  · -- among the events at one time the conditions come first, as they are collected
    have hcollected : (collectEvents scl sda).Pairwise fun d d' => d'.2.isSample = false → d.1 < d'.1 := by
      refine List.pairwise_append.2 ⟨?_, ?_, fun d _ d' hd' hevent => ?_⟩
      · refine (pairwise_startStops hsda).imp ?_
        intro d d' hlt _
        exact hlt
      · refine List.pairwise_of_forall_mem_list fun d _ d' hd' hevent => ?_
        simp [isSample_of_mem_samples hd'] at hevent
      · simp [isSample_of_mem_samples hd'] at hevent
    have hsorted : ((collectEvents scl sda).filter fun d => d.1 = e.1).Pairwise
        fun d d' => d.1 ≤ d'.1 := by
      refine List.pairwise_of_forall_mem_list fun d hd d' hd' => ?_
      rw [of_decide_eq_true (List.mem_filter.1 hd).2, of_decide_eq_true (List.mem_filter.1 hd').2]
    have htime := hsub.filter fun d => d.1 = e.1
    rw [List.filter_cons_of_pos (by simp), List.filter_cons_of_pos (by simp [heq]), busEvents,
      filter_insertionSort, hsorted.insertionSort_eq] at htime
    have hlt := List.pairwise_iff_forall_sublist.1 (hcollected.filter _) htime hevent
    exact absurd heq hlt.ne
  · have hsamples := hsub.filter fun d => d.2.isSample
    rw [List.filter_cons_of_pos (by exact hevent), List.filter_cons_of_pos (by exact hevent'),
      filter_isSample_busEvents hscl] at hsamples
    exact List.pairwise_iff_forall_sublist.1 (pairwise_samples (pairwise_apart_rises hscl)) hsamples

end Decoders.I2c
