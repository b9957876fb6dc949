import Mathlib.Logic.Basic
import Mathlib.Logic.Function.Basic

/-!
# Transition systems that may fail

A step takes a state and an action to a new state or to an error. A run takes steps that are
allowed, and ends at an error.

- `Reachable.invariant`: what holds at the start and is kept by each allowed step holds in every
  reachable state.
- `reachable_of_run`, `exists_reachable_of_checkedRun`: the state after a list of actions is
  reachable.
- `reachable_of_allowedRun`: so it is in a system whose steps never fail.
-/

/-- A computation that succeeds has succeeded in each of its steps. -/
theorem Except.bind_eq_ok {ε α β : Type} {x : Except ε α} {f : α → Except ε β} {b : β} :
    (x >>= f) = .ok b ↔ ∃ a, x = .ok a ∧ f a = .ok b := by
  constructor
  · intro h
    match x with
    | .ok a => exact ⟨a, rfl, h⟩
  · rintro ⟨a, rfl, h⟩
    exact h

/-- The result of a mapped computation is the image of its result. -/
theorem Except.map_eq_ok {ε α β : Type} {x : Except ε α} {f : α → β} {b : β} :
    (f <$> x) = .ok b ↔ ∃ a, x = .ok a ∧ f a = b := by
  constructor
  · intro h
    match x with
    | .ok a => exact ⟨a, rfl, Except.ok.inj h⟩
  · rintro ⟨a, rfl, rfl⟩
    rfl

/-- A computation that has a result has succeeded. -/
theorem Except.exists_of_isSome {ε α : Type} {x : Except ε α} (h : x.toOption.isSome = true) :
    ∃ a, x = .ok a := by
  match x with
  | .ok a => exact ⟨a, rfl⟩

/-- A loop succeeds if its passes up to the last one do, and the last one. -/
theorem Except.foldlM_concat_eq_ok {ε σ α : Type} {f : σ → α → Except ε σ} {s t : σ} {l : List α} {a : α} :
    (l ++ [a]).foldlM f s = .ok t ↔ ∃ s', l.foldlM f s = .ok s' ∧ f s' a = .ok t := by
  rw [List.foldlM_append, Except.bind_eq_ok]
  simp only [List.foldlM_cons, List.foldlM_nil, bind_pure]

/-- A loop that fails has failed in one of its passes, after others that did not. -/
theorem Except.foldlM_eq_error_iff {ε σ α : Type} {f : σ → α → Except ε σ} {s : σ} {l : List α} {e : ε} :
    l.foldlM f s = .error e ↔
      ∃ before a after s', l = before ++ a :: after ∧ before.foldlM f s = .ok s' ∧ f s' a = .error e := by
  induction l generalizing s with
  | nil => simp [pure, Except.pure]
  | cons b l ih =>
    rw [List.foldlM_cons]
    constructor
    · intro h
      match hb : f s b with
      | .error e' =>
        rw [hb] at h
        cases h
        exact ⟨[], b, l, s, rfl, rfl, hb⟩
      | .ok s₁ =>
        rw [hb] at h
        obtain ⟨before, a, after, s', rfl, hbefore, ha⟩ := ih.1 h
        refine ⟨b :: before, a, after, s', rfl, ?_, ha⟩
        rw [List.foldlM_cons, hb]
        exact hbefore
    · rintro ⟨before, a, after, s', hl, hbefore, ha⟩
      cases before with
      | nil =>
        cases hl
        cases hbefore
        rw [ha]
        rfl
      | cons b' before =>
        cases hl
        rw [List.foldlM_cons, Except.bind_eq_ok] at hbefore
        obtain ⟨s₁, hs₁, hbefore⟩ := hbefore
        rw [hs₁]
        exact ih.2 ⟨before, a, after, s', rfl, hbefore, ha⟩

/-- A loop succeeds, and keeps what each of its passes keeps, if no pass fails where it holds. -/
theorem Except.exists_foldlM {ε σ α : Type} {f : σ → α → Except ε σ} (P : σ → Prop) {s : σ} {l : List α} (hs : P s)
    (hstep : ∀ s, ∀ a ∈ l, P s → ∃ s', f s a = .ok s' ∧ P s') : ∃ t, l.foldlM f s = .ok t ∧ P t := by
  induction l generalizing s with
  | nil => exact ⟨s, rfl, hs⟩
  | cons a l ih =>
    obtain ⟨s', hs', hP⟩ := hstep s a List.mem_cons_self hs
    obtain ⟨t, ht, hPt⟩ := ih hP fun s b hb => hstep s b (List.mem_cons_of_mem a hb)
    refine ⟨t, ?_, hPt⟩
    rw [List.foldlM_cons, hs']
    exact ht

namespace Transition

variable {σ α ε : Type*} {step : σ → α → Except ε σ} {allowed : σ → α → Prop} {start : σ}

/-- The states of the runs from `start` that take allowed steps. -/
inductive Reachable (step : σ → α → Except ε σ) (allowed : σ → α → Prop) (start : σ) : σ → Prop
  | start : Reachable step allowed start start
  | step {s s' : σ} {a : α} : Reachable step allowed start s → allowed s a → step s a = .ok s' →
      Reachable step allowed start s'

/-- An invariant of the steps holds in every reachable state. -/
theorem Reachable.invariant {I : σ → Prop} {s : σ} (h : Reachable step allowed start s)
    (hstart : I start)
    (hstep : ∀ s a s', I s → allowed s a → step s a = .ok s' → I s') : I s := by
  induction h with
  | start => exact hstart
  | step _ ha hs ih => exact hstep _ _ _ ih ha hs

/-- The state after a list of actions. -/
def run (step : σ → α → Except ε σ) : σ → List α → Except ε σ
  | s, [] => .ok s
  | s, a :: rest =>
    match step s a with
    | .error e => .error e
    | .ok s' => run step s' rest

/-- A run of actions that are allowed everywhere ends in a reachable state. -/
theorem reachable_of_run {actions : List α} {s : σ} (hallowed : ∀ a ∈ actions, ∀ s, allowed s a)
    (h : run step start actions = .ok s) : Reachable step allowed start s := by
  have hfrom : ∀ s₀, Reachable step allowed start s₀ → run step s₀ actions = .ok s →
      Reachable step allowed start s := by
    clear h
    induction actions with
    | nil =>
      intro s₀ hs₀ h
      cases h
      exact hs₀
    | cons a rest ih =>
      intro s₀ hs₀ h
      rw [List.forall_mem_cons] at hallowed
      simp only [run] at h
      split at h
      · cases h
      next s₁ hs₁ => exact ih hallowed.2 s₁ (hs₀.step (hallowed.1 s₀) hs₁) h
  exact hfrom start .start h

/-- A run that can be computed has an end, which can be tested. -/
theorem exists_reachable_of_run (step : σ → α → Except ε σ) (allowed : σ → α → Prop) (start : σ)
    (actions : List α) (test : σ → Bool) (hallowed : ∀ a ∈ actions, ∀ s, allowed s a)
    (h : (run step start actions).toOption.any test = true) :
    ∃ s, run step start actions = .ok s ∧ Reachable step allowed start s ∧ test s = true := by
  match hrun : run step start actions with
  | .error e =>
    rw [hrun] at h
    cases h
  | .ok s =>
    rw [hrun] at h
    exact ⟨s, rfl, reachable_of_run hallowed hrun, h⟩

/-- The state after a list of actions, each of which passes a check in the state it is taken in. -/
def checkedRun (step : σ → α → Except ε σ) (check : σ → α → Bool) : σ → List α → Option σ
  | s, [] => some s
  | s, a :: rest =>
    if check s a then
      match step s a with
      | .error _ => none
      | .ok s' => checkedRun step check s' rest
    else none

/-- A checked run that can be computed has an end, which can be tested. -/
theorem exists_reachable_of_checkedRun (step : σ → α → Except ε σ) (allowed : σ → α → Prop)
    (start : σ) (check : σ → α → Bool) (actions : List α) (test : σ → Bool)
    (hcheck : ∀ s a, check s a = true → allowed s a)
    (h : (checkedRun step check start actions).any test = true) :
    ∃ s, checkedRun step check start actions = some s ∧ Reachable step allowed start s ∧
      test s = true := by
  obtain ⟨s, hs, htest⟩ := (Option.any_eq_true _ _).1 h
  refine ⟨s, hs, ?_, htest⟩
  have hfrom : ∀ s₀, Reachable step allowed start s₀ → checkedRun step check s₀ actions = some s →
      Reachable step allowed start s := by
    clear h hs
    induction actions with
    | nil =>
      intro s₀ hs₀ h
      cases h
      exact hs₀
    | cons a rest ih =>
      intro s₀ hs₀ h
      simp only [checkedRun] at h
      split at h
      next hpass =>
        split at h
        · cases h
        next s₁ hs₁ => exact ih s₁ (hs₀.step (hcheck s₀ a hpass) hs₁) h
      next => cases h
  exact hfrom start .start hs

/-- Each of some actions is allowed when it is taken. -/
def AllowedRun (next : σ → α → σ) (allowed : σ → α → Prop) : σ → List α → Prop
  | _, [] => True
  | s, a :: rest => allowed s a ∧ AllowedRun next allowed (next s a) rest

/-- The state after some allowed actions is reachable, in a system whose steps never fail. -/
theorem reachable_of_allowedRun {next : σ → α → σ} (hnext : ∀ s a, step s a = .ok (next s a))
    {actions : List α} (h : AllowedRun next allowed start actions) :
    Reachable step allowed start (actions.foldl next start) := by
  have hfrom : ∀ s, Reachable step allowed start s → AllowedRun next allowed s actions →
      Reachable step allowed start (actions.foldl next s) := by
    clear h
    induction actions with
    | nil => exact fun s hs _ => hs
    | cons a rest ih => exact fun s hs h => ih _ (hs.step h.1 (hnext s a)) h.2
  exact hfrom start .start h

/-- What each allowed step keeps holds after a run of them. -/
theorem AllowedRun.invariant {next : σ → α → σ} {I : σ → Prop} {s : σ} {actions : List α}
    (h : AllowedRun next allowed s actions) (hstart : I s)
    (hstep : ∀ s a, I s → allowed s a → I (next s a)) : I (actions.foldl next s) := by
  induction actions generalizing s with
  | nil => exact hstart
  | cons a rest ih => exact ih h.2 (hstep s a hstart h.1)

theorem allowedRun_true (next : σ → α → σ) (s : σ) (actions : List α) :
    AllowedRun next (fun _ _ => True) s actions := by
  induction actions generalizing s with
  | nil => trivial
  | cons a rest ih => exact ⟨trivial, ih _⟩

end Transition

/-!
## Transition systems with an observer

An observer notes something of each step of a system. What it has noted takes no part in the steps, so
that a statement about the history of a run can be made about the state that is reached.

- `Reachable.exists_observed`: every run of the system can be observed.
- `Reachable.invariant_observed`: an invariant that speaks of what was noted.
-/

namespace Transition

variable {σ α ε γ : Type*} {step : σ → α → Except ε σ} {note : γ → σ → α → σ → γ}

/-- A step of the system, and what the observer has noted after it. -/
def observed (step : σ → α → Except ε σ) (note : γ → σ → α → σ → γ) (s : σ × γ) (a : α) :
    Except ε (σ × γ) :=
  match step s.1 a with
  | .error e => .error e
  | .ok s' => .ok (s', note s.2 s.1 a s')

theorem observed_eq_ok {s s' : σ × γ} {a : α} (h : observed step note s a = .ok s') :
    step s.1 a = .ok s'.1 ∧ s'.2 = note s.2 s.1 a s'.1 := by
  unfold observed at h
  split at h
  · cases h
  next t ht =>
    cases h
    exact ⟨ht, rfl⟩

variable {allowed : σ → α → Prop} {allowed' : σ × γ → α → Prop} {start : σ} {g : γ}

/-- Every run of the system can be observed. -/
theorem Reachable.exists_observed {s : σ} (h : Reachable step allowed start s) :
    ∃ g', Reachable (observed step note) (fun s a => allowed s.1 a) (start, g) (s, g') := by
  induction h with
  | start => exact ⟨g, .start⟩
  | @step s s' a _ ha hs ih =>
    obtain ⟨g', hreach⟩ := ih
    refine ⟨note g' s a s', hreach.step ha ?_⟩
    show observed step note (s, g') a = _
    simp only [observed, hs]

/-- An invariant of the observed steps, of which the system is known to satisfy another one. -/
theorem Reachable.invariant_observed {I : σ → Prop} {J : σ → γ → Prop} {s : σ × γ}
    (h : Reachable (observed step note) allowed' (start, g) s)
    (hI : I start) (hIstep : ∀ s a s', I s → step s a = .ok s' → I s')
    (hJ : J start g)
    (hJstep : ∀ s g a s', I s → J s g → allowed' (s, g) a → step s a = .ok s' → J s' (note g s a s')) :
    I s.1 ∧ J s.1 s.2 := by
  refine h.invariant (I := fun s => I s.1 ∧ J s.1 s.2) ⟨hI, hJ⟩ ?_
  rintro ⟨s, g⟩ a ⟨s', g'⟩ ⟨hIs, hJs⟩ ha hs
  obtain ⟨hstep, hnote⟩ := observed_eq_ok hs
  have hJ' := hJstep s g a s' hIs hJs ha hstep
  exact ⟨hIstep s a s' hIs hstep, hnote.symm ▸ hJ'⟩

end Transition

/-!
## Systems next to each other

Several systems of one kind take their steps in any order, and none sees the state of another one.

- `Reachable.component`: each of them is in a state that it reaches alone.
- `Reachable.single`: whatever one of them reaches alone is reached while the others rest.
-/

namespace Transition

variable {ι σ α ε : Type*} [DecidableEq ι] {step : σ → α → Except ε σ} {allowed : σ → α → Prop}

/-- One of the systems takes a step. -/
def interleave (step : σ → α → Except ε σ) (s : ι → σ) (a : ι × α) : Except ε (ι → σ) :=
  match step (s a.1) a.2 with
  | .error e => .error e
  | .ok t => .ok (Function.update s a.1 t)

theorem interleave_eq_ok {s s' : ι → σ} {a : ι × α} (h : interleave step s a = .ok s') :
    ∃ t, step (s a.1) a.2 = .ok t ∧ s' = Function.update s a.1 t := by
  unfold interleave at h
  split at h
  · cases h
  next t ht => exact ⟨t, ht, (Except.ok.inj h).symm⟩

variable {start s : ι → σ} {i : ι}

/-- Each system is in a state that it reaches alone. -/
theorem Reachable.component
    (h : Reachable (interleave step) (fun s (a : ι × α) => allowed (s a.1) a.2) start s) (i : ι) :
    Reachable step allowed (start i) (s i) := by
  induction h with
  | start => exact .start
  | @step s s' a _ ha hs ih =>
    obtain ⟨t, ht, rfl⟩ := interleave_eq_ok hs
    by_cases hi : i = a.1
    · subst hi
      rw [Function.update_self]
      exact ih.step ha ht
    · rw [Function.update_of_ne hi]
      exact ih

/-- A system reaches its states while the others rest. -/
theorem Reachable.single {t : σ} (h : Reachable step allowed (start i) t) :
    Reachable (interleave step) (fun s (a : ι × α) => allowed (s a.1) a.2) start
      (Function.update start i t) := by
  induction h with
  | start =>
    rw [Function.update_eq_self]
    exact .start
  | @step t t' a _ ha hs ih =>
    refine ih.step (a := (i, a)) ?_ ?_
    · rw [Function.update_self]
      exact ha
    · rw [interleave, Function.update_self, hs]
      show Except.ok (Function.update (Function.update start i t) i t') = _
      rw [Function.update_idem]

end Transition
