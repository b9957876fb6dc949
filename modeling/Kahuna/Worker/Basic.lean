import Mathlib.Data.List.Basic

/-!
# Working off a queue

A worker takes one message after the other from a queue, when it is ready. When it is not, it waits for
what goes on in the background. Both may put more messages at the end of the queue.

Commands are texts that are parsed into messages. They can be given to a worker one at a time, each of which
is parsed in the state that the earlier ones have led to, or all at once, parsed in one state.

* `drains_append`: a queue is worked off one part after the other, if the first part adds no messages.
* `drains_iff_types`: both ways have the same end, if each command is parsed alike in both and none but the
  last one adds messages.
-/

/-- What a worker does, and when. -/
structure Worker (σ μ : Type*) where
  /-- The worker may take a message. -/
  ready : σ → Bool
  /-- The state after a message, and the messages that are added. -/
  update : σ → μ → σ × List μ
  /-- The state after a step in the background, and the messages that are added. -/
  background : σ → σ × List μ

namespace Worker

variable {σ μ γ : Type*} (w : Worker σ μ)

/-! ## Queues -/

/-- The queue is worked off, and nothing goes on in the background any more. -/
inductive Drains : σ → List μ → σ → Prop
  | done {s : σ} : w.ready s = true → Drains s [] s
  | waits {s t : σ} {queue : List μ} : w.ready s = false →
      Drains (w.background s).1 (queue ++ (w.background s).2) t → Drains s queue t
  | takes {s t : σ} {m : μ} {queue : List μ} : w.ready s = true →
      Drains (w.update s m).1 (queue ++ (w.update s m).2) t → Drains s (m :: queue) t

/-- The next state, and the messages that are added, if there is anything to be done. -/
def next (s : σ) : List μ → Option (σ × List μ)
  | [] => if w.ready s then none else some (w.background s)
  | m :: _ => some (if w.ready s then w.update s m else w.background s)

/-- The messages that are left before others are added. -/
def rest (s : σ) (queue : List μ) : List μ := if w.ready s then queue.tail else queue

/-- Nothing is added while the queue is worked off, for some steps. -/
def QuietFor : ℕ → σ → List μ → Prop
  | 0, _, _ => True
  | n + 1, s, queue => ∀ next, w.next s queue = some next →
    next.2 = [] ∧ QuietFor n next.1 (w.rest s queue)

/-- Nothing is added while the queue is worked off. -/
def Quiet (s : σ) (queue : List μ) : Prop := ∀ n, w.QuietFor n s queue

variable {w} {s s' t : σ} {queue queue' : List μ}

theorem Quiet.waits (h : w.Quiet s queue) (hs : w.ready s = false) :
    (w.background s).2 = [] ∧ w.Quiet (w.background s).1 queue := by
  have hnext : w.next s queue = some (w.background s) := by
    cases queue with
    | nil => simp [next, hs]
    | cons m queue => simp [next, hs]
  have hrest : w.rest s queue = queue := by simp [rest, hs]
  exact ⟨(h 1 _ hnext).1, fun n => hrest ▸ (h (n + 1) _ hnext).2⟩

theorem Quiet.takes {m : μ} (h : w.Quiet s (m :: queue)) (hs : w.ready s = true) :
    (w.update s m).2 = [] ∧ w.Quiet (w.update s m).1 queue := by
  have hnext : w.next s (m :: queue) = some (w.update s m) := by simp [next, hs]
  have hrest : w.rest s (m :: queue) = queue := by simp [rest, hs]
  exact ⟨(h 1 _ hnext).1, fun n => hrest ▸ (h (n + 1) _ hnext).2⟩

theorem quiet_cons {m : μ} (hs : w.ready s = true) (hadds : (w.update s m).2 = [])
    (hquiet : w.Quiet (w.update s m).1 queue) : w.Quiet s (m :: queue) := by
  intro n
  cases n with
  | zero => trivial
  | succ n =>
    intro next hnext
    simp only [Worker.next, hs, if_true, Option.some.injEq] at hnext
    subst hnext
    have hrest : w.rest s (m :: queue) = queue := by simp [rest, hs]
    exact ⟨hadds, hrest.symm ▸ hquiet n⟩

/-- Nothing is left to be done. -/
theorem quiet_of_ready (hs : w.ready s = true) : w.Quiet s [] := by
  intro n
  cases n with
  | zero => trivial
  | succ n =>
    intro next hnext
    simp [Worker.next, hs] at hnext

theorem Drains.ready (h : w.Drains s queue t) : w.ready t = true := by
  induction h with
  | done hs => exact hs
  | waits _ _ ih => exact ih
  | takes _ _ ih => exact ih

/-- There is at most one end. -/
theorem Drains.unique (h : w.Drains s queue t) {t' : σ} (h' : w.Drains s queue t') : t = t' := by
  induction h with
  | done hs =>
    cases h' with
    | done => rfl
    | waits hs' => simp [hs] at hs'
  | waits hs _ ih =>
    cases h' with
    | done hs' => simp [hs] at hs'
    | waits _ h' => exact ih h'
    | takes hs' => simp [hs] at hs'
  | takes hs _ ih =>
    cases h' with
    | waits hs' => simp [hs] at hs'
    | takes _ h' => exact ih h'

/-- A part of the queue that adds nothing is worked off first. -/
theorem drains_append (hquiet : w.Quiet s queue) :
    w.Drains s (queue ++ queue') t ↔ ∃ s', w.Drains s queue s' ∧ w.Drains s' queue' t := by
  constructor
  · intro h
    generalize hall : queue ++ queue' = all at h
    induction h generalizing queue with
    | done hs =>
      obtain ⟨rfl, rfl⟩ := List.append_eq_nil_iff.1 hall
      exact ⟨_, .done hs, .done hs⟩
    | waits hs hrest ih =>
      obtain ⟨hadds, hquiet'⟩ := hquiet.waits hs
      subst hall
      rw [hadds, List.append_nil] at ih
      obtain ⟨s', hfirst, hsecond⟩ := ih hquiet' rfl
      exact ⟨s', .waits hs (by rw [hadds, List.append_nil]; exact hfirst), hsecond⟩
    | takes hs hrest ih =>
      cases queue with
      | nil =>
        -- the first part is worked off
        rw [List.nil_append] at hall
        exact ⟨_, .done hs, hall.symm ▸ .takes hs hrest⟩
      | cons m queue =>
        obtain ⟨rfl, rfl⟩ := List.cons_eq_cons.1 hall
        obtain ⟨hadds, hquiet'⟩ := hquiet.takes hs
        rw [hadds, List.append_nil] at ih
        obtain ⟨s', hfirst, hsecond⟩ := ih hquiet' rfl
        exact ⟨s', .takes hs (by rw [hadds, List.append_nil]; exact hfirst), hsecond⟩
  · rintro ⟨s', hfirst, hsecond⟩
    induction hfirst with
    | done => exact hsecond
    | waits hs _ ih =>
      obtain ⟨hadds, hquiet'⟩ := hquiet.waits hs
      rw [hadds, List.append_nil] at ih
      exact .waits hs (by rw [hadds, List.append_nil]; exact ih hquiet' hsecond)
    | takes hs _ ih =>
      obtain ⟨hadds, hquiet'⟩ := hquiet.takes hs
      rw [hadds, List.append_nil] at ih
      exact .takes hs (by rw [hadds, List.append_nil]; exact ih hquiet' hsecond)

/-! ## Commands -/

/-- Commands are given one at a time. Each is parsed when the worker is ready for it. -/
inductive Types (w : Worker σ μ) (parse : σ → γ → Option μ) : σ → List γ → σ → Prop
  | done {s t : σ} : w.Drains s [] t → Types w parse s [] t
  | command {s s' s'' t : σ} {c : γ} {rest : List γ} : w.Drains s [] s' →
      w.Drains s' (parse s' c).toList s'' → Types w parse s'' rest t → Types w parse s (c :: rest) t

/-- Each command is such that something holds of it where it stands, and none but the last one adds
messages to the queue. -/
def Along (w : Worker σ μ) (parse : σ → γ → Option μ) (P : σ → γ → Prop) : σ → List γ → Prop
  | _, [] => True
  | s, c :: rest => ∀ s', w.Drains s [] s' → P s' c ∧ (rest ≠ [] → w.Quiet s' (parse s' c).toList) ∧
    ∀ s'', w.Drains s' (parse s' c).toList s'' → Along w parse P s'' rest

/-- A worker that is ready need not wait for a command. -/
theorem along_cons_of_ready {parse : σ → γ → Option μ} {P : σ → γ → Prop} {c : γ} {commands : List γ}
    (hs : w.ready s = true) : Along w parse P s (c :: commands) ↔
      P s c ∧ (commands ≠ [] → w.Quiet s (parse s c).toList) ∧
        ∀ s', w.Drains s (parse s c).toList s' → Along w parse P s' commands := by
  constructor
  · exact fun h => h s (.done hs)
  · intro h s' hs'
    rw [← (Drains.done hs).unique hs']
    exact h

theorem Along.imp {parse : σ → γ → Option μ} {P Q : σ → γ → Prop} {commands : List γ}
    (himp : ∀ s, ∀ c ∈ commands, P s c → Q s c) (h : Along w parse P s commands) :
    Along w parse Q s commands := by
  induction commands generalizing s with
  | nil => trivial
  | cons c commands ih =>
    intro s' hs'
    obtain ⟨hc, hquiet, hrest⟩ := h s' hs'
    refine ⟨himp s' c List.mem_cons_self hc, hquiet, fun s'' hs'' => ?_⟩
    exact ih (fun s d hd => himp s d (List.mem_cons_of_mem _ hd)) (hrest s'' hs'')

/-- Commands that are parsed alike where they stand have the same end if all are parsed at once. -/
theorem drains_iff_types {parse : σ → γ → Option μ} {parse₀ : γ → Option μ} {commands : List γ}
    (hquiet : w.Quiet s []) (halong : Along w parse (fun s c => parse s c = parse₀ c) s commands) :
    w.Drains s (commands.filterMap parse₀) t ↔ Types w parse s commands t := by
  induction commands generalizing s with
  | nil =>
    constructor
    · exact .done
    · rintro ⟨h⟩
      exact h
  | cons c rest ih =>
    have hmessages : (c :: rest).filterMap parse₀ = (parse₀ c).toList ++ rest.filterMap parse₀ := by
      cases hparse : parse₀ c with
      | none => simp [hparse]
      | some m => simp [hparse]
    -- the command alone, and then the rest
    have hsplit : ∀ s', w.Drains s [] s' →
        (w.Drains s' ((c :: rest).filterMap parse₀) t ↔
          ∃ s'', w.Drains s' (parse s' c).toList s'' ∧ Types w parse s'' rest t) := by
      intro s' hs'
      obtain ⟨halike, hquiet', halong'⟩ := halong s' hs'
      have hend {s'' : σ} (h : w.Drains s' (parse s' c).toList s'') :=
        ih (quiet_of_ready h.ready) (halong' s'' h)
      rw [hmessages, ← halike]
      cases rest with
      | nil =>
        rw [List.filterMap_nil, List.append_nil]
        constructor
        · exact fun h => ⟨t, h, .done (.done h.ready)⟩
        · rintro ⟨s'', h, hrest⟩
          have hdone := (hend h).2 hrest
          rw [List.filterMap_nil] at hdone
          rwa [hdone.unique (.done h.ready)]
      | cons c' rest =>
        rw [drains_append (hquiet' (List.cons_ne_nil _ _))]
        exact exists_congr fun s'' => and_congr_right hend
    have hwait := @drains_append _ _ w s t [] ((c :: rest).filterMap parse₀) hquiet
    rw [List.nil_append] at hwait
    rw [hwait]
    constructor
    · rintro ⟨s', hs', h⟩
      obtain ⟨s'', hcommand, hrest⟩ := (hsplit s' hs').1 h
      exact .command hs' hcommand hrest
    · intro h
      cases h with
      | command hs' hcommand hrest => exact ⟨_, hs', (hsplit _ hs').2 ⟨_, hcommand, hrest⟩⟩

end Worker
