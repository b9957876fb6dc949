import Kahuna.Wellen.Basic
import Kahuna.Transition.Basic

/-!
# Loading loses nothing

The container of the file that is open, and the commands whose tasks have not ended. Each task gives back
what it was given, with the signals of its command. A task may end after another file was opened.

- `Session.step_cases`: what a step does before it looks for signals to load.
- `assertions_hold`: the debug assertions of `on_signals_loaded`.
- `loading_loses_nothing`: what the file is read through is always in the container or in one command, and
  every signal that was asked for is loaded, queued or in a command.
-/

namespace Wellen

open Wave (Hierarchy SignalRef VariableRef VarId)
open WellenContainer Transition

/-- The container of the file that is open, and the commands without an answer. -/
structure Session where
  /-- `UNIQUE_ID_COUNT`, the number of the next container. -/
  uniqueIdCount : ℕ
  container : WellenContainer
  inFlight : List LoadSignalsCmd

/-- What may happen next. -/
inductive Action where
  /-- Another file is opened, of this computer or of a server. -/
  | openFile (hierarchy : Hierarchy) (allVars : List VarId) (remote : Option (String × ℕ))
  | addBody (body : BodyResult)
  | loadVariables (vars : List VariableRef)
  | loadAllParams
  | loadSignals (ids : List SignalRef)
  /-- The task of a command has ended. -/
  | answer (i : ℕ) (signals : List Signal)

/-- The signals that are asked for. -/
def Action.ids (c : WellenContainer) : Action → List SignalRef
  | .loadVariables vars => (c.signalRefs vars).toOption.getD []
  | .loadAllParams => c.params
  | .loadSignals ids => ids
  | _ => []

/-- The signals of a list of variables, of all parameters or of a list are asked for. -/
def Action.asks : Action → Bool
  | .loadVariables _ | .loadAllParams | .loadSignals _ => true
  | _ => false

namespace Session

variable {s s' s₀ : Session} {a : Action}

/-- A file was opened. -/
def openFile (uniqueIdCount : ℕ) (inFlight : List LoadSignalsCmd) (hierarchy : Hierarchy)
    (allVars : List VarId) (remote : Option (String × ℕ)) : Session where
  uniqueIdCount := uniqueIdCount + 1
  container := newWaveform hierarchy allVars remote uniqueIdCount
  inFlight := inFlight

/-- The command that a call returns is started. -/
def start (s : Session) (result : Option LoadSignalsCmd × WellenContainer) : Session :=
  { s with container := result.2, inFlight := s.inFlight ++ result.1.toList }

/-- The system after an action. A variable with a number that the hierarchy does not know is a panic. -/
def step (s : Session) : Action → Run Session
  | .openFile hierarchy allVars remote =>
    .ok (openFile s.uniqueIdCount s.inFlight hierarchy allVars remote)
  | .addBody body =>
    match s.container.addBody body with
    -- the error is logged
    | .error _ => .ok s
    | .ok result => .ok (s.start result)
  | .loadVariables vars => do
    let result ← s.container.loadVariables vars
    return s.start result
  | .loadAllParams => .ok (s.start s.container.loadAllParams)
  | .loadSignals ids => .ok (s.start (s.container.loadSignals ids))
  | .answer i signals =>
    match s.inFlight[i]? with
    | none => .ok s
    | some cmd =>
      .ok ({ s with inFlight := s.inFlight.eraseIdx i }.start
        (s.container.onSignalsLoaded (cmd.answer signals)))

/-- A task has read the signals of its command, in any order. -/
def Answers (s : Session) : Action → Prop
  | .answer i signals =>
    ∀ cmd, s.inFlight[i]? = some cmd → ∀ id, id ∈ signals.map Signal.signalRef ↔ id ∈ cmd.signals
  | _ => True

/-! ## What a step does -/

/-- Signals are asked for. -/
def load (s : Session) (ids : List SignalRef) : Session := s.start (s.container.loadSignals ids)

/-- What a step does before it looks for signals to load. -/
inductive Prepares (s : Session) : Action → Session → Prop
  | asks {a : Action} (ha : a.asks = true) : Prepares s a s
  | adds {body : BodyResult} {c : WellenContainer} (h : s.container.withBody body = .ok c) :
      Prepares s (.addBody body) { s with container := c }
  | takes {i : ℕ} {signals : List Signal} {cmd : LoadSignalsCmd} (h : s.inFlight[i]? = some cmd) :
      Prepares s (.answer i signals) { s with
        container := s.container.take (cmd.answer signals), inFlight := s.inFlight.eraseIdx i }

/-- What a step does. -/
inductive Steps (s : Session) : Action → Session → Prop
  | opens (hierarchy : Hierarchy) (allVars : List VarId) (remote : Option (String × ℕ)) :
      Steps s (.openFile hierarchy allVars remote)
        (openFile s.uniqueIdCount s.inFlight hierarchy allVars remote)
  | refuses {a : Action} {body : BodyResult} {e : String} (ha : a = .addBody body)
      (h : s.container.withBody body = .error e) : Steps s a s
  | ignores {i : ℕ} {signals : List Signal} (h : s.inFlight[i]? = none) : Steps s (.answer i signals) s
  | loads {a : Action} {s₀ : Session} (h : Prepares s a s₀) : Steps s a (s₀.load (a.ids s.container))

theorem step_cases (h : step s a = .ok s') : Steps s a s' := by
  cases a with
  | openFile hierarchy allVars remote =>
    obtain rfl := Except.ok.inj h
    exact .opens hierarchy allVars remote
  | addBody body =>
    simp only [step] at h
    split at h
    next e hadd =>
      obtain rfl := Except.ok.inj h
      cases hbody : s.container.withBody body with
      | error e => exact .refuses rfl hbody
      | ok c =>
        rw [addBody, hbody] at hadd
        cases hadd
    next result hadd =>
      obtain rfl := Except.ok.inj h
      obtain ⟨c, hbody, hresult⟩ := Except.bind_eq_ok.1 hadd
      obtain rfl := Except.ok.inj hresult
      exact .loads (.adds hbody)
  | loadVariables vars =>
    obtain ⟨result, hload, hs⟩ := Except.bind_eq_ok.1 h
    obtain rfl := Except.ok.inj hs
    obtain ⟨ids, hids, hresult⟩ := Except.bind_eq_ok.1 hload
    obtain rfl := Except.ok.inj hresult
    have hask : Action.ids s.container (.loadVariables vars) = ids := by
      rw [Action.ids, hids]
      rfl
    rw [← hask]
    exact .loads (.asks rfl)
  | loadAllParams =>
    obtain rfl := Except.ok.inj h
    exact .loads (.asks rfl)
  | loadSignals ids =>
    obtain rfl := Except.ok.inj h
    exact .loads (.asks rfl)
  | answer i signals =>
    simp only [step] at h
    split at h
    next hnone =>
      obtain rfl := Except.ok.inj h
      exact .ignores hnone
    next cmd hcmd =>
      obtain rfl := Except.ok.inj h
      exact .loads (.takes hcmd)

/-! ## The commands of the container -/

/-- The commands of the container. The others are of files that were open before. -/
def own (s : Session) : List LoadSignalsCmd :=
  s.inFlight.filter fun cmd => cmd.fromUniqueId = s.container.uniqueId

/-- A command of the container that is started comes to its own commands. -/
theorem own_start {result : Option LoadSignalsCmd × WellenContainer}
    (hid : result.2.uniqueId = s.container.uniqueId)
    (hcmd : ∀ cmd ∈ result.1, cmd.fromUniqueId = s.container.uniqueId) :
    (s.start result).own = s.own ++ result.1.toList := by
  have hall : result.1.toList.filter (fun cmd => cmd.fromUniqueId = s.container.uniqueId) =
      result.1.toList := by
    rw [List.filter_eq_self]
    intro cmd hmem
    exact decide_eq_true (hcmd cmd (Option.mem_toList.1 hmem))
  unfold own start
  dsimp only
  rw [hid, List.filter_append, hall]

/-- The commands that are left when a task has ended, together with its command. -/
theorem own_erase {i : ℕ} {cmd : LoadSignalsCmd} {c : WellenContainer} (h : s.inFlight[i]? = some cmd)
    (hid : c.uniqueId = s.container.uniqueId) :
    s.own.Perm (if cmd.fromUniqueId = s.container.uniqueId then
        cmd :: own { s with container := c, inFlight := s.inFlight.eraseIdx i }
      else own { s with container := c, inFlight := s.inFlight.eraseIdx i }) := by
  obtain ⟨hlt, rfl⟩ := List.getElem?_eq_some_iff.1 h
  have hperm := (List.getElem_cons_eraseIdx_perm hlt).symm.filter
    fun cmd => decide (cmd.fromUniqueId = s.container.uniqueId)
  rw [List.filter_cons] at hperm
  unfold own
  dsimp only
  rw [hid]
  simpa using hperm

/-- The numbers of the containers are given once. -/
structure Numbered (s : Session) : Prop where
  container : s.container.uniqueId < s.uniqueIdCount
  inFlight : ∀ cmd ∈ s.inFlight, cmd.fromUniqueId < s.uniqueIdCount

theorem own_load (s : Session) (ids : List SignalRef) :
    (s.load ids).own = s.own ++ (s.container.loadSignals ids).1.toList := by
  obtain ⟨-, hid, -, -, hcmd⟩ := (loadSignals_loads s.container ids).frame
  exact own_start hid hcmd

theorem prepares_uniqueId (h : Prepares s a s₀) : s₀.container.uniqueId = s.container.uniqueId := by
  cases h with
  | asks _ => rfl
  | adds h =>
    obtain ⟨-, ⟨_, _, -, -, rfl⟩ | ⟨_, _, -, -, rfl⟩⟩ := withBody_eq_ok h
    · rfl
    · rfl
  | takes _ => exact take_uniqueId _ _

/-- A task that is started is that of a container with a number. -/
theorem Numbered.load (h : Numbered s) (ids : List SignalRef) : Numbered (s.load ids) := by
  obtain ⟨-, hid, -, -, hcmd⟩ := (loadSignals_loads s.container ids).frame
  refine ⟨hid ▸ h.container, fun cmd hmem => ?_⟩
  rcases List.mem_append.1 hmem with hmem | hmem
  · exact h.inFlight cmd hmem
  · rw [hcmd cmd (Option.mem_toList.1 hmem)]
    exact h.container

theorem Numbered.step (h : Numbered s) (hstep : Steps s a s') : Numbered s' := by
  cases hstep with
  | opens hierarchy allVars remote =>
    refine ⟨?_, fun cmd hcmd => (h.inFlight cmd hcmd).trans (Nat.lt_succ_self _)⟩
    show (newWaveform hierarchy allVars remote s.uniqueIdCount).uniqueId < _
    rw [newWaveform_uniqueId]
    exact Nat.lt_succ_self _
  | refuses _ _ => exact h
  | ignores _ => exact h
  | loads hprep =>
    refine Numbered.load ⟨?_, ?_⟩ _
    · rw [prepares_uniqueId hprep]
      cases hprep with
      | asks _ => exact h.container
      | adds _ => exact h.container
      | takes _ => exact h.container
    · cases hprep with
      | asks _ => exact h.inFlight
      | adds _ => exact h.inFlight
      | takes _ => exact fun cmd hcmd => h.inFlight cmd (List.mem_of_mem_eraseIdx hcmd)

theorem numbered_openFile (n : ℕ) (hierarchy : Hierarchy) (allVars : List VarId)
    (remote : Option (String × ℕ)) : Numbered (openFile n [] hierarchy allVars remote) := by
  refine ⟨?_, by simp [openFile]⟩
  show (newWaveform hierarchy allVars remote n).uniqueId < n + 1
  rw [newWaveform_uniqueId]
  exact Nat.lt_succ_self n

/-- No task of a file that is opened was started before. -/
theorem own_openFile {n : ℕ} {inFlight : List LoadSignalsCmd} (hierarchy : Hierarchy)
    (allVars : List VarId) (remote : Option (String × ℕ))
    (h : ∀ cmd ∈ inFlight, cmd.fromUniqueId < n) :
    (openFile n inFlight hierarchy allVars remote).own = [] := by
  unfold own
  rw [List.filter_eq_nil_iff]
  intro cmd hcmd
  have hne : cmd.fromUniqueId ≠ n := Nat.ne_of_lt (h cmd hcmd)
  show ¬ decide (cmd.fromUniqueId = (newWaveform hierarchy allVars remote n).uniqueId) = true
  rw [newWaveform_uniqueId]
  simpa using hne

end Session

/-! ## Nothing is lost -/

/-- What an observer of the loading notes. -/
structure Requests where
  /-- The signals of the open file that were asked for. -/
  requested : Finset SignalRef
  /-- What the open file is read through, once it is known. -/
  token : Option Token

namespace Requests

/-- A file was opened. A server is known from the start. -/
def opened (remote : Option (String × ℕ)) : Requests :=
  { requested := ∅, token := remote.map fun r => .server r.1 }

/-- What a file is read through after a body. -/
def tokenAfter (token : Option Token) (c : WellenContainer) (body : BodyResult) : Option Token :=
  match c.withBody body, body with
  | .ok _, .localBody _ source => some (.source source)
  | _, _ => token

/-- What the observer notes of a step. -/
def note (g : Requests) (s : Session) (a : Action) (_ : Session) : Requests :=
  match a with
  | .openFile _ _ remote => opened remote
  | .addBody body => { g with token := tokenAfter g.token s.container body }
  | _ => { g with requested := g.requested ∪ (a.ids s.container).toFinset }

/-- What the file is read through is in one place, and no signal that was asked for is forgotten. -/
structure Safe (s : Session) (g : Requests) : Prop where
  held : (s.container.tokens ++ s.own.map LoadSignalsCmd.token).Perm g.token.toList
  unread : s.container.bodyLoaded = false → s.container.source = none ∧ s.own = []
  known : s.container.bodyLoaded = true → g.token.isSome = true
  index : ∀ url, g.token = some (.server url) → s.container.remoteFileIndex.isSome = true
  requested : ∀ id ∈ g.requested, s.container.isSignalLoaded id = true ∨
    id ∈ s.container.signalsToBeLoaded ∨ ∃ cmd ∈ s.own, id ∈ cmd.signals

/-- What is in at most one place, and in this one, is in no other. -/
theorem eq_of_perm_toList {α : Type} {l l' : List α} {x : α} {o : Option α}
    (h : (l ++ x :: l').Perm o.toList) : o = some x ∧ l = [] ∧ l' = [] := by
  have hmiddle : (x :: (l ++ l')).Perm o.toList := List.perm_middle.symm.trans h
  cases o with
  | none => exact absurd hmiddle.eq_nil (List.cons_ne_nil _ _)
  | some y =>
    obtain ⟨rfl, hrest⟩ := List.cons.inj (List.perm_singleton.1 hmiddle)
    exact ⟨rfl, List.append_eq_nil_iff.1 hrest⟩

namespace Safe

variable {s s' s₀ : Session} {g : Requests} {a : Action}

theorem openFile {n : ℕ} {inFlight : List LoadSignalsCmd} (hierarchy : Hierarchy) (allVars : List VarId)
    (remote : Option (String × ℕ)) (h : ∀ cmd ∈ inFlight, cmd.fromUniqueId < n) :
    Safe (Session.openFile n inFlight hierarchy allVars remote) (opened remote) := by
  have hown := Session.own_openFile hierarchy allVars remote h
  cases remote with
  | none =>
    refine ⟨?_, fun _ => ⟨rfl, hown⟩, fun h => absurd h Bool.false_ne_true, fun _ h => ?_, by simp [opened]⟩
    · rw [hown]
      exact .refl _
    · cases h
  | some r =>
    refine ⟨?_, fun _ => ⟨rfl, hown⟩, fun h => absurd h Bool.false_ne_true, fun _ _ => rfl, by simp [opened]⟩
    rw [hown]
    exact .refl _

/-- A token in the container is the one of the file, and no command has it. -/
theorem eq_of_mem_tokens (h : Safe s g) {token : Token} {tokens : List Token}
    (htokens : s.container.tokens = token :: tokens) : g.token = some token := by
  have hheld := h.held
  rw [htokens] at hheld
  exact (eq_of_perm_toList (l := []) hheld).1

/-- Signals that are asked for are queued or loaded already. -/
theorem load (h : Safe s g) (ids : List SignalRef) :
    Safe (s.load ids) { g with requested := g.requested ∪ ids.toFinset } := by
  have hown := s.own_load ids
  have hloads := loadSignals_loads s.container ids
  have hcontainer : (s.load ids).container = (s.container.loadSignals ids).2 := rfl
  have hrequested : ∀ id ∈ g.requested ∪ ids.toFinset, s.container.isSignalLoaded id = true ∨
      id ∈ s.container.queued ids ∨ ∃ cmd ∈ s.own, id ∈ cmd.signals := by
    intro id hid
    rw [mem_queued]
    rw [Finset.mem_union, List.mem_toFinset] at hid
    rcases hid with hid | hid
    · rcases h.requested id hid with hloaded | hqueued | hcmd
      · exact .inl hloaded
      · exact .inr (.inl (.inl hqueued))
      · exact .inr (.inr hcmd)
    · cases hloaded : s.container.isSignalLoaded id with
      | true => exact .inl rfl
      | false => exact .inr (.inl (.inr ⟨hid, rfl⟩))
  generalize s.container.loadSignals ids = result at hown hloads hcontainer
  generalize s.container.queued ids = q at hloads hrequested
  generalize s.load ids = s' at hown hcontainer
  cases hloads with
  | waits _ =>
    have hown' : s'.own = s.own := by rw [hown]; exact List.append_nil _
    refine ⟨?_, ?_, ?_, ?_, ?_⟩
    · rw [hown', hcontainer]
      exact h.held
    · rw [hown', hcontainer]
      exact h.unread
    · rw [hcontainer]
      exact h.known
    · rw [hcontainer]
      exact h.index
    · rw [hown', hcontainer]
      exact hrequested
  | @missesIndex server hserver hindex =>
    -- a server that is known has a file index
    have htokens : s.container.tokens = .server server :: s.container.source.toList.map .source := by
      rw [tokens, hserver]
      rfl
    have hsome := h.index server (h.eq_of_mem_tokens htokens)
    rw [hindex] at hsome
    cases hsome
  | @starts cmd source server hq hbody hsignals hid htokens =>
    have hown' : s'.own = s.own ++ [cmd] := hown
    refine ⟨?_, ?_, ?_, ?_, ?_⟩
    · have hheld := h.held
      rw [htokens] at hheld
      rw [hown', hcontainer, List.map_append, ← List.append_assoc]
      exact (List.perm_append_singleton _ _).trans hheld
    · rw [hcontainer]
      intro hunread
      exact absurd (hbody.symm.trans hunread) (by simp)
    · rw [hcontainer]
      exact h.known
    · rw [hcontainer]
      exact h.index
    · rw [hown', hcontainer]
      intro id hmem
      rcases hrequested id hmem with hloaded | hqueued | ⟨other, hother, hmem⟩
      · exact .inl hloaded
      · refine .inr (.inr ⟨cmd, List.mem_append_right _ (List.mem_singleton_self _), ?_⟩)
        rw [hsignals]
        exact (Finset.mem_sort _).2 hqueued
      · exact .inr (.inr ⟨other, List.mem_append_left _ hother, hmem⟩)

/-- A body makes the file readable, and a task makes it readable again. -/
theorem prepare (h : Safe s g) (hprep : Session.Prepares s a s₀) (hanswers : s.Answers a) :
    Safe s₀ { g with token := (g.note s a s).token } := by
  cases hprep with
  | asks ha =>
    have hnote : (g.note s a s).token = g.token := by
      cases a with
      | loadVariables _ | loadAllParams | loadSignals _ => rfl
      | openFile _ _ _ | addBody _ | answer _ _ => cases ha
    rw [hnote]
    exact h
  | @adds body c hbody =>
    obtain ⟨hunread, ⟨timeTable, source, rfl, hserver, rfl⟩ | ⟨timeTable, server, rfl, hserver, rfl⟩⟩ :=
      withBody_eq_ok hbody
    · have hnote : (g.note s (.addBody (.localBody timeTable source)) s).token = some (.source source) := by
        simp only [note, tokenAfter, hbody]
      -- the file could not be read before
      obtain ⟨hsource, hown⟩ := h.unread hunread
      rw [hnote]
      refine ⟨?_, fun hread => absurd hread (by simp), fun _ => rfl, fun url hurl => ?_, h.requested⟩
      · have hown' : ({ s with container := { s.container with
            timeTable, source := some source, bodyLoaded := true } } : Session).own = [] := hown
        rw [hown', tokens, hserver]
        exact .refl _
      · cases hurl
    · have hnote : (g.note s (.addBody (.remote timeTable server)) s).token = g.token := by
        simp only [note, tokenAfter, hbody]
      have htokens : s.container.tokens = .server server :: s.container.source.toList.map .source := by
        rw [tokens, hserver]
        rfl
      rw [hnote]
      refine ⟨h.held, fun hread => absurd hread (by simp), fun _ => ?_, h.index, h.requested⟩
      rw [h.eq_of_mem_tokens htokens]
      rfl
  | @takes i signals cmd hcmd =>
    have hperm := Session.own_erase (c := s.container.take (cmd.answer signals)) hcmd (take_uniqueId _ _)
    generalize hs₀ : ({ s with
      container := s.container.take (cmd.answer signals), inFlight := s.inFlight.eraseIdx i } : Session) = s₀
      at hperm ⊢
    have hcontainer : s₀.container = s.container.take (cmd.answer signals) := by rw [← hs₀]
    show Safe s₀ g
    by_cases hid : cmd.fromUniqueId = s.container.uniqueId
    · -- the container was without a token, and gets the one of the command
      rw [if_pos hid] at hperm
      rw [take_own (hid ▸ cmd.answer_fromUniqueId signals)] at hcontainer
      have hheld := h.held
      obtain ⟨htoken, hnone, hrest⟩ := eq_of_perm_toList
        (((hperm.map LoadSignalsCmd.token).append_left s.container.tokens).symm.trans hheld)
      refine ⟨?_, fun hunread => ?_, ?_, ?_, fun id hmem => ?_⟩
      · rw [hrest, hcontainer, tokens_install, tokens, LoadSignalsCmd.tokensOf_answer, htoken]
        exact .refl _
      · rw [hcontainer] at hunread
        rw [(h.unread hunread).2] at hperm
        exact absurd hperm.symm.eq_nil (List.cons_ne_nil _ _)
      · rw [hcontainer]
        exact h.known
      · rw [hcontainer]
        exact h.index
      · rw [hcontainer, isSignalLoaded_install, LoadSignalsCmd.answer_signals]
        rcases h.requested id hmem with hloaded | hqueued | ⟨other, hother, hmem⟩
        · exact .inl (.inl hloaded)
        · exact .inr (.inl hqueued)
        · rcases List.mem_cons.1 (hperm.mem_iff.1 hother) with rfl | hother
          · exact .inl (.inr ((hanswers other hcmd id).2 hmem))
          · exact .inr (.inr ⟨other, hother, hmem⟩)
    · -- a task of another file: the container does not look at its result
      rw [if_neg hid] at hperm
      rw [take_other (by rwa [cmd.answer_fromUniqueId])] at hcontainer
      refine ⟨?_, ?_, ?_, ?_, ?_⟩
      · rw [hcontainer]
        exact ((hperm.map LoadSignalsCmd.token).append_left s.container.tokens).symm.trans h.held
      · rw [hcontainer]
        intro hunread
        obtain ⟨hsource, hown⟩ := h.unread hunread
        rw [hown] at hperm
        exact ⟨hsource, hperm.symm.eq_nil⟩
      · rw [hcontainer]
        exact h.known
      · rw [hcontainer]
        exact h.index
      · rw [hcontainer]
        intro id hmem
        rcases h.requested id hmem with hloaded | hqueued | ⟨other, hother, hmem⟩
        · exact .inl hloaded
        · exact .inr (.inl hqueued)
        · exact .inr (.inr ⟨other, hperm.mem_iff.1 hother, hmem⟩)

/-- A step loses nothing. -/
theorem step (h : Safe s g) (hnumbered : s.Numbered) (hstep : Session.Steps s a s')
    (hanswers : s.Answers a) : Safe s' (g.note s a s') := by
  cases hstep with
  | opens hierarchy allVars remote => exact openFile hierarchy allVars remote hnumbered.inFlight
  | @refuses _ body e ha hbody =>
    obtain rfl := ha
    have hnote : g.note s (.addBody body) s = g := by simp only [note, tokenAfter, hbody]
    rw [hnote]
    exact h
  | ignores _ =>
    have hnote : g.requested ∪ ([] : List SignalRef).toFinset = g.requested := by simp
    show Safe s { g with requested := g.requested ∪ ([] : List SignalRef).toFinset }
    rw [hnote]
    exact h
  | @loads _ s₀ hprep =>
    have hload := (h.prepare hprep hanswers).load (a.ids s.container)
    have hnote : g.note s a (s₀.load (a.ids s.container)) =
        { requested := g.requested ∪ (a.ids s.container).toFinset, token := (g.note s a s).token } := by
      cases a with
      | openFile _ _ _ => cases hprep with | asks ha => cases ha
      | addBody body =>
        show _ = ({ requested := g.requested ∪ ([] : List SignalRef).toFinset, token := _ } : Requests)
        rw [List.toFinset_nil, Finset.union_empty]
        rfl
      | loadVariables _ | loadAllParams | loadSignals _ | answer _ _ => rfl
    rw [hnote]
    exact hload

/-- When nothing is left to be loaded, everything that was asked for is there. -/
theorem isSignalLoaded (h : Safe s g) (hfull : s.container.isFullyLoaded = true) {id : SignalRef}
    (hid : id ∈ g.requested) : s.container.isSignalLoaded id = true := by
  simp only [isFullyLoaded, Bool.and_eq_true, Bool.or_eq_true, decide_eq_true_eq] at hfull
  obtain ⟨htoken, hqueue⟩ := hfull
  have hne : s.container.tokens ≠ [] := by
    unfold tokens tokensOf
    rcases htoken with hsource | hserver
    · obtain ⟨source, hsource⟩ := Option.isSome_iff_exists.1 hsource
      simp [hsource]
    · obtain ⟨server, hserver⟩ := Option.isSome_iff_exists.1 hserver
      simp [hserver]
  obtain ⟨token, tokens, htokens⟩ := List.exists_cons_of_ne_nil hne
  -- the token is in the container, so that no command is on its way
  have hheld := h.held
  rw [htokens] at hheld
  have hrest := (eq_of_perm_toList (l := []) hheld).2.2
  have hown : s.own = [] := List.map_eq_nil_iff.1 (List.append_eq_nil_iff.1 hrest).2
  rcases h.requested id hid with hloaded | hqueued | ⟨cmd, hcmd, -⟩
  · exact hloaded
  · rw [hqueue] at hqueued
    exact absurd hqueued (Finset.notMem_empty id)
  · rw [hown] at hcmd
    exact absurd hcmd List.not_mem_nil

/-- The container is without a token as long as one of its commands has it. -/
theorem eq_none_of_mem_own (h : Safe s g) {cmd : LoadSignalsCmd} (hcmd : cmd ∈ s.own) :
    s.container.source = none ∧ s.container.server = none := by
  obtain ⟨before, after, hown⟩ := List.append_of_mem hcmd
  have hheld := h.held
  rw [hown, List.map_append, List.map_cons, ← List.append_assoc] at hheld
  obtain ⟨htokens, -⟩ := List.append_eq_nil_iff.1 (eq_of_perm_toList hheld).2.1
  obtain ⟨hserver, hsource⟩ := List.append_eq_nil_iff.1 htokens
  simp only [List.map_eq_nil_iff, Option.toList_eq_nil_iff] at hserver hsource
  exact ⟨hsource, hserver⟩

/-- In every run nothing is lost. -/
theorem of_reachable {n : ℕ} {hierarchy : Hierarchy} {allVars : List VarId} {remote : Option (String × ℕ)}
    (h : Reachable (observed Session.step note) (fun s a => s.1.Answers a)
      (Session.openFile n [] hierarchy allVars remote, opened remote) (s, g)) : Safe s g := by
  refine (h.invariant_observed (I := Session.Numbered) (J := Safe) ?_ ?_ ?_ ?_).2
  · exact Session.numbered_openFile n hierarchy allVars remote
  · exact fun s a s' hnumbered hs => hnumbered.step (Session.step_cases hs)
  · exact openFile hierarchy allVars remote (by simp)
  · exact fun s g a s' hnumbered hsafe hanswers hs =>
      hsafe.step hnumbered (Session.step_cases hs) hanswers

end Safe

end Requests

/-- In every run in which each task reads the signals of its command, what the open file is read through is
in its container or in exactly one of its commands, every signal that was asked for is loaded, queued or in
one of its commands, and is loaded when the container says that it is fully loaded. -/
theorem loading_loses_nothing {n : ℕ} {hierarchy : Hierarchy} {allVars : List VarId}
    {remote : Option (String × ℕ)} {s : Session} {g : Requests}
    (h : Reachable (observed Session.step Requests.note) (fun s a => s.1.Answers a)
      (Session.openFile n [] hierarchy allVars remote, .opened remote) (s, g)) :
    s.container.tokens ++ s.own.map LoadSignalsCmd.token = g.token.toList ∧
      (s.container.bodyLoaded = true → g.token.isSome = true) ∧
      (∀ id ∈ g.requested, s.container.isSignalLoaded id = true ∨
        id ∈ s.container.signalsToBeLoaded ∨ ∃ cmd ∈ s.own, id ∈ cmd.signals) ∧
      (s.container.isFullyLoaded = true → ∀ id ∈ g.requested, s.container.isSignalLoaded id = true) := by
  have hsafe := Requests.Safe.of_reachable h
  refine ⟨?_, hsafe.known, hsafe.requested, fun hfull id hid => hsafe.isSignalLoaded hfull hid⟩
  have hheld := hsafe.held
  cases htoken : g.token with
  | none =>
    rw [htoken] at hheld
    exact hheld.eq_nil
  | some token =>
    rw [htoken] at hheld
    exact List.perm_singleton.1 hheld

/-- The debug assertions of `on_signals_loaded` hold in every run: when the result of a command is taken, the
container has neither a source nor a server, and the result has one. -/
theorem assertions_hold {n : ℕ} {hierarchy : Hierarchy} {allVars : List VarId}
    {remote : Option (String × ℕ)} {s : Session}
    (h : Reachable Session.step Session.Answers (Session.openFile n [] hierarchy allVars remote) s)
    {cmd : LoadSignalsCmd} (hcmd : cmd ∈ s.own) (signals : List Signal) :
    s.container.source = none ∧ s.container.server = none ∧
      ((cmd.answer signals).server.isSome = true ∨ (cmd.answer signals).source.isSome = true) := by
  obtain ⟨g, hobserved⟩ : ∃ g, Reachable (observed Session.step Requests.note) (fun s a => s.1.Answers a)
      (Session.openFile n [] hierarchy allVars remote, .opened remote) (s, g) := h.exists_observed
  obtain ⟨hsource, hserver⟩ := (Requests.Safe.of_reachable hobserved).eq_none_of_mem_own hcmd
  refine ⟨hsource, hserver, ?_⟩
  unfold LoadSignalsCmd.answer
  split
  · exact .inr rfl
  · exact .inl rfl

/-- A file with one variable. -/
def clkHierarchy : Hierarchy :=
  .flat [{ path := [], name := "clk", index := none, isParameter := false, signalRef := 3 }]

/-- A reference to the variable of the file, by its name. -/
def clk : VariableRef := { path := { strs := [], id := none }, name := "clk", id := none, index := none }

/-- A signal without changes. -/
def clkSignal : Signal := { signalRef := 3, changes := [] }

theorem mem_clkSignal {id : SignalRef} :
    id ∈ [clkSignal].map Signal.signalRef ↔ id ∈ Finset.sort ({3} : Finset ℕ) := by
  rw [Finset.mem_sort, Finset.mem_singleton]
  exact List.mem_singleton

/-- A signal is asked for before the body was read, and is loaded at the end. -/
theorem loading_loses_nothing_clk :
    ∃ s g, Reachable (observed Session.step Requests.note) (fun s a => s.1.Answers a)
        (Session.openFile 0 [] clkHierarchy [0] none, .opened none) (s, g) ∧
      g.requested = {3} ∧ s.container.isFullyLoaded = true ∧ s.container.isSignalLoaded 3 = true := by
  have hstart : Reachable (observed Session.step Requests.note) (fun s a => s.1.Answers a)
    (Session.openFile 0 [] clkHierarchy [0] none, .opened none) _ := .start
  have hasked := hstart.step (a := Action.loadVariables [clk]) trivial rfl
  have hread := hasked.step (a := Action.addBody (.localBody [0, 5] 7)) trivial rfl
  have hanswered := hread.step (a := Action.answer 0 [clkSignal]) ?_ rfl
  · exact ⟨_, _, hanswered, rfl, rfl, (loading_loses_nothing hanswered).2.2.2 rfl 3 (by decide)⟩
  · intro cmd hcmd id
    obtain rfl := Option.some.inj hcmd
    exact mem_clkSignal

end Wellen
