import Kahuna.Wellen.Loading

/-!
# No signal is loaded twice

A signal is queued when it is neither loaded nor queued. Whether a task is reading it already is not looked
at, so that a signal that is asked for while its command is on its way is loaded once more afterwards.

- `signals_loaded_once`: no command contains a signal that is loaded, or that another command contains, if
  nothing is asked for that a command on its way contains.
-/

namespace Wellen

open WellenContainer Transition

namespace Session

variable {s s' s₀ : Session} {a : Action}

/-- No signal is asked for that is in a command of the container. -/
def Spares (s : Session) (a : Action) : Prop :=
  ∀ cmd ∈ s.own, ∀ id ∈ a.ids s.container, id ∉ cmd.signals

/-- A signal is in one place at most: in the container, in the queue or in one command. -/
structure Once (s : Session) : Prop where
  nodup : ∀ cmd ∈ s.own, cmd.signals.Nodup
  unloaded : ∀ cmd ∈ s.own, ∀ id ∈ cmd.signals, s.container.isSignalLoaded id = false
  unqueued : ∀ cmd ∈ s.own, ∀ id ∈ cmd.signals, id ∉ s.container.signalsToBeLoaded
  queued : ∀ id ∈ s.container.signalsToBeLoaded, s.container.isSignalLoaded id = false
  disjoint : s.own.Pairwise fun a b => a.signals.Disjoint b.signals

namespace Once

theorem openFile {n : ℕ} {inFlight : List LoadSignalsCmd} (hierarchy : Wave.Hierarchy)
    (allVars : List Wave.VarId) (remote : Option (String × ℕ))
    (h : ∀ cmd ∈ inFlight, cmd.fromUniqueId < n) :
    Once (Session.openFile n inFlight hierarchy allVars remote) := by
  have hown := own_openFile hierarchy allVars remote h
  refine ⟨by simp [hown], by simp [hown], by simp [hown], fun id hid => ?_, by simp [hown]⟩
  have hqueue : (newWaveform hierarchy allVars remote n).signalsToBeLoaded = ∅ := by
    unfold newWaveform
    split <;> rfl
  exact absurd (hqueue ▸ hid) (Finset.notMem_empty id)

/-- Signals that no command contains are asked for. -/
theorem load (h : Once s) {ids : List Wave.SignalRef}
    (hids : ∀ cmd ∈ s.own, ∀ id ∈ ids, id ∉ cmd.signals) : Once (s.load ids) := by
  have hown := s.own_load ids
  have hloads := loadSignals_loads s.container ids
  have hcontainer : (s.load ids).container = (s.container.loadSignals ids).2 := rfl
  have hqueued : ∀ id ∈ s.container.queued ids, s.container.isSignalLoaded id = false := by
    intro id hid
    rcases mem_queued.1 hid with hold | ⟨-, hnew⟩
    · exact h.queued id hold
    · exact hnew
  have hunqueued : ∀ cmd ∈ s.own, ∀ id ∈ cmd.signals, id ∉ s.container.queued ids := by
    intro cmd hcmd id hid hmem
    rcases mem_queued.1 hmem with hold | ⟨hnew, -⟩
    · exact h.unqueued cmd hcmd id hid hold
    · exact hids cmd hcmd id hnew hid
  generalize s.container.loadSignals ids = result at hown hloads hcontainer
  generalize s.container.queued ids = q at hloads hqueued hunqueued
  generalize s.load ids = s' at hown hcontainer
  cases hloads with
  | waits _ | missesIndex _ _ =>
    have hown' : s'.own = s.own := by
      rw [hown]
      exact List.append_nil _
    rw [← hown'] at hunqueued
    refine ⟨hown' ▸ h.nodup, ?_, ?_, ?_, hown' ▸ h.disjoint⟩
    · rw [hown', hcontainer]
      exact h.unloaded
    · rw [hcontainer]
      exact hunqueued
    · rw [hcontainer]
      exact hqueued
  | @starts cmd source server hq hbody hsignals hid htokens =>
    have hown' : s'.own = s.own ++ [cmd] := hown
    have hmem : ∀ {id}, id ∈ cmd.signals ↔ id ∈ q := by
      intro id
      rw [hsignals]
      exact Finset.mem_sort _
    refine ⟨?_, ?_, ?_, ?_, ?_⟩
    · rw [hown', List.forall_mem_append, List.forall_mem_singleton, hsignals]
      exact ⟨h.nodup, Finset.sort_nodup _ _⟩
    · rw [hown', hcontainer, List.forall_mem_append, List.forall_mem_singleton]
      exact ⟨h.unloaded, fun id hid => hqueued id (hmem.1 hid)⟩
    · rw [hcontainer]
      exact fun _ _ id _ => Finset.notMem_empty id
    · rw [hcontainer]
      exact fun id hid => absurd hid (Finset.notMem_empty id)
    · rw [hown', List.pairwise_append]
      refine ⟨h.disjoint, List.pairwise_singleton _ _, fun other hother last hlast => ?_⟩
      obtain rfl := List.mem_singleton.1 hlast
      intro id hin hin'
      exact hunqueued other hother id hin (hmem.1 hin')

/-- The signals of a command that has ended are loaded, and no other command contains them. -/
theorem prepare (h : Once s) (hprep : Prepares s a s₀) (hanswers : s.Answers a) : Once s₀ := by
  cases hprep with
  | asks _ => exact h
  | adds hbody =>
    obtain ⟨-, ⟨timeTable, source, rfl, -, rfl⟩ | ⟨timeTable, server, rfl, -, rfl⟩⟩ := withBody_eq_ok hbody
    · exact ⟨h.nodup, h.unloaded, h.unqueued, h.queued, h.disjoint⟩
    · exact ⟨h.nodup, h.unloaded, h.unqueued, h.queued, h.disjoint⟩
  | @takes i signals cmd hcmd =>
    have hperm := own_erase (c := s.container.take (cmd.answer signals)) hcmd (take_uniqueId _ _)
    generalize hs₀ : ({ s with
      container := s.container.take (cmd.answer signals), inFlight := s.inFlight.eraseIdx i } : Session) = s₀
      at hperm ⊢
    have hcontainer : s₀.container = s.container.take (cmd.answer signals) := by rw [← hs₀]
    have hdisjoint := (hperm.pairwise_iff fun hab => hab.symm).1 h.disjoint
    by_cases hid : cmd.fromUniqueId = s.container.uniqueId
    · rw [if_pos hid] at hperm hdisjoint
      rw [take_own (hid ▸ cmd.answer_fromUniqueId signals)] at hcontainer
      obtain ⟨hothers, hdisjoint⟩ := List.pairwise_cons.1 hdisjoint
      have hmem : ∀ {other}, other ∈ s₀.own → other ∈ s.own :=
        fun hother => hperm.symm.subset (List.mem_cons_of_mem _ hother)
      have hown : cmd ∈ s.own := hperm.symm.subset List.mem_cons_self
      -- what was not loaded and is in no signal of the command is still not loaded
      have hkept : ∀ id, s.container.isSignalLoaded id = false → id ∉ cmd.signals →
          s₀.container.isSignalLoaded id = false := by
        intro id hunloaded hnot
        rw [← Bool.not_eq_true, hcontainer, isSignalLoaded_install, LoadSignalsCmd.answer_signals]
        rintro (hloaded | hread)
        · exact absurd (hunloaded.symm.trans hloaded) Bool.false_ne_true
        · exact hnot ((hanswers cmd hcmd id).1 hread)
      have hqueue : s₀.container.signalsToBeLoaded = s.container.signalsToBeLoaded := by
        rw [hcontainer]
        rfl
      refine ⟨fun other hother => h.nodup other (hmem hother), fun other hother id hin => ?_,
        fun other hother => ?_, fun id hin => ?_, hdisjoint⟩
      · exact hkept id (h.unloaded other (hmem hother) id hin) fun hin' => hothers other hother hin' hin
      · rw [hqueue]
        exact h.unqueued other (hmem hother)
      · rw [hqueue] at hin
        exact hkept id (h.queued id hin) fun hin' => h.unqueued cmd hown id hin' hin
    · rw [if_neg hid] at hperm hdisjoint
      rw [take_other (by rwa [cmd.answer_fromUniqueId])] at hcontainer
      have hmem : ∀ {other}, other ∈ s₀.own → other ∈ s.own := fun hother => hperm.symm.subset hother
      refine ⟨fun other hother => h.nodup other (hmem hother), ?_, ?_, ?_, hdisjoint⟩
      · rw [hcontainer]
        exact fun other hother => h.unloaded other (hmem hother)
      · rw [hcontainer]
        exact fun other hother => h.unqueued other (hmem hother)
      · rw [hcontainer]
        exact h.queued

/-- A step that spares the commands on their way keeps each signal in one place. -/
theorem step (h : Once s) (hnumbered : s.Numbered) (hstep : Steps s a s') (hanswers : s.Answers a)
    (hspares : s.Spares a) : Once s' := by
  cases hstep with
  | opens hierarchy allVars remote => exact openFile hierarchy allVars remote hnumbered.inFlight
  | refuses _ _ => exact h
  | ignores _ => exact h
  | loads hprep =>
    refine (h.prepare hprep hanswers).load ?_
    cases hprep with
    | asks _ => exact hspares
    | adds _ => exact fun _ _ _ hid => absurd hid List.not_mem_nil
    | takes _ => exact fun _ _ _ hid => absurd hid List.not_mem_nil

end Once

end Session

/-- In every run in which each task reads the signals of its command, and in which no signal is asked for
that a command on its way contains, no command on its way contains a signal twice, or one that is loaded,
or one that another command on its way contains. A command is on its way from the step that starts it. -/
theorem signals_loaded_once {n : ℕ} {hierarchy : Wave.Hierarchy} {allVars : List Wave.VarId}
    {remote : Option (String × ℕ)} {s : Session}
    (h : Reachable Session.step (fun s a => s.Answers a ∧ s.Spares a)
      (Session.openFile n [] hierarchy allVars remote) s) :
    (∀ cmd ∈ s.own, cmd.signals.Nodup ∧ ∀ id ∈ cmd.signals, s.container.isSignalLoaded id = false) ∧
      s.own.Pairwise fun a b => a.signals.Disjoint b.signals := by
  have hinv : s.Numbered ∧ s.Once := by
    refine h.invariant (I := fun s => s.Numbered ∧ s.Once) ⟨?_, ?_⟩ ?_
    · exact Session.numbered_openFile n hierarchy allVars remote
    · exact Session.Once.openFile hierarchy allVars remote (by simp)
    · rintro s a s' ⟨hnumbered, honce⟩ ⟨hanswers, hspares⟩ hs
      have hsteps := Session.step_cases hs
      exact ⟨hnumbered.step hsteps, honce.step hnumbered hsteps hanswers hspares⟩
  obtain ⟨-, honce⟩ := hinv
  exact ⟨fun cmd hcmd => ⟨honce.nodup cmd hcmd, honce.unloaded cmd hcmd⟩, honce.disjoint⟩

/-- A signal is asked for once, and its command is on its way. -/
theorem signals_loaded_once_clk :
    ∃ s, Reachable Session.step (fun s a => s.Answers a ∧ s.Spares a)
        (Session.openFile 0 [] clkHierarchy [0] none) s ∧
      s.own.map (fun cmd => cmd.signals.length) = [1] ∧
      (∀ cmd ∈ s.own, cmd.signals.Nodup ∧ ∀ id ∈ cmd.signals, s.container.isSignalLoaded id = false) := by
  have hstart : Reachable Session.step (fun s a => s.Answers a ∧ s.Spares a)
    (Session.openFile 0 [] clkHierarchy [0] none) _ := .start
  have hasked := hstart.step (a := Action.loadVariables [clk]) ⟨trivial, List.forall_mem_nil _⟩ rfl
  have hread := hasked.step (a := Action.addBody (.localBody [0, 5] 7)) ⟨trivial, List.forall_mem_nil _⟩ rfl
  refine ⟨_, hread, ?_, (signals_loaded_once hread).1⟩
  show [(Finset.sort ({3} : Finset ℕ)).length] = [1]
  rw [Finset.length_sort, Finset.card_singleton]

/-- A signal is asked for again while its command is on its way. After the command has ended, another one
contains the signal. -/
theorem signals_loaded_twice :
    ¬ ∀ {n : ℕ} {hierarchy : Wave.Hierarchy} {allVars : List Wave.VarId} {remote : Option (String × ℕ)}
      {s : Session}, Reachable Session.step (fun s a => s.Answers a)
        (Session.openFile n [] hierarchy allVars remote) s →
      (∀ cmd ∈ s.own, cmd.signals.Nodup ∧ ∀ id ∈ cmd.signals, s.container.isSignalLoaded id = false) ∧
        s.own.Pairwise fun a b => a.signals.Disjoint b.signals := by
  intro hall
  have hstart : Reachable Session.step (fun s a => s.Answers a)
    (Session.openFile 0 [] clkHierarchy [0] none) _ := .start
  have hread := hstart.step (a := Action.addBody (.localBody [0, 5] 7)) trivial rfl
  have hasked := hread.step (a := Action.loadVariables [clk]) trivial rfl
  have hagain := hasked.step (a := Action.loadVariables [clk]) trivial rfl
  have hanswered := hagain.step (a := Action.answer 0 [clkSignal]) ?_ rfl
  · obtain ⟨-, hunloaded⟩ := (hall hanswered).1 _ List.mem_cons_self
    have hin : 3 ∈ Finset.sort ({3} : Finset ℕ) := (Finset.mem_sort _).2 (Finset.mem_singleton_self 3)
    exact absurd (hunloaded 3 hin) (by decide)
  · intro cmd hcmd id
    obtain rfl := Option.some.inj hcmd
    exact mem_clkSignal

end Wellen
