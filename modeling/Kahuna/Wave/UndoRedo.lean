import Kahuna.Wave.Effects

/-!
# Undo and redo

Undo and redo move snapshots of the canvas from one stack to the other, and exchange each with the
canvas on display.

- `redo_undo`: as many redos as there were undos restore the state.
- `undo_edited`: an undo right after an edit restores the canvas before it.
- `undo_redo_inverse`: both.
-/

namespace Wave

namespace WaveData

variable {w : WaveData}

/-- A canvas that was exchanged can be exchanged back: no field of it is left behind. -/
theorem swapCanvas_swapCanvas {c : CanvasState} :
    swapCanvas (swapCanvas w c).1 (swapCanvas w c).2 = (w, c) := rfl

end WaveData

namespace SystemState

variable {env : Env} {σ σ' : SystemState} {w : WaveData}

/-- Redoing what was undone restores the state: both stacks, with the texts of the steps, and all
that is on display. -/
theorem redo_undo {count : ℕ} (hcount : count ≤ σ.undoStack.length) :
    (σ.undo count).redo count = σ := by
  obtain ⟨user, undoStack, redoStack, annotationIdSource⟩ := σ
  cases hw : user.waves with
  | none => simp only [undo, redo, hw]
  | some w =>
    have hback := @History.exchange_exchange _ _ WaveData.swapCanvas count w undoStack redoStack
      (fun _ _ => WaveData.swapCanvas_swapCanvas) hcount
    simp only [undo, redo, hw, WaveData.exchangeCanvas_eq, hback]
    -- the waveform data is put back where it was
    rw [← hw]

/-- Saving the canvas puts it on top of the undo stack, unless the stack holds nothing. -/
theorem saveCurrentCanvas_undoStack (message : String) (hsize : 1 ≤ env.undoStackSize)
    (hw : σ.user.waves = some w) :
    ∃ rest, (σ.saveCurrentCanvas env message).undoStack = w.currentCanvasState message :: rest := by
  simp only [saveCurrentCanvas, hw]
  split
  next hlarge =>
    -- the oldest canvas that is dropped is not the new one
    rw [List.length_cons] at hlarge
    have hne : σ.undoStack ≠ [] := by
      rintro hnil
      rw [hnil, List.length_nil] at hlarge
      omega
    exact ⟨_, List.dropLast_cons_of_ne_nil hne⟩
  next => exact ⟨_, rfl⟩

/-- Some edit was made: the canvas was saved, and then the state changed in any way that keeps a
waveform on display and the undo stack as it was saved. -/
structure Edited (env : Env) (message : String) (σ σ' : SystemState) : Prop where
  loaded : σ'.user.waves.isSome
  undoStack : σ'.undoStack = (σ.saveCurrentCanvas env message).undoStack

/-- The edits of the messages are such. -/
theorem edited_edit {message : String} {f : WaveData → Run WaveData} (hw : σ.user.waves = some w)
    (h : σ.edit env message f = .ok σ') : Edited env message σ σ' := by
  have hw' : (σ.saveCurrentCanvas env message).user.waves = some w := by simpa using hw
  obtain ⟨w₁, -, rfl⟩ := onWaves_eq_ok hw' h
  exact { loaded := rfl, undoStack := rfl }

/-- An undo right after an edit restores the canvas before it, whatever the edit did. -/
theorem undo_edited {message : String} (hsize : 1 ≤ env.undoStackSize)
    (hw : σ.user.waves = some w) (h : Edited env message σ σ') :
    ∃ w', (σ'.undo 1).user.waves = some w' ∧
      ∀ text, w'.currentCanvasState text = w.currentCanvasState text := by
  obtain ⟨rest, hstack⟩ := saveCurrentCanvas_undoStack message hsize hw
  obtain ⟨w₁, hw₁⟩ := Option.isSome_iff_exists.1 h.loaded
  rw [← h.undoStack] at hstack
  refine ⟨w₁.restore (w.currentCanvasState message), ?_, fun text => rfl⟩
  simp only [undo, hw₁, hstack]
  rfl

/-- Undo and redo are inverse to each other, and undo takes back an edit. -/
theorem undo_redo_inverse (env : Env) (σ : SystemState) :
    (∀ n ≤ σ.undoStack.length, (σ.undo n).redo n = σ) ∧
      (1 ≤ env.undoStackSize → ∀ w message σ', σ.user.waves = some w →
        Edited env message σ σ' →
          ∃ w', (σ'.undo 1).user.waves = some w' ∧
            ∀ text, w'.currentCanvasState text = w.currentCanvasState text) :=
  ⟨fun _ hn => redo_undo hn, fun hsize _ _ _ hw h => undo_edited hsize hw h⟩

/-- Two dividers are added to an empty display. Both steps can be undone and redone. -/
theorem undo_redo_inverse_twoDividers :
    ∃ σ σ' : SystemState, ∃ w w' : WaveData,
      Transition.run (update defaultEnv) (fresh { hierarchy := .flat [], signals := fun _ => none })
        [.addDivider (some "inputs") none] = .ok σ ∧
      σ.update defaultEnv (.addDivider (some "outputs") none) = .ok σ' ∧
      (σ'.undo 2).redo 2 = σ' ∧ σ.user.waves = some w ∧ (σ'.undo 1).user.waves = some w' ∧
      w'.currentCanvasState "" = w.currentCanvasState "" := by
  obtain ⟨σ, hrun, -, htest⟩ :=
    Transition.exists_reachable_of_run (update defaultEnv) (fun _ _ => True)
      (fresh { hierarchy := .flat [], signals := fun _ => none })
      [.addDivider (some "inputs") none]
      (fun σ => σ.user.waves.isSome &&
        (σ.update defaultEnv (.addDivider (some "outputs") none)).toOption.any fun σ' =>
          2 ≤ σ'.undoStack.length)
      (by simp) (by decide)
  rw [Bool.and_eq_true, Option.isSome_iff_exists, Option.any_eq_true] at htest
  obtain ⟨⟨w, hw⟩, σ', hσ', hlength⟩ := htest
  have hstep : σ.update defaultEnv (.addDivider (some "outputs") none) = .ok σ' := by
    revert hσ'
    cases σ.update defaultEnv (.addDivider (some "outputs") none) <;> simp [Except.toOption]
  obtain ⟨w', hw', hfields⟩ :=
    (undo_redo_inverse defaultEnv σ).2 (by decide) w "Add divider" σ' hw (edited_edit hw hstep)
  exact ⟨σ, σ', w, w', hrun, hstep,
    (undo_redo_inverse defaultEnv σ').1 2 (of_decide_eq_true hlength), hw, hw', hfields ""⟩

end SystemState

end Wave
