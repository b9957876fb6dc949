import Kahuna.Batch.Basic
import Kahuna.Inclusion.Basic

/-!
# The order of nested command files

A `run_command_file` command stands for the commands of the file it names. `commandBody` gives the
files as texts that include each other, so that `Inclusion.Expands` is the file in which each of
these commands has been replaced by the commands of its file. The queue instead collects the messages
of nested files first (`addBatchCommands_eq`).

* `exists_addBatchCommands_iff`: reading ends exactly if no file runs itself;
* `runsInPlace_of_nestedFirst`, `nestedFirst_of_runsInPlace`: when the messages are in place.
-/

namespace Batch

open Inclusion

variable {Msg : Type} {files : List Char → Option (List Char)} {parse : List Char → Option Msg}

/-- A command as an item of its own or as the name of a file. -/
def batchItem (command : List Char) : Option (List Char ⊕ List Char) :=
  match readBatchCommand command with
  | .runCommandFile path => some (.inr path)
  | .emptyPath => none
  | .command text => some (.inl text)

/-- The commands of a list of lines and the files they run. -/
def batchItems (cmds : List (List Char)) : List (List Char ⊕ List Char) :=
  (splitCommands cmds).filterMap batchItem

/-- The command files. -/
def commandBody (files : List Char → Option (List Char)) (path : List Char) :
    List (List Char ⊕ List Char) :=
  batchItems (readCommandFile files path)

/-- The command files, with the messages in place of the commands. -/
def messageBody (files : List Char → Option (List Char)) (parse : List Char → Option Msg)
    (path : List Char) : List (Msg ⊕ List Char) :=
  keepItems parse (commandBody files path)

/-- The items of some of the commands. -/
def messageItems (parse : List Char → Option Msg) (commands : List (List Char)) :
    List (Msg ⊕ List Char) :=
  keepItems parse (commands.filterMap batchItem)

/-- What one command adds, by what it is. -/
inductive StepSpec (files : List Char → Option (List Char)) (parse : List Char → Option Msg)
    (command : List Char) : Prop where
  | runs {path : List Char} (hitem : batchItem command = some (.inr path))
      (hstep : ∀ add state, parseStep files parse add state command =
        (add (readCommandFile files path) state.2).map fun queue => (state.1, queue))
  | parses {text : List Char} (hitem : batchItem command = some (.inl text))
      (hstep : ∀ add state, parseStep files parse add state command =
        some (state.1 ++ (parse text).toList, state.2))
  | skips (hitem : batchItem command = none)
      (hstep : ∀ add state, parseStep files parse add state command = some state)

theorem stepSpec (files : List Char → Option (List Char)) (parse : List Char → Option Msg)
    (command : List Char) : StepSpec files parse command := by
  cases h : readBatchCommand command with
  | runCommandFile path =>
    have hitem : batchItem command = some (.inr path) := by simp [batchItem, h]
    exact .runs hitem fun _ _ => by simp [parseStep, h]
  | emptyPath => exact .skips (by simp [batchItem, h]) fun _ _ => by simp [parseStep, h]
  | command text =>
    have hitem : batchItem command = some (.inl text) := by simp [batchItem, h]
    exact .parses hitem fun _ _ => by simp [parseStep, h]

/-- The commands that have been read add the messages of nested files to the queue and their own to
the list. -/
theorem collects_of_foldlM {add : List (List Char) → List Msg → Option (List Msg)}
    (hadd : ∀ cmds queue queue', add cmds queue = some queue' →
      ∃ ns os, Collects (messageBody files parse) (messageItems parse (splitCommands cmds)) ns os ∧
        queue' = queue ++ (ns ++ os))
    {commands : List (List Char)} {state state' : List Msg × List Msg}
    (h : commands.foldlM (parseStep files parse add) state = some state') :
    ∃ ns os, Collects (messageBody files parse) (messageItems parse commands) ns os ∧
      state' = (state.1 ++ os, state.2 ++ ns) := by
  induction commands generalizing state with
  | nil =>
    simp only [List.foldlM_nil, Option.pure_def, Option.some.injEq] at h
    exact ⟨[], [], .nil, by simp [← h]⟩
  | cons command commands ih =>
    rw [List.foldlM_cons, Option.bind_eq_bind, Option.bind_eq_some_iff] at h
    obtain ⟨next, hnext, hrest⟩ := h
    obtain ⟨ns, os, hcollects, rfl⟩ := ih hrest
    cases stepSpec files parse command with
    | runs hitem hstep =>
      rw [hstep, Option.map_eq_some_iff] at hnext
      obtain ⟨queue, hqueue, rfl⟩ := hnext
      obtain ⟨ns', os', hbody, rfl⟩ := hadd _ _ _ hqueue
      refine ⟨ns' ++ os' ++ ns, os, ?_, by simp⟩
      simpa [messageItems, hitem, keepItems] using hbody.nested hcollects
    | @parses text hitem hstep =>
      rw [hstep, Option.some.injEq] at hnext
      subst hnext
      cases hmsg : parse text with
      | none =>
        exact ⟨ns, os, by simpa [messageItems, hitem, keepItems, hmsg] using hcollects, by simp⟩
      | some m =>
        refine ⟨ns, m :: os, ?_, by simp⟩
        simpa [messageItems, hitem, keepItems, hmsg] using hcollects.item (m := m)
    | skips hitem hstep =>
      rw [hstep, Option.some.injEq] at hnext
      subst hnext
      exact ⟨ns, os, by simpa [messageItems, hitem, keepItems] using hcollects, rfl⟩

/-- The queue gets the messages of nested files first, and then those of the file itself. -/
theorem addBatchCommands_eq {depth : ℕ} {cmds : List (List Char)} {queue queue' : List Msg}
    (h : addBatchCommands files parse depth cmds queue = some queue') :
    ∃ ns os, Collects (messageBody files parse) (messageItems parse (splitCommands cmds)) ns os ∧
      queue' = queue ++ (ns ++ os) := by
  induction depth generalizing cmds queue queue' with
  | zero => cases h
  | succ depth ih =>
    rw [addBatchCommands, Option.map_eq_some_iff] at h
    obtain ⟨state, hstate, rfl⟩ := h
    obtain ⟨ns, os, hcollects, rfl⟩ := collects_of_foldlM (fun _ _ _ => ih) hstate
    exact ⟨ns, os, hcollects, by simp⟩

/-! ## Reading ends -/

theorem foldlM_mono {α β : Type} {f g : β → α → Option β}
    (h : ∀ b a b', f b a = some b' → g b a = some b') {l : List α} {b b' : β}
    (hf : l.foldlM f b = some b') : l.foldlM g b = some b' := by
  induction l generalizing b with
  | nil => exact hf
  | cons a l ih =>
    rw [List.foldlM_cons, Option.bind_eq_bind, Option.bind_eq_some_iff] at hf ⊢
    obtain ⟨next, hnext, hrest⟩ := hf
    exact ⟨next, h _ _ _ hnext, ih hrest⟩

theorem parseStep_mono {add add' : List (List Char) → List Msg → Option (List Msg)}
    (h : ∀ cmds queue queue', add cmds queue = some queue' → add' cmds queue = some queue')
    {state state' : List Msg × List Msg} {command : List Char}
    (hstep : parseStep files parse add state command = some state') :
    parseStep files parse add' state command = some state' := by
  simp only [parseStep] at hstep ⊢
  split
  next path hpath =>
    simp only [hpath, Option.map_eq_some_iff] at hstep ⊢
    obtain ⟨queue, hqueue, rfl⟩ := hstep
    exact ⟨queue, h _ _ _ hqueue, rfl⟩
  next hempty => simpa [hempty] using hstep
  next text htext => simpa [htext] using hstep

/-- Reading to a greater depth gives the same queue. -/
theorem addBatchCommands_succ {depth : ℕ} {cmds : List (List Char)} {queue queue' : List Msg}
    (h : addBatchCommands files parse depth cmds queue = some queue') :
    addBatchCommands files parse (depth + 1) cmds queue = some queue' := by
  induction depth generalizing cmds queue queue' with
  | zero => cases h
  | succ depth ih =>
    rw [addBatchCommands, Option.map_eq_some_iff] at h ⊢
    obtain ⟨state, hstate, rfl⟩ := h
    exact ⟨state, foldlM_mono (fun _ _ _ => parseStep_mono fun _ _ _ => ih) hstate, rfl⟩

theorem addBatchCommands_mono {depth depth' : ℕ} (hle : depth ≤ depth') {cmds : List (List Char)}
    {queue queue' : List Msg} (h : addBatchCommands files parse depth cmds queue = some queue') :
    addBatchCommands files parse depth' cmds queue = some queue' := by
  induction hle with
  | refl => exact h
  | step _ ih => exact addBatchCommands_succ ih

/-- If every file that the commands run can be read, so can the commands. -/
theorem exists_foldlM {commands : List (List Char)}
    (h : ∀ path, .inr path ∈ commands.filterMap batchItem → ∃ depth, ∀ queue, ∃ queue',
      addBatchCommands files parse depth (readCommandFile files path) queue = some queue') :
    ∃ depth, ∀ state, ∃ state', commands.foldlM
      (parseStep files parse (addBatchCommands files parse depth)) state = some state' := by
  induction commands with
  | nil => exact ⟨0, fun state => ⟨state, rfl⟩⟩
  | cons command commands ih =>
    obtain ⟨depth, hdepth⟩ := ih fun path hpath => h path (by
      rw [List.filterMap_cons]
      split
      · exact hpath
      · exact List.mem_cons_of_mem _ hpath)
    -- the first command can be read to some depth
    obtain ⟨depth', hdepth'⟩ : ∃ depth', ∀ state, ∃ next,
        parseStep files parse (addBatchCommands files parse depth') state command = some next := by
      cases stepSpec files parse command with
      | @runs path hitem hstep =>
        obtain ⟨depth', hdepth'⟩ := h path (by simp [hitem])
        refine ⟨depth', fun state => ?_⟩
        obtain ⟨queue, hqueue⟩ := hdepth' state.2
        exact ⟨_, by rw [hstep, hqueue]; rfl⟩
      | parses _ hstep => exact ⟨0, fun state => ⟨_, hstep _ state⟩⟩
      | skips _ hstep => exact ⟨0, fun state => ⟨_, hstep _ state⟩⟩
    refine ⟨max depth depth', fun state => ?_⟩
    obtain ⟨next, hnext⟩ := hdepth' state
    obtain ⟨state', hstate'⟩ := hdepth next
    refine ⟨state', ?_⟩
    rw [List.foldlM_cons, Option.bind_eq_bind, Option.bind_eq_some_iff]
    refine ⟨next, parseStep_mono (fun _ _ _ => addBatchCommands_mono (Nat.le_max_right _ _)) hnext, ?_⟩
    exact foldlM_mono (fun _ _ _ => parseStep_mono fun _ _ _ =>
      addBatchCommands_mono (Nat.le_max_left _ _)) hstate'

/-- If there is no infinite chain of files, the commands can be read. -/
theorem exists_addBatchCommands_of_acc {cmds : List (List Char)}
    (h : ∀ path, .inr path ∈ batchItems cmds →
      Acc (fun q p => Names (commandBody files) p q) path) :
    ∃ depth, ∀ queue, ∃ queue', addBatchCommands files parse depth cmds queue = some queue' := by
  have hcmds (cmds : List (List Char))
      (h : ∀ path, .inr path ∈ batchItems cmds → ∃ depth, ∀ queue, ∃ queue',
        addBatchCommands files parse depth (readCommandFile files path) queue = some queue') :
      ∃ depth, ∀ queue, ∃ queue', addBatchCommands files parse depth cmds queue = some queue' := by
    obtain ⟨depth, hdepth⟩ := exists_foldlM h
    refine ⟨depth + 1, fun queue => ?_⟩
    obtain ⟨state, hstate⟩ := hdepth ([], queue)
    exact ⟨_, by rw [addBatchCommands, parseBatchCommands, hstate]; rfl⟩
  refine hcmds cmds fun path hpath => ?_
  have hacc := h path hpath
  clear hpath
  induction hacc with
  | intro path _ ih => exact hcmds _ fun q hq => ih q hq

theorem commandBody_finite (hfinite : {path | files path ≠ none}.Finite) :
    {path | commandBody files path ≠ []}.Finite := by
  refine hfinite.subset fun path hpath => ?_
  intro hnone
  exact hpath (by simp [commandBody, readCommandFile, hnone, batchItems, splitCommands])

/-- Reading ends exactly if none of the files runs itself, directly or through others. -/
theorem exists_addBatchCommands_iff (hfinite : {path | files path ≠ none}.Finite)
    (parse : List Char → Option Msg) (cmds : List (List Char)) (queue : List Msg) :
    (∃ depth queue', addBatchCommands files parse depth cmds queue = some queue') ↔
      Acyclic (commandBody files) (batchItems cmds) := by
  rw [← exists_expands_iff (commandBody_finite hfinite), exists_expands_iff_acc]
  constructor
  · rintro ⟨depth, queue', h⟩
    obtain ⟨ns, os, hcollects, -⟩ := addBatchCommands_eq h
    obtain ⟨ms, hms⟩ := hcollects.exists_expands
    intro path hpath
    have hacc := hms.acc path (inr_mem_keepItems.2 hpath)
    simpa only [Names, messageBody, inr_mem_keepItems] using hacc
  · intro h
    obtain ⟨depth, hdepth⟩ := @exists_addBatchCommands_of_acc _ files parse cmds h
    exact ⟨depth, hdepth queue⟩

/-! ## The order -/

/-- Reading the commands ends, and the messages that are queued are those of the commands with each
`run_command_file` command replaced by the commands of its file. -/
def RunsInPlace (files : List Char → Option (List Char)) (parse : List Char → Option Msg)
    (cmds : List (List Char)) (queue : List Msg) : Prop :=
  (∃ depth queue', addBatchCommands files parse depth cmds queue = some queue') ∧
    ∀ depth queue', addBatchCommands files parse depth cmds queue = some queue' →
      ∀ expanded, Expands (commandBody files) (batchItems cmds) expanded →
        queue' = queue ++ expanded.filterMap parse

/-- No file runs itself, directly or through others, and no command with a message stands before a
`run_command_file` command whose file has a message. -/
def NestedFirst (files : List Char → Option (List Char)) (parse : List Char → Option Msg)
    (cmds : List (List Char)) : Prop :=
  Acyclic (commandBody files) (batchItems cmds) ∧
    InOrder (messageBody files parse) (messageItems parse (splitCommands cmds))

theorem runsInPlace_of_nestedFirst (hfinite : {path | files path ≠ none}.Finite)
    {cmds : List (List Char)} (h : NestedFirst files parse cmds) (queue : List Msg) :
    RunsInPlace files parse cmds queue := by
  refine ⟨(exists_addBatchCommands_iff hfinite parse cmds queue).2 h.1, ?_⟩
  intro depth queue' hqueue expanded hexpanded
  obtain ⟨ns, os, hcollects, rfl⟩ := addBatchCommands_eq hqueue
  have horder := (hexpanded.keepItems parse).eq_of_inOrder hcollects h.2
  rw [horder]

theorem nestedFirst_of_runsInPlace (hfinite : {path | files path ≠ none}.Finite)
    {cmds : List (List Char)} {queue : List Msg} (h : RunsInPlace files parse cmds queue)
    (hnodup : ∀ expanded, Expands (commandBody files) (batchItems cmds) expanded →
      (expanded.filterMap parse).Nodup) : NestedFirst files parse cmds := by
  have hacyclic := (exists_addBatchCommands_iff hfinite parse cmds queue).1 h.1
  obtain ⟨depth, queue', hqueue⟩ := h.1
  obtain ⟨ns, os, hcollects, rfl⟩ := addBatchCommands_eq hqueue
  obtain ⟨expanded, hexpanded⟩ : ∃ expanded, Expands (commandBody files) (batchItems cmds) expanded :=
    (exists_expands_iff (commandBody_finite hfinite)).2 hacyclic
  have heq := List.append_cancel_left (h.2 _ _ hqueue expanded hexpanded)
  exact ⟨hacyclic,
    (hexpanded.keepItems parse).inOrder_of_eq hcollects heq.symm (hnodup expanded hexpanded)⟩

/-- The commands run in place if nested files come first and no file runs itself, and only then if
no message occurs twice. -/
theorem runsInPlace_iff (hfinite : {path | files path ≠ none}.Finite)
    (parse : List Char → Option Msg) (cmds : List (List Char)) (queue : List Msg) :
    (NestedFirst files parse cmds → RunsInPlace files parse cmds queue) ∧
      ((∀ expanded, Expands (commandBody files) (batchItems cmds) expanded →
          (expanded.filterMap parse).Nodup) →
        RunsInPlace files parse cmds queue → NestedFirst files parse cmds) :=
  ⟨fun h => runsInPlace_of_nestedFirst hfinite h queue,
    fun hnodup h => nestedFirst_of_runsInPlace hfinite h hnodup⟩

/-- One file, `f`, with the command `b`. -/
def oneFile (path : List Char) : Option (List Char) := if path = ['f'] then some ['b'] else none

theorem finite_oneFile : {path | oneFile path ≠ none}.Finite := by
  refine (Set.finite_singleton ['f']).subset fun path hpath => ?_
  by_contra hne
  exact hpath (if_neg hne)

theorem commandBody_oneFile (path : List Char) :
    commandBody oneFile path = [.inl ['b']] ∨ commandBody oneFile path = [] := by
  by_cases hpath : path = ['f']
  · subst hpath
    exact .inl (by decide)
  · exact .inr (by simp [commandBody, readCommandFile, oneFile, hpath, batchItems, splitCommands])

theorem not_names_oneFile (p q : List Char) : ¬ Names (commandBody oneFile) p q := by
  intro h
  rcases commandBody_oneFile p with hbody | hbody <;> simp [Names, hbody] at h

theorem runsInPlace_oneFile :
    RunsInPlace oneFile some ["run_command_file f".toList, ['a']] [] := by
  refine (runsInPlace_iff finite_oneFile some _ _).1 ⟨?_, ?_, ?_⟩
  · intro p _ hcycle
    obtain ⟨q, hq, -⟩ := Relation.TransGen.head'_iff.1 hcycle
    exact not_names_oneFile _ _ hq
  · have hitems : messageItems some (splitCommands ["run_command_file f".toList, ['a']])
        = [.inr ['f'], .inl ['a']] := by
      decide
    rw [hitems]
    simp [ItemsLast]
  · intro p _
    rcases commandBody_oneFile p with hbody | hbody <;>
      simp [ItemsLast, messageBody, hbody, keepItems]

/-- The command before the nested file runs after it. -/
theorem not_forall_runsInPlace :
    ¬ ∀ (files : List Char → Option (List Char)) (parse : List Char → Option (List Char))
      (cmds : List (List Char)) (queue : List (List Char)), {path | files path ≠ none}.Finite →
      RunsInPlace files parse cmds queue := by
  intro hall
  have hplace := (hall oneFile some [['a'], "run_command_file f".toList] [] finite_oneFile).2
  have hqueue : addBatchCommands oneFile some 2 [['a'], "run_command_file f".toList] []
      = some [['b'], ['a']] := by
    decide
  have hitems : batchItems [['a'], "run_command_file f".toList] = [.inl ['a'], .inr ['f']] := by
    decide
  have hbody : commandBody oneFile ['f'] = [.inl ['b']] := by
    decide
  have hexpanded : Expands (commandBody oneFile) (batchItems [['a'], "run_command_file f".toList])
      [['a'], ['b']] := by
    have hfile : Expands (commandBody oneFile) (commandBody oneFile ['f']) [['b']] := by
      rw [hbody]
      exact .item .nil
    rw [hitems]
    exact .item (hfile.nested .nil)
  have heq := hplace _ _ hqueue _ hexpanded
  revert heq
  decide

end Batch
