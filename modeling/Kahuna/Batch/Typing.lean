import Kahuna.Batch.Basic
import Kahuna.Command.Parser
import Kahuna.Worker.Basic

/-!
# Running a command file and typing its commands

The commands of a file are all parsed when the file is read, in the state of that time. Commands that are
typed are parsed one at a time, each when the earlier ones have been executed. The messages are executed by
`SystemState::update` in both cases, and wait in both cases for what is being loaded.

Of the messages, those that say what is shown are modelled. What the others do, and what loading in the
background does, is a parameter of the results.

* `addBatchCommands_lines`: what a file of plain commands puts on the queue.
* `runsFile_iff_types`: running a file is typing its commands if each of them reads the same where it stands
  and where the file is read.
* `not_forall_runsFile_iff_types`: otherwise it is not, as when a command toggles the menu twice.
-/

namespace Batch

open CommandParser Fzcmd Text Worker

/-! ## Files of plain commands -/

/-- A text that is one command: no comment, no list of commands, and no other file of commands. -/
structure Plain (c : List Char) : Prop where
  comment : '#' ∉ c
  semicolon : ';' ∉ c
  lineEnd : '\n' ∉ c
  runsFile : ¬ "run_command_file ".toList <+: trim c

/-- The commands of a line, without the white space around it. -/
def lineCommands (line : List Char) : List (List Char) :=
  let stripped := (line.splitOn '#').headD []
  if stripped.isEmpty then [] else (stripped.splitOn ';').map trim

theorem splitCommands_eq_flatMap (cmds : List (List Char)) :
    splitCommands cmds = cmds.flatMap fun line => lineCommands (trim line) := by
  induction cmds with
  | nil => rfl
  | cons line cmds ih =>
    rw [List.flatMap_cons, ← ih]
    simp only [splitCommands, lineCommands, List.map_cons, List.filter_cons]
    split <;> simp_all

theorem trim_cutReturn (line : List Char) :
    trim (if line.getLast? = some '\r' then line.dropLast else line) = trim line := by
  split
  next hlast =>
    have hreturn : Blank ['\r'] := by
      intro c hc
      rw [List.mem_singleton.1 hc]
      decide
    conv_rhs => rw [← List.dropLast_append_getLast? _ hlast]
    rw [trim_append_blank hreturn]
  next => rfl

/-- How lines end does not matter to their commands. -/
theorem splitCommands_lines (s : List Char) :
    splitCommands (lines s) = splitCommands (s.splitOn '\n') := by
  obtain ⟨init, last, hparts⟩ : ∃ init last, s.splitOn '\n' = init ++ [last] :=
    ⟨_, _, (List.dropLast_append_getLast (List.splitOn_ne_nil _ _)).symm⟩
  simp only [splitCommands_eq_flatMap, lines, hparts, List.dropLast_concat, List.getLast?_concat]
  have hinit : (init.map fun line => if line.getLast? = some '\r' then line.dropLast else line).flatMap
      (fun line => lineCommands (trim line)) = init.flatMap fun line => lineCommands (trim line) := by
    rw [List.flatMap_map]
    simp only [trim_cutReturn]
  by_cases hempty : last.isEmpty
  · -- the text ends with a line end
    have hnone : lineCommands (trim last) = [] := by
      rw [List.isEmpty_iff.1 hempty]
      rfl
    rw [if_pos hempty, hinit, List.flatMap_append, List.flatMap_singleton, hnone, List.append_nil]
  · rw [if_neg hempty, List.flatMap_append, hinit, List.flatMap_append]

theorem lineCommands_trim {c : List Char} (h : Plain c) :
    lineCommands (trim c) = if (trim c).isEmpty then [] else [trim c] := by
  have hcomment : '#' ∉ trim c := fun hmem => h.comment (mem_of_mem_trim hmem)
  have hsemicolon : ';' ∉ trim c := fun hmem => h.semicolon (mem_of_mem_trim hmem)
  rw [lineCommands, List.splitOn_eq_singleton hcomment, List.headD_cons]
  simp only [List.splitOn_eq_singleton hsemicolon, List.map_cons, List.map_nil, trim_trim]

variable {Msg : Type} {files : List Char → Option (List Char)} {parse : List Char → Option Msg}

/-- Commands that run no files add their own messages. -/
theorem foldlM_parseStep (add : List (List Char) → List Msg → Option (List Msg))
    {commands : List (List Char)} (h : ∀ c ∈ commands, readBatchCommand c = .command c)
    (state : List Msg × List Msg) :
    commands.foldlM (parseStep files parse add) state =
      some (state.1 ++ commands.filterMap parse, state.2) := by
  induction commands generalizing state with
  | nil => simp
  | cons c commands ih =>
    have hstep : parseStep files parse add state c =
        some (state.1 ++ (parse c).toList, state.2) := by
      simp only [parseStep, h c List.mem_cons_self]
    rw [List.foldlM_cons, hstep, Option.bind_eq_bind, Option.bind_some,
      ih fun d hd => h d (List.mem_cons_of_mem _ hd)]
    cases hc : parse c <;> simp [hc]

theorem filterMap_lineCommands (hempty : parse [] = none) {cmds : List (List Char)}
    (h : ∀ c ∈ cmds, Plain c) :
    (cmds.flatMap fun c => lineCommands (trim c)).filterMap parse =
      cmds.filterMap fun c => parse (trim c) := by
  induction cmds with
  | nil => rfl
  | cons c cmds ih =>
    rw [List.flatMap_cons, List.filterMap_append, lineCommands_trim (h c List.mem_cons_self),
      ih fun d hd => h d (List.mem_cons_of_mem _ hd)]
    by_cases hc : trim c = []
    · simp [hc, hempty]
    · cases hparse : parse (trim c) <;> simp [hc, hparse]

/-- A file of plain commands puts their messages on the queue. -/
theorem addBatchCommands_lines (depth : ℕ) (hempty : parse [] = none) {cmds : List (List Char)}
    (h : ∀ c ∈ cmds, Plain c) (queue : List Msg) :
    addBatchCommands files parse (depth + 1) (lines (['\n'].intercalate cmds)) queue =
      some (queue ++ cmds.filterMap fun c => parse (trim c)) := by
  have hsplit : splitCommands (lines (['\n'].intercalate cmds)) =
      cmds.flatMap fun c => lineCommands (trim c) := by
    rw [splitCommands_lines]
    by_cases hne : cmds = []
    · rw [hne]
      rfl
    · rw [List.splitOn_intercalate _ (fun c hc => (h c hc).lineEnd) hne, splitCommands_eq_flatMap]
  have hcommands : ∀ command ∈ splitCommands (lines (['\n'].intercalate cmds)),
      readBatchCommand command = .command command := by
    intro command hcommand
    rw [hsplit, List.mem_flatMap] at hcommand
    obtain ⟨c, hc, hcommand⟩ := hcommand
    rw [lineCommands_trim (h c hc)] at hcommand
    have heq : command = trim c := by
      split at hcommand <;> simp_all
    rw [heq, readBatchCommand, stripPrefix, if_neg (h c hc).runsFile]
  rw [addBatchCommands, parseBatchCommands, foldlM_parseStep _ hcommands, Option.map_some, hsplit,
    filterMap_lineCommands hempty h, List.nil_append]

/-! ## The application -/

/-- The settings of what is shown, after a message that changes one of them. -/
def updateShown (s : PromptState) : Message → Option PromptState
  | .setMenuVisible v => some { s with menu := (some v, s.menu.2) }
  | .setSidePanelVisible v => some { s with hierarchy := (some v, s.hierarchy.2) }
  | .setTickLines v => some { s with ticks := (some v, s.ticks.2) }
  | _ => none

/-- What the application does besides. Its state is what commands read and an `α`. -/
structure App (α : Type) where
  /-- `can_start_batch_command`: nothing is being loaded. -/
  canStart : α → Bool
  /-- What the other messages do. -/
  update : PromptState × α → Message → (PromptState × α) × List Message
  /-- What loading does next. -/
  background : PromptState × α → (PromptState × α) × List Message

variable {α : Type} (app : App α) (lib : Library)

/-- The application as a worker, whose queue is `batch_messages`. -/
def App.worker : Worker (PromptState × α) Message where
  ready s := app.canStart s.2
  update s message :=
    match updateShown s.1 message with
    | some shown => ((shown, s.2), [])
    | none => app.update s message
  background := app.background

/-- The message of a command, parsed in a state. -/
def parseIn (s : PromptState × α) (command : List Char) : Option Message :=
  (parseCommand lib.isWord command (getParser lib s.1)).toOption

/-- A command file is read, and run behind what is on the queue. -/
def RunsFile (files : List Char → Option (List Char)) (s : PromptState × α) (queue : List Message)
    (path : List Char) (t : PromptState × α) : Prop :=
  ∃ depth queue', addBatchCommands files (parseIn lib s) depth (readCommandFile files path) queue =
    some queue' ∧ app.worker.Drains s queue' t

/-- The commands are typed one after the other, when the queue is worked off. -/
def TypesCommands (s : PromptState × α) (queue : List Message) (commands : List (List Char))
    (t : PromptState × α) : Prop :=
  ∃ s', app.worker.Drains s queue s' ∧ Types app.worker (parseIn lib) s' commands t

/-- A command means the same in a state as in the one where its file was read: it reads the same, and
white space around it is no part of it. -/
def Agrees (s₀ s : PromptState × α) (command : List Char) : Prop :=
  reading lib s.1 command = reading lib s₀.1 command ∧
    parseIn lib s₀ (trim command) = parseIn lib s₀ command

variable {app lib} {s : PromptState × α} {queue : List Message} {path : List Char}
  {commands : List (List Char)} {t : PromptState × α}

theorem Agrees.parseIn_eq {s₀ : PromptState × α} {command : List Char}
    (h : Agrees lib s₀ s command) : parseIn lib s command = parseIn lib s₀ (trim command) := by
  rw [h.2, parseIn, parseIn, parseCommand_congr lib h.1]

theorem parseIn_nil : parseIn lib s [] = none := by
  rfl

/-- The queue of a file of plain commands. -/
theorem runsFile_iff (hfile : files path = some (['\n'].intercalate commands))
    (hplain : ∀ c ∈ commands, Plain c) : RunsFile app lib files s queue path t ↔
      app.worker.Drains s (queue ++ commands.filterMap fun c => parseIn lib s (trim c)) t := by
  have hlines : readCommandFile files path = lines (['\n'].intercalate commands) := by
    rw [readCommandFile, hfile, Option.map_some, Option.getD_some]
  constructor
  · rintro ⟨depth, queue', hqueue, hdrains⟩
    cases depth with
    | zero => cases hqueue
    | succ depth =>
      rw [hlines, addBatchCommands_lines depth parseIn_nil hplain] at hqueue
      rwa [Option.some.inj hqueue]
  · intro hdrains
    exact ⟨1, _, hlines ▸ addBatchCommands_lines 0 parseIn_nil hplain queue, hdrains⟩

/-- Running a file is typing its commands, if each of them means the same where it stands as where the
file was read, and neither the queue nor a command but the last one puts more messages on the queue. -/
theorem runsFile_iff_types (hfile : files path = some (['\n'].intercalate commands))
    (hplain : ∀ c ∈ commands, Plain c) (hquiet : app.worker.Quiet s queue)
    (halong : ∀ s', app.worker.Drains s queue s' →
      Along app.worker (parseIn lib) (Agrees lib s) s' commands) (t : PromptState × α) :
    RunsFile app lib files s queue path t ↔ TypesCommands app lib s queue commands t := by
  rw [runsFile_iff hfile hplain, drains_append hquiet]
  -- from the state in which the queue is worked off, both go on alike
  refine exists_congr fun s' => and_congr_right fun hs' => ?_
  apply drains_iff_types (quiet_of_ready hs'.ready)
  exact (halong s' hs').imp fun s c _ h => h.parseIn_eq

/-! ## Toggling twice -/

/-- A command that is one word. -/
theorem parseIn_word {command : List Char} (hne : command ≠ [])
    (hword : ∀ c ∈ command, lib.isWord c = true) :
    parseIn lib s command =
      (parseNext lib.isWord command [] (commandOf lib s.1 command)).toOption := by
  have hsplit : splitQuery lib.isWord command .word = ([], command, [], []) :=
    splitAtClass_of_all hword
  simp only [parseIn, getParser, parseCommand, hsplit, List.isEmpty_iff, hne, if_false]
  rfl

theorem parseIn_toggleMenu (hword : ∀ c ∈ "toggle_menu".toList, lib.isWord c = true) :
    parseIn lib s "toggle_menu".toList = some (.setMenuVisible !s.1.showMenu) := by
  rw [parseIn_word (by decide) hword]
  rfl

/-- The state with the menu shown or hidden. -/
def withMenu (s : PromptState × α) (v : Bool) : PromptState × α :=
  ({ s.1 with menu := (some v, s.1.menu.2) }, s.2)

theorem drains_setMenuVisible (hready : app.canStart s.2 = true) {v : Bool} {queue : List Message}
    (h : app.worker.Drains (withMenu s v) queue t) :
    app.worker.Drains s (.setMenuVisible v :: queue) t := by
  apply Drains.takes hready
  change app.worker.Drains (withMenu s v) (queue ++ []) t
  rwa [List.append_nil]

theorem drains_toggleMenu (hready : app.canStart s.2 = true)
    (hword : ∀ c ∈ "toggle_menu".toList, lib.isWord c = true) :
    app.worker.Drains s (parseIn lib s "toggle_menu".toList).toList (withMenu s !s.1.showMenu) := by
  rw [parseIn_toggleMenu hword]
  exact drains_setMenuVisible hready (.done hready)

/-- A menu that is toggled twice in a file is shown as if it had been toggled once. -/
theorem not_runsFile_iff_types_toggleMenu (hready : app.canStart s.2 = true)
    (hword : ∀ c ∈ "toggle_menu".toList, lib.isWord c = true)
    (hplain : ∀ c ∈ ["toggle_menu".toList, "toggle_menu".toList], Plain c)
    (hfile : files path =
      some (['\n'].intercalate ["toggle_menu".toList, "toggle_menu".toList])) :
    ¬ (RunsFile app lib files s [] path (withMenu (withMenu s !s.1.showMenu) s.1.showMenu) ↔
      TypesCommands app lib s [] ["toggle_menu".toList, "toggle_menu".toList]
        (withMenu (withMenu s !s.1.showMenu) s.1.showMenu)) := by
  have htypes : TypesCommands app lib s [] ["toggle_menu".toList, "toggle_menu".toList]
      (withMenu (withMenu s !s.1.showMenu) s.1.showMenu) := by
    have hsecond := @drains_toggleMenu _ app lib (withMenu s !s.1.showMenu) hready hword
    have hmenu : (!(withMenu s !s.1.showMenu).1.showMenu) = s.1.showMenu := by
      simp [withMenu, PromptState.showMenu]
    rw [hmenu] at hsecond
    refine ⟨s, .done hready, .command (.done hready) (drains_toggleMenu hready hword) ?_⟩
    exact .command (.done hready) hsecond (.done (.done hready))
  have hruns : RunsFile app lib files s [] path
      (withMenu (withMenu s !s.1.showMenu) !s.1.showMenu) := by
    have htrim : trim "toggle_menu".toList = "toggle_menu".toList := by decide
    rw [runsFile_iff hfile hplain]
    simp only [List.filterMap_cons, List.filterMap_nil, htrim, parseIn_toggleMenu hword]
    have hready' : app.canStart (withMenu s !s.1.showMenu).2 = true := hready
    exact drains_setMenuVisible hready (drains_setMenuVisible hready' (.done hready))
  intro h
  -- a run has one end, and the menu differs
  have hruns' := h.2 htypes
  rw [runsFile_iff hfile hplain] at hruns hruns'
  have heq := congrArg (fun t : PromptState × α => t.1.menu.1) (hruns.unique hruns')
  simp [withMenu] at heq

/-- Words of letters, digits and underscores. -/
def asciiLibrary : Library where
  isWord c := c.isAlphanum || c == '_'
  isNumeric := Char.isDigit
  parseF32 _ := none

/-- An application that loads nothing and only shows and hides. -/
def showApp : App Unit where
  canStart _ := true
  update s _ := (s, [])
  background s := (s, [])

/-- All is shown, as the configuration says, and no waveform is open. -/
def shownState : PromptState × Unit :=
  ({ waves := none, menu := (none, true), hierarchy := (none, true), ticks := (none, true),
     keepDuringReload := false, stateFile := none }, ())

/-- One file, of two commands. -/
def twoCommands (first second : String) (path : List Char) : Option (List Char) :=
  if path = ['f'] then some (['\n'].intercalate [first.toList, second.toList]) else none

theorem twoCommands_f (first second : String) : twoCommands first second ['f'] =
    some (['\n'].intercalate [first.toList, second.toList]) :=
  rfl

theorem plain_toggles : ∀ c ∈ ["toggle_menu".toList, "toggle_side_panel".toList], Plain c := by
  intro c hc
  simp only [List.mem_cons, List.not_mem_nil, or_false] at hc
  rcases hc with rfl | rfl <;> constructor <;> decide

theorem isWord_toggleMenu : ∀ c ∈ "toggle_menu".toList, asciiLibrary.isWord c = true :=
  List.all_eq_true.1 (by decide)

theorem along_toggles : Along showApp.worker (parseIn asciiLibrary) (Agrees asciiLibrary shownState)
    shownState ["toggle_menu".toList, "toggle_side_panel".toList] := by
  rw [along_cons_of_ready rfl]
  refine ⟨⟨rfl, congrArg _ (by decide)⟩, fun _ => ?_, fun s' hs' => ?_⟩
  · rw [parseIn_toggleMenu isWord_toggleMenu]
    exact quiet_cons rfl rfl (quiet_of_ready rfl)
  · rw [hs'.unique (drains_toggleMenu rfl isWord_toggleMenu), along_cons_of_ready rfl]
    -- the menu does not matter to the side panel
    exact ⟨⟨rfl, congrArg _ (by decide)⟩, fun hne => absurd rfl hne, fun _ _ => trivial⟩

/-- The menu and the side panel are hidden. -/
def hiddenState : PromptState × Unit :=
  ({ shownState.1 with
     menu := (some false, true)
     hierarchy := (some false, true) }, ())

theorem runsFile_toggles : RunsFile showApp asciiLibrary
    (twoCommands "toggle_menu" "toggle_side_panel") shownState [] ['f'] hiddenState := by
  rw [runsFile_iff (twoCommands_f _ _) plain_toggles]
  exact .takes rfl (.takes rfl (.done rfl))

/-- Both are hidden, also if the commands are typed. -/
theorem runsFile_iff_types_toggles : TypesCommands showApp asciiLibrary shownState []
    ["toggle_menu".toList, "toggle_side_panel".toList] hiddenState := by
  have halong : ∀ s', showApp.worker.Drains shownState [] s' → Along showApp.worker
      (parseIn asciiLibrary) (Agrees asciiLibrary shownState) s'
      ["toggle_menu".toList, "toggle_side_panel".toList] := by
    intro s' hs'
    rw [← (Drains.done rfl).unique hs']
    exact along_toggles
  have hiff := runsFile_iff_types (twoCommands_f _ _) plain_toggles (quiet_of_ready rfl)
    halong hiddenState
  exact hiff.1 runsFile_toggles

/-- Not every file of plain commands is run as if its commands were typed. -/
theorem not_forall_runsFile_iff_types :
    ¬ ∀ (app : App Unit) (lib : Library) (files : List Char → Option (List Char))
      (s : PromptState × Unit) (path : List Char) (commands : List (List Char)),
      files path = some (['\n'].intercalate commands) → (∀ c ∈ commands, Plain c) →
      ∀ t, RunsFile app lib files s [] path t ↔ TypesCommands app lib s [] commands t := by
  intro h
  have hplain : ∀ c ∈ ["toggle_menu".toList, "toggle_menu".toList], Plain c := by
    intro c hc
    have heq : c = "toggle_menu".toList := by simpa using hc
    exact plain_toggles c (heq ▸ List.mem_cons_self)
  have hready : showApp.canStart shownState.2 = true := rfl
  exact not_runsFile_iff_types_toggleMenu hready isWord_toggleMenu hplain (twoCommands_f _ _)
    (h showApp asciiLibrary _ shownState ['f'] _ (twoCommands_f _ _) hplain _)

end Batch
