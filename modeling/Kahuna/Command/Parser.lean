import Kahuna.Command.Fzcmd
import Kahuna.Command.Message

/-!
# The parser of commands

The model of `get_parser`. The parser is made for a state of which it keeps some pieces: the viewport that was
active last, the timescale, what is shown, the active scope, the markers and so on. Where the parser of the
source is made, those pieces are copied out of the state; here they are read from the state that the parser
is made for.

* `plainCommand`: the commands that read nothing of the state.
* `getParser`: all commands.
-/

namespace CommandParser

open Fzcmd Numerals Text Time
open Wave (VariableRef)

/-! ## What is read of the state -/

/-- What is read of the waveform that is open. -/
structure Waves where
  timescale : TimeScale
  lastActiveViewportIdx : ℕ
  activeScope : Option ScopeType
  isTransactions : Bool
  /-- The names and ids of the markers, in the order of the items. -/
  markers : List (Option String × ℕ)

/-- What is read of the state. -/
structure PromptState where
  waves : Option Waves
  /-- What the user has set, and what the configuration says. -/
  menu : Option Bool × Bool
  hierarchy : Option Bool × Bool
  ticks : Option Bool × Bool
  keepDuringReload : Bool
  stateFile : Option (List Char)

namespace PromptState

variable (s : PromptState)

def showMenu : Bool := s.menu.1.getD s.menu.2

def showHierarchy : Bool := s.hierarchy.1.getD s.hierarchy.2

def showTicks : Bool := s.ticks.1.getD s.ticks.2

def timescale : Option TimeScale := s.waves.map (·.timescale)

def viewportIdx : ℕ := (s.waves.map (·.lastActiveViewportIdx)).getD 0

def activeScope : Option ScopeType := s.waves.bind (·.activeScope)

def isTransactionContainer : Bool := s.waves.any (·.isTransactions)

def markers : List (Option String × ℕ) := (s.waves.map (·.markers)).getD []

end PromptState

/-- `parse_marker`: an id behind a `#`, or the name of a marker. -/
def parseMarker (query : List Char) (markers : List (Option String × ℕ)) : Option ℕ :=
  match stripPrefix ['#'] query with
  | some idStr => parseUnsigned 8 idStr
  | none => (markers.find? fun marker => marker.1 == some (String.ofList query)).map (·.2)

/-! ## Kinds of commands -/

/-- A command that is finished. -/
def terminal (message : Message) : Option (Command Message) := some (.terminal message)

/-- `single_word`, which takes the rest of the text. -/
def singleWord (restCommand : List Char → Option (Command Message)) : Option (Command Message) :=
  some (.nonTerminal .rest fun query _ => restCommand query)

/-- `optional_single_word`. -/
def optionalSingleWord (restCommand : List Char → Option (Command Message)) :
    Option (Command Message) :=
  some (.nonTerminal .optionalWord fun query _ => restCommand query)

/-- A command that takes a word first. -/
def word (restCommand : List Char → Option (Command Message)) : Option (Command Message) :=
  some (.nonTerminal .word fun query _ => restCommand query)

/-- `separate_at_space`. -/
def separateAtSpace (query : List Char) : QuerySplit := splitAtClass (fun c => !isWhitespace c) query

/-- A command about a group of the toolbar. -/
def toolbarCommand (message : String → List Char → Option Message) : Option (Command Message) :=
  word fun groupId =>
    if String.ofList groupId ∈ toolbarGroupIds then
      word fun value => (message (String.ofList groupId) value).bind terminal
    else none

/-! ## The times of a command -/

/-- The times of `zoom_to`, at most a number of them: a number with the unit that may follow it. -/
def timeStrings (isNumeric : Char → Bool) : ℕ → List (List Char) → List (List Char)
  | 0, _ => []
  | _, [] => []
  | n + 1, part :: parts =>
    if part.head?.any fun c => isNumeric c || c == '-' then
      match parts with
      | [] => [part]
      | next :: rest =>
        if isNumeric (next.headD '0') then part :: timeStrings isNumeric n (next :: rest)
        else (part ++ next) :: timeStrings isNumeric n rest
    else timeStrings isNumeric (n + 1) parts

/-- The range of `zoom_to`. -/
def zoomRange (lib : Library) (timescale : Option TimeScale) (params : List Char) : Option (ℤ × ℤ) :=
  match timeStrings lib.isNumeric 2 (splitWhitespace params) with
  | [start, stop] => do
    let start ← parseTime timescale start
    let stop ← parseTime timescale stop
    return (start, stop)
  | _ => none

/-- The text of a list of words. -/
def joinWords (words : List (List Char)) : List Char := [' '].intercalate words

/-- The time and the marker of `marker_set_at`. The unit of a time may be a word of its own. -/
def markerSetAt (timescale : Option TimeScale) (query : List Char) : Option (ℤ × List Char) :=
  match splitWhitespace query with
  | first :: second :: third :: rest => do
    let combined := first ++ second
    let (timeStr, markerRef) :=
      if timescale.any fun ts => (parseTimeStringToTicks combined ts).isSome then
        (combined, joinWords (third :: rest))
      else (first, joinWords (second :: third :: rest))
    let time ← parseTime timescale timeStr
    return (time, markerRef)
  | [first, second] => do
    let time ← parseTime timescale first
    return (time, second)
  | _ => none

/-! ## Commands that read nothing of the state -/

/-- The color mode and the bits of a frame buffer. -/
def frameBufferMode (mode : FrameBufferColorMode) (args : List (List Char)) : Option Message :=
  match mode, args with
  | .grayscale, [bits] => do
    let bits ← parseUnsigned 8 bits
    if 1 ≤ bits ∧ bits ≤ 8 then return .setFrameBufferMode mode bits 0 0 else none
  | .grayscale, _ => none
  | _, [bits1, bits2, bits3] => do
    let bits1 ← parseUnsigned 8 bits1
    let bits2 ← parseUnsigned 8 bits2
    let bits3 ← parseUnsigned 8 bits3
    if 8 < bits1 ∨ 8 < bits2 ∨ 8 < bits3 then none
    else return .setFrameBufferMode mode bits1 bits2 bits3
  | _, _ => none

/-- Neighbouring values as ranges. -/
def pairs : List ℤ → Option (List (ℤ × ℤ))
  | [] => some []
  | [_] => none
  | a :: b :: rest => (pairs rest).map ((a, b) :: ·)

/-- The ranges of a frame buffer. -/
def frameBufferRange (rest : List Char) : Option Message := do
  let values ← (splitWhitespace rest).mapM Wave.parseI64
  if values.isEmpty then none else (pairs values).map .setFrameBufferRange

/-- The commands that are the same in all states. -/
def plainCommand (lib : Library) (query : List Char) : Option (Command Message) :=
  match String.ofList query with
  | "load_file" => singleWord fun word => terminal (.loadFile word .clear)
  | "create_default_config" => terminal .downloadDefaultConfig
  | "switch_file" => singleWord fun word => terminal (.loadFile word .keepAll)
  | "load_url" => singleWord fun query => terminal (.loadWaveformFileFromUrl query .clear)
  | "run_command_file" => singleWord fun word => terminal (.loadCommandFile word)
  | "run_command_file_from_url" => singleWord fun query => terminal (.loadCommandFileFromUrl query)
  | "config_reload" => terminal .reloadConfig
  | "theme_select" => singleWord fun word => terminal (.selectTheme (some (String.ofList word)))
  | "toggle_fullscreen" => terminal .toggleFullscreen
  | "toolbar_set_visible" => toolbarCommand fun groupId value =>
      match String.ofList value with
      | "true" => some (.setToolbarGroupEnabled groupId true)
      | "false" => some (.setToolbarGroupEnabled groupId false)
      | _ => none
  | "toolbar_set_row" => toolbarCommand fun groupId value =>
      (parseUnsigned 8 value).map (.setToolbarGroupRow groupId)
  | "scope_select_root" | "stream_select_root" => terminal (.setActiveScope none)
  | "remove_unavailable" => terminal (.wave .removePlaceholders)
  | "surver_select_file" => singleWord fun word =>
      terminal (.loadSurverFileByName (String.ofList word) .clear)
  | "surver_switch_file" => singleWord fun word =>
      terminal (.loadSurverFileByName (String.ofList word) .keepAll)
  | "item_set_color" => singleWord fun word =>
      terminal (.itemColorChange .currentSelection (some (String.ofList word)))
  | "item_set_background_color" => singleWord fun word =>
      terminal (.itemBackgroundColorChange .currentSelection (some (String.ofList word)))
  | "item_set_format" => singleWord fun word =>
      terminal (.variableFormatChange .currentSelection (String.ofList word))
  | "item_set_height" => singleWord fun word =>
      (lib.parseF32 word).bind fun height =>
        terminal (.itemHeightScalingFactorChange .currentSelection height)
  | "item_set_analog" => singleWord fun word =>
      match String.ofList word with
      | "off" => terminal (.setAnalogSettings .currentSelection none)
      | "step" => terminal (.setAnalogSettings .currentSelection (some ⟨.step, .viewport⟩))
      | "interpolated" =>
        terminal (.setAnalogSettings .currentSelection (some ⟨.interpolated, .viewport⟩))
      | _ => none
  | "item_unset_color" => terminal (.itemColorChange .currentSelection none)
  | "item_unset_background_color" => terminal (.itemBackgroundColorChange .currentSelection none)
  | "item_rename" => singleWord fun query => terminal (.itemNameChange none (some (String.ofList query)))
  | "variable_set_name_type" => singleWord fun word =>
      terminal (.changeVariableNameType .currentSelection
        ((VariableNameType.fromStr word).getD .local_))
  | "variable_force_name_type" => singleWord fun word =>
      terminal (.forceVariableNameTypes ((VariableNameType.fromStr word).getD .local_))
  | "item_focus" => singleWord fun word =>
      (itemIdx word).bind fun idx => terminal (.wave (.focusItem idx))
  | "transition_next" => singleWord fun word =>
      (itemIdx word).bind fun idx => terminal (.moveCursorToTransition true (some idx) false)
  | "transition_previous" => singleWord fun word =>
      (itemIdx word).bind fun idx => terminal (.moveCursorToTransition false (some idx) false)
  | "transaction_next" => terminal (.moveTransaction true)
  | "transaction_prev" => terminal (.moveTransaction false)
  | "copy_value" => singleWord fun word =>
      (itemIdx word).bind fun idx => terminal (.variableValueToClipbord (.explicit idx))
  | "preference_set_clock_highlight" => singleWord fun word =>
      terminal (.setClockHighlightType ((ClockHighlightType.fromStr word).getD .line))
  | "preference_set_hierarchy_style" => singleWord fun word =>
      terminal (.setHierarchyStyle ((HierarchyStyle.fromStr word).getD .separate))
  | "preference_set_arrow_key_bindings" => singleWord fun word =>
      terminal (.setArrowKeyBindings ((ArrowKeyBindings.fromStr word).getD .edge))
  | "item_unfocus" => terminal (.wave .unfocusItem)
  | "divider_add" => optionalSingleWord fun word =>
      terminal (.wave (.addDivider (some (String.ofList word)) none))
  | "timeline_add" => terminal (.wave (.addTimeLine none))
  | "goto_cursor" => terminal .goToCursorIfNotInView
  | "frame_buffer_set_array" => singleWord fun word =>
      terminal (.setFrameBufferArray (scopeFromHierarchyString word))
  | "frame_buffer_set_variable" => singleWord fun word =>
      terminal (.setFrameBufferVariable (VariableRef.fromHierarchyString (String.ofList word)))
  | "frame_buffer_set_mode" => word fun word =>
      let mode : Option FrameBufferColorMode :=
        match String.ofList word with
        | "grayscale" => some .grayscale
        | "rgb" => some .rgb
        | "ycbcr" => some .yCbCr
        | _ => none
      mode.bind fun mode => singleWord fun rest =>
        (frameBufferMode mode (splitWhitespace rest)).bind terminal
  | "frame_buffer_set_width" => singleWord fun word =>
      (parseUnsigned 64 word).bind fun width => terminal (.setFrameBufferWidth (max width 1))
  | "frame_buffer_set_range" => singleWord fun rest => (frameBufferRange rest).bind terminal
  | "memory_viewer_open" => singleWord fun word =>
      terminal (.openMemoryViewer (scopeFromHierarchyString word) (some (String.ofList word)))
  | "dump_tree" => terminal .dumpTree
  | "group_marked" => optionalSingleWord fun name =>
      let trimmed := trim name
      terminal (.wave (.groupNew (if trimmed.isEmpty then none else some (String.ofList trimmed)) none
        none))
  | "decoder_add" => word fun name =>
      (protocolNamed name).bind fun protocol => terminal (.wave (.decoderAdd protocol none))
  | "group_dissolve" => terminal (.wave (.groupDissolve none))
  | "group_fold_recursive" => terminal (.wave (.groupFoldRecursive none))
  | "group_unfold_recursive" => terminal (.wave (.groupUnfoldRecursive none))
  | "group_fold_all" => terminal (.wave .groupFoldAll)
  | "group_unfold_all" => terminal (.wave .groupUnfoldAll)
  | "show_controls" => terminal (.setKeyHelpVisible true)
  | "show_mouse_gestures" => terminal (.setGestureHelpVisible true)
  | "show_quick_start" => terminal (.setQuickStartVisible true)
  | "show_performance" => optionalSingleWord fun word =>
      if String.ofList word = "redraw" then
        terminal (.batch [.setPerformanceVisible true, .setContinuousRedraw true])
      else terminal (.setPerformanceVisible true)
  | "marker_set" =>
      some (.nonTerminal (.custom separateAtSpace) fun name _ => word fun timeStr =>
        (parseBigInt timeStr).bind fun time =>
          terminal (.wave (.resolveMarkerSet (String.ofList name) time)))
  | "marker_remove" => singleWord fun name => terminal (.wave (.resolveMarkerRemove (String.ofList name)))
  | "show_marker_window" => terminal (.setCursorWindowVisible true)
  | "show_logs" => terminal (.setLogsVisible true)
  | "save_state_as" => singleWord fun word => terminal (.saveStateFile (some word))
  | "load_state" => singleWord fun word => terminal (.loadStateFile (some word))
  | "viewport_add" => terminal .addViewport
  | "viewport_remove" => terminal .removeViewport
  | "viewport_set_active" => singleWord fun word =>
      (parseUnsigned 64 word).bind fun idx => terminal (.setActiveViewport idx)
  | "pause_simulation" => terminal .pauseSimulation
  | "unpause_simulation" => terminal .unpauseSimulation
  | "undo" => terminal (.wave (.undo 1))
  | "redo" => terminal (.wave (.redo 1))
  | "wcp_server_start" => terminal (.startWcpServer none false)
  | "wcp_server_stop" => terminal .stopWcpServer
  | "exit" => terminal .exit
  | _ => none

/-! ## All commands -/

/-- `get_parser`. -/
def getParser (lib : Library) (s : PromptState) : Command Message :=
  .nonTerminal .word fun query _ =>
    match String.ofList query with
    | "scroll_to_start" | "goto_start" => terminal (.goToStart s.viewportIdx)
    | "scroll_to_end" | "goto_end" => terminal (.goToEnd s.viewportIdx)
    | "zoom_in" => terminal (.canvasZoom (1 / 2) s.viewportIdx)
    | "zoom_out" => terminal (.canvasZoom 2 s.viewportIdx)
    | "zoom_fit" => terminal (.zoomToFit s.viewportIdx)
    | "zoom_to" => singleWord fun params =>
        (zoomRange lib s.timescale params).bind fun range =>
          terminal (.zoomToRange range.1 range.2 s.viewportIdx)
    | "toggle_menu" => terminal (.setMenuVisible !s.showMenu)
    | "toggle_side_panel" => terminal (.setSidePanelVisible !s.showHierarchy)
    | "toggle_tick_lines" => terminal (.setTickLines !s.showTicks)
    | "scope_add" | "module_add" | "stream_add" => singleWord fun word =>
        if s.isTransactionContainer then terminal (.addAllFromStreamScope (String.ofList word))
        else terminal (.wave (.addScope (scopeFromHierarchyString word) false))
    | "scope_add_recursive" => singleWord fun word =>
        if s.isTransactionContainer then terminal (.addAllFromStreamScope (String.ofList word))
        else terminal (.wave (.addScope (scopeFromHierarchyString word) true))
    | "scope_add_as_group" =>
      -- transaction containers are not added as groups
      if s.isTransactionContainer then none
      else singleWord fun word =>
        terminal (.wave (.addScopeAsGroup (scopeFromHierarchyString word) false))
    | "scope_add_as_group_recursive" =>
      if s.isTransactionContainer then none
      else singleWord fun word =>
        terminal (.wave (.addScopeAsGroup (scopeFromHierarchyString word) true))
    | "scope_select" | "stream_select" => singleWord fun word =>
        if s.isTransactionContainer then
          terminal (.setActiveScope (some (.streamScope
            (if String.ofList word = "tr" then .root else .empty (String.ofList word)))))
        else terminal (.setActiveScope (some (.waveScope (scopeFromHierarchyString word))))
    | "reload" => terminal (.reloadWaveform s.keepDuringReload)
    | "variable_add" | "generator_add" => singleWord fun word =>
        if s.isTransactionContainer then
          terminal (.addStreamOrGeneratorFromName none (String.ofList word))
        else
          terminal (.wave (.addVariables [VariableRef.fromHierarchyString (String.ofList word)]))
    | "variable_add_from_scope" | "generator_add_from_stream" => singleWord fun name =>
        s.activeScope.bind fun scope =>
          match scope with
          | .waveScope w => terminal (.wave (.addVariables
              [VariableRef.newWithIdAndIndex w (String.ofList name) none none]))
          | .streamScope streamScope =>
            terminal (.addStreamOrGeneratorFromName (some streamScope) (String.ofList name))
    | "goto_marker" => singleWord fun name =>
        (parseMarker name s.markers).bind fun idx => terminal (.goToMarkerPosition idx 0)
    | "cursor_set" => singleWord fun timeStr =>
        (parseTime s.timescale timeStr).bind fun time =>
          terminal (.batch [.cursorSet time, .goToCursorIfNotInView])
    | "goto_time" => singleWord fun timeStr =>
        (parseTime s.timescale timeStr).bind fun time => terminal (.goToTime (some time) 0)
    | "marker_set_at" => singleWord fun query =>
        (markerSetAt s.timescale query).bind fun args =>
          match parseMarker args.2 s.markers with
          | some id => terminal (.wave (.setMarker id args.1))
          | none => terminal (.wave (.addMarker args.1 (some (String.ofList args.2)) true))
    | "save_state" => terminal (.saveStateFile s.stateFile)
    | _ => plainCommand lib query

end CommandParser

/-!
## What commands read of the state

Most commands are parsed alike in all states. The others depend on one piece of the state or two.

* `reading`: what a command reads.
* `parseCommand_congr`: a command is parsed alike in two states in which it reads the same.
-/

namespace CommandParser

open Fzcmd Text Time

/-- What a command reads of the state. -/
inductive Reading where
  | nothing
  /-- The viewport that was active last. -/
  | viewport (idx : ℕ)
  | viewportTimescale (idx : ℕ) (timescale : Option TimeScale)
  /-- Whether the menu, the side panel or the tick lines are shown. -/
  | shown (visible : Bool)
  /-- Whether a transaction file is open. -/
  | container (isTransactions : Bool)
  | scope (activeScope : Option ScopeType)
  | keepDuringReload (keep : Bool)
  | marker (id : Option ℕ)
  | timescale (timescale : Option TimeScale)
  | timescaleMarker (timescale : Option TimeScale) (id : Option ℕ)
  | stateFile (path : Option (List Char))

/-- The reading of a command with a word, behind which there is a text. -/
def readingOf (s : PromptState) (word : String) (rest : List Char) : Reading :=
  match word with
  | "scroll_to_start" | "goto_start" | "scroll_to_end" | "goto_end" | "zoom_in" | "zoom_out"
  | "zoom_fit" => .viewport s.viewportIdx
  | "zoom_to" => .viewportTimescale s.viewportIdx s.timescale
  | "toggle_menu" => .shown s.showMenu
  | "toggle_side_panel" => .shown s.showHierarchy
  | "toggle_tick_lines" => .shown s.showTicks
  | "scope_add" | "module_add" | "stream_add" | "scope_add_recursive" | "scope_add_as_group"
  | "scope_add_as_group_recursive" | "scope_select" | "stream_select" | "variable_add"
  | "generator_add" => .container s.isTransactionContainer
  | "variable_add_from_scope" | "generator_add_from_stream" => .scope s.activeScope
  | "reload" => .keepDuringReload s.keepDuringReload
  | "goto_marker" => .marker (parseMarker rest s.markers)
  | "cursor_set" | "goto_time" => .timescale s.timescale
  | "marker_set_at" => .timescaleMarker s.timescale
      ((markerSetAt s.timescale rest).bind fun args => parseMarker args.2 s.markers)
  | "save_state" => .stateFile s.stateFile
  | _ => .nothing

/-- What a command reads. -/
def reading (lib : Library) (s : PromptState) (command : List Char) : Reading :=
  let split := splitQuery lib.isWord command .word
  readingOf s (String.ofList split.2.1) (split.2.2.2.dropWhile isWhitespace)

/-- The command behind a word, once the rest of the text is taken. -/
def commandOf (lib : Library) (s : PromptState) (query : List Char) : Option (Command Message) :=
  match getParser lib s with
  | .nonTerminal _ parsingFunction => parsingFunction query .empty
  | .terminal _ => none

/-- Of a command that takes the rest of the text only what it does with that text matters. -/
theorem parseNext_singleWord {lib : Library} {rest param : List Char}
    {f g : List Char → Option (Command Message)}
    (h : f (rest.dropWhile isWhitespace) = g (rest.dropWhile isWhitespace)) :
    parseNext lib.isWord param rest (singleWord f) =
      parseNext lib.isWord param rest (singleWord g) := by
  simp only [singleWord, parseNext, parseCommand, splitQuery]
  rw [h]

theorem parseNext_commandOf (lib : Library) {s s' : PromptState} (query rest param : List Char)
    (h : readingOf s (String.ofList query) (rest.dropWhile isWhitespace) =
      readingOf s' (String.ofList query) (rest.dropWhile isWhitespace)) :
    parseNext lib.isWord param rest (commandOf lib s query) =
      parseNext lib.isWord param rest (commandOf lib s' query) := by
  simp only [readingOf, commandOf, getParser] at h ⊢
  generalize String.ofList query = word at h ⊢
  -- one case for each group of commands
  split
  all_goals simp only [] at h ⊢
  all_goals try
    -- a piece of the state that the command has no matter what follows
    injection h with hpiece
    rw [hpiece]
    done
  case h_8 =>
    injection h with hidx htimescale
    rw [hidx, htimescale]
  case h_25 =>
    -- the marker is looked up by the name that follows
    injection h with hid
    apply parseNext_singleWord
    rw [hid]
  case h_28 =>
    injection h with htimescale hid
    apply parseNext_singleWord
    rw [htimescale] at hid ⊢
    cases hargs : markerSetAt s'.timescale (rest.dropWhile isWhitespace) with
    | none => rfl
    | some args =>
      rw [hargs, Option.bind_some, Option.bind_some] at hid
      rw [Option.bind_some, Option.bind_some, hid]

/-- A command is parsed alike in two states in which it reads the same. -/
theorem parseCommand_congr (lib : Library) {s s' : PromptState} {command : List Char}
    (h : reading lib s command = reading lib s' command) :
    parseCommand lib.isWord command (getParser lib s) =
      parseCommand lib.isWord command (getParser lib s') := by
  have hparser (s : PromptState) : parseCommand lib.isWord command (getParser lib s) =
      let split := splitQuery lib.isWord command .word
      if split.2.1.isEmpty then .error .missingParameters
      else parseNext lib.isWord split.2.1 split.2.2.2 (commandOf lib s split.2.1) := by
    rfl
  rw [hparser, hparser]
  simp only [parseNext_commandOf lib _ _ _ h]

end CommandParser
