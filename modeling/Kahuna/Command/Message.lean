import Kahuna.Numerals.Basic
import Kahuna.Text.Basic
import Kahuna.Time.Basic
import Kahuna.Wave.Names
import Kahuna.Wave.Streams

/-!
# The messages of the command prompt

The messages into which the commands of `command_parser.rs` are parsed, and the numbers, names and times
that stand in commands. The messages about the items of a waveform are those of `Wave.Message`.

The tables of Unicode and the reading of floating-point numbers belong to the standard library. They are
parameters, collected in `Library`.
-/

namespace CommandParser

open Numerals Text Time
open Wave (ScopeRef VariableRef LoadOptions MessageTarget StreamScopeRef)

/-- What is used of the standard library. -/
structure Library where
  /-- What `\w` matches. -/
  isWord : Char → Bool
  /-- `char::is_numeric`. -/
  isNumeric : Char → Bool
  /-- The bits of a floating-point number that a text gives. -/
  parseF32 : List Char → Option UInt32

/-! ## Messages -/

inductive ScopeType where
  | waveScope (scope : ScopeRef)
  | streamScope (scope : StreamScopeRef)

inductive AnalogRenderStyle where
  | step
  | interpolated

inductive AnalogYAxisScale where
  | viewport
  | global
  | typeLimits

structure AnalogSettings where
  renderStyle : AnalogRenderStyle
  yAxisScale : AnalogYAxisScale

inductive VariableNameType where
  | local_
  | unique
  | global

inductive ClockHighlightType where
  | line
  | cycle
  | none

inductive HierarchyStyle where
  | separate
  | tree
  | variables

inductive ArrowKeyBindings where
  | edge
  | scroll

inductive FrameBufferColorMode where
  | grayscale
  | rgb
  | yCbCr

/-- The messages that commands are parsed into. -/
inductive Message where
  /-- A message about the items of a waveform. -/
  | wave (message : Wave.Message)
  | loadFile (path : List Char) (options : LoadOptions)
  | loadWaveformFileFromUrl (url : List Char) (options : LoadOptions)
  | loadCommandFile (path : List Char)
  | loadCommandFileFromUrl (url : List Char)
  | loadSurverFileByName (name : String) (options : LoadOptions)
  | reloadWaveform (keepUnavailable : Bool)
  | loadStateFile (path : Option (List Char))
  | saveStateFile (path : Option (List Char))
  | downloadDefaultConfig
  | reloadConfig
  | selectTheme (theme : Option String)
  | goToStart (viewportIdx : ℕ)
  | goToEnd (viewportIdx : ℕ)
  | canvasZoom (delta : ℚ) (viewportIdx : ℕ)
  | zoomToFit (viewportIdx : ℕ)
  | zoomToRange (start stop : ℤ) (viewportIdx : ℕ)
  | goToTime (time : Option ℤ) (viewportIdx : ℕ)
  | goToCursorIfNotInView
  | goToMarkerPosition (id : ℕ) (viewportIdx : ℕ)
  | cursorSet (time : ℤ)
  | setMenuVisible (visible : Bool)
  | setSidePanelVisible (visible : Bool)
  | setTickLines (visible : Bool)
  | toggleFullscreen
  | setToolbarGroupEnabled (groupId : String) (enabled : Bool)
  | setToolbarGroupRow (groupId : String) (row : ℕ)
  | setActiveScope (scope : Option ScopeType)
  | addAllFromStreamScope (name : String)
  | addStreamOrGeneratorFromName (scope : Option StreamScopeRef) (name : String)
  | itemColorChange (target : MessageTarget) (color : Option String)
  | itemBackgroundColorChange (target : MessageTarget) (color : Option String)
  | itemNameChange (vidx : Option ℕ) (name : Option String)
  | itemHeightScalingFactorChange (target : MessageTarget) (height : UInt32)
  | variableFormatChange (target : MessageTarget) (format : String)
  | setAnalogSettings (target : MessageTarget) (settings : Option AnalogSettings)
  | changeVariableNameType (target : MessageTarget) (nameType : VariableNameType)
  | forceVariableNameTypes (nameType : VariableNameType)
  | variableValueToClipbord (target : MessageTarget)
  | moveCursorToTransition (next : Bool) (variableIdx : Option ℕ) (skipZero : Bool)
  | moveTransaction (next : Bool)
  | setClockHighlightType (type : ClockHighlightType)
  | setHierarchyStyle (style : HierarchyStyle)
  | setArrowKeyBindings (bindings : ArrowKeyBindings)
  | setFrameBufferArray (scope : ScopeRef)
  | setFrameBufferVariable (var : VariableRef)
  | setFrameBufferMode (mode : FrameBufferColorMode) (bits1 bits2 bits3 : ℕ)
  | setFrameBufferWidth (width : ℕ)
  | setFrameBufferRange (ranges : List (ℤ × ℤ))
  | openMemoryViewer (scope : ScopeRef) (name : Option String)
  | dumpTree
  | setKeyHelpVisible (visible : Bool)
  | setGestureHelpVisible (visible : Bool)
  | setQuickStartVisible (visible : Bool)
  | setPerformanceVisible (visible : Bool)
  | setContinuousRedraw (redraw : Bool)
  | setCursorWindowVisible (visible : Bool)
  | setLogsVisible (visible : Bool)
  | addViewport
  | removeViewport
  | setActiveViewport (idx : ℕ)
  | pauseSimulation
  | unpauseSimulation
  | startWcpServer (address : Option String) (initiate : Bool)
  | stopWcpServer
  | exit
  | batch (messages : List Message)

/-! ## Numbers, names and times -/

/-- Reading an unsigned integer of a number of bits. -/
def parseUnsigned (bits : ℕ) (l : List Char) : Option ℕ :=
  let digits :=
    match l with
    | '+' :: l => l
    | l => l
  (parseNat digits).filter (· < 2 ^ bits)

/-- Reading an unsigned integer without a bound, whose digits may have underscores between them. -/
def parseBigUint (l : List Char) : Option ℕ :=
  let digits :=
    match l with
    | '+' :: '+' :: _ => l
    | '+' :: l => l
    | l => l
  if digits.head? = some '_' then none else parseNat (digits.filter (· ≠ '_'))

/-- Reading an integer without a bound. -/
def parseBigInt : List Char → Option ℤ
  | '-' :: '+' :: _ => none
  | '-' :: l => (parseBigUint l).map fun n : ℕ => -(n : ℤ)
  | l => (parseBigUint l).map fun n : ℕ => (n : ℤ)

/-- The time that a text names: of a file with a timescale, or a number of ticks. -/
def parseTime (timescale : Option TimeScale) (l : List Char) : Option ℤ :=
  match timescale with
  | some timescale => parseTimeStringToTicks l timescale
  | none => parseBigInt l

/-- The words of a text. -/
def splitWhitespace (l : List Char) : List (List Char) :=
  (l.splitOnP isWhitespace).filter fun word => !word.isEmpty

/-- The number of an item, whose hexadecimal digits are written with the letters from a to p. -/
def alphaIdxToUintIdx (idx : List Char) : Option ℕ :=
  let mapped := idx.map fun c =>
    match c with
    | 'a' => '0' | 'b' => '1' | 'c' => '2' | 'd' => '3'
    | 'e' => '4' | 'f' => '5' | 'g' => '6' | 'h' => '7'
    | 'i' => '8' | 'j' => '9' | 'k' => 'a' | 'l' => 'b'
    | 'm' => 'c' | 'n' => 'd' | 'o' => 'e' | 'p' => 'f'
    | _ => '?'
  if mapped ≠ [] ∧ IsNumeral 16 mapped ∧ value 16 mapped < 2 ^ 64 then some (value 16 mapped) else none

/-- The number of the item in front of an underscore. -/
def itemIdx (word : List Char) : Option ℕ := alphaIdxToUintIdx (word.takeWhile (· ≠ '_'))

/-- The text in small letters, as which the names of alternatives are compared. -/
def lowercase (l : List Char) : String := String.ofList (l.map Char.toLower)

def VariableNameType.fromStr (l : List Char) : Option VariableNameType :=
  match lowercase l with
  | "local" => some .local_
  | "unique" => some .unique
  | "global" => some .global
  | _ => none

def ClockHighlightType.fromStr (l : List Char) : Option ClockHighlightType :=
  match lowercase l with
  | "line" => some .line
  | "cycle" => some .cycle
  | "none" => some .none
  | _ => none

def HierarchyStyle.fromStr (l : List Char) : Option HierarchyStyle :=
  match lowercase l with
  | "separate" => some .separate
  | "tree" => some .tree
  | "variables" => some .variables
  | _ => none

def ArrowKeyBindings.fromStr (l : List Char) : Option ArrowKeyBindings :=
  match lowercase l with
  | "edge" => some .edge
  | "scroll" => some .scroll
  | _ => none

/-- The protocol with a name. -/
def protocolNamed (l : List Char) : Option Decoders.Protocol :=
  match lowercase l with
  | "spi" => some .spi
  | "i2c" => some .i2c
  | "uart" => some .uart
  | _ => none

/-- `ScopeRef::from_hierarchy_string`. -/
def scopeFromHierarchyString (l : List Char) : ScopeRef :=
  { strs := (l.splitOn '.').map String.ofList, id := none }

/-- The ids of `TOOLBAR_GROUP_SPECS`. -/
def toolbarGroupIds : List String :=
  ["menu", "files", "copy", "zoom", "navigation", "transitions", "add_items", "viewports", "undo",
    "cxxrtl", "time", "annotations"]

end CommandParser
