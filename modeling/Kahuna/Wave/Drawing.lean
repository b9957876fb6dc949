import Kahuna.Wave.Update

/-!
# Drawing decoder rows

The model of `decoder_draw_commands` and `bit_lane_for` (`drawing_canvas.rs`) and of the decode cache
(`decoders/mod.rs`). Rows of one decoder are decoded once between them, and the result is kept as long
as its key compares equal.

The pixels are a function of the lanes that are drawn, so what is drawn is, for each row, its lane.
-/

namespace Wave

open ItemTree Decoders

/-! ## Lanes -/

/-- `char::is_whitespace`, the Unicode property `White_Space`. -/
def isWhitespace (c : Char) : Bool :=
  let n := c.toNat
  0x9 ≤ n && n ≤ 0xD || 0x2000 ≤ n && n ≤ 0x200A ||
    [0x20, 0x85, 0xA0, 0x1680, 0x2028, 0x2029, 0x202F, 0x205F, 0x3000].contains n

/-- `str::trim`. -/
def trim (text : String) : List Char :=
  ((text.toList.dropWhile isWhitespace).reverse.dropWhile isWhitespace).reverse

/-- The bit of a value. Anything that is not a clean single-bit 0 or 1 is invalid. -/
def VariableValue.toBit (value : VariableValue) : Bit :=
  match value with
  | .bigUint v => if v = 0 then .zero else if v = 1 then .one else .invalid
  | .string s => if trim s = ['0'] then .zero else if trim s = ['1'] then .one else .invalid

namespace WaveContainer

/-- The transitions of a signal, if it is loaded. -/
def bitLane (c : WaveContainer) (s : SignalRef) : Option BitLane :=
  (c.signals s).map fun changes => { changes := changes.map fun change => (change.1, change.2.toBit) }

/-- The signals behind a list of bindings, as `signal_id` finds them. -/
def boundSignals (c : WaveContainer) : List (Option VariableRef) → Run (List (Option SignalRef))
  | [] => .ok []
  | none :: rest => (none :: ·) <$> c.boundSignals rest
  | some r :: rest => do
    let s ← c.signalRef r
    let signals ← c.boundSignals rest
    return s :: signals

/-- Which of the signals are loaded. -/
def loadedFlags (c : WaveContainer) (signals : List (Option SignalRef)) : List Bool :=
  signals.map fun s => s.any c.isSignalLoaded

/-- `bit_lane_for` for each of the signals. -/
def lanes (c : WaveContainer) (signals : List (Option SignalRef)) : List (Option BitLane) :=
  signals.map fun s => s.bind c.bitLane

/-- `on_signals_loaded` for one signal. -/
def signalLoaded (c : WaveContainer) (s : SignalRef) (changes : List (UInt64 × VariableValue)) :
    WaveContainer :=
  { c with signals := fun s' => if s' = s then some changes else c.signals s' }

end WaveContainer

/-! ## The cache -/

/-- What a decode result is meant to depend on. -/
structure DecodeKey where
  generation : ℕ
  settings : DecoderSettings
  bindings : RoleBindings
  /-- Whether each bound signal had data available when the decode ran. -/
  loaded : List Bool
  deriving DecidableEq, Repr

/-- The derived comparison, which compares the bindings as references are compared. -/
def DecodeKey.eq (a b : DecodeKey) : Bool :=
  a.generation == b.generation && a.settings == b.settings && a.bindings.eq b.bindings &&
    a.loaded == b.loaded

/-- A decode result together with the inputs it was produced from. -/
structure CachedDecode where
  key : DecodeKey
  lanes : List DecodedLane
  deriving DecidableEq, Repr

/-- `is_valid_for`. -/
def CachedDecode.isValidFor (e : CachedDecode) (key : DecodeKey) : Bool := e.key.eq key

/-- The cached results, by decoder. -/
abbrev DecodeCache := FiniteMap DecoderInstance CachedDecode

/-- What is drawn: rows with the lanes they show. -/
abbrev Drawn := List (DisplayedItemRef × DecodedLane)

namespace WaveData

/-- A decoder row with the reference of its item. -/
abbrev Row := DisplayedItemRef × DisplayedDecoder

/-- The visible decoder rows. -/
def decoderRows (w : WaveData) : List Row :=
  w.itemsTree.iterVisible.filterMap fun node =>
    match w.displayedItems.get node.itemRef with
    | some (.decoder d) => some (node.itemRef, d)
    | _ => none

/-- The decoders of some rows. -/
def instances (rows : List Row) : List DecoderInstance := (rows.map (·.2.instance_)).eraseDups

/-- The rows of one decoder. -/
def rowsOf (rows : List Row) (i : DecoderInstance) : List Row := rows.filter (·.2.instance_ == i)

/-- The key of a decoder with settings and bindings that are bound to `signals`. -/
def decodeKey (w : WaveData) (settings : DecoderSettings) (bindings : RoleBindings)
    (signals : List (Option SignalRef)) : DecodeKey :=
  { generation := w.cacheGeneration
    settings
    bindings
    loaded := w.inner.loadedFlags signals }

/-- The result of decoding the signals. -/
def freshDecode (w : WaveData) (settings : DecoderSettings) (bindings : RoleBindings)
    (signals : List (Option SignalRef)) : CachedDecode :=
  { key := w.decodeKey settings bindings signals
    lanes := settings.decode (w.inner.lanes signals) }

/-- The cached result of a decoder if its key compares equal, otherwise a fresh one. -/
def fetchDecode (w : WaveData) (cache : DecodeCache) (i : DecoderInstance)
    (settings : DecoderSettings) (bindings : RoleBindings) (signals : List (Option SignalRef)) :
    CachedDecode × DecodeCache :=
  let key := w.decodeKey settings bindings signals
  cache.fetch (·.isValidFor key) i (w.freshDecode settings bindings signals)

/-- The rows of a decoder that show a lane of the result. -/
def drawRows (rows : List Row) (lanes : List DecodedLane) : Drawn :=
  rows.filterMap fun row => (lanes[row.2.lane]?).map fun lane => (row.1, lane)

/-- One round of `decoder_draw_commands`. The first row stands for all rows of the decoder, since
they carry the same settings and bindings. -/
def drawInstance (w : WaveData) (rows : List Row) (i : DecoderInstance) (cache : DecodeCache) :
    Run (Drawn × DecodeCache) :=
  match rowsOf rows i with
  | [] => .ok ([], cache)
  | (itemRef, first) :: rest => do
    let signals ← w.inner.boundSignals first.bindings.signals
    let (entry, cache) := w.fetchDecode cache i first.settings first.bindings signals
    return (drawRows ((itemRef, first) :: rest) entry.lanes, cache)

/-- The loop of `decoder_draw_commands` over the decoders. -/
def drawInstances (w : WaveData) (rows : List Row) :
    List DecoderInstance → DecodeCache → Run (Drawn × DecodeCache)
  | [], cache => .ok ([], cache)
  | i :: rest, cache => do
    let (drawn, cache) ← w.drawInstance rows i cache
    let (drawnRest, cache) ← w.drawInstances rows rest cache
    return (drawn ++ drawnRest, cache)

/-- `decoder_draw_commands`. Decoders that have been removed do not keep their results alive. -/
def decoderDrawCommands (w : WaveData) (cache : DecodeCache) : Run (Drawn × DecodeCache) :=
  let rows := w.decoderRows
  w.drawInstances rows (instances rows) (cache.retain fun i => (instances rows).contains i)

end WaveData

/-! ## Messages, arriving signals and draws -/

/-- The state of the program with the decode cache. -/
structure DrawState where
  system : SystemState
  cache : DecodeCache
  /-- History: whether a file was loaded that keeps no items, and nothing was drawn since. -/
  replaced : Bool

/-- What happens between the start of the program and a frame. -/
inductive DrawEvent where
  | message (m : Message)
  | signalLoaded (s : SignalRef) (changes : List (UInt64 × VariableValue))
  | draw

namespace DrawState

/-- The state after a first waveform was loaded. -/
def fresh (inner : WaveContainer) : DrawState :=
  { system := .fresh inner, cache := .empty, replaced := false }

/-- Whether a message loads a file that keeps no items. -/
def replaces (m : Message) : Bool :=
  match m with
  | .wavesLoaded _ .clear => true
  | _ => false

/-- Draw a frame. -/
def draw (s : DrawState) : Run DrawState :=
  match s.system.user.waves with
  | none => .ok s
  | some w => do
    let (_, cache) ← w.decoderDrawCommands s.cache
    return { s with cache, replaced := false }

/-- One event. -/
def step (env : Env) (s : DrawState) (event : DrawEvent) : Run DrawState :=
  match event with
  | .message m => do
    let system ← s.system.update env m
    return { s with system, replaced := s.replaced || replaces m }
  | .signalLoaded id changes => do
    let system ← s.system.onWaves fun w => .ok { w with inner := w.inner.signalLoaded id changes }
    return { s with system }
  | .draw => s.draw

end DrawState

end Wave
