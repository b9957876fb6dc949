import Kahuna.Wave.Update

/-!
# Transaction streams

The model of `transactions.rs`, of the stream operations of `wave_data.rs` and of
`on_transaction_streams_loaded` of `state.rs`. A file with transaction streams takes the place of a
waveform, so the state of the program is that of `Wave.SystemState` with a file next to it.

Files are read by the `ftr_parser` library, which is a parameter here. Left out are the rows that the
transactions of a stream are drawn in.
-/

namespace Wave

open ItemTree

/-- A stream, as the library reports it. -/
structure TxStream where
  id : ℕ
  name : String
  /-- The numbers of its generators. -/
  generators : List ℕ
  transactionsLoaded : Bool

/-- A generator of transactions, as the library reports it. -/
structure TxGenerator where
  id : ℕ
  streamId : ℕ
  name : String
  /-- Whether none of its transactions are in memory. -/
  isEmpty : Bool

/-- The `ftr_parser` library, for files of type `F`. -/
structure FtrParser (F : Type) where
  streams : F → List TxStream
  getStream : F → ℕ → Option TxStream
  getStreamFromName : F → String → Option TxStream
  getGenerator : F → ℕ → Option TxGenerator
  getGeneratorFromName : F → Option ℕ → String → Option TxGenerator
  /-- Whether loading succeeded, and the file with what is in memory then. -/
  loadStreamIntoMemory : F → ℕ → Bool × F

/-- A reference to a stream, or to a generator if `genId` is there. -/
structure TransactionStreamRef where
  streamId : ℕ
  genId : Option ℕ
  name : String

/-- A scope of the side panel. -/
inductive StreamScopeRef where
  | root
  | stream (ref : TransactionStreamRef)
  | empty (name : String)

namespace WaveData

variable {F : Type} (ftr : FtrParser F)

/-- The item of a stream or generator is inserted at the focus. -/
def insertStream (t : F) (w : WaveData) (name : String) : Run (F × WaveData) := do
  let (_, w) ← w.insertItem (.stream name) none true
  return (t, w)

/-- `add_generator`, whose transactions are loaded first. -/
def addGenerator (t : F) (w : WaveData) (genRef : TransactionStreamRef) : Run (F × WaveData) :=
  match genRef.genId with
  | none => .ok (t, w)
  | some genId =>
    match ftr.getGenerator t genId with
    | none => .ok (t, w)
    | some generator =>
      let (loaded, t) :=
        if generator.isEmpty then ftr.loadStreamIntoMemory t genRef.streamId else (true, t)
      if loaded && (ftr.getGenerator t genId).isSome then w.insertStream t genRef.name
      else .ok (t, w)

/-- `add_stream`, whose transactions are loaded first. -/
def addStream (t : F) (w : WaveData) (streamRef : TransactionStreamRef) : Run (F × WaveData) :=
  match ftr.getStream t streamRef.streamId with
  | none => .error .unwrap
  | some stream =>
    let (loaded, t) :=
      if stream.transactionsLoaded then (true, t)
      else ftr.loadStreamIntoMemory t streamRef.streamId
    if !loaded then .ok (t, w)
    else
      match ftr.getStream t streamRef.streamId with
      | none => .error .unwrap
      | some stream =>
        -- the rows of each generator are counted
        if stream.generators.all fun genId => (ftr.getGenerator t genId).isSome then
          w.insertStream t streamRef.name
        else .error .unwrap

/-- Add the members of a list, one after the other. -/
def addEach (add : F → WaveData → TransactionStreamRef → Run (F × WaveData)) :
    List TransactionStreamRef → F → WaveData → Run (F × WaveData)
  | [], t, w => .ok (t, w)
  | ref :: rest, t, w => do
    let (t, w) ← add t w ref
    addEach add rest t w

/-- The references, sorted by name. -/
def sortedByName (env : Env) (refs : List TransactionStreamRef) : List TransactionStreamRef :=
  refs.insertionSort fun a b => env.numericLe a.name b.name

/-- `add_all_streams`. -/
def addAllStreams (env : Env) (t : F) (w : WaveData) : Run (F × WaveData) :=
  let refs := (ftr.streams t).map fun stream =>
    { streamId := stream.id, genId := none, name := stream.name }
  addEach (addStream ftr) (sortedByName env refs) t w

/-- The reference to a generator. -/
def generatorRef (generator : TxGenerator) : TransactionStreamRef :=
  { streamId := generator.streamId, genId := some generator.id, name := generator.name }

/-- `add_stream_or_generator_from_name`. -/
def addStreamOrGeneratorFromName (t : F) (w : WaveData) (scope : Option StreamScopeRef)
    (name : String) : Run (F × WaveData) :=
  match scope with
  | some .root =>
    match ftr.getStreamFromName t name with
    | none => .ok (t, w)
    | some stream =>
      addStream ftr t w { streamId := stream.id, genId := none, name := stream.name }
  | some (.stream stream) =>
    match ftr.getGeneratorFromName t (some stream.streamId) name with
    | none => .ok (t, w)
    | some generator => addGenerator ftr t w (generatorRef generator)
  | some (.empty _) => .ok (t, w)
  | none =>
    match ftr.getGeneratorFromName t none name with
    | none => .ok (t, w)
    | some generator => addGenerator ftr t w (generatorRef generator)

/-- `add_all_from_stream_scope`: all streams, or the generators of one. -/
def addAllFromStreamScope (env : Env) (t : F) (w : WaveData) (scopeName : String) :
    Run (F × WaveData) :=
  if scopeName = "tr" then addAllStreams ftr env t w
  else
    match ftr.getStreamFromName t scopeName with
    | none => .ok (t, w)
    | some stream =>
      let generators := stream.generators.map (ftr.getGenerator t)
      if generators.all Option.isSome then
        let refs := generators.reduceOption.map generatorRef
        addEach (addGenerator ftr) (sortedByName env refs) t w
      else .error .unwrap

end WaveData

/-! ## Sessions -/

/-- The state of the program with the file of transaction streams that is loaded in place of a
waveform. The container of the waveform data means nothing then. -/
structure Session (F : Type) where
  state : SystemState
  transactions : Option F

/-- The messages, those about transaction streams included. -/
inductive SessionMessage (F : Type) where
  | wave (message : Message)
  | addStreamOrGenerator (ref : TransactionStreamRef)
  | addStreamOrGeneratorFromName (scope : Option StreamScopeRef) (name : String)
  | addAllFromStreamScope (scopeName : String)
  | transactionStreamsLoaded (newFtr : F)

namespace Session

variable {F : Type} (ftr : FtrParser F) (env : Env)

/-- The container that stands for no waveform. -/
def noWaveform : WaveContainer := { hierarchy := .flat [], signals _ := none }

/-- A session with a waveform that was just loaded. -/
def fresh (inner : WaveContainer) : Session F :=
  { state := SystemState.fresh inner, transactions := none }

/-- Save the canvas, then change the waveform data and the file. Without a file only the canvas was
saved, unless the operation needs one. -/
def edit (s : Session F) (text : String) (needsFile : Bool)
    (f : F → WaveData → Run (F × WaveData)) : Run (Session F) :=
  let σ := s.state.saveCurrentCanvas env text
  match σ.user.waves, s.transactions with
  | none, _ => .ok { s with state := σ }
  | some _, none => if needsFile then .error .unwrap else .ok { s with state := σ }
  | some w, some t => do
    let (t, w) ← f t w
    return { state := { σ with user := { σ.user with waves := some w } }, transactions := some t }

/-- `Message::AddStreamOrGenerator`. -/
def addStreamOrGenerator (s : Session F) (ref : TransactionStreamRef) : Run (Session F) :=
  match ref.genId with
  | some genId =>
    s.edit env ("Add generator(id: " ++ toString genId ++ ")") false fun t w =>
      w.addGenerator ftr t ref
  | none =>
    s.edit env ("Add stream(id: " ++ toString ref.streamId ++ ")") true fun t w =>
      w.addStream ftr t ref

/-- `on_transaction_streams_loaded`. -/
def onTransactionStreamsLoaded (s : Session F) (newFtr : F) : Session F :=
  let w := { WaveData.loaded noWaveform with annotationCounter := 1 }
  { state := { s.state with user := { s.state.user with waves := some w } }
    transactions := some newFtr }

/-- A message to a session without a waveform. Those that read the waveform panic, but adding a scope
as a group does nothing. -/
def updateStreams (s : Session F) (t : F) (message : Message) : Run (Session F) :=
  let keep : Run (Session F) := do
    let σ ← s.state.update env message
    return { state := σ, transactions := some t }
  match message with
  | .addVariables vars => if vars = [] then .ok s else .error .unwrap
  | .addScope .. | .addDraggedVariables _ => .error .unwrap
  | .addScopeAsGroup scope _ =>
    .ok { s with
      state := s.state.saveCurrentCanvas env ("Add scope " ++ scope.name ++ " as group") }
  | .loadState loaded => if loaded.waves.isSome then .error .unwrap else keep
  | .wavesLoaded newWaves loadOptions => do
    let σ ← s.state.onWavesLoaded newWaves loadOptions
    return { state := σ, transactions := none }
  | _ => keep

/-- `SystemState::update`, with the messages about transaction streams. -/
def update (s : Session F) (message : SessionMessage F) : Run (Session F) :=
  match message with
  | .wave message =>
    match s.transactions with
    | some t => s.updateStreams env t message
    | none => do
      let σ ← s.state.update env message
      return { state := σ, transactions := none }
  | .addStreamOrGenerator ref => s.addStreamOrGenerator ftr env ref
  | .addStreamOrGeneratorFromName scope name =>
    s.edit env ("Add Stream/Generator from name: " ++ name) false fun t w =>
      w.addStreamOrGeneratorFromName ftr t scope name
  | .addAllFromStreamScope scopeName =>
    s.edit env ("Add all from scope " ++ scopeName) (scopeName = "tr") fun t w =>
      w.addAllFromStreamScope ftr env t scopeName
  | .transactionStreamsLoaded newFtr => .ok (s.onTransactionStreamsLoaded newFtr)

end Session

end Wave
