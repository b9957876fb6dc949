import Kahuna.Leb128.Basic
import Kahuna.Remote.Client

/-!
# The signals of a server

A client asks a server for signals in batches, and puts the answers together. The server is any of its states
whenever it answers.

- `readSignals_signalsBody`: what a server writes is read back.
- `fetched_mapM`: what comes of fetching batches one after the other.
- `getSignals_in_order`: the batches, their URLs, and the order of the signals.
-/

namespace Remote

open Numerals Surver Text Transition
open Wave (SignalRef)
open Wellen (Signal)

/-! ## The bodies -/

section

variable {format : Format} (hformat : format.Lawful)

include hformat

/-- Signals are read as they were written. -/
theorem readMany_flatten {signals : List Signal} {parts : List (List UInt8)}
    (hparts : signals.mapM (fun signal => format.serialize (format.compress signal)) = .ok parts)
    (out : List Signal) (rest : List UInt8) :
    readMany format signals.length out (parts.flatten ++ rest) = .ok (out ++ signals, rest) := by
  induction signals generalizing out parts with
  | nil =>
    cases hparts
    rw [List.append_nil]
    rfl
  | cons signal signals ih =>
    rw [List.mapM_cons, Except.bind_eq_ok] at hparts
    obtain ⟨part, hpart, hparts⟩ := hparts
    obtain ⟨parts, hrest, hall⟩ := Except.bind_eq_ok.1 hparts
    cases hall
    have hread := hformat.deserializeFrom_append hpart (parts.flatten ++ rest)
    rw [List.flatten_cons, List.append_assoc, List.length_cons, readMany, hread]
    simp only [bind, Except.bind, hformat.uncompress_compress]
    rw [ih hrest, List.append_assoc]
    rfl

/-- What a server writes is read back. -/
theorem readSignals_signalsBody {signals : List Signal} (hne : signals ≠ [])
    (hlength : signals.length < 2 ^ 64) {body : List UInt8}
    (hbody : signalsBody format signals.length signals = .ok body) :
    readSignals format signals.length body = .ok signals := by
  -- the client reads the last signal with what is left of the body
  obtain ⟨init, last, rfl⟩ := (List.eq_nil_or_concat' signals).resolve_left hne
  obtain ⟨parts, hparts, hbytes⟩ := Except.bind_eq_ok.1 hbody
  rw [List.mapM_append, Except.bind_eq_ok] at hparts
  obtain ⟨front, hfront, hparts⟩ := hparts
  obtain ⟨back, hback, hall⟩ := Except.bind_eq_ok.1 hparts
  rw [List.mapM_cons, List.mapM_nil, Except.bind_eq_ok] at hback
  obtain ⟨part, hpart, hsingle⟩ := hback
  cases hsingle
  cases hall
  cases hbytes
  have hcount : (UInt64.ofNat (init ++ [last]).length).toNat = (init ++ [last]).length :=
    UInt64.toNat_ofNat_of_lt' hlength
  have hsome : UInt64.ofNat (init ++ [last]).length ≠ 0 := by
    intro h
    rw [h] at hcount
    simp at hcount
  have hmany : readMany format ((init ++ [last]).length - 1) [] (front ++ [part]).flatten =
      .ok (init, part) := by
    have hread := readMany_flatten hformat hfront [] part
    simpa using hread
  rw [readSignals, hformat.readUnsigned_append]
  simp only [bind, Except.bind, hcount, lt_irrefl, if_false, hsome, pure, Except.pure, hmany,
    hformat.deserializeLast_serialize hpart, hformat.uncompress_compress]

end

/-! ## The session -/

section

variable {α β : Type} {x : Session α} {f : α → Session β} {requested requested' : List (List Char)}

theorem run_bind_ok {a : α} (h : x.run.run requested = (.ok a, requested')) :
    (x >>= f).run.run requested = (f a).run.run requested' := by
  simp only [ExceptT.run_bind, StateT.run_bind, h]
  rfl

theorem run_bind_error {e : String} (h : x.run.run requested = (.error e, requested')) :
    (x >>= f).run.run requested = (.error e, requested') := by
  simp only [ExceptT.run_bind, StateT.run_bind, h]
  rfl

end

section

variable {β : Type} {fetch : β → Session (List Signal)} {url : β → List Char}
  {receive : List (List Char) → β → Except String (List Signal)}

/-- What comes of fetching one batch after the other: the results, and the URLs that were requested. -/
structure Fetched (url : β → List Char) (receive : List (List Char) → β → Except String (List Signal))
    (requested : List (List Char)) (batches : List β)
    (outcome : Except String (List (List Signal)) × List (List Char)) : Prop where
  /-- The batches are asked for in their order. -/
  requested_prefix : outcome.2 <+: requested ++ batches.map url
  /-- When all is well, all of them were asked for. -/
  requested_eq : ∀ {results}, outcome.1 = .ok results → outcome.2 = requested ++ batches.map url
  received : ∀ {results}, outcome.1 = .ok results →
    List.Forall₂ (fun batch result => ∃ before, receive before batch = .ok result) batches results
  /-- All is well if every batch is answered. -/
  succeeds : (∀ batch ∈ batches, ∀ before, ∃ result, receive before batch = .ok result) →
    ∃ results, outcome.1 = .ok results

/-- To fetch a batch is to request its URL. -/
theorem fetched_mapM
    (hfetch : ∀ batch requested,
      (fetch batch).run.run requested = (receive requested batch, requested ++ [url batch]))
    (requested : List (List Char)) (batches : List β) :
    Fetched url receive requested batches ((batches.mapM fetch).run.run requested) := by
  induction batches generalizing requested with
  | nil =>
    have hrun : (([] : List β).mapM fetch).run.run requested = (.ok [], requested) := rfl
    rw [hrun]
    refine ⟨by simp, by simp, ?_, fun _ => ⟨[], rfl⟩⟩
    intro results hok
    cases hok
    exact .nil
  | cons batch batches ih =>
    have hall : requested ++ (batch :: batches).map url = (requested ++ [url batch]) ++ batches.map url := by
      simp
    cases hbatch : receive requested batch with
    | error e =>
      -- the batches behind it are not asked for
      have hrun : ((batch :: batches).mapM fetch).run.run requested =
          (.error e, requested ++ [url batch]) := by
        rw [List.mapM_cons]
        exact run_bind_error (by rw [hfetch, hbatch])
      rw [hrun]
      refine ⟨?_, by simp, by simp, fun h => ?_⟩
      · rw [hall]
        exact List.prefix_append _ _
      · obtain ⟨result, hresult⟩ := h batch List.mem_cons_self requested
        rw [hbatch] at hresult
        cases hresult
    | ok result =>
      have hrest := ih (requested ++ [url batch])
      have hrun : ((batch :: batches).mapM fetch).run.run requested =
          ((result :: ·) <$> ((batches.mapM fetch).run.run (requested ++ [url batch])).1,
            ((batches.mapM fetch).run.run (requested ++ [url batch])).2) := by
        have hfirst : (fetch batch).run.run requested = (.ok result, requested ++ [url batch]) := by
          rw [hfetch, hbatch]
        rw [List.mapM_cons, run_bind_ok hfirst]
        cases hall : (batches.mapM fetch).run.run (requested ++ [url batch]) with
        | mk outcome log =>
          cases outcome with
          | error e => exact run_bind_error hall
          | ok results => exact run_bind_ok hall
      rw [hrun]
      refine ⟨?_, ?_, ?_, ?_⟩
      · rw [hall]
        exact hrest.requested_prefix
      · intro results hok
        obtain ⟨rest, hok, -⟩ := Except.map_eq_ok.1 hok
        rw [hall]
        exact hrest.requested_eq hok
      · intro results hok
        obtain ⟨rest, hrestok, rfl⟩ := Except.map_eq_ok.1 hok
        exact .cons ⟨requested, hbatch⟩ (hrest.received hrestok)
      · intro h
        rw [List.forall_mem_cons] at h
        obtain ⟨results, hok⟩ := hrest.succeeds h.2
        refine ⟨result :: results, ?_⟩
        rw [hok]
        rfl

end

/-- The signals of a batch, when some URLs were requested. -/
def receive (format : Format) (versions : Versions) (network : Network) (baseUrl : List Char)
    (requested : List (List Char)) (signals : List SignalRef) : Except String (List Signal) := do
  let response ← network requested (formatSignalUrl format baseUrl signals)
  checkResponse versions baseUrl response
  readSignals format signals.length response.body

theorem run_request (network : Network) (url : List Char) (requested : List (List Char)) :
    (request network url).run.run requested = (network requested url, requested ++ [url]) := rfl

theorem run_getSignalsBatch (format : Format) (versions : Versions) (network : Network) (baseUrl : List Char)
    (signals : List SignalRef) (requested : List (List Char)) :
    (getSignalsBatch format versions network baseUrl signals).run.run requested =
      (receive format versions network baseUrl requested signals,
        requested ++ [formatSignalUrl format baseUrl signals]) := by
  unfold getSignalsBatch receive
  have hrequest := run_request network (formatSignalUrl format baseUrl signals) requested
  cases hresponse : network requested (formatSignalUrl format baseUrl signals) with
  | error e =>
    rw [hresponse] at hrequest
    exact run_bind_error hrequest
  | ok response =>
    rw [hresponse] at hrequest
    exact run_bind_ok hrequest

/-- The batches are fetched one after the other, and their signals are put together. -/
theorem getSignals_eq_mapM (format : Format) (versions : Versions) (network : Network) (server : List Char)
    (signals : List SignalRef) (maxUrlLength : UInt16) (fileIndex : UInt64) :
    getSignals format versions network server signals maxUrlLength fileIndex =
      (do
        let results ← (batches format server signals maxUrlLength fileIndex).mapM
          (getSignalsBatch format versions network (baseUrl server fileIndex))
        return results.flatten) := by
  unfold getSignals
  split
  next hempty =>
    rw [List.isEmpty_iff.1 hempty]
    rfl
  next =>
    exact foldlM_addSignal format _ _
      (getSignalsBatch format versions network (baseUrl server fileIndex)) signals
      { allResults := [], currentBatch := [], currentUrlLen := String.utf8Len (baseUrl server fileIndex) } rfl

/-! ## Requests and answers -/

/-- The texts by which the signals of a batch are asked for. -/
def idStrings (format : Format) (batch : List SignalRef) : List (List Char) :=
  batch.map fun signal => Nat.toDigits 10 (format.index signal).toNat

theorem notMem_of_mem_idStrings {format : Format} {batch : List SignalRef} {idStr : List Char}
    (h : idStr ∈ idStrings format batch) : '/' ∉ idStr := by
  obtain ⟨signal, -, rfl⟩ := List.mem_map.1 h
  exact not_mem_toDigits rfl _

theorem formatSignalUrl_eq_flatMap (format : Format) (baseUrl : List Char) (batch : List SignalRef) :
    formatSignalUrl format baseUrl batch = baseUrl ++ (idStrings format batch).flatMap ('/' :: ·) := by
  rw [formatSignalUrl_eq, idStrings, List.flatMap_map]
  rfl

/-- The parts of the URL of a batch. -/
theorem splitOn_formatSignalUrl (format : Format) (server : List Char) (fileIndex : UInt64)
    (batch : List SignalRef) :
    (formatSignalUrl format (baseUrl server fileIndex) batch).splitOn '/' =
      server.splitOn '/' ++
        Nat.toDigits 10 fileIndex.toNat :: "get_signals".toList :: idStrings format batch := by
  have hparts : ∀ part ∈ Nat.toDigits 10 fileIndex.toNat :: "get_signals".toList :: idStrings format batch,
      '/' ∉ part := by
    simp only [List.forall_mem_cons]
    exact ⟨not_mem_toDigits rfl _, by decide, fun _ => notMem_of_mem_idStrings⟩
  have hsplit := splitOn_append_flatMap '/' server hparts
  rw [formatSignalUrl_eq_flatMap]
  simpa [baseUrl] using hsplit

/-- The URL of a batch is the address of the server and the path. -/
theorem formatSignalUrl_eq_signalsPath (format : Format) (origin token : List Char) (fileIndex : UInt64)
    (batch : List SignalRef) :
    formatSignalUrl format (baseUrl (origin ++ '/' :: token) fileIndex) batch =
      origin ++ signalsPath token fileIndex (idStrings format batch) := by
  rw [formatSignalUrl_eq_flatMap, baseUrl, signalsPath]
  simp

/-- A server that has the file takes the path of a batch for a request for its signals. -/
theorem handle_batch {n : ℕ} {token : List Char} {fileIndex : UInt64} (format : Format)
    (batch : List SignalRef) (htoken : '/' ∉ token) (hfile : fileIndex.toNat < n) :
    handle n token (signalsPath token fileIndex (idStrings format batch)) =
      .signals ⟨fileIndex.toNat, hfile⟩ (idStrings format batch) := by
  rw [handle_signalsPath n token fileIndex fun _ => notMem_of_mem_idStrings, if_neg htoken, dif_pos hfile]

/-- The network brings the requests for signals to a server with some files, which answers each of them in one
of its states. -/
def Serves (network : Network) (format : Format) (versions : Versions) (n : ℕ) (origin token : List Char) :
    Prop :=
  ∀ requested path fileIndex idStrings response,
    handle n token path = .signals fileIndex idStrings → network requested (origin ++ path) = .ok response →
    ∃ s : Server n, Reachable Server.step (fun _ _ => True) (Server.new n) s ∧
      answer format versions token s path = some response

/-- The headers of an answer are those that the client looks for. -/
theorem checkResponse_buildResponse (clientVersions serverVersions : Versions) (serverUrl : List Char)
    (status : ℕ) (contentType : String) (body : List UInt8)
    (h : serverVersions.wellen = clientVersions.wellen) :
    checkResponse clientVersions serverUrl (buildResponse serverVersions status contentType body) =
      .ok () := by
  simp [checkResponse, buildResponse, List.lookup_cons, h, bind, Except.bind, pure, Except.pure]

section

variable {format : Format} {clientVersions serverVersions : Versions} {network : Network} {n : ℕ}
  {origin token : List Char} {fileIndex : UInt64} {batch : List SignalRef} {requested : List (List Char)}

variable (hformat : format.Lawful) (hserves : Serves network format serverVersions n origin token)
  (htoken : '/' ∉ token) (hfile : fileIndex.toNat < n) (hne : batch ≠ []) (hlength : batch.length < 2 ^ 64)
  (hrefs : ∀ signal ∈ batch, format.fromIndex (format.index signal) = some signal)

include hformat hserves htoken hfile hne hlength hrefs

/-- A batch that is answered gives its signals, in their order. -/
theorem response_of_serves {response : HttpResponse}
    (hresponse : network requested
      (formatSignalUrl format (baseUrl (origin ++ '/' :: token) fileIndex) batch) = .ok response) :
    ∃ signals body, signals.map Signal.signalRef = batch ∧
      response = buildResponse serverVersions 200 "application/octet-stream" body ∧
      readSignals format batch.length body = .ok signals := by
  have htarget := handle_batch format batch htoken hfile
  rw [formatSignalUrl_eq_signalsPath] at hresponse
  obtain ⟨s, hs, hanswer⟩ := hserves _ _ _ _ _ htarget hresponse
  obtain ⟨signals, body, hasked, hbody, heq⟩ :=
    signals_of_answer hs hne htarget (parseIds_toDigits hrefs) hanswer
  have hcount : signals.length = batch.length := by
    rw [← hasked, List.length_map]
  have hsome : signals ≠ [] := by
    rintro rfl
    exact hne hasked.symm
  have hread := readSignals_signalsBody hformat hsome (hcount ▸ hlength) hbody
  rw [hcount] at hread
  exact ⟨signals, body, hasked, heq, hread⟩

/-- What is received for a batch is in the order of the batch. -/
theorem map_signalRef_of_receive {result : List Signal}
    (hresult : receive format clientVersions network (baseUrl (origin ++ '/' :: token) fileIndex) requested
      batch = .ok result) :
    result.map Signal.signalRef = batch := by
  obtain ⟨response, hresponse, hchecked⟩ := Except.bind_eq_ok.1 hresult
  obtain ⟨-, -, hread⟩ := Except.bind_eq_ok.1 hchecked
  obtain ⟨signals, body, hasked, rfl, hsignals⟩ :=
    response_of_serves hformat hserves htoken hfile hne hlength hrefs hresponse
  cases hread.symm.trans hsignals
  exact hasked

/-- A batch that is answered is received, if the versions of wellen are the same. -/
theorem exists_receive (hversions : serverVersions.wellen = clientVersions.wellen) {response : HttpResponse}
    (hresponse : network requested
      (formatSignalUrl format (baseUrl (origin ++ '/' :: token) fileIndex) batch) = .ok response) :
    ∃ result, receive format clientVersions network (baseUrl (origin ++ '/' :: token) fileIndex) requested
      batch = .ok result := by
  obtain ⟨signals, body, -, rfl, hsignals⟩ :=
    response_of_serves hformat hserves htoken hfile hne hlength hrefs hresponse
  refine ⟨signals, Except.bind_eq_ok.2 ⟨_, hresponse, Except.bind_eq_ok.2 ⟨(), ?_, hsignals⟩⟩⟩
  exact checkResponse_buildResponse clientVersions serverVersions _ 200 _ body hversions

end

/-! ## The batches of a request -/

/-- What is to be true of the batches of a request for signals of a file: they are the signals in their order,
and their URLs are no longer than they may be, unless they ask for one signal. The texts in a URL are read as the
signals of the batch, and a server that has the file takes the URL for a request for them. -/
structure Splits (format : Format) (server : List Char) (maxUrlLength : UInt16) (fileIndex : UInt64)
    (signals : List SignalRef) (batches : List (List SignalRef)) : Prop where
  flatten_eq : batches.flatten = signals
  utf8Len_le : ∀ batch ∈ batches,
    String.utf8Len (formatSignalUrl format (baseUrl server fileIndex) batch) ≤ maxUrlLength.toNat ∨
      ∃ signal, batch = [signal]
  parseIds_eq : ∀ batch ∈ batches, ∃ idStrings,
    (formatSignalUrl format (baseUrl server fileIndex) batch).splitOn '/' =
      server.splitOn '/' ++ Nat.toDigits 10 fileIndex.toNat :: "get_signals".toList :: idStrings ∧
    parseIds format idStrings = .ok batch
  handle_eq : ∀ batch ∈ batches, ∀ {n origin token}, server = origin ++ '/' :: token → '/' ∉ token →
    ∀ hfile : fileIndex.toNat < n, ∃ path idStrings,
      formatSignalUrl format (baseUrl server fileIndex) batch = origin ++ path ∧
      handle n token path = .signals ⟨fileIndex.toNat, hfile⟩ idStrings ∧
      parseIds format idStrings = .ok batch

section

variable {format : Format} {server : List Char} {maxUrlLength : UInt16} {fileIndex : UInt64}
  {signals : List SignalRef}

theorem flatten_batches (format : Format) (server : List Char) (signals : List SignalRef)
    (maxUrlLength : UInt16) (fileIndex : UInt64) :
    (batches format server signals maxUrlLength fileIndex).flatten = signals :=
  Batching.flatten_split [] signals

theorem forall_mem_batches {P : SignalRef → Prop} (h : ∀ signal ∈ signals, P signal) {batch : List SignalRef}
    (hbatch : batch ∈ batches format server signals maxUrlLength fileIndex) : ∀ signal ∈ batch, P signal := by
  intro signal hsignal
  refine h signal ?_
  rw [← flatten_batches format server signals maxUrlLength fileIndex]
  exact List.mem_flatten_of_mem hbatch hsignal

theorem splits_batches (hrefs : ∀ signal ∈ signals, format.fromIndex (format.index signal) = some signal) :
    Splits format server maxUrlLength fileIndex signals
      (batches format server signals maxUrlLength fileIndex) where
  flatten_eq := flatten_batches format server signals maxUrlLength fileIndex
  utf8Len_le batch hbatch := by
    rw [utf8Len_formatSignalUrl]
    exact Batching.size_le_of_mem_split hbatch
  parseIds_eq batch hbatch :=
    ⟨idStrings format batch, splitOn_formatSignalUrl format server fileIndex batch,
      parseIds_toDigits (forall_mem_batches hrefs hbatch)⟩
  handle_eq batch hbatch n origin token hserver htoken hfile := by
    subst hserver
    exact ⟨signalsPath token fileIndex (idStrings format batch), idStrings format batch,
      formatSignalUrl_eq_signalsPath format origin token fileIndex batch,
      handle_batch format batch htoken hfile, parseIds_toDigits (forall_mem_batches hrefs hbatch)⟩

/-- The number of the signals of a batch can be written. -/
theorem length_lt_of_mem_batches {batch : List SignalRef}
    (h : batch ∈ batches format server signals maxUrlLength fileIndex) : batch.length < 2 ^ 64 := by
  have hweight : ∀ signal, 0 < signalLen format signal := fun signal => Nat.succ_pos _
  have hlength := Batching.length_le_size (String.utf8Len (baseUrl server fileIndex)) hweight batch
  have hmax := maxUrlLength.toNat_lt
  rcases Batching.size_le_of_mem_split h with hle | ⟨signal, rfl⟩
  · omega
  · rw [List.length_singleton]
    omega

end

/-- What comes of a new session in which signals are asked for, and the URLs that were requested. -/
def session (format : Format) (versions : Versions) (network : Network) (server : List Char)
    (maxUrlLength : UInt16) (fileIndex : UInt64) (signals : List SignalRef) :
    Except String (List Signal) × List (List Char) :=
  (getSignals format versions network server signals maxUrlLength fileIndex).run.run []

/-- The URLs of the batches. -/
def batchUrls (format : Format) (server : List Char) (maxUrlLength : UInt16) (fileIndex : UInt64)
    (signals : List SignalRef) : List (List Char) :=
  (batches format server signals maxUrlLength fileIndex).map
    (formatSignalUrl format (baseUrl server fileIndex))

section

variable (format : Format) (clientVersions : Versions) (network : Network) (server : List Char)
  (maxUrlLength : UInt16) (fileIndex : UInt64) (signals : List SignalRef)

/-- The session fetches the batches. -/
theorem fetched_session :
    ∃ outcome, Fetched (formatSignalUrl format (baseUrl server fileIndex))
        (receive format clientVersions network (baseUrl server fileIndex)) []
        (batches format server signals maxUrlLength fileIndex) outcome ∧
      session format clientVersions network server maxUrlLength fileIndex signals =
        (List.flatten <$> outcome.1, outcome.2) := by
  have hfetched := fetched_mapM
    (run_getSignalsBatch format clientVersions network (baseUrl server fileIndex)) []
    (batches format server signals maxUrlLength fileIndex)
  refine ⟨_, hfetched, ?_⟩
  rw [session, getSignals_eq_mapM]
  cases hall : ((batches format server signals maxUrlLength fileIndex).mapM
      (getSignalsBatch format clientVersions network (baseUrl server fileIndex))).run.run [] with
  | mk outcome requested =>
    cases outcome with
    | error e => exact run_bind_error hall
    | ok results => exact run_bind_ok hall

end

/-- Signals are asked for in batches and answered in their order, at any address of a server. The text of a
number is as long as it is counted. A client asks for the batches one after the other. If the server has the
file, the signals that the client puts together are in the order of the request, and it gets them if every batch
is answered by a server with the same version of wellen. -/
theorem getSignals_in_order {format : Format} (hformat : format.Lawful) (clientVersions : Versions)
    (server : List Char) (maxUrlLength : UInt16) (fileIndex : UInt64) (signals : List SignalRef)
    (hrefs : ∀ signal ∈ signals, format.fromIndex (format.index signal) = some signal) :
    Splits format server maxUrlLength fileIndex signals
      (batches format server signals maxUrlLength fileIndex) ∧
    (∀ batch signal, formatSignalUrl format (baseUrl server fileIndex) (batch ++ [signal]) =
      formatSignalUrl format (baseUrl server fileIndex) batch ++ signalText (format.index signal)) ∧
    (∀ index, signalUrlLen index = String.utf8Len (signalText index)) ∧
    ∀ network,
      (session format clientVersions network server maxUrlLength fileIndex signals).2 <+:
        batchUrls format server maxUrlLength fileIndex signals ∧
      ∀ {n origin token serverVersions}, server = origin ++ '/' :: token → '/' ∉ token → fileIndex.toNat < n →
        Serves network format serverVersions n origin token →
        (∀ {results requested},
          session format clientVersions network server maxUrlLength fileIndex signals =
            (.ok results, requested) →
          requested = batchUrls format server maxUrlLength fileIndex signals ∧
          results.map Signal.signalRef = signals) ∧
        (serverVersions.wellen = clientVersions.wellen →
          (∀ url ∈ batchUrls format server maxUrlLength fileIndex signals, ∀ requested, ∃ response,
            network requested url = .ok response) →
          ∃ results, session format clientVersions network server maxUrlLength fileIndex signals =
            (.ok results, batchUrls format server maxUrlLength fileIndex signals)) := by
  refine ⟨splits_batches hrefs, ?_, ?_, ?_⟩
  · intro batch signal
    rw [formatSignalUrl, List.foldl_append]
    rfl
  · exact fun index => (utf8Len_signalText index).symm
  intro network
  obtain ⟨outcome, hfetched, hsession⟩ :=
    fetched_session format clientVersions network server maxUrlLength fileIndex signals
  rw [hsession]
  refine ⟨by simpa [batchUrls] using hfetched.requested_prefix, ?_⟩
  rintro n origin token serverVersions rfl htoken hfile hserves
  have hne : ∀ batch ∈ batches format (origin ++ '/' :: token) signals maxUrlLength fileIndex, batch ≠ [] :=
    fun _ => Batching.ne_nil_of_mem_split
  constructor
  · -- every part has the signals of its batch
    intro results requested h
    obtain ⟨hresults, hrequested⟩ := Prod.mk.inj h
    obtain ⟨parts, hparts, rfl⟩ := Except.map_eq_ok.1 hresults
    refine ⟨?_, ?_⟩
    · rw [← hrequested, hfetched.requested_eq hparts]
      rfl
    · have hordered : List.Forall₂ (fun batch part => batch = part.map Signal.signalRef)
          (batches format (origin ++ '/' :: token) signals maxUrlLength fileIndex) parts := by
        have hreceived := (List.forall₂_and_left _ _).2
          ⟨fun batch hbatch => hbatch, hfetched.received hparts⟩
        refine hreceived.imp ?_
        rintro batch part ⟨hbatch, before, hpart⟩
        exact (map_signalRef_of_receive hformat hserves htoken hfile (hne batch hbatch)
          (length_lt_of_mem_batches hbatch) (forall_mem_batches hrefs hbatch) hpart).symm
      have heq : batches format (origin ++ '/' :: token) signals maxUrlLength fileIndex =
          parts.map (List.map Signal.signalRef) := by
        rwa [← List.forall₂_eq_eq_eq, List.forall₂_map_right_iff]
      rw [List.map_flatten, ← heq, flatten_batches]
  · -- a batch that is answered is received
    intro hversions hanswered
    obtain ⟨parts, hparts⟩ := hfetched.succeeds fun batch hbatch requested => by
      obtain ⟨response, hresponse⟩ := hanswered _ (List.mem_map_of_mem hbatch) requested
      exact exists_receive hformat hserves htoken hfile (hne batch hbatch)
        (length_lt_of_mem_batches hbatch) (forall_mem_batches hrefs hbatch) hversions hresponse
    refine ⟨parts.flatten, ?_⟩
    rw [hparts, hfetched.requested_eq hparts]
    rfl

/-- A format for signals without changes. -/
def unchangedFormat : Format where
  index := UInt64.ofNat
  fromIndex index := some index.toNat
  CompressedSignal := Signal
  compress := id
  uncompress := id
  serialize signal :=
    if signal.changes = [] then .ok (Leb128.encode signal.signalRef) else .error "the signal changes"
  deserializeFrom bytes :=
    match Leb128.decode bytes with
    | some (signalRef, rest) => .ok ({ signalRef, changes := [] }, rest)
    | none => .error "unexpected end of file"
  deserializeLast bytes :=
    match Leb128.decode bytes with
    | some (signalRef, []) => .ok { signalRef, changes := [] }
    | _ => .error "unexpected end of file"
  writeUnsigned n := Leb128.encode n.toNat
  readUnsigned bytes :=
    match Leb128.decode bytes with
    | some (n, rest) => .ok (UInt64.ofNat n, rest)
    | none => .error "unexpected end of file"

theorem serialize_unchangedFormat {signal : Signal} {bytes : List UInt8}
    (h : unchangedFormat.serialize signal = .ok bytes) :
    signal = { signalRef := signal.signalRef, changes := [] } ∧ bytes = Leb128.encode signal.signalRef := by
  obtain ⟨signalRef, changes⟩ := signal
  simp only [unchangedFormat] at h
  split at h
  next hnone =>
    cases h
    obtain rfl : changes = [] := hnone
    exact ⟨rfl, rfl⟩
  next => cases h

theorem lawful_unchangedFormat : unchangedFormat.Lawful where
  uncompress_compress _ := rfl
  deserializeFrom_append := by
    intro signal bytes h rest
    obtain ⟨hchanges, rfl⟩ := serialize_unchangedFormat h
    rw [hchanges]
    simp only [unchangedFormat, Leb128.decode_encode_append]
  deserializeLast_serialize := by
    intro signal bytes h
    obtain ⟨hchanges, rfl⟩ := serialize_unchangedFormat h
    rw [hchanges]
    have hdecode := Leb128.decode_encode_append signal.signalRef []
    rw [List.append_nil] at hdecode
    simp only [unchangedFormat, hdecode]
  readUnsigned_append n rest := by
    simp only [unchangedFormat, Leb128.decode_encode_append, UInt64.ofNat_toNat]

/-- Two signals are loaded for a client. -/
def loadTwo : List Action :=
  [.bodyRead (some [0, 5]) .missing, .query (.getSignals [3, 12]), .handle 0 none, .handle 0 none, .receive,
    .receive, .signalsRead [{ signalRef := 3, changes := [] }, { signalRef := 12, changes := [] }]]

/-- A server with two signals. -/
def twoSignals : Server 1 := Function.update (Server.new 1) 0 (loadTwo.foldl FileServer.next .new)

/-- The network before this server. -/
def twoSignalsNetwork : Network := fun _ url =>
  match stripPrefix "http://localhost:8911".toList url with
  | none => .error "no route to host"
  | some path =>
    match answer unchangedFormat ⟨"1", "2"⟩ "mytoken1".toList twoSignals path with
    | some response => .ok response
    | none => .error "connection closed"

/-- The network is one before a server, in a state that it reaches. -/
theorem serves_twoSignals :
    Serves twoSignalsNetwork unchangedFormat ⟨"1", "2"⟩ 1 "http://localhost:8911".toList
      "mytoken1".toList := by
  intro requested path fileIndex idStrings response _ hresponse
  have hreach : Reachable Server.step (fun _ _ => True) (Server.new 1) twoSignals := by
    have halone : Reachable FileServer.step (fun _ _ => True) (Server.new 1 0) _ :=
      reachable_of_allowedRun (fun _ _ => rfl) (allowedRun_true FileServer.next .new loadTwo)
    exact halone.single
  have hpath : stripPrefix "http://localhost:8911".toList ("http://localhost:8911".toList ++ path) =
      some path := by
    rw [stripPrefix, if_pos (List.prefix_append _ _), List.drop_left]
  rw [twoSignalsNetwork, hpath] at hresponse
  refine ⟨twoSignals, hreach, ?_⟩
  dsimp only at hresponse
  split at hresponse
  next hanswer =>
    cases hresponse
    exact hanswer
  next => cases hresponse

/-- Two signals are asked for in a URL each. -/
theorem getSignals_in_order_two :
    ∃ results urls, session unchangedFormat ⟨"0", "2"⟩ twoSignalsNetwork
        "http://localhost:8911/mytoken1".toList 46 0 [3, 12] = (.ok results, urls) ∧
      urls.length = 2 ∧ results.map Signal.signalRef = [3, 12] := by
  have hbatches : batches unchangedFormat "http://localhost:8911/mytoken1".toList [3, 12] 46 0 =
      [[3], [12]] := by
    decide
  obtain ⟨-, -, -, hnetwork⟩ := getSignals_in_order lawful_unchangedFormat ⟨"0", "2"⟩
    "http://localhost:8911/mytoken1".toList 46 0 [3, 12] (by decide)
  obtain ⟨-, hserver⟩ := hnetwork twoSignalsNetwork
  obtain ⟨horder, hall⟩ := hserver rfl (by decide) (by decide) serves_twoSignals
  have hanswered : ∀ url ∈ batchUrls unchangedFormat "http://localhost:8911/mytoken1".toList 46 0 [3, 12],
      ∀ requested, ∃ response, twoSignalsNetwork requested url = .ok response := by
    rw [batchUrls, hbatches]
    have hboth : ∀ url ∈ [[3], [12]].map (formatSignalUrl unchangedFormat
        (baseUrl "http://localhost:8911/mytoken1".toList 0)),
        (twoSignalsNetwork [] url).toOption.isSome = true := by
      decide
    intro url hurl requested
    exact Except.exists_of_isSome (hboth url hurl)
  obtain ⟨results, hresults⟩ := hall rfl hanswered
  refine ⟨results, _, hresults, ?_, (horder hresults).2⟩
  rw [batchUrls, hbatches]
  rfl

end Remote
