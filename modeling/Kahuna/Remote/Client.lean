import Kahuna.Batching.Basic
import Kahuna.Surver.Routes
import Mathlib.Data.String.Basic

/-!
# The client of a server

The model of `get_signals` in `client.rs`. The signals are asked for in batches, so that no URL becomes too
long. A batch is closed, and its signals are fetched, before the signal that would make its URL too long.

A session remembers the URLs that were requested. What is answered to a request may depend on all of those
before.

- `formatSignalUrl_eq`, `utf8Len_formatSignalUrl`: the text of a URL, and its length as it is counted.
- `foldlM_addSignal`: the batches are fetched one after the other, and their signals put together.
-/

namespace Remote

open Numerals Surver Transition
open Wave (SignalRef)
open Wellen (Signal)

/-- `usize::checked_ilog10`. -/
def checkedIlog10 (n : UInt64) : Option ℕ := if n = 0 then none else some (Nat.log 10 n.toNat)

/-- `signal_url_len`. -/
def signalUrlLen (index : UInt64) : ℕ := (checkedIlog10 index).getD 0 + 2

/-- What `write!(url, "/{}", signal.index())` adds for a signal. -/
def signalText (index : UInt64) : List Char := '/' :: Nat.toDigits 10 index.toNat

/-- What is counted for a signal. -/
def signalLen (format : Format) (signal : SignalRef) : ℕ := signalUrlLen (format.index signal)

/-- `format_signal_url`. -/
def formatSignalUrl (format : Format) (baseUrl : List Char) (signals : List SignalRef) : List Char :=
  signals.foldl (fun url signal => url ++ signalText (format.index signal)) baseUrl

/-! ## The answers -/

/-- `check_response`. -/
def checkResponse (versions : Versions) (serverUrl : List Char) (response : HttpResponse) :
    Except String Unit := do
  let text (name missing : String) : Except String String :=
    match response.headers.lookup name with
    | none => .error missing
    | some none => .error "failed to convert header to a str"
    | some (some value) => .ok value
  let server ← text "Server" "no server header"
  if server ≠ "Surfer" then
    throw s!"Unexpected server {server} from {String.ofList serverUrl}"
  -- a mismatch of the versions of Surfer is only reported
  let _ ← text "x-surfer-version" "no surfer version header"
  let wellenVersion ← text "x-wellen-version" "no wellen version header"
  if wellenVersion ≠ versions.wellen then
    throw s!"Version incompatibility! The server uses wellen {wellenVersion}, our client uses wellen {versions.wellen}"

/-- All signals but the last one. -/
def readMany (format : Format) : ℕ → List Signal → List UInt8 → Except String (List Signal × List UInt8)
  | 0, out, reader => .ok (out, reader)
  | n + 1, out, reader => do
    let (compressed, reader) ← format.deserializeFrom reader
    readMany format n (out ++ [format.uncompress compressed]) reader

/-- The signals in a body. -/
def readSignals (format : Format) (expected : ℕ) (data : List UInt8) : Except String (List Signal) := do
  let (numIds, reader) ← format.readUnsigned data
  if expected < numIds.toNat then
    throw s!"Too many signals in response: {numIds}, expected {expected}"
  if numIds = 0 then
    return []
  let (out, reader) ← readMany format (numIds.toNat - 1) [] reader
  -- for the final signal, we expect to consume all bytes
  let compressed ← format.deserializeLast reader
  return out ++ [format.uncompress compressed]

/-! ## The requests -/

/-- A session, with the URLs that were requested. -/
abbrev Session := ExceptT String (StateM (List (List Char)))

/-- The network: the answer to a URL after some others. -/
abbrev Network := List (List Char) → List Char → Except String HttpResponse

/-- Request a URL. -/
def request (network : Network) (url : List Char) : Session HttpResponse := do
  let requested ← get
  set (requested ++ [url])
  ExceptT.mk (pure (network requested url))

/-- `get_signals_batch`. -/
def getSignalsBatch (format : Format) (versions : Versions) (network : Network) (baseUrl : List Char)
    (signals : List SignalRef) : Session (List Signal) := do
  let url := formatSignalUrl format baseUrl signals
  let response ← request network url
  ExceptT.mk (pure (do
    checkResponse versions baseUrl response
    readSignals format signals.length response.body))

/-- What is kept while the signals are put into batches. -/
structure Progress where
  allResults : List Signal
  currentBatch : List SignalRef
  currentUrlLen : ℕ

section

variable {m : Type → Type} [Monad m] (format : Format) (baseLen maxUrlLength : ℕ)
  (fetch : List SignalRef → m (List Signal))

/-- The loop body of `get_signals`. -/
def Progress.addSignal (p : Progress) (signal : SignalRef) : m Progress := do
  let signalLen := signalLen format signal
  if maxUrlLength < p.currentUrlLen + signalLen ∧ p.currentBatch ≠ [] then
    let batchResults ← fetch p.currentBatch
    return {
      allResults := p.allResults ++ batchResults
      currentBatch := [signal]
      currentUrlLen := baseLen + signalLen }
  else
    return {
      allResults := p.allResults
      currentBatch := p.currentBatch ++ [signal]
      currentUrlLen := p.currentUrlLen + signalLen }

/-- The remaining batch. -/
def Progress.finish (p : Progress) : m (List Signal) := do
  if p.currentBatch.isEmpty then
    return p.allResults
  else
    let batchResults ← fetch p.currentBatch
    return p.allResults ++ batchResults

end

/-- The URL of the signals of a file, without their numbers. -/
def baseUrl (server : List Char) (fileIndex : UInt64) : List Char :=
  server ++ '/' :: Nat.toDigits 10 fileIndex.toNat ++ "/get_signals".toList

/-- `get_signals`. -/
def getSignals (format : Format) (versions : Versions) (network : Network) (server : List Char)
    (signals : List SignalRef) (maxUrlLength : UInt16) (fileIndex : UInt64) : Session (List Signal) := do
  if signals.isEmpty then
    return []
  let baseUrl := baseUrl server fileIndex
  let baseLen := String.utf8Len baseUrl
  let fetch := getSignalsBatch format versions network baseUrl
  let progress ← signals.foldlM (Progress.addSignal format baseLen maxUrlLength.toNat fetch)
    { allResults := [], currentBatch := [], currentUrlLen := baseLen }
  progress.finish fetch

/-! ## The URLs -/

theorem formatSignalUrl_eq (format : Format) (baseUrl : List Char) (signals : List SignalRef) :
    formatSignalUrl format baseUrl signals =
      baseUrl ++ signals.flatMap fun signal => signalText (format.index signal) := by
  unfold formatSignalUrl
  induction signals generalizing baseUrl with
  | nil => simp
  | cons signal signals ih => rw [List.foldl_cons, ih, List.flatMap_cons, List.append_assoc]

theorem utf8Size_of_isDigit {c : Char} (h : c.isDigit) : c.utf8Size = 1 := by
  rw [Char.utf8Size_eq_one_iff]
  simp only [Char.isDigit, Bool.and_eq_true, decide_eq_true_eq] at h
  exact UInt32.le_trans h.2 (by decide)

theorem utf8Len_of_isDigit {digits : List Char} (h : ∀ c ∈ digits, c.isDigit) :
    String.utf8Len digits = digits.length := by
  induction digits with
  | nil => rfl
  | cons c digits ih =>
    rw [List.forall_mem_cons] at h
    rw [String.utf8Len_cons, ih h.2, utf8Size_of_isDigit h.1, List.length_cons]

/-- The text of a number has a byte for each digit. -/
theorem utf8Len_signalText (index : UInt64) : String.utf8Len (signalText index) = signalUrlLen index := by
  have hall : ∀ c ∈ Nat.toDigits 10 index.toNat, c.isDigit := fun c hc =>
    Nat.isDigit_of_mem_toDigits (by omega) (by omega) hc
  have hslash : '/'.utf8Size = 1 := rfl
  rw [signalText, String.utf8Len_cons, utf8Len_of_isDigit hall, length_toDigits (by omega), hslash, signalUrlLen,
    checkedIlog10]
  split
  next h =>
    -- the logarithm of zero is missing, and zero has one digit
    rw [h]
    rfl
  next => rfl

/-- The length of a URL is the one that is counted. -/
theorem utf8Len_formatSignalUrl (format : Format) (baseUrl : List Char) (signals : List SignalRef) :
    String.utf8Len (formatSignalUrl format baseUrl signals) =
      Batching.size (signalLen format) (String.utf8Len baseUrl) signals := by
  induction signals using List.reverseRecOn with
  | nil => rfl
  | append_singleton signals signal ih =>
    rw [Batching.size_append_singleton, ← ih, signalLen, ← utf8Len_signalText, ← String.utf8Len_append,
      formatSignalUrl, List.foldl_append]
    rfl

/-! ## The batches -/

/-- The batches of a request. -/
def batches (format : Format) (server : List Char) (signals : List SignalRef) (maxUrlLength : UInt16)
    (fileIndex : UInt64) : List (List SignalRef) :=
  Batching.split (signalLen format) (String.utf8Len (baseUrl server fileIndex))
    maxUrlLength.toNat [] signals

section

variable {m : Type → Type} [Monad m] [LawfulMonad m] (format : Format) (baseLen maxUrlLength : ℕ)
  (fetch : List SignalRef → m (List Signal))

/-- The loop fetches the batches one after the other. -/
theorem foldlM_addSignal (signals : List SignalRef) (p : Progress)
    (hlen : p.currentUrlLen = Batching.size (signalLen format) baseLen p.currentBatch) :
    (do
      let p ← signals.foldlM (Progress.addSignal format baseLen maxUrlLength fetch) p
      p.finish fetch) =
    (do
      let results ← (Batching.split (signalLen format) baseLen maxUrlLength p.currentBatch signals).mapM fetch
      return p.allResults ++ results.flatten) := by
  induction signals generalizing p with
  | nil =>
    rw [List.foldlM_nil, pure_bind, Progress.finish, Batching.split]
    split
    · simp
    · simp
  | cons signal signals ih =>
    rw [List.foldlM_cons, bind_assoc, Progress.addSignal, Batching.split, Batching.size_append_singleton,
      ← hlen]
    by_cases hfull : maxUrlLength < p.currentUrlLen + signalLen format signal ∧ p.currentBatch ≠ []
    · -- the batch is fetched, and the signal begins the next one
      have hnext : baseLen + signalLen format signal =
          Batching.size (signalLen format) baseLen [signal] := by
        simp [Batching.size]
      simp only [if_pos hfull, bind_assoc, pure_bind, List.mapM_cons, List.flatten_cons]
      refine bind_congr fun results => ?_
      rw [ih]
      · simp only [List.append_assoc]
      · exact hnext
    · -- the signal joins the batch
      have hnext : p.currentUrlLen + signalLen format signal =
          Batching.size (signalLen format) baseLen (p.currentBatch ++ [signal]) := by
        rw [Batching.size_append_singleton, hlen]
      simp only [if_neg hfull, pure_bind]
      rw [ih]
      exact hnext

end

end Remote
