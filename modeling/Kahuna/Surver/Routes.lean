import Kahuna.Numerals.Basic
import Kahuna.Surver.Requests
import Kahuna.Text.Basic
import Kahuna.Text.Separators

/-!
# The paths of requests

The model of `handle`, `handle_cmd` and `get_signals` in `server.rs`: what a request is for, by its path, and
the bytes of the answer to a request for signals. How the signals are loaded and when they are there is that of
`Surver.Basic`.

What wellen, bincode and leb128 do is a parameter.

- `parseU64_toDigits`: the text of a number is read as that number.
- `handle_signalsPath`: the path of a request for signals is taken for one.
- `signals_of_answer`: an answer holds the signals that were asked for, in the same order.
-/

namespace Surver

open Numerals Text
open Wave (SignalRef)
open Wellen (Signal)
open Transition

/-- How signals are numbered and written, on both sides of a connection. -/
structure Format where
  /-- `SignalRef::index`. -/
  index : SignalRef → UInt64
  /-- `SignalRef::from_index`. -/
  fromIndex : UInt64 → Option SignalRef
  /-- `CompressedSignal`. -/
  CompressedSignal : Type
  compress : Signal → CompressedSignal
  uncompress : CompressedSignal → Signal
  /-- `BINCODE_OPTIONS.serialize`. -/
  serialize : CompressedSignal → Except String (List UInt8)
  /-- `deserialize_from`, with trailing bytes. These are left to be read. -/
  deserializeFrom : List UInt8 → Except String (CompressedSignal × List UInt8)
  /-- `deserialize_from`, for the last value. -/
  deserializeLast : List UInt8 → Except String CompressedSignal
  /-- `leb128::write::unsigned`. -/
  writeUnsigned : UInt64 → List UInt8
  /-- `leb128::read::unsigned`. -/
  readUnsigned : List UInt8 → Except String (UInt64 × List UInt8)

/-- What is written is read back, and no more is read than was written. -/
structure Format.Lawful (format : Format) : Prop where
  uncompress_compress : ∀ signal, format.uncompress (format.compress signal) = signal
  deserializeFrom_append : ∀ {compressed bytes}, format.serialize compressed = .ok bytes →
    ∀ rest, format.deserializeFrom (bytes ++ rest) = .ok (compressed, rest)
  deserializeLast_serialize : ∀ {compressed bytes}, format.serialize compressed = .ok bytes →
    format.deserializeLast bytes = .ok compressed
  readUnsigned_append : ∀ n rest,
    format.readUnsigned (format.writeUnsigned n ++ rest) = .ok (n, rest)

/-! ## What a request is for -/

/-- The next digit of a number that has to be less than `2 ^ 64`. -/
def parseDigit (n : ℕ) (c : Char) : Except String ℕ :=
  match digit? 10 c with
  | none => .error "invalid digit found in string"
  | some d =>
    if 10 * n + d < 2 ^ 64 then .ok (10 * n + d) else .error "number too large to fit in target type"

/-- `str::parse` for `u64` and `usize`. -/
def parseU64 (s : List Char) : Except String UInt64 :=
  match s with
  | [] => .error "cannot parse integer from empty string"
  | ['+'] => .error "invalid digit found in string"
  | '+' :: digits => UInt64.ofNat <$> digits.foldlM parseDigit 0
  | digits => UInt64.ofNat <$> digits.foldlM parseDigit 0

/-- The signal with the number in a text. -/
def parseId (format : Format) (idStr : List Char) : Except String SignalRef :=
  match parseU64 idStr with
  | .error e => .error s!"Failed to parse signal id `{String.ofList idStr}`: {e}"
  | .ok index =>
    match format.fromIndex index with
    | some id => .ok id
    | none => .error s!"Invalid signal index: {index}"

/-- The signals that are asked for. The first text that is none is an error. -/
def parseIds (format : Format) (idStrings : List (List Char)) : Except String (List SignalRef) :=
  idStrings.mapM (parseId format)

/-- What a request to a server with some files is for. -/
inductive Target (n : ℕ) where
  | favicon
  | infoPage
  | notFound (message : String)
  | status
  | hierarchy (fileIndex : Fin n)
  | timeTable (fileIndex : Fin n)
  | signals (fileIndex : Fin n) (idStrings : List (List Char))
  | reload (fileIndex : Fin n)
  deriving DecidableEq

/-- `handle_cmd`, for a file that is there, if one is given. -/
def handleValidCmd {n : ℕ} (cmd : List Char) (fileIndex : Option (Fin n)) (args : List (List Char)) :
    Target n :=
  if cmd = "get_status".toList ∧ args = [] then .status
  else
    match fileIndex with
    | none => .notFound ""
    | some fileIndex =>
      if cmd = "get_hierarchy".toList ∧ args = [] then .hierarchy fileIndex
      else if cmd = "get_time_table".toList ∧ args = [] then .timeTable fileIndex
      else if cmd = "get_signals".toList then .signals fileIndex args
      else if cmd = "reload".toList ∧ args = [] then .reload fileIndex
      -- unknown command or unexpected number of arguments
      else .notFound ""

/-- `handle_cmd`. -/
def handleCmd (n : ℕ) (cmd : List Char) (fileIndex : Option UInt64) (args : List (List Char)) : Target n :=
  match fileIndex with
  | none => handleValidCmd cmd none args
  | some i =>
    if h : i.toNat < n then handleValidCmd cmd (some ⟨i.toNat, h⟩) args else .notFound "Invalid file index"

/-- `handle`. -/
def handle (n : ℕ) (token path : List Char) : Target n :=
  if path = "/favicon.ico".toList then .favicon
  else
    let pathParts := (path.splitOn '/').drop 1
    if pathParts.head? ≠ some token then .notFound ""
    else
      let (fileIndex, cmdIdx) : Option UInt64 × ℕ :=
        match (pathParts[1]?).bind fun s => (parseU64 s).toOption with
        | some idx => (some idx, 2)
        | none => (none, 1)
      match pathParts[cmdIdx]? with
      | some cmd => handleCmd n cmd fileIndex (pathParts.drop (cmdIdx + 1))
      -- valid token, but no command
      | none => .infoPage

/-- Digits are read as the number that they denote, if it is small enough. -/
theorem foldlM_parseDigit {n : ℕ} {digits : List Char} (hdigits : IsNumeral 10 digits)
    (h : n * 10 ^ digits.length + value 10 digits < 2 ^ 64) :
    digits.foldlM parseDigit n = .ok (n * 10 ^ digits.length + value 10 digits) := by
  induction digits generalizing n with
  | nil => simp; rfl
  | cons c digits ih =>
    obtain ⟨d, hd⟩ := Option.isSome_iff_exists.1 (hdigits c List.mem_cons_self)
    have hmore : n * 10 ^ (c :: digits).length + value 10 (c :: digits) =
        (10 * n + d) * 10 ^ digits.length + value 10 digits := by
      rw [value_cons, hd, Option.getD_some, List.length_cons, pow_succ]
      ring
    rw [hmore] at h ⊢
    -- no number on the way is greater than the last one
    have hsmall : 10 * n + d < 2 ^ 64 := by
      have hpow : 1 ≤ 10 ^ digits.length := Nat.one_le_pow _ _ (by omega)
      have hle := Nat.le_mul_of_pos_right (10 * n + d) hpow
      omega
    have hstep : parseDigit n c = .ok (10 * n + d) := by
      simp only [parseDigit, hd, hsmall, if_true]
    rw [List.foldlM_cons, hstep]
    exact ih (fun c hc => hdigits c (List.mem_cons_of_mem _ hc)) h

/-- The text of a number is read as that number. -/
theorem parseU64_toDigits (n : UInt64) : parseU64 (Nat.toDigits 10 n.toNat) = .ok n := by
  have hread : (Nat.toDigits 10 n.toNat).foldlM parseDigit 0 = .ok n.toNat := by
    have hvalue : value 10 (Nat.toDigits 10 n.toNat) = n.toNat := value_toDigits (by omega) (by omega) _
    have hsmall : 0 * 10 ^ (Nat.toDigits 10 n.toNat).length + value 10 (Nat.toDigits 10 n.toNat) < 2 ^ 64 := by
      rw [hvalue, Nat.zero_mul, Nat.zero_add]
      exact n.toNat_lt
    rw [foldlM_parseDigit (isNumeral_toDigits _) hsmall, hvalue, Nat.zero_mul, Nat.zero_add]
  rw [parseU64, hread]
  · simp
  · exact Nat.toDigits_ne_nil
  · exact toDigits_ne_cons rfl
  · exact fun _ => toDigits_ne_cons rfl

/-- The signals are read from their numbers. -/
theorem parseIds_toDigits {format : Format} {ids : List SignalRef}
    (h : ∀ id ∈ ids, format.fromIndex (format.index id) = some id) :
    parseIds format (ids.map fun id => Nat.toDigits 10 (format.index id).toNat) = .ok ids := by
  induction ids with
  | nil => rfl
  | cons id ids ih =>
    rw [List.forall_mem_cons] at h
    have hid : parseId format (Nat.toDigits 10 (format.index id).toNat) = .ok id := by
      simp only [parseId, parseU64_toDigits, h.1]
    have hrest := ih h.2
    unfold parseIds at hrest ⊢
    rw [List.map_cons, List.mapM_cons, hid, hrest]
    rfl

/-- The path of a request for signals. -/
def signalsPath (token : List Char) (fileIndex : UInt64) (idStrings : List (List Char)) : List Char :=
  '/' :: token ++ '/' :: Nat.toDigits 10 fileIndex.toNat ++ "/get_signals".toList ++
    idStrings.flatMap ('/' :: ·)

/-- The parts of the path of a request for signals. -/
theorem splitOn_signalsPath {token : List Char} (htoken : '/' ∉ token) (fileIndex : UInt64)
    {idStrings : List (List Char)} (hids : ∀ idStr ∈ idStrings, '/' ∉ idStr) :
    (signalsPath token fileIndex idStrings).splitOn '/' =
      [] :: token :: Nat.toDigits 10 fileIndex.toNat :: "get_signals".toList :: idStrings := by
  have hparts : ∀ part ∈ token :: Nat.toDigits 10 fileIndex.toNat :: "get_signals".toList :: idStrings,
      '/' ∉ part := by
    simp only [List.forall_mem_cons]
    exact ⟨htoken, not_mem_toDigits rfl _, by decide, hids⟩
  have hsplit := splitOn_append_flatMap '/' [] hparts
  simpa [signalsPath] using hsplit

/-- The path of a request for signals is taken for one, if the token is a part of a path and the file is there. -/
theorem handle_signalsPath (n : ℕ) (token : List Char) (fileIndex : UInt64) {idStrings : List (List Char)}
    (hids : ∀ idStr ∈ idStrings, '/' ∉ idStr) :
    handle n token (signalsPath token fileIndex idStrings) =
      if '/' ∈ token then .notFound ""
      else if h : fileIndex.toNat < n then .signals ⟨fileIndex.toNat, h⟩ idStrings
      else .notFound "Invalid file index" := by
  have hfavicon : signalsPath token fileIndex idStrings ≠ "/favicon.ico".toList := by
    intro h
    have hmem : '_' ∈ "/favicon.ico".toList := by
      rw [← h]
      simp [signalsPath]
    revert hmem
    decide
  rw [handle, if_neg hfavicon]
  split
  next htoken =>
    -- no part of a path is the token
    have hhead : ((signalsPath token fileIndex idStrings).splitOn '/').tail.head? ≠ some token := by
      intro h
      exact not_mem_of_mem_splitOn (List.mem_of_mem_tail (List.mem_of_head? h)) htoken
    rw [List.drop_one, if_pos hhead]
  next htoken =>
    have hvalid (i : Fin n) :
        handleValidCmd "get_signals".toList (some i) idStrings = .signals i idStrings := by
      simp [handleValidCmd]
    have hcmd : handleCmd n "get_signals".toList (some fileIndex) idStrings =
        if h : fileIndex.toNat < n then .signals ⟨fileIndex.toNat, h⟩ idStrings
        else .notFound "Invalid file index" := by
      simp only [handleCmd, hvalid]
    rw [splitOn_signalsPath htoken fileIndex hids]
    simpa [parseU64_toDigits, Except.toOption] using hcmd

/-! ## The answers -/

/-- The versions of a program. -/
structure Versions where
  surfer : String
  wellen : String

/-- An answer. A header may have a value that is no text. -/
structure HttpResponse where
  status : ℕ
  headers : List (String × Option String)
  body : List UInt8

/-- `build_response`. -/
def buildResponse (versions : Versions) (status : ℕ) (contentType : String) (body : List UInt8) :
    HttpResponse where
  status := status
  headers :=
    [("Content-Type", some contentType), ("Server", some "Surfer"),
      ("x-wellen-version", some versions.wellen), ("x-surfer-version", some versions.surfer),
      ("Cache-Control", some "no-cache")]
  body := body

/-- The bytes of signals, after their number. -/
def signalsBody (format : Format) (numIds : ℕ) (signals : List Signal) : Except String (List UInt8) := do
  let parts ← signals.mapM fun signal => format.serialize (format.compress signal)
  return format.writeUnsigned (UInt64.ofNat numIds) ++ parts.flatten

/-- `get_signals`, once the signals are there. -/
def getSignals (format : Format) (info : FileInfo) (ids : List SignalRef) : Option (List UInt8) :=
  if h : ids = [] then some []
  else
    match info.ready (.signals ⟨ids, h⟩) with
    | some (.signals signals) => (signalsBody format ids.length signals).toOption
    | _ => none

/-- The answer to the path of a request for signals, in a state in which it is given. -/
def answer {n : ℕ} (format : Format) (versions : Versions) (token : List Char) (s : Server n)
    (path : List Char) : Option HttpResponse :=
  match handle n token path with
  | .signals fileIndex idStrings => do
    let ids ← (parseIds format idStrings).toOption
    let body ← getSignals format (s fileIndex).file.info ids
    return buildResponse versions 200 "application/octet-stream" body
  | _ => none

/-- An answer holds the signals that were asked for, in the same order. -/
theorem signals_of_answer {n : ℕ} {format : Format} {versions : Versions} {token path : List Char}
    {s : Server n} (hs : Reachable Server.step (fun _ _ => True) (Server.new n) s) {fileIndex : Fin n}
    {idStrings : List (List Char)} {ids : List SignalRef} (hne : ids ≠ [])
    (htarget : handle n token path = .signals fileIndex idStrings)
    (hids : parseIds format idStrings = .ok ids) {response : HttpResponse}
    (hanswer : answer format versions token s path = some response) :
    ∃ signals body, signals.map Signal.signalRef = ids ∧
      signalsBody format signals.length signals = .ok body ∧
      response = buildResponse versions 200 "application/octet-stream" body := by
  rw [answer, htarget] at hanswer
  simp only [hids, Except.toOption, Option.bind_eq_bind, Option.bind_some, Option.bind_eq_some_iff] at hanswer
  obtain ⟨body, hbody, hresponse⟩ := hanswer
  rw [getSignals, dif_neg hne] at hbody
  split at hbody
  next signals hready =>
    -- the file has stored the signals for this very list
    have hasked : signals.map Signal.signalRef = ids := ready_signals_asked hs fileIndex hready
    have hlength : ids.length = signals.length := by
      rw [← hasked, List.length_map]
    rw [hlength] at hbody
    cases hbytes : signalsBody format signals.length signals with
    | error e =>
      rw [hbytes] at hbody
      cases hbody
    | ok bytes =>
      rw [hbytes] at hbody
      cases hbody
      exact ⟨signals, body, hasked, hbytes, (Option.some.inj hresponse).symm⟩
  next => cases hbody

end Surver
