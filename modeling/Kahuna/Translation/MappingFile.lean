import Kahuna.Transition.Basic
import Kahuna.Translation.Mapping

/-!
# Mapping files

The model of the parser in `mapping_translators.rs`. A file has one key and one label in a line, and may have
a line with its name and one with its number of bits. Lines are read in order up to the first one in error,
then the keys are checked against the number of bits, again in order.

Texts are lists of characters. A text is cut at a number of bytes only in `parseSpecifier`, and the other cuts
of the source are behind characters that it found.
-/

namespace Translation

open Numerals Text Wave

/-- `MappingParseError`, as far as the content of a file leads to it. -/
inductive MappingParseError where
  | invalidBitsValue (text : List Char)
  | invalidHex (text : List Char)
  | invalidOctal (text : List Char)
  | unknownKindColor (text : List Char)
  | binaryTooWide (value : List Char) (required specified : ℕ)
  | stringLengthMismatch (value : List Char) (valueLen expected : ℕ)
  | invalidStringCharacters (value : List Char)
  | missingMapping
  | emptyLine
  | lineError (line : ℕ) (content message : List Char)
  deriving DecidableEq, Repr

/-- The text of an error. -/
def MappingParseError.message : MappingParseError → List Char
  | .invalidBitsValue text => "Invalid bits value: ".toList ++ text
  | .invalidHex text => "Invalid hex number: ".toList ++ text
  | .invalidOctal text => "Invalid octal number: ".toList ++ text
  | .unknownKindColor text => "Unknown kind/color: ".toList ++ text
  | .binaryTooWide value required specified =>
    "Binary string '".toList ++ value ++ "' requires ".toList ++ Nat.toDigits 10 required ++
      " bits, but only ".toList ++ Nat.toDigits 10 specified ++ " bits specified".toList
  | .stringLengthMismatch value valueLen expected =>
    "String '".toList ++ value ++ "' has ".toList ++ Nat.toDigits 10 valueLen ++
      " characters, expected ".toList ++ Nat.toDigits 10 expected ++
      " characters to match bit width".toList
  | .invalidStringCharacters value =>
    "String '".toList ++ value ++
      ("' contains invalid characters. Only 01zx-hlwu are allowed. Maybe you are missing a 0b prefix for " ++
        "a binary string?").toList
  | .missingMapping => "Missing mapping".toList
  | .emptyLine => "Empty line".toList
  | .lineError line content message =>
    "Line ".toList ++ Nat.toDigits 10 line ++ ": ".toList ++ message ++ "\n  Content: ".toList ++ content

/-- What ends the parser early. -/
inductive Failure where
  | panic (p : Panic)
  | error (e : MappingParseError)
  deriving DecidableEq, Repr

abbrev Parse (α : Type) := Except Failure α

/-- A computation that may panic, as a step of the parser. -/
def orPanic {α : Type} : Run α → Parse α
  | .ok a => .ok a
  | .error p => .error (.panic p)

/-! ## Keys and labels -/

/-- A line with a key and a label. The width is the one of its key, before it is cast to 32 bits. -/
structure RawEntry where
  value : VariableValue
  label : List Char
  kind : ValueKind
  width : ℕ
  deriving DecidableEq, Repr

/-- The width of a key as an unsigned number of 32 bits. -/
def RawEntry.valueLen (e : RawEntry) : ℕ := e.width % 2 ^ 32

/-- `to_lowercase`, as far as it leads to ASCII characters. -/
def toLowercase (c : Char) : Char := if c = '\u212a' then 'k' else c.toLower

/-- The characters of a text of bits. -/
def isBitChar (c : Char) : Bool := c ∈ ['0', '1', 'z', 'x', '-', 'h', 'l', 'w', 'u']

/-- The text behind a prefix that is given in two ways. -/
def stripEither (start start' : String) (l : List Char) : Option (List Char) :=
  (stripPrefix start.toList l).orElse fun _ => stripPrefix start'.toList l

/-- The value of a key and its width. -/
def parseKeyValue (token : List Char) : Except MappingParseError (VariableValue × ℕ) :=
  let cleaned := token.filter (· ≠ '_')
  match stripEither "0b" "0B" cleaned with
  | some binStr =>
    match parseBytes 2 binStr with
    | some val => .ok (.bigUint val, binStr.length)
    | none =>
      let lower := binStr.map toLowercase
      if lower.all isBitChar then .ok (.string (String.ofList lower), lower.length)
      else .error (.invalidBitsValue token)
  | none =>
    match stripEither "0o" "0O" cleaned with
    | some octStr =>
      match parseBytes 8 octStr with
      | some num => .ok (.bigUint num, bits num)
      | none => .error (.invalidOctal token)
    | none =>
      match stripEither "0x" "0X" cleaned with
      | some hexStr =>
        match parseBytes 16 hexStr with
        | some num => .ok (.bigUint num, bits num)
        | none => .error (.invalidHex token)
      | none =>
        match parseBytes 10 cleaned with
        | some num => .ok (.bigUint num, bits num)
        | none => .error (.invalidStringCharacters token)

/-- The kinds and colours by their names. -/
def kindColorKeywords : List (String × ValueKind) :=
  [("normal", .normal), ("default", .normal), ("undef", .undef), ("highimp", .highImp), ("warn", .warn),
    ("dontcare", .dontCare), ("weak", .weak), ("error", .error), ("black", .custom .black),
    ("white", .custom .white), ("red", .custom .red), ("green", .custom .green),
    ("blue", .custom .blue), ("yellow", .custom .yellow), ("cyan", .custom .cyan),
    ("magenta", .custom .magenta), ("gray", .custom .gray), ("grey", .custom .gray),
    ("light_gray", .custom .lightGray), ("light_grey", .custom .lightGray),
    ("dark_gray", .custom .darkGray), ("dark_grey", .custom .darkGray), ("brown", .custom .brown),
    ("dark_red", .custom .darkRed), ("light_red", .custom .lightRed), ("orange", .custom .orange),
    ("light_yellow", .custom .lightYellow), ("khaki", .custom .khaki),
    ("dark_green", .custom .darkGreen), ("light_green", .custom .lightGreen),
    ("dark_blue", .custom .darkBlue), ("light_blue", .custom .lightBlue), ("purple", .custom .purple),
    ("gold", .custom .gold)]

/-- The kind that a colour or a keyword names. -/
def parseColorKind (token : List Char) : Except MappingParseError ValueKind :=
  let hexStr := (stripPrefix ['#'] token).getD token
  if hexStr.length = 6 ∧ IsNumeral 16 hexStr then
    -- two hexadecimal digits always make a byte
    let r := value 16 (hexStr.take 2)
    let g := value 16 ((hexStr.drop 2).take 2)
    let b := value 16 ((hexStr.drop 4).take 2)
    .ok (.custom (.fromRgb r g b))
  else
    match kindColorKeywords.lookup (String.ofList (token.map toLowercase)) with
    | some kind => .ok kind
    | none => .error (.unknownKindColor token)

/-- The value, the kind and the width of a key, which may have its kind in brackets behind it. -/
def parseKeyWithKind (token : List Char) : Except MappingParseError (VariableValue × ValueKind × ℕ) :=
  let bracketPos := token.idxOf '['
  let closeBracket := token.idxOf ']'
  if bracketPos < closeBracket ∧ closeBracket < token.length then do
    let (value, width) ← parseKeyValue (token.take bracketPos)
    let kind ← parseColorKind ((token.take closeBracket).drop (bracketPos + 1))
    pure (value, kind, width)
  else do
    let (value, width) ← parseKeyValue token
    pure (value, .normal, width)

/-- The entry of a line: its key, and its label behind white space. -/
def parseLine (line : List Char) : Except MappingParseError RawEntry :=
  let rest := line.dropWhile isWhitespace
  let firstToken := rest.takeWhile fun c => !isWhitespace c
  let remainder := (rest.dropWhile fun c => !isWhitespace c).dropWhile isWhitespace
  if firstToken = [] then .error .emptyLine
  else do
    let (first, kind, firstLen) ← parseKeyWithKind firstToken
    if remainder = [] then .error .missingMapping else pure ⟨first, remainder, kind, firstLen⟩

/-! ## Lines -/

/-- The number of bytes of a text. -/
def byteLen (l : List Char) : ℕ := (l.map Char.utf8Size).sum

/-- The text up to a number of bytes and the text behind, if no character is cut. -/
def splitBytes : ℕ → List Char → Option (List Char × List Char)
  | 0, l => some ([], l)
  | _ + 1, [] => none
  | n + 1, c :: l =>
    if c.utf8Size ≤ n + 1 then (splitBytes (n + 1 - c.utf8Size) l).map fun (before, after) =>
      (c :: before, after)
    else none

/-- The value of a line that begins with a keyword, in letters of either case, and an equals sign. -/
def parseSpecifier (line : List Char) (keyword : String) : Run (Option (List Char)) :=
  if byteLen line < keyword.length then .ok none
  else
    match splitBytes keyword.length line with
    | none => .error (.assertion "byte index is not a char boundary")
    | some (start, afterKeyword) =>
      if start.map Char.toLower ≠ keyword.toList then .ok none
      else .ok ((stripPrefix ['='] (afterKeyword.dropWhile isWhitespace)).map trim)

/-- `str::lines`. -/
def lines (content : List Char) : List (List Char) :=
  let parts := content.splitOn '\n'
  let ended := parts.dropLast.map fun l => if l.getLast? = some '\r' then l.dropLast else l
  match parts.getLast? with
  | none | some [] => ended
  | some last => ended ++ [last]

/-- A line with its number, as it stands and without white space around it. -/
structure Line where
  number : ℕ
  content : List Char
  processed : List Char
  deriving DecidableEq, Repr

/-- The lines that are neither empty nor comments. -/
def significantLines (content : List Char) : List Line :=
  ((lines content).zipIdx.map fun e => (⟨e.2, e.1, trim e.1⟩ : Line)).filter fun line =>
    line.processed ≠ [] ∧ line.processed.head? ≠ some '#'

/-- What was read of a file. -/
structure FileState where
  name : Option (List Char)
  bits : Option ℕ
  rawEntries : List RawEntry
  deriving DecidableEq, Repr

/-- `str::parse::<u32>`. -/
def parseU32 (l : List Char) : Option ℕ :=
  let digits := if l.head? = some '+' then l.tail else l
  (parseNat digits).filter (· < 2 ^ 32)

/-- The error of a line. -/
def Line.error (line : Line) (message : List Char) : Failure :=
  .error (.lineError (line.number + 1) line.content message)

/-- One line. -/
def readLine (st : FileState) (line : Line) : Parse FileState := do
  match ← orPanic (parseSpecifier line.processed "name") with
  | some nameValue =>
    if st.name.isSome then .error (line.error "Multiple Name specifiers found".toList)
    else pure { st with name := some nameValue }
  | none =>
    match ← orPanic (parseSpecifier line.processed "bits") with
    | some bitsValue =>
      if st.bits.isSome then .error (line.error "Multiple Bits specifiers found".toList)
      else
        match parseU32 bitsValue with
        | some bitsNum => pure { st with bits := some bitsNum }
        | none => .error (.error (.invalidBitsValue bitsValue))
    | none =>
      match parseLine line.processed with
      | .ok entry => pure { st with rawEntries := st.rawEntries ++ [entry] }
      | .error e => .error (line.error e.message)

/-- All lines. -/
def readLines (content : List Char) : Parse FileState :=
  (significantLines content).foldlM readLine ⟨none, none, []⟩

/-- The number of bits, which is the width of the widest key if it is not given. -/
def FileState.bitWidth (st : FileState) : ℕ :=
  st.bits.getD ((st.rawEntries.map RawEntry.valueLen).max?.getD 0)

/-! ## The table -/

/-- The key of a value in a table of a number of bits. -/
def normalizeFirstColumn (value : VariableValue) (valueLen bitWidth : ℕ) : Parse VariableValue :=
  match value with
  | .bigUint v =>
    if bitWidth < valueLen then do
      let text ← orPanic (formatBinary valueLen v)
      .error (.error (.binaryTooWide text valueLen bitWidth))
    else pure (.bigUint v)
  | .string s =>
    if s.toList.all fun c => c = '0' ∨ c = '1' then
      if bitWidth < valueLen then .error (.error (.binaryTooWide s.toList valueLen bitWidth))
      else
        match parseBytes 2 s.toList with
        | some v => pure (.bigUint v)
        | none => .error (.panic (.expect "binary string should parse as BigUint"))
    else if bitWidth < s.toList.length then
      .error (.error (.stringLengthMismatch s.toList (s.toList.length % 2 ^ 32) bitWidth))
    else pure (.string (String.ofList (extendString s.toList bitWidth ++ s.toList)))

/-- One entry is added, unless its key is there. The text of the warning is made if warnings are written. -/
def insertEntry (warns : Bool) (bitWidth : ℕ) (entries : FiniteMap VariableValue MappingEntry)
    (e : RawEntry) : Parse (FiniteMap VariableValue MappingEntry) := do
  let key ← normalizeFirstColumn e.value e.valueLen bitWidth
  if (entries.get key).isSome then
    if warns then
      let _ ← orPanic (keyDisplay key bitWidth)
      pure entries
    else pure entries
  else pure (entries.insert key ⟨e.label, e.kind⟩)

/-- No key is a text of zeros and ones. -/
def Normalized (entries : FiniteMap VariableValue MappingEntry) : Prop :=
  ∀ s, (entries.get (.string s)).isSome → ∃ c ∈ s.toList, c ≠ '0' ∧ c ≠ '1'

theorem normalized_of_normalizeFirstColumn {value : VariableValue} {valueLen bitWidth : ℕ} {s : String}
    (h : normalizeFirstColumn value valueLen bitWidth = .ok (.string s)) :
    ∃ c ∈ s.toList, c ≠ '0' ∧ c ≠ '1' := by
  cases value with
  | bigUint v =>
    rw [normalizeFirstColumn] at h
    split at h
    next =>
      obtain ⟨text, -, hfalse⟩ := Except.bind_eq_ok.1 h
      cases hfalse
    next => cases h
  | string t =>
    rw [normalizeFirstColumn] at h
    split at h
    next =>
      -- a text of zeros and ones becomes a number
      split at h
      next => cases h
      next => split at h <;> cases h
    next hbits =>
      split at h
      next => cases h
      next =>
        cases h
        simp only [List.all_eq_true, decide_eq_true_eq] at hbits
        push Not at hbits
        -- the text is filled up in front, so that it keeps its characters
        obtain ⟨c, hc, hzero, hone⟩ := hbits
        exact ⟨c, by simp [hc], hzero, hone⟩

theorem Normalized.insertEntry {entries entries' : FiniteMap VariableValue MappingEntry}
    (hentries : Normalized entries) {warns : Bool} {bitWidth : ℕ} {e : RawEntry}
    (h : insertEntry warns bitWidth entries e = .ok entries') : Normalized entries' := by
  obtain ⟨key, hkey, h⟩ := Except.bind_eq_ok.1 h
  split at h
  next =>
    -- the key is in the table, with a warning or without
    split at h
    next =>
      obtain ⟨-, -, hsame⟩ := Except.bind_eq_ok.1 h
      cases hsame
      exact hentries
    next =>
      cases h
      exact hentries
  next =>
    cases h
    intro s hs
    rw [FiniteMap.get_insert] at hs
    split at hs
    next heq =>
      subst heq
      exact normalized_of_normalizeFirstColumn hkey
    next => exact hentries s hs

theorem normalized_of_foldlM {warns : Bool} {bitWidth : ℕ} {es : List RawEntry}
    {entries entries' : FiniteMap VariableValue MappingEntry} (hentries : Normalized entries)
    (h : es.foldlM (insertEntry warns bitWidth) entries = .ok entries') : Normalized entries' := by
  induction es generalizing entries with
  | nil =>
    cases h
    exact hentries
  | cons e es ih =>
    rw [List.foldlM_cons] at h
    obtain ⟨next, hnext, h⟩ := Except.bind_eq_ok.1 h
    exact ih (hentries.insertEntry hnext) h

theorem normalized_empty : Normalized FiniteMap.empty := by
  intro s hs
  simp at hs

/-- The table of a file. -/
def parseContentWithDefaultName (warns : Bool) (content : List Char) (defaultName : Option (List Char)) :
    Parse MappingTranslatorMap :=
  match readLines content with
  | .error f => .error f
  | .ok st =>
    match h : st.rawEntries.foldlM (insertEntry warns st.bitWidth) FiniteMap.empty with
    | .error f => .error f
    | .ok entries =>
      .ok {
        name := (st.name.orElse fun _ => defaultName).getD "Unknown mapping".toList
        bits := st.bitWidth
        entries
        normalized := normalized_of_foldlM normalized_empty h }

end Translation
