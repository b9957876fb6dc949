import Kahuna.Translation.MappingLaw

/-!
# The table of a mapping file

The entries of a file are added to the table in order, each under its key in the number of bits of the table.

* `foldlM_insertEntry`: the table has the first entry of each key;
* `foldlM_insertEntry_ne_panic_iff`: at which entries the parser stops;
* `faithful_iff`: the files that are parsed without a panic, and whose tables say what the files do.
-/

namespace Translation

open Numerals Text Wave

/-- The key is not wider than the table. -/
def Fits (bitWidth : ℕ) (e : RawEntry) : Prop :=
  match e.value with
  | .bigUint _ => e.valueLen ≤ bitWidth
  | .string s => s.toList.length ≤ bitWidth

instance (bitWidth : ℕ) (e : RawEntry) : Decidable (Fits bitWidth e) := by
  unfold Fits
  split <;> infer_instance

/-- The parser stops at an entry: its key has no digits, or a number is formatted with a width that does not
fit in sixteen bits, for the error on a key that is too wide or for the warning on a key that is repeated. -/
def Breaks (warns : Bool) (bitWidth : ℕ) (before : List RawEntry) (e : RawEntry) : Prop :=
  e.value = .string "" ∨ ∃ v, e.value = .bigUint v ∧
    (bitWidth < e.valueLen ∧ 2 ^ 16 ≤ e.valueLen ∨
      warns ∧ 2 ^ 16 ≤ bitWidth ∧ e.valueLen ≤ bitWidth ∧ ∃ e' ∈ before, e'.value = .bigUint v)

/-- The key of an entry in a table. -/
def keyIn (bitWidth : ℕ) (e : RawEntry) : VariableValue := lookupValue bitWidth e.value

/-- What the first entry of a key says. -/
def firstEntry (bitWidth : ℕ) (es : List RawEntry) (key : VariableValue) : Option MappingEntry :=
  (es.find? fun e => keyIn bitWidth e = key).map fun e => ⟨e.label, e.kind⟩

variable {warns : Bool} {bitWidth : ℕ} {e : RawEntry}

/-- A text that is a key is no text of zeros and ones, unless it is empty. -/
theorem WellKeyed.not_binary {s : String} {width : ℕ} (h : WellKeyed (.string s) width) (hne : s ≠ "") :
    ¬ (s.toList.all fun c => c = '0' ∨ c = '1') = true := by
  rw [List.all_eq_true]
  rcases h.2.2 with hempty | ⟨c, hc, hzero, hone⟩
  · exact absurd hempty hne
  · intro hall
    exact (of_decide_eq_true (hall c hc)).elim hzero hone

/-- A key that is not wider than the table is filled up to its width. -/
theorem normalizeFirstColumn_of_fits (he : WellKeyed e.value e.width) (hfits : Fits bitWidth e)
    (hne : e.value ≠ .string "") :
    normalizeFirstColumn e.value e.valueLen bitWidth = .ok (keyIn bitWidth e) := by
  rw [keyIn]
  rw [Fits] at hfits
  cases hvalue : e.value with
  | bigUint v =>
    simp only [hvalue] at hfits
    rw [normalizeFirstColumn, if_neg (by omega)]
    rfl
  | string s =>
    simp only [hvalue] at hfits
    rw [hvalue] at he hne
    have hother := he.not_binary fun hs => hne (hs ▸ rfl)
    rw [normalizeFirstColumn, if_neg hother, if_neg (by omega)]
    rfl

/-- A key without digits panics. -/
theorem normalizeFirstColumn_of_empty (bitWidth : ℕ) (he : WellKeyed e.value e.width)
    (hempty : e.value = .string "") :
    ∃ p, normalizeFirstColumn e.value e.valueLen bitWidth = .error (.panic p) := by
  have hlen : e.valueLen = 0 := by
    rw [hempty] at he
    have hwidth : 0 = e.width := he.1
    rw [RawEntry.valueLen, ← hwidth, Nat.zero_mod]
  rw [hempty, hlen]
  exact ⟨_, rfl⟩

/-- A number that is wider than the table is an error, or panics if its width cannot be formatted. -/
theorem normalizeFirstColumn_of_wide {v : ℕ} (hwide : bitWidth < e.valueLen) :
    normalizeFirstColumn (.bigUint v) e.valueLen bitWidth =
      if e.valueLen < 2 ^ 16 then
        .error (.error (.binaryTooWide (padded 2 e.valueLen v) e.valueLen bitWidth))
      else .error (.panic (.assertion "Formatting argument out of range")) := by
  rw [normalizeFirstColumn, if_pos hwide, formatBinary]
  split <;> rfl

/-- A text that is wider than the table is an error. -/
theorem normalizeFirstColumn_of_long {s : String} (he : WellKeyed (.string s) e.width)
    (hlong : bitWidth < s.toList.length) :
    ∃ err, normalizeFirstColumn (.string s) e.valueLen bitWidth = .error (.error err) := by
  have hother := he.not_binary (by rintro rfl; simp at hlong)
  rw [normalizeFirstColumn, if_neg hother, if_pos hlong]
  exact ⟨_, rfl⟩

/-- The key of a number is the number. -/
theorem keyIn_eq_bigUint_iff (bitWidth : ℕ) {e : RawEntry} {v : ℕ} :
    keyIn bitWidth e = .bigUint v ↔ e.value = .bigUint v := by
  rw [keyIn]
  cases e.value <;> simp [lookupValue]

theorem firstEntry_concat (es : List RawEntry) (e : RawEntry) (key : VariableValue) :
    firstEntry bitWidth (es ++ [e]) key =
      (firstEntry bitWidth es key).or
        (if keyIn bitWidth e = key then some ⟨e.label, e.kind⟩ else none) := by
  rw [firstEntry, firstEntry, List.find?_append]
  cases es.find? (fun e => keyIn bitWidth e = key) with
  | some e' => rfl
  | none =>
    by_cases hkey : keyIn bitWidth e = key
    · simp [hkey]
    · simp [hkey]

theorem isSome_firstEntry_iff {es : List RawEntry} {key : VariableValue} :
    (firstEntry bitWidth es key).isSome ↔ ∃ e ∈ es, keyIn bitWidth e = key := by
  rw [firstEntry, Option.isSome_map, List.find?_isSome]
  simp

section Step

variable {entries : FiniteMap VariableValue MappingEntry} {before : List RawEntry}

theorem insertEntry_of_error {f : Failure}
    (h : normalizeFirstColumn e.value e.valueLen bitWidth = .error f) :
    insertEntry warns bitWidth entries e = .error f := by
  rw [insertEntry, h]
  rfl

/-- An entry whose key is in the table changes nothing, but its warning may panic. -/
theorem insertEntry_of_repeated (warns : Bool) {key : VariableValue}
    (h : normalizeFirstColumn e.value e.valueLen bitWidth = .ok key) (hkey : (entries.get key).isSome) :
    (¬ (warns ∧ 2 ^ 16 ≤ bitWidth ∧ ∃ v, key = .bigUint v) →
        insertEntry warns bitWidth entries e = .ok entries) ∧
      (warns ∧ 2 ^ 16 ≤ bitWidth ∧ (∃ v, key = .bigUint v) →
        ∃ p, insertEntry warns bitWidth entries e = .error (.panic p)) := by
  have hstep : insertEntry warns bitWidth entries e =
      if warns then orPanic (keyDisplay key bitWidth) >>= fun _ => pure entries else pure entries := by
    rw [insertEntry, h]
    change (if (entries.get key).isSome then _ else _) = _
    rw [if_pos hkey]
  rw [hstep]
  cases warns with
  | false => exact ⟨fun _ => rfl, fun hwarns => by simp at hwarns⟩
  | true =>
    rw [if_pos rfl]
    cases key with
    | string s => exact ⟨fun _ => rfl, fun hwarns => by simp at hwarns⟩
    | bigUint v =>
      rw [keyDisplay, formatBinary]
      by_cases hwidth : bitWidth < 2 ^ 16
      · rw [if_pos hwidth]
        exact ⟨fun _ => rfl, fun hwarns => by omega⟩
      · rw [if_neg hwidth]
        exact ⟨fun hquiet => absurd ⟨rfl, Nat.not_lt.1 hwidth, v, rfl⟩ hquiet, fun _ => ⟨_, rfl⟩⟩

/-- An entry with a new key is added. -/
theorem insertEntry_of_new {key : VariableValue}
    (h : normalizeFirstColumn e.value e.valueLen bitWidth = .ok key) (hkey : entries.get key = none) :
    insertEntry warns bitWidth entries e = .ok (entries.insert key ⟨e.label, e.kind⟩) := by
  rw [insertEntry, h]
  change (if (entries.get key).isSome then _ else _) = _
  rw [hkey]
  rfl

/-- A wide key ends the parser, without a panic unless it breaks. -/
theorem insertEntry_of_not_fits (warns : Bool) (entries : FiniteMap VariableValue MappingEntry)
    (before : List RawEntry) (he : WellKeyed e.value e.width) (hfits : ¬ Fits bitWidth e) :
    ∃ f, insertEntry warns bitWidth entries e = .error f ∧
      ((∃ p, f = .panic p) ↔ Breaks warns bitWidth before e) := by
  rw [Fits] at hfits
  cases hvalue : e.value with
  | bigUint v =>
    simp only [hvalue, not_le] at hfits
    have hnormalize := normalizeFirstColumn_of_wide (v := v) hfits
    rw [← hvalue] at hnormalize
    -- the width that is printed with the error may be too great itself
    by_cases hshort : e.valueLen < 2 ^ 16
    · rw [if_pos hshort] at hnormalize
      refine ⟨_, insertEntry_of_error hnormalize, ?_⟩
      simp [Breaks, hvalue]
      omega
    · rw [if_neg hshort] at hnormalize
      refine ⟨_, insertEntry_of_error hnormalize, ?_⟩
      simp [Breaks, hvalue]
      omega
  | string s =>
    simp only [hvalue, not_le] at hfits
    have hne : s ≠ "" := by
      rintro rfl
      simp at hfits
    obtain ⟨err, herr⟩ := normalizeFirstColumn_of_long (hvalue ▸ he) hfits
    rw [← hvalue] at herr
    refine ⟨_, insertEntry_of_error herr, ?_⟩
    simp [Breaks, hvalue, hne]

/-- The entry of a key that fits is added, unless the entry breaks. -/
theorem insertEntry_of_fits (warns : Bool)
    (hentries : ∀ key, entries.get key = firstEntry bitWidth before key)
    (he : WellKeyed e.value e.width) (hfits : Fits bitWidth e) :
    (¬ Breaks warns bitWidth before e → ∃ entries', insertEntry warns bitWidth entries e = .ok entries' ∧
        ∀ key, entries'.get key = firstEntry bitWidth (before ++ [e]) key) ∧
      (Breaks warns bitWidth before e → ∃ p, insertEntry warns bitWidth entries e = .error (.panic p)) := by
  by_cases hempty : e.value = .string ""
  · obtain ⟨p, hp⟩ := normalizeFirstColumn_of_empty bitWidth he hempty
    exact ⟨fun h => absurd (Or.inl hempty) h, fun _ => ⟨p, insertEntry_of_error hp⟩⟩
  have hnormalize := normalizeFirstColumn_of_fits he hfits hempty
  -- of what makes the parser stop, only the warning is left
  have hbreaks : Breaks warns bitWidth before e ↔
      (warns ∧ 2 ^ 16 ≤ bitWidth ∧ ∃ v, keyIn bitWidth e = .bigUint v) ∧
        ∃ e' ∈ before, keyIn bitWidth e' = keyIn bitWidth e := by
    constructor
    · rintro (h | ⟨v, hv, ⟨hwide, -⟩ | ⟨hwarns, hwidth, -, e', he', hv'⟩⟩)
      · exact absurd h hempty
      · rw [Fits, hv] at hfits
        exact absurd hfits (Nat.not_le.2 hwide)
      · rw [← keyIn_eq_bigUint_iff bitWidth] at hv hv'
        exact ⟨⟨hwarns, hwidth, v, hv⟩, e', he', hv'.trans hv.symm⟩
    · rintro ⟨⟨hwarns, hwidth, v, hv⟩, e', he', hkey⟩
      rw [hv, keyIn_eq_bigUint_iff] at hkey
      rw [keyIn_eq_bigUint_iff] at hv
      rw [Fits, hv] at hfits
      exact Or.inr ⟨v, hv, Or.inr ⟨hwarns, hwidth, hfits, e', he', hkey⟩⟩
  rw [hbreaks, ← isSome_firstEntry_iff, ← hentries]
  cases hget : entries.get (keyIn bitWidth e) with
  | none =>
    refine ⟨fun _ => ⟨_, insertEntry_of_new hnormalize hget, fun key => ?_⟩, by simp⟩
    rw [FiniteMap.get_insert, firstEntry_concat, ← hentries]
    by_cases hkey : key = keyIn bitWidth e
    · simp [hkey, hget]
    · simp [hkey, Ne.symm hkey]
  | some entry =>
    have hstep := insertEntry_of_repeated warns hnormalize (Option.isSome_of_eq_some hget)
    rw [Option.isSome_some, and_iff_left rfl]
    refine ⟨fun h => ⟨entries, hstep.1 h, fun key => ?_⟩, hstep.2⟩
    rw [firstEntry_concat, ← hentries]
    by_cases hkey : keyIn bitWidth e = key
    · simp [← hkey, hget]
    · simp [hkey]

end Step

section Run

variable {es : List RawEntry}

/-- No entry up to the first one that is too wide makes the parser stop. -/
def Unbroken (warns : Bool) (bitWidth : ℕ) (es : List RawEntry) : Prop :=
  ∀ before e after, es = before ++ e :: after → (∀ e' ∈ before, Fits bitWidth e') →
    ¬ Breaks warns bitWidth before e

/-- A table that is made has the first entry of each key, and every key fits. -/
theorem foldlM_insertEntry (hes : ∀ e ∈ es, WellKeyed e.value e.width)
    {entries : FiniteMap VariableValue MappingEntry}
    (h : es.foldlM (insertEntry warns bitWidth) FiniteMap.empty = .ok entries) :
    (∀ e ∈ es, Fits bitWidth e ∧ e.value ≠ .string "") ∧
      ∀ key, entries.get key = firstEntry bitWidth es key := by
  induction es using List.reverseRecOn generalizing entries with
  | nil =>
    cases h
    exact ⟨by simp, fun key => rfl⟩
  | append_singleton es e ih =>
    rw [List.forall_mem_append, List.forall_mem_singleton] at hes
    obtain ⟨entries', hentries', hlast⟩ := Except.foldlM_concat_eq_ok.1 h
    obtain ⟨hfits, hget⟩ := ih hes.1 hentries'
    have he : Fits bitWidth e := by
      by_contra hwide
      obtain ⟨f, hf, -⟩ := insertEntry_of_not_fits warns entries' es hes.2 hwide
      rw [hf] at hlast
      cases hlast
    obtain ⟨hgood, hbad⟩ := insertEntry_of_fits warns hget hes.2 he
    have hquiet : ¬ Breaks warns bitWidth es e := by
      intro hbreaks
      obtain ⟨p, hp⟩ := hbad hbreaks
      rw [hp] at hlast
      cases hlast
    obtain ⟨entries'', hok, hget'⟩ := hgood hquiet
    rw [hok] at hlast
    cases hlast
    rw [List.forall_mem_append, List.forall_mem_singleton]
    exact ⟨⟨hfits, he, fun hempty => hquiet (Or.inl hempty)⟩, hget'⟩

/-- A table is made if every key fits and no entry makes the parser stop. -/
theorem exists_foldlM_insertEntry (hes : ∀ e ∈ es, WellKeyed e.value e.width)
    (hfits : ∀ e ∈ es, Fits bitWidth e) (hunbroken : Unbroken warns bitWidth es) :
    ∃ entries, es.foldlM (insertEntry warns bitWidth) FiniteMap.empty = .ok entries := by
  induction es using List.reverseRecOn with
  | nil => exact ⟨_, rfl⟩
  | append_singleton es e ih =>
    rw [List.forall_mem_append, List.forall_mem_singleton] at hes hfits
    obtain ⟨entries, hentries⟩ := ih hes.1 hfits.1 fun before e' after hsplit =>
      hunbroken before e' (after ++ [e]) (by rw [hsplit, List.append_assoc, List.cons_append])
    have hget := (foldlM_insertEntry hes.1 hentries).2
    obtain ⟨entries', hok, -⟩ := (insertEntry_of_fits warns hget hes.2 hfits.2).1
      (hunbroken es e [] rfl hfits.1)
    exact ⟨entries', Except.foldlM_concat_eq_ok.2 ⟨entries, hentries, hok⟩⟩

/-- Entries that fit fail only with a panic. -/
theorem exists_panic_of_fits (hes : ∀ e ∈ es, WellKeyed e.value e.width)
    (hfits : ∀ e ∈ es, Fits bitWidth e) {f : Failure}
    (h : es.foldlM (insertEntry warns bitWidth) FiniteMap.empty = .error f) : ∃ p, f = .panic p := by
  obtain ⟨before, e, after, entries, rfl, hbefore, hstep⟩ := Except.foldlM_eq_error_iff.1 h
  rw [List.forall_mem_append, List.forall_mem_cons] at hes hfits
  have hget := (foldlM_insertEntry hes.1 hbefore).2
  obtain ⟨hgood, hbad⟩ := insertEntry_of_fits warns hget hes.2.1 hfits.2.1
  by_cases hbreaks : Breaks warns bitWidth before e
  · obtain ⟨p, hp⟩ := hbad hbreaks
    rw [hp] at hstep
    exact ⟨p, (Except.error.inj hstep).symm⟩
  · obtain ⟨entries', hok, -⟩ := hgood hbreaks
    rw [hok] at hstep
    cases hstep

/-- The parser stops exactly at the entries that make it stop, if those before them fit. -/
theorem foldlM_insertEntry_ne_panic_iff (hes : ∀ e ∈ es, WellKeyed e.value e.width) :
    (∀ p, es.foldlM (insertEntry warns bitWidth) FiniteMap.empty ≠ .error (.panic p)) ↔
      Unbroken warns bitWidth es := by
  constructor
  · rintro hsafe before e after rfl hfits hbreaks
    rw [List.forall_mem_append, List.forall_mem_cons] at hes
    obtain ⟨p, hp⟩ : ∃ p, (before ++ e :: after).foldlM (insertEntry warns bitWidth) FiniteMap.empty =
        .error (.panic p) := by
      -- the parser comes to the entry, or has stopped before it
      cases hbefore : before.foldlM (insertEntry warns bitWidth) FiniteMap.empty with
      | ok entries =>
        have hget := (foldlM_insertEntry hes.1 hbefore).2
        obtain ⟨p, hp⟩ : ∃ p, insertEntry warns bitWidth entries e = .error (.panic p) := by
          by_cases he : Fits bitWidth e
          · exact (insertEntry_of_fits warns hget hes.2.1 he).2 hbreaks
          · obtain ⟨f, hf, hpanic⟩ := insertEntry_of_not_fits warns entries before hes.2.1 he
            obtain ⟨p, rfl⟩ := hpanic.2 hbreaks
            exact ⟨p, hf⟩
        exact ⟨p, Except.foldlM_eq_error_iff.2 ⟨before, e, after, entries, rfl, hbefore, hp⟩⟩
      | error f =>
        obtain ⟨p, rfl⟩ := exists_panic_of_fits hes.1 hfits hbefore
        refine ⟨p, ?_⟩
        rw [List.foldlM_append, hbefore]
        rfl
    exact hsafe p hp
  · intro hunbroken p hp
    obtain ⟨before, e, after, entries, rfl, hbefore, hstep⟩ := Except.foldlM_eq_error_iff.1 hp
    rw [List.forall_mem_append, List.forall_mem_cons] at hes
    obtain ⟨hfits, hget⟩ := foldlM_insertEntry hes.1 hbefore
    have hquiet := hunbroken before e after rfl fun e' he' => (hfits e' he').1
    by_cases he : Fits bitWidth e
    · obtain ⟨entries', hok, -⟩ := (insertEntry_of_fits warns hget hes.2.1 he).1 hquiet
      rw [hok] at hstep
      cases hstep
    · obtain ⟨f, hf, hpanic⟩ := insertEntry_of_not_fits warns entries before hes.2.1 he
      rw [hf] at hstep
      exact hquiet (hpanic.1 ⟨p, Except.error.inj hstep⟩)

end Run

/-! ## Files -/

/-- What the lines of a file say. -/
def fileSaid (content : List Char) : Said := said (significantLines content)

/-- The number of bits of the table of a file. -/
def fileWidth (content : List Char) : ℕ := (fileSaid content).state.bitWidth

/-- A key is a number that fits in the bits of the table, or a text with one character for each bit. -/
def KeyFits (bits : ℕ) : VariableValue → Prop
  | .bigUint v => v < 2 ^ bits
  | .string s => s.toList.length = bits

/-- A table says what its file says. -/
structure Describes (content : List Char) (map : MappingTranslatorMap) : Prop where
  /-- No line has a key that is wider than the table. -/
  widths : ∀ e ∈ (fileSaid content).rawEntries, e.width ≤ map.bits
  /-- Every key of the table fits in its bits. -/
  fits : ∀ key, (map.entries.get key).isSome → KeyFits map.bits key
  /-- The first of several lines with a key decides. -/
  first : ∀ before e after, (fileSaid content).rawEntries = before ++ e :: after →
    (∀ e' ∈ before, keyIn map.bits e' ≠ keyIn map.bits e) →
      map.entries.get (keyIn map.bits e) = some ⟨e.label, e.kind⟩
  /-- Without a line for it, the number of bits is the greatest width of a key. -/
  inferred : (fileSaid content).bits = [] →
    map.bits = ((fileSaid content).rawEntries.map RawEntry.width).max?.getD 0
  /-- The key of every line has a label, which is found by translating it as it stands or filled up. -/
  found : ∀ e ∈ (fileSaid content).rawEntries, ∃ entry, map.entries.get (keyIn map.bits e) = some entry ∧
    map.basicTranslate map.bits e.value = .ok (entry.label, entry.kind) ∧
      map.basicTranslate map.bits (keyIn map.bits e) = .ok (entry.label, entry.kind)

/-- A file is parsed without a panic, and its table says what it says. -/
structure Faithful (warns : Bool) (content : List Char) (defaultName : Option (List Char)) : Prop where
  safe : ∀ p, parseContentWithDefaultName warns content defaultName ≠ .error (.panic p)
  describes : ∀ map, parseContentWithDefaultName warns content defaultName = .ok map →
    Describes content map

/-- A file that the parser can read: no line is cut inside a character up to the first one in error, no entry
makes the parser stop up to the first key that is too wide, and widths fit in 32 bits. -/
structure Readable (warns : Bool) (content : List Char) : Prop where
  boundary : ∀ before line after, significantLines content = before ++ line :: after →
    (said before).Accepted → CharBoundary 4 line.processed
  unbroken : (fileSaid content).Accepted →
    Unbroken warns (fileWidth content) (fileSaid content).rawEntries
  short : (fileSaid content).Accepted →
    (∀ e ∈ (fileSaid content).rawEntries, Fits (fileWidth content) e) →
      ∀ e ∈ (fileSaid content).rawEntries, ∀ v, e.value = .bigUint v → e.width < 2 ^ 32

variable {content : List Char} {defaultName : Option (List Char)} {map : MappingTranslatorMap}

theorem readLines_eq_ok_iff {st : FileState} :
    readLines content = .ok st ↔
      (∀ line ∈ significantLines content, CharBoundary 4 line.processed) ∧
        (fileSaid content).Accepted ∧ (fileSaid content).state = st :=
  foldlM_readLine_eq_ok_iff

/-- The table that is made of the entries of a file. -/
theorem of_parseContent_eq_ok
    (h : parseContentWithDefaultName warns content defaultName = .ok map) :
    (fileSaid content).Accepted ∧ map.bits = fileWidth content ∧
      (fileSaid content).rawEntries.foldlM (insertEntry warns (fileWidth content)) FiniteMap.empty =
        .ok map.entries := by
  rw [parseContentWithDefaultName] at h
  split at h
  next => cases h
  next st hst =>
    obtain ⟨-, haccepted, rfl⟩ := readLines_eq_ok_iff.1 hst
    split at h
    next => cases h
    next entries hentries =>
      cases h
      exact ⟨haccepted, rfl, hentries⟩

theorem parseContent_eq_error_iff {f : Failure} :
    parseContentWithDefaultName warns content defaultName = .error f ↔
      readLines content = .error f ∨ ∃ st, readLines content = .ok st ∧
        st.rawEntries.foldlM (insertEntry warns st.bitWidth) FiniteMap.empty = .error f := by
  rw [parseContentWithDefaultName]
  split
  next f' hf' => simp [hf']
  next st hst =>
    rw [hst]
    split
    next f' hf' => simp [hf']
    next entries hentries => simp [hentries]

theorem exists_parseContent_eq_ok (defaultName : Option (List Char)) {st : FileState}
    {entries : FiniteMap VariableValue MappingEntry}
    (hst : readLines content = .ok st)
    (hentries : st.rawEntries.foldlM (insertEntry warns st.bitWidth) FiniteMap.empty = .ok entries) :
    ∃ map, parseContentWithDefaultName warns content defaultName = .ok map := by
  cases h : parseContentWithDefaultName warns content defaultName with
  | ok map => exact ⟨map, rfl⟩
  | error f =>
    rcases parseContent_eq_error_iff.1 h with hread | ⟨st', hst', hfold⟩
    · rw [hst] at hread
      cases hread
    · rw [hst] at hst'
      cases hst'
      rw [hentries] at hfold
      cases hfold

/-- A text of bits that is not empty is filled up to the number of bits. -/
theorem length_extendString {s : List Char} (hbits : ∀ c ∈ s, isBitChar c) (hne : s ≠ [])
    (hle : s.length ≤ bitWidth) : (extendString s bitWidth ++ s).length = bitWidth := by
  rw [extendString]
  split
  next hlt =>
    obtain ⟨c, tail, rfl⟩ := List.exists_cons_of_ne_nil hne
    have hc := hbits c List.mem_cons_self
    simp only [isBitChar, List.mem_cons, List.not_mem_nil, or_false, decide_eq_true_eq] at hc
    rcases hc with rfl | rfl | rfl | rfl | rfl | rfl | rfl | rfl | rfl <;>
      simp only [List.head?_cons, List.length_append, List.length_replicate] <;> omega
  next =>
    rw [List.nil_append]
    omega

theorem extendString_of_length_eq {s : List Char} (h : s.length = bitWidth) :
    extendString s bitWidth = [] := by
  rw [extendString, if_neg (by omega)]

/-- The number of bits has 32 bits itself. -/
theorem fileWidth_lt (content : List Char) : fileWidth content < 2 ^ 32 := by
  rw [fileWidth, FileState.bitWidth]
  cases hbits : (fileSaid content).state.bits with
  | some n =>
    obtain ⟨value, -, hvalue⟩ := Option.bind_eq_some_iff.1 hbits
    rw [parseU32, Option.filter_eq_some_iff, decide_eq_true_eq] at hvalue
    exact hvalue.2
  | none =>
    cases hmax : ((fileSaid content).state.rawEntries.map RawEntry.valueLen).max? with
    | none => exact Nat.two_pow_pos 32
    | some n =>
      obtain ⟨e, -, rfl⟩ := List.mem_map.1 (List.max?_mem hmax)
      exact Nat.mod_lt _ (Nat.two_pow_pos 32)

/-- The width of a key that fits is not changed by the cast to 32 bits, and its key fits in the table. -/
theorem keyFits_of_fits (he : WellKeyed e.value e.width) (hfits : Fits bitWidth e)
    (hne : e.value ≠ .string "") (hlt : bitWidth < 2 ^ 32)
    (hshort : ∀ v, e.value = .bigUint v → e.width < 2 ^ 32) :
    e.valueLen = e.width ∧ e.width ≤ bitWidth ∧ KeyFits bitWidth (keyIn bitWidth e) := by
  rw [Fits] at hfits
  rw [keyIn]
  cases hvalue : e.value with
  | bigUint v =>
    have hlen : e.valueLen = e.width := Nat.mod_eq_of_lt (hshort v hvalue)
    simp only [hvalue] at hfits he
    have hv : v < 2 ^ e.width := he
    exact ⟨hlen, hlen ▸ hfits, hv.trans_le (Nat.pow_le_pow_right (by omega) (hlen ▸ hfits))⟩
  | string s =>
    simp only [hvalue] at hfits he hne
    obtain ⟨hwidth, hbits, -⟩ := he
    have hs : s.toList ≠ [] := fun hnil => hne (congrArg _ (String.toList_eq_nil_iff.1 hnil))
    refine ⟨Nat.mod_eq_of_lt (by omega), by omega, ?_⟩
    rw [lookupValue, KeyFits, String.toList_ofList]
    exact length_extendString hbits hs hfits

/-- A key that fits is looked up as it stands. -/
theorem lookupValue_of_keyFits {key : VariableValue} (h : KeyFits bitWidth key) :
    lookupValue bitWidth key = key := by
  cases key with
  | bigUint v => rfl
  | string s => rw [lookupValue, extendString_of_length_eq h, List.nil_append, String.ofList_toList]

/-- The first entry of a key, behind entries with other keys. -/
theorem firstEntry_append_cons {before after : List RawEntry}
    (hnew : ∀ e' ∈ before, keyIn bitWidth e' ≠ keyIn bitWidth e) :
    firstEntry bitWidth (before ++ e :: after) (keyIn bitWidth e) = some ⟨e.label, e.kind⟩ := by
  have hnone : before.find? (fun e' => keyIn bitWidth e' = keyIn bitWidth e) = none := by
    rw [List.find?_eq_none]
    simpa using hnew
  rw [firstEntry, List.find?_append, hnone]
  simp

/-- A table that is made says what its file says if no number is too wide for 32 bits. -/
theorem describes_of_short (h : parseContentWithDefaultName warns content defaultName = .ok map)
    (hshort : ∀ e ∈ (fileSaid content).rawEntries, ∀ v, e.value = .bigUint v → e.width < 2 ^ 32) :
    Describes content map := by
  obtain ⟨-, hwidth, hfold⟩ := of_parseContent_eq_ok h
  have hkeyed : ∀ e ∈ (fileSaid content).rawEntries, WellKeyed e.value e.width :=
    wellKeyed_rawEntries _
  obtain ⟨hfits, hget⟩ := foldlM_insertEntry hkeyed hfold
  rw [← hwidth] at hfits hget
  have hkey : ∀ e ∈ (fileSaid content).rawEntries, e.valueLen = e.width ∧ e.width ≤ map.bits ∧
      KeyFits map.bits (keyIn map.bits e) :=
    fun e he => keyFits_of_fits (hkeyed e he) (hfits e he).1 (hfits e he).2
      (hwidth ▸ fileWidth_lt content) (hshort e he)
  constructor
  · exact fun e he => (hkey e he).2.1
  · intro key hsome
    rw [hget, isSome_firstEntry_iff] at hsome
    obtain ⟨e, he, rfl⟩ := hsome
    exact (hkey e he).2.2
  · intro before e after hsplit hnew
    rw [hget, hsplit, firstEntry_append_cons hnew]
  · intro hnone
    have hbits : (fileSaid content).state.bits = none := by rw [Said.state, hnone]; rfl
    rw [hwidth, fileWidth, FileState.bitWidth, hbits, Option.getD_none]
    congr 2
    exact List.map_congr_left fun e he => (hkey e he).1
  · intro e he
    obtain ⟨entry, hentry⟩ := Option.isSome_iff_exists.1 (isSome_firstEntry_iff.2 ⟨e, he, rfl⟩)
    rw [← hget] at hentry
    refine ⟨entry, hentry, ?_, ?_⟩
    · rw [keyIn] at hentry
      rw [MappingTranslatorMap.basicTranslate, hentry]
    · rw [MappingTranslatorMap.basicTranslate, lookupValue_of_keyFits (hkey e he).2.2, hentry]

/-- **Mapping files** are parsed without a panic and into the table that they describe exactly if the parser
can read them. -/
theorem faithful_iff (warns : Bool) (content : List Char) (defaultName : Option (List Char)) :
    Faithful warns content defaultName ↔ Readable warns content := by
  have hkeyed : ∀ e ∈ (fileSaid content).rawEntries, WellKeyed e.value e.width :=
    wellKeyed_rawEntries _
  have hread : ∀ {before : List Line}, (∀ b l a, before = b ++ l :: a → (said b).Accepted →
      CharBoundary 4 l.processed) → (said before).Accepted →
      ∀ line ∈ before, CharBoundary 4 line.processed := by
    intro before hboundary haccepted line hline
    obtain ⟨b, a, rfl⟩ := List.append_of_mem hline
    exact hboundary b line a rfl haccepted.of_append
  constructor
  · rintro ⟨hsafe, hdescribes⟩
    have hboundary : ∀ before line after, significantLines content = before ++ line :: after →
        (said before).Accepted → CharBoundary 4 line.processed :=
      foldlM_readLine_ne_panic_iff.1 fun p hp => hsafe p (parseContent_eq_error_iff.2 (Or.inl hp))
    have hst : (fileSaid content).Accepted → readLines content = .ok (fileSaid content).state :=
      fun haccepted => readLines_eq_ok_iff.2 ⟨hread hboundary haccepted, haccepted, rfl⟩
    have hunbroken : (fileSaid content).Accepted →
        Unbroken warns (fileWidth content) (fileSaid content).rawEntries := by
      intro haccepted
      rw [← foldlM_insertEntry_ne_panic_iff hkeyed]
      exact fun p hp => hsafe p (parseContent_eq_error_iff.2 (Or.inr ⟨_, hst haccepted, hp⟩))
    -- with a wider number the table could not have the width of every key
    refine ⟨hboundary, hunbroken, fun haccepted hfits e he v _ => ?_⟩
    obtain ⟨entries, hentries⟩ := exists_foldlM_insertEntry hkeyed hfits (hunbroken haccepted)
    obtain ⟨map, hmap⟩ := exists_parseContent_eq_ok defaultName (hst haccepted) hentries
    calc e.width ≤ map.bits := (hdescribes map hmap).widths e he
      _ = fileWidth content := (of_parseContent_eq_ok hmap).2.1
      _ < 2 ^ 32 := fileWidth_lt content
  · rintro ⟨hboundary, hunbroken, hshort⟩
    constructor
    · intro p hp
      rcases parseContent_eq_error_iff.1 hp with hp | ⟨st, hst, hp⟩
      · exact foldlM_readLine_ne_panic_iff.2 hboundary p hp
      · obtain ⟨-, haccepted, rfl⟩ := readLines_eq_ok_iff.1 hst
        exact (foldlM_insertEntry_ne_panic_iff hkeyed).2 (hunbroken haccepted) p hp
    · intro map hmap
      obtain ⟨haccepted, -, hfold⟩ := of_parseContent_eq_ok hmap
      have hfits := (foldlM_insertEntry hkeyed hfold).1
      exact describes_of_short hmap (hshort haccepted fun e he => (hfits e he).1)

example :
    (parseContentWithDefaultName false "Bits = 4\n0b01[red] ONE\n1 AGAIN\n".toList none).toOption.map
        (fun map => (map.bits, map.entries.get (.bigUint 1))) =
      some (4, some ⟨"ONE".toList, .custom .red⟩) := by
  decide

/-- A line that begins with two digits, a blank and a character of two bytes is cut inside it. -/
theorem not_forall_faithful :
    ¬ ∀ (warns : Bool) (content : List Char) (defaultName : Option (List Char)),
      Faithful warns content defaultName := by
  intro hall
  have hread : readLines "12 µs".toList =
      .error (.panic (.assertion "byte index is not a char boundary")) := by
    decide
  exact (hall false "12 µs".toList none).safe _ (parseContent_eq_error_iff.2 (Or.inl hread))

end Translation
