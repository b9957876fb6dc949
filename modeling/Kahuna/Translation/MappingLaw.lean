import Kahuna.Translation.MappingFile

/-!
# The lines of a mapping file

A line is first compared with the keywords, for which it is cut at its fourth byte. If that lies inside a
character, the parser panics. Other lines are read, or are in error and end the parser.

* `foldlM_readLine_eq_ok_iff`: which lines are read, and what is kept of them;
* `foldlM_readLine_ne_panic_iff`: the lines up to the first one in error decide whether the parser panics;
* `wellKeyed_rawEntries`: the keys that are read.
-/

namespace Translation

open Numerals Text Wave

/-! ## Bytes -/

theorem byteLen_cons (c : Char) (l : List Char) : byteLen (c :: l) = c.utf8Size + byteLen l := by
  rw [byteLen, List.map_cons, List.sum_cons]
  rfl

theorem byteLen_eq_zero_iff {l : List Char} : byteLen l = 0 ↔ l = [] := by
  cases l with
  | nil => simp [byteLen]
  | cons c l =>
    have := c.utf8Size_pos
    rw [byteLen_cons]
    simp
    omega

theorem splitBytes_zero (l : List Char) : splitBytes 0 l = some ([], l) := by
  cases l <;> rfl

theorem splitBytes_zero_eq_some_iff {l before after : List Char} :
    splitBytes 0 l = some (before, after) ↔ l = before ++ after ∧ byteLen before = 0 := by
  rw [splitBytes_zero, byteLen_eq_zero_iff, Option.some_inj, Prod.mk.injEq]
  constructor
  · rintro ⟨rfl, rfl⟩
    exact ⟨rfl, rfl⟩
  · rintro ⟨happend, rfl⟩
    exact ⟨rfl, happend⟩

/-- A text that is cut at a number of bytes. -/
theorem splitBytes_eq_some_iff {n : ℕ} {l before after : List Char} :
    splitBytes n l = some (before, after) ↔ l = before ++ after ∧ byteLen before = n := by
  induction l generalizing n before with
  | nil =>
    cases n with
    | zero => exact splitBytes_zero_eq_some_iff
    | succ n =>
      simp only [splitBytes, reduceCtorEq, false_iff, not_and]
      intro happend
      rw [(List.append_eq_nil_iff.1 happend.symm).1]
      simp [byteLen]
  | cons c l ih =>
    cases n with
    | zero => exact splitBytes_zero_eq_some_iff
    | succ n =>
      rw [splitBytes]
      cases before with
      | nil =>
        have hzero : byteLen [] ≠ n + 1 := by simp [byteLen]
        simp [hzero]
      | cons d before =>
        rw [byteLen_cons, List.cons_append, List.cons.injEq]
        by_cases hle : c.utf8Size ≤ n + 1
        · simp only [if_pos hle, Option.map_eq_some_iff, Prod.mk.injEq, List.cons.injEq]
          constructor
          · rintro ⟨cut, hcut, ⟨rfl, rfl⟩, rfl⟩
            obtain ⟨hl, hlen⟩ := ih.1 hcut
            exact ⟨⟨rfl, hl⟩, by omega⟩
          · rintro ⟨⟨rfl, rfl⟩, hlen⟩
            exact ⟨(before, after), ih.2 ⟨rfl, by omega⟩, ⟨rfl, rfl⟩, rfl⟩
        · -- the cut would lie inside the first character
          simp only [if_neg hle, reduceCtorEq, false_iff]
          rintro ⟨⟨rfl, rfl⟩, hlen⟩
          omega

/-- The byte at which a text is cut does not lie inside a character. -/
def CharBoundary (n : ℕ) (l : List Char) : Prop :=
  byteLen l < n ∨ ∃ before after, l = before ++ after ∧ byteLen before = n

/-- A line panics if its keyword would end inside a character. -/
theorem exists_parseSpecifier_iff (line : List Char) (keyword : String) :
    (∃ value, parseSpecifier line keyword = .ok value) ↔ CharBoundary keyword.length line := by
  rw [parseSpecifier, CharBoundary]
  simp only [← splitBytes_eq_some_iff]
  split
  next hlt => simp [hlt]
  next hlt =>
    cases hcut : splitBytes keyword.length line with
    | none => simp [hlt]
    | some cut =>
      obtain ⟨before, after⟩ := cut
      simp only [Option.some_inj]
      constructor
      · exact fun _ => Or.inr ⟨before, after, rfl⟩
      · intro _
        by_cases hkeyword : before.map Char.toLower ≠ keyword.toList
        · exact ⟨_, if_pos hkeyword⟩
        · exact ⟨_, if_neg hkeyword⟩

/-! ## Lines -/

/-- What a line is for. -/
inductive LineKind where
  | name (value : List Char)
  | bits (value : List Char)
  | entry (result : Except MappingParseError RawEntry)

/-- What a line is for, if it is not cut inside a character. -/
def lineKind (line : Line) : LineKind :=
  match parseSpecifier line.processed "name" with
  | .ok (some value) => .name value
  | _ =>
    match parseSpecifier line.processed "bits" with
    | .ok (some value) => .bits value
    | _ => .entry (parseLine line.processed)

/-- What lines say: the names and the numbers of bits that they give, and their entries, with an error in
place of an entry that is not read. -/
structure Said where
  names : List (List Char)
  bits : List (List Char)
  results : List (Except MappingParseError RawEntry)

namespace Said

def add (s : Said) : LineKind → Said
  | .name value => { s with names := s.names ++ [value] }
  | .bits value => { s with bits := s.bits ++ [value] }
  | .entry result => { s with results := s.results ++ [result] }

/-- There is at most one name and one number of bits, the number is one, and every entry is read. -/
structure Accepted (s : Said) : Prop where
  names : s.names.length ≤ 1
  bits : s.bits.length ≤ 1
  number : ∀ value ∈ s.bits, (parseU32 value).isSome
  entries : ∀ result ∈ s.results, ∃ e, result = .ok e

/-- The entries that are read. -/
def rawEntries (s : Said) : List RawEntry := s.results.filterMap Except.toOption

/-- What is kept of the lines. -/
def state (s : Said) : FileState where
  name := s.names.head?
  bits := s.bits.head?.bind parseU32
  rawEntries := s.rawEntries

theorem Accepted.of_add {s : Said} {kind : LineKind} (h : (s.add kind).Accepted) : s.Accepted := by
  obtain ⟨hnames, hbits, hnumber, hentries⟩ := h
  cases kind with
  | name value =>
    simp only [add, List.length_append] at hnames
    exact ⟨by omega, hbits, hnumber, hentries⟩
  | bits value =>
    simp only [add, List.length_append, List.mem_append] at hbits hnumber
    exact ⟨hnames, by omega, fun v hv => hnumber v (Or.inl hv), hentries⟩
  | entry result =>
    simp only [add, List.mem_append] at hentries
    exact ⟨hnames, hbits, hnumber, fun r hr => hentries r (Or.inl hr)⟩

end Said

/-- What the lines of a file say. -/
def said (ls : List Line) : Said := ls.foldl (fun s line => s.add (lineKind line)) ⟨[], [], []⟩

theorem said_concat (ls : List Line) (line : Line) :
    said (ls ++ [line]) = (said ls).add (lineKind line) := by
  rw [said, List.foldl_append]
  rfl

/-- A line that is not cut inside a character changes the state by what it says. -/
def readKind (line : Line) (st : FileState) : LineKind → Parse FileState
  | .name value =>
    if st.name.isSome then .error (line.error "Multiple Name specifiers found".toList)
    else .ok { st with name := some value }
  | .bits value =>
    if st.bits.isSome then .error (line.error "Multiple Bits specifiers found".toList)
    else
      match parseU32 value with
      | some bitsNum => .ok { st with bits := some bitsNum }
      | none => .error (.error (.invalidBitsValue value))
  | .entry (.ok entry) => .ok { st with rawEntries := st.rawEntries ++ [entry] }
  | .entry (.error e) => .error (line.error e.message)

theorem readLine_eq {line : Line} (h : CharBoundary 4 line.processed) (st : FileState) :
    readLine st line = readKind line st (lineKind line) := by
  obtain ⟨name?, hname⟩ := (exists_parseSpecifier_iff _ "name").2 h
  obtain ⟨bits?, hbits⟩ := (exists_parseSpecifier_iff _ "bits").2 h
  rw [readLine, hname, hbits, lineKind, hname, hbits]
  cases name? with
  | some value => rfl
  | none =>
    cases bits? with
    | some value => rfl
    | none => cases hline : parseLine line.processed with
      | ok entry => rfl
      | error e => rfl

/-- The step of a line that is cut inside a character. -/
theorem readLine_eq_panic {line : Line} (h : ¬ CharBoundary 4 line.processed) (st : FileState) :
    ∃ p, readLine st line = .error (.panic p) := by
  cases hname : parseSpecifier line.processed "name" with
  | ok value => exact absurd ((exists_parseSpecifier_iff _ _).1 ⟨value, hname⟩) h
  | error p => exact ⟨p, by rw [readLine, hname]; rfl⟩

/-- A line adds what it says, or is in error. -/
theorem readKind_eq_ok_iff {s : Said} (hs : s.Accepted) (line : Line) {kind : LineKind}
    {st : FileState} :
    readKind line s.state kind = .ok st ↔ (s.add kind).Accepted ∧ (s.add kind).state = st := by
  obtain ⟨hnames, hbits, hnumber, hentries⟩ := hs
  cases kind with
  | name value =>
    cases hfirst : s.names with
    | nil =>
      have hadd : (s.add (.name value)).Accepted :=
        ⟨by simp [Said.add, hfirst], hbits, hnumber, hentries⟩
      have hstate : readKind line s.state (.name value) = .ok (s.add (.name value)).state := by
        simp [readKind, Said.state, Said.add, Said.rawEntries, hfirst]
      rw [hstate, Except.ok.injEq]
      simp [hadd]
    | cons first rest =>
      have hreject : ¬ (s.add (.name value)).Accepted := by
        intro hadd
        have hlength := hadd.names
        simp [Said.add, hfirst] at hlength
      simp [readKind, Said.state, hfirst, hreject]
  | bits value =>
    cases hfirst : s.bits with
    | nil =>
      cases hvalue : parseU32 value with
      | none =>
        have hreject : ¬ (s.add (.bits value)).Accepted := by
          intro hadd
          have hsome := hadd.number value (by simp [Said.add])
          simp [hvalue] at hsome
        simp [readKind, Said.state, hfirst, hreject, hvalue]
      | some bitsNum =>
        have hadd : (s.add (.bits value)).Accepted :=
          ⟨hnames, by simp [Said.add, hfirst], by simp [Said.add, hfirst, hvalue], hentries⟩
        have hstate : readKind line s.state (.bits value) = .ok (s.add (.bits value)).state := by
          simp [readKind, Said.state, Said.add, Said.rawEntries, hfirst, hvalue]
        rw [hstate, Except.ok.injEq]
        simp [hadd]
    | cons first rest =>
      have hsome := hnumber first (by simp [hfirst])
      have hreject : ¬ (s.add (.bits value)).Accepted := by
        intro hadd
        have hlength := hadd.bits
        simp [Said.add, hfirst] at hlength
      simp [readKind, Said.state, hfirst, hreject, hsome]
  | entry result =>
    cases result with
    | error e =>
      have hreject : ¬ (s.add (.entry (.error e))).Accepted := by
        intro hadd
        obtain ⟨entry, hentry⟩ := hadd.entries (.error e) (by simp [Said.add])
        cases hentry
      simp [readKind, hreject]
    | ok entry =>
      have hadd : (s.add (.entry (.ok entry))).Accepted := by
        refine ⟨hnames, hbits, hnumber, fun result hresult => ?_⟩
        rcases List.mem_append.1 hresult with hresult | hresult
        · exact hentries result hresult
        · exact ⟨entry, List.mem_singleton.1 hresult⟩
      have hstate : readKind line s.state (.entry (.ok entry)) =
          .ok (s.add (.entry (.ok entry))).state := by
        simp [readKind, Said.state, Said.add, Said.rawEntries, List.filterMap_append, Except.toOption]
      rw [hstate, Except.ok.injEq]
      simp [hadd]

/-- The lines are read if none is cut inside a character and none is in error. -/
theorem foldlM_readLine_eq_ok_iff {ls : List Line} {st : FileState} :
    ls.foldlM readLine ⟨none, none, []⟩ = .ok st ↔
      (∀ line ∈ ls, CharBoundary 4 line.processed) ∧ (said ls).Accepted ∧ (said ls).state = st := by
  induction ls using List.reverseRecOn generalizing st with
  | nil =>
    have haccepted : (said []).Accepted := ⟨by simp [said], by simp [said], by simp [said], by simp [said]⟩
    have hstate : (said []).state = ⟨none, none, []⟩ := rfl
    simp only [List.foldlM_nil, List.not_mem_nil, false_implies, implies_true, true_and, haccepted,
      hstate]
    exact (Except.ok.injEq _ _).to_iff
  | append_singleton ls line ih =>
    rw [Except.foldlM_concat_eq_ok, said_concat]
    simp only [ih, List.forall_mem_append, List.forall_mem_singleton]
    constructor
    · -- a line that is read is not cut, and what it says is accepted
      rintro ⟨_, ⟨hls, haccepted, rfl⟩, hstep⟩
      by_cases hline : CharBoundary 4 line.processed
      · rw [readLine_eq hline, readKind_eq_ok_iff haccepted] at hstep
        exact ⟨⟨hls, hline⟩, hstep⟩
      · obtain ⟨p, hp⟩ := readLine_eq_panic hline (said ls).state
        rw [hp] at hstep
        cases hstep
    · rintro ⟨⟨hls, hline⟩, hadd⟩
      refine ⟨_, ⟨hls, hadd.1.of_add, rfl⟩, ?_⟩
      rwa [readLine_eq hline, readKind_eq_ok_iff hadd.1.of_add]

/-- A line that is not cut inside a character does not panic. -/
theorem readKind_ne_panic (line : Line) (st : FileState) (kind : LineKind) (p : Panic) :
    readKind line st kind ≠ .error (.panic p) := by
  intro h
  cases kind with
  | name value =>
    rw [readKind] at h
    split at h <;> cases h
  | bits value =>
    rw [readKind] at h
    split at h
    next => cases h
    next => split at h <;> cases h
  | entry result => cases result <;> cases h

theorem Said.Accepted.of_append {ls ls' : List Line} (h : (said (ls ++ ls')).Accepted) :
    (said ls).Accepted := by
  induction ls' using List.reverseRecOn with
  | nil => rwa [List.append_nil] at h
  | append_singleton ls' line ih =>
    rw [← List.append_assoc, said_concat] at h
    exact ih h.of_add

/-- Lines without an error fail only if one is cut inside a character. -/
theorem exists_panic_of_accepted {ls : List Line} (hls : (said ls).Accepted) {f : Failure}
    (h : ls.foldlM readLine ⟨none, none, []⟩ = .error f) : ∃ p, f = .panic p := by
  obtain ⟨before, line, after, st, rfl, hbefore, hline⟩ := Except.foldlM_eq_error_iff.1 h
  obtain ⟨-, haccepted, rfl⟩ := foldlM_readLine_eq_ok_iff.1 hbefore
  by_cases hboundary : CharBoundary 4 line.processed
  · have hadd : ((said before).add (lineKind line)).Accepted := by
      rw [← said_concat]
      rw [List.append_cons] at hls
      exact hls.of_append
    -- a line that is not cut and whose text is accepted is read
    have hok := (readKind_eq_ok_iff haccepted line).2 ⟨hadd, rfl⟩
    rw [readLine_eq hboundary, hok] at hline
    cases hline
  · obtain ⟨p, hp⟩ := readLine_eq_panic hboundary (said before).state
    rw [hp] at hline
    exact ⟨p, (Except.error.inj hline).symm⟩

/-- The lines are read without a panic if none is cut inside a character up to the first one in error. -/
theorem foldlM_readLine_ne_panic_iff {ls : List Line} :
    (∀ p, ls.foldlM readLine ⟨none, none, []⟩ ≠ .error (.panic p)) ↔
      ∀ before line after, ls = before ++ line :: after → (said before).Accepted →
        CharBoundary 4 line.processed := by
  constructor
  · intro hsafe before line after hls haccepted
    by_contra hline
    -- the lines before it are read, or one of them was cut already
    have hpanic : ∃ p, ls.foldlM readLine ⟨none, none, []⟩ = .error (.panic p) := by
      cases hbefore : before.foldlM readLine ⟨none, none, []⟩ with
      | ok st =>
        obtain ⟨p, hp⟩ := readLine_eq_panic hline st
        exact ⟨p, Except.foldlM_eq_error_iff.2 ⟨before, line, after, st, hls, hbefore, hp⟩⟩
      | error f =>
        obtain ⟨p, rfl⟩ := exists_panic_of_accepted haccepted hbefore
        refine ⟨p, ?_⟩
        rw [hls, List.foldlM_append, hbefore]
        rfl
    obtain ⟨p, hp⟩ := hpanic
    exact hsafe p hp
  · intro hboundary p hpanic
    obtain ⟨before, line, after, st, hls, hbefore, hline⟩ := Except.foldlM_eq_error_iff.1 hpanic
    obtain ⟨-, haccepted, rfl⟩ := foldlM_readLine_eq_ok_iff.1 hbefore
    rw [readLine_eq (hboundary before line after hls haccepted)] at hline
    exact readKind_ne_panic _ _ _ _ hline

/-! ## Keys -/

/-- A character in lower case that is no letter was not changed. -/
theorem eq_of_toLower_eq {c d : Char} (h : c.toLower = d) (hd : d.toNat < 97) : c = d := by
  unfold Char.toLower at h
  split at h
  next hupper =>
    -- a letter in upper case becomes one in lower case
    obtain ⟨hge, hle⟩ := hupper
    rw [ge_iff_le, UInt32.le_iff_toNat_le] at hge
    rw [UInt32.le_iff_toNat_le] at hle
    have hA : 'A'.val.toNat = 65 := rfl
    have hZ : 'Z'.val.toNat = 90 := rfl
    have hshift : ('a'.val - 'A'.val).toNat = 32 := rfl
    have hsum := congrArg (fun c : Char => c.val.toNat) h
    simp only [UInt32.toNat_add, hshift] at hsum
    have hd' : d.val.toNat < 97 := hd
    omega
  next => exact h

theorem eq_of_toLowercase_eq {c d : Char} (h : toLowercase c = d) (hd : d.toNat < 97) : c = d := by
  rw [toLowercase] at h
  split at h
  next =>
    subst h
    exact absurd hd (by decide)
  next => exact eq_of_toLower_eq h hd

/-- The keys of lines: a number has a width in which it fits, and a text is empty or has a bit that is neither
zero nor one. -/
def WellKeyed (value : VariableValue) (width : ℕ) : Prop :=
  match value with
  | .bigUint v => v < 2 ^ width
  | .string s =>
    s.toList.length = width ∧ (∀ c ∈ s.toList, isBitChar c) ∧
      (s = "" ∨ ∃ c ∈ s.toList, c ≠ '0' ∧ c ≠ '1')

theorem lt_two_pow_bits (v : ℕ) : v < 2 ^ bits v := Nat.lt_base_pow_length_digits (by omega)

/-- A number fits in as many bits as it has binary digits. -/
theorem lt_of_parseBytes {s : List Char} {v : ℕ} (h : parseBytes 2 s = some v) : v < 2 ^ s.length := by
  have hdrop : ∀ t : List Char, t.length ≤ s.length → value 2 (t.filter (· ≠ '_')) < 2 ^ s.length := by
    intro t ht
    calc value 2 (t.filter (· ≠ '_')) < 2 ^ (t.filter (· ≠ '_')).length := value_lt (by omega) _
      _ ≤ 2 ^ s.length :=
        Nat.pow_le_pow_right (by omega) ((List.length_filter_le _ _).trans ht)
  have htail : (if s.head? = some '+' ∧ s.tail.head? ≠ some '+' then s.tail else s).length ≤ s.length := by
    split <;> simp
  simp only [parseBytes, Option.ite_none_left_eq_some, Option.ite_none_right_eq_some,
    Option.some.injEq] at h
  obtain ⟨-, -, rfl⟩ := h
  exact hdrop _ htail

theorem wellKeyed_parseKeyValue {token : List Char} {value : VariableValue} {width : ℕ}
    (h : parseKeyValue token = .ok (value, width)) : WellKeyed value width := by
  simp only [parseKeyValue] at h
  split at h
  next binStr _ =>
    split at h
    next val hval =>
      cases h
      exact lt_of_parseBytes hval
    next hnone =>
      split at h
      next hall =>
        cases h
        simp only [WellKeyed, String.toList_ofList]
        refine ⟨trivial, List.all_eq_true.1 hall, ?_⟩
        by_contra hneither
        push Not at hneither
        obtain ⟨hne, hzeros⟩ := hneither
        -- a text of zeros and ones would have been read as a number
        have hbinary : BinaryText binStr.length binStr := by
          refine ⟨fun c hc => ?_, by simpa using hne, le_refl _⟩
          have hlower := hzeros (toLowercase c) (List.mem_map_of_mem hc)
          by_cases hzero : toLowercase c = '0'
          · exact Or.inl (eq_of_toLowercase_eq hzero (by decide))
          · exact Or.inr (eq_of_toLowercase_eq (hlower hzero) (by decide))
        rw [hbinary.parseBytes_eq] at hnone
        cases hnone
      next => cases h
  next =>
    split at h
    next =>
      split at h
      next => cases h; exact lt_two_pow_bits _
      next => cases h
    next =>
      split at h
      next =>
        split at h
        next => cases h; exact lt_two_pow_bits _
        next => cases h
      next =>
        split at h
        next => cases h; exact lt_two_pow_bits _
        next => cases h

theorem wellKeyed_parseKeyWithKind {token : List Char} {value : VariableValue} {kind : ValueKind}
    {width : ℕ} (h : parseKeyWithKind token = .ok (value, kind, width)) : WellKeyed value width := by
  simp only [parseKeyWithKind] at h
  split at h
  next =>
    obtain ⟨⟨value', width'⟩, hkey, h⟩ := Except.bind_eq_ok.1 h
    obtain ⟨kind', -, h⟩ := Except.bind_eq_ok.1 h
    cases h
    exact wellKeyed_parseKeyValue hkey
  next =>
    obtain ⟨⟨value', width'⟩, hkey, h⟩ := Except.bind_eq_ok.1 h
    cases h
    exact wellKeyed_parseKeyValue hkey

theorem wellKeyed_parseLine {line : List Char} {e : RawEntry} (h : parseLine line = .ok e) :
    WellKeyed e.value e.width := by
  simp only [parseLine] at h
  split at h
  next => cases h
  next =>
    obtain ⟨⟨value, kind, width⟩, hkey, h⟩ := Except.bind_eq_ok.1 h
    split at h
    next => cases h
    next =>
      cases h
      exact wellKeyed_parseKeyWithKind hkey

theorem mem_results_said {ls : List Line} {result : Except MappingParseError RawEntry}
    (h : result ∈ (said ls).results) : ∃ line ∈ ls, lineKind line = .entry result := by
  induction ls using List.reverseRecOn with
  | nil => cases h
  | append_singleton ls line ih =>
    rw [said_concat] at h
    have hbefore : result ∈ (said ls).results → ∃ line' ∈ ls ++ [line], lineKind line' = .entry result := by
      intro h
      obtain ⟨line', hline', hkind⟩ := ih h
      exact ⟨line', List.mem_append_left _ hline', hkind⟩
    cases hkind : lineKind line with
    | name value => exact hbefore (by rwa [hkind] at h)
    | bits value => exact hbefore (by rwa [hkind] at h)
    | entry result' =>
      rw [hkind] at h
      rcases List.mem_append.1 h with h | h
      · exact hbefore h
      · rw [List.mem_singleton.1 h]
        exact ⟨line, by simp, hkind⟩

theorem parseLine_of_lineKind {line : Line} {result : Except MappingParseError RawEntry}
    (h : lineKind line = .entry result) : parseLine line.processed = result := by
  rw [lineKind] at h
  split at h
  next => cases h
  next =>
    split at h
    next => cases h
    next => exact LineKind.entry.inj h

/-- The entries of lines have such keys. -/
theorem wellKeyed_rawEntries (ls : List Line) : ∀ e ∈ (said ls).rawEntries, WellKeyed e.value e.width := by
  intro e he
  obtain ⟨result, hresult, hok⟩ := List.mem_filterMap.1 he
  obtain ⟨line, -, hkind⟩ := mem_results_said hresult
  cases result with
  | error e' => cases hok
  | ok e' =>
    cases hok
    exact wellKeyed_parseLine (parseLine_of_lineKind hkind)

end Translation
