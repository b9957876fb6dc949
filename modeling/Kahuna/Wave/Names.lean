import Kahuna.Wave.Hierarchy
import Kahuna.Numerals.Basic
import Kahuna.Text.Basic
import Kahuna.Text.Separators

/-!
# The texts of variable references

A reference is shown, saved and typed as its path and name with dots between them, followed by its
index in brackets. `VariableRef.fullPathString` prints it, `VariableRef.fromHierarchyString` reads
it.

* `fromHierarchyString_fullPathString`: what is read is the reference as it was shown;
* `roundTrips_iff`: that is the reference itself unless it has an index and no path, because such a
  reference is printed with a dot before its name.
-/

namespace Wave

open Numerals

/-- The last position of a character. -/
def rfind (c : Char) : List Char → Option ℕ
  | [] => none
  | x :: l =>
    match rfind c l with
    | some i => some (i + 1)
    | none => if x = c then some 0 else none

theorem rfind_of_not_mem {c : Char} {l : List Char} (h : c ∉ l) : rfind c l = none := by
  induction l with
  | nil => rfl
  | cons x l ih =>
    rw [List.mem_cons, not_or] at h
    simp [rfind, ih h.2, Ne.symm h.1]

/-- The last position of a character cuts the text there. -/
theorem eq_append_of_rfind {c : Char} {l : List Char} {i : ℕ} (h : rfind c l = some i) :
    l = l.take i ++ c :: l.drop (i + 1) := by
  induction l generalizing i with
  | nil => cases h
  | cons x l ih =>
    cases htail : rfind c l with
    | some j =>
      simp only [rfind, htail, Option.some.injEq] at h
      subst h
      simpa using ih htail
    | none =>
      simp only [rfind, htail, Option.ite_none_right_eq_some, Option.some.injEq] at h
      simp [← h.1, ← h.2]

theorem rfind_append {c : Char} {before after : List Char} (h : c ∉ after) :
    rfind c (before ++ c :: after) = some before.length := by
  induction before with
  | nil => simp [rfind, rfind_of_not_mem h]
  | cons x before ih => simp [rfind, ih]

/-- Reading a 64-bit integer with a sign. -/
def parseI64 (l : List Char) : Option ℤ :=
  (parseInt l).filter fun i => -2 ^ 63 ≤ i ∧ i < 2 ^ 63

theorem parseI64_printInt {i : ℤ} (h : -2 ^ 63 ≤ i ∧ i < 2 ^ 63) : parseI64 (printInt i) = some i := by
  rw [parseI64, parseInt_printInt, Option.filter_some, if_pos (by simpa using h)]

/-- The name and the index of a text that ends in an index in brackets. -/
def extractIndex (s : String) : String × Option ℤ :=
  match rfind '[' s.toList with
  | some startIdx =>
    if 0 < startIdx ∧ s.toList.getLast? = some ']' then
      match parseI64 (s.toList.drop (startIdx + 1)).dropLast with
      | some index => (String.ofList (s.toList.take startIdx), some index)
      | none => (s, none)
    else (s, none)
  | none => (s, none)

/-- A text that is read as an integer holds digits and a sign. -/
theorem not_mem_of_parseI64 {text : List Char} {i : ℤ} (h : parseI64 text = some i) :
    '[' ∉ text := by
  have hnat {l : List Char} {n : ℕ} (hl : parseNat l = some n) : '[' ∉ l := by
    intro hmem
    simp only [parseNat] at hl
    split at hl
    next hnumeral =>
      have hdigit := hnumeral.2 _ hmem
      revert hdigit
      decide
    next => cases hl
  obtain ⟨hint, -⟩ := Option.filter_eq_some_iff.1 h
  intro hmem
  -- behind the sign there are digits only
  simp only [parseInt] at hint
  split at hint <;> obtain ⟨n, hn, -⟩ := Option.map_eq_some_iff.1 hint
  · exact hnat hn (by simpa using hmem)
  · exact hnat hn (by simpa using hmem)
  · exact hnat hn hmem

/-- An index at the end is found, with what stands before it. -/
theorem extractIndex_append {s : String} {before text : List Char} {i : ℤ} (hbefore : before ≠ [])
    (hs : s.toList = before ++ '[' :: (text ++ [']'])) (hi : parseI64 text = some i) :
    extractIndex s = (String.ofList before, some i) := by
  -- the text of the index holds no bracket, so its bracket is the last one
  have hbracket : '[' ∉ text ++ [']'] := by simp [not_mem_of_parseI64 hi]
  have hpos : 0 < before.length := List.length_pos_iff.2 hbefore
  have hlast : (before ++ '[' :: (text ++ [']'])).getLast? = some ']' := by
    rw [← List.cons_append, ← List.append_assoc, List.getLast?_concat]
  have hdrop : (before ++ '[' :: (text ++ [']'])).drop (before.length + 1) = text ++ [']'] := by
    rw [List.drop_append]
    simp
  rw [extractIndex, hs, rfind_append hbracket]
  simp only [hpos, hlast, and_self, if_true, hdrop, List.dropLast_concat, hi, List.take_left]

/-- The text of an index behind a name. -/
def indexed (name : String) : Option ℤ → String
  | some index => name ++ "[" ++ String.ofList (printInt index) ++ "]"
  | none => name

theorem not_mem_printInt {i : ℤ} {c : Char} (hc : c ≠ '-') (hc' : c.isDigit = false) :
    c ∉ printInt i := by
  intro h
  rcases mem_printInt h with h | h
  · exact hc h
  · simp [hc'] at h

/-- A text whose index has been printed behind a name gives both back. -/
theorem extractIndex_indexed {name : String} {i : ℤ} (hname : name ≠ "")
    (hi : -2 ^ 63 ≤ i ∧ i < 2 ^ 63) : extractIndex (indexed name (some i)) = (name, some i) := by
  have htext : (indexed name (some i)).toList = name.toList ++ '[' :: (printInt i ++ [']']) := by
    simp [indexed, String.toList_append]
  have hne : name.toList ≠ [] := by simpa using hname
  rw [extractIndex_append hne htext (parseI64_printInt hi), String.ofList_toList]

/-- A text that ends in an index in brackets, behind at least one character. -/
def EndsInIndex (s : String) : Prop :=
  ∃ before text, before ≠ [] ∧ s.toList = before ++ '[' :: (text ++ [']']) ∧ (parseI64 text).isSome

theorem extractIndex_of_not_endsInIndex {s : String} (h : ¬ EndsInIndex s) :
    extractIndex s = (s, none) := by
  simp only [extractIndex]
  split
  next startIdx hstart =>
    split
    next hends =>
      split
      next index hindex =>
        -- what was read is an index pattern at the end
        have hcut := eq_append_of_rfind hstart
        have hlast := hends.2
        obtain ⟨rest, hrest⟩ : ∃ rest, s.toList.drop (startIdx + 1) = rest ++ [']'] := by
          rcases List.eq_nil_or_concat (s.toList.drop (startIdx + 1)) with hnil | ⟨rest, c, hrest⟩
          · -- the text would end in the opening bracket
            rw [hcut, hnil, List.getLast?_concat] at hlast
            simp at hlast
          · rw [List.concat_eq_append] at hrest
            rw [hcut, hrest, ← List.cons_append, ← List.append_assoc, List.getLast?_concat,
              Option.some.injEq] at hlast
            exact ⟨rest, by rw [hrest, hlast]⟩
        refine (h ⟨s.toList.take startIdx, rest, ?_, hrest ▸ hcut, ?_⟩).elim
        · intro htake
          rcases List.take_eq_nil_iff.1 htake with hzero | hnil
          · omega
          · simp [hnil] at hlast
        · rw [hrest, List.dropLast_concat] at hindex
          simp [hindex]
      next => rfl
    next => rfl
  next => rfl

theorem extractIndex_of_endsInIndex {s : String} (h : EndsInIndex s) : (extractIndex s).2 ≠ none := by
  obtain ⟨before, text, hbefore, hs, htext⟩ := h
  obtain ⟨i, hi⟩ := Option.isSome_iff_exists.1 htext
  simp [extractIndex_append hbefore hs hi]

namespace ScopeRef

/-- The path with dots between its parts, which is also how a `ScopeRef` is displayed. -/
def fullName (s : ScopeRef) : String := ".".intercalate s.strs

/-- `ScopeRef::empty`. -/
def empty : ScopeRef where
  strs := []
  id := none

/-- `ScopeRef::from_strs`. -/
def fromStrs (strs : List String) : ScopeRef where
  strs := strs
  id := none

end ScopeRef

namespace VariableRef

/-- The path and the name, without the index. -/
def fullPathStringNoIndex (r : VariableRef) : String :=
  if r.path.strs.isEmpty then r.name else r.path.fullName ++ "." ++ r.name

/-- The path and the name, with the index if there is one. -/
def fullPathString (r : VariableRef) : String :=
  match r.index with
  | some index =>
    r.path.fullName ++ "." ++ r.name ++ "[" ++ String.ofList (printInt index) ++ "]"
  | none => r.fullPathStringNoIndex

/-- The reference that a text names. -/
def fromHierarchyString (s : String) : VariableRef :=
  let components := (s.toList.splitOn '.').map String.ofList
  match components.getLast? with
  | none => { path := ScopeRef.empty, name := "", id := none, index := none }
  | some name =>
    let (name, index) := extractIndex name
    { path := ScopeRef.fromStrs components.dropLast, name, id := none, index }

/-- The reference that a text names, where the last part is taken as the name as it stands. -/
def fromHierarchyStringWithId (s : String) (id : Option VarId) : VariableRef :=
  let components := (s.toList.splitOn '.').map String.ofList
  match components.getLast? with
  | none => { path := ScopeRef.empty, name := "", id, index := none }
  | some name => { path := ScopeRef.fromStrs components.dropLast, name, id, index := none }

/-- A reference, whose index is taken from the name if it is not given. -/
def newWithIdAndIndex (path : ScopeRef) (name : String) (id : Option VarId) (index : Option ℤ) :
    VariableRef :=
  let (name, index) := if index.isNone then extractIndex name else (name, index)
  { path, name, id, index }

/-- The references that can be told from their texts: no dot in the parts of the path and in the
name, and a name that is not empty and ends in no index. The index is a 64-bit integer. -/
structure Plain (r : VariableRef) : Prop where
  path : ∀ p ∈ r.path.strs, '.' ∉ p.toList
  name : '.' ∉ r.name.toList
  name_ne : r.name ≠ ""
  unindexed : ¬ EndsInIndex r.name
  index : ∀ i, r.index = some i → -2 ^ 63 ≤ i ∧ i < 2 ^ 63

/-- Two references with the same path, name and index. -/
def Same (r r' : VariableRef) : Prop :=
  r.path.strs = r'.path.strs ∧ r.name = r'.name ∧ r.index = r'.index

/-- The path that the text of a reference shows. A reference with an index and no path is printed
with a dot before its name, which is how a path of one empty name is printed. -/
def shownPath (r : VariableRef) : List String :=
  if r.path.strs = [] ∧ r.index ≠ none then [""] else r.path.strs

/-- Every text is its path and its indexed name with dots between them. -/
theorem fullPathString_eq (r : VariableRef) :
    r.fullPathString = ".".intercalate (r.shownPath ++ [indexed r.name r.index]) := by
  by_cases hpath : r.path.strs = []
  · cases hindex : r.index with
    | none => simp [fullPathString, fullPathStringNoIndex, shownPath, indexed, hpath, hindex]
    | some i =>
      simp [fullPathString, shownPath, indexed, hpath, hindex, ScopeRef.fullName,
        String.append_assoc]
  · have hshown : r.shownPath = r.path.strs := by simp [shownPath, hpath]
    rw [hshown, String.intercalate_append_of_ne_nil hpath (by simp), String.intercalate_singleton]
    cases hindex : r.index with
    | none => simp [fullPathString, fullPathStringNoIndex, indexed, hpath, hindex, ScopeRef.fullName]
    | some i =>
      simp [fullPathString, indexed, hindex, ScopeRef.fullName, String.append_assoc]

theorem splitOn_intercalate {components : List String} (hne : components ≠ [])
    (h : ∀ c ∈ components, '.' ∉ c.toList) :
    ((".".intercalate components).toList.splitOn '.').map String.ofList = components :=
  Text.map_splitOn_intercalate rfl hne h

theorem fromHierarchyString_intercalate {path : List String} {last : String}
    (hpath : ∀ p ∈ path, '.' ∉ p.toList) (hlast : '.' ∉ last.toList) :
    fromHierarchyString (".".intercalate (path ++ [last])) =
      { path := ScopeRef.fromStrs path, name := (extractIndex last).1, id := none,
        index := (extractIndex last).2 } := by
  have hsplit := @splitOn_intercalate (path ++ [last]) (by simp) (by
    simpa [or_imp, forall_and] using ⟨hpath, hlast⟩)
  simp only [fromHierarchyString, hsplit, List.getLast?_concat, List.dropLast_concat]

/-- What is read from the text of a reference is the reference as it was shown. -/
theorem fromHierarchyString_fullPathString {r : VariableRef} (h : r.Plain) :
    fromHierarchyString r.fullPathString =
      { path := ScopeRef.fromStrs r.shownPath, name := r.name, id := none, index := r.index } := by
  have hpath : ∀ p ∈ r.shownPath, '.' ∉ p.toList := by
    simp only [shownPath]
    split
    · simp
    · exact h.path
  have hextract : extractIndex (indexed r.name r.index) = (r.name, r.index) := by
    cases hindex : r.index with
    | none => exact extractIndex_of_not_endsInIndex h.unindexed
    | some i => exact extractIndex_indexed h.name_ne (h.index i hindex)
  have hlast : '.' ∉ (indexed r.name r.index).toList := by
    cases hindex : r.index with
    | none => exact h.name
    | some i =>
      simp [indexed, String.toList_append, h.name,
        not_mem_printInt (i := i) (c := '.') (by decide) rfl]
  rw [fullPathString_eq, fromHierarchyString_intercalate hpath hlast, hextract]

/-- The text of a reference is read as the reference itself. -/
def RoundTrips (r : VariableRef) : Prop := (fromHierarchyString r.fullPathString).Same r

/-- The one way in which two texts can clash: a reference with an index and no path is printed like
the one below a scope with the empty name. -/
def Clashes (r r' : VariableRef) : Prop :=
  r.path.strs = [] ∧ r'.path.strs = [""] ∧ r.name = r'.name ∧ r.index = r'.index ∧ r.index ≠ none

theorem roundTrips_iff_shownPath {r : VariableRef} (h : r.Plain) :
    r.RoundTrips ↔ r.shownPath = r.path.strs := by
  simp [RoundTrips, fromHierarchyString_fullPathString h, Same, ScopeRef.fromStrs]

theorem shownPath_eq_iff {r : VariableRef} :
    r.shownPath = r.path.strs ↔ r.path.strs ≠ [] ∨ r.index = none := by
  by_cases hpath : r.path.strs = []
  · by_cases hindex : r.index = none
    · simp [shownPath, hpath, hindex]
    · simp [shownPath, hpath, hindex]
  · simp [shownPath, hpath]

/-- Two references are printed alike exactly if they are shown alike. -/
theorem fullPathString_eq_iff {r r' : VariableRef} (h : r.Plain) (h' : r'.Plain) :
    r.fullPathString = r'.fullPathString ↔
      r.shownPath = r'.shownPath ∧ r.name = r'.name ∧ r.index = r'.index := by
  constructor
  · intro heq
    have hread := congrArg fromHierarchyString heq
    rw [fromHierarchyString_fullPathString h, fromHierarchyString_fullPathString h'] at hread
    simpa [ScopeRef.fromStrs] using hread
  · rintro ⟨hpath, hname, hindex⟩
    rw [fullPathString_eq, fullPathString_eq, hpath, hname, hindex]

theorem Clashes.shownPath_eq {r r' : VariableRef} (h : r.Clashes r') :
    r.shownPath = r'.shownPath := by
  obtain ⟨hpath, hpath', -, -, hindex⟩ := h
  simp [shownPath, hpath, hpath', hindex]

theorem Clashes.path_ne {r r' : VariableRef} (h : r.Clashes r') : r.path.strs ≠ r'.path.strs := by
  simp [h.1, h.2.1]

/-- Where the shown path is not the path, the reference has an index and no path. -/
theorem shownPath_of_ne {r : VariableRef} (h : r.shownPath ≠ r.path.strs) :
    r.path.strs = [] ∧ r.index ≠ none ∧ r.shownPath = [""] := by
  rw [ne_eq, shownPath_eq_iff, not_or, not_not] at h
  exact ⟨h.1, h.2, by simp [shownPath, h.1, h.2]⟩

/-- Two references are printed alike only if they are the same, unless their texts clash. -/
theorem same_of_fullPathString_eq_iff {r r' : VariableRef} (h : r.Plain) (h' : r'.Plain) :
    (r.fullPathString = r'.fullPathString → r.Same r') ↔ ¬ r.Clashes r' ∧ ¬ r'.Clashes r := by
  rw [fullPathString_eq_iff h h']
  constructor
  · intro hsame
    constructor
    · intro hclash
      exact hclash.path_ne (hsame ⟨hclash.shownPath_eq, hclash.2.2.1, hclash.2.2.2.1⟩).1
    · intro hclash
      exact hclash.path_ne
        (hsame ⟨hclash.shownPath_eq.symm, hclash.2.2.1.symm, hclash.2.2.2.1.symm⟩).1.symm
  · rintro ⟨hclash, hclash'⟩ ⟨hshown, hname, hindex⟩
    refine ⟨?_, hname, hindex⟩
    -- a path that is shown as it is can only be confused with one that is not
    by_cases hr : r.shownPath = r.path.strs
    · by_cases hr' : r'.shownPath = r'.path.strs
      · rw [← hr, ← hr', hshown]
      · obtain ⟨hpath, hsome, hempty⟩ := shownPath_of_ne hr'
        rw [hr, hempty] at hshown
        exact (hclash' ⟨hpath, hshown, hname.symm, hindex.symm, hsome⟩).elim
    · obtain ⟨hpath, hsome, hempty⟩ := shownPath_of_ne hr
      by_cases hr' : r'.shownPath = r'.path.strs
      · rw [hr', hempty] at hshown
        exact (hclash ⟨hpath, hshown.symm, hname, hindex, hsome⟩).elim
      · rw [hpath, (shownPath_of_ne hr').1]

/-- A reference is read back from its text exactly if it has a path or no index, and two references
are printed alike only if they are the same exactly if their texts do not clash. -/
theorem roundTrips_iff {r r' : VariableRef} (h : r.Plain) (h' : r'.Plain) :
    (r.RoundTrips ↔ r.path.strs ≠ [] ∨ r.index = none) ∧
      ((r.fullPathString = r'.fullPathString → r.Same r') ↔ ¬ r.Clashes r' ∧ ¬ r'.Clashes r) :=
  ⟨(roundTrips_iff_shownPath h).trans shownPath_eq_iff, same_of_fullPathString_eq_iff h h'⟩

/-- An element of an array, below scopes with the given names. -/
def arrayElement (path : List String) : VariableRef where
  path := ScopeRef.fromStrs path
  name := "data"
  id := none
  index := some (-3)

theorem plain_arrayElement {path : List String} (h : ∀ p ∈ path, '.' ∉ p.toList) :
    (arrayElement path).Plain where
  path := h
  name := by simp [arrayElement]
  name_ne := by simp [arrayElement]
  unindexed := by
    rintro ⟨before, text, -, htext, -⟩
    have hmem : '[' ∈ (arrayElement path).name.toList := by simp [htext]
    simp [arrayElement] at hmem
  index i hi := by
    cases hi
    decide

theorem roundTrips_arrayElement :
    (arrayElement ["top", "cpu"]).RoundTrips ∧
      ((arrayElement ["top", "cpu"]).fullPathString = (arrayElement [""]).fullPathString →
        (arrayElement ["top", "cpu"]).Same (arrayElement [""])) := by
  have h := roundTrips_iff (plain_arrayElement (by simp) : (arrayElement ["top", "cpu"]).Plain)
    (plain_arrayElement (by simp) : (arrayElement [""]).Plain)
  refine ⟨h.1.2 (.inl (by simp [arrayElement, ScopeRef.fromStrs])), h.2.2 ⟨?_, ?_⟩⟩
  · rintro ⟨hpath, -⟩
    simp [arrayElement, ScopeRef.fromStrs] at hpath
  · rintro ⟨hpath, -⟩
    simp [arrayElement, ScopeRef.fromStrs] at hpath

/-- An element of an array outside all scopes is not read back. -/
theorem not_forall_roundTrips :
    ¬ ∀ r r' : VariableRef, r.Plain → r'.Plain →
      r.RoundTrips ∧ (r.fullPathString = r'.fullPathString → r.Same r') := by
  intro hall
  have htop : (arrayElement []).Plain := plain_arrayElement (by simp)
  have htrips := (hall _ _ htop htop).1
  rw [roundTrips_iff_shownPath htop, shownPath_eq_iff] at htrips
  simp [arrayElement, ScopeRef.fromStrs] at htrips

end VariableRef

end Wave
