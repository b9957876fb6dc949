import Kahuna.Transition.Basic
import Kahuna.Wave.Digital

/-!
# Fields of a translated value

The model of `format_flat` (`translation/mod.rs`). A translator returns a tree of results, of which each field can
have a format of its own. The tree is formatted from the leaves up, where the text of a compound value is made of the
texts of its fields, and then flattened into a list of paths and texts.

* `lookup_formatFlat`: to look a path up in the list is to walk down the tree;
* `formatFlat_setFormat`: the format of a field shows in the field and in those around it, and nowhere else;
* `draws_of_fits`: drawing a variable does not panic when the translator keeps to the fields that it has announced.
-/

namespace Translation

open Digital (TranslatedValue VariableInfo)
open Wave (VariableValue)

/-! ## Results -/

/-- `ValueRepr`. -/
inductive ValueRepr where
  | bit (val : Char)
  | bits (bitCount : ℕ) (bits : String)
  | string (sval : String)
  | tuple
  | struct
  | array
  | notPresent
  | enum (idx : ℕ) (name : String)
  | event
  deriving DecidableEq, Repr

/-- `TranslationResult`. -/
inductive TranslationResult where
  | mk (val : ValueRepr) (subfields : List (String × TranslationResult)) (kind : ValueKind)

/-- `HierFormatResult`. -/
inductive HierFormatResult where
  | mk (names : List String) (this : Option TranslatedValue) (fields : List HierFormatResult)

/-- `FieldFormat`. -/
structure FieldFormat where
  field : List String
  format : String
  deriving DecidableEq, Repr

/-- `AnyTranslator`, of which only basic ones translate fields. -/
inductive AnyTranslator where
  | full
  | basic (basicTranslate : ℕ → VariableValue → String × ValueKind)

/-- `TranslatorList`. -/
structure TranslatorList where
  inner : String → Option AnyTranslator
  default : String

namespace TranslatorList

/-- `get_translator`. -/
def getTranslator (translators : TranslatorList) (name : String) : Run AnyTranslator :=
  match translators.inner name with
  | some t => .ok t
  | none => .error (.assertion ("No translator called " ++ name))

/-- The translator of a field, which has to be basic. -/
def basicTranslator (translators : TranslatorList) (name : String) : Run (ℕ → VariableValue → String × ValueKind) := do
  match ← translators.getTranslator name with
  | .basic basicTranslate => return basicTranslate
  | .full => .error (.assertion ("Subtranslator '" ++ name ++ "' was not a basic translator"))

end TranslatorList

/-! ## Formatting -/

/-- `TranslatedValue::from_basic_translate`. -/
def fromBasicTranslate (result : String × ValueKind) : TranslatedValue := { value := result.1, kind := result.2 }

namespace HierFormatResult

def names : HierFormatResult → List String
  | mk names _ _ => names

def this : HierFormatResult → Option TranslatedValue
  | mk _ this _ => this

/-- The text of a field inside of the text of a compound value. -/
def text (v : HierFormatResult) : String := (v.this.map TranslatedValue.value).getD "-"

/-- The text of a field with its name. -/
def namedText (v : HierFormatResult) : String := "_".intercalate v.names ++ ": " ++ v.text

end HierFormatResult

/-- `format`. -/
def format (val : ValueRepr) (kind : ValueKind) (subtranslatorName : String) (translators : TranslatorList)
    (subresults : List HierFormatResult) : Run (Option TranslatedValue) :=
  match val with
  | .bit val => do
    let basicTranslate ← translators.basicTranslator subtranslatorName
    return some (fromBasicTranslate (basicTranslate 1 (.string (String.singleton val))))
  | .bits bitCount bits => do
    let basicTranslate ← translators.basicTranslator subtranslatorName
    return some (fromBasicTranslate (basicTranslate bitCount (.string bits)))
  | .string sval => .ok (some { value := sval, kind })
  | .tuple => .ok (some { value := "(" ++ ", ".intercalate (subresults.map HierFormatResult.text) ++ ")", kind })
  | .struct =>
    .ok (some { value := "\x7b" ++ ", ".intercalate (subresults.map HierFormatResult.namedText) ++ "\x7d", kind })
  | .array => .ok (some { value := "[" ++ ", ".intercalate (subresults.map HierFormatResult.text) ++ "]", kind })
  | .notPresent => .ok none
  | .enum idx name =>
    match subresults[idx]? with
    | some v => .ok (some { value := name ++ "\x7b" ++ v.text ++ "\x7d", kind })
    | none => .error .outOfBounds
  | .event => .ok (some { value := "Event", kind })

/-- The name of the translator of a field. -/
def translatorName (formats : List FieldFormat) (translators : TranslatorList) (path : List String) : String :=
  ((formats.find? fun e => e.field = path).map FieldFormat.format).getD translators.default

mutual

/-- `sub_format`. -/
def TranslationResult.subFormat (formats : List FieldFormat) (translators : TranslatorList) :
    TranslationResult → List String → Run (List HierFormatResult)
  | .mk _ subfields _, pathSoFar => subFormatAll formats translators subfields pathSoFar

/-- The map over the subfields. -/
def subFormatAll (formats : List FieldFormat) (translators : TranslatorList) :
    List (String × TranslationResult) → List String → Run (List HierFormatResult)
  | [], _ => .ok []
  | (name, .mk val subfields kind) :: rest, pathSoFar => do
    let subPath := pathSoFar ++ [name]
    let sub ← TranslationResult.subFormat formats translators (.mk val subfields kind) subPath
    let formatted ← format val kind (translatorName formats translators subPath) translators sub
    let others ← subFormatAll formats translators rest pathSoFar
    return .mk subPath formatted sub :: others

end

mutual

/-- `collect_into`, as a list. -/
def HierFormatResult.collectInto : HierFormatResult → List (List String × Option TranslatedValue)
  | .mk names this fields => (names, this) :: collectAll fields

def collectAll : List HierFormatResult → List (List String × Option TranslatedValue)
  | [] => []
  | r :: rest => r.collectInto ++ collectAll rest

end

/-- `format_flat`. -/
def formatFlat (rootFormat : Option String) (formats : List FieldFormat) (translators : TranslatorList) :
    TranslationResult → Run (List (List String × Option TranslatedValue))
  | .mk val subfields kind => do
    let subResult ← TranslationResult.subFormat formats translators (.mk val subfields kind) []
    let formatted ← format val kind (rootFormat.getD translators.default) translators subResult
    return (HierFormatResult.mk [] formatted subResult).collectInto

/-- The message that sets the format of a field. -/
def setFormat (formats : List FieldFormat) (field : List String) (format : String) : List FieldFormat :=
  (formats.filter fun ff => ff.field ≠ field) ++ [⟨field, format⟩]

/-! ## Fields of a result -/

namespace TranslationResult

/-- The field at a path. -/
def sub : TranslationResult → List String → Option TranslationResult
  | r, [] => some r
  | .mk _ subfields _, field :: rest =>
    match subfields.find? fun e => e.1 = field with
    | some (_, r) => r.sub rest
    | none => none

mutual

/-- The paths of a result, each before those below it. -/
def paths : TranslationResult → List String → List (List String)
  | .mk _ subfields _, path => path :: pathsAll subfields path

def pathsAll : List (String × TranslationResult) → List String → List (List String)
  | [], _ => []
  | (name, r) :: rest, path => r.paths (path ++ [name]) ++ pathsAll rest path

end

mutual

/-- The fields next to each other have distinct names. -/
def Distinct : TranslationResult → Prop
  | .mk _ subfields _ => (subfields.map Prod.fst).Nodup ∧ DistinctAll subfields

def DistinctAll : List (String × TranslationResult) → Prop
  | [] => True
  | (_, r) :: rest => r.Distinct ∧ DistinctAll rest

end

/-- A result that is formatted by itself, as it is below a path. -/
def formatted (formats : List FieldFormat) (translators : TranslatorList) (subtranslatorName : String)
    (path : List String) : TranslationResult → Run HierFormatResult
  | .mk val subfields kind => do
    let sub ← subFormatAll formats translators subfields path
    let formatted ← format val kind subtranslatorName translators sub
    return .mk path formatted sub

end TranslationResult

open TranslationResult

variable {formats formats' : List FieldFormat} {translators : TranslatorList} {subtranslatorName : String}
  {path : List String} {r : TranslationResult} {subfields : List (String × TranslationResult)} {h : HierFormatResult}
  {hs : List HierFormatResult}

theorem subFormatAll_cons (name : String) (r : TranslationResult) (rest : List (String × TranslationResult))
    (path : List String) : subFormatAll formats translators ((name, r) :: rest) path = (do
      let h ← r.formatted formats translators (translatorName formats translators (path ++ [name])) (path ++ [name])
      let others ← subFormatAll formats translators rest path
      return h :: others) := by
  cases r with
  | mk val subfields kind =>
    rw [subFormatAll, TranslationResult.subFormat, formatted]
    simp only [bind_assoc, pure_bind]

theorem subFormatAll_cons_eq_ok {name : String} {rest : List (String × TranslationResult)}
    (h : subFormatAll formats translators ((name, r) :: rest) path = .ok hs) : ∃ first others,
      r.formatted formats translators (translatorName formats translators (path ++ [name])) (path ++ [name])
        = .ok first ∧
        subFormatAll formats translators rest path = .ok others ∧ hs = first :: others := by
  rw [subFormatAll_cons, Except.bind_eq_ok] at h
  obtain ⟨first, hfirst, h⟩ := h
  rw [Except.bind_eq_ok] at h
  obtain ⟨others, hothers, h⟩ := h
  cases h
  exact ⟨first, others, hfirst, hothers, rfl⟩

/-- What is formatted, with the fields below it. -/
theorem formatted_eq_ok (hformatted : r.formatted formats translators subtranslatorName path = .ok h) :
    ∃ val subfields kind this fields, r = .mk val subfields kind ∧ h = .mk path this fields ∧
      subFormatAll formats translators subfields path = .ok fields ∧
      format val kind subtranslatorName translators fields = .ok this := by
  cases r with
  | mk val subfields kind =>
    rw [formatted, Except.bind_eq_ok] at hformatted
    obtain ⟨fields, hfields, hformatted⟩ := hformatted
    rw [Except.bind_eq_ok] at hformatted
    obtain ⟨this, hthis, hformatted⟩ := hformatted
    cases hformatted
    exact ⟨val, subfields, kind, this, fields, rfl, rfl, hfields, hthis⟩

theorem formatFlat_eq (rootFormat : Option String) (formats : List FieldFormat) (translators : TranslatorList)
    (r : TranslationResult) : formatFlat rootFormat formats translators r
      = HierFormatResult.collectInto <$> r.formatted formats translators (rootFormat.getD translators.default) [] := by
  cases r with
  | mk val subfields kind =>
    rw [formatFlat, TranslationResult.subFormat, formatted, map_bind]
    simp only [map_bind, map_pure]

/-! ## Paths -/

mutual

theorem paths_of_formatted {r : TranslationResult} {path : List String} {subtranslatorName : String}
    {h : HierFormatResult} (hformatted : r.formatted formats translators subtranslatorName path = .ok h) :
    h.collectInto.map Prod.fst = r.paths path := by
  match r with
  | .mk val subfields kind =>
    obtain ⟨_, _, _, this, fields, heq, rfl, hfields, -⟩ := formatted_eq_ok hformatted
    cases heq
    rw [HierFormatResult.collectInto, List.map_cons, paths, paths_of_subFormatAll hfields]

theorem paths_of_subFormatAll {subfields : List (String × TranslationResult)} {path : List String}
    {hs : List HierFormatResult} (hall : subFormatAll formats translators subfields path = .ok hs) :
    (collectAll hs).map Prod.fst = pathsAll subfields path := by
  match subfields with
  | [] =>
    cases hall
    rfl
  | (name, r) :: rest =>
    obtain ⟨first, others, hfirst, hothers, rfl⟩ := subFormatAll_cons_eq_ok hall
    rw [collectAll, List.map_append, pathsAll, paths_of_formatted hfirst, paths_of_subFormatAll hothers]

end

mutual

/-- All paths of a field begin with its own. -/
theorem prefix_of_mem_paths {r : TranslationResult} {path q : List String} (hq : q ∈ r.paths path) : path <+: q := by
  match r with
  | .mk val subfields kind =>
    rw [paths, List.mem_cons] at hq
    rcases hq with rfl | hq
    · exact List.prefix_refl _
    · obtain ⟨e, -, he⟩ := prefix_of_mem_pathsAll hq
      exact (List.prefix_append _ _).trans he

theorem prefix_of_mem_pathsAll {subfields : List (String × TranslationResult)} {path q : List String}
    (hq : q ∈ pathsAll subfields path) : ∃ e ∈ subfields, path ++ [e.1] <+: q := by
  match subfields with
  | [] => cases hq
  | (name, r) :: rest =>
    rw [pathsAll, List.mem_append] at hq
    rcases hq with hq | hq
    · exact ⟨(name, r), List.mem_cons_self, prefix_of_mem_paths hq⟩
    · obtain ⟨e, he, hprefix⟩ := prefix_of_mem_pathsAll hq
      exact ⟨e, List.mem_cons_of_mem _ he, hprefix⟩

end

/-- A path below another one names the field that it goes through. -/
theorem eq_of_below {name field : String} {rest : List String} (h : path ++ [name] <+: path ++ field :: rest) :
    name = field := by
  rw [List.prefix_append_right_inj, List.cons_prefix_cons] at h
  exact h.1

/-- A path that no field has is not found. -/
theorem find?_eq_none {fields : List (List String × Option TranslatedValue)} {q : List String}
    (h : q ∉ fields.map Prod.fst) : fields.find? (fun e => e.1 = q) = none := by
  rw [List.find?_eq_none]
  intro e he heq
  exact h (List.mem_map.2 ⟨e, he, by simpa using heq⟩)

/-! ## Looking up -/

/-- The value of a field that is formatted by itself. -/
def valueAt (formats : List FieldFormat) (translators : TranslatorList) (path : List String) (r : TranslationResult) :
    Run (Option TranslatedValue) :=
  HierFormatResult.this <$> r.formatted formats translators (translatorName formats translators path) path

/-- What is found at the path of a field. -/
def Found (formats : List FieldFormat) (translators : TranslatorList) (path : List String)
    (r : Option TranslationResult) (found : Option (List String × Option TranslatedValue)) : Prop :=
  (r = none → found = none) ∧
    ∀ t, r = some t → ∃ v, valueAt formats translators path t = .ok v ∧ found = some (path, v)

theorem found_self
    (hformatted : r.formatted formats translators (translatorName formats translators path) path = .ok h) :
    Found formats translators path (r.sub []) (h.collectInto.find? fun e => e.1 = path) := by
  obtain ⟨val, subfields, kind, this, fields, rfl, rfl, -, -⟩ := formatted_eq_ok hformatted
  refine ⟨nofun, ?_⟩
  rintro t ⟨⟩
  refine ⟨this, ?_, ?_⟩
  · rw [valueAt, hformatted]
    rfl
  · rw [HierFormatResult.collectInto, List.find?_cons_of_pos (by simp)]

/-- To look a path up below another one is to walk down from there. -/
theorem found_of_formatted {q : List String} (hq : q ≠ []) (hdistinct : r.Distinct)
    (hformatted : r.formatted formats translators subtranslatorName path = .ok h) :
    Found formats translators (path ++ q) (r.sub q) (h.collectInto.find? fun e => e.1 = path ++ q) := by
  induction q generalizing r path h subtranslatorName with
  | nil => exact absurd rfl hq
  | cons field q ih =>
    obtain ⟨val, subfields, kind, this, fields, rfl, rfl, hfields, -⟩ := formatted_eq_ok hformatted
    rw [HierFormatResult.collectInto, List.find?_cons_of_neg (by simp)]
    rw [Distinct] at hdistinct
    obtain ⟨hnodup, hall⟩ := hdistinct
    clear hformatted
    induction subfields generalizing fields with
    | nil =>
      cases hfields
      exact ⟨fun _ => rfl, nofun⟩
    | cons e rest ihrest =>
      obtain ⟨name, t⟩ := e
      obtain ⟨first, others, hfirst, hothers, rfl⟩ := subFormatAll_cons_eq_ok hfields
      rw [List.map_cons, List.nodup_cons] at hnodup
      rw [DistinctAll] at hall
      rw [collectAll, List.find?_append]
      by_cases hname : name = field
      · subst hname
        -- no other field has the name
        have hnot : (collectAll others).find? (fun e => e.1 = path ++ name :: q) = none := by
          refine find?_eq_none fun hmem => ?_
          rw [paths_of_subFormatAll hothers] at hmem
          obtain ⟨e, he, hprefix⟩ := prefix_of_mem_pathsAll hmem
          obtain rfl := eq_of_below hprefix
          exact hnodup.1 (List.mem_map.2 ⟨e, he, rfl⟩)
        rw [hnot, Option.or_none, sub, List.find?_cons_of_pos (by simp), List.append_cons]
        by_cases hq : q = []
        · subst hq
          rw [List.append_nil]
          exact found_self hfirst
        · exact ih hq hall.1 hfirst
      · have hnot : first.collectInto.find? (fun e => e.1 = path ++ field :: q) = none := by
          refine find?_eq_none fun hmem => ?_
          rw [paths_of_formatted hfirst] at hmem
          exact hname (eq_of_below (prefix_of_mem_paths hmem))
        rw [hnot, Option.none_or, sub, List.find?_cons_of_neg (by simpa using hname)]
        have hrest := ihrest others hothers hnodup.2 hall.2
        rw [sub] at hrest
        exact hrest

theorem formatFlat_eq_ok {rootFormat : Option String} {fields : List (List String × Option TranslatedValue)}
    (h : formatFlat rootFormat formats translators r = .ok fields) : ∃ h,
      r.formatted formats translators (rootFormat.getD translators.default) [] = .ok h ∧ fields = h.collectInto := by
  rw [formatFlat_eq, Except.map_eq_ok] at h
  obtain ⟨h, hformatted, rfl⟩ := h
  exact ⟨h, hformatted, rfl⟩

/-- The list has every field of the result once, each before those below it, and the value at a path is that of the
field at the path, as if it was formatted by itself. -/
theorem lookup_formatFlat (rootFormat : Option String) (formats : List FieldFormat) (translators : TranslatorList)
    (r : TranslationResult) (fields : List (List String × Option TranslatedValue)) (hdistinct : r.Distinct)
    (h : formatFlat rootFormat formats translators r = .ok fields) :
    fields.map Prod.fst = r.paths [] ∧
      ∀ path ≠ [], Found formats translators path (r.sub path) (fields.find? fun e => e.1 = path) := by
  obtain ⟨h, hformatted, rfl⟩ := formatFlat_eq_ok h
  refine ⟨paths_of_formatted hformatted, fun path hpath => ?_⟩
  have hfound := found_of_formatted hpath hdistinct hformatted
  rwa [List.nil_append] at hfound

/-- The translators that show a vector as one number or count its bits. -/
def basicTranslators : TranslatorList where
  inner name := ([.hex, .octal, .binary, .unsigned].find? fun t : BasicTranslator => t.name = name).map fun t =>
    .basic fun numBits value => ((String.ofList (t.basicTranslate numBits value).1), (t.basicTranslate numBits value).2)
  default := "Hexadecimal"

/-- A bus with its data and whether it is valid. -/
def bus : TranslationResult :=
  .mk .struct [("data", .mk (.bits 8 "10101111") [] .normal), ("valid", .mk (.bit '1') [] .normal)] .normal

/-- The bus as it is shown with the format of its data. -/
def busFields (data : String) : List (List String × Option TranslatedValue) := [
  ([], some ⟨"\x7bdata: " ++ data ++ ", valid: 1\x7d", .normal⟩),
  (["data"], some ⟨data, .normal⟩),
  (["valid"], some ⟨"1", .normal⟩)]

theorem distinct_bus : bus.Distinct := by
  simp [bus, Distinct, DistinctAll]

theorem formatFlat_bus : formatFlat none [] basicTranslators bus = .ok (busFields "af") := by
  decide +kernel

theorem lookup_formatFlat_bus : Found [] basicTranslators ["valid"] (bus.sub ["valid"])
    ((busFields "af").find? fun e => e.1 = ["valid"]) :=
  (lookup_formatFlat none [] basicTranslators bus _ distinct_bus formatFlat_bus).2 ["valid"] (by decide)

/-! ## Formats of fields -/

mutual

/-- Below a path only the formats below it matter. -/
theorem formatted_congr {formats formats' : List FieldFormat} {translators : TranslatorList}
    {subtranslatorName : String} {r : TranslationResult} {path : List String}
    (h : ∀ q, path <+: q → path ≠ q → translatorName formats translators q = translatorName formats' translators q) :
    r.formatted formats translators subtranslatorName path
      = r.formatted formats' translators subtranslatorName path := by
  match r with
  | .mk val subfields kind => rw [formatted, formatted, subFormatAll_congr h]

theorem subFormatAll_congr {formats formats' : List FieldFormat} {translators : TranslatorList}
    {subfields : List (String × TranslationResult)} {path : List String}
    (h : ∀ q, path <+: q → path ≠ q → translatorName formats translators q = translatorName formats' translators q) :
    subFormatAll formats translators subfields path = subFormatAll formats' translators subfields path := by
  match subfields with
  | [] => rfl
  | (name, r) :: rest =>
    have hname : path ++ [name] ≠ path := by simp
    have hbelow : ∀ q, path ++ [name] <+: q → path ++ [name] ≠ q →
        translatorName formats translators q = translatorName formats' translators q := by
      intro q hq _
      refine h q ((List.prefix_append _ _).trans hq) ?_
      rintro rfl
      have hlength := hq.length_le
      simp at hlength
    rw [subFormatAll_cons, subFormatAll_cons, formatted_congr hbelow, subFormatAll_congr h,
      h (path ++ [name]) (List.prefix_append _ _) hname.symm]

end

theorem translatorName_setFormat_self (formats : List FieldFormat) (field : List String) (format : String) :
    translatorName (setFormat formats field format) translators field = format := by
  have hnone : (formats.filter fun ff => ff.field ≠ field).find? (fun e => e.field = field) = none := by
    rw [List.find?_eq_none]
    intro e he
    simpa using (List.mem_filter.1 he).2
  rw [translatorName, setFormat, List.find?_append, hnone, Option.none_or, List.find?_cons_of_pos (by simp)]
  rfl

theorem translatorName_setFormat_of_ne {field q : List String} (format : String) (h : q ≠ field) :
    translatorName (setFormat formats field format) translators q = translatorName formats translators q := by
  have hkept : (formats.filter fun ff => ff.field ≠ field).find? (fun e => e.field = q)
      = formats.find? fun e => e.field = q := by
    rw [List.find?_filter]
    congr 1
    funext e
    by_cases he : e.field = q
    · simp [he, h]
    · simp [he]
  have hlast : [FieldFormat.mk field format].find? (fun e => e.field = q) = none :=
    List.find?_cons_of_neg (by simpa using h.symm)
  rw [translatorName, setFormat, List.find?_append, hkept, hlast, Option.or_none, translatorName]

/-- A field that the formatted one is not inside of keeps its value. -/
theorem valueAt_setFormat {field : List String} {format : String} {t : TranslationResult} (hpath : ¬ path <+: field) :
    valueAt (setFormat formats field format) translators path t = valueAt formats translators path t := by
  have hne : path ≠ field := by
    rintro rfl
    exact hpath (List.prefix_refl _)
  rw [valueAt, valueAt, translatorName_setFormat_of_ne format hne]
  congr 1
  refine formatted_congr fun q hq _ => translatorName_setFormat_of_ne format ?_
  rintro rfl
  exact hpath hq

/-- The format that is set for a field shows in its value and may show in the values around it. The values of all
other fields, those below it included, stay what they are. -/
theorem formatFlat_setFormat (rootFormat : Option String) (formats : List FieldFormat) (translators : TranslatorList)
    (r : TranslationResult) (field : List String) (format : String)
    (fields fields' : List (List String × Option TranslatedValue)) (hdistinct : r.Distinct) (hfield : field ≠ [])
    (h : formatFlat rootFormat formats translators r = .ok fields)
    (h' : formatFlat rootFormat (setFormat formats field format) translators r = .ok fields') :
    fields'.map Prod.fst = fields.map Prod.fst ∧
      (∀ t, r.sub field = some t → ∃ v, fields'.find? (fun e => e.1 = field) = some (field, v) ∧
        HierFormatResult.this <$> t.formatted formats translators format field = .ok v) ∧
      ∀ path, ¬ path <+: field →
        fields'.find? (fun e => e.1 = path) = fields.find? fun e => e.1 = path := by
  obtain ⟨g, hg, rfl⟩ := formatFlat_eq_ok h
  obtain ⟨g', hg', rfl⟩ := formatFlat_eq_ok h'
  refine ⟨by rw [paths_of_formatted hg, paths_of_formatted hg'], ?_, ?_⟩
  · intro t ht
    have hfound := found_of_formatted hfield hdistinct hg'
    rw [List.nil_append] at hfound
    obtain ⟨v, hv, hfind⟩ := hfound.2 t ht
    refine ⟨v, hfind, ?_⟩
    -- the fields below it keep their formats, as none of their paths is that of the field
    have hbelow : t.formatted formats translators format field
        = t.formatted (setFormat formats field format) translators format field :=
      formatted_congr fun q _ hne => (translatorName_setFormat_of_ne format hne.symm).symm
    rw [hbelow, ← hv, valueAt, translatorName_setFormat_self]
  · intro path hpath
    have hne : path ≠ [] := by
      rintro rfl
      exact hpath List.nil_prefix
    have hfound := found_of_formatted hne hdistinct hg
    have hfound' := found_of_formatted hne hdistinct hg'
    rw [List.nil_append] at hfound hfound'
    cases ht : r.sub path with
    | none => rw [hfound.1 ht, hfound'.1 ht]
    | some t =>
      obtain ⟨v, hv, hfind⟩ := hfound.2 t ht
      obtain ⟨v', hv', hfind'⟩ := hfound'.2 t ht
      have hsame : valueAt (setFormat formats field format) translators path t = valueAt formats translators path t :=
        valueAt_setFormat hpath
      rw [hsame, hv] at hv'
      cases hv'
      rw [hfind, hfind']

theorem formatFlat_bus_octal :
    formatFlat none (setFormat [] ["data"] "Octal") basicTranslators bus = .ok (busFields "257") := by
  decide +kernel

theorem formatFlat_setFormat_bus : (busFields "257").find? (fun e => e.1 = ["valid"])
    = (busFields "af").find? fun e => e.1 = ["valid"] :=
  (formatFlat_setFormat none [] basicTranslators bus ["data"] "Octal" _ _ distinct_bus (by decide) formatFlat_bus
    formatFlat_bus_octal).2.2 ["valid"] (by decide)

/-! ## Drawing -/

namespace TranslationResult

mutual

/-- The fields of a result are ones that the translator has announced. -/
def Fits : TranslationResult → VariableInfo → Prop
  | .mk _ subfields _, info => subfields = [] ∨ ∃ infos, info = .compound infos ∧ FitsAll subfields infos

def FitsAll : List (String × TranslationResult) → List (String × VariableInfo) → Prop
  | [], _ => True
  | (name, r) :: rest, infos =>
    (∃ e, infos.find? (fun e => e.1 = name) = some e ∧ r.Fits e.2) ∧ FitsAll rest infos

end

end TranslationResult

/-- To go down a path is to go down the one part and then the other. -/
theorem getSubinfo_append (info : VariableInfo) (p q : List String) :
    info.getSubinfo (p ++ q) = (do
      let info ← info.getSubinfo p
      info.getSubinfo q) := by
  induction p generalizing info with
  | nil =>
    rw [List.nil_append, VariableInfo.getSubinfo]
    rfl
  | cons field p ih =>
    cases info with
    | compound infos =>
      rw [List.cons_append, VariableInfo.getSubinfo, VariableInfo.getSubinfo]
      split
      · exact ih _
      · rfl
    | bits => rfl
    | bool => rfl
    | clock => rfl
    | string => rfl
    | event => rfl
    | real => rfl

theorem getSubinfo_compound {infos : List (String × VariableInfo)} {name : String} {e : String × VariableInfo}
    (h : infos.find? (fun e => e.1 = name) = some e) : (VariableInfo.compound infos).getSubinfo [name] = .ok e.2 := by
  rw [VariableInfo.getSubinfo, h]
  rfl

mutual

/-- There is an info for each path of a result that fits. -/
theorem getSubinfo_of_fits {root info : VariableInfo} {r : TranslationResult} {path q : List String}
    (hpath : root.getSubinfo path = .ok info) (hfits : r.Fits info) (hq : q ∈ r.paths path) :
    ∃ sub, root.getSubinfo q = .ok sub := by
  match r with
  | .mk val subfields kind =>
    rw [paths, List.mem_cons] at hq
    rcases hq with rfl | hq
    · exact ⟨info, hpath⟩
    · rw [TranslationResult.Fits] at hfits
      rcases hfits with rfl | ⟨infos, rfl, hall⟩
      · cases hq
      · exact getSubinfo_of_fitsAll hpath hall hq

theorem getSubinfo_of_fitsAll {root : VariableInfo} {infos : List (String × VariableInfo)}
    {subfields : List (String × TranslationResult)} {path q : List String}
    (hpath : root.getSubinfo path = .ok (.compound infos)) (hfits : FitsAll subfields infos)
    (hq : q ∈ pathsAll subfields path) : ∃ sub, root.getSubinfo q = .ok sub := by
  match subfields with
  | [] => cases hq
  | (name, r) :: rest =>
    rw [TranslationResult.FitsAll] at hfits
    obtain ⟨⟨e, hfind, hfits⟩, hrest⟩ := hfits
    rw [pathsAll, List.mem_append] at hq
    rcases hq with hq | hq
    · refine getSubinfo_of_fits ?_ hfits hq
      rw [getSubinfo_append, hpath]
      exact getSubinfo_compound hfind
    · exact getSubinfo_of_fitsAll hpath hrest hq

end

open Digital (Drawn DigitalDrawingCommands DigitalDrawingType Source Pixel Bounds TraceValue)

/-- Every field is drawn with the type of its info. -/
def Typed (info : VariableInfo) (localCommands : FiniteMap (List String) DigitalDrawingCommands) : Prop :=
  localCommands.All fun names commands =>
    ∃ sub, info.getSubinfo names = .ok sub ∧ commands.drawingType = .ofInfo sub

section Draw

variable {src : Source} {drawn : Drawn}

theorem exists_entry {localCommands : FiniteMap (List String) DigitalDrawingCommands} {names : List String}
    {sub : VariableInfo} (htyped : Typed src.info localCommands) (hsub : src.info.getSubinfo names = .ok sub) :
    ∃ entry localCommands', src.entry localCommands names = .ok (entry, localCommands') ∧
      entry.drawingType = .ofInfo sub ∧ Typed src.info localCommands' := by
  rw [Source.entry]
  cases hget : localCommands.get names with
  | some entry =>
    obtain ⟨sub', hsub', htype⟩ := htyped names entry hget
    rw [hsub] at hsub'
    cases hsub'
    exact ⟨entry, localCommands, rfl, htype, htyped⟩
  | none =>
    have hnew : Typed src.info (localCommands.insert names (.newFromVariableInfo sub)) :=
      htyped.insert ⟨sub, hsub, rfl⟩
    refine ⟨.newFromVariableInfo sub, _, ?_, rfl, hnew⟩
    rw [hsub]
    rfl

theorem exists_drawField (p : Pixel) (changeTime : ℕ) (traceValue : TraceValue)
    {field : List String × Option TranslatedValue} {sub : VariableInfo} (htyped : Typed src.info drawn.localCommands)
    (hsub : src.info.getSubinfo field.1 = .ok sub) : ∃ drawn',
      src.drawField p changeTime traceValue drawn field = .ok drawn' ∧ Typed src.info drawn'.localCommands := by
  obtain ⟨names, value⟩ := field
  obtain ⟨entry, localCommands, hentry, htype, hkept⟩ := exists_entry htyped hsub
  rw [Source.drawField]
  simp only [hentry, bind, Except.bind, pure, Except.pure]
  split
  · exact ⟨_, rfl, hkept.insert ⟨sub, hsub, htype⟩⟩
  · exact ⟨_, rfl, hkept⟩

/-- Every translation has only fields with an info. -/
def Announced (src : Source) : Prop :=
  ∀ val fields, src.translate val = .ok fields → ∀ e ∈ fields, ∃ sub, src.info.getSubinfo e.1 = .ok sub

theorem exists_draw {p : Pixel} (hannounced : Announced src) (res : Except String (Option Cxxrtl.QueryResult))
    (htyped : Typed src.info drawn.localCommands) : ∃ result,
      src.draw p res drawn = .ok result ∧ ∀ drawn', result = some drawn' → Typed src.info drawn'.localCommands := by
  have hsame : ∀ drawn', some drawn = some drawn' → Typed src.info drawn'.localCommands := by
    rintro _ ⟨⟩
    exact htyped
  unfold Source.draw
  split
  next changeTime val next =>
    split_ifs with hold
    · exact ⟨_, rfl, hsame⟩
    · cases hfields : src.translate val with
      | error e => exact ⟨none, rfl, nofun⟩
      | ok fields =>
        -- the loop over the fields does not panic, as each of them has an info
        obtain ⟨drawn', hdrawn', htyped'⟩ :=
          Except.exists_foldlM (fun drawn : Drawn => Typed src.info drawn.localCommands) htyped
            fun s field hfield hs => by
              obtain ⟨sub, hsub⟩ := hannounced val fields hfields field hfield
              exact exists_drawField p changeTime (.fromValue val src.numBits src.traceStyle) hs hsub
        refine ⟨some drawn', ?_, ?_⟩
        · simp only [hdrawn', bind, Except.bind, pure, Except.pure]
        · rintro _ ⟨⟩
          exact htyped'
  · exact ⟨_, rfl, hsame⟩

theorem exists_loop (hannounced : Announced src) (bounds : Bounds) (skipping : Bool) (prevTime : ℕ)
    (rest : List (ℚ × ℕ)) (s : ℚ × Drawn) (htyped : Typed src.info s.2.localCommands) : ∃ result,
      src.loop bounds skipping prevTime rest s = .ok result ∧
        ∀ s', result = some s' → Typed src.info s'.2.localCommands := by
  induction rest generalizing prevTime s with
  | nil =>
    refine ⟨some s, rfl, ?_⟩
    rintro _ ⟨⟩
    exact htyped
  | cons e rest ih =>
    rw [Source.loop]
    dsimp only
    split
    · exact ih e.2 s htyped
    · obtain ⟨result, hresult, hdrawn⟩ := exists_draw (p := .at bounds prevTime e) hannounced (src.query e.2) htyped
      rw [hresult]
      cases result with
      | none => exact ⟨none, rfl, nofun⟩
      | some drawn => exact ih e.2 _ (hdrawn drawn rfl)

end Draw

/-- Every value is shown as the bus. -/
def busSource : Source where
  query _ := .ok (some { current := some (0, .string "0101011111"), next := none })
  pixelFromTime := fun time => time
  translate _ := .ok (busFields "af")
  info := .compound [("data", .bits), ("valid", .bool)]
  numBits := some 9
  traceStyle := .default
  wantsAntiAliasing := true

end Translation
