import Kahuna.FiniteMap.Basic
import Kahuna.Numerals.Bytes
import Kahuna.Panic
import Kahuna.Translation.Leb
import Kahuna.Translation.Representation

/-!
# The ASCII translator

The model of `ASCIITranslator` in `basic_translators.rs`. A value that is stored as a number is shown by its
bytes, of which there are as many as the number needs. A text of bits is shown by its groups of eight.

* `asciiTranslate_eq_iff`: both are the same unless the text has more groups than the number has bytes.
-/

namespace Translation

open Numerals Wave

/-- The character of a group of bits. -/
def asciiChar (substr : List Char) : Run Char :=
  match u8FromBinary substr with
  | some val => .ok (Char.ofNat val)
  | none => .error (.assertion s!"Found non-binary digit {String.ofList substr} in value")

/-- `ASCIITranslator`. -/
def asciiTranslate (_numBits : ℕ) : VariableValue → Run (List Char × ValueKind)
  | .bigUint v => .ok ((bytesBe v).map fun val => Char.ofNat val.toNat, .normal)
  | .string s =>
    match checkVectorVariable s.toList with
    | some (text, kind) => .ok (text.toList, kind)
    | none => do
      let chars ← (groupNChars s.toList 8).mapM asciiChar
      pure (chars, .normal)

theorem toNat_ofNat_byte {n : ℕ} (h : n < 256) : (Char.ofNat n).toNat = n := by
  have hvalid : n.isValidChar := Or.inl (by omega)
  rw [Char.ofNat, dif_pos hvalid]
  rfl

variable {numBits : ℕ} {s : List Char}

/-- The groups of a text of bits as numbers. -/
theorem mem_map_groups_lt {d : ℕ} (hd : d ∈ (groups s 8).map (value 2)) : d < 256 := by
  obtain ⟨g, hg, rfl⟩ := List.mem_map.1 hd
  obtain ⟨-, hle, -⟩ := length_le_of_mem_groups (by omega) hg
  calc value 2 g < 2 ^ g.length := value_lt (by omega) g
    _ ≤ 2 ^ 8 := Nat.pow_le_pow_right (by omega) hle

theorem BinaryText.checkVectorVariable_eq (h : BinaryText numBits s) : checkVectorVariable s = none := by
  have hall : ∀ c ∈ s, ¬ c = '0' → c = '1' := fun c hc => (h.bits c hc).resolve_left
  simpa [checkVectorVariable, h.not_mem] using hall

theorem map_ofNat_inj {l m : List ℕ} (hl : ∀ d ∈ l, d < 256) (hm : ∀ d ∈ m, d < 256)
    (h : l.map Char.ofNat = m.map Char.ofNat) : l = m := by
  have hback : ∀ {l : List ℕ}, (∀ d ∈ l, d < 256) → (l.map Char.ofNat).map Char.toNat = l := by
    intro l hl
    have hchar : ∀ d ∈ l, (Char.toNat ∘ Char.ofNat) d = id d := fun d hd => toNat_ofNat_byte (hl d hd)
    rw [List.map_map, List.map_congr_left hchar, List.map_id]
  rw [← hback hl, h, hback hm]

/-- A text of bits is shown by its groups. -/
theorem asciiTranslate_string (h : BinaryText numBits s) :
    asciiTranslate numBits (.string (String.ofList s)) =
      .ok (((groups s 8).map (value 2)).map Char.ofNat, .normal) := by
  have hchar : ∀ g ∈ groups s 8, asciiChar g = .ok (Char.ofNat (value 2 g)) := by
    intro g hg
    rw [asciiChar, u8FromBinary_eq (h.of_mem_groups (by omega) hg) (le_refl 8)]
  simp only [asciiTranslate, String.toList_ofList, h.checkVectorVariable_eq, groupNChars,
    Run.mapM_eq_map hchar, List.map_map]
  rfl

/-- A number and a text of bits are shown alike if the text needs no more bytes than the number. -/
theorem asciiTranslate_eq_iff (h : BinaryText numBits s) :
    asciiTranslate numBits (.bigUint (value 2 s)) =
        asciiTranslate numBits (.string (String.ofList s)) ↔
      s.length ≤ 8 * (bytesBe (value 2 s)).length := by
  set digits := ((groups s 8).map (value 2)).reverse with hdigits
  have hlt : ∀ d ∈ digits, d < 256 := fun d hd => mem_map_groups_lt (List.mem_reverse.1 hd)
  have hvalue : Nat.ofDigits 256 digits = value 2 s :=
    ofDigits_map_groups (b := 2) (n := 8) (by omega) s
  have hlength : digits.length = (s.length + 7) / 8 := by
    rw [hdigits, List.length_reverse, List.length_map, length_groups (by omega)]
  have hpos := List.length_pos_iff.2 h.ne
  have hne : digits ≠ [] := by
    rw [← List.length_pos_iff, hlength]
    omega
  have hle := length_bytesLe_le hne hlt
  have hchars : asciiTranslate numBits (.bigUint (value 2 s)) =
        asciiTranslate numBits (.string (String.ofList s)) ↔
      (bytesLe (value 2 s)).map UInt8.toNat = digits := by
    have hnumber : asciiTranslate numBits (.bigUint (value 2 s)) =
        .ok (((bytesBe (value 2 s)).map UInt8.toNat).map Char.ofNat, .normal) := by
      rw [asciiTranslate, List.map_map]
      rfl
    have hbyte : ∀ d ∈ (bytesBe (value 2 s)).map UInt8.toNat, d < 256 := by
      intro d hd
      obtain ⟨byte, -, rfl⟩ := List.mem_map.1 hd
      exact byte.toNat_lt
    rw [hnumber, asciiTranslate_string h, hdigits, ← List.reverse_inj, List.reverse_reverse,
      ← List.map_reverse]
    constructor
    · intro heq
      injection heq with heq
      exact map_ofNat_inj hbyte (fun d hd => mem_map_groups_lt hd) (congrArg Prod.fst heq)
    · intro heq
      rw [bytesBe, heq]
  -- the bytes of a number are its digits if there are as many of them
  have hbytes := map_toNat_bytesLe_eq_iff hlt
  rw [hvalue] at hbytes hle
  rw [hchars, hbytes, hlength, bytesBe, List.length_reverse]
  omega

end Translation

/-!
## The mapping translators

The model of `MappingTranslator` in `mapping_translators.rs`. A table has labels for some values, and a value
without a label is shown in binary. The keys that are texts of zeros and ones are kept as numbers.

* `basicTranslate_eq_iff`: a number and a text of bits are shown alike if the table has no label for the number;
* `alike_iff`: the same for this translator and the ASCII translator together.
-/

namespace Translation

open Numerals Wave

structure MappingEntry where
  label : List Char
  kind : ValueKind
  deriving DecidableEq, Repr

/-- A mapping of variable values to their string entries. -/
structure MappingTranslatorMap where
  name : List Char
  bits : ℕ
  entries : FiniteMap VariableValue MappingEntry
  /-- No key is a text of zeros and ones, see `normalizeFirstColumn`. -/
  normalized : ∀ s, (entries.get (.string s)).isSome → ∃ c ∈ s.toList, c ≠ '0' ∧ c ≠ '1'

/-- `format!("{v:0width$b}")`. The width of a formatted value has sixteen bits. -/
def formatBinary (width v : ℕ) : Run (List Char) :=
  if width < 2 ^ 16 then .ok (padded 2 width v)
  else .error (.assertion "Formatting argument out of range")

/-- A key as a text. -/
def keyDisplay (key : VariableValue) (bitWidth : ℕ) : Run (List Char) :=
  match key with
  | .string s => .ok s.toList
  | .bigUint v => formatBinary bitWidth v

/-- The key under which a value is looked up. -/
def lookupValue (numBits : ℕ) : VariableValue → VariableValue
  | .bigUint v => .bigUint v
  | .string s => .string (String.ofList (extendString s.toList numBits ++ s.toList))

namespace MappingTranslatorMap

/-- `MappingTranslator::basic_translate`. -/
def basicTranslate (map : MappingTranslatorMap) (numBits : ℕ) (value : VariableValue) :
    Run (List Char × ValueKind) :=
  match map.entries.get (lookupValue numBits value) with
  | some entry => .ok (entry.label, entry.kind)
  | none => do
    let varString ← keyDisplay (lookupValue numBits value) numBits
    pure (varString, kindForBinaryRepresentation varString)

variable {numBits : ℕ} {s : List Char}

/-- A text of bits has no label. -/
theorem basicTranslate_string (map : MappingTranslatorMap) (h : BinaryText numBits s) :
    map.basicTranslate numBits (.string (String.ofList s)) =
      .ok (padded 2 numBits (value 2 s), .normal) := by
  have hkey : lookupValue numBits (.string (String.ofList s)) =
      .string (String.ofList (padded 2 numBits (value 2 s))) := by
    rw [lookupValue, String.toList_ofList, h.extended_eq]
  have hget : map.entries.get (.string (String.ofList (padded 2 numBits (value 2 s)))) = none := by
    rw [← Option.not_isSome_iff_eq_none]
    intro hsome
    obtain ⟨c, hc, hzero, hone⟩ := map.normalized _ hsome
    rw [String.toList_ofList] at hc
    exact (h.padded.bits c hc).elim hzero hone
  have hkind := h.padded.kind_eq
  simp only [basicTranslate, hkey, hget, keyDisplay, String.toList_ofList]
  change Except.ok (_, kindForBinaryRepresentation _) = _
  rw [hkind]

/-- A number has its label, or is shown in binary. -/
theorem basicTranslate_bigUint (map : MappingTranslatorMap) (h : BinaryText numBits s) :
    map.basicTranslate numBits (.bigUint (value 2 s)) =
      match map.entries.get (.bigUint (value 2 s)) with
      | some entry => .ok (entry.label, entry.kind)
      | none =>
        if numBits < 2 ^ 16 then .ok (padded 2 numBits (value 2 s), .normal)
        else .error (.assertion "Formatting argument out of range") := by
  rw [basicTranslate, lookupValue]
  cases map.entries.get (.bigUint (value 2 s)) with
  | some entry => rfl
  | none =>
    have hkind := h.padded.kind_eq
    simp only [keyDisplay, formatBinary]
    split
    next =>
      change Except.ok (_, kindForBinaryRepresentation _) = _
      rw [hkind]
    next => rfl

/-- A number and a text of bits are shown alike if the number has no label of its own and its binary text can
be formatted. -/
theorem basicTranslate_eq_iff (map : MappingTranslatorMap) (h : BinaryText numBits s) :
    map.basicTranslate numBits (.bigUint (value 2 s)) =
        map.basicTranslate numBits (.string (String.ofList s)) ↔
      (∀ entry, map.entries.get (.bigUint (value 2 s)) = some entry →
        entry = ⟨padded 2 numBits (value 2 s), .normal⟩) ∧
      (map.entries.get (.bigUint (value 2 s)) = none → numBits < 2 ^ 16) := by
  rw [basicTranslate_string map h, basicTranslate_bigUint map h]
  cases map.entries.get (.bigUint (value 2 s)) with
  | some entry =>
    obtain ⟨label, kind⟩ := entry
    simp
  | none => simp

end MappingTranslatorMap

/-- **The representation of a value** does not matter to the ASCII translator and a mapping translator exactly
if the text has no more bits than the bytes of the number, and the table has no label for the number but its
own binary text. -/
theorem alike_iff (map : MappingTranslatorMap) {numBits : ℕ} {s : List Char} (h : BinaryText numBits s) :
    asciiTranslate numBits (.bigUint (value 2 s)) =
          asciiTranslate numBits (.string (String.ofList s)) ∧
        map.basicTranslate numBits (.bigUint (value 2 s)) =
          map.basicTranslate numBits (.string (String.ofList s)) ↔
      s.length ≤ 8 * (bytesBe (value 2 s)).length ∧
        (∀ entry, map.entries.get (.bigUint (value 2 s)) = some entry →
          entry = ⟨padded 2 numBits (value 2 s), .normal⟩) ∧
        (map.entries.get (.bigUint (value 2 s)) = none → numBits < 2 ^ 16) := by
  rw [asciiTranslate_eq_iff h, map.basicTranslate_eq_iff h]

/-- A table with a label for one number. -/
def labelled (v : ℕ) (label : String) : MappingTranslatorMap where
  name := []
  bits := bits v
  entries := FiniteMap.empty.insert (.bigUint v) ⟨label.toList, .normal⟩
  normalized s hs := by
    rw [FiniteMap.get_insert] at hs
    simp at hs

theorem alike_iff_letter :
    asciiTranslate 7 (.bigUint 65) = asciiTranslate 7 (.string "1000001") ∧
      (labelled 1 "ONE").basicTranslate 7 (.bigUint 65) =
        (labelled 1 "ONE").basicTranslate 7 (.string "1000001") := by
  have htext : BinaryText 7 "1000001".toList := ⟨by simp, by decide, by decide⟩
  have hnone : (labelled 1 "ONE").entries.get (.bigUint 65) = none := rfl
  refine (alike_iff (labelled 1 "ONE") htext).2 ⟨by decide, ?_, fun _ => by decide⟩
  intro entry hentry
  change (labelled 1 "ONE").entries.get (.bigUint 65) = some entry at hentry
  rw [hnone] at hentry
  cases hentry

/-- The label of a number is not found for its text. -/
theorem not_forall_alike :
    ¬ ∀ (map : MappingTranslatorMap) (numBits : ℕ) (s : List Char), BinaryText numBits s →
      asciiTranslate numBits (.bigUint (value 2 s)) =
          asciiTranslate numBits (.string (String.ofList s)) ∧
        map.basicTranslate numBits (.bigUint (value 2 s)) =
          map.basicTranslate numBits (.string (String.ofList s)) := by
  intro hall
  have htext : BinaryText 1 ['1'] := ⟨by simp, by decide, by decide⟩
  have hsame := (hall (labelled 1 "ONE") 1 ['1'] htext).2
  rw [MappingTranslatorMap.basicTranslate_string _ htext] at hsame
  have hlabel : (labelled 1 "ONE").basicTranslate 1 (.bigUint 1) = .ok ("ONE".toList, .normal) := rfl
  have hvalue : value 2 ['1'] = 1 := by decide
  rw [hvalue, hlabel] at hsame
  injection hsame with hsame
  exact absurd (congrArg Prod.fst hsame) (by decide)

end Translation
