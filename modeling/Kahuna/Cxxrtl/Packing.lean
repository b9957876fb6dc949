import Kahuna.Cxxrtl.QueryContainer
import Kahuna.Numerals.Bytes
import Kahuna.Transition.Basic

/-!
# Packed samples

A sample holds the values of the variables one after the other, each in as many words of 32 bits as its width
needs, the lowest word first. `fill_variable_values` cuts the sample again, with offsets of 32 bits.

- `unpacked_of_lt`: a sample of fewer than 2³⁰ words is cut where one variable ends and the next one starts;
- `not_ok_of_le`: in a longer one, the offset in bytes of some variable overflows, and the task panics.
-/

namespace Cxxrtl

open Numerals
open Wave (VariableRef VariableValue)

/-! ## Packing -/

/-- A variable of a sample, with the value that it has there. -/
structure PackedValue where
  var : VariableRef
  width : UInt32
  value : ℕ
  width_pos : 1 ≤ width.toNat
  value_lt : value < 2 ^ width.toNat

/-- The lowest words of a number, the lowest one first. -/
def leWords : ℕ → ℕ → List UInt32
  | 0, _ => []
  | n + 1, v => UInt32.ofNat v :: leWords n (v / 2 ^ 32)

/-- The bytes of a word, the lowest one first. -/
def leBytes (w : UInt32) : List UInt8 :=
  [.ofNat w.toNat, .ofNat (w.toNat / 256), .ofNat (w.toNat / 256 ^ 2), .ofNat (w.toNat / 256 ^ 3)]

namespace PackedValue

/-- The number of words that a width needs. -/
def size (e : PackedValue) : ℕ := (e.width.toNat + 31) / 32

/-- The words of a value. -/
def words (e : PackedValue) : List UInt32 := leWords e.size e.value

/-- The words in bytes. -/
def bytes (e : PackedValue) : List UInt8 := e.words.flatMap leBytes

/-- The variable with its bytes. -/
def entry (e : PackedValue) : VariableRef × List UInt8 := (e.var, e.bytes)

/-- What is read for the variable. -/
def result (e : PackedValue) : VariableKey × VariableValue := (variableKey e.var, .bigUint e.value)

/-- The item that the simulation declares for the variable. -/
def item (e : PackedValue) : CxxrtlItem := { width := e.width }

end PackedValue

/-- The words of a sample. -/
def pack (entries : List PackedValue) : List UInt32 := entries.flatMap PackedValue.words

theorem length_leWords (n v : ℕ) : (leWords n v).length = n := by
  induction n generalizing v with
  | zero => rfl
  | succ n ih => rw [leWords, List.length_cons, ih]

theorem length_flatMap_leBytes (words : List UInt32) :
    (words.flatMap leBytes).length = words.length * 4 := by
  induction words with
  | nil => rfl
  | cons w words ih =>
    rw [List.flatMap_cons, List.length_append, ih, List.length_cons, leBytes]
    simp only [List.length_cons, List.length_nil]
    omega

theorem ofBytesLe_leBytes (w : UInt32) : ofBytesLe (leBytes w) = w.toNat := by
  have hw := w.toNat_lt
  simp only [ofBytesLe, leBytes, List.map_cons, List.map_nil, Nat.ofDigits_cons, Nat.ofDigits_nil,
    UInt8.toNat_ofNat']
  omega

/-- The words of a number denote it, if they are enough. -/
theorem ofBytesLe_flatMap_leWords (n v : ℕ) (h : v < 2 ^ (32 * n)) :
    ofBytesLe ((leWords n v).flatMap leBytes) = v := by
  induction n generalizing v with
  | zero =>
    obtain rfl : v = 0 := by simpa using h
    rfl
  | succ n ih =>
    have hrest : v / 2 ^ 32 < 2 ^ (32 * n) := by
      rw [Nat.div_lt_iff_lt_mul (by omega), ← Nat.pow_add]
      exact h
    have hlen : (leBytes (UInt32.ofNat v)).length = 4 := rfl
    have hlow : (UInt32.ofNat v).toNat = v % 2 ^ 32 := UInt32.toNat_ofNat'
    rw [leWords, List.flatMap_cons, ofBytesLe_append, ih _ hrest, ofBytesLe_leBytes, hlen, hlow]
    omega

namespace PackedValue

variable (e : PackedValue)

theorem length_words : e.words.length = e.size := length_leWords _ _

theorem length_bytes : e.bytes.length = e.size * 4 := by
  rw [bytes, length_flatMap_leBytes, length_words]

theorem length_entry : e.entry.2.length = e.size * 4 := e.length_bytes

/-- The value is read back from its bytes. -/
theorem fromBytesLe_entry : fromBytesLe e.entry.2 = e.value := by
  refine ofBytesLe_flatMap_leWords _ _ (e.value_lt.trans_le ?_)
  refine Nat.pow_le_pow_right (by omega) ?_
  unfold size
  omega

/-- A width needs no more than 2²⁷ words, which the program computes without overflow. -/
theorem toNat_sizeU32 : e.item.sizeU32.toNat = e.size := by
  have hpos := e.width_pos
  have hlt := e.width.toNat_lt
  have hone : (1 : UInt32).toNat = 1 := rfl
  have hbits : (32 : UInt32).toNat = 32 := rfl
  have hle : (1 : UInt32) ≤ e.width := UInt32.le_iff_toNat_le.2 (hone ▸ hpos)
  have hsub : (e.width - 1).toNat = e.width.toNat - 1 := by rw [UInt32.toNat_sub_of_le _ _ hle, hone]
  rw [CxxrtlItem.sizeU32, item, UInt32.toNat_add, UInt32.toNat_div, hsub, hone, hbits, size]
  omega

theorem size_le : e.size ≤ 2 ^ 27 := by
  have hlt := e.width.toNat_lt
  unfold size
  omega

end PackedValue

/-! ## Unpacking -/

/-- Consecutive stretches of the given lengths. -/
def stretches : ℕ → List ℕ → List (ℕ × ℕ)
  | _, [] => []
  | start, n :: ns => (start, start + n) :: stretches (start + n) ns

theorem le_of_mem_stretches {start : ℕ} {ns : List ℕ} {r : ℕ × ℕ} (h : r ∈ stretches start ns) :
    start ≤ r.1 := by
  induction ns generalizing start with
  | nil => cases h
  | cons n ns ih =>
    rcases List.mem_cons.1 h with rfl | h
    · exact le_rfl
    · exact (Nat.le_add_right _ _).trans (ih h)

/-- A word lies in a stretch of bytes. -/
def Holds (r : ℕ × ℕ) (word : ℕ) : Prop := r.1 ≤ word * 4 ∧ word * 4 + 4 ≤ r.2

/-- Each word lies in exactly one of the stretches. -/
theorem existsUnique_holds (first : ℕ) {sizes : List ℕ} {word : ℕ} (hfirst : first ≤ word)
    (hword : word < first + sizes.sum) :
    ∃! i : ℕ, ∃ r, (stretches (first * 4) (sizes.map (· * 4)))[i]? = some r ∧ Holds r word := by
  induction sizes generalizing first with
  | nil => simp at hword; omega
  | cons size sizes ih =>
    rw [List.sum_cons] at hword
    have hnext : first * 4 + size * 4 = (first + size) * 4 := by omega
    rw [List.map_cons, stretches, hnext]
    by_cases hin : word < first + size
    · -- the later stretches start behind the word
      refine ⟨0, ⟨_, rfl, by simp only [Holds]; omega⟩, ?_⟩
      rintro i ⟨r, hr, hholds⟩
      cases i with
      | zero => rfl
      | succ i =>
        have hstart := le_of_mem_stretches (List.mem_of_getElem? hr)
        simp only [Holds] at hholds
        omega
    · -- the first stretch ends before the word
      obtain ⟨i, ⟨r, hr, hholds⟩, hunique⟩ := ih (first + size) (by omega) (by omega)
      refine ⟨i + 1, ⟨r, hr, hholds⟩, ?_⟩
      rintro j ⟨r', hr', hholds'⟩
      cases j with
      | zero =>
        obtain rfl : (first * 4, (first + size) * 4) = r' := by simpa using hr'
        simp only [Holds] at hholds'
        omega
      | succ j => rw [hunique j ⟨r', hr', hholds'⟩]

/-- A sample that holds the words of each variable in turn is cut where one variable ends and the next one
starts. -/
theorem mapM_variableValue {itemInfo : ItemMap} (entries : List (VariableRef × List UInt8))
    (offset : UInt32) (before : List UInt8) (hbefore : before.length = offset.toNat * 4)
    (hwords : ∀ e ∈ entries, ∃ item, itemInfo.get (variableKey e.1) = some item ∧
      e.2.length = item.sizeU32.toNat * 4)
    (hfits : (before ++ entries.flatMap Prod.snd).length < 2 ^ 32) :
    ranges itemInfo offset (entries.map Prod.fst) =
        .ok (stretches before.length (entries.map (·.2.length))) ∧
      ((stretches before.length (entries.map (·.2.length))).zip (entries.map Prod.fst)).mapM
          (variableValue (before ++ entries.flatMap Prod.snd)) =
        .ok (entries.map fun e => (variableKey e.1, .bigUint (fromBytesLe e.2))) := by
  induction entries generalizing offset before with
  | nil => exact ⟨rfl, rfl⟩
  | cons e entries ih =>
    rw [List.forall_mem_cons] at hwords
    obtain ⟨⟨item, hitem, hlen⟩, hrest⟩ := hwords
    rw [List.flatMap_cons] at hfits ⊢
    have hsum : before.length + (e.2.length + (entries.flatMap Prod.snd).length) < 2 ^ 32 := by
      simpa [List.length_append] using hfits
    -- no offset of a byte overflows, as the sample is not that long
    have hoffset : (offset * 4).toNat = before.length := by
      rw [UInt32.toNat_mul, hbefore]
      exact Nat.mod_eq_of_lt (by simp; omega)
    have hadd : (offset + item.sizeU32).toNat = offset.toNat + item.sizeU32.toNat := by
      rw [UInt32.toNat_add]
      exact Nat.mod_eq_of_lt (by omega)
    have hend : ((offset + item.sizeU32) * 4).toNat = before.length + e.2.length := by
      rw [UInt32.toNat_mul, hadd]
      refine (Nat.mod_eq_of_lt (by simp; omega)).trans ?_
      simp
      omega
    obtain ⟨hoffsets, hvalues⟩ := ih (offset + item.sizeU32) (before ++ e.2)
      (by rw [List.length_append, hadd]; omega) hrest (by rw [List.append_assoc]; exact hfits)
    rw [List.length_append] at hoffsets hvalues
    refine ⟨?_, ?_⟩
    · simp only [List.map_cons, ranges, hitem, hoffset, hend, hoffsets, stretches]
      rfl
    · have hslice : Run.slice (before ++ (e.2 ++ entries.flatMap Prod.snd)) before.length
          (before.length + e.2.length) = .ok e.2 := by
        rw [Run.slice_eq_ok (by omega) (by simp), List.drop_left, Nat.add_sub_cancel_left, List.take_left]
      have hvalue : variableValue (before ++ (e.2 ++ entries.flatMap Prod.snd))
          ((before.length, before.length + e.2.length), e.1) =
            .ok (variableKey e.1, .bigUint (fromBytesLe e.2)) := by
        rw [variableValue, hslice]
        rfl
      rw [List.append_assoc] at hvalues
      rw [List.map_cons, List.map_cons, stretches, List.zip_cons_cons, List.mapM_cons, hvalue, hvalues]
      rfl

/-! ## When a sample is unpacked -/

section

variable {itemInfo : ItemMap} {entries : List PackedValue}

/-- The items of the design that are the variables of a sample. -/
def Declared (itemInfo : ItemMap) (entries : List PackedValue) : Prop :=
  ∀ e ∈ entries, itemInfo.get (variableKey e.var) = some e.item

theorem length_pack_cons (e : PackedValue) (entries : List PackedValue) :
    (pack (e :: entries)).length = e.size + (pack entries).length := by
  rw [pack, List.flatMap_cons, List.length_append, e.length_words, pack]

/-- In a sample of 2³⁰ words or more, the stretch of some variable ends before it starts. -/
theorem not_ok_of_le {offset : UInt32} (hinfo : Declared itemInfo entries)
    (hoffset : offset.toNat < 2 ^ 30) (hlong : 2 ^ 30 ≤ offset.toNat + (pack entries).length)
    {offsets : List (ℕ × ℕ)}
    (hranges : ranges itemInfo offset (entries.map PackedValue.var) = .ok offsets) (u8s : List UInt8)
    (values : List (VariableKey × VariableValue)) :
    (offsets.zip (entries.map PackedValue.var)).mapM (variableValue u8s) ≠ .ok values := by
  induction entries generalizing offset offsets values with
  | nil =>
    have hnone : (pack []).length = 0 := rfl
    omega
  | cons e entries ih =>
    obtain ⟨hitem, hrest⟩ := List.forall_mem_cons.1 hinfo
    rw [length_pack_cons] at hlong
    have hsize := e.size_le
    have hstart : (offset * 4).toNat = offset.toNat * 4 := by
      rw [UInt32.toNat_mul]
      exact Nat.mod_eq_of_lt (by simp; omega)
    have hnext : (offset + e.item.sizeU32).toNat = offset.toNat + e.size := by
      rw [UInt32.toNat_add, e.toNat_sizeU32]
      exact Nat.mod_eq_of_lt (by omega)
    simp only [List.map_cons, ranges, hitem] at hranges
    obtain ⟨rest, hrestRanges, hoffsets⟩ := Except.bind_eq_ok.1 hranges
    obtain rfl := Except.ok.inj hoffsets
    rw [List.map_cons, List.zip_cons_cons, List.mapM_cons]
    intro hok
    obtain ⟨value, hvalue, hok⟩ := Except.bind_eq_ok.1 hok
    obtain ⟨others, hothers, -⟩ := Except.bind_eq_ok.1 hok
    by_cases hover : offset.toNat + e.size < 2 ^ 30
    · -- this stretch is right, so that a later one is wrong
      exact ih hrest (by omega) (by omega) hrestRanges others hothers
    · -- the end of the stretch is reduced by 2³², and lies before its start
      have hend : ((offset + e.item.sizeU32) * 4).toNat = (offset.toNat + e.size) * 4 - 2 ^ 32 := by
        rw [UInt32.toNat_mul, hnext]
        simp
        omega
      obtain ⟨bytes, hbytes, -⟩ := Except.bind_eq_ok.1 hvalue
      have hcut : ¬ (offset.toNat * 4 ≤ (offset.toNat + e.size) * 4 - 2 ^ 32 ∧
          (offset.toNat + e.size) * 4 - 2 ^ 32 ≤ u8s.length) := by omega
      rw [hstart, hend] at hbytes
      rw [Run.slice, if_neg hcut] at hbytes
      cases hbytes

/-- Unpacking a sample gives each variable the value that was packed for it, where a variable that occurs
again has its last value, and each word of the sample is read for exactly one variable. -/
structure Unpacks (decode : String → Option (List UInt8)) (task : FillTask) (sample : CxxrtlSample)
    (entries : List PackedValue) : Prop where
  values : ∃ values, task.fillVariableValues decode sample = .ok (sample.time.asFemtoseconds, values) ∧
    (∀ before e after, entries = before ++ e :: after →
      (∀ e' ∈ after, variableKey e'.var ≠ variableKey e.var) →
      values.get (variableKey e.var) = some (.bigUint e.value)) ∧
    ∀ k, (values.get k).isSome → ∃ e ∈ entries, variableKey e.var = k
  words : ∃ offsets, ranges task.itemInfo 0 task.vars = .ok offsets ∧
    ∀ word < (pack entries).length, ∃! i : ℕ, ∃ r, offsets[i]? = some r ∧ Holds r word

theorem get_foldl_insert_of_notMem {values : List (VariableKey × VariableValue)} {k : VariableKey}
    (h : ∀ e ∈ values, e.1 ≠ k) (m : ValueMap) :
    (values.foldl (fun m e => m.insert e.1 e.2) m).get k = m.get k := by
  induction values generalizing m with
  | nil => rfl
  | cons e values ih =>
    rw [List.forall_mem_cons] at h
    rw [List.foldl_cons, ih h.2, FiniteMap.get_insert, if_neg h.1.symm]

theorem flatMap_pack (entries : List PackedValue) :
    (pack entries).flatMap leBytes = (entries.map PackedValue.entry).flatMap Prod.snd := by
  rw [pack, List.flatMap_assoc, List.flatMap_map]
  rfl

theorem length_pack (entries : List PackedValue) :
    (pack entries).length = (entries.map PackedValue.size).sum := by
  rw [pack, List.length_flatMap, List.map_congr_left fun e _ => e.length_words]

/-- How a sample of fewer than 2³⁰ words is cut, and what is read. -/
theorem mapM_pack (hinfo : Declared itemInfo entries) (hshort : (pack entries).length < 2 ^ 30) :
    ranges itemInfo 0 (entries.map PackedValue.var) =
        .ok (stretches 0 ((entries.map PackedValue.size).map (· * 4))) ∧
      ((stretches 0 ((entries.map PackedValue.size).map (· * 4))).zip
          (entries.map PackedValue.var)).mapM (variableValue ((pack entries).flatMap leBytes)) =
        .ok (entries.map PackedValue.result) := by
  have hwords : ∀ e' ∈ entries.map PackedValue.entry, ∃ item,
      itemInfo.get (variableKey e'.1) = some item ∧ e'.2.length = item.sizeU32.toNat * 4 := by
    intro e' he'
    obtain ⟨e, he, rfl⟩ := List.mem_map.1 he'
    exact ⟨e.item, hinfo e he, by rw [e.length_entry, e.toNat_sizeU32]⟩
  have hfits : ([] ++ (entries.map PackedValue.entry).flatMap Prod.snd).length < 2 ^ 32 := by
    rw [List.nil_append, ← flatMap_pack, length_flatMap_leBytes]
    omega
  have hvars : (entries.map PackedValue.entry).map Prod.fst = entries.map PackedValue.var := by
    rw [List.map_map]
    rfl
  have hlengths : (entries.map PackedValue.entry).map (·.2.length) =
      (entries.map PackedValue.size).map (· * 4) := by
    rw [List.map_map, List.map_map]
    exact List.map_congr_left fun e _ => e.length_entry
  have hread : ((entries.map PackedValue.entry).map fun e =>
      (variableKey e.1, VariableValue.bigUint (fromBytesLe e.2))) =
        entries.map PackedValue.result := by
    rw [List.map_map]
    refine List.map_congr_left fun e _ => ?_
    rw [Function.comp_apply, e.fromBytesLe_entry]
    rfl
  -- nothing is read before the first variable
  have hcut := mapM_variableValue (entries.map PackedValue.entry) 0 [] rfl hwords hfits
  rw [List.nil_append, ← flatMap_pack, hvars, hlengths, hread] at hcut
  exact hcut

theorem unpacked_of_lt {decode : String → Option (List UInt8)} {data : List CxxrtlSample}
    {panicked : Bool} {sample : CxxrtlSample} (hinfo : Declared itemInfo entries)
    (hdecode : decode sample.itemValues = some ((pack entries).flatMap leBytes))
    (hshort : (pack entries).length < 2 ^ 30) :
    Unpacks decode { vars := entries.map PackedValue.var, itemInfo, data, panicked } sample entries := by
  obtain ⟨hranges, hvalues⟩ := mapM_pack hinfo hshort
  refine ⟨⟨(entries.map PackedValue.result).foldl (fun m value => m.insert value.1 value.2)
    FiniteMap.empty, ?_, ?_, ?_⟩, ?_⟩
  · refine Except.bind_eq_ok.2 ⟨_, hranges, Except.bind_eq_ok.2 ⟨_, ?_, rfl⟩⟩
    unfold sampleValues
    rw [hdecode]
    exact Except.bind_eq_ok.2 ⟨_, hvalues, rfl⟩
  · -- what is put in behind the last value of a variable leaves it alone
    rintro before e after rfl hlast
    have hafter : ∀ value ∈ after.map PackedValue.result,
        value.1 ≠ variableKey e.var := by simpa [PackedValue.result] using hlast
    rw [List.map_append, List.map_cons, List.foldl_append, List.foldl_cons,
      get_foldl_insert_of_notMem hafter, FiniteMap.get_insert]
    exact if_pos rfl
  · intro k hk
    by_contra hnone
    have hnot : ∀ value ∈ entries.map PackedValue.result,
        value.1 ≠ k := by
      simpa [PackedValue.result] using fun e he heq => hnone ⟨e, he, heq⟩
    rw [get_foldl_insert_of_notMem hnot] at hk
    cases hk
  · refine ⟨_, hranges, fun word hword => ?_⟩
    rw [length_pack] at hword
    exact existsUnique_holds 0 (Nat.zero_le word) (by omega)

theorem not_unpacks_of_le {decode : String → Option (List UInt8)} {data : List CxxrtlSample}
    {panicked : Bool} {sample : CxxrtlSample} (hinfo : Declared itemInfo entries)
    (hlong : 2 ^ 30 ≤ (pack entries).length) :
    ¬ Unpacks decode { vars := entries.map PackedValue.var, itemInfo, data, panicked } sample entries := by
  rintro ⟨⟨values, hvalues, -⟩, -⟩
  obtain ⟨offsets, hranges, hvalues⟩ := Except.bind_eq_ok.1 hvalues
  obtain ⟨values', hsample, -⟩ := Except.bind_eq_ok.1 hvalues
  unfold sampleValues at hsample
  cases hdecode : decode sample.itemValues with
  | none =>
    rw [hdecode] at hsample
    cases hsample
  | some u8s =>
    rw [hdecode] at hsample
    obtain ⟨pairs, hpairs, -⟩ := Except.bind_eq_ok.1 hsample
    exact not_ok_of_le hinfo (by simp) (by simpa using hlong) hranges u8s pairs hpairs

/-- A sample is unpacked to the values that it was packed from exactly if it has fewer than 2³⁰ words. -/
theorem unpacks_iff (decode : String → Option (List UInt8)) (data : List CxxrtlSample) (panicked : Bool)
    (sample : CxxrtlSample) (hinfo : Declared itemInfo entries)
    (hdecode : decode sample.itemValues = some ((pack entries).flatMap leBytes)) :
    Unpacks decode { vars := entries.map PackedValue.var, itemInfo, data, panicked } sample entries ↔
      (pack entries).length < 2 ^ 30 := by
  constructor
  · intro h
    by_contra hlong
    exact not_unpacks_of_le hinfo (by omega) h
  · exact unpacked_of_lt hinfo hdecode

end

/-- A signal of 40 bits. -/
def wideSignal : PackedValue where
  var := topSignal "data"
  width := 40
  value := 2 ^ 32 + 5
  width_pos := by decide
  value_lt := by decide

/-- The items of a design with one signal. -/
def oneItem (e : PackedValue) : ItemMap := FiniteMap.empty.insert (variableKey e.var) e.item

theorem declared_oneItem {e : PackedValue} {entries : List PackedValue} (h : ∀ e' ∈ entries, e' = e) :
    Declared (oneItem e) entries := by
  intro e' he'
  rw [h e' he', oneItem, FiniteMap.get_insert, if_pos rfl]

theorem unpacks_wideSignal :
    Unpacks (fun s => if s = "BQAAAAEAAAA=" then some [5, 0, 0, 0, 1, 0, 0, 0] else none)
        { vars := [wideSignal].map PackedValue.var, itemInfo := oneItem wideSignal, data := [],
          panicked := false }
        { time := .zero, itemValues := "BQAAAAEAAAA=" } [wideSignal] ↔
      (pack [wideSignal]).length < 2 ^ 30 :=
  unpacks_iff _ [] false _ (declared_oneItem (by simp)) (by decide)

/-- A signal of the greatest width, which is zero. -/
def widestSignal : PackedValue where
  var := topSignal "data"
  width := 4294967295
  value := 0
  width_pos := by decide
  value_lt := Nat.two_pow_pos _

/-- Eight values of the greatest width fill 2³⁰ words, which are 2³² bytes. -/
theorem not_forall_unpacks :
    ¬ ∀ (decode : String → Option (List UInt8)) (itemInfo : ItemMap) (data : List CxxrtlSample)
      (panicked : Bool) (sample : CxxrtlSample) (entries : List PackedValue), Declared itemInfo entries →
      decode sample.itemValues = some ((pack entries).flatMap leBytes) →
      Unpacks decode { vars := entries.map PackedValue.var, itemInfo, data, panicked } sample entries := by
  intro hall
  let entries := List.replicate 8 widestSignal
  have hinfo : Declared (oneItem widestSignal) entries :=
    declared_oneItem fun e he => List.eq_of_mem_replicate he
  have hlength : (pack entries).length = 2 ^ 30 := by
    have hsize : widestSignal.words.length = 2 ^ 27 := widestSignal.length_words
    simp only [entries, pack, List.length_flatMap, List.map_replicate, hsize, List.sum_replicate]
    rfl
  exact not_unpacks_of_le hinfo (by omega) (hall (fun _ => some ((pack entries).flatMap leBytes)) _ []
    false { time := .zero, itemValues := "" } entries hinfo rfl)

end Cxxrtl
