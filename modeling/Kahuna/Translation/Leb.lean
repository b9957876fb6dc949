import Kahuna.Leb128.Basic
import Kahuna.Translation.Basic

/-!
# The LEB128 translator

The model of `decode_lebxxx` and of `LebTranslator` in `basic_translators.rs`. A value is taken as the bytes
of a LEB128 number, the first of them in the lowest bits.

* `decodeLebxxx_exact`: exactly the canonical encodings are decoded, and to the number that they encode.
* `lebTranslate_bigUint`: what the translator shows of them, and that it warns of all others.
-/

namespace Translation

open Numerals Wave

/-- The next byte of the number, below those that were read. -/
def lebStep (result : ℕ) (b : UInt8) : Except String ℕ :=
  if (b &&& 0x80 = 0) ↔ result = 0 then .ok (result * 2 ^ 7 + (b &&& 0x7f).toNat)
  else .error "invalid flag"

/-- The number that the bytes of a value encode. -/
def decodeLebxxx (value : ℕ) : Except String ℕ :=
  let bytes := bytesBe value
  let first := (bytes.head?.getD 0).toNat
  match bytes.head? with
  | some b => if b &&& 0x80 ≠ 0 then .error "invalid MSB" else (bytes.drop 1).foldlM lebStep first
  | none => (bytes.drop 1).foldlM lebStep first

/-- `check_vector_variable`: the name and the kind of a text with other values than zeros and ones. -/
def checkVectorVariable (s : List Char) : Option (String × ValueKind) :=
  if 'x' ∈ s then some ("UNDEF", .undef)
  else if 'z' ∈ s then some ("HIGHIMP", .highImp)
  else if '-' ∈ s then some ("DON'T CARE", .dontCare)
  else if 'u' ∈ s then some ("UNDEF", .undef)
  else if 'w' ∈ s then some ("UNDEF WEAK", .undef)
  else if 'h' ∈ s ∨ 'l' ∈ s then some ("WEAK", .weak)
  else if s.all fun c => c = '0' ∨ c = '1' then none
  else some ("UNKNOWN VALUES", .undef)

/-- The text of what was decoded, or of the error. -/
def lebText (numBits : ℕ) (value : VariableValue) : Except String ℕ → List Char × ValueKind
  | .ok decoded => (Nat.toDigits 10 decoded, .normal)
  | .error s => (s.toList ++ [':', ' '] ++ (groupingBinaryTranslate numBits value).1, .warn)

/-- `LebTranslator`. -/
def lebTranslate (numBits : ℕ) (value : VariableValue) : List Char × ValueKind :=
  match value with
  | .bigUint v => lebText numBits value (decodeLebxxx v)
  | .string s =>
    match checkVectorVariable s.toList with
    | some (text, kind) => (text.toList, kind)
    | none =>
      match parseBytes 2 s.toList with
      | some v => lebText numBits value (decodeLebxxx v)
      | none => ("INVALID".toList, .warn)

/-- What was read so far is above the next byte. -/
def lebValue (first : ℕ) (rest : List UInt8) : ℕ :=
  rest.foldl (fun result b => result * 2 ^ 7 + b.toNat % 128) first

theorem lebValue_reverse {last : UInt8} (h : last.toNat < 128) (init : List UInt8) :
    lebValue last.toNat init.reverse = Leb128.payload (init ++ [last]) := by
  have hlast : List.foldr (fun (b : UInt8) n => b.toNat % 128 + 128 * n) 0 [last] = last.toNat :=
    Leb128.payload_singleton h
  rw [lebValue, List.foldl_reverse, Leb128.payload, List.foldr_append, hlast]
  congr 1
  funext b result
  omega

/-- Once a byte other than zero was read, the bytes that follow have the flag set. -/
theorem foldlM_lebStep {first : ℕ} (hfirst : first ≠ 0) (rest : List UInt8) :
    rest.foldlM lebStep first =
      if rest.all fun b => 128 ≤ b.toNat then .ok (lebValue first rest) else .error "invalid flag" := by
  induction rest generalizing first with
  | nil => rfl
  | cons b rest ih =>
    have hstep : lebStep first b =
        if 128 ≤ b.toNat then .ok (first * 2 ^ 7 + b.toNat % 128) else .error "invalid flag" := by
      simp only [lebStep, and_0x80_eq_zero_iff, toNat_and_0x7f, hfirst, iff_false, Nat.not_lt]
    simp only [List.foldlM_cons, hstep, List.all_cons]
    by_cases hb : 128 ≤ b.toNat
    · have hnext : first * 2 ^ 7 + b.toNat % 128 ≠ 0 := by omega
      simp only [hb, decide_true, Bool.true_and, if_true]
      exact ih hnext
    · simp only [hb, decide_false, Bool.false_and, Bool.false_eq_true, if_false]
      rfl

/-- The bytes are decoded if they are flagged correctly. -/
theorem decodeLebxxx_of_bytesLe {v : ℕ} {init : List UInt8} {last : UInt8}
    (hbytes : bytesLe v = init ++ [last]) (hzero : last = 0 → init = []) :
    decodeLebxxx v =
      if 128 ≤ last.toNat then .error "invalid MSB"
      else if init.all fun b => 128 ≤ b.toNat then .ok (lebValue last.toNat init.reverse)
      else .error "invalid flag" := by
  have hbe : bytesBe v = last :: init.reverse := by
    rw [bytesBe, hbytes, List.reverse_append]
    rfl
  have hrest : init.reverse.foldlM lebStep last.toNat =
      if init.all fun b => 128 ≤ b.toNat then .ok (lebValue last.toNat init.reverse)
      else .error "invalid flag" := by
    by_cases h0 : last = 0
    · -- a zero byte stands alone
      rw [hzero h0]
      rfl
    · have hne : last.toNat ≠ 0 := fun h => h0 (UInt8.toNat_inj.1 h)
      simpa using foldlM_lebStep hne init.reverse
  simp only [decodeLebxxx, hbe, List.head?_cons, List.drop_succ_cons, List.drop_zero,
    Option.getD_some, ne_eq, and_0x80_eq_zero_iff, Nat.not_lt, hrest]

/-- The bytes that are flagged correctly are the canonical encoding of what they denote, since a value has no
leading zero byte. -/
theorem bytesLe_eq_encode_iff (v n : ℕ) :
    bytesLe v = Leb128.encode n ↔
      Leb128.Terminated (bytesLe v) ∧ Leb128.payload (bytesLe v) = n := by
  constructor
  · intro h
    rw [h]
    exact ⟨Leb128.terminated_encode n, Leb128.payload_encode n⟩
  · rintro ⟨⟨init, last, happend, hinit, hlast⟩, hpayload⟩
    obtain ⟨init', last', hbytes, hzero⟩ := bytesLe_cases v
    obtain ⟨rfl, hsingle⟩ := List.append_inj' (hbytes.symm.trans happend) rfl
    obtain rfl := List.singleton_inj.1 hsingle
    rw [← hpayload, hbytes, Leb128.encode_payload hinit hlast hzero]

/-- Exactly the canonical encodings are decoded. -/
theorem decodeLebxxx_eq_ok_iff (v n : ℕ) : decodeLebxxx v = .ok n ↔ bytesLe v = Leb128.encode n := by
  obtain ⟨init, last, hbytes, hzero⟩ := bytesLe_cases v
  rw [decodeLebxxx_of_bytesLe hbytes hzero, hbytes]
  constructor
  · intro h
    split at h
    next => cases h
    next hlast =>
      split at h
      next hinit =>
        have hlt : last.toNat < 128 := by omega
        have hinit : ∀ b ∈ init, 128 ≤ b.toNat := by simpa using hinit
        rw [← Except.ok.inj h, lebValue_reverse hlt, Leb128.encode_payload hinit hlt hzero]
      next => cases h
  · intro h
    -- the last byte of the encoding is the one without a flag
    obtain ⟨init', last', hencode, hinit, hlast, -⟩ := Leb128.encode_eq_append n
    obtain ⟨rfl, hsingle⟩ := List.append_inj' (h.trans hencode) rfl
    obtain rfl := List.singleton_inj.1 hsingle
    have hall : init.all (fun b => 128 ≤ b.toNat) = true := by simpa using hinit
    rw [if_neg (by omega), if_pos hall, lebValue_reverse hlast, h, Leb128.payload_encode]

/-- The translator shows a number if and only if the value holds the encoding of it. It warns of every other
value. -/
theorem lebTranslate_bigUint (numBits v : ℕ) :
    (∀ n, bytesLe v = Leb128.encode n → lebTranslate numBits (.bigUint v) = (Nat.toDigits 10 n, .normal)) ∧
      ((∀ n, bytesLe v ≠ Leb128.encode n) → (lebTranslate numBits (.bigUint v)).2 = .warn) := by
  refine ⟨fun n h => ?_, fun hnone => ?_⟩
  · rw [lebTranslate, (decodeLebxxx_eq_ok_iff v n).2 h]
    rfl
  · rw [lebTranslate]
    cases hdecode : decodeLebxxx v with
    | ok n => exact (hnone n ((decodeLebxxx_eq_ok_iff v n).1 hdecode)).elim
    | error e => rfl

/-- A number is decoded from a value if and only if the bytes of the value are its canonical encoding, with
the continuation bit set in every byte but the last and clear in the last. Every other value is an error,
and every number is decoded from the value that holds its encoding. -/
theorem decodeLebxxx_exact (v : ℕ) :
    (∀ n, decodeLebxxx v = .ok n ↔ bytesLe v = Leb128.encode n) ∧
      (∀ n, bytesLe v = Leb128.encode n ↔
        Leb128.Terminated (bytesLe v) ∧ Leb128.payload (bytesLe v) = n) ∧
      ((∀ n, bytesLe v ≠ Leb128.encode n) → ∃ e, decodeLebxxx v = .error e) ∧
      ∀ n, decodeLebxxx (ofBytesLe (Leb128.encode n)) = .ok n := by
  refine ⟨decodeLebxxx_eq_ok_iff v, bytesLe_eq_encode_iff v, fun hnone => ?_, fun n => ?_⟩
  · cases hdecode : decodeLebxxx v with
    | ok n => exact (hnone n ((decodeLebxxx_eq_ok_iff v n).1 hdecode)).elim
    | error e => exact ⟨e, rfl⟩
  · obtain ⟨init, last, hencode, -, -, hzero⟩ := Leb128.encode_eq_append n
    rw [decodeLebxxx_eq_ok_iff, hencode, bytesLe_ofBytesLe hzero]

end Translation
