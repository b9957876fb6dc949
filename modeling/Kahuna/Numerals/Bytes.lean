import Mathlib.Data.Nat.Bitwise
import Mathlib.Data.Nat.Digits.Lemmas

/-!
# Numbers as bytes

A number is written in as many bytes as it needs, and zero in one byte. `bytesLe` has the least significant
byte first, `bytesBe` the most significant one.

* `ofBytesLe_bytesLe`: the bytes of a number denote it;
* `bytesLe_ofBytesLe`: bytes without a leading zero byte are those of the number they denote.
-/

namespace Numerals

/-- The bytes of a number, the least significant one first. -/
def bytesLe (v : ℕ) : List UInt8 := if v = 0 then [0] else (Nat.digits 256 v).map UInt8.ofNat

/-- The bytes of a number, the most significant one first. -/
def bytesBe (v : ℕ) : List UInt8 := (bytesLe v).reverse

/-- The number that bytes denote, the least significant one first. -/
def ofBytesLe (bytes : List UInt8) : ℕ := Nat.ofDigits 256 (bytes.map UInt8.toNat)

theorem toNat_byte {n : ℕ} (h : n < 256) : (UInt8.ofNat n).toNat = n := UInt8.toNat_ofNat_of_lt' h

/-- The highest bit of a byte. -/
theorem and_0x80_eq_zero_iff (b : UInt8) : b &&& 0x80 = 0 ↔ b.toNat < 128 := by
  have hlt := b.toNat_lt
  have hmask : (0x80 : UInt8).toNat = 2 ^ 7 := rfl
  have hzero : (0 : UInt8).toNat = 0 := rfl
  rw [← UInt8.toNat_inj, UInt8.toNat_and, hmask, hzero, Nat.and_two_pow,
    Nat.testBit_eq_decide_div_mod_eq]
  by_cases hbit : b.toNat / 2 ^ 7 % 2 = 1
  · simp only [hbit, decide_true, Bool.toNat_true]
    omega
  · simp only [hbit, decide_false, Bool.toNat_false]
    omega

/-- The bits of a byte below the highest one. -/
theorem toNat_and_0x7f (b : UInt8) : (b &&& 0x7f).toNat = b.toNat % 128 := by
  have hmask : (0x7f : UInt8).toNat = 2 ^ 7 - 1 := rfl
  rw [UInt8.toNat_and, hmask, Nat.and_two_pow_sub_one_eq_mod]

theorem map_toNat_map_ofNat {l : List ℕ} (h : ∀ d ∈ l, d < 256) :
    (l.map UInt8.ofNat).map UInt8.toNat = l := by
  have hbyte : ∀ d ∈ l, (UInt8.toNat ∘ UInt8.ofNat) d = id d :=
    fun d hd => toNat_byte (h d hd)
  rw [List.map_map, List.map_congr_left hbyte, List.map_id]

theorem ofBytesLe_bytesLe (v : ℕ) : ofBytesLe (bytesLe v) = v := by
  unfold bytesLe ofBytesLe
  split
  next hzero =>
    subst hzero
    rfl
  next =>
    rw [map_toNat_map_ofNat fun d hd => Nat.digits_lt_base (by omega) hd, Nat.ofDigits_digits]

theorem ofBytesLe_append (l m : List UInt8) :
    ofBytesLe (l ++ m) = ofBytesLe l + 256 ^ l.length * ofBytesLe m := by
  rw [ofBytesLe, List.map_append, Nat.ofDigits_append, List.length_map]
  rfl

/-- The bytes of a number are no more than those of any text of bytes that denotes it. -/
theorem length_bytesLe_le {digits : List ℕ} (hne : digits ≠ []) (h : ∀ d ∈ digits, d < 256) :
    (bytesLe (Nat.ofDigits 256 digits)).length ≤ digits.length := by
  have hpos := List.length_pos_iff.2 hne
  unfold bytesLe
  split
  next => exact hpos
  next =>
    rw [List.length_map, Nat.digits_length_le_iff (by omega)]
    exact Nat.ofDigits_lt_base_pow_length (by omega) h

/-- Digits in base 256 are the bytes of the number they denote if they are as many. -/
theorem map_toNat_bytesLe_eq_iff {digits : List ℕ} (h : ∀ d ∈ digits, d < 256) :
    (bytesLe (Nat.ofDigits 256 digits)).map UInt8.toNat = digits ↔
      (bytesLe (Nat.ofDigits 256 digits)).length = digits.length := by
  constructor
  · intro heq
    rw [← List.length_map UInt8.toNat, heq]
  · intro hlength
    refine Nat.ofDigits_inj_of_len_eq (by omega : 1 < 256) (by rw [List.length_map, hlength]) ?_ h ?_
    · intro d hd
      obtain ⟨byte, -, rfl⟩ := List.mem_map.1 hd
      exact byte.toNat_lt
    · exact ofBytesLe_bytesLe _

/-- Bytes without a leading zero byte are those of the number they denote. -/
theorem bytesLe_ofBytesLe {init : List UInt8} {last : UInt8} (h : last = 0 → init = []) :
    bytesLe (ofBytesLe (init ++ [last])) = init ++ [last] := by
  by_cases hlast : last = 0
  · rw [hlast, h hlast]
    rfl
  · have hne : last.toNat ≠ 0 := fun hzero => hlast (UInt8.toNat_inj.1 hzero)
    have hdigits : Nat.digits 256 (ofBytesLe (init ++ [last])) = (init ++ [last]).map UInt8.toNat := by
      refine Nat.digits_ofDigits 256 (by omega) _ (fun d hd => ?_) fun _ => ?_
      · obtain ⟨b, -, rfl⟩ := List.mem_map.1 hd
        exact b.toNat_lt
      · simpa using hne
    have hpos : ofBytesLe (init ++ [last]) ≠ 0 := by
      intro hzero
      rw [hzero] at hdigits
      simp at hdigits
    have hid (b : UInt8) : (UInt8.ofNat ∘ UInt8.toNat) b = b := UInt8.ofNat_toNat
    rw [bytesLe, if_neg hpos, hdigits, List.map_map, List.map_id'' hid]

/-- The most significant byte is no zero, but for the one byte of zero. -/
theorem bytesLe_cases (v : ℕ) : ∃ init last, bytesLe v = init ++ [last] ∧ (last = 0 → init = []) := by
  unfold bytesLe
  split
  next => exact ⟨[], 0, rfl, fun _ => rfl⟩
  next hv =>
    have hne : Nat.digits 256 v ≠ [] := Nat.digits_ne_nil_iff_ne_zero.2 hv
    refine ⟨(Nat.digits 256 v).dropLast.map UInt8.ofNat,
      UInt8.ofNat ((Nat.digits 256 v).getLast hne), ?_, fun hzero => ?_⟩
    · conv_lhs => rw [← List.dropLast_append_getLast hne, List.map_append]
      rfl
    · have hlt : (Nat.digits 256 v).getLast hne < 256 :=
        Nat.digits_lt_base (by omega) (List.getLast_mem hne)
      have hlast := congrArg UInt8.toNat hzero
      rw [toNat_byte hlt] at hlast
      exact (Nat.getLast_digit_ne_zero 256 hv hlast).elim

end Numerals
