import Kahuna.Numerals.Bytes

/-!
# LEB128

A number in groups of seven bits, the least significant one first, one group a byte. The highest bit of a
byte says that another one follows.

* `encode`: the canonical bytes of a number;
* `payload_encode`: the encoding denotes the number;
* `decode_encode_append`: a number is read back, and nothing behind it is;
* `encode_payload`: bytes that are flagged correctly and have no leading zero group are the encoding of the
  number that they denote.
-/

namespace Leb128

open Numerals

/-- The canonical encoding of a number. -/
def encode (n : ℕ) : List UInt8 :=
  if n < 128 then [UInt8.ofNat n] else UInt8.ofNat (n % 128 + 128) :: encode (n / 128)

/-- Every byte but the last has the continuation bit set, and the last has it clear. -/
def Terminated (bytes : List UInt8) : Prop :=
  ∃ init last, bytes = init ++ [last] ∧ (∀ b ∈ init, 128 ≤ b.toNat) ∧ last.toNat < 128

/-- The number that the groups of seven bits denote. -/
def payload (bytes : List UInt8) : ℕ := bytes.foldr (fun b n => b.toNat % 128 + 128 * n) 0

theorem payload_cons (b : UInt8) (bytes : List UInt8) :
    payload (b :: bytes) = b.toNat % 128 + 128 * payload bytes := rfl

theorem payload_singleton {b : UInt8} (h : b.toNat < 128) : payload [b] = b.toNat := by
  rw [payload_cons, Nat.mod_eq_of_lt h]
  rfl

theorem payload_encode (n : ℕ) : payload (encode n) = n := by
  induction n using Nat.strong_induction_on with
  | _ n ih =>
    rw [encode]
    split
    next hlt =>
      have hn : (UInt8.ofNat n).toNat = n := toNat_byte (by omega)
      rw [payload_singleton (by omega), hn]
    next hge =>
      have hbyte : (UInt8.ofNat (n % 128 + 128)).toNat = n % 128 + 128 :=
        toNat_byte (by omega)
      rw [payload_cons, ih (n / 128) (by omega), hbyte]
      omega

/-- Read a number, and leave the bytes behind it. -/
def decode : List UInt8 → Option (ℕ × List UInt8)
  | [] => none
  | b :: bytes =>
    if b.toNat < 128 then some (b.toNat, bytes)
    else (decode bytes).map fun read => (b.toNat % 128 + 128 * read.1, read.2)

theorem decode_encode_append (n : ℕ) (bytes : List UInt8) : decode (encode n ++ bytes) = some (n, bytes) := by
  induction n using Nat.strong_induction_on with
  | _ n ih =>
    rw [encode]
    split
    next hlt =>
      have hn : (UInt8.ofNat n).toNat = n := toNat_byte (by omega)
      rw [List.singleton_append, decode, hn, if_pos hlt]
    next hge =>
      have hbyte : (UInt8.ofNat (n % 128 + 128)).toNat = n % 128 + 128 :=
        toNat_byte (by omega)
      have hn : (n % 128 + 128) % 128 + 128 * (n / 128) = n := by omega
      rw [List.cons_append, decode, hbyte, if_neg (by omega), ih (n / 128) (by omega), Option.map_some, hn]

/-- The last group is no zero, unless there is no other. -/
theorem encode_eq_append (n : ℕ) :
    ∃ init last, encode n = init ++ [last] ∧ (∀ b ∈ init, 128 ≤ b.toNat) ∧ last.toNat < 128 ∧
      (last = 0 → init = []) := by
  induction n using Nat.strong_induction_on with
  | _ n ih =>
    rw [encode]
    split
    next hlt =>
      have hn : (UInt8.ofNat n).toNat = n := toNat_byte (by omega)
      exact ⟨[], UInt8.ofNat n, rfl, by simp, by omega, fun _ => rfl⟩
    next hge =>
      obtain ⟨init, last, hrest, hinit, hlast, hzero⟩ := ih (n / 128) (by omega)
      refine ⟨UInt8.ofNat (n % 128 + 128) :: init, last, by rw [hrest]; rfl, ?_, hlast, fun h0 => ?_⟩
      · have hbyte : (UInt8.ofNat (n % 128 + 128)).toNat = n % 128 + 128 :=
          toNat_byte (by omega)
        rw [List.forall_mem_cons]
        exact ⟨by omega, hinit⟩
      · -- the rest denotes a number other than zero
        have hpayload := payload_encode (n / 128)
        rw [hrest, hzero h0, h0, List.nil_append] at hpayload
        have hnone : payload [0] = 0 := rfl
        omega

theorem terminated_encode (n : ℕ) : Terminated (encode n) := by
  obtain ⟨init, last, hencode, hinit, hlast, -⟩ := encode_eq_append n
  exact ⟨init, last, hencode, hinit, hlast⟩

theorem payload_append_pos (init : List UInt8) {last : UInt8} (hlast : last.toNat < 128)
    (hne : last ≠ 0) : 0 < payload (init ++ [last]) := by
  induction init with
  | nil =>
    have hpos : last.toNat ≠ 0 := fun h => hne (UInt8.toNat_inj.1 h)
    rw [List.nil_append, payload_singleton hlast]
    omega
  | cons b init ih =>
    rw [List.cons_append, payload_cons]
    omega

/-- Bytes that are flagged correctly and have no leading zero group are the encoding of the number that they
denote. -/
theorem encode_payload {init : List UInt8} {last : UInt8} (hinit : ∀ b ∈ init, 128 ≤ b.toNat)
    (hlast : last.toNat < 128) (hzero : last = 0 → init = []) :
    encode (payload (init ++ [last])) = init ++ [last] := by
  induction init with
  | nil =>
    rw [List.nil_append, payload_singleton hlast, encode, if_pos hlast, UInt8.ofNat_toNat]
  | cons b init ih =>
    rw [List.forall_mem_cons] at hinit
    have hne : last ≠ 0 := fun h => by cases hzero h
    have hpos := payload_append_pos init hlast hne
    have hb := b.toNat_lt
    have hmod : (b.toNat % 128 + 128 * payload (init ++ [last])) % 128 + 128 = b.toNat := by omega
    have hdiv : (b.toNat % 128 + 128 * payload (init ++ [last])) / 128 = payload (init ++ [last]) := by
      omega
    rw [List.cons_append, payload_cons, encode, if_neg (by omega), hmod, hdiv, UInt8.ofNat_toNat,
      ih hinit.2 fun h => (hne h).elim]

end Leb128
