import Mathlib

namespace Leb128

def value : List UInt8 → ℕ
  | [] => 0
  | b :: bs => b.toNat % 128 + 128 * value bs

def Terminated : List UInt8 → Prop
  | [] => False
  | [b] => b.toNat < 128
  | b :: b' :: bs => 128 ≤ b.toNat ∧ Terminated (b' :: bs)

def encode (n : ℕ) : List UInt8 :=
  if n < 128 then [n.toUInt8] else (n % 128 + 128).toUInt8 :: encode (n / 128)

theorem encode_small {n : ℕ} (h : n < 128) : encode n = [n.toUInt8] := by
  rw [encode, if_pos h]

theorem encode_large {n : ℕ} (h : ¬ n < 128) :
    encode n = (n % 128 + 128).toUInt8 :: encode (n / 128) := by
  rw [encode, if_neg h]

theorem toNat_byte {n : ℕ} (h : n < 256) : n.toUInt8.toNat = n :=
  UInt8.toNat_ofNat'.trans (Nat.mod_eq_of_lt h)

theorem terminated_cons {b : UInt8} {bs : List UInt8} (h : 128 ≤ b.toNat) :
    Terminated (b :: bs) ↔ Terminated bs := by
  cases bs with
  | nil => exact iff_of_false (Nat.not_lt.mpr h) id
  | cons b' bs => exact and_iff_right h

theorem terminated_last {b : UInt8} {bs : List UInt8} (h : b.toNat < 128) :
    Terminated (b :: bs) ↔ bs = [] := by
  cases bs with
  | nil => exact iff_of_true h rfl
  | cons b' bs =>
    exact iff_of_false (fun ht => absurd ht.1 (Nat.not_le.mpr h)) (List.cons_ne_nil _ _)

theorem encode_terminated (n : ℕ) : Terminated (encode n) := by
  induction n using Nat.strong_induction_on with
  | _ n ih =>
    by_cases h : n < 128
    · rw [encode_small h]
      exact (toNat_byte (h.trans (by decide))).trans_lt h
    · have hbyte : (n % 128 + 128).toUInt8.toNat = n % 128 + 128 := toNat_byte (by omega)
      rw [encode_large h, terminated_cons (by omega)]
      exact ih (n / 128) (by omega)

theorem value_encode (n : ℕ) : value (encode n) = n := by
  induction n using Nat.strong_induction_on with
  | _ n ih =>
    by_cases h : n < 128
    · rw [encode_small h, value, value, toNat_byte (h.trans (by decide))]
      omega
    · have hbyte : (n % 128 + 128).toUInt8.toNat = n % 128 + 128 := toNat_byte (by omega)
      rw [encode_large h, value, ih (n / 128) (by omega), hbyte]
      omega

theorem encode_length {n k : ℕ} (h : n < 128 ^ (k + 1)) : (encode n).length ≤ k + 1 := by
  induction k generalizing n with
  | zero => rw [encode_small (by simpa using h), List.length_singleton]
  | succ k ih =>
    by_cases hsmall : n < 128
    · rw [encode_small hsmall, List.length_singleton]
      omega
    · rw [encode_large hsmall, List.length_cons]
      refine Nat.succ_le_succ (ih ((Nat.div_lt_iff_lt_mul (by decide)).mpr ?_))
      rwa [← Nat.pow_succ]

end Leb128
