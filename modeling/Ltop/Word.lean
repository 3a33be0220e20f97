import Mathlib

namespace Ltop.Word

def FLAG : UInt32 := 0x80000000

def flag (w : UInt32) : Bool := w &&& FLAG != 0

def payload (w : UInt32) : UInt32 := w &&& ~~~FLAG

def setFlag (v : Bool) (w : UInt32) : UInt32 := if v then w ||| FLAG else payload w

theorem bit_FLAG (i : ℕ) : FLAG.toNat.testBit i = decide (31 = i) := by
  rw [show FLAG.toNat = 2 ^ 31 by decide, Nat.testBit_two_pow]

theorem bit_mask (i : ℕ) : (~~~FLAG).toNat.testBit i = decide (i < 31) := by
  rw [show (~~~FLAG).toNat = 2 ^ 31 - 1 by decide, Nat.testBit_two_pow_sub_one]

theorem bit_high (w : UInt32) {i : ℕ} (hi : 32 ≤ i) : w.toNat.testBit i = false :=
  Nat.testBit_lt_two_pow (w.toNat_lt.trans_le (Nat.pow_le_pow_right (by omega) hi))

theorem word_ext {v w : UInt32} (h : ∀ i, v.toNat.testBit i = w.toNat.testBit i) : v = w :=
  UInt32.toNat_inj.mp (Nat.eq_of_testBit_eq h)

theorem bit_payload (w : UInt32) (i : ℕ) :
    (payload w).toNat.testBit i = if i = 31 then false else w.toNat.testBit i := by
  rw [payload, UInt32.toNat_and, Nat.testBit_and, bit_mask]
  rcases Nat.lt_trichotomy i 31 with h | h | h
  · simp [h, h.ne]
  · simp [h]
  · rw [bit_high w (by omega)]
    simp

theorem flag_eq_bit (w : UInt32) : flag w = w.toNat.testBit 31 := by
  have hand : ∀ i, (w &&& FLAG).toNat.testBit i = (w.toNat.testBit i && decide (31 = i)) := by
    intro i
    rw [UInt32.toNat_and, Nat.testBit_and, bit_FLAG]
  unfold flag
  cases hb : w.toNat.testBit 31 with
  | false =>
    have hz : w &&& FLAG = 0 := by
      apply word_ext
      intro i
      rw [hand]
      by_cases h : 31 = i
      · simp [← h, hb]
      · simp [h]
    simp [hz]
  | true =>
    have hne : w &&& FLAG ≠ 0 := by
      intro h
      have h31 := hand 31
      simp [h, hb] at h31
    simpa using hne

theorem bit_setFlag (v : Bool) (w : UInt32) (i : ℕ) :
    (setFlag v w).toNat.testBit i = if i = 31 then v else w.toNat.testBit i := by
  cases v with
  | false => simpa [setFlag] using bit_payload w i
  | true =>
    simp only [setFlag, if_true, UInt32.toNat_or, Nat.testBit_or, bit_FLAG]
    by_cases h : i = 31
    · simp [h]
    · simp [h, Ne.symm h]

@[simp] theorem flag_setFlag (v : Bool) (w : UInt32) : flag (setFlag v w) = v := by
  rw [flag_eq_bit, bit_setFlag, if_pos rfl]

@[simp] theorem setFlag_setFlag (a b : Bool) (w : UInt32) :
    setFlag a (setFlag b w) = setFlag a w := by
  apply word_ext
  intro i
  rw [bit_setFlag, bit_setFlag, bit_setFlag]
  split <;> rfl

@[simp] theorem setFlag_flag (w : UInt32) : setFlag (flag w) w = w := by
  apply word_ext
  intro i
  rw [bit_setFlag, flag_eq_bit]
  split
  · rename_i h
    rw [h]
  · rfl

@[simp] theorem payload_setFlag (v : Bool) (w : UInt32) : payload (setFlag v w) = payload w := by
  apply word_ext
  intro i
  rw [bit_payload, bit_payload, bit_setFlag]
  split <;> rfl

@[simp] theorem payload_payload (w : UInt32) : payload (payload w) = payload w := by
  apply word_ext
  intro i
  rw [bit_payload, bit_payload]
  split <;> rfl

@[simp] theorem setFlag_payload (v : Bool) (w : UInt32) : setFlag v (payload w) = setFlag v w := by
  apply word_ext
  intro i
  rw [bit_setFlag, bit_setFlag, bit_payload]
  split <;> rfl

@[simp] theorem flag_payload (w : UInt32) : flag (payload w) = false := by
  rw [flag_eq_bit, bit_payload, if_pos rfl]

end Ltop.Word
