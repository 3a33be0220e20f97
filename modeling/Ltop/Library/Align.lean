import Mathlib

namespace Align

def up (n a : ℕ) : ℕ := (n + (a - 1)) / a * a

variable {n a m : ℕ}

theorem dvd_up (n a : ℕ) : a ∣ up n a := Nat.dvd_mul_left a _

theorem le_up (ha : 0 < a) : n ≤ up n a := by
  have hmod := Nat.mod_lt (n + (a - 1)) ha
  have hdiv := Nat.div_add_mod (n + (a - 1)) a
  rw [up, Nat.mul_comm]
  omega

theorem up_le (ha : 0 < a) (hm : a ∣ m) (hnm : n ≤ m) : up n a ≤ m := by
  obtain ⟨k, rfl⟩ := hm
  have hlt : n + (a - 1) < a * (k + 1) := by
    rw [Nat.mul_succ]
    omega
  have hk : (n + (a - 1)) / a ≤ k := Nat.lt_succ_iff.mp (Nat.div_lt_of_lt_mul hlt)
  rw [up, Nat.mul_comm a k]
  exact Nat.mul_le_mul_right a hk

theorem up_eq_iff (ha : 0 < a) : up n a = n ↔ a ∣ n :=
  ⟨fun h => h ▸ dvd_up n a, fun h => Nat.le_antisymm (up_le ha h le_rfl) (le_up ha)⟩

theorem up_of_dvd (h : a ∣ n) (ha : 0 < a) : up n a = n := (up_eq_iff ha).mpr h

def down (n a : ℕ) : ℕ := n / a * a

theorem dvd_down (n a : ℕ) : a ∣ down n a := Nat.dvd_mul_left a _

theorem down_le (n a : ℕ) : down n a ≤ n := Nat.div_mul_le_self n a

theorem le_down (hm : a ∣ m) (hmn : m ≤ n) : m ≤ down n a := by
  obtain ⟨k, rfl⟩ := hm
  rcases Nat.eq_zero_or_pos a with rfl | ha
  · rw [Nat.zero_mul]
    exact Nat.zero_le _
  · have hk : k ≤ n / a := (Nat.le_div_iff_mul_le ha).mpr (Nat.mul_comm k a ▸ hmn)
    rw [down, Nat.mul_comm a k]
    exact Nat.mul_le_mul_right a hk

theorem mask_eq {x k w : ℕ} (hx : x < 2 ^ w) (hk : k ≤ w) :
    x &&& (2 ^ w - 2 ^ k) = x / 2 ^ k * 2 ^ k := by
  have hmask : 2 ^ w - 2 ^ k = (2 ^ (w - k) - 1) * 2 ^ k := by
    rw [Nat.sub_mul, ← Nat.pow_add, Nat.sub_add_cancel hk, Nat.one_mul]
  apply Nat.eq_of_testBit_eq
  intro i
  rw [hmask, Nat.testBit_and, Nat.testBit_mul_two_pow, Nat.testBit_mul_two_pow,
    Nat.testBit_div_two_pow, Nat.testBit_two_pow_sub_one]
  rcases Nat.lt_or_ge i k with hik | hki
  · simp [Nat.not_le.mpr hik]
  · rw [Nat.sub_add_cancel hki]
    rcases Nat.lt_or_ge i w with hiw | hwi
    · simp [hki, show i - k < w - k by omega]
    · rw [Nat.testBit_lt_two_pow (hx.trans_le (Nat.pow_le_pow_right Nat.two_pos hwi))]
      simp

end Align
