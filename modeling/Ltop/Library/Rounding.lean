import Mathlib

namespace Rounding

def halfEven (x : ℚ) : ℤ :=
  let k := ⌊x⌋
  if x - k < 1 / 2 then k
  else if 1 / 2 < x - k then k + 1
  else k + k % 2

def spacing (p : ℕ) (q : ℚ) : ℚ := 2 ^ (Int.log 2 |q| + 1 - p)

def nearest (p : ℕ) (q : ℚ) : ℚ := halfEven (q / spacing p q) * spacing p q

def f32 (q : ℚ) : ℚ := nearest 24 q

def f64 (q : ℚ) : ℚ := nearest 53 q

def Within (ε a b : ℚ) : Prop := |a - b| ≤ ε * |b|

variable {p : ℕ} {q ε δ a b c d : ℚ}

theorem halfEven_error (x : ℚ) : |(halfEven x : ℚ) - x| ≤ 1 / 2 := by
  have hlo := Int.floor_le x
  have hhi := Int.lt_floor_add_one x
  unfold halfEven
  dsimp only
  split
  · rw [abs_le]
    constructor <;> linarith
  · split
    · push_cast
      rw [abs_le]
      constructor <;> linarith
    · have hlow : (0 : ℚ) ≤ (⌊x⌋ % 2 : ℤ) := by exact_mod_cast Int.emod_nonneg ⌊x⌋ two_ne_zero
      have hhigh : ((⌊x⌋ % 2 : ℤ) : ℚ) ≤ 1 := by
        exact_mod_cast Int.lt_add_one_iff.mp (Int.emod_lt_of_pos ⌊x⌋ two_pos)
      push_cast at hlow hhigh ⊢
      rw [abs_le]
      constructor <;> linarith

@[simp] theorem halfEven_natCast (n : ℕ) : halfEven n = n := by
  simp [halfEven]

theorem spacing_pos (p : ℕ) (q : ℚ) : 0 < spacing p q := zpow_pos two_pos _

theorem spacing_le (hq : q ≠ 0) : spacing p q ≤ 2 * |q| / 2 ^ p := by
  have hlog : (2 : ℚ) ^ Int.log 2 |q| ≤ |q| := Int.zpow_log_le_self one_lt_two (abs_pos.mpr hq)
  rw [spacing, zpow_sub₀ two_ne_zero, zpow_add_one₀ two_ne_zero, zpow_natCast, mul_comm]
  gcongr

theorem nearest_error (p : ℕ) (q : ℚ) : Within (1 / 2 ^ p) (nearest p q) q := by
  unfold Within
  by_cases hq : q = 0
  · subst hq
    simp [nearest, halfEven]
  · have hpos := spacing_pos p q
    have herror := mul_le_mul_of_nonneg_right (halfEven_error (q / spacing p q)) hpos.le
    have hscaled : |(halfEven (q / spacing p q) : ℚ) - q / spacing p q| * spacing p q =
        |nearest p q - q| := by
      rw [nearest, ← abs_of_pos hpos, ← abs_mul, abs_of_pos hpos, sub_mul, div_mul_cancel₀ _ hpos.ne']
    calc |nearest p q - q| ≤ 1 / 2 * spacing p q := hscaled ▸ herror
      _ ≤ 1 / 2 * (2 * |q| / 2 ^ p) := by gcongr; exact spacing_le hq
      _ = 1 / 2 ^ p * |q| := by ring

theorem nearest_natCast {n : ℕ} (hn : n < 2 ^ p) : nearest p n = n := by
  rcases Nat.eq_zero_or_pos n with rfl | hpos
  · simp [nearest, halfEven]
  · have hlog := Nat.log_lt_of_lt_pow hpos.ne' hn
    obtain ⟨k, hk⟩ := Nat.exists_eq_add_of_lt hlog
    have hspacing : spacing p n = (2 ^ k : ℚ)⁻¹ := by
      rw [spacing, Nat.abs_cast, Int.log_natCast, hk, ← zpow_natCast, ← zpow_neg]
      congr 1
      push_cast
      ring
    have hscaled : (n : ℚ) / spacing p n = (n * 2 ^ k : ℕ) := by
      rw [hspacing, div_inv_eq_mul, Nat.cast_mul, Nat.cast_pow, Nat.cast_ofNat]
    rw [nearest, hscaled, halfEven_natCast, Int.cast_natCast, ← hscaled,
      div_mul_cancel₀ _ (spacing_pos p n).ne']

theorem Within.mono (h : Within ε a b) (hle : ε ≤ δ) : Within δ a b :=
  le_trans h (mul_le_mul_of_nonneg_right hle (abs_nonneg b))

theorem Within.mul (h : Within ε a b) (c : ℚ) : Within ε (a * c) (b * c) := by
  unfold Within at h ⊢
  rw [← sub_mul, abs_mul, abs_mul, ← mul_assoc]
  exact mul_le_mul_of_nonneg_right h (abs_nonneg c)

theorem Within.div (h : Within ε a b) (c : ℚ) : Within ε (a / c) (b / c) := by
  rw [div_eq_mul_inv, div_eq_mul_inv]
  exact h.mul c⁻¹

theorem Within.trans (hab : Within ε a b) (hbc : Within δ b c) (hε : 0 ≤ ε) :
    Within (ε * (1 + δ) + δ) a c := by
  unfold Within at hab hbc ⊢
  have hsize : |b| ≤ (1 + δ) * |c| := by
    have := abs_sub_abs_le_abs_sub b c
    linarith
  calc |a - c| ≤ |a - b| + |b - c| := abs_sub_le a b c
    _ ≤ ε * |b| + δ * |c| := add_le_add hab hbc
    _ ≤ ε * ((1 + δ) * |c|) + δ * |c| := by gcongr
    _ = (ε * (1 + δ) + δ) * |c| := by ring

theorem Within.add (hab : Within ε a b) (hcd : Within ε c d) (hb : 0 ≤ b) (hd : 0 ≤ d) :
    Within ε (a + c) (b + d) := by
  unfold Within at hab hcd ⊢
  rw [abs_of_nonneg (add_nonneg hb hd), mul_add]
  rw [abs_of_nonneg hb] at hab
  rw [abs_of_nonneg hd] at hcd
  calc |a + c - (b + d)| = |(a - b) + (c - d)| := by rw [add_sub_add_comm]
    _ ≤ |a - b| + |c - d| := abs_add_le _ _
    _ ≤ ε * b + ε * d := add_le_add hab hcd

theorem nearest_eq_zero (hp : 0 < p) : nearest p q = 0 ↔ q = 0 := by
  constructor
  · intro h
    have herror := nearest_error p q
    rw [Within, h, zero_sub, abs_neg] at herror
    by_contra hq
    have hpos := abs_pos.mpr hq
    have hlt : (1 / 2 ^ p : ℚ) < 1 := (div_lt_one (by positivity)).mpr (one_lt_pow₀ one_lt_two hp.ne')
    nlinarith
  · rintro rfl
    simp [nearest, halfEven]

@[simp] theorem f32_eq_zero : f32 q = 0 ↔ q = 0 := nearest_eq_zero (by decide)

@[simp] theorem f64_eq_zero : f64 q = 0 ↔ q = 0 := nearest_eq_zero (by decide)

end Rounding
