import Mathlib
import Ltop.Clock

namespace Ltop

open Rounding (Within f64 nearest_error)

variable {os : Os}

def Packed.shiftWidth (os : Os) : ℕ := (Packed.shift os).toNat

def cpuDelta (p : Packed os) (total : UInt64) : ℕ :=
  let newBits := Word.payload (total >>> Packed.shift os).toUInt32
  let deltaBits := Word.payload (newBits - p.cpuBits)
  deltaBits.toNat * (1 <<< Packed.shiftWidth os)

theorem cpuDelta_lt (p : Packed os) (total : UInt64) : cpuDelta p total < 2 ^ 53 := by
  have hbits := payload_toNat (Word.payload (total >>> Packed.shift os).toUInt32 - p.cpuBits)
  have hwidth : 1 <<< Packed.shiftWidth os ≤ 2 ^ 7 := by cases os <;> decide
  rw [cpuDelta, hbits]
  exact lt_of_le_of_lt (Nat.mul_le_mul_left _ hwidth) (by omega)

theorem computeCpu_delta (p : Packed os) {age : UInt32} (total : UInt64) (ticksPerSec : ℚ) {dt : ℚ}
    (hdt : ¬ dt ≤ 1 / 100) (hage : ¬ (age.toNat : ℚ) < dt) :
    computeCpu (some p) age total ticksPerSec dt = percent (cpuDelta p total) ticksPerSec dt := by
  have hexact : Rounding.f64 (cpuDelta p total : ℚ) = cpuDelta p total :=
    Rounding.nearest_natCast (cpuDelta_lt p total)
  rw [computeCpu, if_neg (not_or.mpr ⟨hdt, hage⟩), Option.map_some, Option.getD_some, ← hexact]
  dsimp only
  rw [cpuDelta, Packed.shiftWidth, Nat.cast_mul]

theorem percent_within (delta ticksPerSec dt : ℚ) :
    Within (1 / 2 ^ 23) (percent delta ticksPerSec dt) (delta / ticksPerSec / dt * 100) := by
  have hunit : (0 : ℚ) ≤ 1 / 2 ^ 53 := by positivity
  have hrate : Within (1 / 2 ^ 53) (f64 (delta / ticksPerSec)) (delta / ticksPerSec) :=
    nearest_error 53 _
  have hsecond := (nearest_error 53 (f64 (delta / ticksPerSec) / dt)).trans (hrate.div dt) hunit
  have hscaled := (nearest_error 53 (f64 (f64 (delta / ticksPerSec) / dt) * 100)).trans
    (hsecond.mul 100) hunit
  exact ((nearest_error 24 _).trans hscaled (by positivity)).mono (by norm_num)

theorem shiftWidth_mod (os : Os) : Packed.shiftWidth os % 64 = Packed.shiftWidth os := by
  cases os <;> rfl

theorem shifted_toNat (total : UInt64) :
    (total >>> Packed.shift os).toNat = total.toNat / 2 ^ Packed.shiftWidth os := by
  rw [UInt64.toNat_shiftRight, Nat.shiftRight_eq_div_pow]
  exact congrArg (fun s => total.toNat / 2 ^ s) (shiftWidth_mod os)

theorem shifted_bits (total : UInt64) :
    (Word.payload (total >>> Packed.shift os).toUInt32).toNat =
      total.toNat / 2 ^ Packed.shiftWidth os % 2 ^ 31 := by
  rw [payload_toNat, UInt64.toNat_toUInt32, shifted_toNat]
  exact Nat.mod_mod_of_dvd _ (by decide)

theorem payload_sub (a b : UInt32) :
    (Word.payload (Word.payload a - Word.payload b)).toNat =
      ((Word.payload a).toNat + 2 ^ 31 - (Word.payload b).toNat) % 2 ^ 31 := by
  rw [payload_toNat (Word.payload a - Word.payload b), UInt32.toNat_sub, payload_toNat, payload_toNat]
  have := a.toNat_lt
  have := b.toNat_lt
  omega

theorem window_sub {a b w : ℕ} (hle : a ≤ b) (hlt : b - a < w) : (b % w + w - a % w) % w = b - a := by
  have ha := Nat.mod_lt a (Nat.zero_lt_of_lt hlt)
  have hshift : b % w + w - a % w = b % w + (w - a % w) := by omega
  have hmove : b + (w - a % w) = (b - a) + w * (a / w + 1) := by
    have := Nat.div_add_mod a w
    rw [Nat.mul_succ]
    omega
  rw [hshift, Nat.mod_add_mod, hmove, Nat.add_mul_mod_self_left, Nat.mod_eq_of_lt hlt]

theorem cpuDelta_eq {p : Packed os} {t0 : UInt64} (t1 : UInt64)
    (hp : p.cpuBits = Word.payload (t0 >>> Packed.shift os).toUInt32) (hle : t0 ≤ t1)
    (hwin : t1.toNat / 2 ^ Packed.shiftWidth os - t0.toNat / 2 ^ Packed.shiftWidth os < 2 ^ 31) :
    cpuDelta p t1 =
      (t1.toNat / 2 ^ Packed.shiftWidth os - t0.toNat / 2 ^ Packed.shiftWidth os) *
        2 ^ Packed.shiftWidth os := by
  have hdiv := Nat.div_le_div_right (c := 2 ^ Packed.shiftWidth os) (UInt64.le_iff_toNat_le.mp hle)
  rw [cpuDelta, hp, payload_sub, shifted_bits, shifted_bits, window_sub hdiv hwin,
    Nat.one_shiftLeft]

theorem scaled_near {a b w : ℕ} (hw : 0 < w) (hle : a ≤ b) :
    |(((b / w - a / w) * w : ℕ) : ℤ) - ((b - a : ℕ) : ℤ)| < w := by
  have ha := Nat.div_add_mod a w
  have hb := Nat.div_add_mod b w
  have hal := Nat.mod_lt a hw
  have hbl := Nat.mod_lt b hw
  have hdiv : w * (a / w) ≤ w * (b / w) := Nat.mul_le_mul_left w (Nat.div_le_div_right hle)
  rw [Nat.mul_comm, Nat.mul_sub, abs_lt]
  omega

theorem visible_bits (v : Bool) (total : UInt64) {p : Packed os}
    (hp : p = .pack v total ∨ p = (Packed.pack v total).setVisible) :
    p.cpuBits = Word.payload (total >>> Packed.shift os).toUInt32 := by
  rcases hp with rfl | rfl
  · exact pack_cpuBits v total
  · rw [setVisible_cpuBits, pack_cpuBits]

theorem cpuDelta_recovers (v : Bool) {t0 t1 : UInt64} (hle : t0 ≤ t1)
    (hwin : (t1 >>> Packed.shift os).toNat - (t0 >>> Packed.shift os).toNat < 2 ^ 31)
    {p : Packed os} (hp : p = .pack v t0 ∨ p = (Packed.pack v t0).setVisible) :
    cpuDelta p t1 =
        ((t1 >>> Packed.shift os).toNat - (t0 >>> Packed.shift os).toNat) * 2 ^ Packed.shiftWidth os ∧
      |(cpuDelta p t1 : ℤ) - ((t1.toNat - t0.toNat : ℕ) : ℤ)| < 2 ^ Packed.shiftWidth os ∧
      ∀ (age : UInt32) (ticksPerSec dt : ℚ), ¬ dt ≤ 1 / 100 → ¬ (age.toNat : ℚ) < dt →
        computeCpu (some p) age t1 ticksPerSec dt = percent (cpuDelta p t1) ticksPerSec dt := by
  rw [shifted_toNat, shifted_toNat] at hwin ⊢
  have hdelta := cpuDelta_eq t1 (visible_bits v t0 hp) hle hwin
  refine ⟨hdelta, ?_, fun age ticksPerSec dt hdt hage => computeCpu_delta p t1 ticksPerSec hdt hage⟩
  rw [hdelta]
  exact_mod_cast scaled_near (Nat.two_pow_pos (Packed.shiftWidth os)) (UInt64.le_iff_toNat_le.mp hle)

theorem cpuDelta_recovers_wrapped :
    cpuDelta (Packed.pack true (2 ^ 38 - 1) : Packed .macos).setVisible (2 ^ 38 + 300) = 384 ∧
      |((384 : ℕ) : ℤ) - 301| < 128 := by
  have h := @cpuDelta_recovers .macos true (2 ^ 38 - 1) (2 ^ 38 + 300) (by decide)
    (by decide) _ (.inr rfl)
  refine ⟨h.1.trans (by decide), ?_⟩
  decide

end Ltop
