import Mathlib
import Ltop.EmitRow

namespace Ltop

open Numeral

def unitKib (b : UInt8) : Option ℕ :=
  if b = 75 then some 1 else if b = 77 then some (2 ^ 10) else if b = 71 then some (2 ^ 20) else none

def readNumber (s : List UInt8) : Option (ℚ × ℚ) :=
  let digits := s.dropWhile (· = 32)
  let whole := digits.takeWhile isDigit
  match digits.dropWhile isDigit with
  | [] => some (value whole, 1)
  | point :: frac =>
    if point = 46 ∧ AllDigits frac then
      some (value whole + value frac / 10 ^ frac.length, 1 / 10 ^ frac.length)
    else none

def readMem (s : List UInt8) : Option (ℚ × ℚ) :=
  (s.getLast?.bind unitKib).bind fun unit =>
    (readNumber s.dropLast).map fun n => (n.1 * unit, n.2 * unit)

variable {n k w : ℕ}

theorem digitCount_le_iff (hk : 0 < k) : digitCount n ≤ k ↔ n < 10 ^ k := by
  induction n using digitCount.induct generalizing k with
  | case1 n hn =>
    rw [digitCount, if_pos hn]
    exact iff_of_true hk (hn.trans_le (Nat.le_self_pow hk.ne' 10))
  | case2 n hn ih =>
    rw [digitCount, if_neg hn]
    obtain ⟨k, rfl⟩ := Nat.exists_eq_succ_of_ne_zero hk.ne'
    rcases Nat.eq_zero_or_pos k with rfl | hk
    · have hpos : 0 < digitCount (n / 10) := by
        rw [digitCount]
        split <;> omega
      exact iff_of_false (by omega) (by simpa using hn)
    · rw [Nat.succ_le_succ_iff, ih hk, Nat.div_lt_iff_lt_mul (by decide), Nat.pow_succ]

theorem digitCount_pos (n : ℕ) : 0 < digitCount n := by
  rw [digitCount]
  split <;> omega

theorem decimal_length (n : ℕ) : (decimal n).length = digitCount n :=
  le_antisymm
    ((decimal_length_le_iff (digitCount_pos n)).mpr ((digitCount_le_iff (digitCount_pos n)).mp le_rfl))
    ((digitCount_le_iff (decimal_length_pos n)).mpr
      ((decimal_length_le_iff (decimal_length_pos n)).mp le_rfl))

theorem field_length (n : UInt32) (w : ℕ) :
    w - digitCount n.toNat + (u32d n).length = max w (digitCount n.toNat) := by
  rw [u32d, decimal_length]
  omega

theorem padRight_length (n : UInt32) (w : ℕ) :
    (padRight n w).length = max w (digitCount n.toNat) := by
  rw [padRight, List.length_append, List.length_replicate, field_length]

theorem padZero_length (n : UInt32) (w : ℕ) :
    (padZero n w).length = max w (digitCount n.toNat) := by
  rw [padZero, List.length_append, List.length_replicate, field_length]

theorem padLeft_length (n : UInt32) (w : ℕ) :
    (padLeft n w).length = max w (digitCount n.toNat) := by
  rw [padLeft, List.length_append, List.length_replicate, Nat.add_comm, field_length]

theorem field_eq_iff (hw : 0 < w) : max w (digitCount n) = w ↔ n < 10 ^ w := by
  rw [max_eq_left_iff, digitCount_le_iff hw]

theorem pair_length {a b : UInt32} {x y : List UInt8} (hb : b.toNat < 100) (hx : x.length = 1)
    (hy : y.length = 1) :
    (padRight a 2 ++ x ++ padZero b 2 ++ y).length = 6 ↔ a.toNat < 100 := by
  have hsecond : max 2 (digitCount b.toNat) = 2 := (field_eq_iff two_pos).mpr hb
  have hfirst : max 2 (digitCount a.toNat) = 2 ↔ a.toNat < 100 := field_eq_iff two_pos
  rw [← hfirst]
  simp only [List.length_append, padRight_length, padZero_length, hsecond, hx, hy]
  omega

theorem single_length {a : UInt32} {x : List UInt8} (ha : a.toNat < 100000) (hx : x.length = 1) :
    (padRight a 5 ++ x).length = 6 := by
  have hfirst : max 5 (digitCount a.toNat) = 5 := (field_eq_iff (by decide)).mpr ha
  rw [List.length_append, padRight_length, hfirst, hx]

theorem formatAge_length (secs : UInt32) : (formatAge secs).length = 6 ↔ secs.toNat < 8640000 := by
  have hd : (86400 : UInt32).toNat = 86400 := rfl
  have hh : (3600 : UInt32).toNat = 3600 := rfl
  have hm : (60 : UInt32).toNat = 60 := rfl
  unfold formatAge
  simp only [ge_iff_le, UInt32.le_iff_toNat_le, hd, hh, hm]
  split
  · rw [pair_length _ rfl rfl, UInt32.toNat_div, hd]
    · omega
    · rw [UInt32.toNat_div, UInt32.toNat_mod, hd, hh]
      omega
  · split
    · rw [pair_length _ rfl rfl, UInt32.toNat_div, hh]
      · omega
      · rw [UInt32.toNat_div, UInt32.toNat_mod, hh, hm]
        omega
    · split
      · rw [pair_length _ rfl rfl, UInt32.toNat_div, hm]
        · omega
        · rw [UInt32.toNat_mod, hm]
          omega
      · exact iff_of_true (single_length (by omega) rfl) (by omega)

def tenths (kib : ℕ) : ℕ := (kib * 10 + 2 ^ 19) / 2 ^ 20

theorem tenths_le {kib : UInt32} : tenths kib.toNat ≤ 40960 := by
  have hlt := kib.toNat_lt
  unfold tenths
  omega

theorem tenths_word (kib : UInt32) :
    (kib.toUInt64 * 10 + (1 : UInt64) <<< (19 : UInt64)) >>> (20 : UInt64) =
      UInt64.ofNat (tenths kib.toNat) := by
  have hlt := kib.toNat_lt
  have hhalf : ((1 : UInt64) <<< (19 : UInt64)).toNat = 2 ^ 19 := rfl
  have hten : (10 : UInt64).toNat = 10 := rfl
  have hshift : (20 : UInt64).toNat % 64 = 20 := rfl
  rw [← UInt64.toNat_inj, UInt64.toNat_shiftRight, hshift, UInt64.toNat_add, UInt64.toNat_mul,
    UInt32.toNat_toUInt64, hhalf, hten, Nat.shiftRight_eq_div_pow,
    UInt64.toNat_ofNat_of_lt' (lt_of_le_of_lt tenths_le (by decide)), tenths,
    Nat.mod_eq_of_lt (show kib.toNat * 10 < 2 ^ 64 by omega),
    Nat.mod_eq_of_lt (show kib.toNat * 10 + 2 ^ 19 < 2 ^ 64 by omega)]

theorem formatMem_large {kib : UInt32} (h : 2 ^ 20 ≤ kib.toNat) :
    ∃ whole frac : UInt32, formatMem kib = padRight whole 3 ++ bytes "." ++ u32d frac ++ bytes "G" ∧
      whole.toNat = tenths kib.toNat / 10 ∧ frac.toNat = tenths kib.toNat % 10 := by
  have hle : (1 : UInt32) <<< 20 ≤ kib := UInt32.le_iff_toNat_le.mpr h
  have htenths : (UInt64.ofNat (tenths kib.toNat)).toNat = tenths kib.toNat :=
    UInt64.toNat_ofNat_of_lt' (lt_of_le_of_lt tenths_le (by decide))
  have hten : (10 : UInt64).toNat = 10 := rfl
  have hsmall : tenths kib.toNat < 2 ^ 32 := lt_of_le_of_lt tenths_le (by decide)
  refine ⟨_, _, by rw [formatMem, if_pos hle, tenths_word], ?_, ?_⟩
  · rw [UInt64.toNat_toUInt32, UInt64.toNat_div, htenths, hten]
    exact Nat.mod_eq_of_lt (by omega)
  · rw [UInt64.toNat_toUInt32, UInt64.toNat_mod, htenths, hten]
    exact Nat.mod_eq_of_lt (by omega)

theorem formatMem_small {kib : UInt32} (h : kib.toNat < 2 ^ 20) :
    ∃ (n : UInt32) (unit : UInt8) (scale : ℕ), formatMem kib = padRight n 5 ++ [unit] ∧
      unitKib unit = some scale ∧ n.toNat < 1024 ∧ n.toNat = kib.toNat / scale ∧ 0 < scale := by
  have hbig : ¬ (1 : UInt32) <<< 20 ≤ kib := fun hle => by
    have := UInt32.le_iff_toNat_le.mp hle
    exact absurd h (not_lt.mpr this)
  rw [formatMem, if_neg hbig]
  split
  · have hshift : (10 : UInt32).toNat % 32 = 10 := rfl
    have hn : (kib >>> 10).toNat = kib.toNat / 2 ^ 10 := by
      rw [UInt32.toNat_shiftRight, hshift, Nat.shiftRight_eq_div_pow]
    exact ⟨kib >>> 10, 77, 2 ^ 10, rfl, rfl, by omega, hn, by decide⟩
  · rename_i hmid
    have hlow : kib.toNat < 1024 := by
      by_contra hge
      exact hmid (UInt32.le_iff_toNat_le.mpr (not_lt.mp hge))
    exact ⟨kib, 75, 1, rfl, rfl, hlow, (Nat.div_one _).symm, Nat.one_pos⟩

theorem digit_length {n : UInt32} (h : n.toNat < 10) : (u32d n).length = 1 :=
  le_antisymm ((decimal_length_le_iff one_pos).mpr h) (decimal_length_pos n.toNat)

theorem formatMem_length (kib : UInt32) :
    (formatMem kib).length = 6 ↔ kib.toNat < 1048523572 := by
  rcases lt_or_ge kib.toNat (2 ^ 20) with hsmall | hlarge
  · obtain ⟨n, unit, -, heq, -, hn, -⟩ := formatMem_small hsmall
    rw [heq]
    exact iff_of_true (single_length (by omega) rfl) (by omega)
  · obtain ⟨whole, frac, heq, hwhole, hfrac⟩ := formatMem_large hlarge
    have hfirst : max 3 (digitCount whole.toNat) = 3 ↔ whole.toNat < 1000 := field_eq_iff (by decide)
    have hlast : (u32d frac).length = 1 := digit_length (by omega)
    have hbytes : (bytes ".").length = 1 ∧ (bytes "G").length = 1 := ⟨rfl, rfl⟩
    have hbound : whole.toNat < 1000 ↔ kib.toNat < 1048523572 := by
      rw [hwhole, tenths]
      omega
    rw [← hbound, ← hfirst, heq]
    simp only [List.length_append, padRight_length, hlast, hbytes]
    omega

theorem dropWhile_blank (j n : ℕ) (s : List UInt8) :
    (List.replicate j 32 ++ (decimal n ++ s)).dropWhile (· = 32) = decimal n ++ s := by
  have hblank : ∀ b ∈ List.replicate j (32 : UInt8), decide (b = 32) = true := fun b hb =>
    decide_eq_true (List.eq_of_mem_replicate hb)
  rw [List.dropWhile_append_of_pos hblank]
  cases hd : decimal n with
  | nil => exact absurd hd (decimal_ne_nil n)
  | cons b rest =>
    have hb : isDigit b := decimal_allDigits n b (hd ▸ List.mem_cons_self)
    refine List.dropWhile_cons_of_neg ?_
    rintro h
    obtain rfl := of_decide_eq_true h
    exact absurd hb (by decide)

theorem readNumber_whole (n : UInt32) (w : ℕ) : readNumber (padRight n w) = some ((n.toNat : ℚ), 1) := by
  have hdigits : ∀ b ∈ decimal n.toNat, isDigit b = true := decimal_allDigits n.toNat
  have hblank := dropWhile_blank (w - digitCount n.toNat) n.toNat []
  rw [List.append_nil] at hblank
  simp only [readNumber, padRight, u32d, hblank, List.takeWhile_eq_self_iff.mpr hdigits,
    List.dropWhile_eq_nil_iff.mpr hdigits, value_decimal]

theorem readNumber_point (n k : UInt32) (w : ℕ) :
    readNumber (padRight n w ++ bytes "." ++ u32d k) =
      some ((n.toNat : ℚ) + k.toNat / 10 ^ (u32d k).length, 1 / 10 ^ (u32d k).length) := by
  have hdigits : ∀ b ∈ decimal n.toNat, isDigit b = true := decimal_allDigits n.toNat
  have hpoint : bytes "." ++ decimal k.toNat = 46 :: decimal k.toNat := rfl
  have hstop : ¬ isDigit 46 = true := by decide
  simp only [readNumber, padRight, List.append_assoc, hpoint, u32d, dropWhile_blank,
    List.takeWhile_append_of_pos hdigits, List.dropWhile_append_of_pos hdigits,
    List.takeWhile_cons_of_neg hstop, List.dropWhile_cons_of_neg hstop, List.append_nil,
    decimal_allDigits, and_self, if_true, value_decimal]

theorem readMem_unit {s : List UInt8} {b : UInt8} {scale : ℕ} (hb : unitKib b = some scale) :
    readMem (s ++ [b]) = (readNumber s).map fun n => (n.1 * (scale : ℚ), n.2 * (scale : ℚ)) := by
  rw [readMem, List.getLast?_concat, Option.bind_some, hb, Option.bind_some, List.dropLast_concat]

def Accurate (kib : UInt32) : Prop :=
  ∃ amount step, readMem (formatMem kib) = some (amount, step) ∧ |amount - kib.toNat| < step

theorem tenths_split (t : ℕ) : ((t / 10 : ℕ) : ℚ) + (t % 10 : ℕ) / 10 ^ 1 = t / 10 := by
  have hdiv : ((10 * (t / 10) + t % 10 : ℕ) : ℚ) = t := by rw [Nat.div_add_mod]
  push_cast at hdiv
  linarith

theorem near_cast {a b c : ℕ} (h : |(a : ℤ) - b| < c) : |(a : ℚ) - b| < c := by exact_mod_cast h

theorem tenths_near (kib : ℕ) : |(tenths kib : ℚ) * 2 ^ 20 - kib * 10| < 2 ^ 20 := by
  have hround : |((tenths kib * 2 ^ 20 : ℕ) : ℤ) - (kib * 10 : ℕ)| < (2 ^ 20 : ℕ) := by
    have hdiv := Nat.div_add_mod (kib * 10 + 2 ^ 19) (2 ^ 20)
    have hmod := Nat.mod_lt (kib * 10 + 2 ^ 19) (show 0 < 2 ^ 20 by decide)
    rw [abs_lt, tenths]
    omega
  have hnear := near_cast hround
  push_cast at hnear
  exact hnear

theorem formatMem_accurate (kib : UInt32) : Accurate kib := by
  rcases lt_or_ge kib.toNat (2 ^ 20) with hsmall | hlarge
  · obtain ⟨n, unit, scale, heq, hunit, -, hn, hpos⟩ := formatMem_small hsmall
    refine ⟨n.toNat * scale, 1 * scale, ?_, ?_⟩
    · rw [heq, readMem_unit hunit, readNumber_whole, Option.map_some]
    · have hmod := Nat.div_add_mod kib.toNat scale
      have hrest := Nat.mod_lt kib.toNat hpos
      have hnear : |((kib.toNat / scale * scale : ℕ) : ℤ) - kib.toNat| < scale := by
        rw [abs_lt, Nat.mul_comm]
        omega
      rw [hn, one_mul, ← Nat.cast_mul]
      exact near_cast hnear
  · obtain ⟨whole, frac, heq, hwhole, hfrac⟩ := formatMem_large hlarge
    have hunit : unitKib 71 = some (2 ^ 20) := rfl
    have hlast : bytes "G" = [71] := rfl
    obtain ⟨hlow, hhigh⟩ := abs_lt.mp (tenths_near kib.toNat)
    refine ⟨_, _, by rw [heq, hlast, readMem_unit hunit, readNumber_point, Option.map_some], ?_⟩
    rw [digit_length (by omega), hwhole, hfrac, tenths_split, abs_lt]
    push_cast
    constructor <;> linarith

theorem cells_nominal_iff (age kib : UInt32) :
    ((formatAge age).length = 6 ↔ age.toNat < 8640000) ∧
      ((formatMem kib).length = 6 ↔ kib.toNat < 1048523572) ∧ Accurate kib :=
  ⟨formatAge_length age, formatMem_length kib, formatMem_accurate kib⟩

theorem cells_overflow :
    ¬ (∀ age : UInt32, age.toNat < 2 ^ 31 → (formatAge age).length = 6) ∧
      ¬ ∀ kib : UInt32, (formatMem kib).length = 6 ∧ Accurate kib := by
  refine ⟨fun h => ?_, fun h => ?_⟩
  · have hlong := (formatAge_length 8640000).mp (h 8640000 (by decide))
    exact absurd hlong (by decide)
  · have hlong := (formatMem_length 1048576000).mp (h 1048576000).1
    exact absurd hlong (by decide)

end Ltop
