import Mathlib

namespace Numeral

def isDigit (b : UInt8) : Bool := 48 ≤ b && b ≤ 57

def digit (b : UInt8) : ℕ := b.toNat - 48

def AllDigits (s : List UInt8) : Prop := ∀ b ∈ s, isDigit b

instance (s : List UInt8) : Decidable (AllDigits s) := List.decidableBAll _ s

def valueFrom (n : ℕ) (s : List UInt8) : ℕ := s.foldl (fun n b => n * 10 + digit b) n

def value (s : List UInt8) : ℕ := valueFrom 0 s

def glyph (d : ℕ) : UInt8 := (48 + d).toUInt8

def decimal (n : ℕ) : List UInt8 :=
  if n = 0 then [glyph 0] else (Nat.digits 10 n).reverse.map glyph

variable {b : UInt8} {s t : List UInt8} {n k d : ℕ}

theorem digit_lt (h : isDigit b) : digit b < 10 := by
  simp only [isDigit, Bool.and_eq_true, decide_eq_true_eq, UInt8.le_iff_toNat_le] at h
  have h1 : (48 : UInt8).toNat = 48 := rfl
  have h2 : (57 : UInt8).toNat = 57 := rfl
  unfold digit
  omega

theorem glyph_toNat (h : d < 10) : (glyph d).toNat = 48 + d :=
  UInt8.toNat_ofNat_of_lt' (show 48 + d < 2 ^ 8 by omega)

theorem isDigit_glyph (h : d < 10) : isDigit (glyph d) := by
  have hd := glyph_toNat h
  have h1 : (48 : UInt8).toNat = 48 := rfl
  have h2 : (57 : UInt8).toNat = 57 := rfl
  simp only [isDigit, Bool.and_eq_true, decide_eq_true_eq, UInt8.le_iff_toNat_le]
  omega

theorem digit_glyph (h : d < 10) : digit (glyph d) = d := by
  rw [digit, glyph_toNat h, Nat.add_sub_cancel_left]

theorem allDigits_cons : AllDigits (b :: s) ↔ isDigit b ∧ AllDigits s := List.forall_mem_cons

theorem AllDigits.append (hs : AllDigits s) (ht : AllDigits t) : AllDigits (s ++ t) :=
  List.forall_mem_append.mpr ⟨hs, ht⟩

theorem le_valueFrom (n : ℕ) (s : List UInt8) : n ≤ valueFrom n s := by
  induction s generalizing n with
  | nil => exact le_rfl
  | cons b s ih =>
    have hstep := ih (n * 10 + digit b)
    change n ≤ valueFrom (n * 10 + digit b) s
    omega

theorem value_concat (s : List UInt8) (b : UInt8) : value (s ++ [b]) = value s * 10 + digit b := by
  rw [value, valueFrom, List.foldl_append]
  rfl

theorem value_lt (h : AllDigits s) : value s < 10 ^ s.length := by
  induction s using List.reverseRecOn with
  | nil => exact Nat.one_pos
  | append_singleton s b ih =>
    obtain ⟨hs, hb⟩ := List.forall_mem_append.mp h
    have hlt := digit_lt (hb b (List.mem_singleton_self b))
    have := ih hs
    rw [value_concat, List.length_append, List.length_singleton, Nat.pow_succ]
    omega

theorem value_glyphs {ds : List ℕ} (h : ∀ d ∈ ds, d < 10) :
    value (ds.reverse.map glyph) = Nat.ofDigits 10 ds := by
  induction ds with
  | nil => rfl
  | cons d ds ih =>
    obtain ⟨hd, hds⟩ := List.forall_mem_cons.mp h
    rw [List.reverse_cons, List.map_append, List.map_singleton, value_concat, ih hds,
      digit_glyph hd, Nat.ofDigits_cons]
    omega

theorem decimal_allDigits (n : ℕ) : AllDigits (decimal n) := by
  unfold decimal
  split
  · intro b hb
    rw [List.mem_singleton.mp hb]
    decide
  · intro b hb
    obtain ⟨d, hd, rfl⟩ := List.mem_map.mp hb
    exact isDigit_glyph (Nat.digits_lt_base (by decide) (List.mem_reverse.mp hd))

theorem decimal_ne_nil (n : ℕ) : decimal n ≠ [] := by
  unfold decimal
  split
  · exact List.cons_ne_nil _ _
  · rename_i hn
    have hds : Nat.digits 10 n ≠ [] := Nat.digits_ne_nil_iff_ne_zero.mpr hn
    simpa only [ne_eq, List.map_eq_nil_iff, List.reverse_eq_nil_iff] using hds

@[simp] theorem value_decimal (n : ℕ) : value (decimal n) = n := by
  unfold decimal
  split
  · rename_i hn
    rw [hn]
    rfl
  · rw [value_glyphs fun d hd => Nat.digits_lt_base (by decide) hd, Nat.ofDigits_digits]

theorem decimal_inj : decimal n = decimal k ↔ n = k :=
  ⟨fun h => by rw [← value_decimal n, h, value_decimal], fun h => h ▸ rfl⟩

theorem decimal_length_le (hk : 0 < k) (h : n < 10 ^ k) : (decimal n).length ≤ k := by
  unfold decimal
  split
  · exact hk
  · rw [List.length_map, List.length_reverse]
    exact (Nat.digits_length_le_iff (by decide) n).mpr h

theorem decimal_length_le_iff (hk : 0 < k) : (decimal n).length ≤ k ↔ n < 10 ^ k := by
  refine ⟨fun h => ?_, decimal_length_le hk⟩
  have hlt := value_lt (decimal_allDigits n)
  rw [value_decimal] at hlt
  exact hlt.trans_le (Nat.pow_le_pow_right (by decide) h)

theorem decimal_length_pos (n : ℕ) : 0 < (decimal n).length :=
  List.length_pos_of_ne_nil (decimal_ne_nil n)

end Numeral
