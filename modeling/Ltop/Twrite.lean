import Mathlib
import Ltop.Bytes
import Ltop.Library.Numeral

namespace Ltop

open Numeral

def leaderLen (b : UInt8) : ℕ :=
  if b < 0x80 then 1
  else if b < 0xC2 then 0
  else if b < 0xE0 then 2
  else if b < 0xF0 then 3
  else if b < 0xF5 then 4
  else 0

def isContinuation (b : UInt8) : Bool := b &&& 0xC0 == 0x80

def putSlice : List UInt8 → List UInt8
  | [] => []
  | b :: rest =>
    let n := leaderLen b
    if 0 < n ∧ n ≤ rest.length + 1 ∧ (rest.take (n - 1)).all isContinuation then
      b :: rest.take (n - 1) ++ putSlice (rest.drop (n - 1))
    else 63 :: putSlice rest
termination_by s => s.length
decreasing_by
  all_goals
    simp only [List.length_drop, List.length_cons]
    omega

def boundary (s : List UInt8) : ℕ → ℕ
  | 0 => 0
  | n + 1 =>
    match s[n + 1]? with
    | none => n + 1
    | some b => if isContinuation b then boundary s n else n + 1

def truncate (s : List UInt8) (max : ℕ) : List UInt8 :=
  if s.length ≤ max then putSlice s
  else
    let target := if max > 3 then max - 3 else max
    putSlice (s.take (boundary s target)) ++ if max > 3 then bytes "..." else []

def digitCount (n : ℕ) : ℕ := if n < 10 then 1 else digitCount (n / 10) + 1

def u32d (n : UInt32) : List UInt8 := decimal n.toNat

def padRight (n : UInt32) (width : ℕ) : List UInt8 :=
  List.replicate (width - digitCount n.toNat) 32 ++ u32d n

def padLeft (n : UInt32) (width : ℕ) : List UInt8 :=
  u32d n ++ List.replicate (width - digitCount n.toNat) 32

def padZero (n : UInt32) (width : ℕ) : List UInt8 :=
  List.replicate (width - digitCount n.toNat) 48 ++ u32d n

def f1Wide (x : ℚ) (width : ℕ) : List UInt8 :=
  let tenths := min ⌊x * 10 + 1 / 2⌋.toNat (2 ^ 64 - 1)
  padRight (tenths / 10).toUInt32 (width - 2) ++ bytes "." ++ u32d (tenths % 10).toUInt32

def isControl (c : UInt8) : Bool := c < 32 || c == 0x7f

def Plain (s : List UInt8) : Prop := ∀ c ∈ s, isControl c = false

def isC1 (c : UInt8) : Bool := 0x80 ≤ c && c ≤ 0x9f

def C1 (s : List UInt8) : Prop := ∃ c, isC1 c ∧ [0xC2, c] <:+: s

variable {b c : UInt8} {s t : List UInt8} {n : ℕ}

theorem forall_byte {P : UInt8 → Prop} (h : ∀ n : Fin 256, P (UInt8.ofNat n)) (b : UInt8) : P b := by
  have hb := h ⟨b.toNat, b.toNat_lt⟩
  rwa [UInt8.ofNat_toNat] at hb

theorem isContinuation_range : isContinuation b → 0x80 ≤ b ∧ b < 0xC0 :=
  forall_byte (P := fun b => isContinuation b → 0x80 ≤ b ∧ b < 0xC0) (by decide +kernel) b

theorem isC1_continuation : isC1 c → isContinuation c :=
  forall_byte (P := fun c => isC1 c → isContinuation c) (by decide +kernel) c

theorem isControl_high : 0x80 ≤ b → isControl b = false :=
  forall_byte (P := fun b => 0x80 ≤ b → isControl b = false) (by decide +kernel) b

theorem leaderLen_ascii (h : b < 0x80) : leaderLen b = 1 := if_pos h

theorem Plain.append (hs : Plain s) (ht : Plain t) : Plain (s ++ t) :=
  List.forall_mem_append.mpr ⟨hs, ht⟩

theorem plain_iff : Plain s ↔ s.filter isControl = [] := by
  rw [List.filter_eq_nil_iff]
  simp [Plain]

theorem continuations_plain (h : s.all isContinuation) : s.filter isControl = [] :=
  plain_iff.mp fun c hc => isControl_high (isContinuation_range (List.all_eq_true.mp h c hc)).1

theorem putSlice_controls (s : List UInt8) : (putSlice s).filter isControl = s.filter isControl := by
  induction s using putSlice.induct with
  | case1 => rw [putSlice]
  | case2 b rest n hok ih =>
    obtain ⟨hpos, hlen, hcont⟩ := hok
    have hrest := continuations_plain hcont
    rw [putSlice, if_pos ⟨hpos, hlen, hcont⟩, List.cons_append, List.filter_cons, List.filter_append,
      hrest, ih, List.filter_cons, List.nil_append]
    conv_rhs => rw [← List.take_append_drop (n - 1) rest, List.filter_append, hrest]
    rfl
  | case3 b rest n hbad ih =>
    have hhigh : 0x80 ≤ b := by
      by_contra hlow
      refine hbad ⟨?_, ?_, ?_⟩ <;> simp [n, leaderLen_ascii (UInt8.not_le.mp hlow)]
    rw [putSlice, if_neg hbad, List.filter_cons_of_neg (by decide), ih,
      List.filter_cons_of_neg (by simp [isControl_high hhigh])]

theorem c1_cons : C1 (b :: s) ↔ (∃ c t, b = 0xC2 ∧ isC1 c ∧ s = c :: t) ∨ C1 s := by
  constructor
  · rintro ⟨c, hc, hin⟩
    rcases List.infix_cons_iff.mp hin with ⟨t, ht⟩ | hin
    · obtain ⟨rfl, rfl⟩ := List.cons.inj ht
      exact .inl ⟨c, t, rfl, hc, rfl⟩
    · exact .inr ⟨c, hc, hin⟩
  · rintro (⟨c, t, rfl, hc, rfl⟩ | ⟨c, hc, hin⟩)
    · exact ⟨c, hc, List.infix_cons_iff.mpr (.inl ⟨t, rfl⟩)⟩
    · exact ⟨c, hc, List.infix_cons_iff.mpr (.inr hin)⟩

theorem c1_cons_of_ne (h : b ≠ 0xC2) : C1 (b :: s) ↔ C1 s := by
  rw [c1_cons]
  exact or_iff_right fun ⟨_, _, hb, _⟩ => h hb

theorem c1_continuations (h : s.all isContinuation) : C1 (s ++ t) ↔ C1 t := by
  induction s with
  | nil => rfl
  | cons b s ih =>
    simp only [List.all_cons, Bool.and_eq_true] at h
    have hne : b ≠ 0xC2 := by
      rintro rfl
      exact absurd h.1 (by decide)
    rw [List.cons_append, c1_cons_of_ne hne, ih h.2]

theorem leaderLen_c2 : leaderLen 0xC2 = 2 := rfl

theorem putSlice_c1 (s : List UInt8) : C1 (putSlice s) ↔ C1 s := by
  induction s using putSlice.induct with
  | case1 => rw [putSlice]
  | case2 b rest n hok ih =>
    obtain ⟨hpos, hlen, hcont⟩ := hok
    rw [putSlice, if_pos ⟨hpos, hlen, hcont⟩, List.cons_append, c1_cons, c1_cons,
      c1_continuations hcont, ih]
    have hsplit : C1 rest ↔ C1 (rest.drop (n - 1)) := by
      conv_lhs => rw [← List.take_append_drop (n - 1) rest]
      exact c1_continuations hcont
    rw [hsplit]
    refine or_congr_left ?_
    by_cases hb : b = 0xC2
    · subst hb
      cases rest with
      | nil => exact absurd hlen (by decide)
      | cons c rest =>
        change (∃ c' t, _ ∧ _ ∧ c :: putSlice rest = c' :: t) ↔ _
        simp
    · simp [hb]
  | case3 b rest n hbad ih =>
    rw [putSlice, if_neg hbad, c1_cons_of_ne (by decide), ih, c1_cons]
    refine (or_iff_right ?_).symm
    rintro ⟨c, t, rfl, hc, rfl⟩
    refine hbad ⟨by decide, ?_, ?_⟩
    · simp [n, leaderLen_c2]
    · simpa [n, leaderLen_c2] using isC1_continuation hc

theorem boundary_le (s : List UInt8) (n : ℕ) : boundary s n ≤ n := by
  induction n with
  | zero => exact le_rfl
  | succ n ih =>
    rw [boundary]
    split
    · exact le_rfl
    · split
      · exact ih.trans n.le_succ
      · exact le_rfl

theorem Plain.of_sublist (h : t.Sublist s) (hs : Plain s) : Plain t := fun c hc => hs c (h.subset hc)

theorem plain_dots (max : ℕ) : Plain (if max > 3 then bytes "..." else []) := by
  split
  · unfold Plain
    decide +kernel
  · exact fun c hc => absurd hc List.not_mem_nil

theorem truncate_shows (s : List UInt8) (max : ℕ) :
    ∃ t u, t <+: s ∧ truncate s max = putSlice t ++ u ∧ Plain u ∧ (∀ b ∈ u, b < 0x80) := by
  unfold truncate
  split
  · exact ⟨s, [], List.prefix_rfl, (List.append_nil _).symm, fun c hc => absurd hc List.not_mem_nil,
      fun c hc => absurd hc List.not_mem_nil⟩
  · refine ⟨_, _, List.take_prefix _ _, rfl, plain_dots max, ?_⟩
    split
    · decide +kernel
    · exact fun c hc => absurd hc List.not_mem_nil

theorem truncate_wide (s : List UInt8) {max : ℕ} (h : s.length ≤ max) : truncate s max = putSlice s :=
  if_pos h

theorem truncate_plain (max : ℕ) (h : Plain s) : Plain (truncate s max) := by
  obtain ⟨t, u, hpre, heq, hu, -⟩ := truncate_shows s max
  rw [heq]
  refine .append (plain_iff.mpr ?_) hu
  rw [putSlice_controls]
  exact plain_iff.mp (.of_sublist hpre.sublist h)

theorem C1.mono (h : t <:+: s) : C1 t → C1 s := fun ⟨c, hc, hin⟩ => ⟨c, hc, hin.trans h⟩

theorem c1_append_ascii (ht : ∀ b ∈ t, b < 0x80) : C1 (s ++ t) ↔ C1 s := by
  refine ⟨?_, C1.mono (List.prefix_append s t).isInfix⟩
  induction s with
  | nil =>
    rintro ⟨c, -, hin⟩
    exact absurd (ht 0xC2 (hin.subset List.mem_cons_self)) (by decide)
  | cons b s ih =>
    intro h
    rcases c1_cons.mp h with ⟨c, r, rfl, hc, heq⟩ | h
    · cases s with
      | nil =>
        have hlow : c < 0x80 := ht c ((show t = c :: r from heq) ▸ List.mem_cons_self)
        have hhigh : 0x80 ≤ c := (isContinuation_range (isC1_continuation hc)).1
        exact absurd hlow (UInt8.not_lt.mpr hhigh)
      | cons d s =>
        obtain ⟨rfl, -⟩ := List.cons.inj heq
        exact c1_cons.mpr (.inl ⟨d, s, rfl, hc, rfl⟩)
    · exact c1_cons.mpr (.inr (ih h))

theorem truncate_c1 (max : ℕ) (h : ¬ C1 s) : ¬ C1 (truncate s max) := by
  obtain ⟨t, u, hpre, heq, -, hu⟩ := truncate_shows s max
  rw [heq, c1_append_ascii hu, putSlice_c1]
  exact fun hc => h (hc.mono hpre.isInfix)

end Ltop
