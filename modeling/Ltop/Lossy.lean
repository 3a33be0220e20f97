import Mathlib
import Ltop.OsBinary
import Ltop.Twrite

namespace Ltop

def byteAt (s : List UInt8) (i : ℕ) : Outcome UInt8 := s[i]?.elim (.fault .index) .some

def shapeOk (s : List UInt8) (i n : ℕ) : Outcome Bool :=
  if 0 < n ∧ i + n ≤ s.length then do
    return (← Os.slice s (i + 1) (i + n)).all isContinuation
  else .some false

def putLoop (s : List UInt8) : ℕ → ℕ → List UInt8 → Outcome (List UInt8)
  | 0, i, out => if i < s.length then .fault .spin else .some out
  | fuel + 1, i, out =>
    if i < s.length then do
      let n := leaderLen (← byteAt s i)
      if ← shapeOk s i n then putLoop s fuel (i + n) (out ++ (← Os.slice s i (i + n)))
      else putLoop s fuel (i + 1) (out ++ [63])
    else .some out

def putBytes (s : List UInt8) : Outcome (List UInt8) := putLoop s s.length 0 []

def IsTail (b : UInt8) : Prop := 0x80 ≤ b ∧ b ≤ 0xBF

inductive Sequence : List UInt8 → Prop where
  | one {a : UInt8} : a ≤ 0x7F → Sequence [a]
  | two {a b : UInt8} : 0xC2 ≤ a → a ≤ 0xDF → IsTail b → Sequence [a, b]
  | three {a b c : UInt8} : 0xE0 ≤ a → a ≤ 0xEF → IsTail b → IsTail c → Sequence [a, b, c]
  | four {a b c d : UInt8} : 0xF0 ≤ a → a ≤ 0xF4 → IsTail b → IsTail c → IsTail d →
      Sequence [a, b, c, d]

inductive Lax : List UInt8 → Prop where
  | nil : Lax []
  | cons {c t : List UInt8} : Sequence c → Lax t → Lax (c ++ t)

variable {b : UInt8} {s t c : List UInt8} {i n fuel : ℕ}

theorem byteAt_eq (h : i < s.length) : byteAt s i = .some s[i] := by
  rw [byteAt, List.getElem?_eq_getElem h]
  rfl

theorem slice_eq {lo hi : ℕ} (hle : lo ≤ hi) (h : hi ≤ s.length) :
    Os.slice s lo hi = .some ((s.drop lo).take (hi - lo)) := if_pos ⟨hle, h⟩

theorem shapeOk_eq (hi : i < s.length) (n : ℕ) :
    shapeOk s i n = .some (decide (0 < n ∧ n ≤ (s.drop (i + 1)).length + 1 ∧
      ((s.drop (i + 1)).take (n - 1)).all isContinuation)) := by
  have hlen : (s.drop (i + 1)).length + 1 = s.length - i := by
    rw [List.length_drop]
    omega
  rw [shapeOk, hlen]
  split
  · rename_i hok
    rw [slice_eq (by omega) hok.2, show i + n - (i + 1) = n - 1 by omega, Outcome.some_bind]
    have hfits : n ≤ s.length - i := by omega
    simp only [hok.1, hfits, true_and, Bool.decide_eq_true]
    rfl
  · rename_i hbad
    exact congrArg Outcome.some (decide_eq_false fun h => hbad ⟨h.1, by omega⟩).symm

theorem putLoop_eq (s : List UInt8) {fuel i : ℕ} (out : List UInt8) (hi : i ≤ s.length)
    (hf : s.length ≤ i + fuel) : putLoop s fuel i out = .some (out ++ putSlice (s.drop i)) := by
  induction fuel generalizing i out with
  | zero =>
    have hend : ¬ i < s.length := by omega
    rw [putLoop, if_neg hend, List.drop_of_length_le (by omega), putSlice, List.append_nil]
  | succ fuel ih =>
    rw [putLoop]
    split
    · rename_i hlt
      rw [byteAt_eq hlt, Outcome.some_bind]
      dsimp only
      rw [shapeOk_eq hlt, Outcome.some_bind,
        List.drop_eq_getElem_cons hlt, putSlice]
      by_cases hok : 0 < leaderLen s[i] ∧ leaderLen s[i] ≤ (s.drop (i + 1)).length + 1 ∧
          ((s.drop (i + 1)).take (leaderLen s[i] - 1)).all isContinuation
      · have hlen := hok.2.1
        rw [List.length_drop] at hlen
        obtain ⟨k, hk⟩ := Nat.exists_eq_succ_of_ne_zero hok.1.ne'
        rw [if_pos (decide_eq_true hok), if_pos hok, slice_eq (by omega) (by omega),
          Outcome.some_bind, ih _ (by omega) (by omega), Nat.add_sub_cancel_left, hk,
          List.drop_eq_getElem_cons hlt, List.take_succ_cons, List.drop_drop]
        simp [Nat.add_comm, Nat.add_left_comm]
      · rw [if_neg (by simpa using hok), if_neg hok, ih _ hlt (by omega), List.append_assoc]
        rfl
    · rename_i hend
      rw [List.drop_of_length_le (by omega), putSlice, List.append_nil]

theorem putBytes_eq (s : List UInt8) : putBytes s = .some (putSlice s) := by
  rw [putBytes, putLoop_eq s [] (Nat.zero_le _) (by omega)]
  rfl

theorem isContinuation_iff : isContinuation b ↔ IsTail b :=
  forall_byte (P := fun b => isContinuation b ↔ 0x80 ≤ b ∧ b ≤ 0xBF) (by decide +kernel) b

theorem leaderLen_range (b : UInt8) :
    leaderLen b ≤ 4 ∧ (leaderLen b = 1 ↔ b ≤ 0x7F) ∧ (leaderLen b = 2 ↔ 0xC2 ≤ b ∧ b ≤ 0xDF) ∧
      (leaderLen b = 3 ↔ 0xE0 ≤ b ∧ b ≤ 0xEF) ∧ (leaderLen b = 4 ↔ 0xF0 ≤ b ∧ b ≤ 0xF4) := by
  simp only [leaderLen, UInt8.lt_iff_toNat_lt, UInt8.le_iff_toNat_le, UInt8.reduceToNat]
  split_ifs <;> simp <;> omega

theorem sequence_iff : Sequence (b :: t) ↔
    0 < leaderLen b ∧ t.length = leaderLen b - 1 ∧ t.all isContinuation := by
  obtain ⟨hle, hone, htwo, hthree, hfour⟩ := leaderLen_range b
  simp only [List.all_eq_true, isContinuation_iff]
  constructor
  · intro h
    cases h with
    | one h => simp [hone.mpr h]
    | two hlo hhi hb => simp [htwo.mpr ⟨hlo, hhi⟩, hb]
    | three hlo hhi hb hc => simp [hthree.mpr ⟨hlo, hhi⟩, hb, hc]
    | four hlo hhi hb hc hd => simp [hfour.mpr ⟨hlo, hhi⟩, hb, hc, hd]
  · rintro ⟨hpos, hlen, htail⟩
    match t with
    | [] => exact .one (hone.mp (by simp at hlen; omega))
    | [c] =>
      obtain ⟨hlo, hhi⟩ := htwo.mp (by simp at hlen; omega)
      exact .two hlo hhi (htail c (by simp))
    | [c, d] =>
      obtain ⟨hlo, hhi⟩ := hthree.mp (by simp at hlen; omega)
      exact .three hlo hhi (htail c (by simp)) (htail d (by simp))
    | [c, d, e] =>
      obtain ⟨hlo, hhi⟩ := hfour.mp (by simp at hlen; omega)
      exact .four hlo hhi (htail c (by simp)) (htail d (by simp)) (htail e (by simp))
    | _ :: _ :: _ :: _ :: _ =>
      simp only [List.length_cons] at hlen
      omega

theorem putSlice_sequence (hc : Sequence c) (t : List UInt8) :
    putSlice (c ++ t) = c ++ putSlice t := by
  cases c with
  | nil => cases hc
  | cons b c =>
    obtain ⟨hpos, hlen, htail⟩ := sequence_iff.mp hc
    have hok : 0 < leaderLen b ∧ leaderLen b ≤ (c ++ t).length + 1 ∧
        ((c ++ t).take (leaderLen b - 1)).all isContinuation := by
      refine ⟨hpos, ?_, by rwa [← hlen, List.take_left]⟩
      rw [List.length_append]
      omega
    rw [List.cons_append, putSlice, if_pos hok, ← hlen, List.take_left, List.drop_left]

theorem putSlice_lax (s : List UInt8) : Lax (putSlice s) := by
  induction s using putSlice.induct with
  | case1 =>
    rw [putSlice]
    exact .nil
  | case2 b rest n hok ih =>
    obtain ⟨hpos, hlen, htail⟩ := hok
    rw [putSlice, if_pos ⟨hpos, hlen, htail⟩]
    refine .cons (sequence_iff.mpr ⟨hpos, ?_, htail⟩) ih
    rw [List.length_take]
    omega
  | case3 b rest n hbad ih =>
    rw [putSlice, if_neg hbad]
    exact .cons (c := [63]) (.one (by decide)) ih

theorem putSlice_of_lax (h : Lax s) : putSlice s = s := by
  induction h with
  | nil => rw [putSlice]
  | cons hc _ ih => rw [putSlice_sequence hc, ih]

theorem putSlice_eq_self_iff : putSlice s = s ↔ Lax s :=
  ⟨fun h => h ▸ putSlice_lax s, putSlice_of_lax⟩

theorem putSlice_replaces (s : List UInt8) :
    List.Forall₂ (fun a b => b = a ∨ b = 63) s (putSlice s) := by
  have hrefl : ∀ u : List UInt8, List.Forall₂ (fun a b => b = a ∨ b = 63) u u := fun u =>
    List.forall₂_same.mpr fun _ _ => .inl rfl
  induction s using putSlice.induct with
  | case1 =>
    rw [putSlice]
    exact .nil
  | case2 b rest n hok ih =>
    rw [putSlice, if_pos hok]
    refine .cons (.inl rfl) ?_
    conv => enter [2]; rw [← List.take_append_drop (n - 1) rest]
    exact List.rel_append (hrefl _) ih
  | case3 b rest n hbad ih =>
    rw [putSlice, if_neg hbad]
    exact .cons (.inr rfl) ih

theorem putSlice_length (s : List UInt8) : (putSlice s).length = s.length :=
  (putSlice_replaces s).length_eq.symm

theorem putBytes_lossy (s : List UInt8) :
    ∃ out, putBytes s = .some out ∧ out.length = s.length ∧ (out = s ↔ Lax s) ∧ Lax out ∧
      List.Forall₂ (fun a b => b = a ∨ b = 63) s out ∧ putBytes out = .some out :=
  ⟨putSlice s, putBytes_eq s, putSlice_length s, putSlice_eq_self_iff, putSlice_lax s,
    putSlice_replaces s, by rw [putBytes_eq, putSlice_of_lax (putSlice_lax s)]⟩

end Ltop
