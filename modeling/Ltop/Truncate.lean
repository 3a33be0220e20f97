import Mathlib
import Ltop.Lossy

namespace Ltop

def boundaryLoop (s : List UInt8) : ℕ → Outcome ℕ
  | 0 => .some 0
  | n + 1 => do
    if isContinuation (← byteAt s (n + 1)) then boundaryLoop s n else .some (n + 1)

def truncateBytes (s : List UInt8) (max : ℕ) : Outcome (List UInt8) :=
  if s.length ≤ max then putBytes s
  else do
    let target := if max > 3 then max - 3 else max
    let n ← boundaryLoop s target
    let out ← putBytes (← Os.slice s 0 n)
    return out ++ if max > 3 then bytes "..." else []

def encode (cs : List Char) : List UInt8 := cs.flatMap String.utf8EncodeChar

def CharBoundary (s : List UInt8) (k : ℕ) : Prop :=
  ∃ cs ds, s = encode cs ++ encode ds ∧ (encode cs).length = k

def cutLimit (s : List UInt8) (max : ℕ) : ℕ :=
  if s.length ≤ max then s.length else if max > 3 then max - 3 else max

variable {s t : List UInt8} {b : UInt8} {n k max : ℕ}

theorem boundaryLoop_eq (h : n < s.length) : boundaryLoop s n = .some (boundary s n) := by
  induction n with
  | zero => rfl
  | succ n ih =>
    rw [boundaryLoop, byteAt_eq h, Outcome.some_bind, boundary, List.getElem?_eq_getElem h]
    dsimp only
    rw [ih (by omega)]
    split <;> rfl

theorem truncate_narrow (h : max < s.length) :
    truncate s max = putSlice (s.take (boundary s (if max > 3 then max - 3 else max))) ++
      if max > 3 then bytes "..." else [] := if_neg (not_le.mpr h)

theorem target_lt (h : max < s.length) : (if max > 3 then max - 3 else max) < s.length := by
  split <;> omega

theorem truncateBytes_eq (s : List UInt8) (max : ℕ) : truncateBytes s max = .some (truncate s max) := by
  unfold truncateBytes truncate
  split
  · exact putBytes_eq s
  · rename_i h
    have hlt := target_lt (not_le.mp h)
    have hle := boundary_le s (if max > 3 then max - 3 else max)
    dsimp only
    rw [boundaryLoop_eq hlt, Outcome.some_bind, slice_eq (Nat.zero_le _) (hle.trans hlt.le),
      Outcome.some_bind, putBytes_eq]
    rfl

theorem boundary_starts (h : n < s.length) (hpos : 0 < boundary s n) :
    ∃ b, s[boundary s n]? = some b ∧ isContinuation b = false := by
  induction n with
  | zero => exact absurd hpos (lt_irrefl 0)
  | succ n ih =>
    rw [boundary, List.getElem?_eq_getElem h] at hpos ⊢
    dsimp only at hpos ⊢
    split at hpos
    · rename_i hcont
      rw [if_pos hcont]
      exact ih (by omega) hpos
    · rename_i hcont
      rw [if_neg hcont]
      exact ⟨_, List.getElem?_eq_getElem h, Bool.eq_false_iff.mpr hcont⟩

theorem boundary_skips (h : n < s.length) (hlo : boundary s n < k) (hhi : k ≤ n) :
    ∃ b, s[k]? = some b ∧ isContinuation b := by
  induction n with
  | zero => exact absurd hhi (by omega)
  | succ n ih =>
    rw [boundary, List.getElem?_eq_getElem h] at hlo
    dsimp only at hlo
    split at hlo
    · rename_i hcont
      rcases Nat.lt_or_ge n k with hk | hk
      · obtain rfl : k = n + 1 := by omega
        exact ⟨_, List.getElem?_eq_getElem h, hcont⟩
      · exact ih (by omega) hlo hk
    · omega

theorem sequence_utf8EncodeChar (c : Char) : Sequence (String.utf8EncodeChar c) := by
  have hvalid : c.val.toNat < 0x110000 := by
    rcases c.valid with h | h <;> omega
  have htail : ∀ v, IsTail (UInt8.ofNat (v % 64 + 128)) := fun v => by
    simp only [IsTail, UInt8.le_iff_toNat_le, UInt8.toNat_ofNat', UInt8.reduceToNat]
    omega
  unfold String.utf8EncodeChar
  dsimp only
  split_ifs
  · refine .one ?_
    simp only [UInt8.le_iff_toNat_le, UInt8.toNat_ofNat', UInt8.reduceToNat]
    omega
  · refine .two ?_ ?_ (htail _) <;>
      simp only [UInt8.le_iff_toNat_le, UInt8.toNat_ofNat', UInt8.reduceToNat] <;> omega
  · refine .three ?_ ?_ (htail _) (htail _) <;>
      simp only [UInt8.le_iff_toNat_le, UInt8.toNat_ofNat', UInt8.reduceToNat] <;> omega
  · refine .four ?_ ?_ (htail _) (htail _) (htail _) <;>
      simp only [UInt8.le_iff_toNat_le, UInt8.toNat_ofNat', UInt8.reduceToNat] <;> omega

theorem lax_encode (cs : List Char) : Lax (encode cs) := by
  induction cs with
  | nil => exact .nil
  | cons c cs ih => exact .cons (sequence_utf8EncodeChar c) ih

theorem leader_not_continuation (h : 0 < leaderLen b) : isContinuation b = false := by
  rw [← Bool.not_eq_true, isContinuation_iff]
  rintro ⟨hlo, hhi⟩
  rw [UInt8.le_iff_toNat_le] at hlo hhi
  have hzero : leaderLen b = 0 := by
    simp only [leaderLen, UInt8.lt_iff_toNat_lt, UInt8.reduceToNat] at hlo hhi ⊢
    split_ifs <;> omega
  omega

theorem encode_cons (c : Char) (cs : List Char) :
    ∃ b t, String.utf8EncodeChar c = b :: t ∧ encode (c :: cs) = b :: (t ++ encode cs) ∧
      isContinuation b = false ∧ t.all isContinuation := by
  have hseq := sequence_utf8EncodeChar c
  have hcons : encode (c :: cs) = String.utf8EncodeChar c ++ encode cs := rfl
  cases hc : String.utf8EncodeChar c with
  | nil => exact absurd hc String.utf8EncodeChar_ne_nil
  | cons b t =>
    rw [hc] at hseq hcons
    obtain ⟨hpos, -, htail⟩ := sequence_iff.mp hseq
    exact ⟨b, t, rfl, hcons, leader_not_continuation hpos, htail⟩

theorem CharBoundary.starts (h : CharBoundary s k) (hb : s[k]? = some b) :
    isContinuation b = false := by
  obtain ⟨cs, ds, rfl, rfl⟩ := h
  rw [List.getElem?_append_right le_rfl, Nat.sub_self] at hb
  cases ds with
  | nil => cases hb
  | cons d ds =>
    obtain ⟨b', t, -, heq, hstart, -⟩ := encode_cons d ds
    rw [heq] at hb
    obtain rfl := Option.some.inj hb
    exact hstart

theorem CharBoundary.of_starts {cs : List Char} (hb : (encode cs)[k]? = some b)
    (hstart : isContinuation b = false) : CharBoundary (encode cs) k := by
  induction cs generalizing k with
  | nil => cases hb
  | cons c cs ih =>
    obtain ⟨b', t, hc, heq, -, htail⟩ := encode_cons c cs
    cases k with
    | zero => exact ⟨[], c :: cs, rfl, rfl⟩
    | succ k =>
      rw [heq, List.getElem?_cons_succ] at hb
      rcases Nat.lt_or_ge k t.length with hk | hk
      · rw [List.getElem?_append_left hk] at hb
        have hcont := List.all_eq_true.mp htail b (List.mem_of_getElem? hb)
        exact absurd hcont (by simp [hstart])
      · rw [List.getElem?_append_right hk] at hb
        obtain ⟨ds, es, hsplit, hlen⟩ := ih hb
        have hcons : encode (c :: ds) = b' :: t ++ encode ds := congrArg (· ++ encode ds) hc
        refine ⟨c :: ds, es, ?_, ?_⟩
        · rw [heq, hsplit, hcons, List.append_assoc]
          rfl
        · rw [hcons, List.length_append, hlen, List.length_cons]
          omega

theorem boundary_char {cs : List Char} (h : n < (encode cs).length) :
    CharBoundary (encode cs) (boundary (encode cs) n) := by
  rcases Nat.eq_zero_or_pos (boundary (encode cs) n) with hzero | hpos
  · rw [hzero]
    exact ⟨[], cs, rfl, rfl⟩
  · obtain ⟨b, hb, hstart⟩ := boundary_starts h hpos
    exact .of_starts hb hstart

theorem boundary_longest (h : n < s.length) (hk : CharBoundary s k) (hle : k ≤ n) :
    k ≤ boundary s n := by
  by_contra hlt
  obtain ⟨b, hb, hcont⟩ := boundary_skips h (not_le.mp hlt) hle
  exact absurd hcont (by simp [hk.starts hb])

theorem CharBoundary.take_encode (h : CharBoundary s k) : ∃ cs, s.take k = encode cs := by
  obtain ⟨cs, ds, rfl, rfl⟩ := h
  exact ⟨cs, List.take_left⟩

def Cut (s : List UInt8) (max : ℕ) (p : List UInt8) : Prop :=
  p <+: s ∧ p.length ≤ cutLimit s max ∧ ∀ cs, s = encode cs → CharBoundary s p.length ∧
    ∀ k, CharBoundary s k → k ≤ cutLimit s max → k ≤ p.length

theorem cut_whole (h : s.length ≤ max) : Cut s max s := by
  rw [Cut, cutLimit, if_pos h]
  refine ⟨List.prefix_rfl, le_rfl, fun cs hs => ⟨⟨cs, [], ?_, ?_⟩, fun k _ hk => hk⟩⟩
  · rw [← hs]
    exact (List.append_nil s).symm
  · rw [← hs]

theorem cut_boundary (h : max < s.length) :
    Cut s max (s.take (boundary s (if max > 3 then max - 3 else max))) := by
  have hlt := target_lt h
  have hle := boundary_le s (if max > 3 then max - 3 else max)
  have hlen : (s.take (boundary s (if max > 3 then max - 3 else max))).length =
      boundary s (if max > 3 then max - 3 else max) := by
    rw [List.length_take]
    omega
  rw [Cut, cutLimit, if_neg (not_le.mpr h), hlen]
  refine ⟨List.take_prefix _ _, hle, ?_⟩
  rintro cs rfl
  exact ⟨boundary_char hlt, fun k hk hkle => boundary_longest hlt hk hkle⟩

theorem Cut.puts {p : List UInt8} {cs : List Char} (h : Cut s max p) (hs : s = encode cs) :
    putSlice p = p := by
  obtain ⟨hpre, -, hchars⟩ := h
  obtain ⟨ds, hds⟩ := (hchars cs hs).1.take_encode
  rw [List.prefix_iff_eq_take.mp hpre, hds]
  exact putSlice_of_lax (lax_encode ds)

theorem prefix_mark {p : List UInt8} (hpre : p <+: s) (ht : 63 ∉ t) {i : ℕ}
    (h : (p ++ t)[i]? = some 63) : s[i]? = some 63 := by
  rcases Nat.lt_or_ge i p.length with hi | hi
  · rw [List.getElem?_append_left hi] at h
    obtain ⟨u, rfl⟩ := hpre
    rwa [List.getElem?_append_left hi]
  · rw [List.getElem?_append_right hi] at h
    exact absurd (List.mem_of_getElem? h) ht

theorem truncate_length (s : List UInt8) (max : ℕ) : (truncate s max).length ≤ max := by
  have hdots : bytes "..." = [46, 46, 46] := rfl
  rcases Nat.lt_or_ge max s.length with h | h
  · have hle := boundary_le s (if max > 3 then max - 3 else max)
    rw [truncate_narrow h, List.length_append, putSlice_length, List.length_take]
    split_ifs at hle ⊢ <;> simp only [hdots, List.length_cons, List.length_nil] <;> omega
  · rwa [truncate_wide s h, putSlice_length]

theorem truncateBytes_spec (s : List UInt8) (max : ℕ) :
    ∃ p body out, Cut s max p ∧ putBytes p = .some body ∧ truncateBytes s max = .some out ∧
      out.length ≤ max ∧ (s.length ≤ max → p = s ∧ out = body) ∧
      (max < s.length → 3 < max → p.length ≤ max - 3 ∧ out = body ++ bytes "...") ∧
      (max < s.length → max ≤ 3 → p.length ≤ max ∧ out = body) ∧
      ∀ cs, s = encode cs → body = p ∧ ∀ i : ℕ, out[i]? = some 63 → s[i]? = some 63 := by
  have hdots : bytes "..." = [46, 46, 46] := rfl
  rcases Nat.lt_or_ge max s.length with h | h
  · have hcut := cut_boundary h
    have hout := truncateBytes_eq s max
    rw [truncate_narrow h] at hout
    have hlen := hcut.2.1
    rw [cutLimit, if_neg (not_le.mpr h)] at hlen
    refine ⟨_, _, _, hcut, putBytes_eq _, hout, ?_, fun hle => absurd h (not_lt.mpr hle), ?_, ?_, ?_⟩
    · rw [← truncate_narrow h]
      exact truncate_length s max
    · intro _ hmax
      rw [if_pos hmax] at hlen ⊢
      exact ⟨hlen, by rw [if_pos hmax]⟩
    · intro _ hmax
      rw [if_neg (not_lt.mpr hmax)] at hlen ⊢
      exact ⟨hlen, by rw [if_neg (not_lt.mpr hmax), List.append_nil]⟩
    · intro cs hs
      refine ⟨hcut.puts hs, fun i hi => ?_⟩
      rw [hcut.puts hs] at hi
      refine prefix_mark hcut.1 ?_ hi
      split <;> simp [hdots]
  · have hcut := cut_whole h
    have hout := truncateBytes_eq s max
    rw [truncate_wide s h] at hout
    refine ⟨s, _, _, hcut, putBytes_eq s, hout, by rwa [putSlice_length], fun _ => ⟨rfl, rfl⟩,
      fun hlt => absurd h (not_le.mpr hlt), fun hlt => absurd h (not_le.mpr hlt), fun cs hs => ?_⟩
    refine ⟨hcut.puts hs, fun i hi => ?_⟩
    rwa [hcut.puts hs] at hi

end Ltop
