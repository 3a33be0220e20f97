import Mathlib
import Ltop.OsBinary
import Ltop.Procfs

namespace Ltop

open Numeral

def parseStatBytes (stat : List UInt8) : Outcome (List UInt8 × List UInt8) :=
  let opening := (bytePosition (· == 40) stat).getD 0
  match byteRposition (· == 41) stat with
  | none => .some ([], [])
  | some close => do
    let comm ← Os.slice stat (opening + 1) close
    let tail ← Os.slice stat (close + 1) stat.length
    match bytePosition (fun b => !isAsciiWhitespace b) tail with
    | none => .some (comm, [])
    | some i => do
      let after ← Os.slice stat (close + 1 + i) stat.length
      .some (comm, after)

def statFields (stat : List UInt8) : Outcome (List (List UInt8)) := do
  return splitAsciiWhitespace (← parseStatBytes stat).2

def statText (pid comm rest : List UInt8) : List UInt8 := pid ++ [32, 40] ++ comm ++ [41, 32] ++ rest

def Parenthesised (s : List UInt8) : Prop := ∃ a b c, s = a ++ 40 :: b ++ 41 :: c ∧ 41 ∉ c

def Tolerated (s : List UInt8) : Prop :=
  ∃ out, parseStatBytes s = .some out ∧ (¬ Parenthesised s → out = ([], []))

def LoneClose (s : List UInt8) : Prop :=
  ∃ b c, s = b :: 41 :: c ∧ 40 ∉ s ∧ ∀ x ∈ c, isAsciiWhitespace x

variable {p : UInt8 → Bool} {b : UInt8} {s u v c d pid comm rest : List UInt8}

theorem bytePosition_none (h : ∀ x ∈ s, p x = false) : bytePosition p s = none :=
  List.findIdx?_eq_none_iff.mpr h

theorem byteRposition_none (h : ∀ x ∈ s, p x = false) : byteRposition p s = none := by
  rw [byteRposition, List.findIdx?_eq_none_iff.mpr fun x hx => h x (List.mem_reverse.mp hx)]
  rfl

theorem last_split (h : b ∈ s) : ∃ u c, s = u ++ b :: c ∧ b ∉ c := by
  obtain ⟨v, w, hv, hb⟩ := List.eq_append_cons_of_mem (List.mem_reverse.mpr h)
  refine ⟨w.reverse, v.reverse, ?_, fun hin => hb (List.mem_reverse.mp hin)⟩
  rw [← List.reverse_reverse s, hv]
  simp

theorem last_unique (hc : b ∉ c) (hd : b ∉ d) (h : u ++ b :: c = v ++ b :: d) : u = v ∧ c = d := by
  have hpos : ∀ {x y : List UInt8}, b ∉ y → byteRposition (· == b) (x ++ b :: y) = some x.length :=
    fun hy => byteRposition_append (fun z hz => by simpa using fun hzb : z = b => hy (hzb ▸ hz))
      (beq_self_eq_true b)
  have hlen := (hpos hc).symm.trans ((congrArg _ h).trans (hpos hd))
  obtain ⟨hu, hcons⟩ := List.append_inj h (Option.some.inj hlen)
  exact ⟨hu, (List.cons.inj hcons).2⟩

theorem skip_eq (s : List UInt8) :
    (match bytePosition (fun b => !isAsciiWhitespace b) s with
      | none => []
      | some i => s.drop i) = s.dropWhile isAsciiWhitespace := by
  induction s with
  | nil => rfl
  | cons b s ih =>
    rw [bytePosition, List.findIdx?_cons, List.dropWhile_cons, ← ih, bytePosition]
    cases hb : isAsciiWhitespace b with
    | false => rfl
    | true =>
      cases List.findIdx? (fun b => !isAsciiWhitespace b) s <;> rfl

theorem drop_past (u : List UInt8) (b : UInt8) (t : List UInt8) :
    (u ++ b :: t).drop (u.length + 1) = t := by
  rw [List.drop_append, Nat.add_sub_cancel_left, List.drop_of_length_le (by omega)]
  rfl

theorem slice_middle {lo : ℕ} (hlo : lo ≤ u.length) (t : List UInt8) :
    Os.slice (u ++ t) lo u.length = .some (u.drop lo) := by
  rw [Os.slice, if_pos ⟨hlo, by simp⟩, List.drop_append_of_le_length hlo,
    ← List.length_drop, List.take_left]

theorem slice_end {k : ℕ} (hk : k ≤ s.length) : Os.slice s k s.length = .some (s.drop k) := by
  have h := slice_middle hk []
  rwa [List.append_nil] at h

theorem parseStat_last (hc : 41 ∉ c) :
    parseStatBytes (u ++ 41 :: c) =
      if (bytePosition (· == 40) (u ++ 41 :: c)).getD 0 < u.length then
        .some (u.drop ((bytePosition (· == 40) (u ++ 41 :: c)).getD 0 + 1),
          c.dropWhile isAsciiWhitespace)
      else .fault .index := by
  have hclose : byteRposition (· == 41) (u ++ 41 :: c) = some u.length :=
    byteRposition_append (fun x hx => by simpa using fun h : x = 41 => hc (h ▸ hx)) rfl
  have hlen : u.length + 1 ≤ (u ++ 41 :: c).length := by simp
  have hdrop := drop_past u 41 c
  unfold parseStatBytes
  rw [hclose]
  dsimp only
  split
  · rename_i hopen
    rw [slice_middle hopen, Outcome.some_bind, slice_end hlen, Outcome.some_bind, hdrop, ← skip_eq]
    cases hskip : bytePosition (fun b => !isAsciiWhitespace b) c with
    | none => rfl
    | some i =>
      obtain ⟨hi, -⟩ := List.findIdx?_eq_some_iff_getElem.mp hskip
      have hend : u.length + 1 + i ≤ (u ++ 41 :: c).length := by
        rw [List.length_append, List.length_cons]
        omega
      dsimp only
      rw [slice_end hend, Outcome.some_bind, ← List.drop_drop, hdrop]
  · rename_i hopen
    rw [Os.slice, if_neg fun h => hopen h.1]
    rfl

theorem parseStat_empty (h : 41 ∉ s) : parseStatBytes s = .some ([], []) := by
  unfold parseStatBytes
  rw [byteRposition_none fun x hx => by simpa using fun hx41 : x = 41 => h (hx41 ▸ hx)]

theorem opening_eq {a t : List UInt8} (ha : 40 ∉ a) :
    bytePosition (· == 40) (a ++ 40 :: t) = some a.length :=
  bytePosition_append (fun x hx => by simpa using fun h : x = 40 => ha (h ▸ hx)) rfl

theorem parenthesised_iff (hc : 41 ∉ c) : Parenthesised (u ++ 41 :: c) ↔ 40 ∈ u := by
  constructor
  · rintro ⟨a, b, c', heq, hc'⟩
    obtain ⟨rfl, -⟩ := last_unique hc hc' heq
    simp
  · intro h
    obtain ⟨a, b, rfl⟩ := List.append_of_mem h
    exact ⟨a, b, c, rfl, hc⟩

theorem space_ne_close (h : ∀ x ∈ c, isAsciiWhitespace x) : 41 ∉ c := fun hin =>
  absurd (h 41 hin) (by decide)

theorem loneClose_iff (hc : 41 ∉ c) :
    LoneClose (u ++ 41 :: c) ↔ ∃ b, u = [b] ∧ 40 ∉ u ∧ 40 ∉ c ∧ ∀ x ∈ c, isAsciiWhitespace x := by
  constructor
  · rintro ⟨b, d, heq, hopen, hspace⟩
    obtain ⟨rfl, rfl⟩ := last_unique hc (space_ne_close hspace) (v := [b]) heq
    exact ⟨b, rfl, fun h => hopen (List.mem_append_left _ h),
      fun h => hopen (List.mem_append_right [b] (List.mem_cons_of_mem _ h)), hspace⟩
  · rintro ⟨b, rfl, hu, hc40, hspace⟩
    refine ⟨b, c, rfl, ?_, hspace⟩
    simpa [hc40] using hu

theorem parseStat_lone (hc : 41 ∉ c) (hu : 40 ∉ u) :
    (∃ out, parseStatBytes (u ++ 41 :: c) = .some out ∧ out = ([], [])) ↔
      LoneClose (u ++ 41 :: c) := by
  rw [parseStat_last hc, loneClose_iff hc]
  by_cases hopen : 40 ∈ c
  · obtain ⟨a, t, rfl, ha⟩ := List.eq_append_cons_of_mem hopen
    have hpos : bytePosition (· == 40) (u ++ 41 :: (a ++ 40 :: t)) = some (u ++ 41 :: a).length := by
      rw [← List.cons_append, ← List.append_assoc]
      exact opening_eq (by simp [hu, ha])
    have hlate : ¬ (u ++ 41 :: a).length < u.length := by
      rw [List.length_append]
      omega
    rw [hpos, Option.getD_some, if_neg hlate]
    exact iff_of_false (by simp) fun ⟨_, _, _, h, _⟩ => h hopen
  · have hpos : bytePosition (· == 40) (u ++ 41 :: c) = none := by
      refine bytePosition_none fun x hx => ?_
      simp only [List.mem_append, List.mem_cons] at hx
      simp only [beq_eq_false_iff_ne, ne_eq]
      rintro rfl
      rcases hx with hx | hx | hx
      · exact hu hx
      · exact absurd hx (by decide)
      · exact hopen hx
    rw [hpos, Option.getD_none]
    cases u with
    | nil => simp
    | cons x u =>
      rw [if_pos (by simp)]
      simp only [Outcome.some.injEq, exists_eq_left', Prod.mk.injEq, List.dropWhile_eq_nil_iff,
        List.drop_succ_cons, List.drop_zero, List.cons.injEq]
      constructor
      · rintro ⟨rfl, hspace⟩
        exact ⟨x, ⟨rfl, rfl⟩, hu, hopen, hspace⟩
      · rintro ⟨_, ⟨-, rfl⟩, -, -, hspace⟩
        exact ⟨rfl, hspace⟩

theorem tolerated_iff (s : List UInt8) :
    Tolerated s ↔ 41 ∉ s ∨ Parenthesised s ∨ LoneClose s := by
  by_cases hs : 41 ∈ s
  · obtain ⟨u, c, rfl, hc⟩ := last_split hs
    have hparen := parenthesised_iff (u := u) hc
    simp only [hs, not_true, false_or, Tolerated]
    by_cases hu : 40 ∈ u
    · refine iff_of_true ?_ (.inl (hparen.mpr hu))
      obtain ⟨a, t, rfl, ha⟩ := List.eq_append_cons_of_mem hu
      rw [parseStat_last hc, List.append_assoc, List.cons_append, opening_eq ha, Option.getD_some,
        if_pos (by simp)]
      exact ⟨_, rfl, fun h => absurd (hparen.mpr hu) (by simpa using h)⟩
    · have hnot : ¬ Parenthesised (u ++ 41 :: c) := fun h => hu (hparen.mp h)
      simp only [hnot, not_false_eq_true, true_imp_iff, false_or]
      exact parseStat_lone hc hu
  · exact iff_of_true ⟨_, parseStat_empty hs, fun _ => rfl⟩ (.inl hs)

theorem splitAsciiWhitespace_skip (s : List UInt8) :
    splitAsciiWhitespace (s.dropWhile isAsciiWhitespace) = splitAsciiWhitespace s := by
  induction s with
  | nil => rfl
  | cons b s ih =>
    cases hb : isAsciiWhitespace b with
    | false => rw [List.dropWhile_cons_of_neg (by simp [hb])]
    | true =>
      rw [List.dropWhile_cons_of_pos hb, ih]
      simp [splitAsciiWhitespace, List.splitOnP_cons_eq_if_modifyHead, hb]

theorem parseStat_text (hpid : AllDigits pid) (comm : List UInt8) (hrest : 41 ∉ rest) :
    parseStatBytes (statText pid comm rest) = .some (comm, rest.dropWhile isAsciiWhitespace) := by
  have hopen : 40 ∉ pid ++ [32] := fun h => by
    rcases List.mem_append.mp h with h | h
    · exact absurd (hpid 40 h) (by decide)
    · exact absurd h (by decide)
  have htext : statText pid comm rest = ((pid ++ [32]) ++ 40 :: comm) ++ 41 :: 32 :: rest := by
    simp [statText]
  have hclose : 41 ∉ 32 :: rest := by simpa using hrest
  rw [htext, parseStat_last hclose, List.append_assoc, List.cons_append, opening_eq hopen,
    Option.getD_some, if_pos (by simp), List.dropWhile_cons_of_pos (by decide), drop_past]

theorem statFields_text (hpid : AllDigits pid) (comm : List UInt8) (hrest : 41 ∉ rest) :
    statFields (statText pid comm rest) = .some (splitAsciiWhitespace rest) := by
  rw [statFields, parseStat_text hpid comm hrest, Outcome.some_bind, splitAsciiWhitespace_skip]
  rfl

theorem slice_some {lo hi : ℕ} (h : Os.slice s lo hi = .some u) :
    hi ≤ s.length ∧ u = (s.take hi).drop lo := by
  unfold Os.slice at h
  split at h
  · rename_i hle
    obtain rfl := Outcome.some.inj h
    exact ⟨hle.2, List.drop_take.symm⟩
  · cases h

theorem slice_rest {lo : ℕ} (h : Os.slice s lo s.length = .some u) : u = s.drop lo := by
  rw [(slice_some h).2, List.take_length]

theorem parseStat_agrees {out : List UInt8 × List UInt8} (h : parseStatBytes s = .some out) :
    parseStat s = out := by
  unfold parseStatBytes at h
  unfold parseStat
  cases hclose : byteRposition (· == 41) s with
  | none =>
    rw [hclose] at h
    exact Outcome.some.inj h
  | some close =>
    rw [hclose] at h
    obtain ⟨comm, hcomm, h⟩ := Outcome.bind_eq_some.mp h
    obtain ⟨tail, htail, h⟩ := Outcome.bind_eq_some.mp h
    obtain rfl := slice_rest htail
    dsimp only
    rw [← (slice_some hcomm).2]
    cases hskip : bytePosition (fun b => !isAsciiWhitespace b) (s.drop (close + 1)) with
    | none =>
      rw [hskip] at h
      exact Outcome.some.inj h
    | some i =>
      rw [hskip] at h
      obtain ⟨after, hafter, h⟩ := Outcome.bind_eq_some.mp h
      dsimp only
      rw [List.drop_drop, ← slice_rest hafter]
      exact Outcome.some.inj h

theorem parseStat_tolerated_iff (s : List UInt8) :
    (Tolerated s ↔ 41 ∉ s ∨ Parenthesised s ∨ LoneClose s) ∧
      ∀ pid comm rest, AllDigits pid → 41 ∉ rest →
        parseStatBytes (statText pid comm rest) =
            .some (comm, rest.dropWhile isAsciiWhitespace) ∧
          statFields (statText pid comm rest) = .some (splitAsciiWhitespace rest) :=
  ⟨tolerated_iff s, fun _ comm _ hpid hrest =>
    ⟨parseStat_text hpid comm hrest, statFields_text hpid comm hrest⟩⟩

theorem parseStat_tolerated_text :
    (Tolerated [41, 40] ↔
        (41 : UInt8) ∉ [(41 : UInt8), 40] ∨ Parenthesised [41, 40] ∨ LoneClose [41, 40]) ∧
      parseStatBytes (statText [55] [41, 32, 40, 10] [82, 32, 49]) =
        .some ([41, 32, 40, 10], [82, 32, 49]) :=
  ⟨(parseStat_tolerated_iff [41, 40]).1,
    ((parseStat_tolerated_iff [41, 40]).2 [55] [41, 32, 40, 10] [82, 32, 49] (by decide) (by decide)).1⟩

theorem parseStat_crossed : parseStatBytes [41, 40] = .fault .index ∧ ¬ ∀ s, Tolerated s := by
  have hfault : parseStatBytes [41, 40] = .fault .index := rfl
  refine ⟨hfault, fun h => ?_⟩
  obtain ⟨out, hout, -⟩ := h [41, 40]
  rw [hfault] at hout
  cases hout

end Ltop
