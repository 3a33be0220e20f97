import Mathlib
import Ltop.Label

namespace Ltop.Label

open Numeral PidDir

variable {i : ℕ} {head n h k : UInt64} {b : UInt8} {p s g rest name : List UInt8}
  {sentinels : List (List UInt8)}

def wrapFrom (n : UInt64) (s : List UInt8) : UInt64 :=
  s.foldl (fun n b => n * 10 + (b - 48).toUInt64) n

theorem wrapFrom_append (n : UInt64) (s t : List UInt8) :
    wrapFrom n (s ++ t) = wrapFrom (wrapFrom n s) t := List.foldl_append

theorem digit_toUInt64 (h : isDigit b) : (b - 48).toUInt64.toNat = digit b := by
  simp only [isDigit, Bool.and_eq_true, decide_eq_true_eq] at h
  rw [UInt8.toNat_toUInt64]
  exact UInt8.toNat_sub_of_le _ _ h.1

theorem wrapFrom_toNat (h : AllDigits s) : (wrapFrom 0 s).toNat = value s % 2 ^ 64 := by
  induction s using List.reverseRecOn with
  | nil => rfl
  | append_singleton s b ih =>
    obtain ⟨hs, hb⟩ := List.forall_mem_append.mp h
    have hdigit := digit_toUInt64 (hb b (List.mem_singleton_self b))
    have hstep : wrapFrom 0 (s ++ [b]) = wrapFrom 0 s * 10 + (b - 48).toUInt64 :=
      wrapFrom_append 0 s [b]
    have hten : (10 : UInt64).toNat = 10 := rfl
    rw [hstep, UInt64.toNat_add, UInt64.toNat_mul, hten, hdigit, ih hs, value_concat]
    omega

theorem wrapFrom_sentinel (h : AllDigits s) : wrapFrom 0 s = NO_START ↔ Sentinel s := by
  rw [← UInt64.toNat_inj, wrapFrom_toNat h]
  rfl

theorem Sentinel.ne_nil (h : Sentinel s) : s ≠ [] := by
  rintro rfl
  have hempty : ¬ 0 % 2 ^ 64 = 2 ^ 64 - 1 := by decide
  exact hempty h

theorem digit_ne_dot (h : isDigit b) : b ≠ 46 := by
  rintro rfl
  exact absurd h (by decide)

theorem no_dot (h : AllDigits s) : (46 : UInt8) ∉ s := fun hin => digit_ne_dot (h 46 hin) rfl

theorem scan_digits (hg : AllDigits g) (i : ℕ) (head n : UInt64) (rest : List UInt8) :
    scanName i head n (g ++ rest) = scanName (i + g.length) head (wrapFrom n g) rest := by
  induction g generalizing i n with
  | nil => rfl
  | cons b g ih =>
    obtain ⟨hb, hg⟩ := allDigits_cons.mp hg
    rw [List.cons_append, scanName, if_neg fun h => digit_ne_dot hb h.1, if_pos hb, ih hg,
      List.length_cons, Nat.add_assoc, Nat.add_comm 1]
    rfl

theorem scan_dot (hi : 0 < i) (n : UInt64) (rest : List UInt8) :
    scanName i NO_START n (46 :: rest) = scanName (i + 1) n 0 rest := by
  rw [scanName, if_pos ⟨rfl, rfl, hi⟩]

theorem scan_chain (hc : Chain sentinels) (i : ℕ) (rest : List UInt8) :
    scanName i NO_START 0 (chained sentinels ++ rest) =
      scanName (i + (chained sentinels).length) NO_START 0 rest := by
  induction sentinels generalizing i with
  | nil => rfl
  | cons g sentinels ih =>
    obtain ⟨⟨hdigits, hg⟩, hc⟩ := List.forall_mem_cons.mp hc
    have hpos := List.length_pos_of_ne_nil hg.ne_nil
    have hname : chained (g :: sentinels) ++ rest = g ++ 46 :: (chained sentinels ++ rest) := by
      simp [chained]
    have hlen : (chained (g :: sentinels)).length = g.length + 1 + (chained sentinels).length := by
      rw [chained, List.flatMap_cons, List.length_append, List.length_append, List.length_singleton]
      rfl
    rw [hname, scan_digits hdigits, scan_dot (by omega), (wrapFrom_sentinel hdigits).mpr hg, ih hc,
      hlen]
    congr 1
    omega

theorem scan_pair (hc : Chain sentinels) (hp : AllDigits p) (hs : AllDigits s)
    (hne : sentinels = [] → p ≠ []) :
    scanName 0 NO_START 0 (chained sentinels ++ (p ++ 46 :: s)) =
      some (wrapFrom 0 p, wrapFrom 0 s) := by
  have hpos : 0 < 0 + (chained sentinels).length + p.length := by
    cases sentinels with
    | nil =>
      have := List.length_pos_of_ne_nil (hne rfl)
      omega
    | cons g sentinels =>
      simp only [chained, List.flatMap_cons, List.length_append, List.length_singleton]
      omega
  have hend : ∀ j, 0 < j → scanName j (wrapFrom 0 p) 0 s = some (wrapFrom 0 p, wrapFrom 0 s) := by
    intro j hj
    have hscan := scan_digits hs j (wrapFrom 0 p) 0 []
    rw [List.append_nil] at hscan
    rw [hscan, scanName, if_pos (by omega)]
  rw [scan_chain hc, scan_digits hp, scan_dot hpos, hend _ (by omega)]

theorem next_pair (hc : Chain sentinels) (hp : AllDigits p) (hs : AllDigits s)
    (hne : sentinels = [] → p ≠ []) (hlast : ¬ Sentinel p) :
    next (chained sentinels ++ (p ++ 46 :: s)) = some ((wrapFrom 0 p).toUInt32, wrapFrom 0 s) := by
  rw [next, scan_pair hc hp hs hne]
  exact if_neg fun h => hlast ((wrapFrom_sentinel hp).mp h)

theorem next_sentinel (hp : Numeric p) (hs : Numeric s) (h : Sentinel p ∨ Sentinel s) :
    ∃ pid, next (p ++ 46 :: s) = some (pid, NO_START) := by
  have hchain : Chain [] := fun g hg => absurd hg List.not_mem_nil
  have hscan := scan_pair hchain hp.2 hs.2 fun _ => hp.1
  rcases h with h | h
  · refine ⟨(wrapFrom 0 s).toUInt32, ?_⟩
    rw [next, show p ++ 46 :: s = chained [] ++ (p ++ 46 :: s) from rfl, hscan]
    exact if_pos ((wrapFrom_sentinel hp.2).mpr h)
  · by_cases hlast : Sentinel p
    · refine ⟨(wrapFrom 0 s).toUInt32, ?_⟩
      rw [next, show p ++ 46 :: s = chained [] ++ (p ++ 46 :: s) from rfl, hscan]
      exact if_pos ((wrapFrom_sentinel hp.2).mpr hlast)
    · have hnext := next_pair hchain hp.2 hs.2 (fun _ => hp.1) hlast
      rw [(wrapFrom_sentinel hs.2).mpr h] at hnext
      exact ⟨_, hnext⟩

theorem scan_tail {r : UInt64 × UInt64} (hhead : head ≠ NO_START)
    (hr : scanName i head n s = some r) : AllDigits s ∧ r = (head, wrapFrom n s) := by
  induction s generalizing i n with
  | nil =>
    rw [scanName] at hr
    obtain ⟨-, hr⟩ := Option.ite_none_right_eq_some.mp hr
    exact ⟨fun b hb => absurd hb List.not_mem_nil, (Option.some.inj hr).symm⟩
  | cons b s ih =>
    rw [scanName, if_neg fun h => hhead h.2.1] at hr
    obtain ⟨hb, hr⟩ := Option.ite_none_right_eq_some.mp hr
    obtain ⟨hs, rfl⟩ := ih hr
    exact ⟨allDigits_cons.mpr ⟨hb, hs⟩, rfl⟩

theorem scan_some {done : List UInt8} (hdone : AllDigits done)
    (hr : scanName i NO_START (wrapFrom 0 done) name = some (h, k)) (hh : h ≠ NO_START) :
    ∃ sentinels p s, Chain sentinels ∧ AllDigits p ∧ AllDigits s ∧
      (sentinels = [] → i = done.length → p ≠ []) ∧
      done ++ name = chained sentinels ++ (p ++ 46 :: s) ∧ h = wrapFrom 0 p ∧ k = wrapFrom 0 s := by
  induction name generalizing i done with
  | nil =>
    rw [scanName] at hr
    obtain ⟨-, hr⟩ := Option.ite_none_right_eq_some.mp hr
    exact absurd (Prod.mk.inj (Option.some.inj hr)).1.symm hh
  | cons b name ih =>
    rw [scanName] at hr
    split at hr
    · rename_i hdot
      obtain ⟨rfl, -, hi⟩ := hdot
      by_cases hlast : wrapFrom 0 done = NO_START
      · rw [hlast] at hr
        obtain ⟨sentinels, p, s, hc, hp, hs, -, hname, hvals⟩ :=
          @ih _ [] (fun b hb => absurd hb List.not_mem_nil) hr
        have hg := (wrapFrom_sentinel hdone).mp hlast
        refine ⟨done :: sentinels, p, s, List.forall_mem_cons.mpr ⟨⟨hdone, hg⟩, hc⟩, hp, hs,
          fun h => absurd h (List.cons_ne_nil _ _), ?_, hvals⟩
        rw [List.nil_append] at hname
        rw [hname, chained, chained, List.flatMap_cons, List.append_assoc, List.append_assoc]
        rfl
      · obtain ⟨hs, hr⟩ := scan_tail hlast hr
        obtain ⟨rfl, rfl⟩ := Prod.mk.inj hr
        refine ⟨[], done, name, fun g hg => absurd hg List.not_mem_nil, hdone, hs, ?_, rfl, rfl, rfl⟩
        rintro - hlen rfl
        exact absurd hlen hi.ne'
    · obtain ⟨hb, hr⟩ := Option.ite_none_right_eq_some.mp hr
      have hdone' : AllDigits (done ++ [b]) :=
        hdone.append fun x hx => (List.mem_singleton.mp hx) ▸ hb
      have hwrap : wrapFrom 0 (done ++ [b]) = wrapFrom 0 done * 10 + (b - 48).toUInt64 :=
        wrapFrom_append 0 done [b]
      rw [← hwrap] at hr
      obtain ⟨sentinels, p, s, hc, hp, hs, hne, hname, hvals⟩ := ih hdone' hr
      refine ⟨sentinels, p, s, hc, hp, hs, fun hnil hlen => hne hnil ?_, ?_, hvals⟩
      · rw [hlen, List.length_append, List.length_singleton]
      · rw [← hname, List.append_assoc, List.singleton_append]

theorem next_some {pid : UInt32} {start : UInt64} (hn : next name = some (pid, start))
    (hstart : start ≠ NO_START) :
    ∃ sentinels p s, Chain sentinels ∧ AllDigits p ∧ AllDigits s ∧ ¬ Sentinel p ∧ ¬ Sentinel s ∧
      (sentinels = [] → p ≠ []) ∧ name = chained sentinels ++ (p ++ 46 :: s) ∧
      pid = (wrapFrom 0 p).toUInt32 ∧ start = wrapFrom 0 s := by
  unfold next at hn
  split at hn
  · cases hn
  · rename_i head n hscan
    split at hn
    · exact absurd (Prod.mk.inj (Option.some.inj hn)).2.symm hstart
    · rename_i hhead
      obtain ⟨rfl, rfl⟩ := Prod.mk.inj (Option.some.inj hn)
      have hempty : AllDigits [] := fun b hb => absurd hb List.not_mem_nil
      obtain ⟨sentinels, p, s, hc, hp, hs, hne, hname, rfl, rfl⟩ := scan_some hempty hscan hhead
      exact ⟨sentinels, p, s, hc, hp, hs, fun h => hhead ((wrapFrom_sentinel hp).mpr h),
        fun h => hstart ((wrapFrom_sentinel hs).mpr h), fun h => hne h rfl, hname, rfl, rfl⟩

theorem pidDigits_dot (hg : AllDigits g) (hi : i + g.length ≤ 17) (rest : List UInt8) :
    pidDigits i (g ++ 46 :: rest) = some g := by
  induction g generalizing i with
  | nil => rw [List.nil_append, pidDigits, if_pos rfl]
  | cons b g ih =>
    obtain ⟨hb, hg⟩ := allDigits_cons.mp hg
    rw [List.length_cons] at hi
    rw [List.cons_append, pidDigits, if_neg (digit_ne_dot hb), if_neg (by omega), ih hg (by omega)]
    rfl

theorem pidDigits_long (hg : AllDigits g) (hi : 17 < i + g.length) (hle : i ≤ 17)
    (rest : List UInt8) : pidDigits i (g ++ rest) = none := by
  induction g generalizing i with
  | nil =>
    rw [List.length_nil] at hi
    omega
  | cons b g ih =>
    obtain ⟨hb, hg⟩ := allDigits_cons.mp hg
    rw [List.length_cons] at hi
    rw [List.cons_append, pidDigits, if_neg (digit_ne_dot hb)]
    by_cases hlast : i > 16
    · exact if_pos hlast
    · rw [if_neg hlast, ih hg (by omega) (by omega)]
      rfl

variable {t : ProcessTable} {pid : UInt32} {start : UInt64}

theorem startTime_live {q : Process} (hq : q ∈ t.processes) :
    startTime t pid (decimal q.pid.toNat ++ 46 :: rest) = some q.start := by
  have hlen : (decimal q.pid.toNat).length ≤ 10 :=
    decimal_length_le (by decide) (q.pid.toNat_lt.trans (by decide))
  have hread : readSmallFile t.openStat (ProcessTable.statPath (decimal q.pid.toNat)) 480 =
      some (q.stat.take 480) := by
    rw [readSmallFile, ProcessTable.openStat_live hq]
    exact if_neg q.stat_take_ne_nil
  unfold startTime
  rw [pidDigits_dot (decimal_allDigits _) (by omega)]
  simp only [hread, q.statStart_stat]

theorem startTime_some (hp : AllDigits p)
    (hstart : startTime t pid (p ++ 46 :: rest) = some start) :
    ∃ q ∈ t.processes, p = decimal q.pid.toNat ∧ q.start = start := by
  have hdigits : pidDigits 6 (p ++ 46 :: rest) = some p := by
    rcases Nat.lt_or_ge 17 (6 + p.length) with hlong | hshort
    · rw [startTime, pidDigits_long hp hlong (by omega)] at hstart
      cases hstart
    · exact pidDigits_dot hp hshort rest
  have hopen : ∃ content, t.openStat (ProcessTable.statPath p) = some content := by
    cases hfile : t.openStat (ProcessTable.statPath p) with
    | none =>
      simp only [startTime, hdigits, readSmallFile, hfile] at hstart
      cases hstart
    | some content => exact ⟨content, rfl⟩
  obtain ⟨content, hopen⟩ := hopen
  obtain ⟨q, hq, rfl⟩ := ProcessTable.openStat_some hopen
  rw [startTime_live hq] at hstart
  exact ⟨q, hq, rfl, Option.some.inj hstart⟩

theorem startTime_chain (hc : Chain sentinels) (hne : sentinels ≠ []) :
    startTime t pid (chained sentinels ++ rest) = none := by
  obtain ⟨g, sentinels, rfl⟩ := List.exists_cons_of_ne_nil hne
  obtain ⟨hdigits, hg⟩ := hc g List.mem_cons_self
  have hlong : 17 < 6 + g.length := by
    by_contra hshort
    have hbig : 2 ^ 64 - 1 ≤ value g := hg.ge.trans (Nat.mod_le _ _)
    have hpow : 10 ^ g.length ≤ 10 ^ 11 := Nat.pow_le_pow_right (by decide) (by omega)
    have := value_lt hdigits
    omega
  have hname : chained (g :: sentinels) ++ rest = g ++ (46 :: (chained sentinels ++ rest)) := by
    simp [chained]
  rw [startTime, hname, pidDigits_long hdigits hlong (by omega)]

end Ltop.Label
