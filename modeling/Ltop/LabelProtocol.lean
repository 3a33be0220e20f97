import Mathlib
import Ltop.LabelSweep

namespace Ltop.Label

open Numeral PidDir

variable {n : ℕ} {t : ProcessTable} {read : List UInt8 → Option (List UInt8)}
  {rows : Table .linux n} {i : Fin n} {p s p' s' name content : List UInt8}
  {names : List (List UInt8)} {sentinels : List (List UInt8)}

theorem split_dot (hp : 46 ∉ p) (hp' : 46 ∉ p') (h : p ++ 46 :: s = p' ++ 46 :: s') :
    p = p' ∧ s = s' := by
  induction p generalizing p' with
  | nil =>
    cases p' with
    | nil => exact ⟨rfl, List.tail_eq_of_cons_eq h⟩
    | cons b p' => exact absurd ((List.head_eq_of_cons_eq h) ▸ List.mem_cons_self) hp'
  | cons b p ih =>
    cases p' with
    | nil => exact absurd ((List.head_eq_of_cons_eq h) ▸ List.mem_cons_self) hp
    | cons b' p' =>
      obtain ⟨rfl, htail⟩ := List.cons.inj h
      obtain ⟨rfl, rfl⟩ := ih (fun hin => hp (List.mem_cons_of_mem _ hin))
        (fun hin => hp' (List.mem_cons_of_mem _ hin)) htail
      exact ⟨rfl, rfl⟩

theorem names_pair (hp : Numeric p) {pid start : ℕ} (h : Names (p ++ 46 :: s) pid start) :
    Numeric s ∧ value p = pid ∧ value s = start := by
  obtain ⟨p', s', heq, hp', hs', hpid, hstart⟩ := h
  obtain ⟨rfl, rfl⟩ := split_dot (no_dot hp.2) (no_dot hp'.2) heq
  exact ⟨hs', hpid, hstart⟩

theorem not_names_chain (hne : sentinels ≠ []) (hc : Chain sentinels) {pid start : ℕ} :
    ¬ Names (chained sentinels ++ (p ++ 46 :: s)) pid start := by
  rintro ⟨p', s', heq, hp', hs', -, -⟩
  obtain ⟨g, sentinels, rfl⟩ := List.exists_cons_of_ne_nil hne
  obtain ⟨hdigits, -⟩ := hc g List.mem_cons_self
  have hname : chained (g :: sentinels) ++ (p ++ 46 :: s) =
      g ++ 46 :: (chained sentinels ++ (p ++ 46 :: s)) := by
    simp [chained]
  rw [hname] at heq
  obtain ⟨-, rfl⟩ := split_dot (no_dot hdigits) (no_dot hp'.2) heq
  exact no_dot hs'.2 (by simp)

theorem pid_value (hp : AllDigits p) {pid : UInt32} (h : value p = pid.toNat) :
    (wrapFrom 0 p).toUInt32 = pid := by
  have hlt := pid.toNat_lt
  rw [← UInt32.toNat_inj, UInt64.toNat_toUInt32, wrapFrom_toNat hp, h]
  omega

theorem start_value (hs : AllDigits s) {start : UInt64} :
    wrapFrom 0 s = start ↔ value s % 2 ^ 64 = start.toNat := by
  rw [← UInt64.toNat_inj, wrapFrom_toNat hs]

theorem pid_plain {pid : UInt32} (h : value p = pid.toNat) : ¬ Sentinel p := by
  intro hsentinel
  have hlt := pid.toNat_lt
  unfold Sentinel at hsentinel
  omega

theorem start_plain {q : Process} (h : value s % 2 ^ 64 = q.start.toNat) : ¬ Sentinel s := by
  intro hsentinel
  refine q.start_lt (UInt64.toNat_inj.mp ?_)
  rw [← h]
  exact hsentinel

theorem claims_pair (hp : Numeric p) (hs : AllDigits s) (hplain : ¬ Sentinel p)
    (hstart : ¬ Sentinel s) : Claims (p ++ 46 :: s) (wrapFrom 0 p).toUInt32 (wrapFrom 0 s) := by
  have hchain : Chain [] := fun g hg => absurd hg List.not_mem_nil
  exact ⟨next_pair hchain hp.2 hs (fun _ => hp.1) hplain,
    fun h => hstart ((wrapFrom_sentinel hs).mp h)⟩

theorem Claims.unique {pid pid' : UInt32} {start start' : UInt64} (h : Claims name pid start)
    (h' : Claims name pid' start') : pid = pid' ∧ start = start' :=
  Prod.mk.inj (Option.some.inj (h.next.symm.trans h'.next))

theorem not_misread_claims {pid : UInt32} {start : UInt64} (hok : ¬ Misread t rows name)
    (h : Claims name pid start) :
    ∃ p s, Numeric p ∧ AllDigits s ∧ name = p ++ 46 :: s ∧ pid = (wrapFrom 0 p).toUInt32 ∧
      start = wrapFrom 0 s ∧ ¬ Sentinel p ∧ ¬ Sentinel s := by
  obtain ⟨sentinels, p, s, hc, hp, hs, hplain, hstart, hne, rfl, rfl, rfl⟩ :=
    next_some h.next h.started
  cases sentinels with
  | nil => exact ⟨p, s, ⟨hne rfl, hp⟩, hs, rfl, rfl, rfl, hplain, hstart⟩
  | cons g sentinels =>
    exact absurd (.dotted (List.cons_ne_nil _ _) hc hp hs hplain hstart) hok

theorem unlinks_stale (hok : ¬ Misread t rows name) (h : Unlinks t name) : Stale t name := by
  obtain ⟨pid, start, hclaims, hgone⟩ := h
  obtain ⟨p, s, hp, hs, rfl, rfl, rfl, hplain, hstart⟩ := not_misread_claims hok hclaims
  by_cases hempty : s = []
  · subst hempty
    refine absurd (Misread.bare hp hplain fun q hq hname hzero => ?_) hok
    subst hname
    exact absurd (startTime_live hq) (fun h => hgone (h.trans (by rw [hzero]; rfl)))
  · refine ⟨value p, value s, ⟨p, s, rfl, hp, ⟨hempty, hs⟩, rfl, rfl⟩, ?_⟩
    rintro ⟨q, hq, hpid, hvalue⟩
    by_cases hname : p = decimal q.pid.toNat
    · subst hname
      have hsame : wrapFrom 0 s = q.start := (start_value hs).mpr (by
        rw [← hvalue, Nat.mod_eq_of_lt q.start.toNat_lt])
      exact hgone (by rw [startTime_live hq, hsame])
    · exact hok (.padded hp ⟨hempty, hs⟩ hq hpid.symm hvalue.symm hname)

theorem stale_unlinks (hok : ¬ Misread t rows name) (h : Stale t name) : Unlinks t name := by
  obtain ⟨-, -, ⟨p, s, rfl, hp, hs, rfl, rfl⟩, hdead⟩ := h
  have hplain : ¬ Sentinel p := fun h => hok (.sentinel hp hs (.inl h))
  have hstart : ¬ Sentinel s := fun h => hok (.sentinel hp hs (.inr h))
  refine ⟨_, _, claims_pair hp hs.2 hplain hstart, fun hlive => ?_⟩
  obtain ⟨q, hq, rfl, hsame⟩ := startTime_some hp.2 hlive
  have hmod := (start_value hs.2).mp hsame.symm
  by_cases hsmall : value s < 2 ^ 64
  · rw [Nat.mod_eq_of_lt hsmall] at hmod
    exact hdead ⟨q, hq, (value_decimal _).symm, hmod.symm⟩
  · exact hok (.wrapped hs hq hmod (Nat.le_of_not_lt hsmall))

theorem opens_live (hok : ¬ Misread t rows name) (h : Opens t rows name i) :
    ∃ start, Names name (rows i).pid.toNat start ∧ t.Live (rows i).pid.toNat start := by
  obtain ⟨-, start, hclaims, hlive⟩ := h
  obtain ⟨p, s, hp, hs, rfl, hrow, rfl, hplain, hstart⟩ := not_misread_claims hok hclaims
  obtain ⟨q, hq, rfl, hsame⟩ := startTime_some hp.2 hlive
  have hpid : (rows i).pid = q.pid := hrow.trans (pid_value hp.2 (value_decimal _))
  have hmod := (start_value hs).mp hsame.symm
  by_cases hempty : s = []
  · subst hempty
    refine absurd (Misread.bare hp hplain fun q' hq' hname _ => ⟨i, ?_⟩) hok
    rw [hpid]
    exact UInt32.toNat_inj.mp (decimal_inj.mp hname)
  · by_cases hsmall : value s < 2 ^ 64
    · rw [Nat.mod_eq_of_lt hsmall] at hmod
      refine ⟨value s, ⟨_, s, rfl, hp, ⟨hempty, hs⟩, ?_, rfl⟩, q, hq, ?_, hmod.symm⟩
      · rw [value_decimal, hpid]
      · rw [hpid]
    · exact absurd (.wrapped ⟨hempty, hs⟩ hq hmod (Nat.le_of_not_lt hsmall)) hok

theorem live_opens (hok : ¬ Misread t rows name) (hfirst : First rows i) {start : ℕ}
    (hname : Names name (rows i).pid.toNat start) (hlive : t.Live (rows i).pid.toNat start) :
    Opens t rows name i := by
  obtain ⟨p, s, rfl, hp, hs, hpid, rfl⟩ := hname
  obtain ⟨q, hq, hrow, hstart⟩ := hlive
  have hsame : q.pid = (rows i).pid := UInt32.toNat_inj.mp hrow
  have hmod : value s % 2 ^ 64 = q.start.toNat := by
    rw [← hstart, Nat.mod_eq_of_lt q.start.toNat_lt]
  have hwrap : wrapFrom 0 s = q.start := (start_value hs.2).mpr hmod
  by_cases hcanon : p = decimal q.pid.toNat
  · have hclaims := claims_pair hp hs.2 (pid_plain hpid) (start_plain hmod)
    rw [pid_value hp.2 hpid] at hclaims
    refine ⟨hfirst, _, hclaims, ?_⟩
    rw [hcanon, startTime_live hq, hwrap]
  · exact absurd (.padded hp hs hq (hpid.trans hrow.symm) hstart.symm hcanon) hok

theorem shows_iff (hok : ¬ Misread t rows name) :
    Shows t read rows i name content ↔
      First rows i ∧ Labels t read (rows i).pid name content := by
  constructor
  · intro h
    exact ⟨h.opens.1, opens_live hok h.opens, h.readable, h.nonempty⟩
  · rintro ⟨hfirst, ⟨start, hname, hlive⟩, hread, hne⟩
    exact ⟨live_opens hok hfirst hname hlive, hread, hne⟩

theorem follows_of_read (hok : ∀ name ∈ names, ¬ Misread t rows name) :
    Follows t read names rows (names.foldl (visit t read) ⟨rows, [], []⟩) := by
  refine ⟨fun name => ?_, fun name hin => ?_, fun i hfirst hex => ?_, fun i hno => ?_⟩
  · rw [run_unlinked]
    constructor
    · rintro (hin | ⟨hin, h⟩)
      · exact absurd hin List.not_mem_nil
      · exact ⟨hin, unlinks_stale (hok name hin) h⟩
    · rintro ⟨hin, h⟩
      exact .inr ⟨hin, stale_unlinks (hok name hin) h⟩
  · rcases run_opened _ _ |>.mp hin with hin | ⟨hin, i, h⟩
    · exact absurd hin List.not_mem_nil
    · obtain ⟨start, hname, -⟩ := opens_live (hok name hin) h
      exact ⟨hin, _, start, hname⟩
  · rcases run_row t read ⟨rows, [], []⟩ names i with
      ⟨hno, -⟩ | ⟨name, hin, content, hs, h⟩
    · obtain ⟨name, hin, content, hl⟩ := hex
      exact absurd ((shows_iff (hok name hin)).mpr ⟨hfirst, hl⟩) (hno name hin content)
    · exact ⟨name, hin, content, ((shows_iff (hok name hin)).mp hs).2, h⟩
  · rcases run_row t read ⟨rows, [], []⟩ names i with
      ⟨-, h⟩ | ⟨name, hin, content, hs, -⟩
    · exact h
    · obtain ⟨hfirst, hl⟩ := (shows_iff (hok name hin)).mp hs
      rcases hno with hno | hno
      · exact absurd hfirst hno
      · exact absurd hl (hno name hin content)

theorem read_of_follows
    (h : Follows t read names rows (names.foldl (visit t read) ⟨rows, [], []⟩))
    (hin : name ∈ names) : ¬ Misread t rows name := by
  have hunlink : Unlinks t name → Stale t name := fun hu =>
    ((h.unlinks name).mp (run_unlinked _ _ |>.mpr (.inr ⟨hin, hu⟩))).2
  have hstale : Stale t name → Unlinks t name := fun hs => by
    rcases run_unlinked _ _ |>.mp ((h.unlinks name).mpr ⟨hin, hs⟩) with hnil | ⟨-, hu⟩
    · exact absurd hnil List.not_mem_nil
    · exact hu
  have hopen : ∀ i, Opens t rows name i → ∃ pid start, Names name pid start := fun i ho =>
    (h.opens name (run_opened _ _ |>.mpr (.inr ⟨hin, i, ho⟩))).2
  intro hbad
  cases hbad with
  | @bare p hp hplain hrow =>
    have hempty : AllDigits [] := fun b hb => absurd hb List.not_mem_nil
    have hzero : ¬ Sentinel [] := fun h => h.ne_nil rfl
    have hclaims := claims_pair hp hempty hplain hzero
    have hnot : ∀ pid start, ¬ Names (p ++ [46]) pid start := fun pid start hn =>
      (names_pair hp hn).1.1 rfl
    by_cases hlive : startTime t (wrapFrom 0 p).toUInt32 (p ++ [46]) = some (wrapFrom 0 [])
    · obtain ⟨q, hq, rfl, hstart⟩ := startTime_some hp.2 hlive
      obtain ⟨j, hj⟩ := hrow q hq rfl hstart
      have hpid := pid_value hp.2 (value_decimal q.pid.toNat)
      obtain ⟨i, hfind⟩ : ∃ i, (List.finRange n).find? (fun i => (rows i).pid = q.pid) = some i := by
        apply Option.isSome_iff_exists.mp
        simpa using ⟨j, hj⟩
      obtain ⟨hfirst, hi⟩ := find_first.mp hfind
      have hsame := hpid.trans hi.symm
      obtain ⟨pid, start, hn⟩ := hopen i ⟨hfirst, _, hsame ▸ hclaims, hsame ▸ hlive⟩
      exact hnot pid start hn
    · obtain ⟨pid, start, hn, -⟩ := hunlink ⟨_, _, hclaims, hlive⟩
      exact hnot pid start hn
  | @sentinel p s hp hs hbad =>
    have hdead : ¬ t.Live (value p) (value s) := by
      rintro ⟨q, -, hpid, hstart⟩
      rcases hbad with hbad | hbad
      · exact pid_plain hpid.symm hbad
      · refine start_plain (q := q) ?_ hbad
        rw [← hstart, Nat.mod_eq_of_lt q.start.toNat_lt]
    obtain ⟨pid, start, hclaims, -⟩ := hstale ⟨_, _, ⟨p, s, rfl, hp, hs, rfl, rfl⟩, hdead⟩
    obtain ⟨pid', hnext⟩ := next_sentinel hp hs hbad
    exact hclaims.started (Prod.mk.inj (Option.some.inj (hclaims.next.symm.trans hnext))).2
  | @padded p s q hp hs hq hpid hstart hne =>
    have hmod : value s % 2 ^ 64 = q.start.toNat := by
      rw [hstart, Nat.mod_eq_of_lt q.start.toNat_lt]
    have hclaims := claims_pair hp hs.2 (pid_plain hpid) (start_plain hmod)
    obtain ⟨pid, start, hn, hdead⟩ := hunlink ⟨_, _, hclaims, fun hlive => by
      obtain ⟨q', -, hq', -⟩ := startTime_some hp.2 hlive
      rw [hq', value_decimal] at hpid
      exact hne (hq'.trans (by rw [hpid]))⟩
    obtain ⟨-, rfl, rfl⟩ := names_pair hp hn
    exact hdead ⟨q, hq, hpid.symm, hstart.symm⟩
  | @wrapped s q hs hq hmod hbig =>
    have hp : Numeric (decimal q.pid.toNat) := ⟨decimal_ne_nil _, decimal_allDigits _⟩
    have hdead : ¬ t.Live q.pid.toNat (value s) := by
      rintro ⟨q', -, -, hstart⟩
      have := q'.start.toNat_lt
      omega
    obtain ⟨pid, start, hclaims, hgone⟩ :=
      hstale ⟨_, _, ⟨_, s, rfl, hp, hs, value_decimal _, rfl⟩, hdead⟩
    have hmine := claims_pair hp hs.2 (pid_plain (value_decimal _)) (start_plain hmod)
    obtain ⟨-, rfl⟩ := hclaims.unique hmine
    exact hgone ((startTime_live hq).trans (congrArg some ((start_value hs.2).mpr hmod).symm))
  | @dotted sentinels p s hne hc hp hs hplain hstart =>
    have hnext := next_pair hc hp hs (fun h => absurd h hne) hplain
    have hstarted : wrapFrom 0 s ≠ NO_START := fun h => hstart ((wrapFrom_sentinel hs).mp h)
    obtain ⟨pid, start, hn, -⟩ := hunlink ⟨_, _, ⟨hnext, hstarted⟩, fun hlive => by
      rw [startTime_chain hc hne] at hlive
      cases hlive⟩
    exact not_names_chain hne hc hn

theorem apply_follows_iff (dir : Option (List (List UInt8))) (procs : Table .linux n) :
    Follows t read (dir.getD []) procs (apply t read dir procs) ↔
      ∀ name ∈ dir.getD [], ¬ Misread t procs name := by
  rw [apply_eq]
  exact ⟨fun h name hin => read_of_follows h hin, follows_of_read⟩

theorem bare_name_unlinked :
    ¬ ∀ (t : ProcessTable) (read : List UInt8 → Option (List UInt8)) (n : ℕ)
      (dir : Option (List (List UInt8))) (procs : Table .linux n),
      Follows t read (dir.getD []) procs (apply t read dir procs) := by
  intro h
  let t : ProcessTable := ⟨[], .nil⟩
  let procs : Table .linux 0 := fun i => i.elim0
  have hp : Numeric [53] := ⟨List.cons_ne_nil _ _, by decide⟩
  have hplain : ¬ Sentinel [53] := show ¬ 5 % 2 ^ 64 = 2 ^ 64 - 1 by decide
  have hbare : Misread t procs ([53] ++ [46]) :=
    .bare hp hplain fun q hq => absurd hq List.not_mem_nil
  have hfollows := h t (fun _ => none) 0 (some [[53, 46]]) procs
  exact read_of_follows hfollows (List.mem_singleton_self _) hbare

end Ltop.Label
