import Mathlib
import Ltop.Agx
import Ltop.OsTree

namespace Ltop

namespace Agx

open Os

variable {prev : Map UInt64} {dt was now : UInt64} {pid : UInt32} {state : State} {t : Tick}
  {clients : List (UInt32 × UInt64)}

instance : Std.Commutative (combined mergeNs) where
  comm := UInt64.add_comm

instance : Std.Associative (combined mergeNs) where
  assoc := UInt64.add_assoc

theorem saturatingMul_toNat (a b : UInt64) :
    (saturatingMul a b).toNat = min (a.toNat * b.toNat) (2 ^ 64 - 1) :=
  Nat.mod_eq_of_lt (by omega)

theorem min_toNat (a b : UInt64) : (min a b).toNat = min a.toNat b.toNat := by
  change (if a ≤ b then a else b).toNat = _
  split
  · rename_i hle
    exact (Nat.min_eq_left (UInt64.le_iff_toNat_le.mp hle)).symm
  · rename_i hlt
    have := UInt64.le_iff_toNat_le.not.mp hlt
    exact (Nat.min_eq_right (by omega)).symm

theorem min_toNat32 (a b : UInt32) : (min a b).toNat = min a.toNat b.toNat := by
  change (if a ≤ b then a else b).toNat = _
  split
  · rename_i hle
    exact (Nat.min_eq_left (UInt32.le_iff_toNat_le.mp hle)).symm
  · rename_i hlt
    have := UInt32.le_iff_toNat_le.not.mp hlt
    exact (Nat.min_eq_right (by omega)).symm

theorem computePct_toNat (was now dt : UInt64) :
    (computePct was now dt).toNat = if was = 0 ∨ now ≤ was ∨ dt = 0 then 0
      else min 100 (cappedRate (now.toNat - was.toNat) dt.toNat) := by
  unfold computePct
  split
  · rfl
  · rename_i hlive
    have hlt : ¬ now.toNat ≤ was.toNat := fun hle =>
      hlive (.inr (.inl (UInt64.le_iff_toNat_le.mpr hle)))
    have hdelta : (now - was).toNat = now.toNat - was.toNat :=
      UInt64.toNat_sub_of_le _ _ (UInt64.le_iff_toNat_le.mpr (by omega))
    have hundred : (100 : UInt64).toNat = 100 := rfl
    have hrate : (saturatingMul (now - was) 100 / dt).toNat =
        cappedRate (now.toNat - was.toNat) dt.toNat := by
      rw [UInt64.toNat_div, saturatingMul_toNat, hdelta, hundred, cappedRate, Nat.mul_comm]
    have hmin : (min (saturatingMul (now - was) 100 / dt) 100).toNat =
        min 100 (cappedRate (now.toNat - was.toNat) dt.toNat) := by
      rw [min_toNat, hrate, hundred, Nat.min_comm]
    dsimp only
    rw [UInt64.toNat_toUInt32, hmin]
    omega

theorem newPrev_keys (clients : List (UInt32 × UInt64)) (pid : UInt32) :
    pid ∈ (freezeMap clients mergeNs).entries.map (·.1) ↔ pid ∈ clients.map (·.1) :=
  freezeMap_keys mergeNs clients pid

theorem valuesAt_rows (usages : List Usage) (pid : UInt32) :
    (Keyed.valuesAt pid (usages.map Usage.row)).map UInt64.toNat =
      (usages.filter (·.pid = pid)).map fun u => min u.times.sum (2 ^ 64 - 1) := by
  have hrow : ((fun e : UInt32 × UInt64 => decide (e.1 = pid)) ∘ Usage.row) =
      fun u : Usage => decide (u.pid = pid) := rfl
  rw [Keyed.valuesAt, List.filter_map, hrow, List.map_map, List.map_map]
  exact List.map_congr_left fun u _ => saturated_toNat u.times.sum

theorem newPrev_stored {usages : List Usage} {ns : UInt64}
    (h : (pid, ns) ∈ (freezeMap (usages.map Usage.row) mergeNs).entries) :
    ns.toNat = storedSum usages pid := by
  have hget := (Map.get_eq_some _ _ _).mpr h
  rw [freezeMap_get] at hget
  rw [storedSum, ← valuesAt_rows]
  exact Keyed.pooled_sum (combined mergeNs) UInt64.toNat_lt UInt64.toNat_add hget

theorem storedSum_eq {usages : List Usage} (h : clientSum usages pid < 2 ^ 64) :
    storedSum usages pid = clientSum usages pid := by
  unfold storedSum clientSum at *
  have hsame : (usages.filter (·.pid = pid)).map (fun u => min u.times.sum (2 ^ 64 - 1)) =
      (usages.filter (·.pid = pid)).map (·.times.sum) := by
    refine List.map_congr_left fun u hu => ?_
    have hle := List.single_le_sum (fun _ _ => Nat.zero_le _) _
      (List.mem_map_of_mem (f := fun u : Usage => u.times.sum) hu)
    omega
  rw [hsame, Nat.mod_eq_of_lt h]

theorem newPrev_length (clients : List (UInt32 × UInt64)) :
    (freezeMap clients mergeNs).entries.length ≤ clients.length := by
  have hsub : (freezeMap clients mergeNs).entries.map (·.1) ⊆ clients.map (·.1) := fun pid hpid =>
    (newPrev_keys clients pid).mp hpid
  have hle := ((freezeMap clients mergeNs).keys_nodup.subperm hsub).length_le
  rwa [List.length_map, List.length_map] at hle

def entryRow (prev : Map UInt64) (dt : UInt64) (row : UInt32 × UInt64) :
    Option (UInt32 × GpuProc) :=
  let pct := computePct ((prev.search row.1).getD 0) row.2 dt
  if pct = 0 then none else some (row.1, ⟨pct⟩)

theorem pushEntries_items {buf : FVec (UInt32 × GpuProc)} {rows : List (UInt32 × UInt64)}
    (hroom : buf.items.length + rows.length ≤ buf.capacity) :
    (rows.foldl (pushEntry prev dt) buf).items = buf.items ++ rows.filterMap (entryRow prev dt) := by
  induction rows generalizing buf with
  | nil => simp
  | cons row rows ih =>
    rw [List.length_cons] at hroom
    have hpush := FVec.push_items (show buf.items.length < buf.capacity by omega)
    rw [List.foldl_cons, List.filterMap_cons, pushEntry, entryRow]
    split
    · exact ih (by omega)
    · rw [ih (by rw [hpush, FVec.push_capacity, List.length_append, List.length_singleton]; omega),
        hpush, List.append_assoc, List.singleton_append]

theorem prevNs_eq (prev : Map UInt64) (pid : UInt32) (hne : (prev.search pid).getD 0 ≠ 0) :
    (pid, (prev.search pid).getD 0) ∈ prev.entries := by
  rw [Map.search_eq] at hne ⊢
  cases hget : prev.get pid with
  | none =>
    rw [hget] at hne
    exact absurd rfl hne
  | some was => exact (Map.get_eq_some _ _ _).mp hget

theorem prevNs_mem (h : (pid, was) ∈ prev.entries) : (prev.search pid).getD 0 = was := by
  rw [Map.search_eq, (Map.get_eq_some _ _ _).mpr h]
  rfl

theorem mem_entries (hdt : dt ≠ 0) (rows : List (UInt32 × UInt64)) (pct : GpuProc) :
    (pid, pct) ∈ rows.filterMap (entryRow prev dt) ↔ ∃ was now : UInt64,
      (pid, was) ∈ prev.entries ∧ (pid, now) ∈ rows ∧ was ≠ 0 ∧ was < now ∧
      1 ≤ cappedRate (now.toNat - was.toNat) dt.toNat ∧
      pct.smPct.toNat = min 100 (cappedRate (now.toNat - was.toNat) dt.toNat) := by
  rw [List.mem_filterMap]
  constructor
  · rintro ⟨⟨pid', now⟩, hrow, hentry⟩
    unfold entryRow at hentry
    obtain ⟨hpct, heq⟩ := Option.ite_none_left_eq_some.mp hentry
    obtain ⟨rfl, rfl⟩ := Prod.mk.inj (Option.some.inj heq)
    have hvalue := computePct_toNat ((prev.search pid').getD 0) now dt
    have hpos : (computePct ((prev.search pid').getD 0) now dt).toNat ≠ 0 := fun hzero =>
      hpct (UInt32.toNat_inj.mp hzero)
    dsimp only
    split at hvalue
    · exact absurd hvalue hpos
    · rename_i hlive
      have hwas : (prev.search pid').getD 0 ≠ 0 := fun hzero => hlive (.inl hzero)
      have hlt : (prev.search pid').getD 0 < now := by
        refine UInt64.lt_iff_toNat_lt.mpr (Nat.lt_of_not_le fun hle => ?_)
        exact hlive (.inr (.inl (UInt64.le_iff_toNat_le.mpr hle)))
      exact ⟨_, now, prevNs_eq prev pid' hwas, hrow, hwas, hlt, by omega, hvalue⟩
  · rintro ⟨was, now, hprev, hrow, hwas, hlt, hone, hpct⟩
    have hvalue := computePct_toNat was now dt
    have hle : ¬ now ≤ was := fun hle => by
      have := UInt64.lt_iff_toNat_lt.mp hlt
      have := UInt64.le_iff_toNat_le.mp hle
      omega
    rw [if_neg (by tauto), ← hpct] at hvalue
    have hsame : computePct was now dt = pct.smPct := UInt32.toNat_inj.mp hvalue
    refine ⟨(pid, now), hrow, ?_⟩
    rw [entryRow, prevNs_mem hprev]
    dsimp only
    rw [hsame]
    refine if_neg fun hzero => ?_
    rw [hzero] at hpct
    have : (0 : UInt32).toNat = 0 := rfl
    omega

theorem entries_ascending {rows : List (UInt32 × UInt64)}
    (h : rows.Pairwise fun a b => a.1 < b.1) :
    (rows.filterMap (entryRow prev dt)).Pairwise fun a b => a.1 < b.1 := by
  refine h.filterMap _ fun a b hlt c hc d hd => ?_
  unfold entryRow at hc hd
  obtain ⟨-, hc⟩ := Option.ite_none_left_eq_some.mp hc
  obtain ⟨-, hd⟩ := Option.ite_none_left_eq_some.mp hd
  rw [← Option.some.inj hc, ← Option.some.inj hd]
  exact hlt

theorem sum_foldl (rows : List (UInt32 × GpuProc)) (n : UInt32) :
    (rows.foldl (fun sum row => sum + row.2.smPct) n).toNat =
      (n.toNat + (rows.map (·.2.smPct.toNat)).sum) % 2 ^ 32 := by
  induction rows generalizing n with
  | nil =>
    rw [List.map_nil, List.sum_nil, Nat.add_zero]
    exact (Nat.mod_eq_of_lt n.toNat_lt).symm
  | cons row rows ih =>
    rw [List.foldl_cons, ih, UInt32.toNat_add, List.map_cons, List.sum_cons]
    omega

theorem populate_walks {agxs : List Accelerator} (h : t.walks state = some agxs) :
    t.dtNs ≠ 0 ∧ ∃ used, populate state prev t = (do
      let newPrev := freezeMap ((FVec.new MAX_TRACKED_PIDS).pushAll (rows agxs)).items mergeNs
      let entries := (newPrev.entries.foldl (pushEntry prev t.dtNs) (.new MAX_TRACKED_PIDS)).items
      let totalUtil := min (sumPct entries) 100
      return ⟨entries, newPrev, state.nGpus, totalUtil, used, state.totalMib⟩) := by
  unfold Tick.walks at h
  split at h
  · cases h
  · rename_i hlive
    refine ⟨fun hzero => hlive (.inr hzero), ?_⟩
    cases hwalk : t.walk with
    | noMaster =>
      rw [hwalk] at h
      cases h
    | noIterator =>
      rw [hwalk] at h
      cases h
    | services agxs' =>
      rw [hwalk] at h
      obtain rfl := Option.some.inj h
      obtain ⟨used, hrun⟩ := walk_eq agxs' ⟨.new MAX_TRACKED_PIDS, 0⟩
      refine ⟨used, ?_⟩
      rw [populate, if_neg hlive, hwalk]
      dsimp only
      rw [hrun]
      rfl

theorem populate_idle (h : t.walks state = none) : populate state prev t = .some (idle state) := by
  unfold Tick.walks at h
  unfold populate
  split at h
  · rename_i hidle
    exact if_pos hidle
  · rename_i hlive
    rw [if_neg hlive]
    cases hwalk : t.walk with
    | noMaster => rfl
    | noIterator => rfl
    | services agxs =>
      rw [hwalk] at h
      cases h

theorem accounts_idle (h : t.walks state = none) :
    Accounts state cappedRate prev t (idle state) := by
  have hnone : t.usages state = [] := by
    rw [Tick.usages, h]
    rfl
  refine ⟨.nil, fun pid => ?_, fun pid ns hmem => absurd hmem List.not_mem_nil,
    fun pid ns hmem => absurd hmem List.not_mem_nil, .nil, fun pid pct => ?_, rfl,
    fun _ => ⟨rfl, rfl⟩⟩
  · rw [hnone]
    rfl
  · refine iff_of_false List.not_mem_nil ?_
    rintro ⟨was, now, -, hnow, -⟩
    exact absurd hnow List.not_mem_nil

theorem util_eq (hdt : dt ≠ 0) {rows : List (UInt32 × UInt64)}
    (hfew : rows.length ≤ MAX_TRACKED_PIDS) :
    (min (sumPct (rows.filterMap (entryRow prev dt))) 100).toNat =
      min 100 ((rows.filterMap (entryRow prev dt)).map (·.2.smPct.toNat)).sum := by
  have hle : ∀ n ∈ (rows.filterMap (entryRow prev dt)).map (·.2.smPct.toNat), n ≤ 100 := by
    intro n hn
    obtain ⟨⟨pid, pct⟩, hmem, rfl⟩ := List.mem_map.mp hn
    obtain ⟨was, now, -, -, -, -, -, hpct⟩ := (mem_entries hdt rows pct).mp hmem
    exact hpct.le.trans (Nat.min_le_left _ _)
  have hsum := List.sum_le_card_nsmul _ 100 hle
  have hlen : (rows.filterMap (entryRow prev dt)).length ≤ rows.length :=
    List.length_filterMap_le _ _
  rw [List.length_map, smul_eq_mul] at hsum
  have hzero : (0 : UInt32).toNat = 0 := rfl
  have hundred : (100 : UInt32).toNat = 100 := rfl
  unfold MAX_TRACKED_PIDS at hfew
  rw [min_toNat32, sumPct, sum_foldl, hzero, hundred, Nat.zero_add, Nat.mod_eq_of_lt (by omega),
    Nat.min_comm]

theorem accounts_walked {agxs : List Accelerator} (hwalks : t.walks state = some agxs)
    (hdt : t.dtNs ≠ 0)
    (hlength : (freezeMap ((t.usages state).map Usage.row) mergeNs).entries.length ≤
      MAX_TRACKED_PIDS) (nGpus : UInt32) (used mib : UInt64) :
    let newPrev := freezeMap ((t.usages state).map Usage.row) mergeNs
    let entries := newPrev.entries.filterMap (entryRow prev t.dtNs)
    Accounts state cappedRate prev t ⟨entries, newPrev, nGpus, min (sumPct entries) 100, used, mib⟩ := by
  constructor
  case snapshot_ascending => exact Map.sorted _
  case snapshot_pids =>
    intro pid
    rw [newPrev_keys, List.map_map]
    rfl
  case snapshot_stored => exact fun pid ns hmem => newPrev_stored hmem
  case snapshot_sum => exact fun pid ns hmem hfit => (newPrev_stored hmem).trans (storedSum_eq hfit)
  case ascending => exact entries_ascending (Map.sorted _)
  case entries => exact fun pid pct => mem_entries hdt _ pct
  case util => exact util_eq hdt hlength
  case failed =>
    intro hnone
    rw [hwalks] at hnone
    cases hnone

theorem populate_tick (prev : Map UInt64) (t : Tick)
    (hfew : (t.usages state).length ≤ MAX_TRACKED_PIDS) :
    ∃ r, populate state prev t = .some r ∧ Accounts state cappedRate prev t r := by
  cases hwalks : t.walks state with
  | none => exact ⟨_, populate_idle hwalks, accounts_idle hwalks⟩
  | some agxs =>
    obtain ⟨hdt, used, hrun⟩ := @populate_walks prev state t agxs hwalks
    have hrows : rows agxs = (t.usages state).map Usage.row := by
      rw [rows_usages, Tick.usages, hwalks]
      rfl
    have hfew' : (rows agxs).length ≤ MAX_TRACKED_PIDS := by
      rw [hrows, List.length_map]
      exact hfew
    have hitems : ((FVec.new MAX_TRACKED_PIDS).pushAll (rows agxs)).items = rows agxs := by
      rw [FVec.pushAll_items (by simpa using hfew'), FVec.new_items, List.nil_append]
    have hlength := (newPrev_length (rows agxs)).trans hfew'
    have hentries := @pushEntries_items prev t.dtNs (.new MAX_TRACKED_PIDS)
      (freezeMap (rows agxs) mergeNs).entries (by simpa using hlength)
    rw [FVec.new_items, List.nil_append] at hentries
    rw [hitems] at hrun
    dsimp only at hrun
    rw [hentries] at hrun
    rw [hrows] at hrun hlength
    exact ⟨_, hrun, accounts_walked hwalks hdt hlength _ _ _⟩

theorem Accounts.first {rate : ℕ → ℕ → ℕ} {r : Reading} (h : Accounts state rate prev t r)
    (hprev : prev.entries = []) : r.entries = [] := by
  refine List.eq_nil_iff_forall_not_mem.mpr fun ⟨pid, pct⟩ hmem => ?_
  obtain ⟨was, now, hwas, -⟩ := (h.entries pid pct).mp hmem
  rw [hprev] at hwas
  exact absurd hwas List.not_mem_nil

theorem run_follows (state : State) (ticks : List Tick)
    (hfew : ∀ t ∈ ticks, (t.usages state).length ≤ MAX_TRACKED_PIDS) (prev : Map UInt64) :
    ∃ readings, run state prev ticks = .some readings ∧
      Follows state cappedRate prev ticks readings := by
  induction ticks generalizing prev with
  | nil => exact ⟨[], rfl, .nil prev⟩
  | cons t ticks ih =>
    obtain ⟨hhead, htail⟩ := List.forall_mem_cons.mp hfew
    obtain ⟨r, hpopulate, haccounts⟩ := populate_tick prev t hhead
    obtain ⟨readings, hrun, hfollows⟩ := ih htail r.newPrev
    refine ⟨r :: readings, ?_, .cons haccounts hfollows fun hfailed next hnext => ?_⟩
    · rw [run, hpopulate, Outcome.some_bind, hrun]
      rfl
    · cases hfollows with
      | nil => cases hnext
      | cons hnextAccounts _ _ =>
        obtain rfl := Option.some.inj hnext
        exact hnextAccounts.first (haccounts.failed hfailed).2

theorem run_accounts (state : State) (ticks : List Tick)
    (hfew : ∀ t ∈ ticks, (t.usages state).length ≤ MAX_TRACKED_PIDS) :
    ∃ readings, run state .empty ticks = .some readings ∧
      Follows state cappedRate .empty ticks readings :=
  run_follows state ticks hfew .empty

def clientTree (ns : UInt64) : Node :=
  .dict true [
    (.symbol false (bytes "IOUserClientCreator"), .string false (bytes "pid 1, Metal")),
    (.symbol false (bytes "AppUsage"),
      .array true [.dict true [(.symbol false (bytes "accumulatedGPUTime"), .number true 64 ns)]])]

def clientBlob (ns : UInt64) : Blob where
  bytes := MAGIC ++ (clientTree ns).encode
  ckpts := List.replicate OSBIN_CKPTS 0
  ckpts_length := List.length_replicate

def oneClient (ns : UInt64) : Tick := ⟨0x8000000000000000, .services [⟨none, some [some (clientBlob ns)]⟩]⟩

def oneGpu : State := ⟨1, 0⟩

def longGap : List Tick := [oneClient 1, oneClient 0x8000000000000001]

theorem oneClient_early : (oneClient 1).usages oneGpu = [⟨1, [1]⟩] := by decide +kernel

theorem oneClient_late :
    (oneClient 0x8000000000000001).usages oneGpu = [⟨1, [0x8000000000000001]⟩] := by
  decide +kernel

theorem longGap_few : ∀ t ∈ longGap, (t.usages oneGpu).length ≤ MAX_TRACKED_PIDS := by
  intro t ht
  rcases List.mem_pair.mp ht with rfl | rfl
  · rw [oneClient_early]
    decide
  · rw [oneClient_late]
    decide

theorem longGap_fits : ∀ t ∈ longGap, ∀ pid, clientSum (t.usages oneGpu) pid < 2 ^ 64 := by
  intro t ht pid
  rcases List.mem_pair.mp ht with rfl | rfl
  · rw [oneClient_early]
    simp only [clientSum, List.filter_cons]
    split <;> simp
  · rw [oneClient_late]
    simp only [clientSum, List.filter_cons]
    split <;> simp

theorem longGap_accounts : ∃ readings, run oneGpu .empty longGap = .some readings ∧
    Follows oneGpu cappedRate .empty longGap readings :=
  run_accounts oneGpu longGap longGap_few

theorem Accounts.single {rate : ℕ → ℕ → ℕ} {r : Reading} {n : ℕ}
    (h : Accounts state rate prev t r) (husages : t.usages state = [⟨1, [n]⟩]) (hn : n < 2 ^ 64) :
    (∃ ns, (1, ns) ∈ r.newPrev.entries) ∧ ∀ ns, (1, ns) ∈ r.newPrev.entries → ns.toNat = n := by
  constructor
  · have hmem : (1 : UInt32) ∈ r.newPrev.entries.map (·.1) := by
      rw [h.snapshot_pids, husages]
      exact List.mem_singleton_self 1
    obtain ⟨⟨pid, ns⟩, hin, rfl⟩ := List.mem_map.mp hmem
    exact ⟨ns, hin⟩
  · intro ns hns
    have hsum := h.snapshot_sum 1 ns hns
    rw [husages, show clientSum [⟨1, [n]⟩] 1 = n by simp [clientSum]] at hsum
    exact hsum hn

theorem Follows.second {rate : ℕ → ℕ → ℕ} {t₁ t₂ : Tick} {readings : List Reading}
    (h : Follows state rate prev [t₁, t₂] readings) :
    ∃ r₁ r₂, readings = [r₁, r₂] ∧ Accounts state rate prev t₁ r₁ ∧
      Accounts state rate r₁.newPrev t₂ r₂ := by
  cases h with
  | cons h₁ hrest _ =>
    cases hrest with
    | cons h₂ hend _ =>
      cases hend
      exact ⟨_, _, rfl, h₁, h₂⟩

theorem longGap_underreported : ¬ ∀ (state : State) (ticks : List Tick),
    (∀ t ∈ ticks, (t.usages state).length ≤ MAX_TRACKED_PIDS) →
    (∀ t ∈ ticks, ∀ pid, clientSum (t.usages state) pid < 2 ^ 64) →
      ∃ readings, run state .empty ticks = .some readings ∧
        Follows state floorRate .empty ticks readings := by
  intro h
  obtain ⟨readings, hrun, hfloor⟩ := h oneGpu longGap longGap_few longGap_fits
  obtain ⟨readings', hrun', hcapped⟩ := run_follows oneGpu longGap longGap_few .empty
  obtain rfl : readings = readings' := by
    rw [hrun] at hrun'
    injection hrun'
  obtain ⟨r₁, r₂, rfl, hfirst, hsecond⟩ := hfloor.second
  obtain ⟨q₁, q₂, heq, -, hsecond'⟩ := hcapped.second
  obtain ⟨rfl, hrest⟩ := List.cons.inj heq
  obtain ⟨rfl, -⟩ := List.cons.inj hrest
  obtain ⟨⟨was, hwas⟩, hwasValue⟩ := hfirst.single oneClient_early (by decide)
  obtain ⟨⟨now, hnow⟩, hnowValue⟩ := hsecond.single oneClient_late (by decide)
  have hdt : (oneClient 0x8000000000000001).dtNs.toNat = 2 ^ 63 := rfl
  have hexact : floorRate (2 ^ 63 + 1 - 1) (2 ^ 63) = 100 := by norm_num [floorRate]
  have hshort : cappedRate (2 ^ 63 + 1 - 1) (2 ^ 63) = 1 := by norm_num [cappedRate]
  have hw := hwasValue was hwas
  have hn : now.toNat = 2 ^ 63 + 1 := hnowValue now hnow
  have hfull : (1, ⟨100⟩) ∈ r₂.entries := by
    refine (hsecond.entries 1 ⟨100⟩).mpr ⟨was, now, hwas, hnow, ?_, ?_, ?_, ?_⟩
    · rintro rfl
      cases hw
    · refine UInt64.lt_iff_toNat_lt.mpr ?_
      omega
    · rw [hw, hn, hdt, hexact]
      decide
    · rw [hw, hn, hdt, hexact]
      rfl
  obtain ⟨was', now', hwas', hnow', -, -, -, hpct⟩ := (hsecond'.entries 1 ⟨100⟩).mp hfull
  have hn' : now'.toNat = 2 ^ 63 + 1 := hnowValue now' hnow'
  rw [hwasValue was' hwas', hn', hdt, hshort] at hpct
  revert hpct
  decide

end Agx

end Ltop
