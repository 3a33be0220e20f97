import Mathlib
import Ltop.Nvidia

namespace Ltop

namespace Rm

variable {pid : UInt32} {gpus : List Gpu}

def stagedRows (gpus : List Gpu) : List (UInt32 × GpuProc) :=
  (live gpus).filterMap (fun g => g.sample.map sampleRow) ++ (live gpus).flatMap Gpu.memoryRows

theorem stash_rows (gpus : List Gpu) :
    (gpus.map Gpu.stash).filterMap (Option.map sampleRow) =
      (live gpus).filterMap fun g => g.sample.map sampleRow := by
  induction gpus with
  | nil => rfl
  | cons g gpus ih =>
    rw [List.map_cons, live_cons, List.filterMap_cons, Gpu.stash, ih]
    cases g.answers with
    | false => rfl
    | true => rw [if_pos rfl, if_pos rfl, List.filterMap_cons]

theorem across_one (gpus : List Gpu) : across gpus (fun _ => 1) = (live gpus).length := by
  rw [across, List.map_const', List.sum_replicate, smul_eq_mul, Nat.mul_one]

theorem live_length (gpus : List Gpu) : (live gpus).length ≤ gpus.length :=
  List.length_filter_le _ _

theorem capacity_eq (s : State) :
    ((firstAt s.gpus 0).nGpus * MAX_PROCS_PER_GPU).toNat = (live s.gpus).length * 201 := by
  have hfits := s.fits
  have hlive := live_length s.gpus
  have hmax : MAX_PROCS_PER_GPU.toNat = 201 := rfl
  have hcount : (firstAt s.gpus 0).nGpus.toNat = (live s.gpus).length % 2 ^ 32 := by
    rw [firstAt, across_one]
    rfl
  unfold Arena.SIZE at hfits
  rw [UInt32.toNat_mul, hcount, hmax]
  omega

theorem populate_eq (s : State) : ∃ snapshot, populate s = .some snapshot ∧
    snapshot.entries = freezeMap (stagedRows s.gpus) mergeProc ∧ snapshot.refused = [] ∧
    snapshot.nGpus = (firstAt s.gpus 0).nGpus ∧ snapshot.totalUtil = (firstAt s.gpus 0).totalUtil ∧
    snapshot.totalUsedMib = (firstAt s.gpus 0).totalUsedMib ∧
    snapshot.totalMib = (firstAt s.gpus 0).totalMib := by
  cases hconnected : s.connected with
  | false =>
    refine ⟨⟨.empty, 0, 0, 0, 0, []⟩, ?_, ?_⟩
    · rw [populate, hconnected]
      rfl
    · rw [s.idle hconnected]
      exact ⟨rfl, rfl, rfl, rfl, rfl, rfl⟩
  | true =>
    have hsamples : (firstAt s.gpus 0).samples.filterMap (Option.map sampleRow) =
        (live s.gpus).filterMap fun g => g.sample.map sampleRow := by
      rw [← stash_rows, firstAt, List.replicate_zero, List.append_nil]
    have hcount : ((live s.gpus).filterMap fun g => g.sample.map sampleRow).length ≤
        (live s.gpus).length := List.length_filterMap_le _ _
    have hmemory := memoryRows_length (live s.gpus)
    have hcap := capacity_eq s
    unfold PID_INFO_MAX_COUNT at hmemory
    have hnew : Holds ((live s.gpus).length * 201) []
        ⟨.new ((firstAt s.gpus 0).nGpus * MAX_PROCS_PER_GPU).toNat, []⟩ := ⟨rfl, hcap, rfl⟩
    have hroom : (([] : List (UInt32 × GpuProc)).length +
        ((firstAt s.gpus 0).samples.filterMap (Option.map sampleRow)).length) ≤
        (live s.gpus).length * 201 := by
      rw [hsamples, List.length_nil]
      omega
    have hstaged := hnew.foldl pushSample_row hroom
    rw [hsamples, List.nil_append] at hstaged
    have hvalid : ∀ i (h : i < s.gpus.length), (firstAt s.gpus 0).valid[0 + i]? =
        some s.gpus[i].answers := fun i h => by simp [firstAt, h]
    obtain ⟨staged, hrun, hitems, -, hrefused⟩ := phase2_run s.gpus 0 hvalid hstaged (by omega)
    refine ⟨⟨freezeMap staged.buf.items mergeProc, _, _, _, _, staged.refused⟩, ?_, ?_, hrefused,
      rfl, rfl, rfl, rfl⟩
    · rw [populate, if_pos hconnected, phase1_eq, Outcome.some_bind]
      dsimp only
      rw [hrun, Outcome.some_bind, Outcome.pure_eq]
    · rw [hitems]
      rfl

instance : Std.Commutative (combined mergeProc) where
  comm a b := by
    simp only [combined, mergeProc, UInt32.add_comm]

instance : Std.Associative (combined mergeProc) where
  assoc a b c := by
    simp only [combined, mergeProc, UInt32.add_assoc]

theorem mib_toNat (entry : PidInfo) :
    (entry.memSharedOwned >>> 20).toUInt32.toNat =
      entry.memSharedOwned.toNat / 2 ^ 20 % 2 ^ 32 := by
  rw [UInt64.toNat_toUInt32, UInt64.toNat_shiftRight, Nat.shiftRight_eq_div_pow]
  rfl

theorem sampled_iff (g : Gpu) (pid : UInt32) :
    g.sampled pid ↔ ∃ smPct, g.sample = some (pid, smPct) := by
  unfold Gpu.sampled Gpu.sample
  cases g.latest with
  | none => simp
  | some gr =>
    simp only [Option.any_some, Option.bind_some, Bool.and_eq_true, decide_eq_true_eq]
    constructor
    · rintro ⟨hpid, rfl⟩
      exact ⟨_, if_pos hpid⟩
    · rintro ⟨smPct, hsample⟩
      obtain ⟨hne, hpair⟩ := Option.ite_none_right_eq_some.mp hsample
      obtain ⟨rfl, -⟩ := Prod.mk.inj (Option.some.inj hpair)
      exact ⟨hne, rfl⟩

theorem memoryRow_eq (entry : PidInfo) :
    memoryRow entry = if entry.mib = 0 then none
      else some (entry.pid, ⟨0, (entry.memSharedOwned >>> 20).toUInt32⟩) := by
  have hmib : (entry.memSharedOwned >>> 20).toUInt32.toNat = entry.mib := mib_toNat entry
  unfold memoryRow
  dsimp only
  by_cases hzero : entry.mib = 0
  · rw [if_pos hzero, if_neg]
    intro hpos
    have := UInt32.lt_iff_toNat_lt.mp hpos
    rw [hmib, hzero] at this
    exact absurd this (Nat.lt_irrefl 0)
  · rw [if_neg hzero, if_pos]
    refine UInt32.lt_iff_toNat_lt.mpr ?_
    rw [hmib]
    exact Nat.pos_of_ne_zero hzero

theorem figures_iff (g : Gpu) (pid : UInt32) :
    (∃ mib ≠ 0, (pid, mib) ∈ g.figures) ↔ ∃ p, (pid, p) ∈ g.memoryRows := by
  constructor
  · rintro ⟨mib, hne, hmem⟩
    obtain ⟨entry, hentry, heq⟩ := List.mem_map.mp hmem
    obtain ⟨rfl, rfl⟩ := Prod.mk.inj heq
    exact ⟨_, List.mem_filterMap.mpr ⟨entry, hentry, (memoryRow_eq entry).trans (if_neg hne)⟩⟩
  · rintro ⟨p, hmem⟩
    obtain ⟨entry, hentry, hrow⟩ := List.mem_filterMap.mp hmem
    rw [memoryRow_eq] at hrow
    obtain ⟨hne, heq⟩ := Option.ite_none_left_eq_some.mp hrow
    obtain ⟨rfl, -⟩ := Prod.mk.inj (Option.some.inj heq)
    exact ⟨entry.mib, hne, List.mem_map.mpr ⟨entry, hentry, rfl⟩⟩

theorem mem_live {g : Gpu} : g ∈ live gpus ↔ g ∈ gpus ∧ g.answers := List.mem_filter

theorem stagedRows_pids :
    pid ∈ (stagedRows gpus).map (·.1) ↔ ∃ g ∈ gpus, g.answers ∧ g.Reports pid := by
  have hsample : pid ∈ ((live gpus).filterMap fun g => g.sample.map sampleRow).map (·.1) ↔
      ∃ g ∈ live gpus, g.sampled pid := by
    simp only [sampled_iff, List.mem_map, List.mem_filterMap, Option.map_eq_some_iff]
    constructor
    · rintro ⟨row, ⟨g, hg, ⟨p, smPct⟩, hsample, rfl⟩, rfl⟩
      exact ⟨g, hg, smPct, hsample⟩
    · rintro ⟨g, hg, smPct, hsample⟩
      exact ⟨_, ⟨g, hg, (pid, smPct), hsample, rfl⟩, rfl⟩
  have hmemory : pid ∈ ((live gpus).flatMap Gpu.memoryRows).map (·.1) ↔
      ∃ g ∈ live gpus, ∃ mib ≠ 0, (pid, mib) ∈ g.figures := by
    simp only [figures_iff, List.mem_map, List.mem_flatMap]
    constructor
    · rintro ⟨⟨p, v⟩, ⟨g, hg, hrow⟩, rfl⟩
      exact ⟨g, hg, v, hrow⟩
    · rintro ⟨g, hg, v, hrow⟩
      exact ⟨(pid, v), ⟨g, hg, hrow⟩, rfl⟩
  rw [stagedRows, List.map_append, List.mem_append, hsample, hmemory, ← exists_or]
  simp only [← and_or_left, mem_live, and_assoc]
  rfl

theorem sample_values (g : Gpu) (pid : UInt32) :
    Keyed.valuesAt pid (g.sample.map sampleRow).toList =
      if g.sampled pid then [⟨g.pct, 0⟩] else [] := by
  unfold Gpu.sample Gpu.sampled Gpu.pct
  cases g.latest with
  | none => simp [Keyed.valuesAt]
  | some gr =>
    by_cases hpid : gr.procId = pid <;> by_cases hzero : gr.procId = 0 <;>
      simp_all [Keyed.valuesAt, sampleRow]

theorem memory_values (entries : List PidInfo) (pid : UInt32) :
    ((Keyed.valuesAt pid (entries.filterMap memoryRow)).map (·.memMib.toNat)).sum =
        (Keyed.valuesAt pid (entries.map fun e => (e.pid, e.mib))).sum ∧
      ((Keyed.valuesAt pid (entries.filterMap memoryRow)).map (·.smPct.toNat)).sum = 0 := by
  induction entries with
  | nil => exact ⟨rfl, rfl⟩
  | cons entry entries ih =>
    obtain ⟨hmem, hpct⟩ := ih
    have hmib : (entry.memSharedOwned >>> 20).toUInt32.toNat = entry.mib := mib_toNat entry
    have hrow := memoryRow_eq entry
    rw [List.map_cons, Keyed.valuesAt_cons]
    by_cases hzero : entry.mib = 0
    · rw [if_pos hzero] at hrow
      rw [List.filterMap_cons_none hrow, hmem, hzero]
      refine ⟨?_, hpct⟩
      split
      · rw [List.sum_cons, Nat.zero_add]
      · rfl
    · rw [if_neg hzero] at hrow
      rw [List.filterMap_cons_some hrow, Keyed.valuesAt_cons]
      by_cases hpid : entry.pid = pid
      · rw [if_pos hpid, if_pos hpid, List.map_cons, List.sum_cons, List.map_cons, List.sum_cons,
          List.sum_cons, hmem, hmib, hpct]
        exact ⟨rfl, rfl⟩
      · rw [if_neg hpid, if_neg hpid]
        exact ⟨hmem, hpct⟩

theorem stagedRows_sum (gpus : List Gpu) (pid : UInt32) (f : GpuProc → ℕ) :
    ((Keyed.valuesAt pid (stagedRows gpus)).map f).sum =
      across gpus (fun g => ((Keyed.valuesAt pid (g.sample.map sampleRow).toList).map f).sum +
        ((Keyed.valuesAt pid g.memoryRows).map f).sum) := by
  rw [stagedRows, Keyed.valuesAt_append, List.map_append, List.sum_append, across,
    List.sum_map_add]
  congr 1
  · induction live gpus with
    | nil => rfl
    | cons g gs ih =>
      have hsplit : (g :: gs).filterMap (fun g => g.sample.map sampleRow) =
          (g.sample.map sampleRow).toList ++ gs.filterMap fun g => g.sample.map sampleRow := by
        rw [List.filterMap_cons]
        cases g.sample.map sampleRow <;> rfl
      rw [List.map_cons, List.sum_cons, ← ih, hsplit, Keyed.valuesAt_append, List.map_append,
        List.sum_append]
  · induction live gpus with
    | nil => rfl
    | cons g gs ih =>
      rw [List.flatMap_cons, Keyed.valuesAt_append, List.map_append, List.sum_append, ih,
        List.map_cons, List.sum_cons]

theorem staged_memory (gpus : List Gpu) (pid : UInt32) :
    ((Keyed.valuesAt pid (stagedRows gpus)).map (·.memMib.toNat)).sum =
      across gpus (·.memoryOf pid) := by
  rw [stagedRows_sum]
  refine congrArg (fun f => across gpus f) (funext fun g => ?_)
  have hmem : ((Keyed.valuesAt pid g.memoryRows).map (·.memMib.toNat)).sum = g.memoryOf pid :=
    (memory_values g.listed pid).1
  rw [hmem, sample_values]
  split
  · exact Nat.zero_add _
  · exact Nat.zero_add _

theorem staged_util (gpus : List Gpu) (pid : UInt32) :
    ((Keyed.valuesAt pid (stagedRows gpus)).map (·.smPct.toNat)).sum =
      across gpus (·.utilOf pid) := by
  rw [stagedRows_sum]
  refine congrArg (fun f => across gpus f) (funext fun g => ?_)
  have hpct : ((Keyed.valuesAt pid g.memoryRows).map (·.smPct.toNat)).sum = 0 :=
    (memory_values g.listed pid).2
  rw [hpct, sample_values, Gpu.utilOf]
  split
  · exact g.pct_toNat
  · rfl

theorem across_le {gpus : List Gpu} {f : Gpu → ℕ} {n : ℕ} (h : ∀ g, f g ≤ n) :
    across gpus f ≤ gpus.length * n := by
  have hlen := Nat.mul_le_mul_right n (live_length gpus)
  refine le_trans ?_ hlen
  have := List.sum_le_card_nsmul ((live gpus).map f) n fun x hx => by
    obtain ⟨g, -, rfl⟩ := List.mem_map.mp hx
    exact h g
  rwa [List.length_map, smul_eq_mul] at this

theorem usedMib_le (g : Gpu) : g.usedMib ≤ 2 ^ 32 := by
  unfold Gpu.usedMib
  cases g.fbInfo with
  | none => exact Nat.zero_le _
  | some kib =>
    have := kib.1.toNat_lt
    rw [Option.map_some, Option.getD_some]
    omega

theorem totalMib_le (g : Gpu) : g.totalMib ≤ 2 ^ 32 := by
  unfold Gpu.totalMib
  cases g.fbInfo with
  | none => exact Nat.zero_le _
  | some kib =>
    have := kib.1.toNat_lt
    rw [Option.map_some, Option.getD_some]
    omega

theorem across_toUInt64 (s : State) {f : Gpu → ℕ} (h : ∀ g, f g ≤ 2 ^ 32) :
    (across s.gpus f).toUInt64.toNat = across s.gpus f := by
  have hfits := s.fits
  have hle := @across_le s.gpus f _ h
  unfold Arena.SIZE at hfits
  exact Nat.mod_eq_of_lt (hle.trans_lt (by omega))

theorem populate_accounts (s : State) : ∃ snapshot, populate s = .some snapshot ∧
    Accounts s.gpus snapshot := by
  obtain ⟨snapshot, hrun, hentries, hrefused, hcount, hutil, hused, htotal⟩ := populate_eq s
  refine ⟨snapshot, hrun, hrefused, snapshot.entries.sorted, fun pid => ?_, fun pid p hp => ?_, ?_, ?_,
    ?_, ?_⟩
  · rw [hentries, freezeMap_keys, stagedRows_pids]
  · have hget := (Map.get_eq_some _ _ _).mpr hp
    rw [hentries, freezeMap_get] at hget
    have hmem : ∀ a b : GpuProc, (combined mergeProc a b).memMib.toNat =
        (a.memMib.toNat + b.memMib.toNat) % 2 ^ 32 := fun a b => UInt32.toNat_add _ _
    have hpct : ∀ a b : GpuProc, (combined mergeProc a b).smPct.toNat =
        (a.smPct.toNat + b.smPct.toNat) % 2 ^ 32 := fun a b => UInt32.toNat_add _ _
    rw [← staged_memory, ← staged_util]
    constructor
    · exact Keyed.pooled_sum (combined mergeProc) (fun v => v.memMib.toNat_lt) hmem hget
    · exact Keyed.pooled_sum (combined mergeProc) (fun v => v.smPct.toNat_lt) hpct hget
  · have hfits := s.fits
    have hlive := live_length s.gpus
    unfold Arena.SIZE at hfits
    rw [hcount, firstAt, across_one]
    exact Nat.mod_eq_of_lt (by omega)
  · rw [hutil]
    rfl
  · rw [hused]
    exact across_toUInt64 s usedMib_le
  · rw [htotal]
    exact across_toUInt64 s totalMib_le

def board : Gpu where
  fbInfo := some (16777216, 8388608)
  perfmon := some ⟨2, (Vector.replicate SAMPLE_COUNT ⟨0, 0⟩).setIfInBounds 1 ⟨4200, 77⟩⟩
  pids := some ⟨2, ((Vector.replicate PIDS_MAX_COUNT 0).setIfInBounds 0 77).setIfInBounds 1 78⟩
  pidInfo := fun _ => some (((Vector.replicate PID_INFO_MAX_COUNT ⟨0, 0⟩).setIfInBounds 0
    ⟨77, 1073741824⟩).setIfInBounds 1 ⟨78, 2097152⟩)

def silent : Gpu := ⟨none, none, none, fun _ => none⟩

theorem boards_fit : [board, silent, board].length * 8 ≤ Arena.SIZE := by decide

def boards : State := ⟨true, [board, silent, board], boards_fit, fun h => nomatch h⟩

theorem populate_accounts_boards : ∃ snapshot, populate boards = .some snapshot ∧
    Accounts [board, silent, board] snapshot :=
  populate_accounts boards

end Rm

end Ltop
