import Mathlib
import Ltop.FastPath
import Ltop.Nvidia
import Ltop.Ticks

namespace Ltop

def CLOCK_TICKS : ℚ := 100

structure Sample where
  pid : UInt32
  parsed : Option Parsed
  args : List (List UInt8)

structure Tick where
  dt : ℚ
  samples : List Sample
  gpu : Map Rm.GpuProc
  distinct : (samples.map (·.pid)).Nodup

def gpuUsage (procs : Map Rm.GpuProc) (pid : UInt32) : Option (GpuUsage .linux) := do
  let gp ← procs.search pid
  if h : gp.memMib ≠ 0 then some ⟨gp.smPct, ⟨gp.memMib, h⟩⟩ else none

namespace Sample

variable (p : Sample) (prev : Map (Packed .linux))

def cpu (dt : ℚ) : ℚ :=
  match p.parsed with
  | none => 0
  | some st => computeCpu (prev.search p.pid) st.ageSecs st.totalTicks CLOCK_TICKS dt

def scanned (dt : ℚ) : Scanned := ⟨p.pid, p.parsed, p.cpu prev dt, p.args⟩

def counter : UInt64 := (p.parsed.map (·.totalTicks)).getD 0

end Sample

namespace Tick

variable (t : Tick) (prev : Map (Packed .linux))

def gpuPids : List UInt32 :=
  (freezeSet ((t.gpu.entries.filter fun e => e.2.smPct ≥ 0).map (·.1))).keys

def scan : List Scanned := t.samples.map (·.scanned prev t.dt)

def step : Option (List (ProcInfo .linux) × Map (Packed .linux)) := do
  let s ← collectLoop prev t.gpuPids (t.scan prev)
  let (procs, next) ← filterWithChildren (attachGpu (gpuUsage t.gpu) s.procs) prev s.next.items
  let prev' ← freezePrev next
  some (Sort.sortByU32Key (·.pid) procs, prev')

def row (p : Sample) : ProcInfo .linux :=
  let q := collectRow prev t.gpuPids true (p.scanned prev t.dt)
  match gpuUsage t.gpu q.pid with
  | some u => { q with gpu := some u }
  | none => q

def table : Table .linux t.samples.length := fun i => t.row prev (t.samples.get i)

def links : Table .linux t.samples.length := fun i =>
  let p := t.samples.get i
  { stub p.pid with ppid := (p.parsed.map (·.ppid)).getD 0 }

end Tick

def displayed (rows : List (ProcInfo .linux)) (pid : UInt32) : Bool := rows.any fun p => p.pid == pid

def runTicks (prev : Map (Packed .linux)) :
    List Tick → Option (List (List (ProcInfo .linux)) × Map (Packed .linux))
  | [] => some ([], prev)
  | t :: ts => do
    let (rows, prev) ← t.step prev
    let (frames, prev) ← runTicks prev ts
    some (rows :: frames, prev)

structure Ticked (prev : Map (Packed .linux)) (t : Tick) (rows : List (ProcInfo .linux))
    (prev' : Map (Packed .linux)) : Prop where
  filtered : ∃ kept table, Filtered prev (t.table prev) kept table ∧ rows.Perm (kept.map table)
  sorted : rows.Pairwise fun a b => a.pid < b.pid
  found : ∀ p ∈ t.samples, ∃ e, prev'.get p.pid = some e ∧
    e.cpuBits = Word.payload (p.counter >>> Packed.shift .linux).toUInt32 ∧
      (e.visible = true ↔ ∃ row ∈ rows, row.pid = p.pid)
  missing : ∀ pid, pid ∉ t.samples.map (·.pid) → prev'.get pid = none

variable {prev prev' : Map (Packed .linux)} {t : Tick} {rows : List (ProcInfo .linux)}

theorem Tick.row_pid (p : Sample) : (t.row prev p).pid = p.pid := by
  have hpid : (collectRow prev t.gpuPids true (p.scanned prev t.dt)).pid = p.pid :=
    collectRow_pid true (p.scanned prev t.dt)
  unfold Tick.row
  dsimp only
  split
  · exact hpid
  · exact hpid

theorem Tick.row_ppid (p : Sample) :
    (t.row prev p).ppid = (p.parsed.map (·.ppid)).getD 0 := by
  have hppid : (collectRow prev t.gpuPids true (p.scanned prev t.dt)).ppid =
      (p.parsed.map (·.ppid)).getD 0 :=
    collectRow_ppid true (p.scanned prev t.dt)
  unfold Tick.row
  dsimp only
  split
  · exact hppid
  · exact hppid

theorem Tick.table_distinct (t : Tick) (prev : Map (Packed .linux)) : Distinct (t.table prev) := by
  intro i j hij
  simp only [Tick.table, Tick.row_pid] at hij
  exact List.nodup_iff_injective_get.mp (t.distinct.of_map _) (List.inj_on_of_nodup_map t.distinct
    (List.get_mem _ _) (List.get_mem _ _) hij)

theorem sorted_pids {os : Os} {rows : List (ProcInfo os)} (hd : (rows.map (·.pid)).Nodup) :
    (Sort.sortByU32Key (·.pid) rows).Pairwise fun a b => a.pid < b.pid := by
  obtain ⟨hperm, hsorted⟩ := Sort.sortByU32Key_spec (fun p : ProcInfo os => p.pid) rows
  have hne := List.pairwise_map.mp ((hperm.map (·.pid)).nodup_iff.mpr hd)
  exact hsorted.imp₂ (fun a b hle hne => UInt32.lt_of_le_of_ne hle hne) hne

theorem Filtered.pids_nodup {os : Os} {n : ℕ} {procs : Table os n} {kept : List (Fin n)}
    {rows : Table os n} {prev : Map (Packed os)} (h : Filtered prev procs kept rows)
    (hd : Distinct procs) : ((kept.map rows).map (·.pid)).Nodup := by
  rw [List.map_map]
  refine (h.order.nodup (List.nodup_finRange n)).map fun i j hij => hd ?_
  simpa only [Function.comp_apply, h.pid] using hij

theorem step_ticked (prev : Map (Packed .linux)) (t : Tick) :
    ∃ rows prev', t.step prev = some (rows, prev') ∧ Ticked prev t rows prev' := by
  obtain ⟨s, hs, hprocs, hnext⟩ := collectLoop_eq prev t.gpuPids (t.scan prev)
  have hscan : (t.scan prev).map (·.pid) = t.samples.map (·.pid) := by
    rw [Tick.scan, List.map_map]
    rfl
  have hnodup : ((t.scan prev).map (·.pid)).Nodup := hscan ▸ t.distinct
  have hrows : attachGpu (gpuUsage t.gpu) s.procs = t.samples.map (t.row prev) := by
    rw [hprocs, collectProcs, Tick.scan, attachGpu, List.map_map, List.map_map]
    refine List.map_congr_left fun p _ => ?_
    simp only [Function.comp_apply, Tick.row]
    cases gpuUsage t.gpu (collectRow prev t.gpuPids true (p.scanned prev t.dt)).pid <;> rfl
  have hcounters : s.next.items = (t.scan prev).map collectNext := hnext
  obtain ⟨kept, table, next, hrun, hfiltered⟩ :=
    filterWithChildren_map t.samples (t.row prev) (t.table_distinct prev) prev s.next.items
  rw [← hrows] at hrun
  have hkept := filterWithChildren_next hrun
  have hkeys : next.map (·.1) = t.samples.map (·.pid) := by
    have h := congrArg (List.map (·.1)) hkept
    rw [List.map_map, List.map_map, hcounters, List.map_map] at h
    exact h.trans hscan
  obtain ⟨prev', hfreeze⟩ := freezePrev_total (hkeys ▸ t.distinct)
  have hmarks := filter_marks hnodup ((attachGpu_pid _ _).trans (hprocs ▸ collectProcs_pid _))
    (hcounters ▸ hrun)
  have hperm := (Sort.sortByU32Key_spec (fun p : ProcInfo .linux => p.pid) (kept.map table)).1
  refine ⟨_, prev', ?_, ⟨kept, table, hfiltered, hperm⟩,
    sorted_pids (hfiltered.pids_nodup (t.table_distinct prev)), fun p hp => ?_, fun pid hpid => ?_⟩
  · rw [Tick.step, hs]
    simp only [Option.bind_eq_bind, Option.bind_some, hrun, hfreeze]
  · have hmem : (p.pid, (collectNext (p.scanned prev t.dt)).2.cpuBits) ∈
        next.map fun e => (e.1, e.2.cpuBits) := by
      rw [hkept, hcounters, Tick.scan, List.map_map, List.map_map]
      exact List.mem_map.mpr ⟨p, hp, rfl⟩
    obtain ⟨⟨pid, e⟩, he, heq⟩ := List.mem_map.mp hmem
    obtain ⟨rfl, hbits⟩ := Prod.mk.inj heq
    refine ⟨e, (freezePrev_get hfreeze _ e).mpr he, hbits.trans (pack_cpuBits false _), ?_⟩
    rw [hmarks _ he]
    simp only [hperm.mem_iff]
  · rw [Option.eq_none_iff_forall_ne_some]
    intro e he
    exact hpid (hkeys ▸ List.mem_map_of_mem (f := (·.1)) ((freezePrev_get hfreeze pid e).mp he))

theorem Ticked.of_step (h : t.step prev = some (rows, prev')) : Ticked prev t rows prev' := by
  obtain ⟨rows', prev'', hstep, hticked⟩ := step_ticked prev t
  obtain ⟨rfl, rfl⟩ := Prod.mk.inj (Option.some.inj (h.symm.trans hstep))
  exact hticked

theorem runTicks_total (prev : Map (Packed .linux)) (ts : List Tick) :
    ∃ frames prev', runTicks prev ts = some (frames, prev') ∧ frames.length = ts.length := by
  induction ts generalizing prev with
  | nil => exact ⟨[], prev, rfl, rfl⟩
  | cons t ts ih =>
    obtain ⟨rows, prev', hstep, -⟩ := step_ticked prev t
    obtain ⟨frames, last, hrun, hlen⟩ := ih prev'
    refine ⟨rows :: frames, last, ?_, congrArg Nat.succ hlen⟩
    rw [runTicks, hstep]
    simp only [Option.bind_eq_bind, Option.bind_some, hrun]

end Ltop
