import Mathlib
import Ltop.Library.Outcome
import Ltop.Arena
import Ltop.Frozen

namespace Ltop

namespace Rm

def SAMPLE_COUNT : ℕ := 72

def PIDS_MAX_COUNT : ℕ := 950

def PID_INFO_MAX_COUNT : ℕ := 200

def MAX_PROCS_PER_GPU : UInt32 := 1 + PID_INFO_MAX_COUNT.toUInt32

structure GpuProc where
  smPct : UInt32
  memMib : UInt32
deriving DecidableEq

structure EngineUtil where
  util : UInt32
  procId : UInt32

structure UtilSamples where
  count : UInt32
  samples : Vector EngineUtil SAMPLE_COUNT

structure Pids where
  pidTblCount : UInt32
  pidTbl : Vector UInt32 PIDS_MAX_COUNT

structure PidInfo where
  pid : UInt32
  memSharedOwned : UInt64

structure Gpu where
  fbInfo : Option (UInt32 × UInt32)
  perfmon : Option UtilSamples
  pids : Option Pids
  pidInfo : List UInt32 → Option (Vector PidInfo PID_INFO_MAX_COUNT)

structure State where
  connected : Bool
  gpus : List Gpu
  fits : gpus.length * 8 ≤ Arena.SIZE
  idle : connected = false → gpus = []

def index {α : Type} (xs : List α) (i : ℕ) : Outcome α :=
  match xs[i]? with
  | none => .fault .index
  | some x => .some x

def assign {α : Type} (xs : List α) (i : ℕ) (x : α) : Outcome (List α) :=
  if i < xs.length then .some (xs.set i x) else .fault .index

def slice {α : Type} (xs : List α) (n : ℕ) : Outcome (List α) :=
  if n ≤ xs.length then .some (xs.take n) else .fault .index

def fbMemory (g : Gpu) : Option (UInt64 × UInt64) :=
  match g.fbInfo with
  | none => none
  | some (totalKib, freeKib) =>
    let used := if freeKib ≤ totalKib then totalKib.toUInt64 - freeKib.toUInt64 else 0
    some (used >>> 10, totalKib.toUInt64 >>> 10)

def perfmonUtil (g : Gpu) (sampleOut : Option (UInt32 × UInt32)) :
    Outcome (UInt32 × Option (UInt32 × UInt32)) :=
  match g.perfmon with
  | none => .some (0, sampleOut)
  | some buf =>
    let n := min buf.count.toNat SAMPLE_COUNT
    if n = 0 then .some (0, sampleOut)
    else do
      let gr ← index buf.samples.toList (n - 1)
      let pct := gr.util / 100
      pure (pct, if gr.procId ≠ 0 then some (gr.procId, pct) else sampleOut)

structure Phase1 where
  samples : List (Option (UInt32 × UInt32))
  valid : List Bool
  nGpus : UInt32
  totalUtil : UInt32
  totalUsedMib : UInt64
  totalMib : UInt64

def phase1Step (st : Phase1) (slot : Gpu × ℕ) : Outcome Phase1 :=
  match fbMemory slot.1 with
  | none => .some st
  | some (used, tot) => do
    let sample ← index st.samples slot.2
    let (util, sample) ← perfmonUtil slot.1 sample
    let samples ← assign st.samples slot.2 sample
    let valid ← assign st.valid slot.2 true
    pure
      { samples := samples
        valid := valid
        nGpus := st.nGpus + 1
        totalUtil := st.totalUtil + util
        totalUsedMib := st.totalUsedMib + used
        totalMib := st.totalMib + tot }

def phase1 (gpus : List Gpu) : Outcome Phase1 :=
  gpus.zipIdx.foldlM phase1Step
    ⟨List.replicate gpus.length none, List.replicate gpus.length false, 0, 0, 0, 0⟩

structure Staging where
  buf : FVec (UInt32 × GpuProc)
  refused : List (UInt32 × GpuProc)

def Staging.push (st : Staging) (row : UInt32 × GpuProc) : Staging :=
  match st.buf.push row with
  | (buf, none) => { st with buf := buf }
  | (buf, some row) => { buf := buf, refused := st.refused ++ [row] }

def pushSample (st : Staging) (sample : Option (UInt32 × UInt32)) : Staging :=
  match sample with
  | none => st
  | some (pid, smPct) => st.push (pid, ⟨smPct, 0⟩)

def pushMemory (st : Staging) (entry : PidInfo) : Staging :=
  let mib := (entry.memSharedOwned >>> 20).toUInt32
  if mib > 0 then st.push (entry.pid, ⟨0, mib⟩) else st

def requests (pids : Pids) (blank : List UInt32) : ℕ → Outcome (List UInt32)
  | 0 => .some blank
  | n + 1 => do
    let list ← requests pids blank n
    let pid ← index pids.pidTbl.toList n
    assign list n pid

def procMemory (g : Gpu) (st : Staging) : Outcome Staging :=
  match g.pids with
  | none => .some st
  | some pids =>
    let n := min pids.pidTblCount.toNat PID_INFO_MAX_COUNT
    if n = 0 then .some st
    else do
      let request ← requests pids (List.replicate PID_INFO_MAX_COUNT 0) n
      match g.pidInfo request with
      | none => .some st
      | some pidInfoList => do
        let entries ← slice pidInfoList.toList n
        pure (entries.foldl pushMemory st)

def phase2Step (valid : List Bool) (st : Staging) (slot : Gpu × ℕ) : Outcome Staging := do
  let ok ← index valid slot.2
  if ok then procMemory slot.1 st else pure st

def mergeProc (a b : GpuProc) : GpuProc × GpuProc := (⟨a.smPct + b.smPct, a.memMib + b.memMib⟩, b)

structure Snapshot where
  entries : Map GpuProc
  nGpus : UInt32
  totalUtil : UInt32
  totalUsedMib : UInt64
  totalMib : UInt64
  refused : List (UInt32 × GpuProc)

def populate (state : State) : Outcome Snapshot :=
  if state.connected then do
    let first ← phase1 state.gpus
    let staged := first.samples.foldl pushSample
      ⟨.new (first.nGpus * MAX_PROCS_PER_GPU).toNat, []⟩
    let staged ← state.gpus.zipIdx.foldlM (phase2Step first.valid) staged
    pure
      { entries := freezeMap staged.buf.items mergeProc
        nGpus := first.nGpus
        totalUtil := first.totalUtil
        totalUsedMib := first.totalUsedMib
        totalMib := first.totalMib
        refused := staged.refused }
  else .some ⟨.empty, 0, 0, 0, 0, []⟩

def PidInfo.mib (entry : PidInfo) : ℕ := entry.memSharedOwned.toNat / 2 ^ 20 % 2 ^ 32

namespace Gpu

variable (g : Gpu)

def answers : Bool := g.fbInfo.isSome

def latest : Option EngineUtil :=
  match g.perfmon with
  | none => none
  | some buf =>
    if buf.count = 0 then none else buf.samples[min buf.count.toNat SAMPLE_COUNT - 1]?

def util : ℕ := (g.latest.map fun gr => gr.util.toNat / 100).getD 0

def sampled (pid : UInt32) : Bool := pid ≠ 0 && g.latest.any fun gr => gr.procId = pid

def listed : List PidInfo :=
  match g.pids with
  | none => []
  | some pids =>
    let n := min pids.pidTblCount.toNat PID_INFO_MAX_COUNT
    match g.pidInfo (pids.pidTbl.toList.take n ++ List.replicate (PID_INFO_MAX_COUNT - n) 0) with
    | none => []
    | some list => list.toList.take n

def figures : List (UInt32 × ℕ) := g.listed.map fun e => (e.pid, e.mib)

def utilOf (pid : UInt32) : ℕ := if g.sampled pid then g.util else 0

def memoryOf (pid : UInt32) : ℕ := (Keyed.valuesAt pid g.figures).sum

def Reports (pid : UInt32) : Prop :=
  g.sampled pid ∨ ∃ mib ≠ 0, (pid, mib) ∈ g.figures

def usedMib : ℕ := (g.fbInfo.map fun kib => (kib.1.toNat - kib.2.toNat) / 2 ^ 10).getD 0

def totalMib : ℕ := (g.fbInfo.map fun kib => kib.1.toNat / 2 ^ 10).getD 0

end Gpu

def live (gpus : List Gpu) : List Gpu := gpus.filter Gpu.answers

def across (gpus : List Gpu) (f : Gpu → ℕ) : ℕ := ((live gpus).map f).sum

structure Accounts (gpus : List Gpu) (s : Snapshot) : Prop where
  kept : s.refused = []
  ascending : s.entries.entries.Pairwise fun a b => a.1 < b.1
  pids : ∀ pid, pid ∈ s.entries.entries.map (·.1) ↔ ∃ g ∈ gpus, g.answers ∧ g.Reports pid
  sums : ∀ pid p, (pid, p) ∈ s.entries.entries →
    p.memMib.toNat = across gpus (·.memoryOf pid) % 2 ^ 32 ∧
      p.smPct.toNat = across gpus (·.utilOf pid) % 2 ^ 32
  nGpus : s.nGpus.toNat = (live gpus).length
  totalUtil : s.totalUtil.toNat = across gpus Gpu.util % 2 ^ 32
  totalUsedMib : s.totalUsedMib.toNat = across gpus Gpu.usedMib
  totalMib : s.totalMib.toNat = across gpus Gpu.totalMib

variable {α : Type} {xs : List α} {i n cap : ℕ} {x : α}

theorem index_eq (h : xs[i]? = some x) : index xs i = .some x := by
  rw [index, h]

theorem assign_eq (h : i < xs.length) (x : α) : assign xs i x = .some (xs.set i x) := if_pos h

theorem slice_eq (h : n ≤ xs.length) : slice xs n = .some (xs.take n) := if_pos h

namespace Gpu

variable (g : Gpu)

def pct : UInt32 := (g.latest.map fun gr => gr.util / 100).getD 0

def sample : Option (UInt32 × UInt32) :=
  g.latest.bind fun gr => if gr.procId ≠ 0 then some (gr.procId, gr.util / 100) else none

def stash : Option (UInt32 × UInt32) := if g.answers then g.sample else none

theorem pct_toNat : g.pct.toNat = g.util := by
  unfold pct util
  cases g.latest with
  | none => rfl
  | some gr =>
    have hdiv := UInt32.toNat_div gr.util 100
    exact hdiv

end Gpu

theorem perfmonUtil_eq (g : Gpu) (out : Option (UInt32 × UInt32)) :
    perfmonUtil g out = .some (g.pct, g.sample <|> out) := by
  unfold perfmonUtil Gpu.pct Gpu.sample Gpu.latest
  cases g.perfmon with
  | none => rfl
  | some buf =>
    dsimp only
    by_cases hzero : buf.count = 0
    · rw [if_pos (by rw [hzero]; rfl), if_pos hzero]
      rfl
    · have hpos : 0 < buf.count.toNat := Nat.pos_of_ne_zero fun h => hzero (UInt32.toNat_inj.mp h)
      have hlt : min buf.count.toNat SAMPLE_COUNT - 1 < SAMPLE_COUNT := by
        unfold SAMPLE_COUNT
        omega
      have hget : buf.samples.toList[min buf.count.toNat SAMPLE_COUNT - 1]? =
          some buf.samples[min buf.count.toNat SAMPLE_COUNT - 1] := by
        simp [hlt]
      rw [if_neg (by unfold SAMPLE_COUNT; omega), if_neg hzero, index_eq hget,
        getElem?_pos buf.samples _ hlt]
      simp only [Outcome.some_bind, Outcome.pure_eq, Option.map_some, Option.getD_some,
        Option.bind_some]
      split <;> rfl

theorem shiftRight_ten (a : UInt64) : a >>> 10 = (a.toNat / 2 ^ 10).toUInt64 := by
  refine UInt64.toNat_inj.mp ?_
  have hlt : a.toNat / 2 ^ 10 < 2 ^ 64 := (Nat.div_le_self _ _).trans_lt a.toNat_lt
  have hword : (a.toNat / 2 ^ 10).toUInt64.toNat = a.toNat / 2 ^ 10 % 2 ^ 64 := rfl
  rw [UInt64.toNat_shiftRight, hword, Nat.mod_eq_of_lt hlt, Nat.shiftRight_eq_div_pow]
  rfl

theorem fbMemory_eq (g : Gpu) :
    fbMemory g = if g.answers then some (g.usedMib.toUInt64, g.totalMib.toUInt64) else none := by
  unfold fbMemory Gpu.answers Gpu.usedMib Gpu.totalMib
  cases g.fbInfo with
  | none => rfl
  | some kib =>
    obtain ⟨total, free⟩ := kib
    have hused : (if free ≤ total then total.toUInt64 - free.toUInt64 else 0).toNat =
        total.toNat - free.toNat := by
      split
      · rename_i hle
        have hle := UInt32.le_iff_toNat_le.mp hle
        rw [UInt64.toNat_sub_of_le _ _ (UInt64.le_iff_toNat_le.mpr (by simpa using hle))]
        simp
      · rename_i hlt
        have hlt := UInt32.le_iff_toNat_le.not.mp hlt
        rw [Nat.sub_eq_zero_of_le (by omega)]
        rfl
    simp only [shiftRight_ten, hused, UInt32.toNat_toUInt64, Option.isSome_some, if_true,
      Option.map_some, Option.getD_some]

theorem across_concat (done : List Gpu) (g : Gpu) (f : Gpu → ℕ) :
    across (done ++ [g]) f = across done f + if g.answers then f g else 0 := by
  unfold across live
  rw [List.filter_append, List.map_append, List.sum_append, List.filter_singleton]
  cases g.answers <;> simp

def firstAt (done : List Gpu) (left : ℕ) : Phase1 where
  samples := done.map Gpu.stash ++ List.replicate left none
  valid := done.map Gpu.answers ++ List.replicate left false
  nGpus := (across done fun _ => 1).toUInt32
  totalUtil := (across done Gpu.util).toUInt32
  totalUsedMib := (across done Gpu.usedMib).toUInt64
  totalMib := (across done Gpu.totalMib).toUInt64

theorem next_slot {f : Gpu → α} (done : List Gpu) (x y : α) (left : ℕ) :
    (done.map f ++ List.replicate (left + 1) x).set done.length y =
      done.map f ++ y :: List.replicate left x := by
  rw [List.set_append_right _ _ (by simp), List.length_map, Nat.sub_self, List.replicate_succ,
    List.set_cons_zero]

theorem firstAt_concat (done : List Gpu) (g : Gpu) (left : ℕ) :
    firstAt (done ++ [g]) left =
      { samples := done.map Gpu.stash ++ g.stash :: List.replicate left none
        valid := done.map Gpu.answers ++ g.answers :: List.replicate left false
        nGpus := (across done fun _ => 1).toUInt32 + (if g.answers then 1 else 0)
        totalUtil := (across done Gpu.util).toUInt32 + (if g.answers then g.pct else 0)
        totalUsedMib := (across done Gpu.usedMib).toUInt64 +
          (if g.answers then g.usedMib.toUInt64 else 0)
        totalMib := (across done Gpu.totalMib).toUInt64 +
          (if g.answers then g.totalMib.toUInt64 else 0) } := by
  have hpct : g.pct = g.util.toUInt32 := by
    rw [← g.pct_toNat]
    exact UInt32.ofNat_toNat.symm
  simp only [firstAt, across_concat, List.map_append, List.map_singleton, List.append_assoc,
    List.singleton_append, hpct]
  cases g.answers with
  | false => simp
  | true => simp [Nat.toUInt32, Nat.toUInt64, UInt32.ofNat_add, UInt64.ofNat_add]

theorem phase1Step_eq (done : List Gpu) (g : Gpu) (left : ℕ) :
    phase1Step (firstAt done (left + 1)) (g, done.length) = .some (firstAt (done ++ [g]) left) := by
  unfold phase1Step
  rw [fbMemory_eq, firstAt_concat]
  cases hg : g.answers with
  | false => simp [firstAt, Gpu.stash, hg, List.replicate_succ]
  | true =>
    have hslot : (firstAt done (left + 1)).samples[done.length]? = some none := by
      simp [firstAt]
    have hsamples : done.length < (firstAt done (left + 1)).samples.length := by
      simp [firstAt]
    have hvalid : done.length < (firstAt done (left + 1)).valid.length := by
      simp [firstAt]
    simp only [if_true, index_eq hslot, Outcome.some_bind, perfmonUtil_eq, assign_eq hsamples,
      assign_eq hvalid, Outcome.pure_eq]
    have hstash : g.stash = g.sample := if_pos hg
    simp only [firstAt, next_slot, hstash]
    simp

theorem phase1_run (done todo : List Gpu) :
    (todo.zipIdx done.length).foldlM phase1Step (firstAt done todo.length) =
      .some (firstAt (done ++ todo) 0) := by
  induction todo generalizing done with
  | nil => simp
  | cons g todo ih =>
    have hnext := ih (done ++ [g])
    rw [List.length_append, List.length_singleton, List.append_assoc, List.singleton_append] at hnext
    rw [List.zipIdx_cons, List.foldlM_cons, List.length_cons, phase1Step_eq, Outcome.some_bind, hnext]

theorem phase1_eq (gpus : List Gpu) : phase1 gpus = .some (firstAt gpus 0) :=
  phase1_run [] gpus

structure Holds (cap : ℕ) (rows : List (UInt32 × GpuProc)) (st : Staging) : Prop where
  items : st.buf.items = rows
  capacity : st.buf.capacity = cap
  refused : st.refused = []

variable {rows : List (UInt32 × GpuProc)} {st : Staging}

theorem Holds.push (h : Holds cap rows st) (hroom : rows.length < cap) (row : UInt32 × GpuProc) :
    Holds cap (rows ++ [row]) (st.push row) := by
  obtain ⟨hitems, hcap, hrefused⟩ := h
  have hlt : st.buf.items.length < st.buf.capacity := by rwa [hitems, hcap]
  have hpush : st.push row = { st with buf := (st.buf.push row).1 } := by
    have hnone := FVec.push_accepts hlt row
    unfold Staging.push
    generalize st.buf.push row = pushed at hnone
    obtain ⟨buf, refused⟩ := pushed
    subst hnone
    rfl
  rw [hpush]
  refine ⟨?_, ?_, hrefused⟩
  · rw [FVec.push_items hlt, hitems]
  · rw [FVec.push_capacity, hcap]

theorem Holds.foldl {f : Staging → α → Staging} {row : α → Option (UInt32 × GpuProc)}
    (hf : ∀ st a, f st a = match row a with
      | none => st
      | some r => st.push r) (h : Holds cap rows st) {as : List α}
    (hroom : rows.length + (as.filterMap row).length ≤ cap) :
    Holds cap (rows ++ as.filterMap row) (as.foldl f st) := by
  induction as generalizing rows st with
  | nil => simpa using h
  | cons a as ih =>
    rw [List.foldl_cons, hf]
    cases hrow : row a with
    | none =>
      rw [List.filterMap_cons_none hrow] at hroom ⊢
      exact ih h hroom
    | some r =>
      rw [List.filterMap_cons_some hrow] at hroom ⊢
      rw [List.length_cons] at hroom
      have hnext := ih (h.push (by omega) r) (by rw [List.length_append, List.length_singleton]; omega)
      rwa [List.append_assoc, List.singleton_append] at hnext

def sampleRow (sample : UInt32 × UInt32) : UInt32 × GpuProc := (sample.1, ⟨sample.2, 0⟩)

def memoryRow (entry : PidInfo) : Option (UInt32 × GpuProc) :=
  let mib := (entry.memSharedOwned >>> 20).toUInt32
  if mib > 0 then some (entry.pid, ⟨0, mib⟩) else none

theorem pushSample_row (st : Staging) (sample : Option (UInt32 × UInt32)) :
    pushSample st sample = match sample.map sampleRow with
      | none => st
      | some r => st.push r := by
  cases sample <;> rfl

theorem pushMemory_row (st : Staging) (entry : PidInfo) :
    pushMemory st entry = match memoryRow entry with
      | none => st
      | some r => st.push r := by
  unfold pushMemory memoryRow
  dsimp only
  split <;> rfl

theorem requests_eq (pids : Pids) (blank : List UInt32) (hb : n ≤ blank.length)
    (hn : n ≤ PIDS_MAX_COUNT) :
    requests pids blank n = .some (pids.pidTbl.toList.take n ++ blank.drop n) := by
  induction n with
  | zero => rfl
  | succ n ih =>
    have htable : n < pids.pidTbl.toList.length := by
      rw [Vector.length_toList]
      exact hn
    have hlen : (pids.pidTbl.toList.take n).length = n := List.length_take_of_le htable.le
    rw [requests, ih (by omega) (by omega), Outcome.some_bind,
      index_eq (List.getElem?_eq_getElem htable), Outcome.some_bind,
      assign_eq (by rw [List.length_append, hlen, List.length_drop]; omega),
      List.set_append_right _ _ hlen.le, hlen, Nat.sub_self, List.drop_eq_getElem_cons hb,
      List.set_cons_zero, List.take_succ_eq_append_getElem htable, List.append_assoc,
      List.singleton_append]

theorem procMemory_eq (g : Gpu) (st : Staging) :
    procMemory g st = .some (g.listed.foldl pushMemory st) := by
  unfold procMemory Gpu.listed
  cases g.pids with
  | none => rfl
  | some pids =>
    dsimp only
    generalize hn : min pids.pidTblCount.toNat PID_INFO_MAX_COUNT = n
    have hle : n ≤ PID_INFO_MAX_COUNT := hn ▸ Nat.min_le_right _ _
    have hpids : n ≤ PIDS_MAX_COUNT := hle.trans (by decide)
    have hrequest := requests_eq pids (List.replicate PID_INFO_MAX_COUNT 0)
      (hle.trans_eq List.length_replicate.symm) hpids
    rw [List.drop_replicate] at hrequest
    rw [hrequest, Outcome.some_bind]
    cases g.pidInfo (pids.pidTbl.toList.take n ++ List.replicate (PID_INFO_MAX_COUNT - n) 0) with
    | none => exact ite_self _
    | some list =>
      have hslice : slice list.toList n = .some (list.toList.take n) :=
        slice_eq (hle.trans_eq Vector.length_toList.symm)
      dsimp only
      split
      · rename_i hzero
        rw [hzero, List.take_zero, List.foldl_nil]
      · rw [hslice, Outcome.some_bind, Outcome.pure_eq]

theorem listed_length (g : Gpu) : g.listed.length ≤ PID_INFO_MAX_COUNT := by
  unfold Gpu.listed
  cases g.pids with
  | none => exact Nat.zero_le _
  | some pids =>
    dsimp only
    split
    · exact Nat.zero_le _
    · rw [List.length_take]
      omega

def Gpu.memoryRows (g : Gpu) : List (UInt32 × GpuProc) := g.listed.filterMap memoryRow

theorem live_cons (g : Gpu) (gpus : List Gpu) :
    live (g :: gpus) = if g.answers then g :: live gpus else live gpus := List.filter_cons

theorem memoryRows_length (gpus : List Gpu) :
    (gpus.flatMap Gpu.memoryRows).length ≤ gpus.length * PID_INFO_MAX_COUNT := by
  induction gpus with
  | nil => exact Nat.zero_le _
  | cons g gpus ih =>
    have hrows : g.memoryRows.length ≤ PID_INFO_MAX_COUNT :=
      (List.length_filterMap_le _ _).trans (listed_length g)
    rw [List.flatMap_cons, List.length_append, List.length_cons, Nat.succ_mul]
    omega

theorem phase2_run {valid : List Bool} (todo : List Gpu) (k : ℕ)
    (hvalid : ∀ i (h : i < todo.length), valid[k + i]? = some todo[i].answers)
    (hst : Holds cap rows st)
    (hroom : rows.length + ((live todo).flatMap Gpu.memoryRows).length ≤ cap) :
    ∃ st', (todo.zipIdx k).foldlM (phase2Step valid) st = .some st' ∧
      Holds cap (rows ++ (live todo).flatMap Gpu.memoryRows) st' := by
  induction todo generalizing k rows st with
  | nil => exact ⟨st, rfl, by simpa [live] using hst⟩
  | cons g todo ih =>
    have hok : valid[k]? = some g.answers := hvalid 0 (Nat.succ_pos _)
    have hrest : ∀ i (h : i < todo.length), valid[k + 1 + i]? = some todo[i].answers := fun i h => by
      have := hvalid (i + 1) (by rw [List.length_cons]; omega)
      rwa [← Nat.add_assoc, Nat.add_right_comm] at this
    rw [List.zipIdx_cons, List.foldlM_cons, phase2Step, index_eq hok, Outcome.some_bind]
    rw [live_cons] at hroom ⊢
    cases hg : g.answers with
    | false =>
      rw [hg] at hroom
      exact ih (k + 1) hrest hst hroom
    | true =>
      rw [hg, if_pos rfl, List.flatMap_cons, List.length_append] at hroom
      have hpushed : Holds cap (rows ++ g.memoryRows) (g.listed.foldl pushMemory st) :=
        hst.foldl pushMemory_row (show _ + g.memoryRows.length ≤ cap by omega)
      rw [if_pos rfl, if_pos rfl, procMemory_eq, Outcome.some_bind, List.flatMap_cons,
        ← List.append_assoc]
      exact ih (k + 1) hrest hpushed (by rw [List.length_append]; omega)

end Rm

end Ltop
