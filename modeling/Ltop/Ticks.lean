import Mathlib
import Ltop.Clock
import Ltop.Collect
import Ltop.Library.Search

namespace Ltop

variable {os : Os}

def FVec.assign {T : Type} (v : FVec T) (i : ℕ) (x : T) : Option (FVec T) :=
  if i < v.items.length then some ⟨v.capacity, v.items.set i x, by simpa using v.fits⟩ else none

def Map.search {V : Type} (m : Map V) (k : UInt32) : Option V :=
  (Search.search (fun e : UInt32 × V => e.1.toNat) m.entries k.toNat).bind fun i =>
    (m.entries[i]?).map (·.2)

theorem Map.search_eq {V : Type} (m : Map V) (k : UInt32) : m.search k = m.get k := by
  have hsorted : m.entries.Pairwise fun a b => a.1.toNat < b.1.toNat :=
    m.sorted.imp fun h => UInt32.lt_iff_toNat_lt.mp h
  ext v
  rw [Map.get_eq_some, Map.search, Option.bind_eq_some_iff]
  constructor
  · rintro ⟨i, hi, hv⟩
    obtain ⟨⟨k', v'⟩, hx, hk⟩ := Search.search_sound hi
    rw [hx] at hv
    obtain rfl := Option.some.inj hv
    obtain rfl := UInt32.toNat_inj.mp hk
    exact List.mem_of_getElem? hx
  · intro hmem
    obtain ⟨i, hi⟩ := List.mem_iff_getElem?.mp hmem
    exact ⟨i, Search.search_complete hsorted hi rfl, by rw [hi]; rfl⟩

structure Collecting where
  procs : List (ProcInfo .linux)
  next : FVec (UInt32 × Packed .linux)

variable (prev : Map (Packed .linux)) (gpuPids : List UInt32)

def collectStep (scan : List Scanned) (s : Collecting) (i : ℕ) : Option Collecting := do
  let pid := (← s.procs[i]?).pid
  let read ← scan[i]?
  let next := (s.next.push (pid, .pack false 0)).1
  match read.parsed with
  | none => some ⟨s.procs, next⟩
  | some st =>
    let next ← next.assign i (pid, .pack false st.totalTicks)
    some ⟨s.procs.set i (collectRow prev gpuPids true read), next⟩

def collectLoop (scan : List Scanned) : Option Collecting :=
  (List.range scan.length).foldlM (collectStep prev gpuPids scan)
    ⟨scan.map fun p => stub p.pid, FVec.new scan.length⟩

def attachGpu (usage : UInt32 → Option (GpuUsage os)) (procs : List (ProcInfo os)) :
    List (ProcInfo os) :=
  procs.map fun p => match usage p.pid with
    | some u => { p with gpu := some u }
    | none => p

structure Collected (scan : List Scanned) (i : ℕ) (s : Collecting) : Prop where
  procs : s.procs = (scan.take i).map (collectRow prev gpuPids true) ++
    (scan.drop i).map fun p => stub p.pid
  next : s.next.items = (scan.take i).map collectNext
  room : s.next.capacity = scan.length

variable {prev gpuPids}

theorem Collected.step {scan : List Scanned} {i : ℕ} {s : Collecting}
    (h : Collected prev gpuPids scan i s) (hi : i < scan.length) :
    ∃ s', collectStep prev gpuPids scan s i = some s' ∧
      Collected prev gpuPids scan (i + 1) s' := by
  have htake : (scan.take i).length = i := List.length_take_of_le hi.le
  have hprocs : s.procs = (scan.take i).map (collectRow prev gpuPids true) ++
      stub scan[i].pid :: (scan.drop (i + 1)).map fun p => stub p.pid := by
    rw [h.procs, List.drop_eq_getElem_cons hi, List.map_cons]
  have hdone : ((scan.take i).map (collectRow prev gpuPids true)).length = i := by
    rw [List.length_map, htake]
  have hstub : s.procs[i]? = some (stub scan[i].pid) := by
    rw [hprocs, List.getElem?_append_right hdone.le, hdone, Nat.sub_self]
    rfl
  have hlen : s.next.items.length = i := by
    rw [h.next, List.length_map, htake]
  have hpush := FVec.push_items (v := s.next) (by rw [hlen, h.room]; exact hi)
    (scan[i].pid, .pack false 0)
  have hroom := (FVec.push_capacity s.next (scan[i].pid, .pack false 0)).trans h.room
  have htaken : scan.take (i + 1) = scan.take i ++ [scan[i]] := List.take_succ_eq_append_getElem hi
  rw [collectStep, hstub, List.getElem?_eq_getElem hi]
  simp only [Option.bind_eq_bind, Option.bind_some]
  cases hp : scan[i].parsed with
  | none =>
    refine ⟨_, rfl, ?_, ?_, hroom⟩
    · have hrow : collectRow prev gpuPids true scan[i] = stub scan[i].pid := by
        rw [collectRow, hp]
      rw [hprocs, htaken, List.map_append, List.map_singleton, hrow, List.append_assoc]
      rfl
    · have hentry : collectNext scan[i] = (scan[i].pid, .pack false 0) := by
        rw [collectNext, hp]
        rfl
      change (s.next.push (scan[i].pid, .pack false 0)).1.items = _
      rw [hpush, htaken, List.map_append, List.map_singleton, hentry, h.next]
  | some st =>
    have hentry : collectNext scan[i] = (scan[i].pid, .pack false st.totalTicks) := by
      rw [collectNext, hp]
      rfl
    have hin : i < (s.next.push (scan[i].pid, .pack false 0)).1.items.length := by
      rw [hpush, List.length_append, hlen]
      exact Nat.lt_succ_self i
    dsimp only [stub]
    rw [FVec.assign, if_pos hin]
    refine ⟨_, rfl, ?_, ?_, hroom⟩
    · change s.procs.set i (collectRow prev gpuPids true scan[i]) = _
      rw [hprocs, htaken, List.map_append, List.map_singleton,
        List.set_append_right _ _ hdone.le, hdone, Nat.sub_self, List.append_assoc]
      rfl
    · change (s.next.push (scan[i].pid, .pack false 0)).1.items.set i
        (scan[i].pid, .pack false st.totalTicks) = _
      rw [hpush, htaken, List.map_append, List.map_singleton, hentry, ← h.next,
        List.set_append_right _ _ hlen.le, hlen, Nat.sub_self]
      rfl

variable (prev gpuPids) in
theorem collectLoop_eq (scan : List Scanned) :
    ∃ s, collectLoop prev gpuPids scan = some s ∧
      s.procs = (collectProcs prev gpuPids true scan).1 ∧
      s.next.items = (collectProcs prev gpuPids true scan).2 := by
  have hrun : ∀ i ≤ scan.length, ∃ s,
      (List.range i).foldlM (collectStep prev gpuPids scan)
        ⟨scan.map fun p => stub p.pid, FVec.new scan.length⟩ = some s ∧
      Collected prev gpuPids scan i s := by
    intro i hi
    induction i with
    | zero => exact ⟨_, rfl, by simp, by simp, rfl⟩
    | succ i ih =>
      obtain ⟨s, hs, h⟩ := ih (by omega)
      obtain ⟨s', hs', h'⟩ := h.step hi
      refine ⟨s', ?_, h'⟩
      rw [List.range_succ, List.foldlM_append, hs]
      simpa using hs'
  obtain ⟨s, hs, h⟩ := hrun scan.length le_rfl
  refine ⟨s, hs, ?_, ?_⟩
  · rw [h.procs, List.take_length, List.drop_length, List.map_nil, List.append_nil]
    rfl
  · rw [h.next, List.take_length]
    rfl

theorem retain_marks (rows : List (ProcInfo os)) (k : ℕ) (next : List (UInt32 × Packed os))
    (j : ℕ) : (FVec.retain retainStep (k, next) rows).1.2[j]? = next[j]?.map fun e =>
      if k ≤ j ∧ (rows[j - k]?).any (·.visible) then (e.1, e.2.setVisible) else e := by
  induction rows generalizing k next with
  | nil => simp [FVec.retain]
  | cons p rows ih =>
    have hret : (FVec.retain retainStep (k, next) (p :: rows)).1 = (FVec.retain retainStep
        (k + 1, if p.visible then next.modify k fun e => (e.1, e.2.setVisible) else next)
        rows).1 := by
      simp only [FVec.retain, retainStep]
      cases p.visible <;> rfl
    rw [hret, ih]
    rcases Nat.lt_trichotomy j k with h | rfl | h
    · have hkeep : (if p.visible then next.modify k fun e => (e.1, e.2.setVisible) else next)[j]? =
          next[j]? := by
        split
        · rw [List.getElem?_modify]
          simp [h.ne']
        · rfl
      rw [hkeep]
      simp [show ¬ k + 1 ≤ j by omega, show ¬ k ≤ j by omega]
    · cases hv : p.visible with
      | true =>
        simp only [if_true, List.getElem?_modify]
        cases next[j]? with
        | none => rfl
        | some e => simp [hv]
      | false => simp [hv]
    · have hkeep : (if p.visible then next.modify k fun e => (e.1, e.2.setVisible) else next)[j]? =
          next[j]? := by
        split
        · rw [List.getElem?_modify]
          simp [h.ne]
        · rfl
      rw [hkeep, show j - k = (j - (k + 1)) + 1 by omega, List.getElem?_cons_succ]
      simp [show k + 1 ≤ j by omega, show k ≤ j by omega]

structure CrossTick (scan : List Scanned) (s : Collecting) (out : List (ProcInfo .linux))
    (next : List (UInt32 × Packed .linux)) (prev' : Map (Packed .linux)) : Prop where
  once : next.map (·.1) = scan.map (·.pid)
  order : next.map (·.1) = s.procs.map (·.pid)
  counters : s.next.items = scan.map collectNext
  bits : next.map (·.2.cpuBits) = s.next.items.map (·.2.cpuBits)
  visible : ∀ e ∈ next, e.2.visible = true ↔ ∃ row ∈ out, row.pid = e.1
  lookup : ∀ pid e, prev'.search pid = some e ↔ (pid, e) ∈ next
  missing : ∀ pid, pid ∉ scan.map (·.pid) → prev'.search pid = none

theorem collectNext_visible (p : Scanned) : (collectNext p).2.visible = false := by
  rw [collectNext, Packed.visible, Packed.pack_eq]
  exact Word.flag_setFlag false _

theorem setVisible_visible (p : Packed os) : p.setVisible.visible = true :=
  Word.flag_setFlag true p.word

theorem attachGpu_pid (usage : UInt32 → Option (GpuUsage os)) (procs : List (ProcInfo os)) :
    (attachGpu usage procs).map (·.pid) = procs.map (·.pid) := by
  rw [attachGpu, List.map_map]
  refine List.map_congr_left fun p _ => ?_
  rw [Function.comp_apply]
  split <;> rfl

theorem collectProcs_pid (scan : List Scanned) :
    (collectProcs prev gpuPids true scan).1.map (·.pid) = scan.map (·.pid) := by
  rw [collectProcs, List.map_map]
  exact List.map_congr_left fun p _ => collectRow_pid true p

theorem distinct_of_pids {procs : List (ProcInfo os)} (h : (procs.map (·.pid)).Nodup) :
    Distinct procs.get := by
  have hget : List.ofFn (fun i => (procs.get i).pid) = procs.map (·.pid) := by
    have hmap : (List.ofFn procs.get).map (·.pid) = List.ofFn ((·.pid) ∘ procs.get) :=
      List.map_ofFn
    rw [List.ofFn_get] at hmap
    exact hmap.symm
  rw [← hget] at h
  exact List.nodup_ofFn.mp h

theorem filter_marks {procs out : List (ProcInfo .linux)} {scan : List Scanned}
    {next : List (UInt32 × Packed .linux)} (hd : (scan.map (·.pid)).Nodup)
    (hpids : procs.map (·.pid) = scan.map (·.pid))
    (h : filterWithChildren procs prev (scan.map collectNext) = some (out, next)) :
    ∀ e ∈ next, e.2.visible = true ↔ ∃ row ∈ out, row.pid = e.1 := by
  have hdist := distinct_of_pids (hpids ▸ hd)
  obtain ⟨s, hrun, hset⟩ := visits_finish procs hdist prev
  have hpid : ∀ i, (s.procs i).pid = (procs.get i).pid := fun i =>
    (hset i).same.1.trans (coalesced_pid _ i)
  have hfilter : filterWithChildren procs prev (scan.map collectNext) =
      some ((FVec.retain retainStep (0, scan.map collectNext) (List.ofFn s.procs)).2,
        (FVec.retain retainStep (0, scan.map collectNext) (List.ofFn s.procs)).1.2) :=
    congrArg (Option.map _) hrun
  rw [hfilter] at h
  obtain ⟨rfl, rfl⟩ := Prod.mk.inj (Option.some.inj h)
  have hlen : procs.length = scan.length := by simpa using congrArg List.length hpids
  intro e he
  obtain ⟨j, hj⟩ := List.mem_iff_getElem?.mp he
  rw [retain_marks, List.getElem?_map, Option.map_map] at hj
  obtain ⟨p, hp, rfl⟩ := Option.map_eq_some_iff.mp hj
  obtain ⟨hjlt, rfl⟩ := List.getElem?_eq_some_iff.mp hp
  have hrow : (List.ofFn s.procs)[j]? = some (s.procs ⟨j, hlen ▸ hjlt⟩) := by
    simp [hlen, hjlt]
  have hj : (procs.get ⟨j, hlen ▸ hjlt⟩).pid = scan[j].pid := by
    have hget := congrArg (·[j]?) hpids
    simpa [hlen ▸ hjlt, hjlt] using hget
  have hsurvives : (∃ row ∈ (FVec.retain retainStep (0, scan.map collectNext)
      (List.ofFn s.procs)).2, row.pid = scan[j].pid) ↔
      (s.procs ⟨j, hlen ▸ hjlt⟩).visible = true := by
    rw [retain_visible]
    constructor
    · rintro ⟨row, hmem, hrowpid⟩
      obtain ⟨hmem, hv⟩ := List.mem_filter.mp hmem
      obtain ⟨i, rfl⟩ := List.mem_ofFn.mp hmem
      rw [hpid i, ← hj] at hrowpid
      obtain rfl := hdist hrowpid
      exact hv
    · intro hv
      exact ⟨_, List.mem_filter.mpr ⟨List.mem_of_getElem? hrow, hv⟩, (hpid _).trans hj⟩
  simp only [Function.comp_apply, Nat.zero_le, true_and, Nat.sub_zero, hrow, Option.any_some]
  have hkey : (collectNext scan[j]).1 = scan[j].pid := rfl
  split
  · rename_i hv
    exact iff_of_true (setVisible_visible _) (hkey ▸ hsurvives.mpr hv)
  · rename_i hv
    refine iff_of_false ?_ fun h => hv (hsurvives.mp (hkey ▸ h))
    rw [collectNext_visible]
    exact Bool.false_ne_true

theorem cross_tick (prev : Map (Packed .linux)) (gpuPids : List UInt32)
    (usage : UInt32 → Option (GpuUsage .linux)) (scan : List Scanned)
    (hd : (scan.map (·.pid)).Nodup) :
    ∃ s out next prev', collectLoop prev gpuPids scan = some s ∧
      filterWithChildren (attachGpu usage s.procs) prev s.next.items = some (out, next) ∧
      freezePrev next = some prev' ∧ CrossTick scan s out next prev' := by
  obtain ⟨s, hs, hprocs, hnext⟩ := collectLoop_eq prev gpuPids scan
  have hrows : (attachGpu usage s.procs).map (·.pid) = scan.map (·.pid) := by
    rw [attachGpu_pid, hprocs, collectProcs_pid]
  have hcounters : s.next.items = scan.map collectNext := hnext
  obtain ⟨kept, rows, next, hrun, -⟩ := filterWithChildren_filtered (attachGpu usage s.procs)
    (distinct_of_pids (hrows ▸ hd)) prev s.next.items
  have hkept := filterWithChildren_next hrun
  have hkeys : next.map (·.1) = scan.map (·.pid) := by
    have h := congrArg (List.map (·.1)) hkept
    rw [List.map_map, List.map_map, hcounters, List.map_map] at h
    exact h
  obtain ⟨prev', hfreeze⟩ := freezePrev_total (hkeys ▸ hd)
  have hlookup : ∀ pid e, prev'.search pid = some e ↔ (pid, e) ∈ next := fun pid e => by
    rw [Map.search_eq]
    exact freezePrev_get hfreeze pid e
  refine ⟨s, kept.map rows, next, prev', hs, hrun, hfreeze, hkeys, ?_, hcounters, ?_,
    filter_marks hd hrows (hcounters ▸ hrun), hlookup, ?_⟩
  · rw [hkeys, hprocs, collectProcs_pid]
  · have h := congrArg (List.map (·.2)) hkept
    rw [List.map_map, List.map_map] at h
    exact h
  · intro pid hpid
    rw [Option.eq_none_iff_forall_ne_some]
    intro e he
    exact hpid (hkeys ▸ List.mem_map_of_mem (f := (·.1)) ((hlookup pid e).mp he))

def mixedScan : List Scanned :=
  [⟨11, some (statLine 10 70 (bytes "make") (by decide)), 6, [bytes "make"]⟩,
    ⟨10, none, 0, []⟩,
    ⟨7, some (statLine 1 900 (bytes "cron") (by decide)), 0, []⟩]

theorem cross_tick_mixed :
    ∃ s out next prev', collectLoop .empty [] mixedScan = some s ∧
      filterWithChildren (attachGpu (fun _ => none) s.procs) .empty s.next.items =
        some (out, next) ∧
      freezePrev next = some prev' ∧ CrossTick mixedScan s out next prev' :=
  cross_tick .empty [] (fun _ => none) mixedScan (by decide)

end Ltop
