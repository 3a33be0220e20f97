import Mathlib
import Ltop.Collect
import Ltop.Drawn

namespace Ltop

open Chain

variable {os : Os}

structure NoiseRow (p : ProcInfo os) : Prop where
  hidden : p.visible = false
  idle : p.cpu = 0
  nameless : p.display = []

def NoiseHidden (procs : List (ProcInfo os)) (noise : Fin procs.length → Prop)
    (prev : Map (Packed os)) (next : List (UInt32 × Packed os)) : Prop :=
  ∃ out next', filterWithChildren procs prev next = some (out, next') ∧
    ∀ i, noise i → ∀ row ∈ out, row.pid ≠ (procs.get i).pid

def Woken (procs : List (ProcInfo os)) (prev : Map (Packed os)) (i : Fin procs.length) : Prop :=
  (∃ k, k ≠ i ∧ (procs.get k).visible = true ∧
    settlesAt procs.get (buildPidToIdx procs.get) k = i) ∨
  (∃ k, simSettlesAt procs.get (buildPidToIdx procs.get) k i) ∨
  (∃ a, Above (treeParent procs.get) a i ∧ Surfaces procs.get (buildPidToIdx procs.get) a) ∧
    childThresh prev (procs.get i).pid ≤ loadCpu procs.get i

def WokenDirectly (procs : List (ProcInfo os)) (prev : Map (Packed os)) (i : Fin procs.length) :
    Prop :=
  (∃ k, coalesceRoot procs.get (buildPidToIdx procs.get) k = some i ∧
    (procs.get k).visible = true) ∨
  (∃ a, Above (treeParent procs.get) a i ∧ Surfaces procs.get (buildPidToIdx procs.get) a) ∧
    childThresh prev (procs.get i).pid ≤
      foldedCpu addF32 procs.get (buildPidToIdx procs.get) 0 i

theorem NoiseRow.survives_iff {procs : List (ProcInfo os)} {i : Fin procs.length}
    (h : NoiseRow (procs.get i)) (prev : Map (Packed os)) :
    Survives prev (coalesced procs.get) (treeParent procs.get) i ↔ Woken procs prev i := by
  have hsurf : Surfaces procs.get (buildPidToIdx procs.get) i ↔
      (∃ k, k ≠ i ∧ (procs.get k).visible = true ∧
        settlesAt procs.get (buildPidToIdx procs.get) k = i) ∨
      ∃ k, simSettlesAt procs.get (buildPidToIdx procs.get) k i := by
    constructor
    · rintro ⟨k, ⟨hv, hk⟩ | hk⟩
      · refine .inl ⟨k, ?_, hv, hk⟩
        rintro rfl
        rw [h.hidden] at hv
        cases hv
      · exact .inr ⟨k, hk⟩
    · rintro (⟨k, _, hv, hk⟩ | ⟨k, hk⟩)
      · exact ⟨k, .inl ⟨hv, hk⟩⟩
      · exact ⟨k, .inr hk⟩
  rw [survives_iff_shown, Shown, hsurf, Woken, or_assoc]

theorem NoiseRow.not_launchdSim {p : ProcInfo os} (h : NoiseRow p) :
    isLaunchdSim os p.display = false := by
  have hname : ieq [] (bytes "launchd_sim") = false := by decide
  rw [isLaunchdSim, h.nameless, hname, Bool.and_false]

section Shallow

variable {procs : List (ProcInfo os)}
  (hterm : ∀ i r, coalesceRoot procs.get (buildPidToIdx procs.get) i = some r →
    coalesceRoot procs.get (buildPidToIdx procs.get) r = none)
include hterm

theorem NoiseRow.settlesAt_iff {i k : Fin procs.length} (h : NoiseRow (procs.get i))
    (hv : (procs.get k).visible = true) :
    k ≠ i ∧ settlesAt procs.get (buildPidToIdx procs.get) k = i ↔
      coalesceRoot procs.get (buildPidToIdx procs.get) k = some i := by
  have hki : k ≠ i := by
    rintro rfl
    rw [h.hidden] at hv
    cases hv
  cases hi : coalesceRoot procs.get (buildPidToIdx procs.get) i with
  | none =>
    rw [settlesAt, Transfer.settle_eq_iff _ hterm List.mem_finRange hi]
    exact ⟨fun hs => hs.2.resolve_left hki, fun hk => ⟨hki, .inr hk⟩⟩
  | some r =>
    refine iff_of_false (fun hs => Transfer.settle_ne _ hterm List.mem_finRange hi k hs.2) ?_
    intro hk
    rw [hterm k i hk] at hi
    cases hi

theorem NoiseRow.not_simSettlesAt {i : Fin procs.length} (h : NoiseRow (procs.get i))
    (k : Fin procs.length) : ¬ simSettlesAt procs.get (buildPidToIdx procs.get) k i := by
  rintro ⟨r, hk, hsim, hs⟩
  rw [Transfer.settle_of_none _ (hterm k r hk)] at hs
  rw [hs, h.not_launchdSim] at hsim
  cases hsim

theorem NoiseRow.loadCpu_eq {i : Fin procs.length} (h : NoiseRow (procs.get i)) :
    loadCpu procs.get i = foldedCpu addF32 procs.get (buildPidToIdx procs.get) 0 i := by
  cases hi : coalesceRoot procs.get (buildPidToIdx procs.get) i with
  | none => rw [loadCpu, replayCpu_root hterm hi, h.idle]
  | some r =>
    have hempty : ∀ k, coalesceRoot procs.get (buildPidToIdx procs.get) k ≠ some i := by
      intro k hk
      rw [hterm k i hk] at hi
      cases hi
    rw [loadCpu, replayCpu_folded hterm hi]
    simp [foldedCpu, hempty]

theorem NoiseRow.woken_iff {i : Fin procs.length} (h : NoiseRow (procs.get i))
    (prev : Map (Packed os)) : Woken procs prev i ↔ WokenDirectly procs prev i := by
  rw [Woken, WokenDirectly, h.loadCpu_eq hterm, or_iff_right_of_imp (a := ∃ k, simSettlesAt _ _ k i)
    fun ⟨k, hk⟩ => absurd hk (h.not_simSettlesAt hterm k)]
  refine or_congr_left (exists_congr fun k => ?_)
  constructor
  · rintro ⟨hki, hv, hs⟩
    exact ⟨(h.settlesAt_iff hterm hv).mp ⟨hki, hs⟩, hv⟩
  · rintro ⟨hk, hv⟩
    obtain ⟨hki, hs⟩ := (h.settlesAt_iff hterm hv).mpr hk
    exact ⟨hki, hv, hs⟩

end Shallow

theorem noise_hidden_iff (procs : List (ProcInfo os)) (hd : Distinct procs.get)
    (noise : Fin procs.length → Prop) (hn : ∀ i, noise i → NoiseRow (procs.get i))
    (prev : Map (Packed os)) (next : List (UInt32 × Packed os)) :
    (NoiseHidden procs noise prev next ↔ ∀ i, noise i → ¬ Woken procs prev i) ∧
      ((∀ i, climb (treeParent procs.get) 65 i = none) →
        ∀ i, noise i → (Woken procs prev i ↔ WokenDirectly procs prev i)) := by
  obtain ⟨kept, rows, next', hrun, h⟩ := filterWithChildren_filtered procs hd prev next
  have hout : ∀ i, noise i →
      ((∃ row ∈ kept.map rows, row.pid = (procs.get i).pid) ↔ Woken procs prev i) := by
    intro i hi
    rw [h.pid_mem hd, (hn i hi).survives_iff]
  refine ⟨?_, fun hc i hi => (hn i hi).woken_iff (fun k r => coalesceRoot_terminal (hc k)) prev⟩
  constructor
  · rintro ⟨out, next'', hrun', hhid⟩ i hi hw
    obtain ⟨rfl, rfl⟩ := Prod.mk.inj (Option.some.inj (hrun.symm.trans hrun'))
    obtain ⟨row, hrow, hpid⟩ := (hout i hi).mpr hw
    exact hhid i hi row hrow hpid
  · intro hall
    exact ⟨_, _, hrun, fun i hi row hrow hpid => hall i hi ((hout i hi).mp ⟨row, hrow, hpid⟩)⟩

def codexScan : List Scanned :=
  [{ pid := 10
     parsed := some (statLine 1 500 (bytes "chrome") (by decide))
     cpu := 2
     args := [bytes "/opt/google/chrome/chrome"] },
    { pid := 11
      parsed := some (statLine 10 900 (bytes "codex") (by decide))
      cpu := 6
      args := [bytes "/opt/codex/Codex (Renderer)"] }]

def codexRows : List (ProcInfo .linux) := (collectProcs .empty [] true codexScan).1

def codexNext : List (UInt32 × Packed .linux) := (collectProcs .empty [] true codexScan).2

theorem codex_noise_row : NoiseRow (codexRows.get ⟨0, by decide⟩) :=
  ⟨by decide, by decide, by decide⟩

theorem codex_noise (i : Fin codexRows.length) (hi : i.val = 0) : NoiseRow (codexRows.get i) := by
  obtain rfl : i = ⟨0, by decide⟩ := Fin.ext hi
  exact codex_noise_row

theorem noise_hidden_iff_codex :
    (NoiseHidden codexRows (fun i => i.val = 0) .empty codexNext ↔
      ∀ i : Fin codexRows.length, i.val = 0 → ¬ Woken codexRows .empty i) ∧
      ∀ i : Fin codexRows.length, i.val = 0 →
        (Woken codexRows .empty i ↔ WokenDirectly codexRows .empty i) :=
  (noise_hidden_iff codexRows (by decide) _ codex_noise _ _).imp_right fun h => h (by decide)

theorem codex_noise_shown :
    isNoise (bytes "chrome") [bytes "/opt/google/chrome/chrome"] = true ∧
      Distinct codexRows.get ∧ NoiseRow (codexRows.get ⟨0, by decide⟩) ∧
      ¬ NoiseHidden codexRows (fun i => i.val = 0) .empty codexNext := by
  refine ⟨by decide, by decide, codex_noise_row, ?_⟩
  rintro ⟨out, next', hrun, hhid⟩
  have hpids : (filterWithChildren codexRows .empty codexNext).map (fun r => r.1.map (·.pid)) =
      some [10] := by decide
  rw [hrun] at hpids
  have hout : out.map (·.pid) = [10] := Option.some.inj hpids
  have hmem : (10 : UInt32) ∈ out.map (·.pid) := by
    rw [hout]
    exact List.mem_singleton_self 10
  obtain ⟨row, hrow, hpid⟩ := List.mem_map.mp hmem
  exact hhid ⟨0, by decide⟩ rfl row hrow (hpid.trans (by decide))

end Ltop
