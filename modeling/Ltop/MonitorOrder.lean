import Mathlib
import Ltop.Monitor

namespace Ltop

open Chain

def Tick.root (prev : Map (Packed .linux)) (t : Tick) :
    Fin t.samples.length → Option (Fin t.samples.length) :=
  coalesceRoot (t.table prev) (buildPidToIdx (t.table prev))

def Tick.position (t : Tick) (pid : UInt32) : ℕ := (t.samples.map (·.pid)).idxOf pid

-- folding adds in scan order and f32 sums depend on it, so rows with a common root stay in order
structure Tick.Reordered (prev : Map (Packed .linux)) (t t' : Tick) : Prop where
  dt : t'.dt = t.dt
  gpu : t'.gpu = t.gpu
  samples : t'.samples.Perm t.samples
  folds : ∀ i j, i < j → (t.root prev i).isSome = true → t.root prev i = t.root prev j →
    t'.position (t.samples.get i).pid < t'.position (t.samples.get j).pid

def Tick.Shallow (t : Tick) : Prop := ∀ i, climb (treeParent t.links) 65 i = none

theorem exists_index_equiv {α : Type} {l l' : List α} (h : l'.Perm l) (hd : l.Nodup) :
    ∃ e : Fin l'.length ≃ Fin l.length, ∀ i, l.get (e i) = l'.get i := by
  classical
  let members : {x // x ∈ l'} ≃ {x // x ∈ l} := Equiv.subtypeEquivRight fun x => h.mem_iff
  refine ⟨(h.nodup_iff.mpr hd).getEquiv.trans (members.trans hd.getEquiv.symm), fun i => ?_⟩
  exact congrArg Subtype.val (hd.getEquiv.apply_symm_apply (members _))

section Relabel

variable {os : Os} {n : ℕ} {prev : Map (Packed os)} {procs : Table os n}

theorem treeParent_perm (hd : Distinct procs) (σ : Equiv.Perm (Fin n)) (i : Fin n) :
    treeParent (procs ∘ σ) i = (treeParent procs (σ i)).map σ.symm :=
  buildPidToIdx_perm hd σ _

variable {σ : Equiv.Perm (Fin n)} (hd : Distinct procs)
  (hc : ∀ i, climb (treeParent procs) 65 i = none)
  (hσ : KeepsFolds (coalesceRoot procs (buildPidToIdx procs)) σ)
include hd hc hσ

theorem coalesced_perm : coalesced (procs ∘ σ) = coalesced procs ∘ σ :=
  coalesceHelpers_reordered hd hc hσ

theorem survives_perm (i : Fin n) :
    Survives prev (coalesced (procs ∘ σ)) (treeParent (procs ∘ σ)) i ↔
      Survives prev (coalesced procs) (treeParent procs) (σ i) := by
  simp only [Survives, coalesced_perm hd hc hσ, above_relabel σ (treeParent_perm hd σ),
    Function.comp_apply]
  refine or_congr_right (and_congr_left fun _ => ?_)
  exact (σ.surjective.exists (p := fun a => Above (treeParent procs) a (σ i) ∧
    (coalesced procs a).visible = true)).symm

theorem settled_perm {i : Fin n} {row : ProcInfo os}
    (h : Settled prev (coalesced (procs ∘ σ)) (treeParent (procs ∘ σ)) i row) :
    Settled prev (coalesced procs) (treeParent procs) (σ i) row := by
  have hsurv : ∀ i, Survives prev (coalesced (procs ∘ σ)) (treeParent (procs ∘ σ)) i ↔
      Survives prev (coalesced procs) (treeParent procs) (σ i) :=
    survives_perm hd hc hσ
  have hnear : ∀ a, Nearest (treeParent (procs ∘ σ))
      (Survives prev (coalesced (procs ∘ σ)) (treeParent (procs ∘ σ))) i a ↔
      Nearest (treeParent procs) (Survives prev (coalesced procs) (treeParent procs)) (σ i) (σ a) := by
    intro a
    rw [funext fun k => propext (hsurv k)]
    exact nearest_relabel σ (treeParent_perm hd σ)
  rw [coalesced_perm hd hc hσ] at h hnear hsurv
  refine ⟨fun hs => h.kept ((hsurv i).mpr hs), fun hs a ha => ?_, fun hs hnone => ?_,
    fun hs => h.dropped fun hi => hs ((hsurv i).mp hi)⟩
  · obtain ⟨b, rfl⟩ := σ.surjective a
    exact h.nearest ((hsurv i).mpr hs) b ((hnear b).mpr ha)
  · exact h.rootless ((hsurv i).mpr hs) fun a ha => hnone (σ a) ((hnear a).mp ha)

omit hd hc hσ in
theorem Filtered.reordered {n' : ℕ} {procs' : Table os n'} {kept : List (Fin n)}
    {kept' : List (Fin n')} {rows : Table os n} {rows' : Table os n'} (e : Fin n' ≃ Fin n)
    (he : ∀ i, procs' i = procs (e i)) (hd : Distinct procs)
    (hc : ∀ i, climb (treeParent procs) 65 i = none)
    (hσ : ∀ i j, i < j → (coalesceRoot procs (buildPidToIdx procs) (e i)).isSome = true →
      coalesceRoot procs (buildPidToIdx procs) (e i) = coalesceRoot procs (buildPidToIdx procs) (e j) →
      e i < e j) (h : Filtered prev procs kept rows)
    (h' : Filtered prev procs' kept' rows') : (kept'.map rows').Perm (kept.map rows) := by
  obtain rfl : n' = n := by simpa using Fintype.card_congr e
  obtain rfl : procs' = procs ∘ e := funext he
  have hrows : rows' = rows ∘ e := funext fun i =>
    (settled_perm hd hc hσ (h'.row i)).unique (h.row (e i))
  have hkept : (kept'.map e).Perm kept := by
    refine (List.perm_ext_iff_of_nodup ((h'.order.nodup (List.nodup_finRange _)).map e.injective)
      (h.order.nodup (List.nodup_finRange _))).mpr fun i => ?_
    rw [List.mem_map, h.mem]
    constructor
    · rintro ⟨j, hj, rfl⟩
      exact (survives_perm hd hc hσ j).mp ((h'.mem j).mp hj)
    · intro hi
      obtain ⟨j, rfl⟩ := e.surjective i
      exact ⟨j, (h'.mem j).mpr ((survives_perm hd hc hσ j).mpr hi), rfl⟩
  rw [hrows, ← List.map_map]
  exact hkept.map rows

end Relabel

theorem Packed.ext_parts {os : Os} {p q : Packed os} (hbits : p.cpuBits = q.cpuBits)
    (hv : p.visible = true ↔ q.visible = true) : p = q := by
  obtain ⟨v⟩ := p
  obtain ⟨w⟩ := q
  have hvis : Word.flag v = Word.flag w := Bool.eq_iff_iff.mpr hv
  have hsplit : ∀ x : UInt32, Word.setFlag (Word.flag x) (Word.payload x) = x := fun x => by simp
  rw [Packed.mk.injEq, ← hsplit v, ← hsplit w, hvis]
  exact congrArg _ hbits

variable {prev : Map (Packed .linux)} {t t' : Tick}

theorem Tick.treeParent_table (t : Tick) (prev : Map (Packed .linux)) :
    treeParent (t.table prev) = treeParent t.links :=
  SameTree.parent ⟨fun _ => Tick.row_pid _, fun _ => Tick.row_ppid _⟩

theorem Tick.Reordered.row (h : t.Reordered prev t') : t'.row prev = t.row prev := by
  funext p
  simp only [Tick.row, Tick.gpuPids, h.dt, h.gpu]

theorem Tick.Reordered.ordered (h : t.Reordered prev t') {e : Fin t'.samples.length ≃ Fin t.samples.length}
    (he : ∀ i, t.samples.get (e i) = t'.samples.get i) (i j : Fin t'.samples.length) (hlt : i < j)
    (hi : (t.root prev (e i)).isSome = true) (hij : t.root prev (e i) = t.root prev (e j)) :
    e i < e j := by
  have hposition : ∀ k, t'.position (t.samples.get (e k)).pid = k := by
    intro k
    have hlength : k.val < (t'.samples.map (·.pid)).length := by simp
    have hget : (t.samples.get (e k)).pid = (t'.samples.map (·.pid))[k.val] := by
      rw [he, List.getElem_map]
      rfl
    rw [Tick.position, hget]
    exact t'.distinct.idxOf_getElem k.val hlength
  rcases lt_trichotomy (e i) (e j) with hless | heq | hmore
  · exact hless
  · exact absurd (e.injective heq) hlt.ne
  · have hback := h.folds (e j) (e i) hmore (hij ▸ hi) hij.symm
    rw [hposition, hposition] at hback
    exact absurd hlt (not_lt.mpr hback.le)

theorem Tick.Reordered.step (h : t.Reordered prev t') (hs : t.Shallow) :
    t'.step prev = t.step prev := by
  obtain ⟨rows, next, hstep, ht⟩ := step_ticked prev t
  obtain ⟨rows', next', hstep', ht'⟩ := step_ticked prev t'
  obtain ⟨kept, table, hf, hperm⟩ := ht.filtered
  obtain ⟨kept', table', hf', hperm'⟩ := ht'.filtered
  obtain ⟨e, he⟩ := exists_index_equiv h.samples (t.distinct.of_map _)
  have htable : ∀ i, t'.table prev i = t.table prev (e i) := fun i => by
    simp only [Tick.table, h.row, he]
  have hrows : rows' = rows := by
    have hp := hperm'.trans ((hf.reordered e htable (t.table_distinct prev)
      (by rwa [t.treeParent_table prev]) (h.ordered he) hf').trans hperm.symm)
    exact hp.eq_of_pairwise (fun a b _ _ hab hba => absurd hab (UInt32.lt_asymm hba))
      ht'.sorted ht.sorted
  have hnext : next' = next := by
    refine Map.ext_get fun pid => ?_
    have hpids : pid ∈ t'.samples.map (·.pid) ↔ pid ∈ t.samples.map (·.pid) :=
      (h.samples.map _).mem_iff
    by_cases hpid : pid ∈ t.samples.map (·.pid)
    · obtain ⟨p, hp, rfl⟩ := List.mem_map.mp hpid
      obtain ⟨q, hq, hbits, hv⟩ := ht.found p hp
      obtain ⟨q', hq', hbits', hv'⟩ := ht'.found p (h.samples.mem_iff.mpr hp)
      rw [hrows] at hv'
      rw [hq, hq', Packed.ext_parts (hbits'.trans hbits.symm) (hv'.trans hv.symm)]
    · rw [ht.missing pid hpid, ht'.missing pid fun hmem => hpid (hpids.mp hmem)]
  rw [hstep, hstep', hrows, hnext]

inductive Rerun : Map (Packed .linux) → List Tick → List Tick → Prop
  | nil {prev : Map (Packed .linux)} : Rerun prev [] []
  | cons {prev next : Map (Packed .linux)} {t t' : Tick} {ts ts' : List Tick}
      {rows : List (ProcInfo .linux)} (hs : t.Shallow) (h : t.Reordered prev t')
      (hstep : t.step prev = some (rows, next)) (hrest : Rerun next ts ts') :
      Rerun prev (t :: ts) (t' :: ts')

theorem runTicks_reordered {ts ts' : List Tick} (h : Rerun prev ts ts') :
    runTicks prev ts' = runTicks prev ts := by
  induction h with
  | nil => rfl
  | @cons prev next t t' ts ts' rows hs hhead hstep _ ih =>
    rw [runTicks, runTicks, hhead.step hs, hstep]
    simp only [Option.bind_eq_bind, Option.bind_some, ih]

def codeSample (pid ppid : UInt32) (comm : List UInt8) (h : comm.length ≤ 15) : Sample :=
  ⟨pid, some (statLine ppid 700 comm h), [comm]⟩

def helper (pid : UInt32) : Sample := codeSample pid 10 (bytes "Code Helper") (by decide)

def app : Sample := codeSample 10 1 (bytes "Code") (by decide)

def helpersFirst : Tick := ⟨2, [helper 11, helper 12, app], .empty, by decide⟩

def appFirst : Tick := ⟨2, [app, helper 11, helper 12], .empty, by decide⟩

theorem helpers_fold : helpersFirst.root .empty ⟨0, by decide⟩ = some ⟨2, by decide⟩ := by
  decide +kernel

theorem appFirst_reordered : helpersFirst.Reordered .empty appFirst where
  dt := rfl
  gpu := rfl
  samples := (List.perm_append_singleton app [helper 11, helper 12]).symm
  folds := by decide +kernel

theorem runTicks_reordered_code :
    helpersFirst.root .empty ⟨0, by decide⟩ = some ⟨2, by decide⟩ ∧
      runTicks .empty [appFirst] = runTicks .empty [helpersFirst] := by
  have hshallow : helpersFirst.Shallow := by
    show ∀ i, climb (treeParent helpersFirst.links) 65 i = none
    decide
  obtain ⟨rows, next, hstep, -⟩ := step_ticked .empty helpersFirst
  exact ⟨helpers_fold, runTicks_reordered (.cons hshallow appFirst_reordered hstep .nil)⟩

end Ltop
