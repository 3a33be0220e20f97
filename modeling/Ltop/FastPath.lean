import Mathlib
import Ltop.Collect
import Ltop.Traverse

namespace Ltop

open Chain

section Tables

variable {os : Os} {n : ℕ} {prev : Map (Packed os)} {fast full : Table os n}

def survivorView (p : ProcInfo os) : UInt32 × UInt32 × List UInt8 × ℚ × UInt32 :=
  (p.pid, p.ppid, p.display, p.cpu, p.rssKib)

structure SameTree (fast full : Table os n) : Prop where
  pid : ∀ i, (fast i).pid = (full i).pid
  ppid : ∀ i, (fast i).ppid = (full i).ppid

theorem SameTree.map (h : SameTree fast full) : buildPidToIdx fast = buildPidToIdx full := by
  have hentries : pidEntries fast = pidEntries full := by
    unfold pidEntries
    exact List.map_congr_left fun i _ => by rw [h.pid i]
  unfold buildPidToIdx
  rw [hentries]

theorem SameTree.parent (h : SameTree fast full) : treeParent fast = treeParent full := by
  funext i
  simp only [treeParent, parentOf, h.map, h.ppid i]

structure LoadsAgree (prev : Map (Packed os)) (fast full : Table os n) : Prop where
  shown : ∀ i, Shown prev fast i ↔ Shown prev full i
  display : ∀ i, Shown prev fast i → (fast i).display = (full i).display
  cpu : ∀ i, Shown prev fast i → loadCpu fast i = loadCpu full i
  rss : ∀ i, Shown prev fast i → loadRss fast i = loadRss full i

theorem Settled.display {t : Table os n} {parent : Fin n → Option (Fin n)} {i : Fin n}
    {row : ProcInfo os} (h : Settled prev t parent i row) : row.display = (t i).display := by
  by_cases hk : Survives prev t parent i
  · rw [h.kept hk]
    rfl
  · rw [h.dropped hk]

theorem Settled.cpu {t : Table os n} {parent : Fin n → Option (Fin n)} {i : Fin n}
    {row : ProcInfo os} (h : Settled prev t parent i row) : row.cpu = (t i).cpu := by
  by_cases hk : Survives prev t parent i
  · rw [h.kept hk]
    rfl
  · rw [h.dropped hk]

theorem Settled.rss {t : Table os n} {parent : Fin n → Option (Fin n)} {i : Fin n}
    {row : ProcInfo os} (h : Settled prev t parent i row) : row.rssKib = (t i).rssKib := by
  by_cases hk : Survives prev t parent i
  · rw [h.kept hk]
    rfl
  · rw [h.dropped hk]

theorem sublist_eq {kept kept' : List (Fin n)} (h : kept.Sublist (List.finRange n))
    (h' : kept'.Sublist (List.finRange n)) (hmem : ∀ i, i ∈ kept ↔ i ∈ kept') : kept = kept' := by
  have hs := (List.pairwise_lt_finRange n).sublist h
  have hs' := (List.pairwise_lt_finRange n).sublist h'
  have hperm : kept.Perm kept' :=
    (List.perm_ext_iff_of_nodup (h.nodup (List.nodup_finRange n))
      (h'.nodup (List.nodup_finRange n))).mpr hmem
  exact hperm.eq_of_pairwise (fun a b _ _ hab hba => absurd hab (lt_asymm hba)) hs hs'

variable {kept kept' : List (Fin n)} {rows rows' : Table os n}

theorem agree_ppid (htree : SameTree fast full) (h : Filtered prev fast kept rows)
    (h' : Filtered prev full kept' rows') (hshown : ∀ i, Shown prev fast i ↔ Shown prev full i)
    {i : Fin n} (hi : Shown prev fast i) : (rows i).ppid = (rows' i).ppid := by
  have hK : Survives prev (coalesced full) (treeParent full) =
      Survives prev (coalesced fast) (treeParent fast) := by
    funext j
    rw [eq_iff_iff, survives_iff_shown, survives_iff_shown, hshown j]
  have hs := (survives_iff_shown prev fast i).mpr hi
  have hs' := (survives_iff_shown prev full i).mpr ((hshown i).mp hi)
  by_cases hn : ∃ a, Nearest (treeParent fast)
      (Survives prev (coalesced fast) (treeParent fast)) i a
  · obtain ⟨a, ha⟩ := hn
    rw [(h.row i).nearest hs a ha, (h'.row i).nearest hs' a (by rwa [hK, ← htree.parent]),
      coalesced_pid, coalesced_pid, htree.pid]
  · rw [(h.row i).rootless hs (by simpa using hn),
      (h'.row i).rootless hs' (by rw [hK, ← htree.parent]; simpa using hn),
      coalesced_ppid, coalesced_ppid, htree.ppid]

theorem sameView_iff (htree : SameTree fast full) (hd : Distinct fast)
    (h : Filtered prev fast kept rows) (h' : Filtered prev full kept' rows') :
    (kept.map rows).map survivorView = (kept'.map rows').map survivorView ↔
      LoadsAgree prev fast full := by
  have hmem : ∀ i, i ∈ kept ↔ Shown prev fast i := fun i =>
    (h.mem i).trans (survives_iff_shown prev fast i)
  have hmem' : ∀ i, i ∈ kept' ↔ Shown prev full i := fun i =>
    (h'.mem i).trans (survives_iff_shown prev full i)
  have hrow : ∀ i, survivorView (rows i) = survivorView (rows' i) ↔
      (rows i).ppid = (rows' i).ppid ∧ (fast i).display = (full i).display ∧
        loadCpu fast i = loadCpu full i ∧ loadRss fast i = loadRss full i := by
    intro i
    have hdisp := (h.row i).display.trans (coalesceHelpers_same _ _ i).display
    have hdisp' := (h'.row i).display.trans (coalesceHelpers_same _ _ i).display
    rw [survivorView, survivorView, h.pid, h'.pid, htree.pid, hdisp, hdisp', (h.row i).cpu,
      (h'.row i).cpu, (h.row i).rss, (h'.row i).rss, coalesced_cpu, coalesced_cpu]
    simp only [Prod.mk.injEq, true_and, ← UInt32.toNat_inj, coalesced_rss]
  rw [List.map_map, List.map_map]
  constructor
  · intro heq
    have hpids := congrArg (List.map (·.1)) heq
    rw [List.map_map, List.map_map] at hpids
    have hkept : kept = kept' := by
      apply List.map_injective_iff.mpr hd
      calc kept.map (fun i => (fast i).pid) = kept.map ((·.1) ∘ survivorView ∘ rows) :=
            List.map_congr_left fun i _ => (h.pid i).symm
        _ = kept'.map ((·.1) ∘ survivorView ∘ rows') := hpids
        _ = kept'.map (fun i => (fast i).pid) :=
            List.map_congr_left fun i _ => (h'.pid i).trans (htree.pid i).symm
    subst hkept
    have hall := List.map_inj_left.mp heq
    have hfields : ∀ i, Shown prev fast i → _ := fun i hi => (hrow i).mp (hall i ((hmem i).mpr hi))
    exact ⟨fun i => (hmem i).symm.trans (hmem' i), fun i hi => (hfields i hi).2.1,
      fun i hi => (hfields i hi).2.2.1, fun i hi => (hfields i hi).2.2.2⟩
  · intro ha
    have hkept : kept = kept' :=
      sublist_eq h.order h'.order fun i => by rw [hmem, hmem', ha.shown]
    subst hkept
    refine List.map_congr_left fun i hi => (hrow i).mpr ?_
    have hi := (hmem i).mp hi
    exact ⟨agree_ppid htree h h' ha.shown hi, ha.display i hi, ha.cpu i hi, ha.rss i hi⟩

def Differ (fast full : Table os n) (i : Fin n) : Prop := fast i ≠ full i

structure Unfolded (procs : Table os n) (i : Fin n) : Prop where
  source : coalesceRoot procs (buildPidToIdx procs) i = none
  target : ∀ k, coalesceRoot procs (buildPidToIdx procs) k ≠ some i

def Apart (fast full : Table os n) : Prop :=
  ∀ i, Differ fast full i → Unfolded fast i ∧ Unfolded full i

theorem coalesceWalk_isSome {procs : Table os n} {m : Map (Fin n)} {h h' : ℕ} (hle : h ≤ h')
    {name : List UInt8} {shard : Bool} {a : UInt32}
    (hw : coalesceWalk procs m h none name shard a ≠ none) :
    coalesceWalk procs m h' none name shard a ≠ none := by
  induction h generalizing h' name shard a with
  | zero => exact absurd rfl hw
  | succ h ih =>
    obtain ⟨k, rfl⟩ := Nat.exists_eq_add_of_lt (Nat.lt_of_succ_le hle)
    simp only [coalesceWalk] at hw ⊢
    cases hpa : m.get a with
    | none => simp [hpa] at hw
    | some pa =>
      rw [hpa] at hw
      dsimp only at hw ⊢
      split
      · rw [coalesceWalk_or]
        simp
      · rename_i hf
        rw [if_neg hf] at hw
        exact ih (by omega) hw

theorem Unfolded.passes {procs : Table os n} {pa : Fin n} (h : Unfolded procs pa) {hops : ℕ}
    (hle : hops ≤ 64) {name : List UInt8} {shard : Bool} {a : UInt32}
    (hpa : (buildPidToIdx procs).get a = some pa)
    (hout : coalesceWalk procs (buildPidToIdx procs) (hops + 1) none name shard a ≠ some pa) :
    foldsUnder os shard name (procs pa).display = false := by
  rw [← Bool.not_eq_true]
  intro hf
  have hrest : coalesceWalk procs (buildPidToIdx procs) hops none (procs pa).display
      (isShardName (procs pa).display) (procs pa).ppid = none := by
    by_contra hne
    exact coalesceWalk_isSome hle hne h.source
  refine hout ?_
  simp only [coalesceWalk, hpa, if_pos hf]
  rw [coalesceWalk_or, hrest]
  rfl

theorem coalesceWalk_apart (htree : SameTree fast full) (hap : Apart fast full) {hops : ℕ}
    (hle : hops ≤ 64) {name : List UInt8} {shard : Bool} {a : UInt32}
    (hfast : ∀ i, Differ fast full i →
      coalesceWalk fast (buildPidToIdx fast) hops none name shard a ≠ some i)
    (hfull : ∀ i, Differ fast full i →
      coalesceWalk full (buildPidToIdx full) hops none name shard a ≠ some i) :
    coalesceWalk fast (buildPidToIdx fast) hops none name shard a =
      coalesceWalk full (buildPidToIdx full) hops none name shard a := by
  induction hops generalizing name shard a with
  | zero => rfl
  | succ hops ih =>
    have hle' : hops ≤ 64 := by omega
    cases hpa : (buildPidToIdx fast).get a with
    | none =>
      have hpa' : (buildPidToIdx full).get a = none := htree.map ▸ hpa
      simp only [coalesceWalk, hpa, hpa']
    | some pa =>
      have hpa' : (buildPidToIdx full).get a = some pa := htree.map ▸ hpa
      by_cases hd : Differ fast full pa
      · have hpass := (hap pa hd).1.passes hle' hpa (hfast pa hd)
        have hpass' := (hap pa hd).2.passes hle' hpa' (hfull pa hd)
        simp only [coalesceWalk, hpa, hpa', hpass, hpass', Bool.false_eq_true, if_false,
          htree.ppid pa] at hfast hfull ⊢
        exact ih hle' hfast hfull
      · have hrow : fast pa = full pa := not_not.mp hd
        simp only [coalesceWalk, hpa, hpa', hrow] at hfast hfull ⊢
        split
        · rename_i hf
          simp only [if_pos hf] at hfast hfull
          rw [coalesceWalk_or, coalesceWalk_or full]
          refine congrArg (·.or (some pa)) (ih hle' ?_ ?_)
          · intro i hi hw
            refine hfast i hi ?_
            rw [coalesceWalk_or, hw]
            rfl
          · intro i hi hw
            refine hfull i hi ?_
            rw [coalesceWalk_or, hw]
            rfl
        · rename_i hf
          simp only [if_neg hf] at hfast hfull
          exact ih hle' hfast hfull

theorem coalesceRoot_apart (htree : SameTree fast full) (hap : Apart fast full) :
    coalesceRoot fast (buildPidToIdx fast) = coalesceRoot full (buildPidToIdx full) := by
  funext k
  by_cases hd : Differ fast full k
  · rw [(hap k hd).1.source, (hap k hd).2.source]
  · have hrow : fast k = full k := not_not.mp hd
    have hfast := fun i hi => (hap i hi).1.target k
    have hfull := fun i hi => (hap i hi).2.target k
    simp only [coalesceRoot, hrow] at hfast hfull ⊢
    exact coalesceWalk_apart htree hap le_rfl hfast hfull

theorem Unfolded.settles {procs : Table os n} {i : Fin n} (h : Unfolded procs i) (k : Fin n) :
    settlesAt procs (buildPidToIdx procs) k = i ↔ k = i := by
  constructor
  · intro hk
    rcases Transfer.settle_target (coalesceRoot procs (buildPidToIdx procs)) (List.finRange n) k
      with hs | ⟨j, hj⟩
    · exact hs.symm.trans hk
    · exact absurd (hj.trans (congrArg some hk)) (h.target j)
  · rintro rfl
    exact Transfer.settle_of_none _ h.source _

theorem Unfolded.loadCpu {procs : Table os n} {i : Fin n} (h : Unfolded procs i) :
    loadCpu procs i = (procs i).cpu :=
  Transfer.run_untouched (.inl h.source) h.target _

section Folds

def Redirected (fast full : Table os n) (k : Fin n) : Prop :=
  coalesceRoot fast (buildPidToIdx fast) k ≠ coalesceRoot full (buildPidToIdx full) k

def Moved (fast full : Table os n) (k i : Fin n) : Prop :=
  ¬ (settlesAt fast (buildPidToIdx fast) k = i ↔ settlesAt full (buildPidToIdx full) k = i)

def Reaches (fast full : Table os n) (k i : Fin n) : Prop :=
  settlesAt fast (buildPidToIdx fast) k = i ∨ settlesAt full (buildPidToIdx full) k = i

theorem settlesAt_congr {i : Fin n} (h : ∀ k, Reaches fast full k i → ¬ Redirected fast full k)
    (k : Fin n) : settlesAt fast (buildPidToIdx fast) k = i ↔
      settlesAt full (buildPidToIdx full) k = i :=
  Transfer.settle_congr (List.nodup_finRange n) (fun j _ hj => not_not.mp (h j hj)) k

theorem loadCpu_congr {i : Fin n} (h : ∀ k, Reaches fast full k i → ¬ Redirected fast full k)
    (hcpu : ∀ k, Reaches fast full k i → (fast k).cpu = (full k).cpu) :
    loadCpu fast i = loadCpu full i :=
  Transfer.run_congr (fun _ _ => rfl) (List.nodup_finRange n) (fun j _ hj => not_not.mp (h j hj))
    fun k hk => hcpu k (.inl hk)

theorem loadRss_congr {i : Fin n} (h : ∀ k, Reaches fast full k i → ¬ Redirected fast full k)
    (hrss : ∀ k, (fast k).rssKib = (full k).rssKib) : loadRss fast i = loadRss full i := by
  unfold loadRss
  simp only [settlesAt_congr h, hrss]

theorem moved_alone {i k : Fin n} (hrss : ∀ k, (fast k).rssKib = (full k).rssKib)
    (hload : loadRss fast i = loadRss full i) (hfull : loadRss fast i < 2 ^ 32 - 1)
    (hk : (fast k).rssKib ≠ 0)
    (hmoved : Moved fast full k i) : ∃ j ≠ k, Moved fast full j i := by
  by_contra hall
  have hall : ∀ j ≠ k, (settlesAt fast (buildPidToIdx fast) j = i ↔
      settlesAt full (buildPidToIdx full) j = i) :=
    fun j hj => not_not.mp fun h => hall ⟨j, hj, h⟩
  have hsum : ∑ j with settlesAt fast (buildPidToIdx fast) j = i, (fast j).rssKib.toNat =
      ∑ j with settlesAt full (buildPidToIdx full) j = i, (fast j).rssKib.toNat := by
    unfold loadRss at hload hfull
    simp only [← hrss] at hload
    omega
  have hrest : ∑ j ∈ Finset.univ.erase k,
        (if settlesAt fast (buildPidToIdx fast) j = i then (fast j).rssKib.toNat else 0) =
      ∑ j ∈ Finset.univ.erase k,
        if settlesAt full (buildPidToIdx full) j = i then (fast j).rssKib.toNat else 0 :=
    Finset.sum_congr rfl fun j hj => if_congr (hall j (Finset.ne_of_mem_erase hj)) rfl rfl
  rw [Finset.sum_filter, Finset.sum_filter, ← Finset.add_sum_erase _ _ (Finset.mem_univ k),
    ← Finset.add_sum_erase _ _ (Finset.mem_univ k), hrest] at hsum
  have hpos : (fast k).rssKib.toNat ≠ 0 := fun h => hk (UInt32.toNat_inj.mp h)
  have hone := Nat.add_right_cancel hsum
  by_cases hfast : settlesAt fast (buildPidToIdx fast) k = i
  · rw [if_pos hfast, if_neg fun h => hmoved ⟨fun _ => h, fun _ => hfast⟩] at hone
    exact hpos hone
  · rw [if_neg hfast, if_pos (by_contra fun h => hmoved ⟨fun hf => absurd hf hfast,
      fun hf => absurd hf h⟩)] at hone
    exact hpos hone.symm

end Folds

end Tables

section Quiet

variable {n : ℕ} {prev : Map (Packed .linux)} {fast full : Table .linux n}

structure Quiet (prev : Map (Packed .linux)) (fast full : ProcInfo .linux) : Prop where
  hidden : fast.visible = false
  fast_cpu : fast.cpu < childThresh prev fast.pid
  full_cpu : full.cpu < childThresh prev full.pid

theorem surfaces_linux (procs : Table .linux n) (m : Map (Fin n)) (i : Fin n) :
    Surfaces procs m i ↔ ∃ k, (procs k).visible = true ∧ settlesAt procs m k = i := by
  constructor
  · rintro ⟨k, h | ⟨r, _, hsim, _⟩⟩
    · exact ⟨k, h⟩
    · simp [isLaunchdSim] at hsim
  · rintro ⟨k, h⟩
    exact ⟨k, .inl h⟩

theorem Unfolded.surfaces {procs : Table .linux n} {i : Fin n} (h : Unfolded procs i) :
    Surfaces procs (buildPidToIdx procs) i ↔ (procs i).visible = true := by
  simp [surfaces_linux, h.settles]

theorem Unfolded.not_shown {procs : Table .linux n} {i : Fin n} (h : Unfolded procs i)
    (hv : (procs i).visible = false) (hc : (procs i).cpu < childThresh prev (procs i).pid) :
    ¬ Shown prev procs i := by
  rintro (hs | ⟨_, hc'⟩)
  · rw [h.surfaces, hv] at hs
    cases hs
  · rw [h.loadCpu] at hc'
    exact absurd hc (not_lt.mpr hc')

theorem shown_transfer (htree : SameTree fast full)
    (hvisible : ∀ k, (fast k).visible = true → (full k).visible = true)
    (hsettle : ∀ i k, Shown prev fast i → (settlesAt fast (buildPidToIdx fast) k = i ↔
      settlesAt full (buildPidToIdx full) k = i))
    (hload : ∀ i, Shown prev fast i → loadCpu fast i = loadCpu full i) {i : Fin n}
    (hi : Shown prev fast i) : Shown prev full i := by
  have hsurf : ∀ j, Surfaces fast (buildPidToIdx fast) j → Surfaces full (buildPidToIdx full) j := by
    intro j hj
    obtain ⟨k, hv, hk⟩ := (surfaces_linux _ _ _).mp hj
    exact (surfaces_linux _ _ _).mpr ⟨k, hvisible k hv, (hsettle j k (.inl hj)).mp hk⟩
  rcases hi with hs | ⟨⟨a, ha, hs⟩, hc⟩
  · exact .inl (hsurf i hs)
  · refine .inr ⟨⟨a, htree.parent ▸ ha, hsurf a hs⟩, ?_⟩
    rwa [← hload i (.inr ⟨⟨a, ha, hs⟩, hc⟩), ← htree.pid]

theorem shown_back (htree : SameTree fast full)
    (hvisible : ∀ k, (full k).visible = true → (fast k).visible = true ∨
      Shown prev fast (settlesAt full (buildPidToIdx full) k))
    (hsettle : ∀ i k, Shown prev full i → (settlesAt fast (buildPidToIdx fast) k = i ↔
      settlesAt full (buildPidToIdx full) k = i))
    (hload : ∀ i, Shown prev full i → loadCpu fast i = loadCpu full i) {i : Fin n}
    (hi : Shown prev full i) : Shown prev fast i := by
  have hsurf : ∀ j, Surfaces full (buildPidToIdx full) j → Shown prev fast j := by
    intro j hj
    obtain ⟨k, hv, hk⟩ := (surfaces_linux _ _ _).mp hj
    rcases hvisible k hv with hv | hs
    · exact .inl ((surfaces_linux _ _ _).mpr ⟨k, hv, (hsettle j k (.inl hj)).mpr hk⟩)
    · exact hk ▸ hs
  rcases hi with hs | ⟨⟨a, ha, hs⟩, hc⟩
  · exact hsurf i hs
  · have habove : Above (treeParent fast) a i := htree.parent ▸ ha
    refine .inr ⟨?_, ?_⟩
    · rcases hsurf a hs with hs' | ⟨⟨b, hb, hs'⟩, -⟩
      · exact ⟨a, habove, hs'⟩
      · exact ⟨b, hb.trans habove, hs'⟩
    · rwa [hload i (.inr ⟨⟨a, ha, hs⟩, hc⟩), htree.pid]

end Quiet

section Scan

variable (prev : Map (Packed .linux)) (gpuPids : List UInt32)

def HiddenLean (p : Scanned) : Prop :=
  ∃ st, p.parsed = some st ∧ mayQualify prev gpuPids p.pid p.cpu st = false ∧
    isNoise st.comm p.args = false ∧ isLeanOrLake st.comm p.args = true

def ZeroedNoise (p : Scanned) : Prop :=
  ∃ st, p.parsed = some st ∧ mayQualify prev gpuPids p.pid p.cpu st = false ∧
    isNoise st.comm p.args = true ∧ p.cpu ≠ 0

def Relabelled (p : Scanned) : Prop :=
  ∃ st, p.parsed = some st ∧ mayQualify prev gpuPids p.pid p.cpu st = false ∧
    (fullRow gpuPids p.pid p.cpu st p.args).display ≠ st.comm

def collectTable (fastPath : Bool) (scan : List Scanned) : Table .linux scan.length :=
  fun i => collectRow prev gpuPids fastPath (scan.get i)

def survivors (fastPath : Bool) (scan : List Scanned) :
    Option (List (UInt32 × UInt32 × List UInt8 × ℚ × UInt32)) :=
  let out := collectProcs prev gpuPids fastPath scan
  (filterWithChildren out.1 prev out.2).map fun kept => kept.1.map survivorView

section Conditions

variable (scan : List Scanned)

def Steady : Prop :=
  let fast := collectTable prev gpuPids true scan
  let full := collectTable prev gpuPids false scan
  ∀ i k, (Shown prev fast i ∨ Shown prev full i) → Reaches fast full k i →
    ¬ Redirected fast full k ∧ ¬ ZeroedNoise prev gpuPids (scan.get k)

def Covered : Prop :=
  let full := collectTable prev gpuPids false scan
  ∀ k, HiddenLean prev gpuPids (scan.get k) →
    Shown prev (collectTable prev gpuPids true scan) (settlesAt full (buildPidToIdx full) k)

def Labelled : Prop :=
  ∀ i, Shown prev (collectTable prev gpuPids true scan) i → ¬ Relabelled prev gpuPids (scan.get i)

def Accompanied : Prop :=
  let fast := collectTable prev gpuPids true scan
  let full := collectTable prev gpuPids false scan
  ∀ i k, Shown prev fast i → loadRss fast i < 2 ^ 32 - 1 → (fast k).rssKib ≠ 0 →
    Moved fast full k i → ∃ j ≠ k, Moved fast full j i

end Conditions

def SameSurvivors (scan : List Scanned) : Prop :=
  ∃ rows, survivors prev gpuPids true scan = some rows ∧
    survivors prev gpuPids false scan = some rows

variable {prev gpuPids}

theorem collectRow_ppid (fastPath : Bool) (p : Scanned) :
    (collectRow prev gpuPids fastPath p).ppid = (p.parsed.map (·.ppid)).getD 0 := by
  unfold collectRow
  cases p.parsed with
  | none => rfl
  | some st => dsimp only; split <;> rfl

theorem collect_sameTree (scan : List Scanned) :
    SameTree (collectTable prev gpuPids true scan) (collectTable prev gpuPids false scan) :=
  ⟨fun i => by simp only [collectTable, collectRow_pid],
    fun i => by simp only [collectTable, collectRow_ppid]⟩

theorem collect_distinct {scan : List Scanned} (hd : (scan.map (·.pid)).Nodup) (fastPath : Bool) :
    Distinct (collectTable prev gpuPids fastPath scan) := by
  intro i j hij
  simp only [collectTable, collectRow_pid] at hij
  exact List.nodup_iff_injective_get.mp (hd.of_map _) (List.inj_on_of_nodup_map hd
    (List.get_mem _ _) (List.get_mem _ _) hij)

theorem filterWithChildren_map {α : Type} (l : List α) (f : α → ProcInfo .linux)
    (hd : Distinct fun i => f (l.get i)) (prev : Map (Packed .linux))
    (next : List (UInt32 × Packed .linux)) :
    ∃ kept rows next', filterWithChildren (l.map f) prev next = some (kept.map rows, next') ∧
      Filtered prev (fun i => f (l.get i)) kept rows := by
  have hcast : ∀ (procs : List (ProcInfo .linux)) (k : ℕ) (hk : procs.length = k)
      (t : Table .linux k), (∀ i, t i = procs.get (i.cast hk.symm)) → Distinct t →
      ∃ kept rows next', filterWithChildren procs prev next = some (kept.map rows, next') ∧
        Filtered prev t kept rows := by
    intro procs k hk t ht hdt
    subst hk
    obtain rfl : t = procs.get := funext ht
    exact filterWithChildren_filtered procs hdt prev next
  exact hcast _ _ (List.length_map f) _ (fun i => by simp) hd

theorem survivors_filtered (prev : Map (Packed .linux)) (gpuPids : List UInt32)
    {scan : List Scanned} (hd : (scan.map (·.pid)).Nodup)
    (fastPath : Bool) :
    ∃ kept rows, survivors prev gpuPids fastPath scan = some ((kept.map rows).map survivorView) ∧
      Filtered prev (collectTable prev gpuPids fastPath scan) kept rows := by
  obtain ⟨kept, rows, next', hrun, h⟩ := filterWithChildren_map scan
    (collectRow prev gpuPids fastPath) (collect_distinct hd fastPath) prev (scan.map collectNext)
  refine ⟨kept, rows, ?_, h⟩
  simp only [survivors, collectProcs, hrun, Option.map_some]

theorem quiet_cpu {pid : UInt32} {cpu : ℚ} {st : Parsed}
    (hq : mayQualify prev gpuPids pid cpu st = false) : cpu < childThresh prev pid := by
  simp only [mayQualify, Bool.or_eq_false_iff, Bool.and_eq_false_iff, decide_eq_false_iff_not,
    not_le] at hq
  obtain ⟨⟨⟨⟨hc, hk⟩, _⟩, _⟩, _⟩ := hq
  unfold childThresh
  dsimp only
  split
  · rename_i hv
    rcases hk with hk | hk
    · exact hk
    · rw [hv] at hk
      cases hk
  · exact hc

theorem childThresh_pos (prev : Map (Packed .linux)) (pid : UInt32) : 0 < childThresh prev pid := by
  unfold childThresh
  dsimp only
  split
  · norm_num [CHILD_CPU_KEEP_THRESH]
  · norm_num [CHILD_CPU_THRESH]

theorem flag_pack {age : UInt32} (h : Word.flag age = false) (v : Bool) :
    Word.flag (ProcInfo.pack age v) = v := by
  cases v with
  | false => exact h
  | true => exact Word.flag_setFlag true age

theorem quiet_visible {p : Scanned} {st : Parsed}
    (hq : mayQualify prev gpuPids p.pid p.cpu st = false) :
    (fullRow gpuPids p.pid p.cpu st p.args).visible =
      (!isNoise st.comm p.args && isLeanOrLake st.comm p.args) := by
  simp only [mayQualify, Bool.or_eq_false_iff, decide_eq_false_iff_not, not_le] at hq
  obtain ⟨⟨⟨⟨hc, _⟩, hm⟩, hg⟩, _⟩ := hq
  have hcpu : ¬ p.cpu ≥ CPU_THRESH := by
    have h5 : CHILD_CPU_THRESH ≤ CPU_THRESH := by norm_num [CHILD_CPU_THRESH, CPU_THRESH]
    exact not_le.mpr (hc.trans_le h5)
  simp only [fullRow, ProcInfo.visible, flag_pack st.age_lt, decide_eq_false hcpu,
    decide_eq_false hm, hg, Bool.or_false, Bool.false_and]

theorem collect_fast {p : Scanned} {st : Parsed} (hp : p.parsed = some st)
    (hq : mayQualify prev gpuPids p.pid p.cpu st = false) :
    collectRow prev gpuPids true p = fallbackRow p.pid p.cpu st := by
  simp [collectRow, hp, hq]

theorem collect_full {p : Scanned} {st : Parsed} (hp : p.parsed = some st) :
    collectRow prev gpuPids false p = fullRow gpuPids p.pid p.cpu st p.args := by
  simp [collectRow, hp]

theorem collect_cases (prev : Map (Packed .linux)) (gpuPids : List UInt32) (p : Scanned) :
    (∃ st, p.parsed = some st ∧ mayQualify prev gpuPids p.pid p.cpu st = false) ∨
    collectRow prev gpuPids true p = collectRow prev gpuPids false p ∧
      ¬ ZeroedNoise prev gpuPids p ∧ ¬ Relabelled prev gpuPids p ∧ ¬ HiddenLean prev gpuPids p := by
  by_cases hquiet : ∃ st, p.parsed = some st ∧ mayQualify prev gpuPids p.pid p.cpu st = false
  · exact .inl hquiet
  · refine .inr ⟨?_, fun ⟨st, hp, hq, _⟩ => hquiet ⟨st, hp, hq⟩,
      fun ⟨st, hp, hq, _⟩ => hquiet ⟨st, hp, hq⟩, fun ⟨st, hp, hq, _⟩ => hquiet ⟨st, hp, hq⟩⟩
    unfold collectRow
    cases hp : p.parsed with
    | none => rfl
    | some st =>
      have hq : mayQualify prev gpuPids p.pid p.cpu st = true :=
        Bool.of_not_eq_false fun hq => hquiet ⟨st, hp, hq⟩
      simp [hq]

theorem collect_rss (p : Scanned) :
    (collectRow prev gpuPids true p).rssKib = (collectRow prev gpuPids false p).rssKib := by
  rcases collect_cases prev gpuPids p with ⟨st, hp, hq⟩ | ⟨heq, -⟩
  · rw [collect_fast hp hq, collect_full hp]
    rfl
  · rw [heq]

theorem collect_cpu (p : Scanned) :
    (collectRow prev gpuPids true p).cpu = (collectRow prev gpuPids false p).cpu ↔
      ¬ ZeroedNoise prev gpuPids p := by
  rcases collect_cases prev gpuPids p with ⟨st, hp, hq⟩ | ⟨heq, hnone, -⟩
  · rw [collect_fast hp hq, collect_full hp]
    cases hn : isNoise st.comm p.args with
    | false => simp [fallbackRow, fullRow, ZeroedNoise, hp, hn]
    | true => simp [fallbackRow, fullRow, ZeroedNoise, hp, hq, hn]
  · exact iff_of_true (congrArg ProcInfo.cpu heq) hnone

theorem collect_display (p : Scanned) :
    (collectRow prev gpuPids true p).display = (collectRow prev gpuPids false p).display ↔
      ¬ Relabelled prev gpuPids p := by
  rcases collect_cases prev gpuPids p with ⟨st, hp, hq⟩ | ⟨heq, -, hnone, -⟩
  · rw [collect_fast hp hq, collect_full hp]
    have hiff : Relabelled prev gpuPids p ↔
        (fullRow gpuPids p.pid p.cpu st p.args).display ≠ st.comm := by
      constructor
      · rintro ⟨st', hp', -, hne⟩
        obtain rfl := Option.some.inj (hp.symm.trans hp')
        exact hne
      · exact fun hne => ⟨st, hp, hq, hne⟩
    rw [hiff, not_not]
    exact eq_comm
  · exact iff_of_true (congrArg ProcInfo.display heq) hnone

theorem collect_visible (p : Scanned) :
    (collectRow prev gpuPids false p).visible = true ↔
      (collectRow prev gpuPids true p).visible = true ∨ HiddenLean prev gpuPids p := by
  rcases collect_cases prev gpuPids p with ⟨st, hp, hq⟩ | ⟨heq, -, -, hnone⟩
  · have hfast : (fallbackRow p.pid p.cpu st).visible = false := flag_pack st.age_lt false
    rw [collect_fast hp hq, collect_full hp, quiet_visible hq, hfast]
    simp [ HiddenLean, hp, hq]
  · rw [heq, or_iff_left hnone]

theorem collect_quiet {scan : List Scanned} {i : Fin scan.length}
    (hd : Differ (collectTable prev gpuPids true scan) (collectTable prev gpuPids false scan) i) :
    Quiet prev (collectTable prev gpuPids true scan i) (collectTable prev gpuPids false scan i) := by
  obtain ⟨st, hp, hq⟩ := (collect_cases prev gpuPids (scan.get i)).resolve_right fun h => hd h.1
  have hcpu := quiet_cpu hq
  simp only [collectTable, collect_fast hp hq, collect_full hp]
  refine ⟨?_, hcpu, ?_⟩
  · exact flag_pack st.age_lt false
  · change (if isNoise st.comm (scan.get i).args then 0 else (scan.get i).cpu) < _
    split
    · exact childThresh_pos prev _
    · exact hcpu

theorem sameSurvivors_iff {scan : List Scanned} (hd : (scan.map (·.pid)).Nodup) :
    SameSurvivors prev gpuPids scan ↔
      LoadsAgree prev (collectTable prev gpuPids true scan)
        (collectTable prev gpuPids false scan) := by
  obtain ⟨kept, rows, hrun, h⟩ := survivors_filtered prev gpuPids hd true
  obtain ⟨kept', rows', hrun', h'⟩ := survivors_filtered prev gpuPids hd false
  rw [← sameView_iff (collect_sameTree scan) (collect_distinct hd true) h h']
  unfold SameSurvivors
  rw [hrun, hrun']
  constructor
  · rintro ⟨v, hv, hv'⟩
    exact (Option.some.inj hv).trans (Option.some.inj hv').symm
  · intro heq
    exact ⟨_, rfl, congrArg some heq.symm⟩

theorem loadsAgree_necessary {scan : List Scanned}
    (h : LoadsAgree prev (collectTable prev gpuPids true scan)
      (collectTable prev gpuPids false scan)) :
    Covered prev gpuPids scan ∧ Labelled prev gpuPids scan ∧ Accompanied prev gpuPids scan := by
  refine ⟨fun k hk => (h.shown _).mpr (.inl ?_), fun i hi => (collect_display _).mp (h.display i hi),
    fun i k hi hfull hrss hmoved => ?_⟩
  · exact (surfaces_linux _ _ _).mpr ⟨k, (collect_visible _).mpr (.inr hk), rfl⟩
  · exact moved_alone (fun j => collect_rss (scan.get j)) (h.rss i hi) hfull hrss hmoved

theorem Steady.loadsAgree {scan : List Scanned} (h : Steady prev gpuPids scan)
    (hcovered : Covered prev gpuPids scan) (hlabelled : Labelled prev gpuPids scan) :
    LoadsAgree prev (collectTable prev gpuPids true scan)
      (collectTable prev gpuPids false scan) := by
  have htree : SameTree (collectTable prev gpuPids true scan) (collectTable prev gpuPids false scan) :=
    collect_sameTree scan
  have hfold := fun i hi k hk => (h i k hi hk).1
  have hsettle := fun i hi k => settlesAt_congr (hfold i hi) k
  have hload := fun i hi => loadCpu_congr (hfold i hi)
    fun k hk => (collect_cpu _).mpr (h i k hi hk).2
  refine ⟨fun i => ⟨fun hi => ?_, fun hi => ?_⟩, fun i hi => (collect_display _).mpr (hlabelled i hi),
    fun i hi => hload i (.inl hi), fun i hi =>
      loadRss_congr (hfold i (.inl hi)) fun k => collect_rss (scan.get k)⟩
  · exact shown_transfer htree (fun k hv => (collect_visible _).mpr (.inl hv))
      (fun j k hj => hsettle j (.inl hj) k) (fun j hj => hload j (.inl hj)) hi
  · refine shown_back htree (fun k hv => ?_) (fun j k hj => hsettle j (.inr hj) k)
      (fun j hj => hload j (.inr hj)) hi
    exact ((collect_visible _).mp hv).imp_right (hcovered k)

section Apart

variable {scan : List Scanned}
  (hap : Apart (collectTable prev gpuPids true scan) (collectTable prev gpuPids false scan))
include hap

theorem differ_not_shown {i : Fin scan.length}
    (hd : Differ (collectTable prev gpuPids true scan) (collectTable prev gpuPids false scan) i) :
    ¬ Shown prev (collectTable prev gpuPids true scan) i :=
  (hap i hd).1.not_shown (collect_quiet hd).hidden (collect_quiet hd).fast_cpu

theorem apart_steady : Steady prev gpuPids scan := by
  refine fun i k hi hk => ⟨?_, fun hz => ?_⟩
  · exact not_not.mpr (congrFun (coalesceRoot_apart (collect_sameTree scan) hap) k)
  · have hd : Differ (collectTable prev gpuPids true scan) (collectTable prev gpuPids false scan) k :=
      fun heq => (collect_cpu (scan.get k)).mp (congrArg ProcInfo.cpu heq) hz
    obtain rfl : k = i := by
      rcases hk with hk | hk
      · exact (((hap k hd).1.settles k).mpr rfl).symm.trans hk
      · exact (((hap k hd).2.settles k).mpr rfl).symm.trans hk
    have hhidden : (collectTable prev gpuPids false scan k).visible = false := by
      obtain ⟨st, hp, -, hnoise, -⟩ := hz
      rw [← Bool.not_eq_true]
      intro hv
      rcases (collect_visible (scan.get k)).mp hv with hv | ⟨st', hp', -, hplain, -⟩
      · exact absurd (hv.symm.trans (collect_quiet hd).hidden) (by decide)
      · obtain rfl := Option.some.inj (hp.symm.trans hp')
        rw [hnoise] at hplain
        cases hplain
    rcases hi with hi | hi
    · exact differ_not_shown hap hd hi
    · exact (hap k hd).2.not_shown hhidden (collect_quiet hd).full_cpu hi

theorem apart_labelled : Labelled prev gpuPids scan := by
  intro i hi
  refine (collect_display _).mp ?_
  by_contra hne
  exact differ_not_shown hap (fun heq => hne (congrArg ProcInfo.display heq)) hi

theorem apart_covered : Covered prev gpuPids scan ↔ ∀ p ∈ scan, ¬ HiddenLean prev gpuPids p := by
  constructor
  · intro hcovered p hmem hlean
    obtain ⟨k, rfl⟩ := List.get_of_mem hmem
    have hv : (collectTable prev gpuPids false scan k).visible = true :=
      (collect_visible _).mpr (.inr hlean)
    have hd : Differ (collectTable prev gpuPids true scan) (collectTable prev gpuPids false scan) k := by
      intro heq
      obtain ⟨st, hp, hq, -⟩ := hlean
      rw [← heq] at hv
      simp only [collectTable, collect_fast hp hq] at hv
      exact absurd (hv.symm.trans (flag_pack st.age_lt false)) (by decide)
    have hshown := hcovered k hlean
    rw [((hap k hd).2.settles k).mpr rfl] at hshown
    exact differ_not_shown hap hd hshown
  · exact fun hnone k hlean => absurd hlean (hnone _ (List.get_mem scan k))

end Apart

theorem fastPath_sound_iff (prev : Map (Packed .linux)) (gpuPids : List UInt32)
    (scan : List Scanned) (hd : (scan.map (·.pid)).Nodup) :
    (SameSurvivors prev gpuPids scan →
      Covered prev gpuPids scan ∧ Labelled prev gpuPids scan ∧ Accompanied prev gpuPids scan) ∧
    (Steady prev gpuPids scan → (SameSurvivors prev gpuPids scan ↔
      Covered prev gpuPids scan ∧ Labelled prev gpuPids scan)) ∧
    (Apart (collectTable prev gpuPids true scan) (collectTable prev gpuPids false scan) →
      (SameSurvivors prev gpuPids scan ↔ ∀ p ∈ scan, ¬ HiddenLean prev gpuPids p)) := by
  have hnecessary : SameSurvivors prev gpuPids scan →
      Covered prev gpuPids scan ∧ Labelled prev gpuPids scan ∧ Accompanied prev gpuPids scan :=
    fun h => loadsAgree_necessary ((sameSurvivors_iff hd).mp h)
  have hsteady : Steady prev gpuPids scan → (SameSurvivors prev gpuPids scan ↔
      Covered prev gpuPids scan ∧ Labelled prev gpuPids scan) := fun h =>
    ⟨fun hsame => ⟨(hnecessary hsame).1, (hnecessary hsame).2.1⟩,
      fun hc => (sameSurvivors_iff hd).mpr (h.loadsAgree hc.1 hc.2)⟩
  refine ⟨hnecessary, hsteady, fun hap => ?_⟩
  rw [hsteady (apart_steady hap), apart_covered hap, and_iff_left (apart_labelled hap)]

def wrappedScan : List Scanned :=
  [{ pid := 10
     parsed := some (statLine 1 500 (bytes "MainThread") (by decide))
     cpu := 0
     args := [bytes "/usr/bin/lean", bytes "Main.lean"] }]

theorem wrappedScan_apart : Apart (collectTable .empty [] true wrappedScan)
    (collectTable .empty [] false wrappedScan) := by
  have hroot : ∀ fastPath i, coalesceRoot (collectTable .empty [] fastPath wrappedScan)
      (buildPidToIdx (collectTable .empty [] fastPath wrappedScan)) i = none := by
    decide +kernel
  exact fun i _ => ⟨⟨hroot true i, fun k => by simp [hroot true k]⟩,
    ⟨hroot false i, fun k => by simp [hroot false k]⟩⟩

theorem fastPath_sound_iff_wrapped :
    (wrappedScan.map (·.pid)).Nodup ∧
      (SameSurvivors .empty [] wrappedScan ↔ ∀ p ∈ wrappedScan, ¬ HiddenLean .empty [] p) :=
  ⟨by decide, (fastPath_sound_iff .empty [] wrappedScan (by decide)).2.2 wrappedScan_apart⟩

theorem wrappedScan_differs : ¬ SameSurvivors .empty [] wrappedScan := by
  have hfast : (survivors .empty [] true wrappedScan).map List.length = some 0 := by
    decide +kernel
  have hfull : (survivors .empty [] false wrappedScan).map List.length = some 1 := by
    decide
  rintro ⟨rows, h, h'⟩
  rw [h] at hfast
  rw [h'] at hfull
  simp only [Option.map_some, Option.some.injEq] at hfast hfull
  omega

end Scan

end Ltop
