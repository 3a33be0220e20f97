import Mathlib
import Ltop.Coalesce

namespace Ltop

open Saturate

variable {os : Os} {n : ℕ} {add : ℚ → ℚ → ℚ}

def settlesAt (procs : Table os n) (m : Map (Fin n)) (k : Fin n) : Fin n :=
  Transfer.settle (coalesceRoot procs m) (List.finRange n) k

def simSettlesAt (procs : Table os n) (m : Map (Fin n)) (k i : Fin n) : Prop :=
  ∃ r, coalesceRoot procs m k = some r ∧ isLaunchdSim os (procs r).display = true ∧
    Transfer.settle (coalesceRoot procs m) ((List.finRange n).drop (k.val + 1)) r = i

def Surfaces (procs : Table os n) (m : Map (Fin n)) (i : Fin n) : Prop :=
  ∃ k, ((procs k).visible = true ∧ settlesAt procs m k = i) ∨ simSettlesAt procs m k i

def Ends (procs : Table os n) (m : Map (Fin n)) : ℕ → UInt32 → Prop
  | 0, a => m.get a = none
  | h + 1, a => ∀ pa, m.get a = some pa → Ends procs m h (procs pa).ppid

theorem ends_of_climb {procs : Table os n} {m : Map (Fin n)} {h : ℕ} {i : Fin n}
    (hc : Chain.climb (parentOf procs m) (h + 1) i = none) : Ends procs m h (procs i).ppid := by
  induction h generalizing i with
  | zero => exact (Chain.climb_one _ i).symm.trans hc
  | succ h ih =>
    intro pa hpa
    rw [Chain.climb_of_parent _ (i := i) hpa] at hc
    exact ih hc

theorem coalesceWalk_or (procs : Table os n) (m : Map (Fin n)) (hops : ℕ) (root : Option (Fin n))
    (name : List UInt8) (shard : Bool) (a : UInt32) :
    coalesceWalk procs m hops root name shard a =
      (coalesceWalk procs m hops none name shard a).or root := by
  induction hops generalizing root name shard a with
  | zero => rfl
  | succ hops ih =>
    simp only [coalesceWalk]
    cases m.get a with
    | none => rfl
    | some pa =>
      dsimp only
      split
      · rw [ih (some pa), Option.or_assoc]
        rfl
      · exact ih root _ _ _

theorem coalesceWalk_stable {procs : Table os n} {m : Map (Fin n)} {h h' : ℕ} {a : UInt32}
    (he : Ends procs m h a) (hle : h ≤ h') (root : Option (Fin n)) (name : List UInt8)
    (shard : Bool) :
    coalesceWalk procs m h' root name shard a = coalesceWalk procs m h root name shard a := by
  induction h generalizing h' root name shard a with
  | zero =>
    cases h' with
    | zero => rfl
    | succ h' =>
      simp only [coalesceWalk, show m.get a = none from he]
  | succ h ih =>
    obtain ⟨k, rfl⟩ := Nat.exists_eq_add_of_lt (Nat.lt_of_succ_le hle)
    simp only [coalesceWalk]
    cases hpa : m.get a with
    | none => rfl
    | some pa => simp only [ih (he pa hpa) (show h ≤ h + k by omega)]

theorem coalesceWalk_last {procs : Table os n} {m : Map (Fin n)} {h : ℕ} {a : UInt32} {r : Fin n}
    {name : List UInt8} {shard : Bool} (he : Ends procs m h a)
    (hw : coalesceWalk procs m h none name shard a = some r) :
    ∃ k ≤ h, Ends procs m k (procs r).ppid ∧
      coalesceWalk procs m k none (procs r).display (isShardName (procs r).display) (procs r).ppid =
        none := by
  induction h generalizing name shard a with
  | zero => cases hw
  | succ h ih =>
    simp only [coalesceWalk] at hw
    cases hpa : m.get a with
    | none => simp [hpa] at hw
    | some pa =>
      have hends := he pa hpa
      rw [hpa] at hw
      dsimp only at hw
      split at hw
      · rw [coalesceWalk_or] at hw
        cases hrest : coalesceWalk procs m h none (procs pa).display
            (isShardName (procs pa).display) (procs pa).ppid with
        | none =>
          rw [hrest] at hw
          obtain rfl := Option.some.inj hw
          exact ⟨h, by omega, hends, hrest⟩
        | some r' =>
          rw [hrest] at hw
          obtain rfl := Option.some.inj hw
          obtain ⟨k, hk, hrest⟩ := ih hends hrest
          exact ⟨k, by omega, hrest⟩
      · obtain ⟨k, hk, hrest⟩ := ih hends hw
        exact ⟨k, by omega, hrest⟩

theorem coalesceRoot_terminal {procs : Table os n} {m : Map (Fin n)} {i r : Fin n}
    (hc : Chain.climb (parentOf procs m) 65 i = none) (hr : coalesceRoot procs m i = some r) :
    coalesceRoot procs m r = none := by
  obtain ⟨k, hk, hends, hnone⟩ := coalesceWalk_last (ends_of_climb hc) hr
  exact (coalesceWalk_stable hends hk _ _ _).trans hnone

structure Coalesced (procs after : Table os n) (root : Fin n → Option (Fin n)) : Prop where
  same : ∀ i, SameRow (after i) (procs i)
  terminal : ∀ i r, root i = some r → root r = none
  hidden : ∀ i r, root i = some r → (after i).visible = false
  cpu_folded : ∀ i r, root i = some r → (after i).cpu = 0
  rss_folded : ∀ i r, root i = some r → (after i).rssKib = 0
  gpu_folded : ∀ i r, root i = some r → (after i).gpu = none
  cpu : ∀ r, root r = none → (after r).cpu = (procs r).cpu + ∑ i with root i = some r, (procs i).cpu
  rss : ∀ r, root r = none → (after r).rssKib.toNat =
    min ((procs r).rssKib.toNat + ∑ i with root i = some r, (procs i).rssKib.toNat) (2 ^ 32 - 1)
  gpu : ∀ r, root r = none → ((after r).gpu.isSome = true ↔
    (procs r).gpu.isSome = true ∨ ∃ i, root i = some r ∧ (procs i).gpu.isSome = true)
  gpuMem : ∀ r, root r = none → gpuMem (after r).gpu =
    min (gpuMem (procs r).gpu + ∑ i with root i = some r, gpuMem (procs i).gpu) (2 ^ 32 - 1)
  gpuSm : ∀ r, root r = none → gpuSm (after r).gpu =
    (gpuSm (procs r).gpu + ∑ i with root i = some r, gpuSm (procs i).gpu) % 2 ^ 32
  visible : ∀ r, root r = none → ((after r).visible = true ↔
    (procs r).visible = true ∨ ∃ i, root i = some r ∧
      ((procs i).visible = true ∨ isLaunchdSim os (procs r).display = true))

theorem gpuSm_lt (g : Option (GpuUsage os)) : gpuSm g < 2 ^ 32 := by
  cases g with
  | none => simp [gpuSm]
  | some g => exact g.smPct.toNat_lt

theorem coalesced_of_terminal {procs : Table os n} {m : Map (Fin n)}
    (hterm : ∀ i r, coalesceRoot procs m i = some r → coalesceRoot procs m r = none) :
    Coalesced procs (coalesceHelpers (· + ·) procs m) (coalesceRoot procs m) := by
  have hall : ∀ i, i ∈ List.finRange n := List.mem_finRange
  have hfold : ∀ {M : Type} [AddCommMonoid M] {φ e : ProcInfo os → M}
      (_ : Transfer.Observes hide (foldInto (· + ·)) φ e) (i r : Fin n), coalesceRoot procs m i = some r →
      φ (coalesceHelpers (· + ·) procs m i) = 0 := by
    intro M _ φ e ho i r hi
    rw [coalesceHelpers_eq]
    exact Transfer.obs_folded _ ho hterm hall procs hi
  have hroot : ∀ {M : Type} [AddCommMonoid M] {φ e : ProcInfo os → M}
      (_ : Transfer.Observes hide (foldInto (· + ·)) φ e) (r : Fin n), coalesceRoot procs m r = none →
      φ (coalesceHelpers (· + ·) procs m r) = φ (procs r) +
        ∑ i with coalesceRoot procs m i = some r, φ (procs i) +
        ∑ i with coalesceRoot procs m i = some r, e (procs r) := by
    intro M _ φ e ho r hr
    rw [coalesceHelpers_eq]
    exact Transfer.obs_root _ ho hterm hall (fun f => (Fin.sum_univ_def f).symm) procs hr
  constructor
  case same => exact coalesceHelpers_same procs m
  case terminal => exact hterm
  case hidden =>
    intro i r hi
    have h := congrArg Sat.val (hfold (observes_visible _) i r hi)
    have := (Sat.ofBool_pos (coalesceHelpers (· + ·) procs m i).visible).not
    simpa [h] using this
  case cpu_folded => exact fun i r hi => hfold observes_cpu i r hi
  case rss_folded =>
    intro i r hi
    exact UInt32.toNat_inj.mp (congrArg Sat.val (hfold (observes_rss _) i r hi))
  case gpu_folded =>
    intro i r hi
    have h := congrArg Sat.val (hfold (observes_gpu _) i r hi)
    have := (Sat.ofBool_pos (coalesceHelpers (· + ·) procs m i).gpu.isSome).not
    simpa [h] using this
  case cpu =>
    intro r hr
    simpa using hroot observes_cpu r hr
  case rss =>
    intro r hr
    have h := congrArg Sat.val (hroot (observes_rss _) r hr)
    simp only [Finset.sum_const_zero, add_zero, Sat.val_add, Sat.val_sum, rssObs] at h
    omega
  case gpu =>
    intro r hr
    have h := hroot (observes_gpu _) r hr
    rw [← Sat.ofBool_pos, h]
    simp [Sat.add_pos_iff, Sat.sum_pos_iff]
  case gpuMem =>
    intro r hr
    have h := congrArg Sat.val (hroot (observes_mem _) r hr)
    simp only [Finset.sum_const_zero, add_zero, Sat.val_add, Sat.val_sum, memObs] at h
    omega
  case gpuSm =>
    intro r hr
    have h := hroot (observes_sm _) r hr
    simp only [Finset.sum_const_zero, add_zero, smObs, ← Nat.cast_sum, ← Nat.cast_add] at h
    rw [ZMod.natCast_eq_natCast_iff, Nat.ModEq, Nat.mod_eq_of_lt (gpuSm_lt _)] at h
    exact h
  case visible =>
    intro r hr
    have h := hroot (observes_visible _) r hr
    rw [← Sat.ofBool_pos, h]
    simp only [Sat.add_pos_iff, Sat.sum_pos_iff, Sat.ofBool_pos, Finset.mem_filter,
      Finset.mem_univ, true_and, or_assoc]
    refine or_congr_right ?_
    constructor
    · rintro (⟨i, hi, hv⟩ | ⟨i, hi, hs⟩)
      · exact ⟨i, hi, .inl hv⟩
      · exact ⟨i, hi, .inr hs⟩
    · rintro ⟨i, hi, hv | hs⟩
      · exact .inl ⟨i, hi, hv⟩
      · exact .inr ⟨i, hi, hs⟩

theorem Coalesced.unique {procs a b : Table os n} {root : Fin n → Option (Fin n)}
    (ha : Coalesced procs a root) (hb : Coalesced procs b root) : a = b := by
  funext i
  have hsame : SameRow (a i) (b i) := by
    have h := ha.same i
    have h' := hb.same i
    exact ⟨h.pid.trans h'.pid.symm, h.ppid.trans h'.ppid.symm, h.age.trans h'.age.symm,
      h.display.trans h'.display.symm⟩
  cases hi : root i with
  | none =>
    refine row_ext hsame ?_ ?_ (gpu_ext ?_ ?_ ?_) ?_
    · rw [ha.cpu i hi, hb.cpu i hi]
    · exact UInt32.toNat_inj.mp (by rw [ha.rss i hi, hb.rss i hi])
    · exact Bool.eq_iff_iff.mpr ((ha.gpu i hi).trans (hb.gpu i hi).symm)
    · rw [ha.gpuMem i hi, hb.gpuMem i hi]
    · rw [ha.gpuSm i hi, hb.gpuSm i hi]
    · exact Bool.eq_iff_iff.mpr ((ha.visible i hi).trans (hb.visible i hi).symm)
  | some r =>
    refine row_ext hsame ?_ ?_ ?_ ?_
    · rw [ha.cpu_folded i r hi, hb.cpu_folded i r hi]
    · rw [ha.rss_folded i r hi, hb.rss_folded i r hi]
    · rw [ha.gpu_folded i r hi, hb.gpu_folded i r hi]
    · rw [ha.hidden i r hi, hb.hidden i r hi]

theorem buildPidToIdx_perm {procs : Table os n} (hd : Distinct procs) (σ : Equiv.Perm (Fin n))
    (k : UInt32) :
    (buildPidToIdx (procs ∘ σ)).get k = ((buildPidToIdx procs).get k).map σ.symm := by
  have hdσ : Distinct (procs ∘ σ) := hd.comp σ.injective
  apply Option.ext
  intro i
  rw [buildPidToIdx_get hdσ, Option.map_eq_some_iff]
  constructor
  · intro h
    exact ⟨σ i, (buildPidToIdx_get hd k (σ i)).mpr h, σ.symm_apply_apply i⟩
  · rintro ⟨j, hj, rfl⟩
    rw [Function.comp_apply, Equiv.apply_symm_apply]
    exact (buildPidToIdx_get hd k j).mp hj

theorem coalesceWalk_perm {procs : Table os n} (hd : Distinct procs) (σ : Equiv.Perm (Fin n))
    (hops : ℕ) (root : Option (Fin n)) (name : List UInt8) (shard : Bool) (a : UInt32) :
    coalesceWalk (procs ∘ σ) (buildPidToIdx (procs ∘ σ)) hops (root.map σ.symm) name shard a =
      (coalesceWalk procs (buildPidToIdx procs) hops root name shard a).map σ.symm := by
  induction hops generalizing root name shard a with
  | zero => rfl
  | succ hops ih =>
    simp only [coalesceWalk, buildPidToIdx_perm hd σ]
    cases (buildPidToIdx procs).get a with
    | none => rfl
    | some pa =>
      simp only [Option.map_some, Function.comp_apply, Equiv.apply_symm_apply]
      split
      · exact ih (some pa) _ _ _
      · exact ih root _ _ _

theorem coalesceRoot_perm {procs : Table os n} (hd : Distinct procs) (σ : Equiv.Perm (Fin n))
    (i : Fin n) :
    coalesceRoot (procs ∘ σ) (buildPidToIdx (procs ∘ σ)) i =
      (coalesceRoot procs (buildPidToIdx procs) (σ i)).map σ.symm :=
  coalesceWalk_perm hd σ 64 none _ _ _

theorem climb_perm {procs : Table os n} (hd : Distinct procs) (σ : Equiv.Perm (Fin n)) (h : ℕ)
    (i : Fin n) :
    Chain.climb (parentOf (procs ∘ σ) (buildPidToIdx (procs ∘ σ))) h i =
      (Chain.climb (parentOf procs (buildPidToIdx procs)) h (σ i)).map σ.symm := by
  induction h generalizing i with
  | zero => simp
  | succ h ih =>
    have hp : parentOf (procs ∘ σ) (buildPidToIdx (procs ∘ σ)) i =
        (parentOf procs (buildPidToIdx procs) (σ i)).map σ.symm := buildPidToIdx_perm hd σ _
    rw [Chain.climb_succ, Chain.climb_succ, hp]
    cases parentOf procs (buildPidToIdx procs) (σ i) with
    | none => rfl
    | some pa =>
      rw [Option.map_some, Option.bind_some, Option.bind_some, ih, Equiv.apply_symm_apply]

theorem Coalesced.perm {procs after : Table os n} {root root' : Fin n → Option (Fin n)}
    (σ : Equiv.Perm (Fin n)) (hroot : ∀ i, root' i = (root (σ i)).map σ.symm)
    (h : Coalesced procs after root) : Coalesced (procs ∘ σ) (after ∘ σ) root' := by
  have hnone : ∀ {i}, root' i = none → root (σ i) = none := by
    intro i hi
    rw [hroot i, Option.map_eq_none_iff] at hi
    exact hi
  have hsome : ∀ {i r}, root' i = some r ↔ root (σ i) = some (σ r) := by
    intro i r
    rw [hroot i, Option.map_eq_some_iff]
    constructor
    · rintro ⟨s, hs, rfl⟩
      rw [hs, Equiv.apply_symm_apply]
    · intro hs
      exact ⟨σ r, hs, σ.symm_apply_apply r⟩
  have hsum : ∀ {M : Type} [AddCommMonoid M] (f : Fin n → M) (r : Fin n),
      ∑ i with root' i = some r, f (σ i) = ∑ i with root i = some (σ r), f i := by
    intro M _ f r
    simp only [Finset.sum_filter, hsome]
    exact Equiv.sum_comp σ fun i => if root i = some (σ r) then f i else 0
  have hex : ∀ {P : Fin n → Prop} {r : Fin n},
      (∃ i, root' i = some r ∧ P (σ i)) ↔ ∃ i, root i = some (σ r) ∧ P i := by
    intro P r
    simp only [hsome]
    exact σ.surjective.exists (p := fun i => root i = some (σ r) ∧ P i) |>.symm
  constructor
  case same => exact fun i => h.same (σ i)
  case terminal =>
    intro i r hi
    rw [hroot r, h.terminal _ _ (hsome.mp hi)]
    rfl
  case hidden => exact fun i r hi => h.hidden _ _ (hsome.mp hi)
  case cpu_folded => exact fun i r hi => h.cpu_folded _ _ (hsome.mp hi)
  case rss_folded => exact fun i r hi => h.rss_folded _ _ (hsome.mp hi)
  case gpu_folded => exact fun i r hi => h.gpu_folded _ _ (hsome.mp hi)
  case cpu =>
    intro r hr
    simp only [Function.comp_apply]
    rw [h.cpu _ (hnone hr), hsum fun i => (procs i).cpu]
  case rss =>
    intro r hr
    simp only [Function.comp_apply]
    rw [h.rss _ (hnone hr), hsum fun i => (procs i).rssKib.toNat]
  case gpu =>
    intro r hr
    simp only [Function.comp_apply]
    rw [h.gpu _ (hnone hr), hex (P := fun i => (procs i).gpu.isSome = true)]
  case gpuMem =>
    intro r hr
    simp only [Function.comp_apply]
    rw [h.gpuMem _ (hnone hr), hsum fun i => Ltop.gpuMem (procs i).gpu]
  case gpuSm =>
    intro r hr
    simp only [Function.comp_apply]
    rw [h.gpuSm _ (hnone hr), hsum fun i => Ltop.gpuSm (procs i).gpu]
  case visible =>
    intro r hr
    simp only [Function.comp_apply]
    rw [h.visible _ (hnone hr),
      hex (P := fun i => (procs i).visible = true ∨ isLaunchdSim os (procs (σ r)).display = true)]

theorem coalesceHelpers_perm {procs : Table os n} (hd : Distinct procs)
    (hc : ∀ i, Chain.climb (parentOf procs (buildPidToIdx procs)) 65 i = none)
    (σ : Equiv.Perm (Fin n)) :
    coalesceHelpers (· + ·) (procs ∘ σ) (buildPidToIdx (procs ∘ σ)) =
      coalesceHelpers (· + ·) procs (buildPidToIdx procs) ∘ σ := by
  have hcσ : ∀ i, Chain.climb (parentOf (procs ∘ σ) (buildPidToIdx (procs ∘ σ))) 65 i = none := by
    intro i
    rw [climb_perm hd, hc]
    rfl
  exact (coalesced_of_terminal fun i r => coalesceRoot_terminal (hcσ i)).unique
    ((coalesced_of_terminal fun i r => coalesceRoot_terminal (hc i)).perm σ (coalesceRoot_perm hd σ))

section Order

variable {procs : Table os n} {m : Map (Fin n)}

def foldedCpu (add : ℚ → ℚ → ℚ) (procs : Table os n) (m : Map (Fin n)) (own : ℚ) (r : Fin n) : ℚ :=
  ((List.finRange n).filter fun k => coalesceRoot procs m k = some r).foldl
    (fun c k => add c (procs k).cpu) own

theorem replayCpu_root (hterm : ∀ i r, coalesceRoot procs m i = some r → coalesceRoot procs m r = none)
    {r : Fin n} (hr : coalesceRoot procs m r = none) :
    replayCpu add procs m r = foldedCpu add procs m (procs r).cpu r :=
  Transfer.run_terminal hterm (List.nodup_finRange n) hr _

theorem replayCpu_folded (hterm : ∀ i r, coalesceRoot procs m i = some r → coalesceRoot procs m r = none)
    {i r : Fin n} (hi : coalesceRoot procs m i = some r) : replayCpu add procs m i = 0 :=
  Transfer.run_folded hterm (fun _ _ => rfl) hi (List.mem_finRange i) _

def KeepsFolds (root : Fin n → Option (Fin n)) (σ : Equiv.Perm (Fin n)) : Prop :=
  ∀ i j, i < j → (root (σ i)).isSome = true → root (σ i) = root (σ j) → σ i < σ j

theorem filter_reordered {p : Fin n → Bool} {σ : Equiv.Perm (Fin n)}
    (h : ∀ i j, i < j → p (σ i) = true → p (σ j) = true → σ i < σ j) :
    ((List.finRange n).filter (p ∘ σ)).map σ = (List.finRange n).filter p := by
  have hperm : (((List.finRange n).filter (p ∘ σ)).map σ).Perm ((List.finRange n).filter p) := by
    refine (List.perm_ext_iff_of_nodup (((List.nodup_finRange n).filter _).map σ.injective)
      ((List.nodup_finRange n).filter _)).mpr fun i => ?_
    simp only [List.mem_map, List.mem_filter, List.mem_finRange, true_and, Function.comp_apply]
    constructor
    · rintro ⟨j, hj, rfl⟩
      exact hj
    · exact fun hi => ⟨σ.symm i, by simpa using hi, by simp⟩
  have hsorted : (((List.finRange n).filter (p ∘ σ)).map σ).Pairwise (· < ·) := by
    refine List.pairwise_map.mpr (((List.pairwise_lt_finRange n).filter _).imp_of_mem ?_)
    intro i j hi hj hlt
    exact h i j hlt (List.mem_filter.mp hi).2 (List.mem_filter.mp hj).2
  exact hperm.eq_of_pairwise (fun a b _ _ hab hba => absurd hab (lt_asymm hba)) hsorted
    ((List.pairwise_lt_finRange n).filter _)

theorem foldedCpu_reordered (hd : Distinct procs) {σ : Equiv.Perm (Fin n)}
    (hσ : KeepsFolds (coalesceRoot procs (buildPidToIdx procs)) σ) (own : ℚ) (r : Fin n) :
    foldedCpu add (procs ∘ σ) (buildPidToIdx (procs ∘ σ)) own r =
      foldedCpu add procs (buildPidToIdx procs) own (σ r) := by
  have hsome : ∀ k, coalesceRoot (procs ∘ σ) (buildPidToIdx (procs ∘ σ)) k = some r ↔
      coalesceRoot procs (buildPidToIdx procs) (σ k) = some (σ r) := by
    intro k
    rw [coalesceRoot_perm hd, Option.map_eq_some_iff]
    constructor
    · rintro ⟨s, hs, rfl⟩
      rw [hs, Equiv.apply_symm_apply]
    · intro hs
      exact ⟨σ r, hs, σ.symm_apply_apply r⟩
  let member : Fin n → Bool := fun k => coalesceRoot procs (buildPidToIdx procs) k = some (σ r)
  have hmember : ∀ i j, i < j → member (σ i) = true → member (σ j) = true → σ i < σ j := by
    intro i j hlt hi hj
    rw [decide_eq_true_eq] at hi hj
    exact hσ i j hlt (by simp [hi]) (hi.trans hj.symm)
  unfold foldedCpu
  rw [← filter_reordered hmember, List.foldl_map]
  simp only [hsome]
  rfl

theorem coalesceHelpers_reordered (hd : Distinct procs)
    (hc : ∀ i, Chain.climb (parentOf procs (buildPidToIdx procs)) 65 i = none)
    {σ : Equiv.Perm (Fin n)} (hσ : KeepsFolds (coalesceRoot procs (buildPidToIdx procs)) σ) :
    coalesceHelpers add (procs ∘ σ) (buildPidToIdx (procs ∘ σ)) =
      coalesceHelpers add procs (buildPidToIdx procs) ∘ σ := by
  have hcσ : ∀ i, Chain.climb (parentOf (procs ∘ σ) (buildPidToIdx (procs ∘ σ))) 65 i = none := by
    intro i
    rw [climb_perm hd, hc]
    rfl
  have hterm := fun i r => coalesceRoot_terminal (hc i) (r := r)
  have htermσ := fun i r => coalesceRoot_terminal (hcσ i) (r := r)
  have hcpu : ∀ i, (coalesceHelpers add (procs ∘ σ) (buildPidToIdx (procs ∘ σ)) i).cpu =
      (coalesceHelpers add procs (buildPidToIdx procs) (σ i)).cpu := by
    intro i
    rw [coalesceHelpers_cpu_replay, coalesceHelpers_cpu_replay]
    have hroot := coalesceRoot_perm hd σ i
    cases hr : coalesceRoot procs (buildPidToIdx procs) (σ i) with
    | none =>
      rw [hr] at hroot
      rw [replayCpu_root htermσ hroot, replayCpu_root hterm hr, foldedCpu_reordered hd hσ]
      rfl
    | some r =>
      rw [hr] at hroot
      rw [replayCpu_folded htermσ hroot, replayCpu_folded hterm hr]
  refine funext fun i => withoutCpu_ext ?_ (hcpu i)
  rw [coalesceHelpers_withoutCpu, coalesceHelpers_perm hd hc, Function.comp_apply, Function.comp_apply,
    ← coalesceHelpers_withoutCpu]

end Order

theorem coalesceHelpers_cpu (procs : Table os n) (m : Map (Fin n)) :
    ∑ i, (coalesceHelpers (· + ·) procs m i).cpu = ∑ i, (procs i).cpu := by
  rw [coalesceHelpers_eq]
  exact Transfer.obs_total _ observes_cpu _ procs

theorem coalesceHelpers_settles (procs : Table os n) (hd : Distinct procs) :
    ((∀ i, Chain.climb (parentOf procs (buildPidToIdx procs)) 65 i = none) →
      Coalesced procs (coalesceHelpers (· + ·) procs (buildPidToIdx procs))
        (coalesceRoot procs (buildPidToIdx procs)) ∧
      ∀ σ : Equiv.Perm (Fin n), coalesceHelpers (· + ·) (procs ∘ σ) (buildPidToIdx (procs ∘ σ)) =
        coalesceHelpers (· + ·) procs (buildPidToIdx procs) ∘ σ) ∧
    ∑ i, (coalesceHelpers (· + ·) procs (buildPidToIdx procs) i).cpu = ∑ i, (procs i).cpu := by
  refine ⟨fun hc => ⟨?_, coalesceHelpers_perm hd hc⟩, coalesceHelpers_cpu procs _⟩
  exact coalesced_of_terminal fun i r => coalesceRoot_terminal (hc i)

theorem emitted_pos_iff {ι : Type} [DecidableEq ι] (R : ι → Option ι) (E : ι → Sat 1) (r : ι)
    (l : List ι) :
    0 < (Transfer.emitted R E r l).val ↔ ∃ j k t, l[j]? = some k ∧ R k = some t ∧ 0 < (E t).val ∧
      Transfer.settle R (l.drop (j + 1)) t = r := by
  induction l with
  | nil => simp [Transfer.emitted]
  | cons i l ih =>
    rw [Transfer.emitted, Sat.add_pos_iff, ih]
    constructor
    · rintro (h | ⟨j, k, t, hj, hk, ht, hs⟩)
      · cases hi : R i with
        | none => simp [hi] at h
        | some t =>
          rw [hi] at h
          dsimp only at h
          split at h
          · rename_i hs
            exact ⟨0, i, t, rfl, hi, h, hs⟩
          · simp at h
      · exact ⟨j + 1, k, t, hj, hk, ht, hs⟩
    · rintro ⟨j, k, t, hj, hk, ht, hs⟩
      cases j with
      | zero =>
        obtain rfl := Option.some.inj hj
        left
        simp only [List.drop_succ_cons, List.drop_zero] at hs
        simp [hk, hs, ht]
      | succ j => exact .inr ⟨j, k, t, hj, hk, ht, hs⟩

theorem coalesceHelpers_visible (procs : Table os n) (m : Map (Fin n)) (i : Fin n) :
    (coalesceHelpers add procs m i).visible = true ↔ Surfaces procs m i := by
  have hobs := Transfer.run_obs (coalesceRoot procs m) (observes_visible add) (List.finRange n) procs i
  rw [← coalesceHelpers_eq] at hobs
  rw [← Sat.ofBool_pos, hobs, Sat.add_pos_iff, Sat.sum_pos_iff, emitted_pos_iff]
  simp only [Finset.mem_filter, Finset.mem_univ, true_and, Sat.ofBool_pos]
  constructor
  · rintro (⟨k, hk, hv⟩ | ⟨j, k, r, hj, hk, hs, hr⟩)
    · exact ⟨k, .inl ⟨hv, hk⟩⟩
    · obtain ⟨hlt, hget⟩ := List.getElem?_eq_some_iff.mp hj
      have hjk : j = k.val := by
        rw [← hget]
        simp
      exact ⟨k, .inr ⟨r, hk, hs, hjk ▸ hr⟩⟩
  · rintro ⟨k, ⟨hv, hk⟩ | ⟨r, hk, hs, hr⟩⟩
    · exact .inl ⟨k, hk, hv⟩
    · exact .inr ⟨k.val, k, r, by simp, hk, hs, hr⟩

theorem coalesceHelpers_rss_settled (procs : Table os n) (m : Map (Fin n)) (i : Fin n) :
    (coalesceHelpers add procs m i).rssKib.toNat =
      min (∑ k with settlesAt procs m k = i, (procs k).rssKib.toNat) (2 ^ 32 - 1) := by
  have hobs := Transfer.run_obs (coalesceRoot procs m) (observes_rss add) (List.finRange n) procs i
  rw [← coalesceHelpers_eq, Transfer.emitted_zero, add_zero] at hobs
  have h := congrArg Sat.val hobs
  rwa [Sat.val_sum] at h

def electronRows : Table .linux 3 :=
  ![procInfo 11 10 2 true (bytes "Code Helper (Renderer)"), procInfo 10 1 1 false (bytes "Code"),
    procInfo 12 11 (1 / 2) false (bytes "zsh")]

theorem coalesceHelpers_settles_electron :
    Coalesced electronRows (coalesceHelpers (· + ·) electronRows (buildPidToIdx electronRows))
      (coalesceRoot electronRows (buildPidToIdx electronRows)) :=
  ((coalesceHelpers_settles electronRows (by decide)).1 (by decide)).1

end Ltop
