import Mathlib
import Ltop.Bytes
import Ltop.Proc
import Ltop.Library.Rounding
import Ltop.Library.Saturate
import Ltop.Library.Transfer

namespace Ltop

def isHelperOf (kid root : List UInt8) : Bool :=
  let n := root.length
  decide (n + 7 ≤ kid.length) && kid.take n == root && (kid.drop n).take 7 == bytes " Helper"

def isShardName (name : List UInt8) : Bool :=
  (bytes " (Renderer)").isSuffixOf name || (bytes " (Service)").isSuffixOf name

def isLaunchdSim (os : Os) (name : List UInt8) : Bool :=
  os == .macos && ieq name (bytes "launchd_sim")

def foldsUnder (os : Os) (shard : Bool) (name pname : List UInt8) : Bool :=
  shard
    || isHelperOf name pname
    || isLaunchdSim os pname
    || (ieq pname (bytes "lake serve") && ieq name (bytes "lean --server"))
    || (ieq pname (bytes "lean-mcp") && ieq name (bytes "lake serve"))

variable {os : Os} {n : ℕ}

def coalesceWalk (procs : Table os n) (m : Map (Fin n)) :
    ℕ → Option (Fin n) → List UInt8 → Bool → UInt32 → Option (Fin n)
  | 0, root, _, _, _ => root
  | hops + 1, root, name, shard, a =>
    match m.get a with
    | none => root
    | some pa =>
      let pname := (procs pa).display
      if foldsUnder os shard name pname then
        coalesceWalk procs m hops (some pa) pname (isShardName pname) (procs pa).ppid
      else coalesceWalk procs m hops root name shard (procs pa).ppid

def coalesceRoot (procs : Table os n) (m : Map (Fin n)) (idx : Fin n) : Option (Fin n) :=
  let name := (procs idx).display
  coalesceWalk procs m 64 none name (isShardName name) (procs idx).ppid

def satAdd (a b : UInt32) : UInt32 := if a.toNat + b.toNat < 2 ^ 32 then a + b else 0xFFFFFFFF

def foldGpu : {os : Os} → Option (GpuUsage os) → Option (GpuUsage os) → Option (GpuUsage os)
  | _, p, none => p
  | .macos, p, some g =>
    let s0 := p.elim 0 (·.smPct)
    some ⟨s0 + g.smPct, ()⟩
  | .linux, p, some g =>
    let s0 := p.elim 0 (·.smPct)
    let m0 := p.elim 0 (·.memMib.val)
    let mem := satAdd m0 g.memMib.val
    if h : mem ≠ 0 then some ⟨s0 + g.smPct, ⟨mem, h⟩⟩ else none

def hide (k : ProcInfo os) : ProcInfo os :=
  { k.setVisible false with cpu := 0, rssKib := 0, gpu := none }

def addF32 (a b : ℚ) : ℚ := Rounding.f32 (a + b)

section Fold

-- the addition behind `p.cpu += cpu`: `addF32` in a run, `· + ·` where cpu is taken exact
variable (add : ℚ → ℚ → ℚ)

def foldInto (k p : ProcInfo os) : ProcInfo os :=
  let p := if k.visible || isLaunchdSim os p.display then p.setVisible true else p
  { p with
    cpu := add p.cpu k.cpu
    rssKib := satAdd p.rssKib k.rssKib
    gpu := foldGpu p.gpu k.gpu }

def coalesceStep (m : Map (Fin n)) (procs : Table os n) (idx : Fin n) : Table os n :=
  match coalesceRoot procs m idx with
  | none => procs
  | some r =>
    let k := procs idx
    let procs := Function.update procs idx (hide k)
    Function.update procs r (foldInto add k (procs r))

def coalesceHelpers (procs : Table os n) (m : Map (Fin n)) : Table os n :=
  (List.finRange n).foldl (coalesceStep add m) procs

def replayCpu (procs : Table os n) (m : Map (Fin n)) : Fin n → ℚ :=
  (List.finRange n).foldl
    (Transfer.transfer (coalesceRoot procs m) (fun _ => 0) fun k p => add p k) fun i => (procs i).cpu

end Fold

variable {add : ℚ → ℚ → ℚ}

structure SameRow (p q : ProcInfo os) : Prop where
  pid : p.pid = q.pid
  ppid : p.ppid = q.ppid
  age : p.ageSecs = q.ageSecs
  display : p.display = q.display

theorem SameRow.refl (p : ProcInfo os) : SameRow p p := ⟨rfl, rfl, rfl, rfl⟩

theorem SameRow.trans {p q r : ProcInfo os} (h : SameRow p q) (h' : SameRow q r) : SameRow p r :=
  ⟨h.pid.trans h'.pid, h.ppid.trans h'.ppid, h.age.trans h'.age, h.display.trans h'.display⟩

theorem sameRow_hide (p : ProcInfo os) : SameRow (hide p) p :=
  ⟨rfl, rfl, p.setVisible_ageSecs false, rfl⟩

theorem sameRow_foldInto (k p : ProcInfo os) : SameRow (foldInto add k p) p := by
  unfold foldInto
  dsimp only
  split
  · exact ⟨rfl, rfl, p.setVisible_ageSecs true, rfl⟩
  · exact ⟨rfl, rfl, rfl, rfl⟩

@[simp] theorem foldInto_display (k p : ProcInfo os) : (foldInto add k p).display = p.display :=
  (sameRow_foldInto k p).display

@[simp] theorem hide_display (p : ProcInfo os) : (hide p).display = p.display := rfl

theorem foldInto_cpu (k p : ProcInfo os) : (foldInto add k p).cpu = add p.cpu k.cpu := by
  unfold foldInto
  dsimp only
  split <;> rfl

theorem foldInto_rss (k p : ProcInfo os) : (foldInto add k p).rssKib = satAdd p.rssKib k.rssKib := by
  unfold foldInto
  dsimp only
  split <;> rfl

theorem foldInto_gpu (k p : ProcInfo os) : (foldInto add k p).gpu = foldGpu p.gpu k.gpu := by
  unfold foldInto
  dsimp only
  split <;> rfl

theorem foldInto_visible (k p : ProcInfo os) :
    (foldInto add k p).visible = (p.visible || k.visible || isLaunchdSim os p.display) := by
  have hvis : ∀ (q : ProcInfo os) c r g,
      ({ q with cpu := c, rssKib := r, gpu := g } : ProcInfo os).visible = q.visible :=
    fun _ _ _ _ => rfl
  unfold foldInto
  dsimp only
  split
  · rename_i h
    rw [hvis, ProcInfo.visible_setVisible, Bool.or_assoc, h, Bool.or_true]
  · rename_i h
    rw [Bool.not_eq_true] at h
    rw [hvis, Bool.or_assoc, h, Bool.or_false]

theorem coalesceStep_same (m : Map (Fin n)) (procs : Table os n) (idx i : Fin n) :
    SameRow (coalesceStep add m procs idx i) (procs i) := by
  unfold coalesceStep
  cases coalesceRoot procs m idx with
  | none => exact .refl _
  | some r =>
    dsimp only
    have hhide : ∀ j, SameRow (Function.update procs idx (hide (procs idx)) j) (procs j) := by
      intro j
      by_cases hj : j = idx
      · subst hj
        rw [Function.update_self]
        exact sameRow_hide _
      · rw [Function.update_of_ne hj]
        exact .refl _
    by_cases hi : i = r
    · subst hi
      rw [Function.update_self]
      exact (sameRow_foldInto _ _).trans (hhide i)
    · rw [Function.update_of_ne hi]
      exact hhide i

theorem coalesceWalk_congr {s t : Table os n} (h : ∀ i, SameRow (s i) (t i)) (m : Map (Fin n))
    (hops : ℕ) (root : Option (Fin n)) (name : List UInt8) (shard : Bool) (a : UInt32) :
    coalesceWalk s m hops root name shard a = coalesceWalk t m hops root name shard a := by
  induction hops generalizing root name shard a with
  | zero => rfl
  | succ hops ih =>
    simp only [coalesceWalk]
    cases m.get a with
    | none => rfl
    | some pa => simp only [(h pa).display, (h pa).ppid, ih]

theorem coalesceRoot_congr {s t : Table os n} (h : ∀ i, SameRow (s i) (t i)) (m : Map (Fin n)) :
    coalesceRoot s m = coalesceRoot t m := by
  funext idx
  simp only [coalesceRoot, (h idx).display, (h idx).ppid, coalesceWalk_congr h]

theorem coalesceStep_transfer (m : Map (Fin n)) (procs : Table os n) (idx : Fin n) :
    coalesceStep add m procs idx =
      Transfer.transfer (coalesceRoot procs m) hide (foldInto add) procs idx := by
  unfold coalesceStep Transfer.transfer
  cases coalesceRoot procs m idx <;> rfl

theorem coalesce_foldl (m : Map (Fin n)) (procs : Table os n) (l : List (Fin n)) :
    (l.foldl (coalesceStep add m) procs =
      l.foldl (Transfer.transfer (coalesceRoot procs m) hide (foldInto add)) procs) ∧
      ∀ i, SameRow (l.foldl (coalesceStep add m) procs i) (procs i) := by
  induction l generalizing procs with
  | nil => exact ⟨rfl, fun i => .refl _⟩
  | cons idx l ih =>
    have hsame : ∀ i, SameRow (coalesceStep add m procs idx i) (procs i) :=
      coalesceStep_same m procs idx
    obtain ⟨heq, hrows⟩ := ih (coalesceStep add m procs idx)
    rw [coalesceRoot_congr hsame] at heq
    refine ⟨?_, fun i => (hrows i).trans (hsame i)⟩
    rw [List.foldl_cons, List.foldl_cons, heq, coalesceStep_transfer]

theorem coalesceHelpers_eq (procs : Table os n) (m : Map (Fin n)) :
    coalesceHelpers add procs m =
      (List.finRange n).foldl (Transfer.transfer (coalesceRoot procs m) hide (foldInto add)) procs :=
  (coalesce_foldl m procs _).1

theorem coalesceHelpers_same (procs : Table os n) (m : Map (Fin n)) (i : Fin n) :
    SameRow (coalesceHelpers add procs m i) (procs i) :=
  (coalesce_foldl m procs _).2 i

theorem coalesceHelpers_cpu_replay (procs : Table os n) (m : Map (Fin n)) (i : Fin n) :
    (coalesceHelpers add procs m i).cpu = replayCpu add procs m i := by
  rw [coalesceHelpers_eq]
  exact Transfer.run_map (fun p : ProcInfo os => p.cpu) (fun _ => rfl) foldInto_cpu _ procs i

def ProcInfo.withoutCpu (p : ProcInfo os) : ProcInfo os := { p with cpu := 0 }

theorem withoutCpu_ext {p q : ProcInfo os} (h : p.withoutCpu = q.withoutCpu) (hcpu : p.cpu = q.cpu) :
    p = q := by
  cases p
  cases q
  simp_all [ProcInfo.withoutCpu]

theorem coalesceHelpers_withoutCpu (add : ℚ → ℚ → ℚ) (procs : Table os n) (m : Map (Fin n))
    (i : Fin n) : (coalesceHelpers add procs m i).withoutCpu =
      (coalesceHelpers (· + ·) procs m i).withoutCpu := by
  let absorb : ProcInfo os → ProcInfo os → ProcInfo os :=
    fun k p => (foldInto (· + ·) k p).withoutCpu
  have hclear : ∀ p : ProcInfo os, (hide p).withoutCpu = hide p.withoutCpu := fun _ => rfl
  have habsorb : ∀ (add : ℚ → ℚ → ℚ) (k p : ProcInfo os),
      (foldInto add k p).withoutCpu = absorb k.withoutCpu p.withoutCpu := by
    intro add k p
    have hif : (k.withoutCpu.visible || isLaunchdSim os p.withoutCpu.display) =
        (k.visible || isLaunchdSim os p.display) := rfl
    simp only [absorb, foldInto, hif]
    cases k.visible || isLaunchdSim os p.display <;> rfl
  have hmap : ∀ add, (coalesceHelpers add procs m i).withoutCpu =
      (List.finRange n).foldl (Transfer.transfer (coalesceRoot procs m) hide absorb)
        (fun j => (procs j).withoutCpu) i := by
    intro add
    rw [coalesceHelpers_eq]
    exact Transfer.run_map ProcInfo.withoutCpu hclear (habsorb add) _ procs i
  rw [hmap, hmap]

def GpuUsage.mem : {os : Os} → GpuUsage os → ℕ
  | .linux, g => g.memMib.val.toNat
  | .macos, _ => 0

def gpuMem (g : Option (GpuUsage os)) : ℕ := g.elim 0 GpuUsage.mem

def gpuSm (g : Option (GpuUsage os)) : ℕ := g.elim 0 (·.smPct.toNat)

theorem satAdd_toNat (a b : UInt32) :
    (satAdd a b).toNat = min (a.toNat + b.toNat) (2 ^ 32 - 1) := by
  unfold satAdd
  split
  · rename_i h
    rw [UInt32.toNat_add, Nat.mod_eq_of_lt h]
    omega
  · rename_i h
    rw [show (0xFFFFFFFF : UInt32).toNat = 2 ^ 32 - 1 by decide]
    omega

theorem mem_lt (g : GpuUsage os) : g.mem ≤ 2 ^ 32 - 1 := by
  cases os with
  | linux =>
    have := g.memMib.val.toNat_lt
    simp only [GpuUsage.mem]
    omega
  | macos => simp [GpuUsage.mem]

theorem gpuMem_le (g : Option (GpuUsage os)) : gpuMem g ≤ 2 ^ 32 - 1 := by
  cases g with
  | none => simp [gpuMem]
  | some g => exact mem_lt g

theorem satAdd_ne_zero (m : UInt32) {k : UInt32} (hk : k ≠ 0) : satAdd m k ≠ 0 := by
  intro h
  have hz := congrArg UInt32.toNat h
  have hpos : 0 < k.toNat := by
    rw [Nat.pos_iff_ne_zero]
    exact fun h0 => hk (UInt32.toNat_inj.mp h0)
  rw [satAdd_toNat, UInt32.toNat_zero] at hz
  omega

theorem foldGpu_linux (p : Option (GpuUsage .linux)) (g : GpuUsage .linux) :
    foldGpu p (some g) = some ⟨p.elim 0 (·.smPct) + g.smPct,
      ⟨satAdd (p.elim 0 (·.memMib.val)) g.memMib.val, satAdd_ne_zero _ g.memMib.property⟩⟩ :=
  dif_pos (satAdd_ne_zero _ g.memMib.property)

theorem foldGpu_isSome (p g : Option (GpuUsage os)) :
    (foldGpu p g).isSome = (p.isSome || g.isSome) := by
  cases g with
  | none => cases os <;> simp [foldGpu]
  | some g =>
    cases os with
    | linux => simp [foldGpu_linux]
    | macos => simp [foldGpu]

theorem foldGpu_mem (p g : Option (GpuUsage os)) :
    gpuMem (foldGpu p g) = min (gpuMem p + gpuMem g) (2 ^ 32 - 1) := by
  cases g with
  | none =>
    have := gpuMem_le p
    have hp : foldGpu p none = p := by cases os <;> rfl
    rw [hp]
    simp only [gpuMem, Option.elim_none] at this ⊢
    omega
  | some g =>
    cases os with
    | linux =>
      rw [foldGpu_linux]
      simp only [gpuMem, GpuUsage.mem, Option.elim_some, satAdd_toNat]
      cases p <;> rfl
    | macos => cases p <;> rfl

theorem foldGpu_sm (p g : Option (GpuUsage os)) :
    gpuSm (foldGpu p g) = (gpuSm p + gpuSm g) % 2 ^ 32 := by
  have hlt : ∀ q : Option (GpuUsage os), gpuSm q < 2 ^ 32 := by
    intro q
    cases q with
    | none => simp [gpuSm]
    | some q => exact q.smPct.toNat_lt
  cases g with
  | none =>
    have hp : foldGpu p none = p := by cases os <;> rfl
    rw [hp, show gpuSm (none : Option (GpuUsage os)) = 0 from rfl, Nat.add_zero,
      Nat.mod_eq_of_lt (hlt p)]
  | some g =>
    cases os with
    | linux =>
      rw [foldGpu_linux]
      cases p <;> simp [gpuSm, UInt32.toNat_add]
    | macos => cases p <;> simp [gpuSm, foldGpu, UInt32.toNat_add]

theorem gpu_ext {p q : Option (GpuUsage os)} (hs : p.isSome = q.isSome) (hm : gpuMem p = gpuMem q)
    (hsm : gpuSm p = gpuSm q) : p = q := by
  cases p with
  | none =>
    cases q with
    | none => rfl
    | some q => cases hs
  | some p =>
    cases q with
    | none => cases hs
    | some q =>
      obtain ⟨ps, pm⟩ := p
      obtain ⟨qs, qm⟩ := q
      obtain rfl : ps = qs := UInt32.toNat_inj.mp hsm
      cases os with
      | linux =>
        obtain rfl : pm = qm := Subtype.ext (UInt32.toNat_inj.mp hm)
        rfl
      | macos => rfl

theorem row_ext {p q : ProcInfo os} (h : SameRow p q) (hc : p.cpu = q.cpu)
    (hr : p.rssKib = q.rssKib) (hg : p.gpu = q.gpu) (hv : p.visible = q.visible) : p = q := by
  have ha : p.ageVisible = q.ageVisible := by
    rw [← Word.setFlag_flag p.ageVisible, ← Word.setFlag_payload, ← Word.setFlag_flag q.ageVisible,
      ← Word.setFlag_payload _ q.ageVisible]
    exact congrArg₂ Word.setFlag hv h.age
  cases p
  cases q
  obtain ⟨hpid, hppid, -, hdisp⟩ := h
  simp_all

open Saturate

def rssObs (p : ProcInfo os) : Sat (2 ^ 32 - 1) :=
  ⟨p.rssKib.toNat, by have := p.rssKib.toNat_lt; omega⟩

def memObs (p : ProcInfo os) : Sat (2 ^ 32 - 1) := ⟨gpuMem p.gpu, gpuMem_le p.gpu⟩

def smObs (p : ProcInfo os) : ZMod (2 ^ 32) := gpuSm p.gpu

theorem observes_cpu :
    Transfer.Observes hide (foldInto (· + ·)) (fun p : ProcInfo os => p.cpu) fun _ => 0 :=
  ⟨fun _ => rfl, fun k p => by rw [foldInto_cpu, add_zero], fun _ => rfl, fun _ _ => rfl⟩

variable (add)

theorem observes_rss :
    Transfer.Observes hide (foldInto add) (rssObs : ProcInfo os → _) fun _ => 0 := by
  refine ⟨fun _ => rfl, fun k p => ?_, fun _ => rfl, fun _ _ => rfl⟩
  apply Sat.ext
  rw [add_zero, Sat.val_add]
  simp only [rssObs, foldInto_rss, satAdd_toNat]

theorem observes_mem :
    Transfer.Observes hide (foldInto add) (memObs : ProcInfo os → _) fun _ => 0 := by
  refine ⟨fun _ => rfl, fun k p => ?_, fun _ => rfl, fun _ _ => rfl⟩
  apply Sat.ext
  rw [add_zero, Sat.val_add]
  simp only [memObs, foldInto_gpu, foldGpu_mem]

theorem observes_sm : Transfer.Observes hide (foldInto add) (smObs : ProcInfo os → _) fun _ => 0 := by
  refine ⟨fun _ => by simp [smObs, hide, gpuSm], fun k p => ?_, fun _ => rfl, fun _ _ => rfl⟩
  simp only [smObs, foldInto_gpu, foldGpu_sm, ZMod.natCast_mod, Nat.cast_add, add_zero]

theorem observes_gpu :
    Transfer.Observes hide (foldInto add) (fun p : ProcInfo os => Sat.ofBool p.gpu.isSome) fun _ => 0 :=
  ⟨fun _ => rfl, fun k p => by rw [foldInto_gpu, foldGpu_isSome, Sat.ofBool_or, add_zero],
    fun _ => rfl, fun _ _ => rfl⟩

theorem observes_visible :
    Transfer.Observes hide (foldInto add) (fun p : ProcInfo os => Sat.ofBool p.visible)
      fun p => Sat.ofBool (isLaunchdSim os p.display) := by
  refine ⟨fun p => ?_, fun k p => ?_, fun _ => rfl, fun k p => ?_⟩
  · have hv : (hide p).visible = (p.setVisible false).visible := rfl
    rw [hv, ProcInfo.visible_setVisible, Sat.ofBool_false]
  · rw [foldInto_visible, Sat.ofBool_or, Sat.ofBool_or]
  · rw [foldInto_display]

end Ltop
