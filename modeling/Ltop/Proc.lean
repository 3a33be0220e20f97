import Mathlib
import Ltop.Map
import Ltop.Nest
import Ltop.Word
import Ltop.Library.Chain

namespace Ltop

inductive Os where
  | linux
  | macos
deriving DecidableEq, Repr

def MemMib : Os → Type
  | .linux => {m : UInt32 // m ≠ 0}
  | .macos => Unit

instance : (os : Os) → DecidableEq (MemMib os)
  | .linux => inferInstanceAs (DecidableEq {m : UInt32 // m ≠ 0})
  | .macos => inferInstanceAs (DecidableEq Unit)

structure GpuUsage (os : Os) where
  smPct : UInt32
  memMib : MemMib os
deriving DecidableEq

structure ProcInfo (os : Os) where
  pid : UInt32
  ppid : UInt32
  cpu : ℚ
  rssKib : UInt32
  ageVisible : UInt32
  gpu : Option (GpuUsage os)
  display : List UInt8
deriving DecidableEq

structure Packed (os : Os) where
  word : UInt32
deriving DecidableEq

abbrev Table (os : Os) (n : ℕ) := Fin n → ProcInfo os

variable {os : Os} {n : ℕ}

namespace ProcInfo

def pack (ageSecs : UInt32) (visible : Bool) : UInt32 :=
  if visible then ageSecs ||| Word.FLAG else ageSecs

def ageSecs (p : ProcInfo os) : UInt32 := Word.payload p.ageVisible

def visible (p : ProcInfo os) : Bool := Word.flag p.ageVisible

def setVisible (p : ProcInfo os) (v : Bool) : ProcInfo os :=
  { p with ageVisible := Word.setFlag v p.ageVisible }

variable (p : ProcInfo os) (v w : Bool)

@[simp] theorem setVisible_pid : (p.setVisible v).pid = p.pid := rfl
@[simp] theorem setVisible_ppid : (p.setVisible v).ppid = p.ppid := rfl
@[simp] theorem setVisible_cpu : (p.setVisible v).cpu = p.cpu := rfl
@[simp] theorem setVisible_rssKib : (p.setVisible v).rssKib = p.rssKib := rfl
@[simp] theorem setVisible_gpu : (p.setVisible v).gpu = p.gpu := rfl
@[simp] theorem setVisible_display : (p.setVisible v).display = p.display := rfl
@[simp] theorem setVisible_ageSecs : (p.setVisible v).ageSecs = p.ageSecs :=
  Word.payload_setFlag v p.ageVisible
@[simp] theorem visible_setVisible : (p.setVisible v).visible = v := Word.flag_setFlag v p.ageVisible
@[simp] theorem setVisible_setVisible : (p.setVisible w).setVisible v = p.setVisible v := by
  simp [setVisible]
@[simp] theorem setVisible_visible : p.setVisible p.visible = p := by
  simp [setVisible, visible]

end ProcInfo

def procInfo (pid ppid : UInt32) (cpu : ℚ) (visible : Bool) (display : List UInt8) : ProcInfo os where
  pid := pid
  ppid := ppid
  cpu := cpu
  rssKib := 1024
  ageVisible := ProcInfo.pack 100 visible
  gpu := none
  display := display

namespace Packed

def shift : Os → UInt64
  | .linux => 1
  | .macos => 7

def pack (visible : Bool) (total : UInt64) : Packed os :=
  let bits := Word.payload (total >>> shift os).toUInt32
  ⟨if visible then bits ||| Word.FLAG else bits⟩

def visible (p : Packed os) : Bool := Word.flag p.word

def cpuBits (p : Packed os) : UInt32 := Word.payload p.word

def setVisible (p : Packed os) : Packed os := ⟨p.word ||| Word.FLAG⟩

theorem pack_eq (v : Bool) (total : UInt64) :
    (pack v total : Packed os).word = Word.setFlag v (total >>> shift os).toUInt32 := by
  cases v with
  | false => rfl
  | true => exact Word.setFlag_payload true _

end Packed

def pidEntries (procs : Table os n) : List (UInt32 × Fin n) :=
  (List.finRange n).map fun i => ((procs i).pid, i)

def buildPidToIdx (procs : Table os n) : Map (Fin n) :=
  freezeMap (pidEntries procs) fun a b => (a, b)

def Distinct (procs : Table os n) : Prop := Function.Injective fun i => (procs i).pid

instance (procs : Table os n) : Decidable (Distinct procs) :=
  decidable_of_iff (∀ i j, (procs i).pid = (procs j).pid → i = j) Iff.rfl

theorem buildPidToIdx_get {procs : Table os n} (hd : Distinct procs) (k : UInt32) (i : Fin n) :
    (buildPidToIdx procs).get k = some i ↔ (procs i).pid = k := by
  have hkeys : ((pidEntries procs).map (·.1)).Nodup := by
    rw [pidEntries, List.map_map]
    exact (List.nodup_finRange n).map hd
  rw [Map.get_eq_some, buildPidToIdx, mem_freezeMap _ hkeys, pidEntries]
  simp only [List.mem_map, List.mem_finRange, true_and, Prod.mk.injEq]
  constructor
  · rintro ⟨j, hj, rfl⟩
    exact hj
  · intro h
    exact ⟨i, h, rfl⟩

def parentOf (procs : Table os n) (m : Map (Fin n)) (i : Fin n) : Option (Fin n) :=
  m.get (procs i).ppid

def treeParent (procs : Table os n) : Fin n → Option (Fin n) := parentOf procs (buildPidToIdx procs)

def childPairs (procs : Table os n) (m : Map (Fin n)) : List (ℕ × Fin n) :=
  (List.finRange n).filterMap fun i => (m.get (procs i).ppid).map fun pa => (pa.val, i)

theorem childPairs_lt (procs : Table os n) (m : Map (Fin n)) : ∀ p ∈ childPairs procs m, p.1 < n := by
  intro p hp
  obtain ⟨i, _, hi⟩ := List.mem_filterMap.mp hp
  obtain ⟨pa, _, rfl⟩ := Option.map_eq_some_iff.mp hi
  exact pa.isLt

def buildChildren (procs : Table os n) (m : Map (Fin n)) : FNest (Fin n) :=
  if h : n = 0 then ⟨[0], [], rfl, List.pairwise_singleton _ _, rfl⟩
  else
    haveI : NeZero n := ⟨h⟩
    (Nest.nest n (childPairs procs m) (childPairs procs m)).get (by
      obtain ⟨c, hc, _⟩ := Nest.nest_spec (childPairs_lt procs m)
      simp [hc])

theorem buildChildren_bucket (procs : Table os n) (m : Map (Fin n)) (i : Fin n) :
    (buildChildren procs m).bucket i = (List.finRange n).filter (parentOf procs m · = some i) := by
  have hn : n ≠ 0 := by
    have := i.isLt
    omega
  have : NeZero n := ⟨hn⟩
  obtain ⟨c, hc, _, hb⟩ := Nest.nest_spec (childPairs_lt procs m)
  have hcc : buildChildren procs m = c := by
    unfold buildChildren
    rw [dif_neg hn]
    simp [hc]
  rw [hcc, hb i i.isLt, childPairs]
  generalize List.finRange n = is
  induction is with
  | nil => rfl
  | cons j is ih =>
    cases hp : m.get (procs j).ppid with
    | none =>
      rw [List.filterMap_cons_none (by simp [hp]), ih, List.filter_cons_of_neg]
      simp [parentOf, hp]
    | some pa =>
      rw [List.filterMap_cons_some (b := (pa.val, j)) (by simp [hp])]
      by_cases hpa : pa = i
      · rw [List.filter_cons_of_pos (by simpa using congrArg Fin.val hpa), List.map_cons, ih,
          List.filter_cons_of_pos (by simp [parentOf, hp, hpa])]
      · have hv : pa.val ≠ i.val := fun h => hpa (Fin.ext h)
        rw [List.filter_cons_of_neg (by simpa using hv), ih,
          List.filter_cons_of_neg (by simp [parentOf, hp, hpa])]

end Ltop
