import Mathlib
import Ltop.Names
import Ltop.Filter

namespace Ltop

def CPU_THRESH : ℚ := 5

def MEM_MB_THRESH : UInt64 := 128

def MAX_LEN : ℕ := 4095

structure Parsed where
  ppid : UInt32
  totalTicks : UInt64
  ageSecs : UInt32
  rssBytes : UInt64
  comm : List UInt8
  comm_le : comm.length ≤ 15
  age_lt : Word.flag ageSecs = false

structure Scanned where
  pid : UInt32
  parsed : Option Parsed
  cpu : ℚ
  args : List (List UInt8)

def statLine (ppid : UInt32) (totalTicks : UInt64) (comm : List UInt8) (h : comm.length ≤ 15) :
    Parsed where
  ppid := ppid
  totalTicks := totalTicks
  ageSecs := 60
  rssBytes := 1048576
  comm := comm
  comm_le := h
  age_lt := by decide

variable (prev : Map (Packed .linux)) (gpuPids : List UInt32)

def stub (pid : UInt32) : ProcInfo .linux :=
  { pid := pid, ppid := 0, cpu := 0, rssKib := 0, ageVisible := 0, gpu := none, display := [] }

def rssKib (st : Parsed) : UInt32 := (st.rssBytes >>> 10).toUInt32

def rssMb (st : Parsed) : UInt64 := st.rssBytes / (1024 * 1024)

def mayQualify (pid : UInt32) (cpu : ℚ) (st : Parsed) : Bool :=
  let keptVisible := cpu ≥ CHILD_CPU_KEEP_THRESH && ((prev.get pid).map Packed.visible).getD false
  cpu ≥ CHILD_CPU_THRESH || keptVisible || rssMb st ≥ MEM_MB_THRESH || gpuPids.contains pid
    || isLeanOrLakeName st.comm

def fallbackRow (pid : UInt32) (cpu : ℚ) (st : Parsed) : ProcInfo .linux :=
  { pid := pid
    ppid := st.ppid
    cpu := cpu
    rssKib := rssKib st
    ageVisible := ProcInfo.pack st.ageSecs false
    gpu := none
    display := st.comm }

def fullRow (pid : UInt32) (cpu : ℚ) (st : Parsed) (args : List (List UInt8)) : ProcInfo .linux :=
  let noise := isNoise st.comm args
  let alwaysShow := isLeanOrLake st.comm args
  let isRelated := alwaysShow || isLeanRelated st.comm args
  let memQualifies := rssMb st ≥ MEM_MB_THRESH && !isIdleNoise st.comm args
  let visible := alwaysShow || cpu ≥ CPU_THRESH || memQualifies || gpuPids.contains pid
  { pid := pid
    ppid := st.ppid
    cpu := if noise then 0 else cpu
    rssKib := rssKib st
    ageVisible := ProcInfo.pack st.ageSecs (!noise && visible)
    gpu := none
    display := if noise then [] else (buildDisplayInto st.comm args isRelated).take MAX_LEN }

def collectRow (fastPath : Bool) (p : Scanned) : ProcInfo .linux :=
  match p.parsed with
  | none => stub p.pid
  | some st =>
    if fastPath && !mayQualify prev gpuPids p.pid p.cpu st then fallbackRow p.pid p.cpu st
    else fullRow gpuPids p.pid p.cpu st p.args

variable {prev gpuPids} in
theorem collectRow_pid (fastPath : Bool) (p : Scanned) :
    (collectRow prev gpuPids fastPath p).pid = p.pid := by
  unfold collectRow
  cases p.parsed with
  | none => rfl
  | some st => dsimp only; split <;> rfl

def collectNext (p : Scanned) : UInt32 × Packed .linux :=
  (p.pid, .pack false ((p.parsed.map (·.totalTicks)).getD 0))

def collectProcs (fastPath : Bool) (scan : List Scanned) :
    List (ProcInfo .linux) × List (UInt32 × Packed .linux) :=
  (scan.map (collectRow prev gpuPids fastPath), scan.map collectNext)

end Ltop
