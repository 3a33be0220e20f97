import Mathlib
import Ltop.Coalesce
import Ltop.Vec
import Ltop.Library.Loop

namespace Ltop

variable {os : Os} {n : ℕ}

def CHILD_CPU_THRESH : ℚ := 1

def CHILD_CPU_KEEP_THRESH : ℚ := 3 / 10

def placeholders (procs : List (ProcInfo os)) : List (UInt32 × Packed os) :=
  procs.map fun p => (p.pid, .pack false 0)

def childThresh (prev : Map (Packed os)) (pid : UInt32) : ℚ :=
  let wasVisible := ((prev.get pid).map Packed.visible).getD false
  if wasVisible then CHILD_CPU_KEEP_THRESH else CHILD_CPU_THRESH

structure Visit (os : Os) (n : ℕ) where
  procs : Table os n
  queue : FVec (Fin n × Fin n)
  enqueued : Fin n → Bool

def seedVisit (procs : Table os n) : Visit os n where
  procs := procs
  queue := (FVec.new n).pushAll
    (((List.finRange n).filter fun i => (procs i).visible).map fun i => (i, i))
  enqueued i := (procs i).visible

def touchKid (prev : Map (Packed os)) (iVisible : Bool) (lastVisPid : UInt32) (k : ProcInfo os) :
    ProcInfo os :=
  let k := if k.cpu ≥ childThresh prev k.pid then k.setVisible true else k
  if k.visible && !iVisible then { k with ppid := lastVisPid } else k

def visitKid (prev : Map (Packed os)) (iVisible : Bool) (lastVis : Fin n) (lastVisPid : UInt32)
    (s : Visit os n) (kid : Fin n) : Visit os n :=
  let k := touchKid prev iVisible lastVisPid (s.procs kid)
  let newLast := if k.visible then kid else lastVis
  let s := { s with procs := Function.update s.procs kid k }
  if s.enqueued kid then s
  else { s with
    enqueued := Function.update s.enqueued kid true
    queue := (s.queue.push (kid, newLast)).1 }

def visitKids (prev : Map (Packed os)) (s : Visit os n) (i lastVis : Fin n) (kids : List (Fin n)) :
    Visit os n :=
  let iVisible := (s.procs i).visible
  let lastVisPid := (s.procs lastVis).pid
  kids.foldl (visitKid prev iVisible lastVis lastVisPid) s

def visitStep (prev : Map (Packed os)) (children : FNest (Fin n)) (s : Visit os n) :
    Option (Visit os n) :=
  s.queue.pop.map fun p =>
    visitKids prev { s with queue := p.1 } p.2.1 p.2.2 (children.bucket p.2.1)

def retainStep (s : ℕ × List (UInt32 × Packed os)) (p : ProcInfo os) :
    (ℕ × List (UInt32 × Packed os)) × ProcInfo os × Bool :=
  let next := if p.visible then s.2.modify s.1 fun e => (e.1, e.2.setVisible) else s.2
  ((s.1 + 1, next), p, p.visible)

def filterWithChildren (procs : List (ProcInfo os)) (prev : Map (Packed os))
    (next : List (UInt32 × Packed os)) :
    Option (List (ProcInfo os) × List (UInt32 × Packed os)) :=
  let table : Table os procs.length := procs.get
  let pidToIdx := buildPidToIdx table
  let children := buildChildren table pidToIdx
  let table := coalesceHelpers addF32 table pidToIdx
  (Loop.run (visitStep prev children) procs.length (seedVisit table)).map fun s =>
    let kept := FVec.retain retainStep (0, next) (List.ofFn s.procs)
    (kept.2, kept.1.2)

end Ltop
