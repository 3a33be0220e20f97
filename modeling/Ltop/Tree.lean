import Mathlib
import Ltop.Bytes
import Ltop.Proc
import Ltop.Vec
import Ltop.Library.Loop

namespace Ltop

structure Indent where
  depth : UInt8
  mask : UInt32
deriving DecidableEq

namespace Indent

def renderDepth (t : Indent) : ℕ := min t.depth.toNat 32

def width (t : Indent) : ℕ := t.renderDepth * 2

def isLast (t : Indent) (i : ℕ) : Bool := (t.mask >>> UInt32.ofNat i) &&& 1 != 0

def put (t : Indent) : List UInt8 :=
  let depth := t.renderDepth
  if depth = 0 then []
  else
    ((List.range (depth - 1)).flatMap fun i => if t.isLast i then bytes "  " else bytes "│ ") ++
      if t.isLast (depth - 1) then bytes "└─" else bytes "├─"

end Indent

variable {os : Os} {n : ℕ}

abbrev WorkItem (n : ℕ) := Fin n × UInt8 × UInt32 × Bool

abbrev Walk (n : ℕ) := FVec (WorkItem n) × FVec (Indent × Fin n)

def saturatingSucc (d : UInt8) : UInt8 := if d.toNat + 1 < 256 then d + 1 else 255

def walkStep (children : FNest (Fin n)) (s : Walk n) : Option (Walk n) :=
  s.1.pop.map fun (stack, idx, depth, parentMask, isLast) =>
    let mask := if 0 < depth ∧ depth ≤ 32 ∧ isLast then parentMask ||| (1 <<< (depth - 1).toUInt32)
      else parentMask
    let out := (s.2.push (⟨depth, mask⟩, idx)).1
    let kids := children.bucket idx
    let lastI := kids.length - 1
    (stack.pushAll (kids.zipIdx.reverse.map fun (kid, i) =>
      (kid, saturatingSucc depth, mask, i == lastI)), out)

def treeWalk (children : FNest (Fin n)) (s : Walk n) (rootIdx : Fin n) : Option (Walk n) :=
  let stack := (s.1.clear.push (rootIdx, 0, 0, true)).1
  Loop.run (walkStep children) n (stack, s.2)

def treeLayout (procs : List (ProcInfo os)) : Option (List (Indent × Fin procs.length)) :=
  let pidToIdx := buildPidToIdx procs.get
  let children := buildChildren procs.get pidToIdx
  let start : Walk procs.length := (FVec.new procs.length, FVec.new procs.length)
  let roots := (List.finRange procs.length).filter fun i =>
    (pidToIdx.get (procs.get i).ppid).isNone
  (roots.foldlM (treeWalk children) start).map fun s => s.2.items

end Ltop
