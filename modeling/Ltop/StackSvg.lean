import Mathlib
import Ltop.Library.Outcome

namespace Ltop.StackSvg

inductive InlinedCall where
  | mk (name : String) (frameLo frameHi : Int64) (children : List InlinedCall)

structure Frames where
  stackByName : String → Option UInt64
  addrByName : String → Option UInt64

structure Bounds where
  map : String → Option UInt32
  default : UInt32

structure InlineMap where
  byAddr : UInt64 → Option (List InlinedCall)

structure Program where
  calls : String → Option (List String)
  frames : Frames
  bounds : Bounds
  inlines : InlineMap

inductive Event where
  | push (name : String) (size : UInt64)
  | pop
  | inlinedPush (name : String) (frameLo frameHi : Int64)
  | inlinedPop
  | loop (name : String)
  | unknown (name : String)
deriving DecidableEq

def MAX_DEPTH : ℕ := 64
def MAX_EVENTS : ℕ := 200000
def INLINED_MIN_BYTES : Int64 := 4

mutual

def emitInlined : InlinedCall → List Event → List Event
  | .mk name frameLo frameHi children, ev =>
    if MAX_EVENTS ≤ ev.length then ev
    else if INLINED_MIN_BYTES ≤ frameHi - frameLo then
      emitChildren children (ev ++ [.inlinedPush name frameLo frameHi]) ++ [.inlinedPop]
    else emitChildren children ev

def emitChildren : List InlinedCall → List Event → List Event
  | [], ev => ev
  | ic :: ics, ev => emitChildren ics (emitInlined ic ev)

end

structure Walk where
  onPath : String → Option UInt32
  ev : List Event

namespace Walk

def emit (w : Walk) (e : Event) : Walk := { w with ev := w.ev ++ [e] }

def enter (w : Walk) (name : String) : Walk :=
  { w with onPath := Function.update w.onPath name (some ((w.onPath name).getD 0 + 1)) }

def leave (w : Walk) (name : String) : Outcome Walk :=
  match w.onPath name with
  | none => .fault .index
  | some n => .some { w with
      onPath := Function.update w.onPath name (if n - 1 = 0 then none else some (n - 1)) }

end Walk

namespace Program

variable (p : Program)

def bound (name : String) : UInt32 := (p.bounds.map name).getD p.bounds.default

def inlined (name : String) : List InlinedCall :=
  ((p.frames.addrByName name).bind p.inlines.byAddr).getD []

def targets (name : String) : List String := (p.calls name).getD []

def walkR : ℕ → String → ℕ → Walk → Outcome Walk
  | 0, _, _, _ => .fault .spin
  | fuel + 1, name, depth, w =>
    if MAX_EVENTS ≤ w.ev.length ∨ MAX_DEPTH < depth then .some w
    else
      let count := (w.onPath name).getD 0
      if max (p.bound name) 1 ≤ count ∧ 0 < count then .some (w.emit (.loop name))
      else
        match p.frames.stackByName name with
        | none => .some (w.emit (.unknown name))
        | some size => do
          let w := (w.emit (.push name size)).enter name
          let w := { w with ev := emitChildren (p.inlined name) w.ev }
          let w ← (p.targets name).foldlM (fun w t => walkR fuel t (depth + 1) w) w
          let w ← w.leave name
          .some (w.emit .pop)

def walk (entry : String) : Outcome (List Event) := do
  let w ← p.walkR (MAX_DEPTH + 2) entry 0 ⟨fun _ => none, []⟩
  .some w.ev

end Program

inductive RectKind where
  | real
  | inlined
deriving DecidableEq

structure Rect where
  name : String
  start : ℕ
  stop : ℕ
  offsetLo : UInt64
  offsetHi : UInt64
  kind : RectKind
deriving DecidableEq

inductive MarkerKind where
  | loop
  | unknown
deriving DecidableEq

structure Marker where
  name : String
  event : ℕ
  offset : UInt64
  kind : MarkerKind
deriving DecidableEq

structure Opened where
  start : ℕ
  lo : UInt64
  hi : UInt64
  name : String

def Opened.close (o : Opened) (stop : ℕ) (kind : RectKind) : Rect :=
  ⟨o.name, o.start, stop, o.lo, o.hi, kind⟩

structure Render where
  rects : List Rect
  markers : List Marker
  openReal : List Opened
  openInlined : List Opened
  cur : UInt64
  peak : UInt64

namespace Render

variable (s : Render)

def inlinedPush (i : ℕ) (name : String) (frameLo frameHi : Int64) : Render :=
  let parentLo := (s.openReal.head?.map Opened.lo).getD 0
  let lo := (max (parentLo.toInt64 + frameLo) parentLo.toInt64).toUInt64
  let hi := (max (parentLo.toInt64 + frameHi) (lo.toInt64 + 1)).toUInt64
  let parentHi := (s.openReal.head?.map Opened.hi).getD 0xffffffffffffffff
  { s with openInlined := ⟨i, lo, min hi parentHi, name⟩ :: s.openInlined }

def step (i : ℕ) : Event → Render
  | .push name size =>
    { s with
      cur := s.cur + size
      peak := max s.peak (s.cur + size)
      openReal := ⟨i, s.cur, s.cur + size, name⟩ :: s.openReal }
  | .pop =>
    match s.openReal with
    | [] => s
    | o :: rest => { s with rects := s.rects ++ [o.close i .real], cur := o.lo, openReal := rest }
  | .inlinedPush name frameLo frameHi => s.inlinedPush i name frameLo frameHi
  | .inlinedPop =>
    match s.openInlined with
    | [] => s
    | o :: rest => { s with rects := s.rects ++ [o.close i .inlined], openInlined := rest }
  | .loop name => { s with markers := s.markers ++ [⟨name, i, s.cur, .loop⟩] }
  | .unknown name => { s with markers := s.markers ++ [⟨name, i, s.cur, .unknown⟩] }

def run (s : Render) : ℕ → List Event → Render
  | _, [] => s
  | i, e :: es => (s.step (i % 2 ^ 32) e).run (i + 1) es

def empty : Render := ⟨[], [], [], [], 0, 0⟩

end Render

def buildRects (events : List Event) : List Rect × List Marker × UInt64 :=
  let s := Render.empty.run 0 events
  let stop := events.length % 2 ^ 32
  (s.rects ++ s.openReal.map (·.close stop .real) ++ s.openInlined.map (·.close stop .inlined),
    s.markers, s.peak)

end Ltop.StackSvg
