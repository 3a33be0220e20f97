import Mathlib
import Ltop.Library.Align
import Ltop.Library.Memory

namespace Ltop.Arena

def SIZE : ℕ := 512 * 1024

def MAX_ALIGN : ℕ := 16

structure Layout where
  size : ℕ
  align : ℕ
  align_mem : align ∈ [1, 2, 4, 8, 16]
  align_dvd : align ∣ size
deriving DecidableEq

abbrev Mem := ℕ → UInt8

inductive Kind where
  | box
  | span
  | vec
  | builder
  | reserve
deriving DecidableEq

structure Handle where
  id : ℕ
  kind : Kind
  layout : Layout
  offset : ℕ
  len : ℕ
  capacity : ℕ
deriving DecidableEq

def alignUp (cur align : ℕ) : ℕ :=
  ((cur + (align - 1)).toUInt32 &&& ~~~(align - 1).toUInt32).toNat

def bump (offset size align : ℕ) : Option (ℕ × ℕ) :=
  if align > MAX_ALIGN ∨ size > SIZE then none
  else
    let aligned := alignUp offset align
    let newEnd := aligned + size
    if newEnd ≤ SIZE then some (aligned, newEnd) else none

namespace Handle

variable (h : Handle) (mem : Mem)

def slotPtr (i : ℕ) : ℕ := h.offset + i * h.layout.size

def push (value : List UInt8) : Mem × Handle :=
  if h.len ≥ h.capacity then (mem, h)
  else (Memory.write mem (h.slotPtr h.len) value, { h with len := h.len + 1 })

def pop : Handle := if h.len = 0 then h else { h with len := h.len - 1 }

def truncate (newLen : ℕ) : Handle := { h with len := min h.len newLen }

def extendFromSlice (src : List (List UInt8)) : Option (Mem × Handle) :=
  if src.length = 0 then some (mem, h)
  else
    let newLen := h.len + src.length
    if newLen ≤ h.capacity then
      some (Memory.write mem (h.slotPtr h.len) src.flatten, { h with len := newLen })
    else none

def set (i : ℕ) (value : List UInt8) : Option (Mem × Handle) :=
  if i < h.len then some (Memory.write mem (h.slotPtr i) value, h) else none

def intoFspan : Handle := { h with kind := .span, capacity := h.len }

def intoFvec : Handle := { h with kind := .vec, capacity := h.len }

end Handle

inductive Edit where
  | push (value : List UInt8)
  | pop
  | truncate (newLen : ℕ)
  | extend (src : List (List UInt8))
  | set (i : ℕ) (value : List UInt8)
  | intoFspan
  | intoFvec

def Edit.apply (e : Edit) (mem : Mem) (h : Handle) : Option (Mem × Handle) :=
  match e with
  | .push value =>
    if h.kind ∈ [.vec, .reserve] ∧ value.length = h.layout.size then some (h.push mem value)
    else none
  | .pop => if h.kind = .vec then some (mem, h.pop) else none
  | .truncate newLen =>
    if h.kind ∈ [.vec, .reserve] then some (mem, h.truncate newLen) else none
  | .extend src =>
    if h.kind ∈ [.vec, .reserve] ∧ ∀ value ∈ src, value.length = h.layout.size then
      h.extendFromSlice mem src
    else none
  | .set i value =>
    if h.kind ∈ [.box, .span, .vec] ∧ value.length = h.layout.size then h.set mem i value else none
  | .intoFspan => if h.kind = .vec then some (mem, h.intoFspan) else none
  | .intoFvec => if h.kind = .span then some (mem, h.intoFvec) else none

structure Frame where
  saved : ℕ
  result : Option Layout
  live : List Handle
  lock : Option Handle
deriving DecidableEq

structure State where
  offset : ℕ
  mem : Mem
  frames : List Frame
  next : ℕ

inductive Op where
  | alloc (l : Layout) (value : List UInt8)
  | vec (l : Layout) (capacity : UInt32)
  | empty (l : Layout)
  | scope
  | leave
  | compact (l : Layout)
  | finish (result : ℕ)
  | span (l : Layout)
  | push (value : List UInt8)
  | extend (src : List (List UInt8))
  | pop
  | close
  | reserve (l : Layout) (capacity : UInt32)
  | editReserve (e : Edit)
  | freeze
  | dropReserve
  | edit (id : ℕ) (e : Edit)
  | drop (id : ℕ)

namespace State

variable (s : State)

def init : State := ⟨0, fun _ => 0, [], 0⟩

def innermost (lock : Option Kind) : Option (Frame × List Frame) :=
  match s.frames with
  | [] => none
  | f :: rest => if f.lock.map Handle.kind = lock then some (f, rest) else none

def hold (f : Frame) (rest : List Frame) (h : Handle) : List Frame :=
  { f with live := h :: f.live, lock := none } :: rest

def alloc (l : Layout) (value : List UInt8) : Option State := do
  let (f, rest) ← s.innermost none
  let (offset, newEnd) ← bump s.offset l.size l.align
  if value.length = l.size then
    some { offset := newEnd
           mem := Memory.write s.mem offset value
           frames := hold f rest ⟨s.next, .box, l, offset, 1, 1⟩
           next := s.next + 1 }
  else none

def reserveSize (l : Layout) (capacity : UInt32) : ℕ := l.size * capacity.toNat % 2 ^ 64

def vec (l : Layout) (capacity : UInt32) : Option State := do
  let (f, rest) ← s.innermost none
  let (offset, newEnd) ← bump s.offset (reserveSize l capacity) l.align
  some { s with
    offset := newEnd
    frames := hold f rest ⟨s.next, .vec, l, offset, 0, capacity.toNat⟩
    next := s.next + 1 }

def empty (l : Layout) : Option State := do
  let (f, rest) ← s.innermost none
  some { s with
    frames := hold f rest ⟨s.next, .span, l, alignUp s.offset l.align, 0, 0⟩
    next := s.next + 1 }

def enter (result : Option Layout) : State :=
  { s with frames := ⟨s.offset, result, [], none⟩ :: s.frames }

def scope : Option State :=
  match s.frames with
  | [] => some (s.enter none)
  | f :: _ => if f.lock.map Handle.kind ∈ [none, some .reserve] then some (s.enter none) else none

def leave : Option State := do
  let (f, rest) ← s.innermost none
  if f.result = none then some { s with offset := f.saved, frames := rest } else none

def compact (l : Layout) : Option State := do
  let _ ← s.innermost none
  some (s.enter (some l))

def finish (id : ℕ) : Option State := do
  let (f, frames) ← s.innermost none
  let (g, rest) ← State.innermost { s with frames := frames } none
  let result ← f.live.find? fun h => h.id = id
  if f.result = some result.layout ∧ result.kind = .span then
    let dst := alignUp f.saved result.layout.align
    let bytes := result.len * result.layout.size
    some { s with
      offset := dst + bytes
      mem := if dst ≠ result.offset ∧ bytes > 0 then Memory.copyDown s.mem result.offset dst bytes
        else s.mem
      frames := hold g rest { result with offset := dst } }
  else none

def setLock (f : Frame) (rest : List Frame) (h : Option Handle) : List Frame :=
  { f with lock := h } :: rest

def span (l : Layout) : Option State := do
  let (f, rest) ← s.innermost none
  let start := alignUp s.offset l.align
  some { s with
    offset := start
    frames := setLock f rest (some ⟨s.next, .builder, l, start, 0, 0⟩)
    next := s.next + 1 }

def extend (src : List (List UInt8)) : Option State := do
  let (f, rest) ← s.innermost (some .builder)
  let h ← f.lock
  if src = [] then some s
  else
    let (offset, newEnd) ← bump s.offset (h.layout.size * src.length) h.layout.align
    if ∀ value ∈ src, value.length = h.layout.size then
      some { s with
        offset := newEnd
        mem := Memory.write s.mem offset src.flatten
        frames := setLock f rest
          (some { h with len := h.len + src.length, capacity := h.capacity + src.length }) }
    else none

def push (value : List UInt8) : Option State := do
  let (f, rest) ← s.innermost (some .builder)
  let h ← f.lock
  let (offset, newEnd) ← bump s.offset h.layout.size h.layout.align
  if value.length = h.layout.size then
    some { s with
      offset := newEnd
      mem := Memory.write s.mem offset value
      frames := setLock f rest (some { h with len := h.len + 1, capacity := h.capacity + 1 }) }
  else none

def pop : Option State := do
  let (f, rest) ← s.innermost (some .builder)
  let h ← f.lock
  if h.len = 0 then some s
  else some { s with
    offset := s.offset - h.layout.size
    frames := setLock f rest (some { h with len := h.len - 1, capacity := h.capacity - 1 }) }

def close : Option State := do
  let (f, rest) ← s.innermost (some .builder)
  let h ← f.lock
  some { s with frames := hold f rest { h with kind := .span } }

def reserve (l : Layout) (capacity : UInt32) : Option State := do
  let (f, rest) ← s.innermost none
  let (offset, newEnd) ← bump s.offset (reserveSize l capacity) l.align
  some { s with
    offset := newEnd
    frames := setLock f rest (some ⟨s.next, .reserve, l, offset, 0, capacity.toNat⟩)
    next := s.next + 1 }

def editReserve (e : Edit) : Option State := do
  let (f, rest) ← s.innermost (some .reserve)
  let h ← f.lock
  let (mem, h) ← e.apply s.mem h
  some { s with mem := mem, frames := setLock f rest (some h) }

def freeze : Option State := do
  let (f, rest) ← s.innermost (some .reserve)
  let h ← f.lock
  let usedEnd := h.offset + h.len * h.layout.size
  some { s with
    offset := usedEnd
    frames := hold f rest { h with kind := .span, capacity := h.len } }

def dropReserve : Option State := do
  let (f, rest) ← s.innermost (some .reserve)
  let h ← f.lock
  some { s with offset := h.offset, frames := setLock f rest none }

def mapLive (g : Handle → Option Handle) : List Frame :=
  s.frames.map fun f => { f with live := f.live.filterMap g }

def edit (id : ℕ) (e : Edit) : Option State := do
  let h ← (s.frames.flatMap Frame.live).find? fun h => h.id = id
  let (mem, h') ← e.apply s.mem h
  some { s with mem := mem, frames := s.mapLive fun k => some (if k.id = id then h' else k) }

def drop (id : ℕ) : State :=
  { s with frames := s.mapLive fun k => if k.id = id then none else some k }

def step (s : State) : Op → Option State
  | .alloc l value => s.alloc l value
  | .vec l capacity => s.vec l capacity
  | .empty l => s.empty l
  | .scope => s.scope
  | .leave => s.leave
  | .compact l => s.compact l
  | .finish result => s.finish result
  | .span l => s.span l
  | .push value => s.push value
  | .extend src => s.extend src
  | .pop => s.pop
  | .close => s.close
  | .reserve l capacity => s.reserve l capacity
  | .editReserve e => s.editReserve e
  | .freeze => s.freeze
  | .dropReserve => s.dropReserve
  | .edit id e => s.edit id e
  | .drop id => some (s.drop id)

def run (s : State) : List Op → Option State
  | [] => some s
  | op :: ops => (s.step op).bind fun s => run s ops

end State

end Ltop.Arena
