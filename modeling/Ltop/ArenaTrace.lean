import Mathlib
import Ltop.ArenaSvg
import Ltop.Rotation

namespace Ltop.Arena

open ArenaSvg (Event logged Rising)

structure Record (α : Type) where
  event : Event α
  bump : ℕ
  sliding : Bool
deriving DecidableEq

structure Pending where
  depth : ℕ
  span1 : Handle
  span2 : Handle

structure Session where
  arena : State
  pending : List Pending

inductive Act (α : Type) where
  | op (o : Op) (label : α)
  | replace2 (span1 span2 : ℕ)
  | settle (label1 label2 : α) (new1 new2 : ℕ)
  | uncommitTail (released : Bool)

variable {α : Type}

def Op.exits : Op → Bool
  | .leave | .finish _ => true
  | _ => false

def Handle.fspan (h : Handle) : Span := ⟨h.layout, h.offset, h.len⟩

namespace State

variable (s : State)

def level (ev : Event α) : Record α := ⟨ev, s.offset, false⟩

def behind (ev : Event α) : Record α := ⟨ev, s.offset, true⟩

def closed (before : State) (label : α) : List (Record α) :=
  match before.frames with
  | ⟨_, _, _, some builder⟩ :: _ =>
    if builder.len > 0 then [s.level (.alloc s.offset label)] else []
  | _ => []

def compacted (before : State) (label : α) : List (Record α) :=
  match before.frames, s.frames with
  | ⟨start, _, _, _⟩ :: _, ⟨_, _, result :: _, _⟩ :: _ =>
    let bytes := result.len * result.layout.size
    s.behind (.rewind start) ::
      if bytes > 0 then [s.level (.alloc (result.offset + bytes) label)] else []
  | _, _ => []

def emitted (before : State) (label : α) : Op → List (Record α)
  | .alloc _ _ | .vec _ _ | .reserve _ _ => [s.level (.alloc s.offset label)]
  | .close => s.closed before label
  | .leave | .freeze | .dropReserve => [s.level (.rewind s.offset)]
  | .finish _ => s.compacted before label
  | _ => []

def replace2 (id1 id2 : ℕ) : Option (State × Pending) := do
  let (f, rest) ← s.innermost none
  let span1 ← f.live.find? fun h => h.id = id1
  let span2 ← f.live.find? fun h => h.id = id2
  let old2End := span2.fspan.finish
  if id1 ≠ id2 ∧ span1.kind = .span ∧ span2.kind = .span ∧ s.offset ≤ old2End ∧
      old2End - s.offset < max span2.layout.align 1 then
    let held := f.live.filter fun h => h.id ≠ id1 ∧ h.id ≠ id2
    some ({ s with frames := ⟨s.offset, none, [], none⟩ :: { f with live := held } :: rest },
      ⟨rest.length + 2, span1, span2⟩)
  else none

def settle (p : Pending) (id1 id2 : ℕ) : Option (State × Round) := do
  let (sub, outer) ← s.innermost none
  let (f, rest) ← State.innermost { s with frames := outer } none
  let new1 ← sub.live.find? fun h => h.id = id1
  let new2 ← sub.live.find? fun h => h.id = id2
  if s.frames.length = p.depth ∧ id1 ≠ id2 ∧ new1.kind = .span ∧ new2.kind = .span ∧
      new1.layout = p.span1.layout ∧ new2.layout = p.span2.layout then
    let round := Rotating.settle ⟨s.offset, s.mem, p.span1.fspan, p.span2.fspan⟩ s new1 new2
    let live := { new2 with offset := round.next.span2.offset } ::
      { new1 with offset := round.next.span1.offset } :: f.live
    if round.next.span1.finish ≤ SIZE ∧ round.next.span2.finish ≤ SIZE then
      some (⟨round.next.offset, round.next.mem, { f with live := live } :: rest, s.next⟩, round)
    else none
  else none

def rotated (round : Round) (label1 label2 : α) : List (Record α) :=
  s.behind (.rewind round.next.span1.offset) ::
    ((if round.next.span1.bytes > 0 then
        [s.behind (.alloc round.next.span1.finish label1)] else []) ++
      if round.next.span2.bytes > 0 then [s.level (.alloc round.next.span2.finish label2)] else [])

def building : Bool :=
  match s.frames with
  | ⟨_, _, _, some h⟩ :: _ => h.kind = .builder
  | _ => false

end State

namespace Session

variable (t : Session)

def init : Session := ⟨.init, []⟩

def rotating : Bool := t.pending.head?.map Pending.depth = some t.arena.frames.length

def step (t : Session) : Act α → Option (Session × List (Record α))
  | .op o label => do
    if o.exits ∧ t.rotating then none
    else
      let s ← t.arena.step o
      if s.offset ≤ SIZE then some ({ t with arena := s }, s.emitted t.arena label o) else none
  | .replace2 id1 id2 => do
    let (s, p) ← t.arena.replace2 id1 id2
    some (⟨s, p :: t.pending⟩, [])
  | .settle label1 label2 id1 id2 =>
    match t.pending with
    | [] => none
    | p :: pending => do
      let (s, round) ← t.arena.settle p id1 id2
      some (⟨s, pending⟩, s.rotated round label1 label2)
  | .uncommitTail released =>
    if t.arena.building then none
    else some (t, if released then [t.arena.level (.uncommit t.arena.offset)] else [])

def run (t : Session) : List (Act α) → Option (Session × List (Record α))
  | [] => some (t, [])
  | act :: acts => do
    let (t, records) ← t.step act
    let (t, more) ← t.run acts
    some (t, records ++ more)

end Session

def traceOf (acts : List (Act α)) : Option (List (Record α)) :=
  (Session.init.run acts).map Prod.snd

end Ltop.Arena
