import Mathlib
import Ltop.Library.Outcome

namespace Ltop.Os

def TYPE_DICT : ℕ := 0x01
def TYPE_ARRAY : ℕ := 0x02
def TYPE_SET : ℕ := 0x03
def TYPE_NUMBER : ℕ := 0x04
def TYPE_SYMBOL : ℕ := 0x08
def TYPE_STRING : ℕ := 0x09
def TYPE_DATA : ℕ := 0x0a
def TYPE_BOOLEAN : ℕ := 0x0b
def TYPE_OBJECT : ℕ := 0x0c

def MAGIC : List UInt8 := [0xd3, 0x00, 0x00, 0x00]

def slice {α : Type} (xs : List α) (lo hi : ℕ) : Outcome (List α) :=
  if lo ≤ hi ∧ hi ≤ xs.length then .some ((xs.drop lo).take (hi - lo)) else .fault .index

def get (buf : List ℕ) (i : ℕ) : Outcome ℕ := buf[i]?.elim (.fault .index) .some

def put (buf : List ℕ) (i x : ℕ) : Outcome (List ℕ) :=
  if i < buf.length then .some (buf.set i x) else .fault .index

def addU32 (a b : ℕ) : Outcome ℕ := if a + b < 2 ^ 32 then .some (a + b) else .fault .overflow

def subU32 (a b : ℕ) : Outcome ℕ := if b ≤ a then .some (a - b) else .fault .overflow

def mulU64 (a b : ℕ) : Outcome ℕ := if a * b < 2 ^ 64 then .some (a * b) else .fault .overflow

def checkedAdd (w a b : ℕ) : Outcome ℕ := if a + b < 2 ^ w then .some (a + b) else .none

def remainder (a b : ℕ) : Outcome ℕ := if b = 0 then .fault .divide else .some (a % b)

def fromLeBytes (bs : List UInt8) : ℕ := bs.foldr (fun b acc => b.toNat + 256 * acc) 0

structure Tag where
  ty : ℕ
  operand : ℕ
deriving DecidableEq

def readTag (blob : List UInt8) (offset : ℕ) : Outcome Tag := do
  if offset + 4 > blob.length then .none
  else
    let raw := fromLeBytes (← slice blob offset (offset + 4))
    return ⟨(raw >>> 24) &&& 0x7f, raw &&& 0x00ffffff⟩

def Tag.isContainer (tag : Tag) : Bool :=
  tag.ty = TYPE_DICT ∨ tag.ty = TYPE_ARRAY ∨ tag.ty = TYPE_SET

def scalarStep (tag : Tag) : Outcome ℕ :=
  if tag.isContainer ∨ tag.ty = TYPE_BOOLEAN then .some 4
  else if tag.ty = TYPE_NUMBER then .some 12
  else if tag.ty = TYPE_SYMBOL ∨ tag.ty = TYPE_STRING ∨ tag.ty = TYPE_DATA then do
    let padded ← checkedAdd 32 tag.operand 3
    checkedAdd 32 (padded &&& 0xfffffffc) 4
  else .none

structure Ckpts where
  buf : List ℕ
  n : ℕ
  stride : ℕ

def thin (n : ℕ) : ℕ → List ℕ → ℕ → ℕ → Outcome (List ℕ × ℕ)
  | 0, buf, w, r => if r < n then .fault .spin else .some (buf, w)
  | fuel + 1, buf, w, r =>
    if r < n then do
      let buf ← put buf w (← get buf r)
      thin n fuel buf (w + 1) (r + 2)
    else .some (buf, w)

def Ckpts.append (ck : Ckpts) (offset : ℕ) : Outcome Ckpts := do
  let buf ← put ck.buf ck.n offset
  return { ck with buf := buf, n := ck.n + 1 }

def Ckpts.record (ck : Ckpts) (count offset : ℕ) : Outcome Ckpts := do
  if (← remainder count ck.stride) ≠ 0 then return ck
  else if ck.n = ck.buf.length then
    let (buf, w) ← thin ck.n ck.n ck.buf 0 0
    let stride ← mulU64 ck.stride 2
    let ck := ⟨buf, w, stride⟩
    if (← remainder count ck.stride) ≠ 0 then return ck
    else ck.append offset
  else ck.append offset

def recordIn (ck : Option Ckpts) (count offset : ℕ) : Outcome (Option Ckpts) :=
  match ck with
  | none => .some none
  | some ck => do return some (← ck.record count offset)

def owe (remaining : ℕ) (tag : Tag) : Outcome ℕ :=
  if tag.isContainer then
    let mult := if tag.ty = TYPE_DICT then 2 else 1
    checkedAdd 64 remaining (tag.operand * mult)
  else .some remaining

def walkLoop (blob : List UInt8) :
    ℕ → ℕ → ℕ → ℕ → Option Ckpts → Outcome (ℕ × ℕ × Option Ckpts)
  | 0, cursor, remaining, count, ck =>
    if remaining > 0 then .fault .spin else .some (cursor, count, ck)
  | fuel + 1, cursor, remaining, count, ck =>
    if remaining > 0 then do
      let tag ← readTag blob cursor
      let remaining := remaining - 1
      if tag.ty = TYPE_OBJECT then
        if ck.isSome ∧ tag.operand ≥ count then .none
        else walkLoop blob fuel (← addU32 cursor 4) remaining count ck
      else
        let remaining ← owe remaining tag
        let step ← scalarStep tag
        if cursor + step > blob.length then .none
        else
          let ck ← recordIn ck count cursor
          let count ← checkedAdd 32 count 1
          walkLoop blob fuel (← addU32 cursor step) remaining count ck
    else .some (cursor, count, ck)

def walk (blob : List UInt8) (start : ℕ) (ck : Option Ckpts) : Outcome (ℕ × ℕ × Option Ckpts) :=
  walkLoop blob (blob.length + 1) start 1 0 ck

structure OsBinary where
  blob : List UInt8
  ckpts : List ℕ
  stride : ℕ
  count : ℕ

def parse (blob : List UInt8) (ckptsBuf : List ℕ) : Outcome OsBinary := do
  if blob.length < 8 ∨ blob.take 4 ≠ MAGIC ∨ ckptsBuf = [] then .none
  else if blob.length ≥ 2 ^ 32 - 1 - 16 then .none
  else
    let (_end, count, ck) ← walk blob 4 (some ⟨ckptsBuf, 0, 1⟩)
    match ck with
    | none => .none
    | some ck => return ⟨blob, ← slice ck.buf 0 ck.n, ck.stride, count⟩

namespace OsBinary

variable (b : OsBinary)

def root : Option ℕ := if b.count = 0 then none else some 4

def nthLoop (blob : List UInt8) (idx : ℕ) : ℕ → ℕ → ℕ → Outcome ℕ
  | 0, _, _ => .fault .spin
  | fuel + 1, offset, i => do
    let tag ← readTag blob offset
    if tag.ty = TYPE_OBJECT then nthLoop blob idx fuel (← addU32 offset 4) i
    else if i = idx then return offset
    else
      let i ← addU32 i 1
      nthLoop blob idx fuel (← addU32 offset (← scalarStep tag)) i

def nthObject (idx : ℕ) : Outcome ℕ := do
  if idx ≥ b.count then .none
  else if b.stride = 0 then .fault .divide
  else
    let ck := idx / b.stride
    let offset ← .ofOption b.ckpts[ck]?
    let i ← mulU64 ck b.stride
    nthLoop b.blob idx (b.blob.length + 1) offset (i % 2 ^ 32)

def resolve (offset : ℕ) : Outcome ℕ := do
  let tag ← readTag b.blob offset
  if tag.ty = TYPE_OBJECT then b.nthObject tag.operand else return offset

def itemLen (offset : ℕ) : Outcome ℕ := do
  let tag ← readTag b.blob offset
  if tag.ty = TYPE_OBJECT then return 4
  else
    let (stop, _count, _) ← walk b.blob offset none
    subU32 stop offset

def symbolBytes (offset : ℕ) : Outcome (List UInt8) := do
  let target ← b.resolve offset
  let tag ← readTag b.blob target
  if tag.ty ≠ TYPE_SYMBOL then .none
  else
    let len := tag.operand
    let trimmed := if len > 0 then len - 1 else 0
    let o := target + 4
    if o + trimmed > b.blob.length then .none else slice b.blob o (o + trimmed)

def findLoop (key : List UInt8) : ℕ → ℕ → Outcome ℕ
  | 0, _ => .none
  | n + 1, cursor => do
    let keyOff := cursor
    let cursor ← addU32 cursor (← b.itemLen keyOff)
    let valOff := cursor
    let valLen ← b.itemLen valOff
    let cursor ← addU32 cursor valLen
    if (← (b.symbolBytes keyOff).attempt) = some key then return valOff
    else findLoop key n cursor

def findDict (dict : ℕ) (key : List UInt8) : Outcome ℕ := do
  let dictOff ← b.resolve dict
  let tag ← readTag b.blob dictOff
  if tag.ty ≠ TYPE_DICT then .none
  else b.findLoop key tag.operand (← addU32 dictOff 4)

def eachLoop : ℕ → ℕ → Outcome (List ℕ)
  | 0, _ => .some []
  | n + 1, cursor => do
    let itemOff := cursor
    let itemLen ← b.itemLen itemOff
    let cursor ← addU32 cursor itemLen
    return itemOff :: (← eachLoop n cursor)

def forEachArray (arr : ℕ) : Outcome (List ℕ) := do
  let arrOff ← b.resolve arr
  let tag ← readTag b.blob arrOff
  if tag.ty ≠ TYPE_ARRAY ∧ tag.ty ≠ TYPE_SET then .none
  else b.eachLoop tag.operand (← addU32 arrOff 4)

def asNumber (item : ℕ) : Outcome ℕ := do
  let target ← b.resolve item
  let tag ← readTag b.blob target
  if tag.ty ≠ TYPE_NUMBER then .none
  else
    let o := target + 4
    if o + 8 > b.blob.length then .none
    else
      let lo := fromLeBytes (← slice b.blob o (o + 4))
      let hi := fromLeBytes (← slice b.blob (o + 4) (o + 8))
      return (hi <<< 32) ||| lo

def asString (item : ℕ) : Outcome (List UInt8) := do
  let target ← b.resolve item
  let tag ← readTag b.blob target
  if tag.ty ≠ TYPE_STRING then .none
  else
    let len := tag.operand
    let o := target + 4
    if o + len > b.blob.length then .none else slice b.blob o (o + len)

def asSymbol (item : ℕ) : Outcome (List UInt8) := b.symbolBytes item

def asBool (item : ℕ) : Outcome Bool := do
  let target ← b.resolve item
  let tag ← readTag b.blob target
  if tag.ty ≠ TYPE_BOOLEAN then .none else return tag.operand != 0

end OsBinary

end Ltop.Os
