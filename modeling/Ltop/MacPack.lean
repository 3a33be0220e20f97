import Mathlib
import Ltop.Bytes
import Ltop.Library.LittleEndian

namespace Ltop.MacPack

open LittleEndian

def MH_MAGIC_64 : ℕ := 0xfeedfacf

def LC_SEGMENT_64 : ℕ := 0x19
def LC_SYMTAB : ℕ := 0x2
def LC_DYSYMTAB : ℕ := 0xb
def LC_DYLD_INFO_ONLY : ℕ := 0x80000022
def LC_MAIN : ℕ := 0x80000028
def LC_CODE_SIGNATURE : ℕ := 0x1d
def LC_FUNCTION_STARTS : ℕ := 0x26
def LC_DATA_IN_CODE : ℕ := 0x29
def LC_DYLD_EXPORTS_TRIE : ℕ := 0x80000033
def LC_DYLD_CHAINED_FIXUPS : ℕ := 0x80000034

def PAGE : ℕ := 0x4000
def SHIFT : ℕ := PAGE

def CSMAGIC_EMBEDDED_SIGNATURE : ℕ := 0xfade0cc0
def CSMAGIC_CODEDIRECTORY : ℕ := 0xfade0c02
def CSSLOT_CODEDIRECTORY : ℕ := 0
def CS_HASHTYPE_SHA256 : UInt8 := 2
def CS_EXECSEG_MAIN_BINARY : ℕ := 0x1
def CS_PAGE_SIZE_BITS : UInt8 := 12
def CS_PAGE_SIZE : ℕ := 4096
def CS_HASH_SIZE : ℕ := 32

structure Image where
  size : ℕ
  byte : ℕ → UInt8

namespace Image

variable (img : Image)

def u32 (off : ℕ) : ℕ := load img.byte off 4

def u64 (off : ℕ) : ℕ := load img.byte off 8

def setU32 (off v : ℕ) : Image := { img with byte := store img.byte off 4 v }

def setU64 (off v : ℕ) : Image := { img with byte := store img.byte off 8 v }

def get? (i : ℕ) : Option UInt8 := if i < img.size then some (img.byte i) else none

end Image

def wrappingSub (a b : ℕ) : ℕ := (a + 2 ^ 64 - b) % 2 ^ 64

structure Command where
  off : ℕ
  cmd : ℕ
  size : ℕ
deriving DecidableEq

structure Segment where
  lcOff : ℕ
  name : List UInt8
  vmaddr : ℕ
  vmsize : ℕ
  fileoff : ℕ
  filesize : ℕ
  nsects : ℕ
deriving DecidableEq

def Segment.is (s : Segment) (n : List UInt8) : Bool := s.name.takeWhile (· ≠ 0) == n

def Segment.sectOff (s : Segment) (i : ℕ) : ℕ := s.lcOff + 72 + i * 80

def Segment.sectOffs (s : Segment) : List ℕ := (List.range s.nsects).map s.sectOff

structure Section where
  addr : ℕ
  size : ℕ
  offset : ℕ
  align : ℕ
deriving DecidableEq

section

variable (img : Image)

def walk : ℕ → ℕ → List Command
  | 0, _ => []
  | n + 1, off =>
    ⟨off, img.u32 off, img.u32 (off + 4)⟩ :: walk n (off + img.u32 (off + 4))

def commands : List Command := walk img (img.u32 16) 32

def headerAndLc : ℕ := 32 + img.u32 20

def readSegment (c : Command) : Segment where
  lcOff := c.off
  name := (List.range 16).map fun k => img.byte (c.off + 8 + k)
  vmaddr := img.u64 (c.off + 24)
  vmsize := img.u64 (c.off + 32)
  fileoff := img.u64 (c.off + 40)
  filesize := img.u64 (c.off + 48)
  nsects := img.u32 (c.off + 64)

def parseSegments : List Segment :=
  (((commands img).takeWhile fun c => c.off + 8 ≤ headerAndLc img).filter
    (·.cmd = LC_SEGMENT_64)).map (readSegment img)

def readSection (hdrOff : ℕ) : Section where
  addr := img.u64 (hdrOff + 32)
  size := img.u64 (hdrOff + 40)
  offset := img.u32 (hdrOff + 48)
  align := img.u32 (hdrOff + 52)

def writeSection (hdrOff addr offset : ℕ) : Image :=
  (img.setU64 (hdrOff + 32) addr).setU32 (hdrOff + 48) offset

end

def sigSize (codeSize : ℕ) (id : List UInt8) : ℕ :=
  let identOff := 88
  let hashOff := identOff + id.length + 1
  let nHashes := (codeSize + CS_PAGE_SIZE - 1) / CS_PAGE_SIZE
  let cdirSize := hashOff + nHashes * CS_HASH_SIZE
  12 + 8 + cdirSize

def putBeU32 (v : ℕ) : List UInt8 := [24, 16, 8, 0].map fun k => (v >>> k).toUInt8

def putBeU64 (v : ℕ) : List UInt8 := [56, 48, 40, 32, 24, 16, 8, 0].map fun k => (v >>> k).toUInt8

def signAdhoc (sha256 : List UInt8 → Vector UInt8 32) (data : ℕ → UInt8) (id : List UInt8)
    (codeSize textOff textSize : ℕ) : List UInt8 :=
  let nHashes := (codeSize + CS_PAGE_SIZE - 1) / CS_PAGE_SIZE
  let identOff := 88
  let hashOff := identOff + id.length + 1
  let cdirSize := hashOff + nHashes * CS_HASH_SIZE
  let total := 12 + 8 + cdirSize
  let superBlob := [CSMAGIC_EMBEDDED_SIGNATURE, total, 1].flatMap putBeU32
  let blobIndex := [CSSLOT_CODEDIRECTORY, 12 + 8].flatMap putBeU32
  let directory := [CSMAGIC_CODEDIRECTORY, cdirSize, 0x20400, 0x20002, hashOff, identOff, 0, nHashes,
    codeSize].flatMap putBeU32
  let kinds := [CS_HASH_SIZE.toUInt8, CS_HASHTYPE_SHA256, 0, CS_PAGE_SIZE_BITS]
  let pads := [0, 0, 0, 0].flatMap putBeU32
  let execSeg := [0, textOff, textSize, CS_EXECSEG_MAIN_BINARY].flatMap putBeU64
  let hashes := (List.range nHashes).flatMap fun i =>
    let start := i * CS_PAGE_SIZE
    let finish := min (start + CS_PAGE_SIZE) codeSize
    (sha256 ((List.range' start (finish - start)).map data)).toList
  superBlob ++ blobIndex ++ directory ++ kinds ++ pads ++ execSeg ++ (id ++ [0]) ++ hashes

structure Plan where
  text : Segment
  data : Segment
  linkedit : Segment
  textSect : Section
  constSect : Section
deriving DecidableEq

def plan (img : Image) : Option Plan := do
  let segs := parseSegments img
  let text ← segs.find? (·.is (bytes "__TEXT"))
  let data ← segs.find? (·.is (bytes "__DATA"))
  let linkedit ← segs.find? (·.is (bytes "__LINKEDIT"))
  some ⟨text, data, linkedit, readSection img (text.sectOff 0), readSection img (text.sectOff 1)⟩

def codesig (img : Image) : Option Command :=
  (commands img).find? (·.cmd = LC_CODE_SIGNATURE)

namespace Plan

variable (p : Plan)

def sectionsInPage2 : Bool := SHIFT ≤ p.textSect.offset

def newOff (offset : ℕ) : ℕ := if p.sectionsInPage2 then wrappingSub offset SHIFT else offset

def newTextOff : ℕ := p.newOff p.textSect.offset

def newConstOff : ℕ := p.newOff p.constSect.offset

def textContentEnd : ℕ := (p.newConstOff + p.constSect.size) % 2 ^ 64

def newLeFileoff : ℕ := PAGE + p.data.filesize

def leShift : ℤ := p.newLeFileoff - p.linkedit.fileoff

variable (img : Image) (cs : Command)

def lePrefixLen : ℕ := wrappingSub (img.u32 (cs.off + 8)) p.linkedit.fileoff

def codeLimit : ℕ := p.newLeFileoff + p.lePrefixLen img cs

def Sliced : Prop :=
  headerAndLc img ≤ p.newLeFileoff ∧ headerAndLc img ≤ img.size ∧
    p.newTextOff + p.textSect.size ≤ p.newLeFileoff ∧
    p.textSect.offset + p.textSect.size ≤ img.size ∧
    p.newConstOff + p.constSect.size ≤ p.newLeFileoff ∧
    p.constSect.offset + p.constSect.size ≤ img.size ∧
    p.linkedit.fileoff + p.lePrefixLen img cs ≤ img.size

instance : Decidable (p.Sliced img cs) := by
  unfold Sliced
  infer_instance

def outBuffer : Image where
  size := p.codeLimit img cs
  byte :=
    let page := paste (fun _ => 0) img.byte 0 0 (headerAndLc img)
    let page := paste page img.byte p.newTextOff p.textSect.offset p.textSect.size
    let page := paste page img.byte p.newConstOff p.constSect.offset p.constSect.size
    paste page img.byte p.newLeFileoff p.linkedit.fileoff (p.lePrefixLen img cs)

def rewriteText (out : Image) : Image :=
  let out := out.setU64 (p.text.lcOff + 32) PAGE
  let out := out.setU64 (p.text.lcOff + 48) p.textContentEnd
  let out := writeSection out (p.text.sectOff 0) (p.text.vmaddr + p.newTextOff) p.newTextOff
  writeSection out (p.text.sectOff 1) (p.text.vmaddr + p.newConstOff) p.newConstOff

def rewriteDataSection (out : Image) (so : ℕ) : Image :=
  let sec := readSection img so
  writeSection out so (wrappingSub sec.addr SHIFT) sec.offset

def rewriteData (out : Image) : Image :=
  let out := out.setU64 (p.data.lcOff + 24) (wrappingSub p.data.vmaddr SHIFT)
  let out := out.setU64 (p.data.lcOff + 40) PAGE
  p.data.sectOffs.foldl (rewriteDataSection img) out

def rewriteLinkedit (out : Image) : Image :=
  let out := out.setU64 (p.linkedit.lcOff + 24) (wrappingSub p.linkedit.vmaddr SHIFT)
  out.setU64 (p.linkedit.lcOff + 40) p.newLeFileoff

def shifted (v : ℕ) : ℕ := ((v + p.leShift) % 2 ^ 32).toNat

def shiftField (out : Image) (pos : ℕ) : Image :=
  let v := out.u32 pos
  if v ≠ 0 then out.setU32 pos (p.shifted v) else out

def rewriteCommand (out : Image) (off cmd : ℕ) : Image :=
  if cmd = LC_SYMTAB then
    let symoff := p.shifted (out.u32 (off + 8))
    let stroff := p.shifted (out.u32 (off + 16))
    (out.setU32 (off + 8) symoff).setU32 (off + 16) stroff
  else if cmd = LC_DYSYMTAB then
    [32, 40, 48, 56, 64, 72].foldl (fun out fieldOff => p.shiftField out (off + fieldOff)) out
  else if cmd = LC_DYLD_INFO_ONLY then
    [8, 16, 24, 32, 40].foldl (fun out fieldOff => p.shiftField out (off + fieldOff)) out
  else if cmd = LC_MAIN then
    if p.sectionsInPage2 then
      out.setU64 (off + 8) (wrappingSub (out.u64 (off + 8)) SHIFT)
    else out
  else if cmd ∈ [LC_FUNCTION_STARTS, LC_DATA_IN_CODE, LC_DYLD_EXPORTS_TRIE, LC_DYLD_CHAINED_FIXUPS]
  then p.shiftField out (off + 8)
  else out

def rewriteCommands : ℕ → ℕ → Image → Image
  | 0, _, out => out
  | n + 1, off, out =>
    let cmd := out.u32 off
    let cmdsize := out.u32 (off + 4)
    rewriteCommands n (off + cmdsize) (p.rewriteCommand out off cmd)

def identifier : List UInt8 := bytes "ltop"

def rewriteSignature (out : Image) : Image :=
  let codeLimit := p.codeLimit img cs
  let sigLen := sigSize codeLimit identifier
  let out := out.setU32 (cs.off + 8) codeLimit
  let out := out.setU32 (cs.off + 12) sigLen
  out.setU64 (p.linkedit.lcOff + 48) (codeLimit - p.newLeFileoff + sigLen)

def rewritten : Image :=
  let out := p.rewriteLinkedit (p.rewriteData img (p.rewriteText (p.outBuffer img cs)))
  p.rewriteSignature img cs (p.rewriteCommands (out.u32 16) 32 out)

def extend (out : Image) (tail : List UInt8) : Image :=
  ⟨out.size + tail.length, paste out.byte (fun i => tail.getD i 0) out.size 0 tail.length⟩

def signed (sha256 : List UInt8 → Vector UInt8 32) : Image :=
  let out := p.rewritten img cs
  extend out (signAdhoc sha256 out.byte identifier (p.codeLimit img cs) 0 p.textContentEnd)

end Plan

inductive Outcome where
  | passthrough
  | die
  | packed (out : Image)

def pack (sha256 : List UInt8 → Vector UInt8 32) (img : Image) : Outcome :=
  if img.u32 0 ≠ MH_MAGIC_64 then .die
  else
    match plan img with
    | none => .die
    | some p =>
      if p.text.vmsize = PAGE ∧ p.text.filesize = PAGE then .passthrough
      else if p.text.vmsize ≠ 2 * PAGE ∨ p.text.filesize ≠ 2 * PAGE then .die
      else if p.text.nsects ≠ 2 then .passthrough
      else if p.newTextOff < headerAndLc img then .die
      else if p.textContentEnd > PAGE then .passthrough
      else
        match codesig img with
        | none => .die
        | some cs => if p.Sliced img cs then .packed (p.signed img cs sha256) else .die

end Ltop.MacPack
