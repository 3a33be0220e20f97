import Mathlib
import Ltop.MacVariant

namespace Ltop.MacPack

open LittleEndian

variable {sha256 : List UInt8 → Vector UInt8 32}

theorem preserves_iff {m : MachO} {out : Image} (hpack : pack sha256 m.image = .packed out) :
    (Keeps m.image → ∀ m' : MachO, Variant m.image m'.image → ∀ out',
      pack sha256 m'.image = .packed out' → Preserved m'.image out') ∧
    (Clear m.image → (∀ m' : MachO, Variant m.image m'.image → ∀ out',
      pack sha256 m'.image = .packed out' → Preserved m'.image out') → Keeps m.image) := by
  obtain ⟨p, cs, h, rfl⟩ := (pack_packed m.wellFormed).mp hpack
  have hw := m.wellFormed
  constructor
  · intro hkeeps m' hv out' hpack'
    obtain ⟨p', cs', h', rfl⟩ := (pack_packed m'.wellFormed).mp hpack'
    obtain rfl := Option.some.inj ((hv.packing hw h).planned.symm.trans h'.planned)
    obtain ⟨hclear, hshift, hbare⟩ := (hv.keeps_iff hw h).mpr (hkeeps p h.planned)
    exact h'.preserved m'.wellFormed ⟨m'.wellFormed.framed, hclear⟩ hshift hbare
  · intro hclear hall q hplan
    obtain rfl := Option.some.inj (h.planned.symm.trans hplan)
    have hp : Intact m.image p := ⟨hw.framed, hclear p hplan⟩
    have hpreserved : ∀ img', Variant m.image img' → Preserved img' (p.signed m.image cs sha256) := by
      intro img' hv
      have hw' := hv.wellFormed hw h
      have hpacked : pack sha256 img' = .packed (p.signed m.image cs sha256) :=
        (pack_packed hw').mpr ⟨p, cs, hv.packing hw h, (hv.signed_eq hw h).symm⟩
      exact hall ⟨img', hw'⟩ hv _ hpacked
    exact ⟨hclear p hplan, h.shift_of_preserved hw hp (hpreserved m.image ⟨rfl, fun _ _ _ _ => rfl⟩),
      bare_of_preserved hw hp h hpreserved⟩

def fields (vs : List (ℕ × ℕ)) : List UInt8 :=
  vs.flatMap fun v => (List.range v.1).map fun k => (v.2 / 256 ^ k).toUInt8

def nameField (name : String) : List UInt8 := (bytes name ++ List.replicate 16 0).take 16

def segmentBytes (name : String) (vmaddr vmsize fileoff filesize nsects : ℕ) : List UInt8 :=
  fields [(4, LC_SEGMENT_64), (4, 72 + 80 * nsects)] ++ nameField name ++
    fields [(8, vmaddr), (8, vmsize), (8, fileoff), (8, filesize), (4, 5), (4, 5), (4, nsects), (4, 0)]

def sectionBytes (name segname : String) (addr size offset flags : ℕ) : List UInt8 :=
  nameField name ++ nameField segname ++
    fields [(8, addr), (8, size), (4, offset), (4, 2), (4, 0), (4, 0), (4, flags), (4, 0), (4, 0), (4, 0)]

def commandBytes (page : ℕ) : List UInt8 := List.flatten [
  fields [(4, MH_MAGIC_64), (4, 0x100000c), (4, 0), (4, 2), (4, 5), (4, 496), (4, 0), (4, 0)],
  segmentBytes "__TEXT" 0x100000000 0x8000 0 0x8000 2,
  sectionBytes "__text" "__TEXT" (0x100000210 + page) 4 (528 + page) 0,
  sectionBytes "__const" "__TEXT" (0x100000214 + page) 4 (532 + page) 0,
  segmentBytes "__DATA" 0x100008000 0x4000 0x8000 0 1,
  sectionBytes "__bss" "__DATA" 0x100008000 8 0 1,
  segmentBytes "__LINKEDIT" 0x10000c000 0x4000 0x8000 16 0,
  fields [(4, LC_MAIN), (4, 24), (8, 528 + page), (8, 0)],
  fields [(4, LC_CODE_SIGNATURE), (4, 16), (4, 0x8000), (4, 16)]]

def imageAt (page : ℕ) : Image where
  size := 0x8010
  byte := fun i => if i < 528 + page then (commandBytes page).getD i 0
    else (fields [(4, 0xd65f03c0), (4, 7)]).getD (i - (528 + page)) 0

def planAt (page : ℕ) : Plan where
  text := ⟨32, nameField "__TEXT", 0x100000000, 0x8000, 0, 0x8000, 2⟩
  data := ⟨264, nameField "__DATA", 0x100008000, 0x4000, 0x8000, 0, 1⟩
  linkedit := ⟨416, nameField "__LINKEDIT", 0x10000c000, 0x4000, 0x8000, 16, 0⟩
  textSect := ⟨0x100000210 + page, 4, 528 + page, 2⟩
  constSect := ⟨0x100000214 + page, 4, 532 + page, 2⟩

def signatureAt : Command := ⟨512, LC_CODE_SIGNATURE, 16⟩

def pages : List ℕ := [0, PAGE]

theorem pages_low : 0 ∈ pages := List.mem_cons_self

theorem pages_high : PAGE ∈ pages := by decide

theorem segments_at : ∀ page ∈ pages, parseSegments (imageAt page) =
    [(planAt page).text, (planAt page).data, (planAt page).linkedit] := by
  decide +kernel

theorem plan_at : ∀ page ∈ pages, plan (imageAt page) = some (planAt page) := by
  intro page hpage
  rw [plan, segments_at page hpage]
  revert page
  decide +kernel

theorem codesig_at : ∀ page ∈ pages, codesig (imageAt page) = some signatureAt := by decide +kernel

theorem placed_at : ∀ page ∈ pages, Placed (imageAt page) (planAt page) := by
  intro page hpage
  have hsegs := segments_at page hpage
  refine ⟨rfl, ?_, ?_, ?_, ?_, ?_, hsegs ▸ ?_, hsegs ▸ ?_, hsegs ▸ ?_, rfl, fun cs hcs => ?_, ?_⟩
  case refine_9 =>
    obtain rfl := Option.some.inj ((codesig_at page hpage).symm.trans hcs)
    revert page
    decide +kernel
  all_goals
    clear hsegs
    revert page
    decide +kernel

theorem wellFormed_at : ∀ page ∈ pages, WellFormed (imageAt page) := by
  intro page hpage
  refine ⟨?_, ?_, ?_, ?_, ?_, fun p hp => ?_⟩
  case refine_6 =>
    obtain rfl := Option.some.inj ((plan_at page hpage).symm.trans hp)
    exact placed_at page hpage
  all_goals
    revert page
    decide +kernel

theorem packing_at : ∀ page ∈ pages, Packing (imageAt page) (planAt page) signatureAt := by
  intro page hpage
  refine ⟨plan_at page hpage, rfl, rfl, rfl, ?_, ?_, codesig_at page hpage, ?_⟩
  all_goals
    revert page
    decide +kernel

def low : MachO := ⟨imageAt 0, wellFormed_at 0 pages_low⟩

def high : MachO := ⟨imageAt PAGE, wellFormed_at PAGE pages_high⟩

def digest (n : ℕ) : Vector UInt8 32 := Vector.ofFn fun i => (n / 256 ^ (31 - i.val)).toUInt8

def pageHash (page : List UInt8) : Vector UInt8 32 :=
  if page = List.replicate 4096 0 then
    digest 0xad7facb2586fc6e966c004d7d1d16b024f5805ff7cb47c7a85dabd8b48892ca7
  else digest 0xead34734b4a5683bc9d3829262c340cdc109769d1ef94041cbd1f3a83ca2dec4

theorem packed_at {page : ℕ} (hpage : page ∈ pages) : pack pageHash (imageAt page) =
    .packed ((planAt page).signed (imageAt page) signatureAt pageHash) :=
  (pack_packed (wellFormed_at page hpage)).mpr ⟨_, _, packing_at page hpage, rfl⟩

theorem high_keeps : Keeps high.image := by
  intro p hplan
  obtain rfl := Option.some.inj ((plan_at PAGE pages_high).symm.trans hplan)
  refine ⟨fun _ => ?_, ?_, ?_⟩
  all_goals decide +kernel

theorem high_packed : pack pageHash high.image =
    .packed ((planAt PAGE).signed high.image signatureAt pageHash) := packed_at pages_high

theorem preserves_iff_high : Keeps high.image ∧
    ∀ m' : MachO, Variant high.image m'.image → ∀ out',
      pack pageHash m'.image = .packed out' → Preserved m'.image out' :=
  ⟨high_keeps, (preserves_iff high_packed).1 high_keeps⟩

theorem low_data_leaves_text :
    ∃ out, pack pageHash low.image = .packed out ∧ ¬ Preserved low.image out := by
  refine ⟨_, packed_at pages_low, fun hpreserved => ?_⟩
  have hp : Intact (imageAt 0) (planAt 0) :=
    ⟨(wellFormed_at 0 pages_low).framed, by decide +kernel⟩
  have hshift := (packing_at 0 pages_low).shift_of_preserved low.wellFormed hp hpreserved
  exact absurd hshift (by decide +kernel)

end Ltop.MacPack
