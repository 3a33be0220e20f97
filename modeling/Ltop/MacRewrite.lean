import Mathlib
import Ltop.MacHeaders

namespace Ltop.MacPack

open LittleEndian

variable {img out : Image} {c : Command} {pos n lo hi i : ℕ} {p : Plan} {cs : Command}

structure From (img : Image) (c : Command) (s : Segment) : Prop where
  mem : c ∈ commands img
  cmd : c.cmd = LC_SEGMENT_64
  eq : s = readSegment img c

structure Commands (img : Image) (p : Plan) (t d l : Command) : Prop where
  text : From img t p.text
  data : From img d p.data
  linkedit : From img l p.linkedit
  textSect : p.textSect = readSection img (p.text.sectOff 0)
  constSect : p.constSect = readSection img (p.text.sectOff 1)
  text_ne_data : t ≠ d
  text_ne_linkedit : t ≠ l
  data_ne_linkedit : d ≠ l

def segmentCommands (img : Image) : List Command :=
  ((commands img).takeWhile fun c => c.off + 8 ≤ headerAndLc img).filter (·.cmd = LC_SEGMENT_64)

def findSegment (img : Image) (name : List UInt8) : Option Command :=
  (segmentCommands img).find? fun c => (readSegment img c).is name

def Plan.of (img : Image) (t d l : Command) : Plan :=
  ⟨readSegment img t, readSegment img d, readSegment img l,
    readSection img ((readSegment img t).sectOff 0), readSection img ((readSegment img t).sectOff 1)⟩

structure Found (img : Image) (t d l : Command) : Prop where
  text : findSegment img (bytes "__TEXT") = some t
  data : findSegment img (bytes "__DATA") = some d
  linkedit : findSegment img (bytes "__LINKEDIT") = some l

theorem segmentCommands_mem (h : c ∈ segmentCommands img) :
    c ∈ commands img ∧ c.cmd = LC_SEGMENT_64 := by
  obtain ⟨hc, hcmd⟩ := List.mem_filter.mp h
  exact ⟨(List.takeWhile_sublist _).subset hc, by simpa using hcmd⟩

theorem parseSegments_find (img : Image) (name : List UInt8) :
    (parseSegments img).find? (·.is name) = (findSegment img name).map (readSegment img) :=
  List.find?_map

theorem plan_eq_some : plan img = some p ↔ ∃ t d l, Found img t d l ∧ p = Plan.of img t d l := by
  simp only [plan, parseSegments_find, Option.bind_eq_bind, Option.bind_eq_some_iff,
    Option.map_eq_some_iff, Option.some.injEq]
  constructor
  · rintro ⟨_, ⟨t, ht, rfl⟩, _, ⟨d, hd, rfl⟩, _, ⟨l, hl, rfl⟩, rfl⟩
    exact ⟨t, d, l, ⟨ht, hd, hl⟩, rfl⟩
  · rintro ⟨t, d, l, ⟨ht, hd, hl⟩, rfl⟩
    exact ⟨_, ⟨t, ht, rfl⟩, _, ⟨d, hd, rfl⟩, _, ⟨l, hl, rfl⟩, rfl⟩

theorem plan_data (h : plan img = some p) : p.data ∈ parseSegments img ∧ p.data ≠ p.linkedit := by
  simp only [plan, Option.bind_eq_bind, Option.bind_eq_some_iff, Option.some.injEq] at h
  obtain ⟨t, -, d, hd, l, hl, rfl⟩ := h
  refine ⟨List.mem_of_find?_eq_some hd, ?_⟩
  rintro (rfl : d = l)
  have hdata := List.find?_some hd
  have hlinkedit := List.find?_some hl
  simp only [Segment.is, beq_iff_eq] at hdata hlinkedit
  exact absurd (hdata.symm.trans hlinkedit) (by decide)

theorem findSegment_from {name : List UInt8} (h : findSegment img name = some c) :
    (readSegment img c).is name ∧ From img c (readSegment img c) := by
  obtain ⟨hmem, hcmd⟩ := segmentCommands_mem (List.mem_of_find?_eq_some h)
  exact ⟨by simpa using List.find?_some h, hmem, hcmd, rfl⟩

theorem ne_of_names {c c' : Command} {name name' : List UInt8} (hne : name ≠ name')
    (h : (readSegment img c).is name) (h' : (readSegment img c').is name') : c ≠ c' := by
  rintro rfl
  unfold Segment.is at h h'
  exact hne ((beq_iff_eq.mp h).symm.trans (beq_iff_eq.mp h'))

theorem Found.commands {t d l : Command} (h : Found img t d l) :
    Commands img (Plan.of img t d l) t d l := by
  obtain ⟨htext, hct⟩ := findSegment_from h.text
  obtain ⟨hdata, hcd⟩ := findSegment_from h.data
  obtain ⟨hlinkedit, hcl⟩ := findSegment_from h.linkedit
  exact ⟨hct, hcd, hcl, rfl, rfl, ne_of_names (by decide) htext hdata,
    ne_of_names (by decide) htext hlinkedit,
    ne_of_names (by decide) hdata hlinkedit⟩

theorem plan_commands (h : plan img = some p) :
    ∃ t d l, Commands img p t d l := by
  obtain ⟨t, d, l, hfound, rfl⟩ := plan_eq_some.mp h
  exact ⟨t, d, l, hfound.commands⟩

theorem From.lcOff {s : Segment} (h : From img c s) : s.lcOff = c.off := by rw [h.eq]; rfl

theorem From.room {s : Segment} (h : From img c s) (hf : Framed img) :
    72 + 80 * s.nsects ≤ c.size := by
  have hmin := hf.sized c h.mem
  rw [minSize_segment h.cmd] at hmin
  rw [h.eq]
  exact hmin

theorem From.editable {s : Segment} (h : From img c s) (hf : Framed img) {i : ℕ}
    (hi : s.lcOff + 24 ≤ i ∧ (i < s.lcOff + 56 ∨
      s.lcOff + 72 ≤ i ∧ i < s.lcOff + 72 + 80 * s.nsects)) : Editable c i := by
  have hroom := h.room hf
  rw [h.lcOff] at hi
  exact ⟨by omega, by omega, fun _ => ⟨hi.1, by omega⟩⟩

theorem writeSection_edits {hdr addr offset : ℕ}
    (h : ∀ i, hdr + 32 ≤ i → i < hdr + 52 → Editable c i) :
    Edits c out (writeSection out hdr addr offset) :=
  (setU64_edits fun i hlo hhi => h i hlo (by omega)).trans
    (setU32_edits fun i hlo hhi => h i (by omega) hhi)

theorem From.section_edits {s : Segment} (h : From img c s) (hf : Framed img) {k : ℕ}
    (hk : k < s.nsects) {addr offset : ℕ} :
    Edits c out (writeSection out (s.sectOff k) addr offset) := by
  refine writeSection_edits fun i hlo hhi => h.editable hf ?_
  unfold Segment.sectOff at hlo hhi
  omega

theorem From.field_edits {s : Segment} (h : From img c s) (hf : Framed img) {f v : ℕ}
    (hlo : 24 ≤ f) (hhi : f ≤ 48) : Edits c out (out.setU64 (s.lcOff + f) v) :=
  setU64_edits fun i h1 h2 => h.editable hf (by omega)

theorem rewriteText_edits (h : From img c p.text) (hf : Framed img) (hn : p.text.nsects = 2) :
    Edits c out (p.rewriteText out) :=
  (h.field_edits hf (by omega) (by omega)).trans <|
    (h.field_edits hf (by omega) (by omega)).trans <|
    (h.section_edits hf (by omega)).trans (h.section_edits hf (by omega))

theorem foldl_edits {α : Type} {f : Image → α → Image} {l : List α}
    (h : ∀ a ∈ l, ∀ out, Edits c out (f out a)) : Edits c out (l.foldl f out) := by
  induction l generalizing out with
  | nil => exact .refl c out
  | cons a l ih =>
    obtain ⟨ha, hl⟩ := List.forall_mem_cons.mp h
    exact (ha out).trans (ih hl)

theorem rewriteData_edits (h : From img c p.data) (hf : Framed img) :
    Edits c out (p.rewriteData img out) := by
  refine (h.field_edits hf (by omega) (by omega)).trans <|
    (h.field_edits hf (by omega) (by omega)).trans (foldl_edits fun so hso out => ?_)
  obtain ⟨k, hk, rfl⟩ := List.mem_map.mp hso
  exact h.section_edits hf (List.mem_range.mp hk)

theorem rewriteLinkedit_edits (h : From img c p.linkedit) (hf : Framed img) :
    Edits c out (p.rewriteLinkedit out) :=
  (h.field_edits hf (by omega) (by omega)).trans (h.field_edits hf (by omega) (by omega))

theorem codesig_from (h : codesig img = some cs) :
    cs ∈ commands img ∧ cs.cmd = LC_CODE_SIGNATURE :=
  ⟨List.mem_of_find?_eq_some h, by simpa using List.find?_some h⟩

theorem codesig_room (hf : Framed img) (h : codesig img = some cs) : 16 ≤ cs.size := by
  obtain ⟨hmem, hcmd⟩ := codesig_from h
  have hmin := hf.sized cs hmem
  unfold minSize at hmin
  rw [hcmd] at hmin
  exact hmin

theorem not_editable_other (hf : Framed img) {c c' : Command} (hc : c ∈ commands img)
    (hc' : c' ∈ commands img) (hne : c ≠ c') (hlo : c.off ≤ i) (hhi : i < c.off + c.size) :
    ¬ Editable c' i := by
  rintro ⟨h1, h2, -⟩
  rcases hf.disjoint hc hc' hne with h | h
  · omega
  · omega

def Plan.edited (p : Plan) (img : Image) (cs : Command) : Image :=
  p.rewriteData img (p.rewriteText (p.outBuffer img cs))

structure Packing (img : Image) (p : Plan) (cs : Command) : Prop where
  planned : plan img = some p
  vmsize : p.text.vmsize = 2 * PAGE
  filesize : p.text.filesize = 2 * PAGE
  nsects : p.text.nsects = 2
  header : headerAndLc img ≤ p.newTextOff
  content : p.textContentEnd ≤ PAGE
  codesig : codesig img = some cs
  sliced : p.Sliced img cs

theorem pack_eq_packed {sha256 : List UInt8 → Vector UInt8 32} :
    pack sha256 img = .packed out ↔
      img.u32 0 = MH_MAGIC_64 ∧ ∃ p cs, Packing img p cs ∧ out = p.signed img cs sha256 := by
  unfold pack
  by_cases hmagic : img.u32 0 = MH_MAGIC_64
  · rw [if_neg (not_not.mpr hmagic)]
    constructor
    · intro h
      refine ⟨hmagic, ?_⟩
      cases hplan : plan img with
      | none =>
        rw [hplan] at h
        cases h
      | some p =>
        rw [hplan] at h
        dsimp only at h
        split_ifs at h with h1 h2 h3 h4 h5
        cases hcs : codesig img with
        | none =>
          rw [hcs] at h
          cases h
        | some cs =>
          rw [hcs] at h
          dsimp only at h
          split_ifs at h with h6
          have hsize : p.text.vmsize = 2 * PAGE ∧ p.text.filesize = 2 * PAGE := by
            rw [not_or, not_not, not_not] at h2
            exact h2
          exact ⟨p, cs, ⟨hplan, hsize.1, hsize.2, not_not.mp h3, Nat.le_of_not_lt h4,
            Nat.le_of_not_lt h5, hcs, h6⟩, (Outcome.packed.inj h).symm⟩
    · rintro ⟨-, p, cs, h, rfl⟩
      rw [h.planned]
      dsimp only
      have hpage : ¬ (p.text.vmsize = PAGE ∧ p.text.filesize = PAGE) := fun ⟨h1, _⟩ =>
        absurd (h1.symm.trans h.vmsize) (by decide)
      rw [if_neg hpage, if_neg (by rw [h.vmsize, h.filesize]; simp), if_neg (not_not.mpr h.nsects),
        if_neg (Nat.not_lt.mpr h.header), if_neg (Nat.not_lt.mpr h.content), h.codesig]
      exact if_pos h.sliced
  · rw [if_pos hmagic]
    exact ⟨(nomatch ·), fun h => absurd h.1 hmagic⟩

theorem pack_packed {sha256 : List UInt8 → Vector UInt8 32} (hw : WellFormed img) :
    pack sha256 img = .packed out ↔
      ∃ p cs, Packing img p cs ∧ out = p.signed img cs sha256 :=
  pack_eq_packed.trans (and_iff_right hw.magic)

theorem wrappingSub_eq {a b : ℕ} (hb : b ≤ a) (ha : a < 2 ^ 64) : wrappingSub a b = a - b := by
  unfold wrappingSub
  omega

def Plan.shift (p : Plan) : ℕ := if p.sectionsInPage2 then SHIFT else 0

structure Packing.Layout (img : Image) (p : Plan) (cs : Command) : Prop where
  text : p.newTextOff + p.shift = p.textSect.offset
  const : p.newConstOff + p.shift = p.constSect.offset
  apart : p.newTextOff + p.textSect.size ≤ p.newConstOff ∨
    p.newConstOff + p.constSect.size ≤ p.newTextOff
  inside : p.newTextOff + p.textSect.size ≤ 2 * PAGE
  fits : p.newConstOff + p.constSect.size ≤ PAGE
  finish : p.textContentEnd = p.newConstOff + p.constSect.size
  payload : p.linkedit.fileoff + p.lePrefixLen img cs = img.u32 (cs.off + 8)

theorem Packing.placed (hw : WellFormed img) (h : Packing img p cs) : Placed img p :=
  hw.placed p h.planned

theorem u32_lt (img : Image) (pos : ℕ) : img.u32 pos < 2 ^ 32 := load_lt img.byte pos 4

theorem u64_lt (img : Image) (pos : ℕ) : img.u64 pos < 2 ^ 64 := load_lt img.byte pos 8

theorem Packing.room (hw : WellFormed img) (h : Packing img p cs) : p.newLeFileoff < 2 ^ 33 := by
  have hplaced := h.placed hw
  obtain ⟨hmem, hne⟩ := plan_data h.planned
  have hpage : PAGE = 16384 := rfl
  unfold Plan.newLeFileoff
  by_cases hsome : 0 < p.data.filesize
  · have hbefore := hplaced.before_linkedit p.data hmem hne hsome
    have hsig := (hplaced.signature cs h.codesig).1
    have hlt := u32_lt img (cs.off + 8)
    omega
  · omega

theorem Packing.layout (hw : WellFormed img) (h : Packing img p cs) : Packing.Layout img p cs := by
  obtain ⟨t, d, l, hc⟩ := plan_commands h.planned
  have hplaced := h.placed hw
  have hoffs : p.text.sectOffs = [p.text.sectOff 0, p.text.sectOff 1] := by
    rw [Segment.sectOffs, h.nsects]
    rfl
  have hapart := hplaced.text_apart
  have hfirst := hplaced.text_inside (p.text.sectOff 0) (by rw [hoffs]; simp)
  have hinside := hplaced.text_inside (p.text.sectOff 1) (by rw [hoffs]; simp)
  rw [hoffs] at hapart
  have hapart := (List.pairwise_cons.mp hapart).1 _ (List.mem_singleton_self _)
  rw [← hc.textSect, ← hc.constSect] at hapart
  rw [← hc.textSect, h.filesize] at hfirst
  rw [← hc.constSect, h.filesize] at hinside
  have hroom := h.room hw
  have hslice := h.sliced.2.2.2.2.1
  have hpage : PAGE = 16384 := rfl
  have hshift : SHIFT = 16384 := rfl
  have htext : p.newTextOff + p.shift = p.textSect.offset := by
    unfold Plan.newTextOff Plan.newOff Plan.shift
    split
    · rename_i h2
      have hle : SHIFT ≤ p.textSect.offset := by simpa [Plan.sectionsInPage2] using h2
      rw [wrappingSub_eq hle (by omega)]
      omega
    · rfl
  have hconst : p.newConstOff + p.shift = p.constSect.offset := by
    unfold Plan.newConstOff Plan.newOff Plan.shift
    split
    · rename_i h2
      have hle : SHIFT ≤ p.textSect.offset := by simpa [Plan.sectionsInPage2] using h2
      by_cases hlow : SHIFT ≤ p.constSect.offset
      · rw [wrappingSub_eq hlow (by omega)]
        omega
      · rw [Plan.newConstOff, Plan.newOff, if_pos h2, wrappingSub] at hslice
        omega
    · rfl
  have hend : p.textContentEnd = p.newConstOff + p.constSect.size :=
    Nat.mod_eq_of_lt (by omega)
  have hsig := hplaced.signature cs h.codesig
  have hlt := u32_lt img (cs.off + 8)
  refine ⟨htext, hconst, by omega, by omega, hend ▸ h.content, hend, ?_⟩
  unfold Plan.lePrefixLen
  rw [wrappingSub_eq hsig.1 (by omega)]
  omega

structure Intact (img : Image) (p : Plan) : Prop extends Framed img where
  clear : 0 < p.constSect.size → headerAndLc img ≤ p.newConstOff

end Ltop.MacPack
