import Mathlib
import Ltop.MacSections

namespace Ltop.MacPack

open LittleEndian

variable {img img' out : Image} {p q : Plan} {c t d l cs : Command} {s : Segment} {i k so : ℕ}
  {sha256 : List UInt8 → Vector UInt8 32}

def Plan.sectOffs (p : Plan) : List ℕ := p.text.sectOffs ++ p.data.sectOffs

structure Carried (img out : Image) (p q : Plan) : Prop where
  commands : commands out = commands img
  text : q.text.sectOffs = p.text.sectOffs
  data : q.data.sectOffs = p.data.sectOffs
  addresses : ∀ a ∈ p.sectOffs, ∀ b ∈ p.sectOffs,
    ((readSection out a).addr : ℤ) - (readSection out b).addr =
      (readSection img a).addr - (readSection img b).addr
  sizes : ∀ s ∈ parseSegments img, ∀ so ∈ s.sectOffs,
    (readSection out so).size = (readSection img so).size
  bytes : ∀ s ∈ parseSegments img, ∀ so ∈ s.sectOffs, (readSection img so).offset ≠ 0 →
    ∀ k < (readSection img so).size,
      out.get? ((readSection out so).offset + k) = img.get? ((readSection img so).offset + k)
  entry : ∀ c ∈ MacPack.commands img, c.cmd = LC_MAIN →
    (out.u64 (c.off + 8) : ℤ) - q.textSect.offset = img.u64 (c.off + 8) - p.textSect.offset

def Preserved (img out : Image) : Prop :=
  ∃ p q, plan img = some p ∧ plan out = some q ∧ Carried img out p q

def Plan.elsewhere (p : Plan) (img : Image) : List Section :=
  ((parseSegments img).filter (· ≠ p.text)).flatMap fun s => s.sectOffs.map (readSection img)

def Plan.Clear (p : Plan) (img : Image) : Prop :=
  0 < p.constSect.size → headerAndLc img ≤ p.newConstOff

structure Plan.Keeps (p : Plan) (img : Image) : Prop where
  clear : p.Clear img
  shift : p.sectionsInPage2 ∨ p.data.nsects = 0
  bare : ∀ sec ∈ p.elsewhere img, sec.offset ≠ 0 → sec.size = 0

def Clear (img : Image) : Prop := ∀ p, plan img = some p → p.Clear img

def Keeps (img : Image) : Prop := ∀ p, plan img = some p → p.Keeps img

theorem mem_elsewhere {sec : Section} : sec ∈ p.elsewhere img ↔
    ∃ s ∈ parseSegments img, s ≠ p.text ∧ ∃ so ∈ s.sectOffs, readSection img so = sec := by
  simp [Plan.elsewhere, and_assoc]

theorem parseSegments_from (h : s ∈ parseSegments img) : ∃ c, From img c s := by
  obtain ⟨c, hc, rfl⟩ := List.mem_map.mp h
  obtain ⟨hmem, hcmd⟩ := segmentCommands_mem hc
  exact ⟨c, hmem, hcmd, rfl⟩

theorem Plan.of_textSect (img : Image) (t d l : Command) :
    (Plan.of img t d l).textSect = readSection img ((readSegment img t).sectOff 0) := rfl

theorem From.sectOff (h : From img c s) : (readSegment img' c).sectOff k = s.sectOff k := by
  rw [Segment.sectOff, Segment.sectOff, h.lcOff, readSegment]

namespace Packing

variable (hw : WellFormed img) (hp : Intact img p) (h : Packing img p cs)

include h

theorem found : ∃ t d l, Found img t d l ∧ p = Plan.of img t d l ∧ Commands img p t d l := by
  obtain ⟨t, d, l, hfound, rfl⟩ := plan_eq_some.mp h.planned
  exact ⟨t, d, l, hfound, rfl, hfound.commands⟩

theorem text_sectOffs : p.text.sectOffs = [p.text.sectOff 0, p.text.sectOff 1] := by
  rw [Segment.sectOffs, h.nsects]
  rfl

include hp

theorem signed_size (sha256 : List UInt8 → Vector UInt8 32) (hcs : Commands img p t d l) :
    p.codeLimit img cs ≤ (p.signed img cs sha256).size :=
  (h.rewritten_size hp hcs).symm.le.trans (Nat.le_add_right _ _)

theorem signed_get (hcs : Commands img p t d l) (hlo : headerAndLc img ≤ i) (hhi : i < p.codeLimit img cs) :
    (p.signed img cs sha256).get? i = some ((p.outBuffer img cs).byte i) := by
  have hsize := h.signed_size hp sha256 hcs
  rw [Image.get?, if_pos (by omega), h.signed_payload hp hcs hlo (by omega)]

include hw

theorem text_addr (hcs : Commands img p t d l) (hso : so ∈ p.text.sectOffs) :
    ((readSection (p.signed img cs sha256) so).addr : ℤ) = (readSection img so).addr - p.shift := by
  obtain ⟨htext, hconst⟩ := h.text_sections hw hp sha256 hcs
  have hlayout := h.layout hw
  have haddr := (h.placed hw).text_addr so hso
  have hstart := hlayout.text
  have hnext := hlayout.const
  rw [h.text_sectOffs] at hso
  rcases List.mem_pair.mp hso with rfl | rfl
  · rw [haddr, htext, ← hcs.textSect, ← hstart, Section.moved_addr]
    omega
  · rw [haddr, hconst, ← hcs.constSect, ← hnext, Section.moved_addr]
    omega

theorem data_addr (hcs : Commands img p t d l) (hso : so ∈ p.data.sectOffs) :
    ((readSection (p.signed img cs sha256) so).addr : ℤ) = (readSection img so).addr - SHIFT := by
  have hplaced := h.placed hw
  have hlow := hplaced.data_addr so hso
  have habove := hplaced.data_above
  have hvmsize := h.vmsize
  have hpage : SHIFT = PAGE := rfl
  have hlt : (readSection img so).addr < 2 ^ 64 := u64_lt img _
  rw [h.data_sections hw hp hcs hso, Section.moved_addr, wrappingSub_eq (by omega) hlt]
  omega

theorem text_bytes (hcs : Commands img p t d l) (hso : so ∈ p.text.sectOffs)
    (hk : k < (readSection img so).size) :
    (p.signed img cs sha256).get? ((readSection (p.signed img cs sha256) so).offset + k) =
      img.get? ((readSection img so).offset + k) := by
  obtain ⟨htext, hconst⟩ := h.text_sections hw hp sha256 hcs
  have hlayout := h.layout hw
  have hclear := hp.clear
  have hheader := h.header
  obtain ⟨-, -, htextOut, htextIn, hconstOut, hconstIn, -⟩ := h.sliced
  have hlimit : p.newLeFileoff ≤ p.codeLimit img cs := Nat.le_add_right _ _
  rw [h.text_sectOffs] at hso
  rcases List.mem_pair.mp hso with rfl | rfl
  · rw [← hcs.textSect] at hk ⊢
    rw [htext, Section.moved_offset, h.signed_get hp hcs (by omega) (by omega), h.outBuffer_text hw hk,
      Image.get?, if_pos (by omega)]
  · rw [← hcs.constSect] at hk ⊢
    rw [hconst, Section.moved_offset, h.signed_get hp hcs (by omega) (by omega), h.outBuffer_const hw hk,
      Image.get?, if_pos (by omega)]

theorem entry_kept (hcs : Commands img p t d l) (hc : c ∈ commands img) (hcmd : c.cmd = LC_MAIN) :
    ((p.signed img cs sha256).u64 (c.off + 8) : ℤ) - p.newTextOff =
      img.u64 (c.off + 8) - p.textSect.offset := by
  have hlayout := (h.layout hw).text
  have hentry := ((h.placed hw).entry c hc hcmd).1
  rw [h.signed_main hp hcs hc hcmd]
  unfold Plan.shift at hlayout
  split
  · rename_i h2
    rw [if_pos h2] at hlayout
    rw [wrappingSub_eq (by omega) (u64_lt img _)]
    omega
  · rename_i h2
    rw [if_neg h2] at hlayout
    omega

theorem elsewhere_kept (hcs : Commands img p t d l) (hs : s ∈ parseSegments img) (hne : s ≠ p.text)
    (hso : so ∈ s.sectOffs) :
    (readSection (p.signed img cs sha256) so).offset = (readSection img so).offset ∧
      (readSection (p.signed img cs sha256) so).size = (readSection img so).size := by
  obtain ⟨c, hc⟩ := parseSegments_from hs
  by_cases htext : c = t
  · exact absurd (hc.eq.trans (htext ▸ hcs.text.eq.symm)) hne
  by_cases hdata : c = d
  · have heq : s = p.data := hc.eq.trans (hdata ▸ hcs.data.eq.symm)
    rw [h.data_sections hw hp hcs (heq ▸ hso)]
    exact ⟨rfl, rfl⟩
  by_cases hlinkedit : c = l
  · have heq : s = p.linkedit := hc.eq.trans (hlinkedit ▸ hcs.linkedit.eq.symm)
    rw [heq, Segment.sectOffs, (h.placed hw).linkedit_bare] at hso
    exact absurd hso List.not_mem_nil
  · rw [h.other_sections hw hp hcs hc htext hdata hlinkedit hso]
    exact ⟨rfl, rfl⟩

theorem section_size (hcs : Commands img p t d l) (hs : s ∈ parseSegments img)
    (hso : so ∈ s.sectOffs) :
    (readSection (p.signed img cs sha256) so).size = (readSection img so).size := by
  by_cases hne : s = p.text
  · obtain ⟨htext, hconst⟩ := h.text_sections hw hp sha256 hcs
    rw [hne, h.text_sectOffs] at hso
    rcases List.mem_pair.mp hso with rfl | rfl
    · rw [htext, hcs.textSect, Section.moved_size]
    · rw [hconst, hcs.constSect, Section.moved_size]
  · exact (h.elsewhere_kept hw hp hcs hs hne hso).2

theorem addr_shift (hcs : Commands img p t d l) (hshift : p.sectionsInPage2 ∨ p.data.nsects = 0)
    (hso : so ∈ p.sectOffs) :
    ((readSection (p.signed img cs sha256) so).addr : ℤ) = (readSection img so).addr - p.shift := by
  rcases List.mem_append.mp hso with htext | hdata
  · exact h.text_addr hw hp hcs htext
  · rcases hshift with h2 | hnone
    · rw [h.data_addr hw hp hcs hdata, Plan.shift, if_pos h2]
    · rw [Segment.sectOffs, hnone] at hdata
      exact absurd hdata List.not_mem_nil

theorem preserved (hshift : p.sectionsInPage2 ∨ p.data.nsects = 0)
    (hbare : ∀ sec ∈ p.elsewhere img, sec.offset ≠ 0 → sec.size = 0) : Preserved img (p.signed img cs sha256) := by
  obtain ⟨t, d, l, hfound, -, hcs⟩ := h.found
  have hheaders := h.sameHeaders sha256 hp hcs
  refine ⟨p, _, h.planned, plan_eq_some.mpr ⟨t, d, l, hheaders.found hfound, rfl⟩, ?_⟩
  refine ⟨hheaders.commands_eq, hheaders.sectOffs_eq hcs.text, hheaders.sectOffs_eq hcs.data,
    fun a ha b hb => ?_, fun s hs so hso => h.section_size hw hp hcs hs hso,
    fun s hs so hso hoff k hk => ?_, fun c hc hcmd => ?_⟩
  · rw [h.addr_shift hw hp hcs hshift ha, h.addr_shift hw hp hcs hshift hb]
    ring
  · by_cases hne : s = p.text
    · exact h.text_bytes hw hp hcs (hne ▸ hso) hk
    · have hempty := hbare _ (mem_elsewhere.mpr ⟨s, hs, hne, so, hso, rfl⟩) hoff
      rw [hempty] at hk
      exact absurd hk (Nat.not_lt_zero k)
  · rw [Plan.of_textSect, hcs.text.sectOff, (h.text_sections hw hp sha256 hcs).1, Section.moved_offset]
    exact h.entry_kept hw hp hcs hc hcmd

theorem shift_of_preserved (hpres : Preserved img (p.signed img cs sha256)) :
    p.sectionsInPage2 ∨ p.data.nsects = 0 := by
  obtain ⟨t, d, l, -, -, hcs⟩ := h.found
  obtain ⟨p', q, hplan, -, hcarried⟩ := hpres
  obtain rfl := Option.some.inj (h.planned.symm.trans hplan)
  refine or_iff_not_imp_right.mpr fun hsome => ?_
  have htext : p.text.sectOff 0 ∈ p.text.sectOffs := by
    rw [h.text_sectOffs]
    exact List.mem_cons_self
  have hdata : p.data.sectOff 0 ∈ p.data.sectOffs :=
    List.mem_map.mpr ⟨0, List.mem_range.mpr (Nat.pos_of_ne_zero hsome), rfl⟩
  have hdiff := hcarried.addresses _ (List.mem_append_left _ htext) _ (List.mem_append_right _ hdata)
  rw [h.text_addr hw hp hcs htext, h.data_addr hw hp hcs hdata] at hdiff
  by_contra h1
  rw [Plan.shift, if_neg h1] at hdiff
  have : SHIFT = 16384 := rfl
  omega

end Packing

end Ltop.MacPack
