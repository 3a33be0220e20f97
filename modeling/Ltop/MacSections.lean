import Mathlib
import Ltop.MacImage

namespace Ltop.MacPack

open LittleEndian

variable {img img' out : Image} {p : Plan} {c t d l cs : Command} {s : Segment} {n k so : ℕ}
  {sha256 : List UInt8 → Vector UInt8 32}

structure SameHeaders (img img' : Image) : Prop where
  count : img'.u32 16 = img.u32 16
  length : img'.u32 20 = img.u32 20
  words : ∀ c ∈ commands img, img'.u32 c.off = img.u32 c.off ∧
    img'.u32 (c.off + 4) = img.u32 (c.off + 4)
  name : ∀ c ∈ commands img, c.cmd = LC_SEGMENT_64 →
    (readSegment img' c).name = (readSegment img c).name
  nsects : ∀ c ∈ commands img, c.cmd = LC_SEGMENT_64 →
    (readSegment img' c).nsects = (readSegment img c).nsects

theorem walk_congr {off : ℕ} (h : ∀ c ∈ walk img n off, img'.u32 c.off = img.u32 c.off ∧
    img'.u32 (c.off + 4) = img.u32 (c.off + 4)) : walk img' n off = walk img n off := by
  induction n generalizing off with
  | zero => rfl
  | succ n ih =>
    obtain ⟨hcmd, hsize⟩ := h _ List.mem_cons_self
    simp only at hcmd hsize
    rw [walk, walk, hcmd, hsize, ih fun c hc => h c (List.mem_cons_of_mem _ hc)]

theorem name_congr (h : Agree (c.off + 8) (c.off + 24) img'.byte img.byte) :
    (readSegment img' c).name = (readSegment img c).name := by
  have hmap : (List.range 16).map (fun k => img'.byte (c.off + 8 + k)) =
      (List.range 16).map fun k => img.byte (c.off + 8 + k) := by
    refine List.map_congr_left fun k hk => ?_
    have hk := List.mem_range.mp hk
    exact h _ (by omega) (by omega)
  exact hmap

namespace SameHeaders

variable (h : SameHeaders img img')

include h

theorem commands_eq : commands img' = commands img := by
  rw [commands, h.count, walk_congr h.words, commands]

theorem headerAndLc_eq : headerAndLc img' = headerAndLc img := by
  rw [headerAndLc, h.length, headerAndLc]

theorem segmentCommands_eq : segmentCommands img' = segmentCommands img := by
  rw [segmentCommands, h.commands_eq, h.headerAndLc_eq, segmentCommands]

theorem codesig_eq : codesig img' = codesig img := by
  rw [codesig, h.commands_eq, codesig]

theorem findSegment_eq (name : List UInt8) : findSegment img' name = findSegment img name := by
  unfold findSegment
  rw [h.segmentCommands_eq]
  refine List.find?_congr fun c hc => ?_
  obtain ⟨hmem, hcmd⟩ := segmentCommands_mem hc
  rw [Segment.is, h.name c hmem hcmd, ← Segment.is]

theorem found (hfound : Found img t d l) : Found img' t d l :=
  ⟨(h.findSegment_eq _).trans hfound.text, (h.findSegment_eq _).trans hfound.data,
    (h.findSegment_eq _).trans hfound.linkedit⟩

theorem sectOffs_eq (hc : From img c s) : (readSegment img' c).sectOffs = s.sectOffs := by
  rw [Segment.sectOffs, h.nsects c hc.mem hc.cmd, hc.eq]
  rfl

end SameHeaders

theorem From.section_range (h : From img c s) (hf : Framed img) (hk : k < s.nsects) :
    c.off ≤ s.sectOff k + 32 ∧ s.sectOff k + 56 ≤ c.off + c.size := by
  have hroom := h.room hf
  rw [Segment.sectOff, h.lcOff]
  omega

namespace Packing

section

variable (hw : WellFormed img) (hp : Intact img p) (h : Packing img p cs)

include hw hp h

theorem signed_section (hcs : Commands img p t d l) (hs : From img c s) (hne : c ≠ l)
    (hk : k < s.nsects) : readSection (p.signed img cs sha256) (s.sectOff k) =
      readSection (p.edited img cs) (s.sectOff k) := by
  obtain ⟨hlo, hhi⟩ := hs.section_range hw.framed hk
  exact readSection_congr fun i h1 h2 =>
    h.signed_segment hp hcs hs.mem hs.cmd hne (by omega) (by omega)

theorem outBuffer_section (hs : From img c s) (hk : k < s.nsects) :
    readSection (p.outBuffer img cs) (s.sectOff k) = readSection img (s.sectOff k) := by
  obtain ⟨hlo, hhi⟩ := hs.section_range hw.framed hk
  have hinside := hw.inside c hs.mem
  exact readSection_congr fun i h1 h2 => h.outBuffer_header hp (by omega)

theorem text_sections (sha256 : List UInt8 → Vector UInt8 32) (hcs : Commands img p t d l) :
    readSection (p.signed img cs sha256) (p.text.sectOff 0) =
        p.textSect.moved (p.text.vmaddr + p.newTextOff) p.newTextOff ∧
      readSection (p.signed img cs sha256) (p.text.sectOff 1) =
        p.constSect.moved (p.text.vmaddr + p.newConstOff) p.newConstOff := by
  have hn := h.nsects
  have hlayout := h.layout hw
  have hplaced := h.placed hw
  have hpage : PAGE = 2 ^ 14 := rfl
  have hfits := hlayout.fits
  have hinside := hlayout.inside
  have hmem : ∀ k < 2, p.text.sectOff k ∈ p.text.sectOffs := fun k hk =>
    List.mem_map.mpr ⟨k, List.mem_range.mpr (hn ▸ hk), rfl⟩
  have haddr : ∀ k < 2, p.text.vmaddr + (readSection img (p.text.sectOff k)).offset < 2 ^ 64 := by
    intro k hk
    rw [← hplaced.text_addr _ (hmem k hk)]
    exact u64_lt img _
  have htext := haddr 0 (by decide)
  have hconst := haddr 1 (by decide)
  rw [← hcs.textSect, ← hlayout.text] at htext
  rw [← hcs.constSect, ← hlayout.const] at hconst
  have hsegment : ∀ k < 2, readSection (p.signed img cs sha256) (p.text.sectOff k) =
      readSection (p.rewriteText (p.outBuffer img cs)) (p.text.sectOff k) := by
    intro k hk
    obtain ⟨hlo, hhi⟩ := hcs.text.section_range hw.framed (hn ▸ hk)
    refine (h.signed_section hw hp hcs hcs.text hcs.text_ne_linkedit (hn ▸ hk)).trans ?_
    exact readSection_congr fun i h1 h2 => (rewriteData_edits hcs.data hw.framed).same i
      (not_editable_other hw.framed hcs.text.mem hcs.data.mem hcs.text_ne_data (by omega) (by omega))
  have hstart : ∀ k < 2, ∀ v v', readSection (((p.outBuffer img cs).setU64 (p.text.lcOff + 32) v).setU64
      (p.text.lcOff + 48) v') (p.text.sectOff k) = readSection img (p.text.sectOff k) := by
    intro k hk v v'
    refine (readSection_congr ?_).trans (h.outBuffer_section hw hp hcs.text (hn ▸ hk))
    unfold Segment.sectOff
    exact (store_agree (by omega)).trans (store_agree (by omega))
  have hapart : p.text.sectOff 0 + 80 ≤ p.text.sectOff 1 := by
    unfold Segment.sectOff
    omega
  rw [hsegment 0 (by decide), hsegment 1 (by decide), hcs.textSect, hcs.constSect]
  constructor
  · refine (readSection_writeSection_other (.inl hapart)).trans
      ((readSection_writeSection _ _ (by omega) (by omega)).trans ?_)
    exact congrArg (Section.moved · _ _) (hstart 0 (by decide) _ _)
  · refine (readSection_writeSection _ _ (by omega) (by omega)).trans ?_
    refine congrArg (Section.moved · _ _) ((readSection_writeSection_other (.inr hapart)).trans ?_)
    exact hstart 1 (by decide) _ _

theorem data_sections (hcs : Commands img p t d l) (hso : so ∈ p.data.sectOffs) :
    readSection (p.signed img cs sha256) so = (readSection img so).moved
      (wrappingSub (readSection img so).addr SHIFT) (readSection img so).offset := by
  have hstart : ∀ so ∈ p.data.sectOffs, ∀ v v', readSection
      (((p.rewriteText (p.outBuffer img cs)).setU64 (p.data.lcOff + 24) v).setU64
        (p.data.lcOff + 40) v') so = readSection img so := by
    intro so hso v v'
    obtain ⟨k, hk, rfl⟩ := List.mem_map.mp hso
    have hk := List.mem_range.mp hk
    obtain ⟨hlo, hhi⟩ := hcs.data.section_range hw.framed hk
    refine (readSection_congr ?_).trans (h.outBuffer_section hw hp hcs.data hk)
    have hfields : Agree (p.data.sectOff k + 32) (p.data.sectOff k + 56)
        (((p.rewriteText (p.outBuffer img cs)).setU64 (p.data.lcOff + 24) v).setU64
          (p.data.lcOff + 40) v').byte (p.rewriteText (p.outBuffer img cs)).byte := by
      unfold Segment.sectOff
      exact (store_agree (by omega)).trans (store_agree (by omega))
    refine hfields.trans fun i h1 h2 => (rewriteText_edits hcs.text hw.framed h.nsects).same i ?_
    exact not_editable_other hw.framed hcs.data.mem hcs.text.mem hcs.text_ne_data.symm (by omega) (by omega)
  obtain ⟨k, hk, heq⟩ := List.mem_map.mp hso
  rw [← heq, h.signed_section hw hp hcs hcs.data hcs.data_ne_linkedit (List.mem_range.mp hk), heq]
  exact rewriteDataSections_at p.data.sectOffs_apart (fun so hso => hstart so hso _ _) so hso

theorem other_sections (hcs : Commands img p t d l) (hs : From img c s) (htext : c ≠ t) (hdata : c ≠ d)
    (hlinkedit : c ≠ l) (hso : so ∈ s.sectOffs) :
    readSection (p.signed img cs sha256) so = readSection img so := by
  obtain ⟨k, hk, rfl⟩ := List.mem_map.mp hso
  have hk := List.mem_range.mp hk
  obtain ⟨hlo, hhi⟩ := hs.section_range hw.framed hk
  rw [h.signed_section hw hp hcs hs hlinkedit hk, ← h.outBuffer_section hw hp hs hk]
  refine readSection_congr fun i h1 h2 => ((rewriteData_edits hcs.data hw.framed).same i ?_).trans
    ((rewriteText_edits hcs.text hw.framed h.nsects).same i ?_)
  · exact not_editable_other hw.framed hs.mem hcs.data.mem hdata (by omega) (by omega)
  · exact not_editable_other hw.framed hs.mem hcs.text.mem htext (by omega) (by omega)

end

theorem sameHeaders (sha256 : List UInt8 → Vector UInt8 32) (hp : Intact img p)
    (h : Packing img p cs) (hcs : Commands img p t d l) :
    SameHeaders img (p.signed img cs sha256) := by
  have hword : ∀ pos, pos + 4 ≤ headerAndLc img →
      (∀ i, pos ≤ i → i < pos + 4 → ∀ c ∈ commands img, ¬ Editable c i) →
      (p.signed img cs sha256).u32 pos = img.u32 pos := fun pos hpos hno =>
    u32_congr fun i hlo hhi => h.signed_header hp hcs (by omega) (hno i hlo hhi)
  have hstart : 32 ≤ headerAndLc img := Nat.le_add_right 32 _
  refine ⟨hword 16 (by omega) fun i _ hhi => untouched_start hp.toFramed (by omega),
    hword 20 (by omega) fun i _ hhi => untouched_start hp.toFramed (by omega), fun c hc => ?_,
    fun c hc hcmd => ?_, fun c hc hcmd => ?_⟩
  · have hinside := hp.inside c hc
    have hsize := hp.toFramed.size_ge hc
    exact ⟨hword c.off (by omega) fun i hlo hhi => untouched_word hp.toFramed hc hlo (by omega),
      hword (c.off + 4) (by omega) fun i hlo hhi => untouched_word hp.toFramed hc (by omega) (by omega)⟩
  · have hmin := hp.sized c hc
    rw [minSize_segment hcmd] at hmin
    have hinside := hp.inside c hc
    refine name_congr fun i hlo hhi => ?_
    refine h.signed_header hp hcs (by omega) (untouched hp.toFramed hc (by omega) (by omega) ?_)
    rintro ⟨-, -, hfields⟩
    have := (hfields hcmd).1
    omega
  · have hmin := hp.sized c hc
    rw [minSize_segment hcmd] at hmin
    have hinside := hp.inside c hc
    refine hword _ (by omega) fun i hlo hhi => untouched hp.toFramed hc (by omega) (by omega) ?_
    rintro ⟨-, -, hfields⟩
    have := (hfields hcmd).2
    omega

end Packing

end Ltop.MacPack
