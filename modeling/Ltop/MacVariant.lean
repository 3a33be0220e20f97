import Mathlib
import Ltop.MacPreserve

namespace Ltop.MacPack

open LittleEndian

variable {img img' out : Image} {p : Plan} {c t d l cs : Command} {s : Segment} {i k so : ℕ}
  {sha256 : List UInt8 → Vector UInt8 32}

def Plan.Content (p : Plan) (img : Image) (i : ℕ) : Prop :=
  ∃ sec ∈ p.elsewhere img, sec.offset ≠ 0 ∧ sec.offset ≤ i ∧ i < sec.offset + sec.size

structure Variant (img img' : Image) : Prop where
  size : img'.size = img.size
  same : ∀ p, plan img = some p → ∀ i, ¬ p.Content img i → img'.byte i = img.byte i

theorem content_range (hw : WellFormed img) (h : Packing img p cs) (hi : p.Content img i) :
    2 * PAGE ≤ i ∧ i < p.linkedit.fileoff ∧ i < img.size := by
  obtain ⟨sec, hsec, hoff, hlo, hhi⟩ := hi
  obtain ⟨s, hs, hne, so, hso, rfl⟩ := mem_elsewhere.mp hsec
  have hplaced := h.placed hw
  obtain ⟨hstart, hfinish⟩ := hplaced.section_inside s hs so hso hoff
  have hsome : 0 < s.filesize := by omega
  have hbare : s ≠ p.linkedit := by
    rintro rfl
    rw [Segment.sectOffs, hplaced.linkedit_bare] at hso
    exact absurd hso List.not_mem_nil
  have hafter := hplaced.after_text s hs hne hsome
  have hbefore := hplaced.before_linkedit s hs hbare hsome
  obtain ⟨hsig, hsize⟩ := hplaced.signature cs h.codesig
  have hfilesize := h.filesize
  omega

section

variable (hagree : Agree 0 (headerAndLc img) img'.byte img.byte)

include hagree

theorem header_u32 {pos : ℕ} (hpos : pos + 4 ≤ headerAndLc img) : img'.u32 pos = img.u32 pos :=
  u32_congr (hagree.mono (Nat.zero_le _) hpos)

theorem header_u64 {pos : ℕ} (hpos : pos + 8 ≤ headerAndLc img) : img'.u64 pos = img.u64 pos :=
  u64_congr (hagree.mono (Nat.zero_le _) hpos)

variable (hw : WellFormed img)

include hw

theorem header_segment (hc : c ∈ commands img) (hcmd : c.cmd = LC_SEGMENT_64) :
    readSegment img' c = readSegment img c := by
  have hmin := hw.sized c hc
  rw [minSize_segment hcmd] at hmin
  have hinside := hw.inside c hc
  have hname : (List.range 16).map (fun k => img'.byte (c.off + 8 + k)) =
      (List.range 16).map fun k => img.byte (c.off + 8 + k) :=
    name_congr (hagree.mono (Nat.zero_le _) (by omega))
  unfold readSegment
  rw [hname, header_u64 hagree (by omega), header_u64 hagree (by omega),
    header_u64 hagree (by omega), header_u64 hagree (by omega),
    header_u32 hagree (by omega)]

theorem header_section (hc : From img c s) (hso : so ∈ s.sectOffs) :
    readSection img' so = readSection img so := by
  obtain ⟨k, hk, rfl⟩ := List.mem_map.mp hso
  obtain ⟨-, hhi⟩ := hc.section_range hw.framed (List.mem_range.mp hk)
  have hinside := hw.inside c hc.mem
  exact readSection_congr (hagree.mono (Nat.zero_le _) (by omega))

theorem header_same : SameHeaders img img' := by
  have hstart : 32 ≤ headerAndLc img := Nat.le_add_right 32 _
  refine ⟨header_u32 hagree (by omega), header_u32 hagree (by omega), fun c hc => ?_,
    fun c hc hcmd => ?_, fun c hc hcmd => ?_⟩
  · have hinside := hw.inside c hc
    have hsize := hw.framed.size_ge hc
    exact ⟨header_u32 hagree (by omega), header_u32 hagree (by omega)⟩
  · rw [header_segment hagree hw hc hcmd]
  · rw [header_segment hagree hw hc hcmd]

theorem header_segments : parseSegments img' = parseSegments img := by
  have hmap : (segmentCommands img').map (readSegment img') =
      (segmentCommands img).map (readSegment img) := by
    rw [(header_same hagree hw).segmentCommands_eq]
    refine List.map_congr_left fun c hc => ?_
    obtain ⟨hmem, hcmd⟩ := segmentCommands_mem hc
    exact header_segment hagree hw hmem hcmd
  exact hmap

theorem header_sections (hs : s ∈ parseSegments img) (hso : so ∈ s.sectOffs) :
    readSection img' so = readSection img so := by
  obtain ⟨c, hc⟩ := parseSegments_from hs
  exact header_section hagree hw hc hso

theorem header_elsewhere (p : Plan) : p.elsewhere img' = p.elsewhere img := by
  unfold Plan.elsewhere
  rw [header_segments hagree hw]
  refine List.flatMap_congr fun s hs => List.map_congr_left fun so hso => ?_
  exact header_sections hagree hw (List.mem_filter.mp hs).1 hso

theorem header_plan (h : Packing img p cs) : plan img' = some p := by
  obtain ⟨t, d, l, hfound, heq, hcs⟩ := h.found
  have hoffs := h.text_sectOffs
  have htext : readSection img' (p.text.sectOff 0) = readSection img (p.text.sectOff 0) :=
    header_section hagree hw hcs.text (by rw [hoffs]; exact List.mem_cons_self)
  have hconst : readSection img' (p.text.sectOff 1) = readSection img (p.text.sectOff 1) :=
    header_section hagree hw hcs.text
      (by rw [hoffs]; exact List.mem_cons_of_mem _ List.mem_cons_self)
  have hseg : ∀ {c s}, From img c s → readSegment img' c = s := fun hc =>
    (header_segment hagree hw hc.mem hc.cmd).trans hc.eq.symm
  refine plan_eq_some.mpr ⟨t, d, l, (header_same hagree hw).found hfound, ?_⟩
  rw [Plan.of, hseg hcs.text, hseg hcs.data, hseg hcs.linkedit, htext, hconst, ← hcs.textSect,
    ← hcs.constSect]

theorem header_minSize (hc : c ∈ commands img) : minSize img' c = minSize img c := by
  by_cases hcmd : c.cmd = LC_SEGMENT_64
  · rw [minSize_segment hcmd, minSize_segment hcmd]
    exact congrArg (fun s : Segment => 72 + 80 * s.nsects) (header_segment hagree hw hc hcmd)
  · unfold minSize
    rw [if_neg hcmd, if_neg hcmd]

end

namespace Variant

variable (hv : Variant img img') (hw : WellFormed img) (h : Packing img p cs)

include hv hw h

theorem agree_low : Agree 0 (2 * PAGE) img'.byte img.byte := fun i _ hhi =>
  hv.same p h.planned i fun hin => by
    have := (content_range hw h hin).1
    omega

theorem agree_high {hi : ℕ} : Agree p.linkedit.fileoff hi img'.byte img.byte := fun i hlo _ =>
  hv.same p h.planned i fun hin => by
    have := (content_range hw h hin).2.1
    omega

theorem agree_header : Agree 0 (headerAndLc img) img'.byte img.byte :=
  (hv.agree_low hw h).mono le_rfl (h.header_le hw)

theorem lePrefixLen_eq : p.lePrefixLen img' cs = p.lePrefixLen img cs := by
  have hroom := codesig_room hw.framed h.codesig
  have hinside := hw.inside cs (codesig_from h.codesig).1
  rw [Plan.lePrefixLen, header_u32 (hv.agree_header hw h) (by omega), Plan.lePrefixLen]

theorem codeLimit_eq : p.codeLimit img' cs = p.codeLimit img cs := by
  rw [Plan.codeLimit, hv.lePrefixLen_eq hw h, Plan.codeLimit]

theorem packing : Packing img' p cs := by
  have hagree := hv.agree_header hw h
  have hheaders := header_same hagree hw
  have hheader : headerAndLc img' ≤ p.newTextOff := hheaders.headerAndLc_eq.trans_le h.header
  refine ⟨header_plan hagree hw h, h.vmsize, h.filesize, h.nsects, hheader, h.content,
    hheaders.codesig_eq.trans h.codesig, ?_⟩
  have hsliced := h.sliced
  unfold Plan.Sliced at hsliced ⊢
  rwa [hheaders.headerAndLc_eq, hv.size, hv.lePrefixLen_eq hw h]

theorem outBuffer_eq : p.outBuffer img' cs = p.outBuffer img cs := by
  obtain ⟨t, d, l, -, -, hcs⟩ := h.found
  have hlow := hv.agree_low hw h
  have hheader := h.header_le hw
  have hinside : ∀ k < 2, (readSection img (p.text.sectOff k)).offset +
      (readSection img (p.text.sectOff k)).size ≤ 2 * PAGE := fun k hk => by
    rw [← h.filesize]
    exact (h.placed hw).text_inside _ (List.mem_map.mpr ⟨k, List.mem_range.mpr (h.nsects ▸ hk), rfl⟩)
  have htext := hinside 0 (by decide)
  have hconst := hinside 1 (by decide)
  rw [← hcs.textSect] at htext
  rw [← hcs.constSect] at hconst
  unfold Plan.outBuffer
  rw [hv.codeLimit_eq hw h, hv.lePrefixLen_eq hw h,
    (header_same (hv.agree_header hw h) hw).headerAndLc_eq,
    paste_congr (hv.agree_high hw h), paste_congr (hlow.mono (Nat.zero_le _) hconst),
    paste_congr (hlow.mono (Nat.zero_le _) htext), paste_congr (hlow.mono (Nat.zero_le _) (by omega))]

theorem rewriteData_eq : p.rewriteData img' out = p.rewriteData img out := by
  obtain ⟨t, d, l, -, -, hcs⟩ := h.found
  refine List.foldl_ext _ _ _ fun out so hso => ?_
  unfold Plan.rewriteDataSection
  rw [header_section (hv.agree_header hw h) hw hcs.data hso]

theorem signed_eq : p.signed img' cs sha256 = p.signed img cs sha256 := by
  have hrewritten : p.rewritten img' cs = p.rewritten img cs := by
    unfold Plan.rewritten Plan.rewriteSignature
    rw [hv.outBuffer_eq hw h, hv.rewriteData_eq hw h, hv.codeLimit_eq hw h]
  rw [Plan.signed, hrewritten, hv.codeLimit_eq hw h, Plan.signed]

theorem keeps_iff : p.Keeps img' ↔ p.Keeps img := by
  have hagree := hv.agree_header hw h
  have helsewhere := header_elsewhere hagree hw p
  have hclear : p.Clear img' ↔ p.Clear img := by
    rw [Plan.Clear, (header_same hagree hw).headerAndLc_eq, Plan.Clear]
  constructor
  · rintro ⟨hc, hshift, hbare⟩
    exact ⟨hclear.mp hc, hshift, helsewhere ▸ hbare⟩
  · rintro ⟨hc, hshift, hbare⟩
    exact ⟨hclear.mpr hc, hshift, helsewhere.symm ▸ hbare⟩

theorem placed : Placed img' p := by
  obtain ⟨t, d, l, -, -, hcs⟩ := h.found
  have hagree := hv.agree_header hw h
  have hplaced := h.placed hw
  have hheaders := header_same hagree hw
  have htext : ∀ so ∈ p.text.sectOffs, readSection img' so = readSection img so := fun so =>
    header_section hagree hw hcs.text
  have hdata : ∀ so ∈ p.data.sectOffs, readSection img' so = readSection img so := fun so =>
    header_section hagree hw hcs.data
  have hsegs := header_segments hagree hw
  refine ⟨hplaced.text_fileoff, fun so hso => ?_, fun so hso => ?_, ?_, hplaced.data_above,
    fun so hso => ?_, fun s hs so hso => ?_, ?_, ?_, hplaced.linkedit_bare, fun cs' hcs' => ?_,
    fun c hc hcmd => ?_⟩
  · rw [htext so hso]
    exact hplaced.text_addr so hso
  · rw [htext so hso]
    exact hplaced.text_inside so hso
  · exact hplaced.text_apart.imp_of_mem fun {a b} ha hb hab => by rwa [htext a ha, htext b hb]
  · rw [hdata so hso]
    exact hplaced.data_addr so hso
  · rw [hsegs] at hs
    rw [header_sections hagree hw hs hso]
    exact hplaced.section_inside s hs so hso
  · rw [hsegs]
    exact hplaced.after_text
  · rw [hsegs]
    exact hplaced.before_linkedit
  · rw [hheaders.codesig_eq] at hcs'
    have hroom := codesig_room hw.framed hcs'
    have hinside := hw.inside cs' (codesig_from hcs').1
    rw [header_u32 hagree (by omega), hv.size]
    exact hplaced.signature cs' hcs'
  · rw [hheaders.commands_eq] at hc
    have hmin := hw.sized c hc
    unfold minSize at hmin
    rw [hcmd] at hmin
    have hroom : 24 ≤ c.size := hmin
    have hinside := hw.inside c hc
    rw [header_u64 hagree (by omega)]
    exact hplaced.entry c hc hcmd

theorem wellFormed : WellFormed img' := by
  have hagree := hv.agree_header hw h
  have hheaders := header_same hagree hw
  have hstart : 32 ≤ headerAndLc img := Nat.le_add_right 32 _
  refine ⟨(header_u32 hagree (by omega)).trans hw.magic, ?_, ?_, fun c hc => ?_, fun c hc => ?_,
    fun q hq => ?_⟩
  · rw [hheaders.headerAndLc_eq, hv.size]
    exact hw.header
  · rw [hv.size]
    exact hw.small
  · rw [hheaders.commands_eq] at hc
    rw [hheaders.headerAndLc_eq]
    exact hw.inside c hc
  · rw [hheaders.commands_eq] at hc
    rw [header_minSize hagree hw hc]
    exact hw.sized c hc
  · obtain rfl := Option.some.inj ((header_plan hagree hw h).symm.trans hq)
    exact hv.placed hw h

end Variant

def Image.poke (img : Image) (i : ℕ) (b : UInt8) : Image :=
  { img with byte := Function.update img.byte i b }

theorem poke_variant (h : Packing img p cs) (hi : p.Content img i) (b : UInt8) :
    Variant img (img.poke i b) := by
  refine ⟨rfl, fun q hq j hj => ?_⟩
  obtain rfl := Option.some.inj (h.planned.symm.trans hq)
  refine Function.update_of_ne ?_ b img.byte
  rintro rfl
  exact hj hi

theorem Variant.byte_kept (hv : Variant img img') (hw : WellFormed img) (hp : Intact img p)
    (h : Packing img p cs)
    (hpres : Preserved img' (p.signed img cs sha256)) (hs : s ∈ parseSegments img) (hne : s ≠ p.text)
    (hso : so ∈ s.sectOffs) (hoff : (readSection img so).offset ≠ 0)
    (hsize : 0 < (readSection img so).size) :
    (p.signed img cs sha256).get? (readSection img so).offset =
      img'.get? (readSection img so).offset := by
  obtain ⟨t, d, l, -, -, hcs⟩ := h.found
  obtain ⟨q, q', -, -, hcarried⟩ := hpres
  have hagree := hv.agree_header hw h
  have hsame := header_sections hagree hw hs hso
  have hs' : s ∈ parseSegments img' := by rwa [header_segments hagree hw]
  have hoff' : (readSection img' so).offset ≠ 0 := by rwa [hsame]
  have hsize' : 0 < (readSection img' so).size := by rwa [hsame]
  have hbyte := hcarried.bytes s hs' so hso hoff' 0 hsize'
  rwa [(h.elsewhere_kept hw hp hcs hs hne hso).1, hsame, Nat.add_zero] at hbyte

theorem get_poke {b : UInt8} (hi : i < img.size) : (img.poke i b).get? i = some b := by
  have hpoked : (img.poke i b).byte i = b := Function.update_self ..
  exact (if_pos hi).trans (congrArg some hpoked)

theorem bare_of_preserved (hw : WellFormed img) (hp : Intact img p) (h : Packing img p cs)
    (hall : ∀ img', Variant img img' → Preserved img' (p.signed img cs sha256)) :
    ∀ sec ∈ p.elsewhere img, sec.offset ≠ 0 → sec.size = 0 := by
  intro sec hsec hoff
  by_contra hsize
  have hin : p.Content img sec.offset := ⟨sec, hsec, hoff, le_rfl, by omega⟩
  obtain ⟨s, hs, hne, so, hso, rfl⟩ := mem_elsewhere.mp hsec
  have hbelow := (content_range hw h hin).2.2
  have hchanged : ∀ b, (p.signed img cs sha256).get? (readSection img so).offset = some b := by
    intro b
    have hv := poke_variant h hin b
    rw [hv.byte_kept hw hp h (hall _ hv) hs hne hso hoff (Nat.pos_of_ne_zero hsize)]
    exact get_poke hbelow
  exact absurd ((hchanged 0).symm.trans (hchanged 1)) (by decide)

end Ltop.MacPack
