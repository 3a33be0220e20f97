import Mathlib
import Ltop.MacRewrite

namespace Ltop.MacPack

open LittleEndian

variable {img out out' : Image} {p : Plan} {c t d l cs : Command} {i k lo hi hdr hdr' addr offset : ℕ}
  {sha256 : List UInt8 → Vector UInt8 32}

theorem readSection_congr (h : Agree (hdr + 32) (hdr + 56) out.byte out'.byte) :
    readSection out hdr = readSection out' hdr := by
  have haddr : out.u64 (hdr + 32) = out'.u64 (hdr + 32) := u64_congr (h.mono le_rfl (by omega))
  have hsize : out.u64 (hdr + 40) = out'.u64 (hdr + 40) :=
    u64_congr (h.mono (by omega) (by omega))
  have hoffset : out.u32 (hdr + 48) = out'.u32 (hdr + 48) :=
    u32_congr (h.mono (by omega) (by omega))
  have halign : out.u32 (hdr + 52) = out'.u32 (hdr + 52) := u32_congr (h.mono (by omega) le_rfl)
  rw [readSection, haddr, hsize, hoffset, halign]
  rfl

theorem writeSection_agree (h : hi ≤ hdr + 32 ∨ hdr + 52 ≤ lo) :
    Agree lo hi (writeSection out hdr addr offset).byte out.byte :=
  (store_agree (by omega)).trans (store_agree (by omega))

theorem readSection_writeSection_other (h : hdr' + 80 ≤ hdr ∨ hdr + 80 ≤ hdr') :
    readSection (writeSection out hdr addr offset) hdr' = readSection out hdr' :=
  readSection_congr (writeSection_agree (by omega))

def Section.moved (s : Section) (addr offset : ℕ) : Section := ⟨addr, s.size, offset, s.align⟩

@[simp] theorem Section.moved_addr (s : Section) : (s.moved addr offset).addr = addr := rfl

@[simp] theorem Section.moved_size (s : Section) : (s.moved addr offset).size = s.size := rfl

@[simp] theorem Section.moved_offset (s : Section) : (s.moved addr offset).offset = offset := rfl

theorem readSection_writeSection (out : Image) (hdr : ℕ) (haddr : addr < 2 ^ 64)
    (hoffset : offset < 2 ^ 32) :
    readSection (writeSection out hdr addr offset) hdr =
      (readSection out hdr).moved addr offset := by
  have hload : (writeSection out hdr addr offset).u64 (hdr + 32) = addr := by
    refine (load_store_outside (by omega)).trans ((load_store ..).trans ?_)
    exact Nat.mod_eq_of_lt haddr
  have hload' : (writeSection out hdr addr offset).u32 (hdr + 48) = offset :=
    (load_store ..).trans (Nat.mod_eq_of_lt hoffset)
  have hsize : (writeSection out hdr addr offset).u64 (hdr + 40) = out.u64 (hdr + 40) :=
    (load_store_outside (by omega)).trans (load_store_outside (by omega))
  have halign : (writeSection out hdr addr offset).u32 (hdr + 52) = out.u32 (hdr + 52) :=
    (load_store_outside (by omega)).trans (load_store_outside (by omega))
  rw [readSection, hload, hload', hsize, halign]
  rfl

theorem Segment.sectOffs_apart (s : Segment) :
    s.sectOffs.Pairwise fun a b => a + 80 ≤ b := by
  refine List.pairwise_map.mpr (List.pairwise_lt_range.imp fun {a b} hab => ?_)
  unfold Segment.sectOff
  omega

theorem rewriteDataSections_other {sos : List ℕ} (h : ∀ so ∈ sos, hdr + 80 ≤ so ∨ so + 80 ≤ hdr) :
    readSection (sos.foldl (Plan.rewriteDataSection img) out) hdr = readSection out hdr := by
  induction sos generalizing out with
  | nil => rfl
  | cons so sos ih =>
    obtain ⟨hso, hsos⟩ := List.forall_mem_cons.mp h
    exact (ih hsos).trans (readSection_writeSection_other hso)

theorem rewriteDataSections_at {sos : List ℕ} (hapart : sos.Pairwise fun a b => a + 80 ≤ b)
    (hsame : ∀ so ∈ sos, readSection out so = readSection img so) :
    ∀ so ∈ sos, readSection (sos.foldl (Plan.rewriteDataSection img) out) so =
      (readSection img so).moved (wrappingSub (readSection img so).addr SHIFT)
        (readSection img so).offset := by
  induction sos generalizing out with
  | nil => exact fun so hso => absurd hso List.not_mem_nil
  | cons so sos ih =>
    obtain ⟨hfirst, hapart⟩ := List.pairwise_cons.mp hapart
    obtain ⟨hso, hsos⟩ := List.forall_mem_cons.mp hsame
    refine List.forall_mem_cons.mpr ⟨?_, ih hapart fun so' hso' => ?_⟩
    · rw [List.foldl_cons, rewriteDataSections_other fun so' hso' => .inl (hfirst so' hso')]
      exact (readSection_writeSection out so (Nat.mod_lt _ (by decide)) (u32_lt img _)).trans
        (by rw [hso]; rfl)
    · exact (readSection_writeSection_other (.inr (hfirst so' hso'))).trans (hsos so' hso')

theorem rewriteAll_at {l : List Command} (p : Plan) (out : Image)
    (hsized : ∀ c ∈ l, minSize img c ≤ c.size)
    (hapart : l.Pairwise fun c c' => c.off + c.size ≤ c'.off) (hc : c ∈ l) :
    ∃ mid, Agree c.off (c.off + c.size) mid.byte out.byte ∧
      Agree c.off (c.off + c.size) (rewriteAll p l out).byte
        (p.rewriteCommand mid c.off c.cmd).byte := by
  induction l generalizing out with
  | nil => exact absurd hc List.not_mem_nil
  | cons a l ih =>
    obtain ⟨hfirst, hapart⟩ := List.pairwise_cons.mp hapart
    obtain ⟨hsize, hrest⟩ := List.forall_mem_cons.mp hsized
    rw [rewriteAll, List.foldl_cons, ← rewriteAll]
    rcases List.mem_cons.mp hc with rfl | hmem
    · refine ⟨out, .refl _, fun i hlo hhi => rewriteAll_same hrest fun c' hc' => .inr ?_⟩
      rintro ⟨hge, -⟩
      have := hfirst c' hc'
      omega
    · obtain ⟨mid, hmid, hfinal⟩ := ih (p.rewriteCommand out a.off a.cmd) hrest hapart hmem
      refine ⟨mid, hmid.trans ((rewriteCommand_edits hsize).agree fun i hlo hhi => ?_), hfinal⟩
      rintro ⟨-, hlt, -⟩
      have := hfirst c hmem
      omega

theorem rewriteCommand_main (out : Image) (off : ℕ) : (p.rewriteCommand out off LC_MAIN).u64 (off + 8) =
    if p.sectionsInPage2 then wrappingSub (out.u64 (off + 8)) SHIFT else out.u64 (off + 8) := by
  unfold Plan.rewriteCommand
  rw [if_neg (by decide), if_neg (by decide), if_neg (by decide), if_pos rfl]
  split
  · exact (load_store ..).trans (Nat.mod_eq_of_lt (Nat.mod_lt _ (by decide)))
  · rfl

theorem untouched (hf : Framed img) (hc : c ∈ commands img) (hlo : c.off ≤ i)
    (hhi : i < c.off + c.size) (hno : ¬ Editable c i) : ∀ c' ∈ commands img, ¬ Editable c' i := by
  intro c' hc'
  by_cases heq : c = c'
  · exact heq ▸ hno
  · exact not_editable_other hf hc hc' heq hlo hhi

theorem untouched_word (hf : Framed img) (hc : c ∈ commands img) (hlo : c.off ≤ i)
    (hhi : i < c.off + 8) : ∀ c' ∈ commands img, ¬ Editable c' i := by
  have hsize := hf.size_ge hc
  refine untouched hf hc hlo (by omega) ?_
  rintro ⟨hge, -⟩
  omega

theorem untouched_start (hf : Framed img) (hi : i < 32) : ∀ c ∈ commands img, ¬ Editable c i := by
  rintro c hc ⟨hge, -⟩
  have := hf.off_ge hc
  omega

theorem extend_below (tail : List UInt8) (hi : i < out.size) :
    (Plan.extend out tail).byte i = out.byte i := by
  have hpaste : paste out.byte (fun i => tail.getD i 0) out.size 0 tail.length i = out.byte i :=
    paste_below hi
  exact hpaste

theorem Plan.page_le (p : Plan) : PAGE ≤ p.newLeFileoff := Nat.le_add_right _ _

namespace Packing

section

variable (hw : WellFormed img) (h : Packing img p cs)

include hw h

theorem header_le : headerAndLc img ≤ 2 * PAGE := by
  have hinside := (h.layout hw).inside
  have hheader := h.header
  omega

theorem outBuffer_text (hk : k < p.textSect.size) :
    (p.outBuffer img cs).byte (p.newTextOff + k) = img.byte (p.textSect.offset + k) := by
  have hapart := (h.layout hw).apart
  have hslice := h.sliced.2.2.1
  unfold Plan.outBuffer
  dsimp only
  rw [paste_below (by omega), paste_outside (by omega), paste_inside hk]

theorem outBuffer_const (hk : k < p.constSect.size) :
    (p.outBuffer img cs).byte (p.newConstOff + k) = img.byte (p.constSect.offset + k) := by
  have hpage := p.page_le
  have hfits := (h.layout hw).fits
  unfold Plan.outBuffer
  dsimp only
  rw [paste_below (by omega), paste_inside hk]

end

theorem header_lt (h : Packing img p cs) : headerAndLc img ≤ p.codeLimit img cs :=
  h.sliced.1.trans (Nat.le_add_right _ _)

section

variable (hp : Intact img p) (h : Packing img p cs)

include hp h

theorem outBuffer_header (hi : i < headerAndLc img) :
    (p.outBuffer img cs).byte i = img.byte i := by
  have hheader := h.header
  have hconst := hp.clear
  have hpage := h.sliced.1
  have hcopy : paste (fun _ => 0) img.byte 0 0 (headerAndLc img) (0 + i) = img.byte (0 + i) :=
    paste_inside hi
  unfold Plan.outBuffer
  dsimp only
  rw [paste_below (by omega), paste_outside (by omega), paste_below (by omega)]
  rwa [Nat.zero_add] at hcopy

theorem linked_same (hcs : Commands img p t d l) (hno : ∀ c ∈ commands img, ¬ Editable c i) :
    (p.rewriteLinkedit (p.edited img cs)).byte i = (p.outBuffer img cs).byte i :=
  ((rewriteLinkedit_edits hcs.linkedit hp.toFramed).same i (hno l hcs.linkedit.mem)).trans <|
    ((rewriteData_edits hcs.data hp.toFramed).same i (hno d hcs.data.mem)).trans
      ((rewriteText_edits hcs.text hp.toFramed h.nsects).same i (hno t hcs.text.mem))

theorem linked_u32 (hcs : Commands img p t d l) {pos : ℕ} (hpos : pos + 4 ≤ headerAndLc img)
    (hno : ∀ i, pos ≤ i → i < pos + 4 → ∀ c ∈ commands img, ¬ Editable c i) :
    (p.rewriteLinkedit (p.edited img cs)).u32 pos = img.u32 pos :=
  u32_congr fun i hlo hhi =>
    (h.linked_same hp hcs (hno i hlo hhi)).trans (h.outBuffer_header hp (by omega))

theorem rewritten_eq (hcs : Commands img p t d l) :
    p.rewritten img cs = p.rewriteSignature img cs
      (rewriteAll p (commands img) (p.rewriteLinkedit (p.edited img cs))) := by
  have hcount : (p.rewriteLinkedit (p.edited img cs)).u32 16 = img.u32 16 :=
    h.linked_u32 hp hcs (Nat.le_trans (by decide) (Nat.le_add_right 32 _))
      fun i _ hhi => untouched_start hp.toFramed (by omega)
  have hwords : ∀ c ∈ commands img, (p.rewriteLinkedit (p.edited img cs)).u32 c.off = c.cmd ∧
      (p.rewriteLinkedit (p.edited img cs)).u32 (c.off + 4) = c.size := by
    intro c hc
    have hinside := hp.inside c hc
    have hsize := hp.size_ge hc
    obtain ⟨hcmd, hsz⟩ := Framed.words hc
    rw [hcmd, hsz]
    exact ⟨h.linked_u32 hp hcs (by omega) fun i hlo hhi => untouched_word hp.toFramed hc hlo (by omega),
      h.linked_u32 hp hcs (by omega) fun i hlo hhi => untouched_word hp.toFramed hc (by omega) (by omega)⟩
  have hall := rewriteCommands_eq (p := p) (n := img.u32 16) hp.sized hwords
  unfold Plan.rewritten
  dsimp only
  rw [← Plan.edited, hcount, hall]
  rfl

theorem signature_edits (out : Image) : ∃ mid, Edits cs out mid ∧ ∀ l, From img l p.linkedit →
    Edits l mid (p.rewriteSignature img cs out) := by
  have hroom := codesig_room hp.toFramed h.codesig
  have hcmd : cs.cmd ≠ LC_SEGMENT_64 := by
    rw [(codesig_from h.codesig).2]
    decide
  have hfirst : Edits cs out (out.setU32 (cs.off + 8) (p.codeLimit img cs)) :=
    setU32_edits fun i hlo hhi => editable_plain hcmd hlo (by omega)
  have hsecond : ∀ mid v, Edits cs mid (mid.setU32 (cs.off + 12) v) := fun mid v =>
    setU32_edits fun i hlo hhi => editable_plain hcmd (by omega) (by omega)
  exact ⟨_, hfirst.trans (hsecond _ (sigSize (p.codeLimit img cs) Plan.identifier)),
    fun l hl => hl.field_edits hp.toFramed (by omega) (by omega)⟩

theorem rewritten_size (hcs : Commands img p t d l) :
    (p.rewritten img cs).size = p.codeLimit img cs := by
  obtain ⟨mid, hmid, hlast⟩ := h.signature_edits hp
    (rewriteAll p (commands img) (p.rewriteLinkedit (p.edited img cs)))
  rw [h.rewritten_eq hp hcs, (hlast l hcs.linkedit).size, hmid.size, rewriteAll_size hp.sized,
    (rewriteLinkedit_edits hcs.linkedit hp.toFramed).size, Plan.edited, (rewriteData_edits hcs.data hp.toFramed).size,
    (rewriteText_edits hcs.text hp.toFramed h.nsects).size]
  rfl

theorem signed_below (hcs : Commands img p t d l) (hi : i < p.codeLimit img cs) :
    (p.signed img cs sha256).byte i = (p.rewritten img cs).byte i := by
  have hsize : i < (p.rewritten img cs).size := hi.trans_eq (h.rewritten_size hp hcs).symm
  exact extend_below _ hsize

theorem signed_linked (hcs : Commands img p t d l) (hi : i < p.codeLimit img cs)
    (hl : ¬ Editable l i) (hsig : ¬ Editable cs i) :
    (p.signed img cs sha256).byte i =
      (rewriteAll p (commands img) (p.rewriteLinkedit (p.edited img cs))).byte i := by
  obtain ⟨mid, hmid, hlast⟩ := h.signature_edits hp
    (rewriteAll p (commands img) (p.rewriteLinkedit (p.edited img cs)))
  rw [h.signed_below hp hcs hi, h.rewritten_eq hp hcs, (hlast l hcs.linkedit).same i hl,
    hmid.same i hsig]

theorem signed_untouched (hcs : Commands img p t d l) (hi : i < p.codeLimit img cs)
    (hno : ∀ c ∈ commands img, ¬ Editable c i) :
    (p.signed img cs sha256).byte i = (p.outBuffer img cs).byte i := by
  rw [h.signed_linked hp hcs hi (hno l hcs.linkedit.mem) (hno cs (codesig_from h.codesig).1),
    rewriteAll_same hp.sized fun c hc => .inr (hno c hc), h.linked_same hp hcs hno]

theorem signed_header (hcs : Commands img p t d l) (hi : i < headerAndLc img)
    (hno : ∀ c ∈ commands img, ¬ Editable c i) : (p.signed img cs sha256).byte i = img.byte i :=
  (h.signed_untouched hp hcs (hi.trans_le h.header_lt) hno).trans (h.outBuffer_header hp hi)

theorem signed_payload (hcs : Commands img p t d l) (hlo : headerAndLc img ≤ i)
    (hi : i < p.codeLimit img cs) :
    (p.signed img cs sha256).byte i = (p.outBuffer img cs).byte i := by
  refine h.signed_untouched hp hcs hi fun c hc => ?_
  rintro ⟨-, hlt, -⟩
  have := hp.inside c hc
  omega

theorem signed_segment (hcs : Commands img p t d l) (hmem : c ∈ commands img)
    (hcmd : c.cmd = LC_SEGMENT_64) (hne : c ≠ l) (hlo : c.off ≤ i) (hhi : i < c.off + c.size) :
    (p.signed img cs sha256).byte i = (p.edited img cs).byte i := by
  have hother : ∀ c' ∈ commands img, c ≠ c' → ¬ Editable c' i := fun c' hc' hne' =>
    not_editable_other hp.toFramed hmem hc' hne' hlo hhi
  have hsig : c ≠ cs := by
    rintro rfl
    exact absurd (hcmd.symm.trans (codesig_from h.codesig).2) (by decide)
  have hlimit : i < p.codeLimit img cs := (hhi.trans_le (hp.inside c hmem)).trans_le h.header_lt
  rw [h.signed_linked hp hcs hlimit (hother l hcs.linkedit.mem hne)
    (hother cs (codesig_from h.codesig).1 hsig)]
  refine (rewriteAll_same hp.sized fun c' hc' => ?_).trans
    ((rewriteLinkedit_edits hcs.linkedit hp.toFramed).same i (hother l hcs.linkedit.mem hne))
  by_cases heq : c = c'
  · exact .inl (heq ▸ hcmd)
  · exact .inr (hother c' hc' heq)

theorem signed_command (sha256 : List UInt8 → Vector UInt8 32) (hcs : Commands img p t d l)
    (hmem : c ∈ commands img)
    (hseg : c.cmd ≠ LC_SEGMENT_64) (hsig : c.cmd ≠ LC_CODE_SIGNATURE) :
    ∃ mid, Agree c.off (c.off + c.size) mid.byte img.byte ∧
      Agree c.off (c.off + c.size) (p.signed img cs sha256).byte
        (p.rewriteCommand mid c.off c.cmd).byte := by
  have hother : ∀ {c' s}, From img c' s → ∀ i, c.off ≤ i → i < c.off + c.size → ¬ Editable c' i :=
    fun hc' i hlo hhi =>
      not_editable_other hp.toFramed hmem hc'.mem (fun heq => hseg (heq ▸ hc'.cmd)) hlo hhi
  have hcodesig : ∀ i, c.off ≤ i → i < c.off + c.size → ¬ Editable cs i := fun i hlo hhi =>
    not_editable_other hp.toFramed hmem (codesig_from h.codesig).1
      (fun heq => hsig (heq ▸ (codesig_from h.codesig).2)) hlo hhi
  have hinside := hp.inside c hmem
  have hlimit := h.header_lt
  obtain ⟨mid, hmid, hfinal⟩ := rewriteAll_at p (p.rewriteLinkedit (p.edited img cs)) hp.sized
    hp.toFramed.apart hmem
  refine ⟨mid, hmid.trans fun i hlo hhi => ?_, fun i hlo hhi => ?_⟩
  · exact ((rewriteLinkedit_edits hcs.linkedit hp.toFramed).same i (hother hcs.linkedit i hlo hhi)).trans <|
      ((rewriteData_edits hcs.data hp.toFramed).same i (hother hcs.data i hlo hhi)).trans <|
      ((rewriteText_edits hcs.text hp.toFramed h.nsects).same i (hother hcs.text i hlo hhi)).trans
        (h.outBuffer_header hp (by omega))
  · exact (h.signed_linked hp hcs (by omega) (hother hcs.linkedit i hlo hhi)
      (hcodesig i hlo hhi)).trans (hfinal i hlo hhi)

theorem signed_main (hcs : Commands img p t d l) (hmem : c ∈ commands img) (hcmd : c.cmd = LC_MAIN) :
    (p.signed img cs sha256).u64 (c.off + 8) =
      if p.sectionsInPage2 then wrappingSub (img.u64 (c.off + 8)) SHIFT
      else img.u64 (c.off + 8) := by
  have hroom : 24 ≤ c.size := by
    have := hp.sized c hmem
    unfold minSize at this
    rw [hcmd] at this
    exact this
  obtain ⟨mid, hmid, hfinal⟩ := h.signed_command hp sha256 hcs hmem
    (by rw [hcmd]; decide) (by rw [hcmd]; decide)
  rw [u64_congr (hfinal.mono (by omega) (by omega)), hcmd, rewriteCommand_main,
    u64_congr (hmid.mono (by omega) (by omega))]

end

end Packing

end Ltop.MacPack
