import Mathlib
import Ltop.MacPack

namespace Ltop.MacPack

open LittleEndian

variable {img img' out out' out'' : Image} {c c' : Command} {pos v n off lo hi : ℕ} {p : Plan}

def minSize (img : Image) (c : Command) : ℕ :=
  if c.cmd = LC_SEGMENT_64 then 72 + 80 * img.u32 (c.off + 64)
  else if c.cmd = LC_SYMTAB then 24
  else if c.cmd = LC_DYSYMTAB then 80
  else if c.cmd = LC_DYLD_INFO_ONLY then 48
  else if c.cmd = LC_MAIN then 24
  else if c.cmd ∈ [LC_FUNCTION_STARTS, LC_DATA_IN_CODE, LC_DYLD_EXPORTS_TRIE,
    LC_DYLD_CHAINED_FIXUPS, LC_CODE_SIGNATURE] then 16
  else 8

structure Placed (img : Image) (p : Plan) : Prop where
  text_fileoff : p.text.fileoff = 0
  text_addr : ∀ so ∈ p.text.sectOffs,
    (readSection img so).addr = p.text.vmaddr + (readSection img so).offset
  text_inside : ∀ so ∈ p.text.sectOffs,
    (readSection img so).offset + (readSection img so).size ≤ p.text.filesize
  text_apart : p.text.sectOffs.Pairwise fun a b =>
    (readSection img a).offset + (readSection img a).size ≤ (readSection img b).offset ∨
      (readSection img b).offset + (readSection img b).size ≤ (readSection img a).offset
  data_above : p.text.vmaddr + p.text.vmsize ≤ p.data.vmaddr
  data_addr : ∀ so ∈ p.data.sectOffs, p.data.vmaddr ≤ (readSection img so).addr
  section_inside : ∀ s ∈ parseSegments img, ∀ so ∈ s.sectOffs, (readSection img so).offset ≠ 0 →
    s.fileoff ≤ (readSection img so).offset ∧
      (readSection img so).offset + (readSection img so).size ≤ s.fileoff + s.filesize
  after_text : ∀ s ∈ parseSegments img, s ≠ p.text → 0 < s.filesize → p.text.filesize ≤ s.fileoff
  before_linkedit : ∀ s ∈ parseSegments img, s ≠ p.linkedit → 0 < s.filesize →
    s.fileoff + s.filesize ≤ p.linkedit.fileoff
  linkedit_bare : p.linkedit.nsects = 0
  signature : ∀ cs, codesig img = some cs →
    p.linkedit.fileoff ≤ img.u32 (cs.off + 8) ∧ img.u32 (cs.off + 8) ≤ img.size
  entry : ∀ c ∈ commands img, c.cmd = LC_MAIN →
    p.textSect.offset ≤ img.u64 (c.off + 8) ∧
      img.u64 (c.off + 8) < p.textSect.offset + p.textSect.size

structure WellFormed (img : Image) : Prop where
  magic : img.u32 0 = MH_MAGIC_64
  header : headerAndLc img ≤ img.size
  small : img.size < 2 ^ 32
  inside : ∀ c ∈ commands img, c.off + c.size ≤ headerAndLc img
  sized : ∀ c ∈ commands img, minSize img c ≤ c.size
  placed : ∀ p, plan img = some p → Placed img p

structure Framed (img : Image) : Prop where
  inside : ∀ c ∈ commands img, c.off + c.size ≤ headerAndLc img
  sized : ∀ c ∈ commands img, minSize img c ≤ c.size

theorem WellFormed.framed (h : WellFormed img) : Framed img := ⟨h.inside, h.sized⟩

structure MachO where
  image : Image
  wellFormed : WellFormed image

theorem minSize_ge (img : Image) (c : Command) : 8 ≤ minSize img c := by
  unfold minSize
  split
  · omega
  · split_ifs <;> omega

theorem minSize_segment (h : c.cmd = LC_SEGMENT_64) :
    minSize img c = 72 + 80 * img.u32 (c.off + 64) := if_pos h

theorem walk_lower (hs : ∀ c ∈ walk img n off, 8 ≤ c.size) :
    ∀ c ∈ walk img n off, off ≤ c.off := by
  induction n generalizing off with
  | zero => exact fun c hc => absurd hc List.not_mem_nil
  | succ n ih =>
    intro c hc
    rcases List.mem_cons.mp hc with rfl | hc
    · exact le_rfl
    · have := ih (fun c hc => hs c (List.mem_cons_of_mem _ hc)) c hc
      omega

theorem walk_apart (hs : ∀ c ∈ walk img n off, 8 ≤ c.size) :
    (walk img n off).Pairwise fun c c' => c.off + c.size ≤ c'.off := by
  induction n generalizing off with
  | zero => exact .nil
  | succ n ih =>
    have htail : ∀ c ∈ walk img n (off + img.u32 (off + 4)), 8 ≤ c.size := fun c hc =>
      hs c (List.mem_cons_of_mem _ hc)
    exact List.pairwise_cons.mpr ⟨walk_lower htail, ih htail⟩

theorem walk_words : ∀ c ∈ walk img n off, c.cmd = img.u32 c.off ∧ c.size = img.u32 (c.off + 4) := by
  induction n generalizing off with
  | zero => exact fun c hc => absurd hc List.not_mem_nil
  | succ n ih =>
    intro c hc
    rcases List.mem_cons.mp hc with rfl | hc
    · exact ⟨rfl, rfl⟩
    · exact ih c hc

namespace Framed

theorem size_ge (h : Framed img) (hc : c ∈ commands img) : 8 ≤ c.size :=
  (minSize_ge img c).trans (h.sized c hc)

theorem off_ge (h : Framed img) (hc : c ∈ commands img) : 32 ≤ c.off :=
  walk_lower (fun _ hc => h.size_ge hc) c hc

theorem apart (h : Framed img) :
    (commands img).Pairwise fun c c' => c.off + c.size ≤ c'.off :=
  walk_apart fun _ hc => h.size_ge hc

theorem words (hc : c ∈ commands img) : c.cmd = img.u32 c.off ∧ c.size = img.u32 (c.off + 4) :=
  walk_words c hc

theorem disjoint (h : Framed img) (hc : c ∈ commands img) (hc' : c' ∈ commands img)
    (hne : c ≠ c') : c.off + c.size ≤ c'.off ∨ c'.off + c'.size ≤ c.off := by
  have hall : (commands img).Pairwise fun c c' =>
      c.off + c.size ≤ c'.off ∨ c'.off + c'.size ≤ c.off := h.apart.imp .inl
  have : Std.Symm fun c c' : Command => c.off + c.size ≤ c'.off ∨ c'.off + c'.size ≤ c.off :=
    ⟨fun _ _ => Or.symm⟩
  exact hall.forall hc hc' hne

end Framed

def Editable (c : Command) (i : ℕ) : Prop :=
  c.off + 8 ≤ i ∧ i < c.off + c.size ∧
    (c.cmd = LC_SEGMENT_64 → c.off + 24 ≤ i ∧ (i < c.off + 56 ∨ c.off + 72 ≤ i))

structure Edits (c : Command) (out out' : Image) : Prop where
  size : out'.size = out.size
  same : ∀ i, ¬ Editable c i → out'.byte i = out.byte i

theorem Edits.refl (c : Command) (out : Image) : Edits c out out := ⟨rfl, fun _ _ => rfl⟩

theorem Edits.trans (h : Edits c out out') (h' : Edits c out' out'') : Edits c out out'' :=
  ⟨h'.size.trans h.size, fun i hi => (h'.same i hi).trans (h.same i hi)⟩

theorem setU32_edits (h : ∀ i, pos ≤ i → i < pos + 4 → Editable c i) :
    Edits c out (out.setU32 pos v) := by
  refine ⟨rfl, fun i hi => if_neg fun hin => hi (h i hin.1 hin.2)⟩

theorem setU64_edits (h : ∀ i, pos ≤ i → i < pos + 8 → Editable c i) :
    Edits c out (out.setU64 pos v) := by
  refine ⟨rfl, fun i hi => if_neg fun hin => hi (h i hin.1 hin.2)⟩

theorem Edits.agree (h : Edits c out out') (hno : ∀ i, lo ≤ i → i < hi → ¬ Editable c i) :
    Agree lo hi out'.byte out.byte := fun i hlo hhi => h.same i (hno i hlo hhi)

theorem editable_plain (hcmd : c.cmd ≠ LC_SEGMENT_64) {i : ℕ} (hlo : c.off + 8 ≤ i)
    (hhi : i < c.off + c.size) : Editable c i := ⟨hlo, hhi, fun h => absurd h hcmd⟩

theorem shiftField_edits (h : ∀ i, pos ≤ i → i < pos + 4 → Editable c i) :
    Edits c out (p.shiftField out pos) := by
  unfold Plan.shiftField
  dsimp only
  split
  · exact setU32_edits h
  · exact .refl c out

theorem shiftFields_edits {fields : List ℕ}
    (h : ∀ f ∈ fields, ∀ i, off + f ≤ i → i < off + f + 4 → Editable c i) :
    Edits c out (fields.foldl (fun out f => p.shiftField out (off + f)) out) := by
  induction fields generalizing out with
  | nil => exact .refl c out
  | cons f fields ih =>
    obtain ⟨hf, hfields⟩ := List.forall_mem_cons.mp h
    exact (shiftField_edits hf).trans (ih hfields)

theorem rewriteCommand_segment (h : c.cmd = LC_SEGMENT_64) :
    p.rewriteCommand out c.off c.cmd = out := by
  unfold Plan.rewriteCommand
  rw [h]
  rfl

theorem rewriteCommand_edits (hsize : minSize img c ≤ c.size) :
    Edits c out (p.rewriteCommand out c.off c.cmd) := by
  by_cases hseg : c.cmd = LC_SEGMENT_64
  · rw [rewriteCommand_segment hseg]
    exact .refl c out
  · have hin : ∀ {f k i}, 8 ≤ f → f + k ≤ c.size → c.off + f ≤ i → i < c.off + f + k →
        Editable c i := fun hf hk hlo hhi => editable_plain hseg (by omega) (by omega)
    unfold minSize at hsize
    rw [if_neg hseg] at hsize
    unfold Plan.rewriteCommand
    dsimp only
    by_cases hsym : c.cmd = LC_SYMTAB
    · rw [if_pos hsym] at hsize ⊢
      exact (setU32_edits fun i => hin (by omega) (by omega)).trans
        (setU32_edits fun i => hin (by omega) (by omega))
    rw [if_neg hsym] at hsize ⊢
    by_cases hdysym : c.cmd = LC_DYSYMTAB
    · rw [if_pos hdysym] at hsize ⊢
      refine shiftFields_edits fun f hf i => hin ?_ ?_
      · revert f
        decide
      · have : f ≤ 72 := by
          revert f
          decide
        omega
    rw [if_neg hdysym] at hsize ⊢
    by_cases hdyld : c.cmd = LC_DYLD_INFO_ONLY
    · rw [if_pos hdyld] at hsize ⊢
      refine shiftFields_edits fun f hf i => hin ?_ ?_
      · revert f
        decide
      · have : f ≤ 40 := by
          revert f
          decide
        omega
    rw [if_neg hdyld] at hsize ⊢
    by_cases hmain : c.cmd = LC_MAIN
    · rw [if_pos hmain] at hsize ⊢
      split
      · exact setU64_edits fun i => hin (by omega) (by omega)
      · exact .refl c out
    rw [if_neg hmain] at hsize ⊢
    split
    · rename_i hdata
      have hdata' : c.cmd ∈ [LC_FUNCTION_STARTS, LC_DATA_IN_CODE, LC_DYLD_EXPORTS_TRIE,
          LC_DYLD_CHAINED_FIXUPS, LC_CODE_SIGNATURE] := by
        revert hdata
        generalize c.cmd = k
        simp only [List.mem_cons]
        tauto
      rw [if_pos hdata'] at hsize
      exact shiftField_edits fun i => hin (by omega) (by omega)
    · exact .refl c out

def rewriteAll (p : Plan) (cs : List Command) (out : Image) : Image :=
  cs.foldl (fun out c => p.rewriteCommand out c.off c.cmd) out

theorem u32_congr (h : Agree pos (pos + 4) out.byte out'.byte) : out.u32 pos = out'.u32 pos :=
  load_congr h

theorem u64_congr (h : Agree pos (pos + 8) out.byte out'.byte) : out.u64 pos = out'.u64 pos :=
  load_congr h

theorem rewriteCommands_eq (hsized : ∀ c ∈ walk img n off, minSize img c ≤ c.size)
    (hwords : ∀ c ∈ walk img n off, out.u32 c.off = c.cmd ∧ out.u32 (c.off + 4) = c.size) :
    p.rewriteCommands n off out = rewriteAll p (walk img n off) out := by
  induction n generalizing off out with
  | zero => rfl
  | succ n ih =>
    obtain ⟨hcmd, hsize⟩ := hwords _ List.mem_cons_self
    have hge : ∀ c ∈ walk img (n + 1) off, 8 ≤ c.size := fun c hc =>
      (minSize_ge img c).trans (hsized c hc)
    have hfirst := (List.pairwise_cons.mp (walk_apart hge)).1
    have hedits : Edits _ out (p.rewriteCommand out off (img.u32 off)) :=
      rewriteCommand_edits (hsized _ List.mem_cons_self)
    rw [Plan.rewriteCommands]
    simp only [hcmd, hsize]
    refine ih (fun c hc => hsized c (List.mem_cons_of_mem _ hc)) fun c hc => ?_
    obtain ⟨hcmd', hsize'⟩ := hwords c (List.mem_cons_of_mem _ hc)
    have hlow := hfirst c hc
    refine ⟨(u32_congr (hedits.agree fun i hlo hhi hin => ?_)).trans hcmd',
      (u32_congr (hedits.agree fun i hlo hhi hin => ?_)).trans hsize'⟩
    · exact absurd hin.2.1 (by simp only at hlow ⊢; omega)
    · exact absurd hin.2.1 (by simp only at hlow ⊢; omega)

theorem rewriteAll_same {cs : List Command} {i : ℕ} (hsized : ∀ c ∈ cs, minSize img c ≤ c.size)
    (h : ∀ c ∈ cs, c.cmd = LC_SEGMENT_64 ∨ ¬ Editable c i) :
    (rewriteAll p cs out).byte i = out.byte i := by
  induction cs generalizing out with
  | nil => rfl
  | cons c cs ih =>
    obtain ⟨hc, hcs⟩ := List.forall_mem_cons.mp h
    obtain ⟨hsize, hsized⟩ := List.forall_mem_cons.mp hsized
    refine (ih hsized hcs).trans ?_
    rcases hc with hseg | hno
    · exact congrFun (congrArg Image.byte (rewriteCommand_segment hseg)) i
    · exact (rewriteCommand_edits hsize).same i hno

theorem rewriteAll_size {cs : List Command} (hsized : ∀ c ∈ cs, minSize img c ≤ c.size) :
    (rewriteAll p cs out).size = out.size := by
  induction cs generalizing out with
  | nil => rfl
  | cons c cs ih =>
    obtain ⟨hsize, hsized⟩ := List.forall_mem_cons.mp hsized
    exact (ih hsized).trans (rewriteCommand_edits hsize).size

end Ltop.MacPack
