import Mathlib
import Ltop.MacLayouts
import Ltop.MacSignature

namespace Ltop.MacPack

open LittleEndian

variable {img out : Image} {p : Plan} {c t d l cs : Command} {f k off v : ℕ}
  {sha256 : List UInt8 → Vector UInt8 32}

def refFields (cmd : ℕ) : List ℕ :=
  if cmd = LC_SYMTAB then [8, 16]
  else if cmd = LC_DYSYMTAB then [32, 40, 48, 56, 64, 72]
  else if cmd = LC_DYLD_INFO_ONLY then [8, 16, 24, 32, 40]
  else if cmd ∈ [LC_FUNCTION_STARTS, LC_DATA_IN_CODE, LC_DYLD_EXPORTS_TRIE, LC_DYLD_CHAINED_FIXUPS]
  then [8]
  else []

structure Refers (img : Image) (c : Command) (f : ℕ) : Prop where
  mem : c ∈ commands img
  field : f ∈ refFields c.cmd
  nonzero : img.u32 (c.off + f) ≠ 0

def Referenced (img : Image) : Prop :=
  ∀ p cs, plan img = some p → codesig img = some cs → ∀ c f, Refers img c f →
    p.linkedit.fileoff ≤ img.u32 (c.off + f) ∧ img.u32 (c.off + f) ≤ img.u32 (cs.off + 8)

structure Consistent (sha256 : List UInt8 → Vector UInt8 32) (img out : Image) : Prop where
  references : ∀ cs, codesig img = some cs → ∀ c f, Refers img c f → ∀ k,
    img.u32 (c.off + f) + k < img.u32 (cs.off + 8) →
      out.get? (out.u32 (c.off + f) + k) = img.get? (img.u32 (c.off + f) + k)
  signature : ∃ cs, codesig out = some cs ∧
    out.u32 (cs.off + 8) + out.u32 (cs.off + 12) = out.size ∧
    out.u32 (cs.off + 12) = sigSize (out.u32 (cs.off + 8)) Plan.identifier ∧
    Signed sha256 out (out.u32 (cs.off + 8))
  linkedit : ∃ p, plan out = some p ∧ p.linkedit.fileoff + p.linkedit.filesize = out.size

structure Packable (img : Image) : Prop where
  intact : ∀ p, plan img = some p → Intact img p
  below : ∀ p cs, plan img = some p → codesig img = some cs → p.codeLimit img cs < 2 ^ 32

theorem refFields_room (hf : f ∈ refFields c.cmd) (hsize : minSize img c ≤ c.size) :
    8 ≤ f ∧ f + 4 ≤ c.size := by
  unfold minSize at hsize
  unfold refFields at hf
  split_ifs at hf with hsym hdysym hdyld hdata
  case pos =>
    rw [hsym] at hsize
    have hroom : 24 ≤ c.size := hsize
    have hfield : 8 ≤ f ∧ f ≤ 16 := by
      revert f
      decide
    omega
  case pos =>
    rw [hdysym] at hsize
    have hroom : 80 ≤ c.size := hsize
    have hfield : 8 ≤ f ∧ f ≤ 72 := by
      revert f
      decide
    omega
  case pos =>
    rw [hdyld] at hsize
    have hroom : 48 ≤ c.size := hsize
    have hfield : 8 ≤ f ∧ f ≤ 40 := by
      revert f
      decide
    omega
  case pos =>
    have hroom : 16 ≤ c.size := by
      revert hdata hsize
      generalize c.cmd = cmd
      simp only [List.mem_cons, List.not_mem_nil, or_false]
      rintro hsize (rfl | rfl | rfl | rfl) <;> exact hsize
    rw [List.mem_singleton] at hf
    omega
  case neg => exact absurd hf List.not_mem_nil

theorem shifted_lt (p : Plan) (v : ℕ) : p.shifted v < 2 ^ 32 := by
  unfold Plan.shifted
  omega

theorem setU32_u32 (out : Image) (hv : v < 2 ^ 32) : (out.setU32 off v).u32 off = v :=
  (load_store ..).trans (Nat.mod_eq_of_lt hv)

theorem shiftField_at (hne : out.u32 off ≠ 0) :
    (p.shiftField out off).u32 off = p.shifted (out.u32 off) := by
  unfold Plan.shiftField
  dsimp only
  rw [if_pos hne]
  exact setU32_u32 out (shifted_lt p _)

theorem shiftField_other {pos : ℕ} (h : pos + 4 ≤ off ∨ off + 4 ≤ pos) :
    (p.shiftField out off).u32 pos = out.u32 pos := by
  unfold Plan.shiftField
  dsimp only
  split
  · exact load_store_outside h
  · rfl

theorem shiftFields_other {fields : List ℕ} (h : ∀ g ∈ fields, f + 4 ≤ g) :
    (fields.foldl (fun out f => p.shiftField out (off + f)) out).u32 (off + f) =
      out.u32 (off + f) := by
  induction fields generalizing out with
  | nil => rfl
  | cons g fields ih =>
    obtain ⟨hg, hfields⟩ := List.forall_mem_cons.mp h
    exact (ih hfields).trans (shiftField_other (.inl (by omega)))

theorem shiftFields_at {fields : List ℕ} (hapart : fields.Pairwise fun a b => a + 4 ≤ b)
    (hf : f ∈ fields) (hne : out.u32 (off + f) ≠ 0) :
    (fields.foldl (fun out f => p.shiftField out (off + f)) out).u32 (off + f) =
      p.shifted (out.u32 (off + f)) := by
  induction fields generalizing out with
  | nil => exact absurd hf List.not_mem_nil
  | cons g fields ih =>
    obtain ⟨hfirst, hapart⟩ := List.pairwise_cons.mp hapart
    rw [List.foldl_cons]
    rcases List.mem_cons.mp hf with rfl | hmem
    · exact (shiftFields_other hfirst).trans (shiftField_at hne)
    · have hkeep : (p.shiftField out (off + g)).u32 (off + f) = out.u32 (off + f) := by
        have := hfirst f hmem
        exact shiftField_other (.inr (by omega))
      rw [ih hapart hmem (hkeep.trans_ne hne), hkeep]

theorem rewriteCommand_reference {cmd : ℕ} (hf : f ∈ refFields cmd) (hne : out.u32 (off + f) ≠ 0) :
    (p.rewriteCommand out off cmd).u32 (off + f) = p.shifted (out.u32 (off + f)) := by
  unfold refFields at hf
  unfold Plan.rewriteCommand
  split_ifs at hf with hsym hdysym hdyld hdata
  case pos =>
    rw [if_pos hsym]
    rcases List.mem_pair.mp hf with rfl | rfl
    · exact (load_store_outside (by omega)).trans (setU32_u32 out (shifted_lt p _))
    · exact setU32_u32 _ (shifted_lt p _)
  case pos =>
    rw [if_neg hsym, if_pos hdysym]
    exact shiftFields_at (by decide) hf hne
  case pos =>
    rw [if_neg hsym, if_neg hdysym, if_pos hdyld]
    exact shiftFields_at (by decide) hf hne
  case pos =>
    have hmain : cmd ≠ LC_MAIN := by
      rintro rfl
      exact absurd hdata (by decide)
    obtain rfl := List.mem_singleton.mp hf
    rw [if_neg hsym, if_neg hdysym, if_neg hdyld, if_neg hmain, if_pos hdata]
    exact shiftField_at hne
  case neg => exact absurd hf List.not_mem_nil

theorem shifted_eq (hlo : p.linkedit.fileoff ≤ v)
    (hlt : p.newLeFileoff + (v - p.linkedit.fileoff) < 2 ^ 32) :
    p.shifted v = p.newLeFileoff + (v - p.linkedit.fileoff) := by
  unfold Plan.shifted Plan.leShift
  omega

namespace Packing

section

variable (hp : Intact img p) (h : Packing img p cs)

include hp h

theorem signed_reference (sha256 : List UInt8 → Vector UInt8 32) (hcs : Commands img p t d l)
    (href : Refers img c f) :
    (p.signed img cs sha256).u32 (c.off + f) = p.shifted (img.u32 (c.off + f)) := by
  obtain ⟨hlo, hhi⟩ := refFields_room href.field (hp.sized c href.mem)
  have hkind : c.cmd ≠ LC_SEGMENT_64 ∧ c.cmd ≠ LC_CODE_SIGNATURE := by
    have hfield := href.field
    constructor
    all_goals
      intro hcmd
      rw [hcmd] at hfield
      exact absurd hfield List.not_mem_nil
  obtain ⟨mid, hmid, hfinal⟩ := h.signed_command hp sha256 hcs href.mem hkind.1 hkind.2
  have hsame : mid.u32 (c.off + f) = img.u32 (c.off + f) :=
    u32_congr (hmid.mono (by omega) (by omega))
  rw [u32_congr (hfinal.mono (by omega) (by omega)),
    rewriteCommand_reference href.field (hsame.trans_ne href.nonzero), hsame]

theorem signed_prefix (hcs : Commands img p t d l) (hk : k < p.lePrefixLen img cs) :
    (p.signed img cs sha256).byte (p.newLeFileoff + k) = img.byte (p.linkedit.fileoff + k) := by
  have hheader := h.sliced.1
  have hlimit : p.newLeFileoff + k < p.codeLimit img cs := Nat.add_lt_add_left hk _
  rw [h.signed_payload hp hcs (by omega) hlimit]
  exact paste_inside hk

theorem signed_attach (hcs : Commands img p t d l) : p.signed img cs sha256 =
    attach sha256 (p.rewritten img cs) p.textContentEnd := by
  unfold Plan.signed attach
  rw [h.rewritten_size hp hcs]

theorem signed_sizes (sha256 : List UInt8 → Vector UInt8 32) (hcs : Commands img p t d l) :
    (p.signed img cs sha256).size =
      p.codeLimit img cs + sigSize (p.codeLimit img cs) Plan.identifier := by
  rw [h.signed_attach hp hcs, attach_size, h.rewritten_size hp hcs]

theorem codesig_apart (hcs : Commands img p t d l) : 16 ≤ cs.size ∧ 72 ≤ l.size ∧
    (cs.off + cs.size ≤ l.off ∨ l.off + l.size ≤ cs.off) ∧ cs.off + cs.size ≤ headerAndLc img ∧
      l.off + l.size ≤ headerAndLc img := by
  obtain ⟨hmem, hcmd⟩ := codesig_from h.codesig
  have hne : cs ≠ l := by
    rintro rfl
    exact absurd (hcmd.symm.trans hcs.linkedit.cmd) (by decide)
  have hroom := hcs.linkedit.room hp.toFramed
  exact ⟨codesig_room hp.toFramed h.codesig, by omega,
    hp.toFramed.disjoint hmem hcs.linkedit.mem hne, hp.inside cs hmem,
    hp.inside l hcs.linkedit.mem⟩

theorem signed_codesig (sha256 : List UInt8 → Vector UInt8 32) (hcs : Commands img p t d l)
    (hlimit : p.codeLimit img cs < 2 ^ 32) :
    (p.signed img cs sha256).u32 (cs.off + 8) = p.codeLimit img cs ∧
      (p.signed img cs sha256).u32 (cs.off + 12) =
        sigSize (p.codeLimit img cs) Plan.identifier := by
  obtain ⟨hroom, hroom', hapart, hinside, -⟩ := h.codesig_apart hp hcs
  have hheader := h.header_lt
  have hlength := sigSize_lt hlimit
  have hfinal : ∀ pos, pos + 4 ≤ headerAndLc img → (p.signed img cs sha256).u32 pos =
      (p.rewritten img cs).u32 pos := fun pos hpos =>
    u32_congr fun i hlo hhi => h.signed_below hp hcs (by omega)
  rw [hfinal _ (by omega), hfinal _ (by omega), h.rewritten_eq hp hcs, Plan.rewriteSignature,
    hcs.linkedit.lcOff]
  constructor
  · exact (load_store_outside (by omega)).trans <| (load_store_outside (by omega)).trans <|
      setU32_u32 _ hlimit
  · exact (load_store_outside (by omega)).trans (setU32_u32 _ hlength)

theorem signed_linkedit (sha256 : List UInt8 → Vector UInt8 32) (hcs : Commands img p t d l)
    (hlimit : p.codeLimit img cs < 2 ^ 32) :
    (p.signed img cs sha256).u64 (l.off + 40) = p.newLeFileoff ∧
      (p.signed img cs sha256).u64 (l.off + 48) = p.codeLimit img cs - p.newLeFileoff +
        sigSize (p.codeLimit img cs) Plan.identifier := by
  obtain ⟨hroom, hroom', hapart, -, hinside⟩ := h.codesig_apart hp hcs
  have hheader := h.header_lt
  have hlength := sigSize_lt hlimit
  have hbase : p.newLeFileoff ≤ p.codeLimit img cs := Nat.le_add_right _ _
  have hfinal : ∀ pos, pos + 8 ≤ headerAndLc img → (p.signed img cs sha256).u64 pos =
      (p.rewritten img cs).u64 pos := fun pos hpos =>
    u64_congr fun i hlo hhi => h.signed_below hp hcs (by omega)
  have hwrite : ∀ (out : Image) off v, v < 2 ^ 64 → (out.setU64 off v).u64 off = v := fun out off v hv =>
    (load_store ..).trans (Nat.mod_eq_of_lt hv)
  rw [hfinal _ (by omega), hfinal _ (by omega), h.rewritten_eq hp hcs, Plan.rewriteSignature,
    hcs.linkedit.lcOff]
  constructor
  · have hcommands : ∀ i, l.off + 40 ≤ i → i < l.off + 40 + 8 → ∀ c ∈ commands img,
        c.cmd = LC_SEGMENT_64 ∨ ¬ Editable c i := by
      intro i hlo hhi c hc
      by_cases heq : l = c
      · exact .inl (heq ▸ hcs.linkedit.cmd)
      · exact .inr (not_editable_other hp.toFramed hcs.linkedit.mem hc heq (by omega) (by omega))
    refine (load_store_outside (by omega)).trans <| (load_store_outside (by omega)).trans <|
      (load_store_outside (by omega)).trans <|
      (u64_congr fun i hlo hhi => rewriteAll_same hp.sized (hcommands i hlo hhi)).trans ?_
    rw [Plan.rewriteLinkedit, hcs.linkedit.lcOff]
    exact hwrite _ _ _ (by omega)
  · exact hwrite _ _ _ (by omega)

end

end Packing

theorem Packing.reference_kept (hp : Intact img p) (h : Packing img p cs)
    (hcs : Commands img p t d l) (hlimit : p.codeLimit img cs < 2 ^ 32) (href : Refers img c f)
    (hlo : p.linkedit.fileoff ≤ img.u32 (c.off + f))
    (hk : img.u32 (c.off + f) + k < img.u32 (cs.off + 8)) :
    (p.signed img cs sha256).get? ((p.signed img cs sha256).u32 (c.off + f) + k) =
      img.get? (img.u32 (c.off + f) + k) := by
  have hword := u32_lt img (cs.off + 8)
  have hprefix : p.lePrefixLen img cs = img.u32 (cs.off + 8) - p.linkedit.fileoff :=
    wrappingSub_eq (by omega) (by omega)
  have hbase : p.codeLimit img cs = p.newLeFileoff + p.lePrefixLen img cs := rfl
  have hsource := h.sliced.2.2.2.2.2.2
  have hsize := h.signed_sizes hp sha256 hcs
  have hbyte : (p.signed img cs sha256).byte
      (p.newLeFileoff + (img.u32 (c.off + f) - p.linkedit.fileoff + k)) =
        img.byte (p.linkedit.fileoff + (img.u32 (c.off + f) - p.linkedit.fileoff + k)) :=
    h.signed_prefix hp hcs (by omega)
  rw [h.signed_reference hp sha256 hcs href, shifted_eq hlo (by omega), Image.get?, Image.get?,
    if_pos (by omega), if_pos (by omega), Nat.add_assoc, hbyte, ← Nat.add_assoc,
    Nat.add_sub_cancel' hlo]

theorem Packing.signature_covers (hp : Intact img p) (h : Packing img p cs)
    (hcs : Commands img p t d l) (hlimit : p.codeLimit img cs < 2 ^ 32) :
    Signed sha256 (p.signed img cs sha256) (p.codeLimit img cs) := by
  have hsize := h.rewritten_size hp hcs
  rw [h.signed_attach hp hcs, ← hsize]
  exact attach_signed (hsize.trans_lt hlimit)

theorem packs_consistent (hpack : pack sha256 img = .packed out) (hinput : Packable img)
    (hrefs : Referenced img) : Consistent sha256 img out := by
  obtain ⟨-, p, cs, h, rfl⟩ := pack_eq_packed.mp hpack
  have hp := hinput.intact p h.planned
  have hlimit := hinput.below p cs h.planned h.codesig
  obtain ⟨t, d, l, hfound, hplan⟩ := plan_eq_some.mp h.planned
  have hcs : Commands img p t d l := hplan ▸ hfound.commands
  have hheaders := h.sameHeaders sha256 hp hcs
  have hsize := h.signed_sizes hp sha256 hcs
  obtain ⟨hdataoff, hdatasize⟩ := h.signed_codesig hp sha256 hcs hlimit
  constructor
  case references =>
    intro cs' hcs' c f href k hk
    obtain rfl := Option.some.inj (h.codesig.symm.trans hcs')
    exact h.reference_kept hp hcs hlimit href (hrefs p cs h.planned h.codesig c f href).1 hk
  case signature =>
    refine ⟨cs, hheaders.codesig_eq.trans h.codesig, ?_, ?_, ?_⟩
    · rw [hdataoff, hdatasize, hsize]
    · rw [hdataoff, hdatasize]
    · rw [hdataoff]
      exact h.signature_covers hp hcs hlimit
  case linkedit =>
    obtain ⟨hfileoff, hfilesize⟩ := h.signed_linkedit hp sha256 hcs hlimit
    have hbase : p.newLeFileoff ≤ p.codeLimit img cs := Nat.le_add_right _ _
    refine ⟨_, plan_eq_some.mpr ⟨t, d, l, hheaders.found hfound, rfl⟩, ?_⟩
    have hread : (Plan.of (p.signed img cs sha256) t d l).linkedit =
        readSegment (p.signed img cs sha256) l := rfl
    rw [hread, readSegment]
    dsimp only
    rw [hfileoff, hfilesize, hsize]
    omega

theorem Packing.below_of_consistent (hp : Intact img p) (h : Packing img p cs)
    (hcons : Consistent sha256 img (p.signed img cs sha256)) : p.codeLimit img cs < 2 ^ 32 := by
  obtain ⟨t, d, l, hcs⟩ := plan_commands h.planned
  obtain ⟨cs', -, hend, hlength, -⟩ := hcons.signature
  have hword := u32_lt (p.signed img cs sha256) (cs'.off + 8)
  rw [h.signed_sizes hp sha256 hcs, hlength] at hend
  by_contra hge
  have hmono : sigSize ((p.signed img cs sha256).u32 (cs'.off + 8)) Plan.identifier ≤
      sigSize (p.codeLimit img cs) Plan.identifier := by
    rw [sigSize_eq, sigSize_eq]
    have hceil : (p.signed img cs sha256).u32 (cs'.off + 8) ⌈/⌉ CS_PAGE_SIZE ≤
        p.codeLimit img cs ⌈/⌉ CS_PAGE_SIZE := 
      (gc_mul_ceilDiv (by decide)).monotone_l (by omega)
    exact Nat.add_le_add_left (Nat.mul_le_mul_right _ hceil) _
  omega

theorem signed_u32 {pos : ℕ} (h : pos + 4 ≤ (p.rewritten img cs).size) :
    (p.signed img cs sha256).u32 pos = (p.rewritten img cs).u32 pos :=
  u32_congr fun i _ hi => extend_below _ (by omega)

structure Input where
  image : Image
  plan : Plan
  signature : Command
  magic : image.u32 0 = MH_MAGIC_64
  packing : Packing image plan signature
  references : ∀ c ∈ commands image, ∀ f ∈ refFields c.cmd,
    plan.linkedit.fileoff ≤ image.u32 (c.off + f) ∧
      image.u32 (c.off + f) ≤ image.u32 (signature.off + 8)

namespace Input

variable (input : Input)

def output (sha256 : List UInt8 → Vector UInt8 32) : Image :=
  input.plan.signed input.image input.signature sha256

theorem packed : pack sha256 input.image = .packed (input.output sha256) :=
  pack_eq_packed.mpr ⟨input.magic, _, _, input.packing, rfl⟩

theorem referenced : Referenced input.image := by
  intro p cs hplan hcs c f href
  obtain rfl := Option.some.inj (input.packing.planned.symm.trans hplan)
  obtain rfl := Option.some.inj (input.packing.codesig.symm.trans hcs)
  exact input.references c href.mem f href.field

theorem packable (hintact : Intact input.image input.plan)
    (hbelow : input.plan.codeLimit input.image input.signature < 2 ^ 32) : Packable input.image := by
  refine ⟨fun p hplan => ?_, fun p cs hplan hcs => ?_⟩
  · exact Option.some.inj (input.packing.planned.symm.trans hplan) ▸ hintact
  · obtain rfl := Option.some.inj (input.packing.planned.symm.trans hplan)
    exact Option.some.inj (input.packing.codesig.symm.trans hcs) ▸ hbelow

def Misled : Prop := ∀ sha256, ∃ out, pack sha256 input.image = .packed out ∧
  Referenced input.image ∧ ¬ Consistent sha256 input.image out

theorem misled (h : ∀ sha256, ¬ Consistent sha256 input.image (input.output sha256)) :
    input.Misled := fun sha256 => ⟨_, input.packed, input.referenced, h sha256⟩

end Input

def tableBytes (ncmds symtabSize textOff constOff dataSize : ℕ) : List UInt8 := List.flatten [
  fields [(4, MH_MAGIC_64), (4, 0x100000c), (4, 0), (4, 2), (4, ncmds), (4, 416), (4, 0), (4, 0)],
  segmentBytes "__TEXT" 0x100000000 0x8000 0 0x8000 2,
  sectionBytes "__text" "__TEXT" (0x100000000 + textOff) 4 textOff 0,
  sectionBytes "__const" "__TEXT" (0x100000000 + constOff) 4 constOff 0,
  segmentBytes "__DATA" 0x100008000 0x4000 0x8000 dataSize 0,
  segmentBytes "__LINKEDIT" 0x10000c000 0x4000 0x8000 32 0,
  fields [(4, LC_CODE_SIGNATURE), (4, 16), (4, 0x8010), (4, 16)],
  fields [(4, LC_SYMTAB), (4, symtabSize), (4, 0x8000), (4, 1), (4, 0x8008), (4, 8)]]

def tableWord (ncmds symtabSize textOff constOff dataSize : ℕ) : ℕ :=
  (tableBytes ncmds symtabSize textOff constOff dataSize).foldr (fun b n => b.toNat + 256 * n) 0

def tableImage (ncmds symtabSize textOff constOff dataSize : ℕ) : Image :=
  ⟨0x8020, fun i => if i < 0x8000 then
    (tableWord ncmds symtabSize textOff constOff dataSize >>> (8 * i)).toUInt8 else 7⟩

def tablePlan (textOff constOff dataSize : ℕ) : Plan where
  text := ⟨32, nameField "__TEXT", 0x100000000, 0x8000, 0, 0x8000, 2⟩
  data := ⟨264, nameField "__DATA", 0x100008000, 0x4000, 0x8000, dataSize, 0⟩
  linkedit := ⟨336, nameField "__LINKEDIT", 0x10000c000, 0x4000, 0x8000, 32, 0⟩
  textSect := ⟨0x100000000 + textOff, 4, textOff, 2⟩
  constSect := ⟨0x100000000 + constOff, 4, constOff, 2⟩

def tableSignature : Command := ⟨408, LC_CODE_SIGNATURE, 16⟩

def table : Input where
  image := tableImage 5 24 448 452 0
  plan := tablePlan 448 452 0
  signature := tableSignature
  magic := by decide +kernel
  packing := ⟨by decide +kernel, rfl, rfl, rfl, by decide +kernel, by decide, by decide +kernel,
    by decide +kernel⟩
  references := by decide +kernel

def doubled : Input where
  image := tableImage 6 0 448 452 0
  plan := tablePlan 448 452 0
  signature := tableSignature
  magic := by decide +kernel
  packing := ⟨by decide +kernel, rfl, rfl, rfl, by decide +kernel, by decide, by decide +kernel,
    by decide +kernel⟩
  references := by decide +kernel

def covered : Input where
  image := tableImage 5 24 16832 16400 0
  plan := tablePlan 16832 16400 0
  signature := tableSignature
  magic := by decide +kernel
  packing := ⟨by decide +kernel, rfl, rfl, rfl, by decide +kernel, by decide, by decide +kernel,
    by decide +kernel⟩
  references := by decide +kernel

def vast : Input where
  image := tableImage 5 24 448 452 (2 ^ 32)
  plan := tablePlan 448 452 (2 ^ 32)
  signature := tableSignature
  magic := by decide +kernel
  packing := ⟨by decide +kernel, rfl, rfl, rfl, by decide +kernel, by decide, by decide +kernel,
    by decide +kernel⟩
  references := by decide +kernel

theorem table_intact : Intact table.image table.plan := by
  refine ⟨⟨?_, ?_⟩, ?_⟩
  all_goals decide +kernel

theorem table_packable : Packable table.image := table.packable table_intact (by decide +kernel)

def tableHash (page : List UInt8) : Vector UInt8 32 :=
  if page = List.replicate 4096 0 then
    digest 0xad7facb2586fc6e966c004d7d1d16b024f5805ff7cb47c7a85dabd8b48892ca7
  else if page = List.replicate 16 7 then
    digest 0xd761d406af2a4a5a15f67c924378ed88d1f85c13f1a37fc7366f59789b3bcd65
  else digest 0x426c23a7283b1809d84485de85a73ad45cddaa962c5e1c749b7bc94f2d69107e

theorem packs_consistent_table : Consistent tableHash table.image (table.output tableHash) :=
  packs_consistent table.packed table_packable table.referenced

theorem doubled_inconsistent (sha256 : List UInt8 → Vector UInt8 32) :
    ¬ Consistent sha256 doubled.image (doubled.output sha256) := by
  intro hcons
  have href : Refers doubled.image ⟨424, LC_SYMTAB, 0⟩ 8 :=
    ⟨by decide +kernel, by decide, by decide +kernel⟩
  have hread := hcons.references tableSignature doubled.packing.codesig _ 8 href 0 (by decide +kernel)
  have hzero : (doubled.output sha256).u32 (424 + 8) = 0 := by
    rw [Input.output, signed_u32 (by decide +kernel)]
    decide +kernel
  have hsource : doubled.image.get? (doubled.image.u32 (424 + 8) + 0) = some 7 := by decide +kernel
  have hfirst : (doubled.output sha256).byte 0 = 207 :=
    (extend_below _ (by decide +kernel)).trans (by decide +kernel)
  rw [hsource, hzero, Image.get?, hfirst] at hread
  split at hread
  · exact absurd (Option.some.inj hread) (by decide)
  · cases hread

theorem covered_inconsistent (sha256 : List UInt8 → Vector UInt8 32) :
    ¬ Consistent sha256 covered.image (covered.output sha256) := by
  intro hcons
  obtain ⟨cs, hcs, -⟩ := hcons.signature
  have hcount : (covered.output sha256).u32 16 = 0 := by
    rw [Input.output, signed_u32 (by decide +kernel)]
    decide +kernel
  rw [codesig, commands, hcount] at hcs
  cases hcs

theorem vast_inconsistent (sha256 : List UInt8 → Vector UInt8 32) :
    ¬ Consistent sha256 vast.image (vast.output sha256) := by
  intro hcons
  have hintact : Intact vast.image vast.plan := by
    refine ⟨⟨?_, ?_⟩, ?_⟩
    all_goals decide +kernel
  have hbelow := vast.packing.below_of_consistent hintact hcons
  exact absurd hbelow (by decide +kernel)

theorem packable_needed : doubled.Misled ∧ covered.Misled ∧ vast.Misled :=
  ⟨doubled.misled doubled_inconsistent, covered.misled covered_inconsistent,
    vast.misled vast_inconsistent⟩

end Ltop.MacPack
