import Mathlib
import Ltop.MacSections
import Ltop.Library.Records

namespace Ltop.MacPack

open LittleEndian

variable {img out : Image} {p : Plan} {cs : Command} {sha256 : List UInt8 → Vector UInt8 32}
  {data : ℕ → UInt8} {id : List UInt8} {pos v i k codeSize textOff textSize start : ℕ}

def Image.be32 (img : Image) (pos : ℕ) : ℕ :=
  (List.range 4).foldl (fun n k => n * 256 + (img.byte (pos + k)).toNat) 0

structure Directory where
  start : ℕ
  hashOffset : ℕ
  nCodeSlots : ℕ
  codeLimit : ℕ

def readDirectory (img : Image) (sig : ℕ) : Directory :=
  let start := sig + img.be32 (sig + 16)
  ⟨start, img.be32 (start + 16), img.be32 (start + 28), img.be32 (start + 32)⟩

def readSlot (img : Image) (d : Directory) (i : ℕ) : List UInt8 :=
  (List.range CS_HASH_SIZE).map fun k => img.byte (d.start + d.hashOffset + (i * CS_HASH_SIZE + k))

def page (data : ℕ → UInt8) (limit i : ℕ) : List UInt8 :=
  (List.range' (i * CS_PAGE_SIZE)
    (min ((i + 1) * CS_PAGE_SIZE) limit - i * CS_PAGE_SIZE)).map data

structure Signed (sha256 : List UInt8 → Vector UInt8 32) (img : Image) (sig : ℕ) : Prop where
  magic : img.be32 sig = CSMAGIC_EMBEDDED_SIGNATURE
  length : img.be32 (sig + 4) = sigSize sig Plan.identifier
  directory : img.be32 (readDirectory img sig).start = CSMAGIC_CODEDIRECTORY
  limit : (readDirectory img sig).codeLimit = sig
  slots : (readDirectory img sig).nCodeSlots = sig ⌈/⌉ CS_PAGE_SIZE
  hashes : ∀ i < (readDirectory img sig).nCodeSlots,
    readSlot img (readDirectory img sig) i = (sha256 (page img.byte sig i)).toList

theorem be32_eq (h : ∀ k < 4, img.byte (pos + k) = (putBeU32 v).getD k 0) :
    img.be32 pos = v % 2 ^ 32 := by
  have h0 := h 0 (by decide)
  have h1 := h 1 (by decide)
  have h2 := h 2 (by decide)
  have h3 := h 3 (by decide)
  have hbyte : ∀ n : ℕ, n.toUInt8.toNat = n % 256 := fun n => UInt8.toNat_ofNat
  simp only [Image.be32, List.range_succ_eq_map, List.range_zero, List.map_nil, List.map_cons,
    List.foldl_cons, List.foldl_nil, Nat.succ_eq_add_one, Nat.reduceAdd]
  rw [h0, h1, h2, h3]
  simp only [putBeU32, List.map_cons, List.map_nil, List.getD_cons_zero, List.getD_cons_succ, hbyte,
    Nat.shiftRight_eq_div_pow]
  omega

theorem nHashes_eq (codeSize : ℕ) :
    (codeSize + CS_PAGE_SIZE - 1) / CS_PAGE_SIZE = codeSize ⌈/⌉ CS_PAGE_SIZE :=
  (Nat.ceilDiv_eq_add_pred_div ..).symm

def frontSize (id : List UInt8) : ℕ := 12 + 8 + (88 + id.length + 1)

theorem sigSize_eq (codeSize : ℕ) (id : List UInt8) :
    sigSize codeSize id = frontSize id + codeSize ⌈/⌉ CS_PAGE_SIZE * CS_HASH_SIZE := by
  rw [← nHashes_eq]
  unfold sigSize frontSize
  dsimp only
  omega

theorem signAdhoc_split (sha256 : List UInt8 → Vector UInt8 32) (data : ℕ → UInt8)
    (id : List UInt8) (codeSize textOff textSize : ℕ) : ∃ front : List UInt8,
      front.length = frontSize id ∧ signAdhoc sha256 data id codeSize textOff textSize =
        front ++ (List.range (codeSize ⌈/⌉ CS_PAGE_SIZE)).flatMap fun i =>
          (sha256 (page data codeSize i)).toList := by
  rw [← nHashes_eq]
  have hpage : ∀ i, page data codeSize i = (List.range' (i * CS_PAGE_SIZE)
      (min (i * CS_PAGE_SIZE + CS_PAGE_SIZE) codeSize - i * CS_PAGE_SIZE)).map data := fun i => by
    rw [page, Nat.succ_mul]
  simp only [hpage]
  refine ⟨_, ?_, rfl⟩
  simp only [List.length_append, List.length_cons, List.length_nil, List.flatMap_cons,
    List.flatMap_nil, putBeU32, putBeU64, List.length_map, frontSize]
  omega

theorem signAdhoc_length : (signAdhoc sha256 data id codeSize textOff textSize).length =
    sigSize codeSize id := by
  obtain ⟨front, hfront, heq⟩ := signAdhoc_split sha256 data id codeSize textOff textSize
  rw [heq, List.length_append, List.length_flatMap, hfront, sigSize_eq]
  simp [CS_HASH_SIZE]

theorem signAdhoc_slot (hi : i < codeSize ⌈/⌉ CS_PAGE_SIZE) :
    ((signAdhoc sha256 data id codeSize textOff textSize).drop
      (frontSize id + i * CS_HASH_SIZE)).take CS_HASH_SIZE =
      (sha256 (page data codeSize i)).toList := by
  obtain ⟨front, hfront, heq⟩ := signAdhoc_split sha256 data id codeSize textOff textSize
  have hblock : ∀ i ∈ List.range (codeSize ⌈/⌉ CS_PAGE_SIZE),
      (sha256 (page data codeSize i)).toList.length = CS_HASH_SIZE := fun _ _ => Vector.length_toList
  rw [heq, ← hfront, ← List.drop_drop, List.drop_left, ← Records.record,
    Records.record_flatMap hblock (by rwa [List.length_range]), List.get_eq_getElem,
    List.getElem_range]

theorem extend_tail {tail : List UInt8} (hi : i < tail.length) :
    (Plan.extend out tail).byte (out.size + i) = tail.getD i 0 := by
  have hpaste : paste out.byte (fun i => tail.getD i 0) out.size 0 tail.length (out.size + i) =
      tail.getD (0 + i) 0 := paste_inside hi
  rwa [Nat.zero_add] at hpaste

theorem extend_drop {tail : List UInt8} (h : pos + k ≤ tail.length) :
    (List.range k).map (fun i => (Plan.extend out tail).byte (out.size + (pos + i))) =
      (tail.drop pos).take k := by
  refine List.ext_getElem ?_ fun i hi hi' => ?_
  · rw [List.length_map, List.length_range, List.length_take, List.length_drop]
    omega
  · rw [List.length_map, List.length_range] at hi
    rw [List.getElem_map, List.getElem_range, extend_tail (by omega), List.getElem_take,
      List.getElem_drop, List.getD_eq_getElem]

theorem extend_be32 {tail : List UInt8} (hpos : pos + 4 ≤ tail.length)
    (h : ∀ k < 4, tail.getD (pos + k) 0 = (putBeU32 v).getD k 0) :
    (Plan.extend out tail).be32 (out.size + pos) = v % 2 ^ 32 := by
  refine be32_eq fun k hk => ?_
  rw [Nat.add_assoc, extend_tail (by omega)]
  exact h k hk

theorem page_congr {data' : ℕ → UInt8} (h : ∀ j < codeSize, data j = data' j) :
    page data codeSize i = page data' codeSize i := by
  refine List.map_congr_left fun j hj => h j ?_
  have := List.mem_range'_1.mp hj
  omega

theorem ceilDiv_lt (h : codeSize < 2 ^ 32) : codeSize ⌈/⌉ CS_PAGE_SIZE ≤ 2 ^ 20 := by
  refine (ceilDiv_le_iff_le_mul (by decide)).mpr ?_
  unfold CS_PAGE_SIZE
  omega

theorem identifier_front : frontSize Plan.identifier = 113 := by decide

def attach (sha256 : List UInt8 → Vector UInt8 32) (out : Image) (textSize : ℕ) : Image :=
  Plan.extend out (signAdhoc sha256 out.byte Plan.identifier out.size 0 textSize)

theorem attach_size : (attach sha256 out textSize).size = out.size + sigSize out.size Plan.identifier := by
  rw [← signAdhoc_length]
  rfl

theorem attach_be32 (hpos : pos + 4 ≤ 113) (hv : v < 2 ^ 32)
    (h : ∀ k < 4, (signAdhoc sha256 out.byte Plan.identifier out.size 0 textSize).getD (pos + k) 0 =
      (putBeU32 v).getD k 0) : (attach sha256 out textSize).be32 (out.size + pos) = v := by
  have hlength := sigSize_eq out.size Plan.identifier
  rw [identifier_front] at hlength
  exact (extend_be32 (by rw [signAdhoc_length]; omega) h).trans (Nat.mod_eq_of_lt hv)

theorem attach_directory (hsize : out.size < 2 ^ 32) : readDirectory (attach sha256 out textSize) out.size =
    ⟨out.size + 20, 93, out.size ⌈/⌉ CS_PAGE_SIZE, out.size⟩ := by
  have hceil := ceilDiv_lt hsize
  have hstart : (attach sha256 out textSize).be32 (out.size + 16) = 20 :=
    attach_be32 (by omega) (by omega) fun k hk => by interval_cases k <;> rfl
  have hhash : (attach sha256 out textSize).be32 (out.size + 36) = 93 :=
    attach_be32 (by omega) (by omega) fun k hk => by interval_cases k <;> rfl
  have hslots : (attach sha256 out textSize).be32 (out.size + 48) = out.size ⌈/⌉ CS_PAGE_SIZE :=
    attach_be32 (by omega) (by omega) fun k hk => by interval_cases k <;> rfl
  have hlimit : (attach sha256 out textSize).be32 (out.size + 52) = out.size :=
    attach_be32 (by omega) hsize fun k hk => by interval_cases k <;> rfl
  unfold readDirectory
  dsimp only
  rw [hstart, Nat.add_assoc, Nat.add_assoc, Nat.add_assoc, hhash, hslots, hlimit]

theorem attach_slot (hi : i < out.size ⌈/⌉ CS_PAGE_SIZE) :
    readSlot (attach sha256 out textSize) ⟨out.size + 20, 93, out.size ⌈/⌉ CS_PAGE_SIZE, out.size⟩ i =
      (sha256 (page out.byte out.size i)).toList := by
  have hslot : ((signAdhoc sha256 out.byte Plan.identifier out.size 0 textSize).drop
      (113 + i * CS_HASH_SIZE)).take CS_HASH_SIZE = (sha256 (page out.byte out.size i)).toList := by
    rw [← identifier_front]
    exact signAdhoc_slot hi
  have hroom : 113 + i * CS_HASH_SIZE + CS_HASH_SIZE ≤ sigSize out.size Plan.identifier := by
    have hle : (i + 1) * CS_HASH_SIZE ≤ out.size ⌈/⌉ CS_PAGE_SIZE * CS_HASH_SIZE :=
      Nat.mul_le_mul_right _ hi
    rw [Nat.succ_mul] at hle
    rw [sigSize_eq, identifier_front]
    omega
  rw [← hslot, ← extend_drop (hroom.trans_eq signAdhoc_length.symm)]
  refine List.map_congr_left fun k _ => ?_
  rw [Nat.add_assoc, Nat.add_assoc, ← Nat.add_assoc 20 93, ← Nat.add_assoc 113]
  rfl

theorem sigSize_lt (h : codeSize < 2 ^ 32) :
    sigSize codeSize Plan.identifier < 2 ^ 32 := by
  have hceil := ceilDiv_lt h
  rw [sigSize_eq, identifier_front]
  unfold CS_HASH_SIZE
  omega

theorem attach_signed (hsize : out.size < 2 ^ 32) :
    Signed sha256 (attach sha256 out textSize) out.size := by
  have hlength := sigSize_lt hsize
  have hmagic : (attach sha256 out textSize).be32 (out.size + 0) = CSMAGIC_EMBEDDED_SIGNATURE :=
    attach_be32 (by omega) (by decide) fun k hk => by interval_cases k <;> rfl
  constructor
  case magic => exact hmagic
  case length => exact attach_be32 (by omega) hlength fun k hk => by interval_cases k <;> rfl
  case directory =>
    rw [attach_directory hsize]
    exact attach_be32 (by omega) (by decide) fun k hk => by interval_cases k <;> rfl
  case limit => rw [attach_directory hsize]
  case slots => rw [attach_directory hsize]
  case hashes =>
    rw [attach_directory hsize]
    intro i hi
    rw [attach_slot hi, page_congr fun j hj => (extend_below _ hj).symm]
    rfl

end Ltop.MacPack
