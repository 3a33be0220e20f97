import Mathlib
import Ltop.Bytes
import Ltop.Library.Leb128
import Ltop.Library.LittleEndian

namespace Ltop.StackSvg

open Leb128 (Terminated)

structure Shdr where
  name : List UInt8
  data : List UInt8

def u64le (b : List UInt8) : UInt64 := (LittleEndian.load (fun i => b.getD i 0) 0 8).toUInt64

def readSize (size : UInt64) (shift : ℕ) : List UInt8 → Option (UInt64 × List UInt8)
  | [] => none
  | b :: data =>
    let size := size ||| (b &&& 0x7f).toUInt64 <<< shift.toUInt64
    if b &&& 0x80 = 0 then some (size, data)
    else if shift + 7 ≥ 64 then none else readSize size (shift + 7) data

theorem high_bit (b : UInt8) : b &&& 0x80 = 0 ↔ b.toNat < 128 := by
  have hbyte := b.toNat_lt
  have hand : (b &&& 0x80).toNat = (b.toNat.testBit 7).toNat * 2 ^ 7 := by
    rw [UInt8.toNat_and]
    exact Nat.and_two_pow _ 7
  rw [← UInt8.toNat_inj, hand, Nat.testBit_eq_decide_div_mod_eq]
  by_cases h : b.toNat < 128
  · simp [h, Nat.div_eq_of_lt h]
  · have hone : b.toNat / 128 % 2 = 1 := by omega
    simp [h, hone]

theorem readSize_rest {size v : UInt64} {shift : ℕ} {data rest : List UInt8} (hs : shift ≤ 63)
    (h : readSize size shift data = some (v, rest)) :
    ∃ g, data = g ++ rest ∧ Terminated g ∧ shift + 7 * g.length ≤ 70 := by
  induction data generalizing size shift with
  | nil => cases h
  | cons b data ih =>
    rw [readSize] at h
    by_cases hb : b &&& 0x80 = 0
    · rw [if_pos hb] at h
      obtain ⟨-, rfl⟩ := Prod.mk.inj (Option.some.inj h)
      refine ⟨[b], rfl, (high_bit b).mp hb, ?_⟩
      rw [List.length_singleton]
      omega
    · rw [if_neg hb] at h
      by_cases hend : shift + 7 ≥ 64
      · rw [if_pos hend] at h
        cases h
      · rw [if_neg hend] at h
        obtain ⟨g, rfl, hg, hlen⟩ := ih (by omega) h
        refine ⟨b :: g, rfl, ?_, ?_⟩
        · exact (Leb128.terminated_cons (Nat.not_lt.mp (mt (high_bit b).mpr hb))).mpr hg
        · rw [List.length_cons]
          omega

def stackSizesLoop (out : UInt64 → Option UInt64) (data : List UInt8) : UInt64 → Option UInt64 :=
  if data.length < 8 then out
  else
    match _h : readSize 0 0 (data.drop 8) with
    | none => out
    | some (size, rest) => stackSizesLoop (Function.update out (u64le data) (some size)) rest
termination_by data.length
decreasing_by
  obtain ⟨g, hg, _, -⟩ := readSize_rest (Nat.zero_le 63) _h
  have hlen := congrArg List.length hg
  rw [List.length_drop, List.length_append] at hlen
  omega

def sectionData (sections : List Shdr) : List UInt8 :=
  ((sections.find? fun s => s.name = bytes ".stack_sizes").map Shdr.data).getD []

def parseStackSizes (sections : List Shdr) : UInt64 → Option UInt64 :=
  match sections.find? fun s => s.name = bytes ".stack_sizes" with
  | none => fun _ => none
  | some s => stackSizesLoop (fun _ => none) s.data

structure Entry where
  address : UInt64
  groups : List UInt8
  terminated : Terminated groups
  short : groups.length ≤ 10

def addressBytes (a : UInt64) : List UInt8 :=
  (List.range 8).map fun i => (a.toNat / 256 ^ i).toUInt8

namespace Entry

def bytes (e : Entry) : List UInt8 := addressBytes e.address ++ e.groups

def size (e : Entry) : UInt64 := (Leb128.value e.groups).toUInt64

end Entry

def lookup (es : List Entry) (a : UInt64) : Option UInt64 :=
  (es.filter fun e => e.address = a).getLast?.map Entry.size

variable {out : UInt64 → Option UInt64} {data tail : List UInt8} {es : List Entry} {s j k p : ℕ}

theorem or_shift (hs : s < 2 ^ j) (hj : j < 64) {x : UInt64} (hx : x.toNat = p) :
    s.toUInt64 ||| x <<< j.toUInt64 = (s + 2 ^ j * p).toUInt64 := by
  have hword : (2 : ℕ) ^ 64 = 2 ^ j * 2 ^ (64 - j) := by
    rw [← Nat.pow_add, Nat.add_sub_cancel' hj.le]
  have hfit : s < 2 ^ 64 := hs.trans (Nat.pow_lt_pow_right (by decide) hj)
  have hshift : (x <<< j.toUInt64).toNat = 2 ^ j * (p % 2 ^ (64 - j)) := by
    have hj64 : j.toUInt64.toNat % 64 = j := by
      rw [UInt64.toNat_ofNat']
      omega
    rw [UInt64.toNat_shiftLeft, hj64, hx, Nat.shiftLeft_eq, Nat.mul_comm, hword,
      Nat.mul_mod_mul_left]
  refine UInt64.toNat_inj.mp ?_
  rw [UInt64.toNat_or, hshift, UInt64.toNat_ofNat', UInt64.toNat_ofNat', Nat.mod_eq_of_lt hfit,
    Nat.or_comm, ← Nat.two_pow_add_eq_or_of_lt hs, hword, Nat.mod_mul, Nat.add_mul_mod_self_left,
    Nat.mod_eq_of_lt hs, Nat.add_mul_div_left _ _ (Nat.two_pow_pos j), Nat.div_eq_of_lt hs,
    Nat.zero_add, Nat.add_comm]

theorem low_bits (b : UInt8) : (b &&& 0x7f).toUInt64.toNat = b.toNat % 128 := by
  rw [UInt8.toNat_toUInt64, UInt8.toNat_and]
  exact Nat.and_two_pow_sub_one_eq_mod _ 7

theorem readSize_group {g rest : List UInt8} (hg : Terminated g) (hs : s < 2 ^ (7 * k))
    (hk : k + g.length ≤ 10) : readSize s.toUInt64 (7 * k) (g ++ rest) =
      some ((s + 2 ^ (7 * k) * Leb128.value g).toUInt64, rest) := by
  induction g generalizing k s with
  | nil => cases hg
  | cons b g ih =>
    rw [List.length_cons] at hk
    have hj : 7 * k < 64 := by omega
    rw [List.cons_append, readSize, or_shift hs hj (low_bits b), Leb128.value]
    by_cases hb : b.toNat < 128
    · obtain rfl := (Leb128.terminated_last hb).mp hg
      simp [(high_bit b).mpr hb, Leb128.value]
    · have hrest := (Leb128.terminated_cons (Nat.not_lt.mp hb)).mp hg
      have hne : g ≠ [] := by
        rintro rfl
        cases hrest
      have hpos := List.length_pos_iff.mpr hne
      have hnext : s + 2 ^ (7 * k) * (b.toNat % 128) < 2 ^ (7 * (k + 1)) := by
        have hgroup : b.toNat % 128 + 1 ≤ 128 := Nat.mod_lt _ (by decide)
        have hroom := Nat.mul_le_mul_left (2 ^ (7 * k)) hgroup
        rw [Nat.mul_succ] at hroom
        rw [Nat.mul_succ 7 k, Nat.pow_add]
        exact (Nat.add_comm _ _).trans_lt ((Nat.add_lt_add_left hs _).trans_le hroom)
      have hvalue : s + 2 ^ (7 * k) * (b.toNat % 128 + 128 * Leb128.value g) =
          s + 2 ^ (7 * k) * (b.toNat % 128) + 2 ^ (7 * (k + 1)) * Leb128.value g := by
        rw [Nat.mul_succ 7 k, Nat.pow_add]
        ring
      rw [if_neg (mt (high_bit b).mp hb), if_neg (by omega), hvalue]
      exact ih hrest hnext (by omega)

theorem addressBytes_length (a : UInt64) : (addressBytes a).length = 8 := by
  rw [addressBytes, List.length_map, List.length_range]

theorem u64le_address (a : UInt64) (rest : List UInt8) : u64le (addressBytes a ++ rest) = a := by
  have hload : LittleEndian.load (fun i => (addressBytes a ++ rest).getD i 0) 0 8 =
      a.toNat % 256 ^ 8 := by
    refine LittleEndian.load_digits fun i hi => ?_
    rw [Nat.zero_add, List.getD_append _ _ _ _ ((addressBytes_length a).symm ▸ hi), addressBytes,
      List.getD_eq_getElem?_getD, List.getElem?_map, List.getElem?_range hi]
    rfl
  rw [u64le, hload, Nat.mod_eq_of_lt (show a.toNat < 256 ^ 8 from a.toNat_lt)]
  exact UInt64.ofNat_toNat

theorem address_u64le (h : 8 ≤ data.length) : addressBytes (u64le data) = data.take 8 := by
  have hload := LittleEndian.load_lt (fun i => data.getD i 0) 0 8
  have hword : (u64le data).toNat = LittleEndian.load (fun i => data.getD i 0) 0 8 :=
    UInt64.toNat_ofNat'.trans (Nat.mod_eq_of_lt hload)
  refine List.ext_getElem (by rw [addressBytes_length, List.length_take]; omega) fun i hi _ => ?_
  rw [addressBytes_length] at hi
  have hdigit := LittleEndian.load_digit (fun i => data.getD i 0) 0 hi
  rw [Nat.zero_add, List.getD_eq_getElem _ _ (by omega)] at hdigit
  refine UInt8.toNat_inj.mp ?_
  simp only [addressBytes, List.getElem_map, List.getElem_range, List.getElem_take, hword]
  exact UInt8.toNat_ofNat'.trans hdigit

theorem stackSizesLoop_entry (out : UInt64 → Option UInt64) (e : Entry) (rest : List UInt8) :
    stackSizesLoop out (e.bytes ++ rest) =
      stackSizesLoop (Function.update out e.address (some e.size)) rest := by
  have hlen := addressBytes_length e.address
  have hlong : ¬ (e.bytes ++ rest).length < 8 := by
    rw [Entry.bytes, List.length_append, List.length_append, hlen]
    omega
  have hdrop : (e.bytes ++ rest).drop 8 = e.groups ++ rest := by
    rw [Entry.bytes, List.append_assoc]
    exact List.drop_left' hlen
  have haddr : u64le (e.bytes ++ rest) = e.address := by
    rw [Entry.bytes, List.append_assoc]
    exact u64le_address _ _
  have hread : readSize 0 0 (e.groups ++ rest) = some (e.size, rest) := by
    have hgroup : readSize (Nat.toUInt64 0) (7 * 0) (e.groups ++ rest) =
        some ((0 + 2 ^ (7 * 0) * Leb128.value e.groups).toUInt64, rest) :=
      readSize_group e.terminated Nat.one_pos ((Nat.zero_add _).trans_le e.short)
    rwa [Nat.zero_add, Nat.mul_zero, Nat.pow_zero, Nat.one_mul] at hgroup
  rw [stackSizesLoop, if_neg hlong, haddr]
  split
  · rename_i hnone
    rw [hdrop, hread] at hnone
    cases hnone
  · rename_i size rest' hsome
    rw [hdrop, hread] at hsome
    obtain ⟨rfl, rfl⟩ := Prod.mk.inj (Option.some.inj hsome)
    rfl

theorem stackSizesLoop_tail (h : ∀ e : Entry, ¬ e.bytes <+: tail) :
    stackSizesLoop out tail = out := by
  rw [stackSizesLoop]
  split
  · rfl
  · rename_i hlong
    split
    · rfl
    · rename_i size rest hsome
      obtain ⟨g, hg, hterm, hlen⟩ := readSize_rest (Nat.zero_le 63) hsome
      refine absurd ⟨rest, ?_⟩ (h ⟨u64le tail, g, hterm, by omega⟩)
      rw [Entry.bytes, address_u64le (Nat.not_lt.mp hlong), List.append_assoc, ← hg,
        List.take_append_drop]

theorem lookup_cons (e : Entry) (es : List Entry) (a : UInt64) : lookup (e :: es) a =
    (lookup es a).or (if e.address = a then some e.size else none) := by
  by_cases he : e.address = a
  · rw [lookup, List.filter_cons_of_pos (by simpa using he), if_pos he, List.getLast?_cons, lookup]
    cases (es.filter fun e => e.address = a).getLast? <;> rfl
  · rw [lookup, List.filter_cons_of_neg (by simpa using he), if_neg he, Option.or_none, lookup]

theorem stackSizesLoop_entries (h : ∀ e : Entry, ¬ e.bytes <+: tail) (a : UInt64) :
    stackSizesLoop out (es.flatMap Entry.bytes ++ tail) a = (lookup es a).or (out a) := by
  induction es generalizing out with
  | nil =>
    rw [List.flatMap_nil, List.nil_append, stackSizesLoop_tail h]
    rfl
  | cons e es ih =>
    rw [List.flatMap_cons, List.append_assoc, stackSizesLoop_entry, ih, lookup_cons, Option.or_assoc]
    by_cases he : e.address = a
    · rw [← he, Function.update_self, if_pos rfl, Option.some_or]
    · rw [Function.update_of_ne (Ne.symm he), if_neg he, Option.none_or]

theorem entries_exist (data : List UInt8) : ∃ es : List Entry, ∃ tail,
    data = es.flatMap Entry.bytes ++ tail ∧ ∀ e : Entry, ¬ e.bytes <+: tail := by
  induction hn : data.length using Nat.strong_induction_on generalizing data with
  | _ n ih =>
    by_cases h : ∃ e : Entry, e.bytes <+: data
    · obtain ⟨e, rest, rfl⟩ := h
      have hlen := addressBytes_length e.address
      rw [Entry.bytes, List.length_append, List.length_append, hlen] at hn
      obtain ⟨es, tail, rfl, htail⟩ := ih rest.length (by omega) rest rfl
      exact ⟨e :: es, tail, by rw [List.flatMap_cons, List.append_assoc], htail⟩
    · exact ⟨[], data, rfl, not_exists.mp h⟩

theorem no_entry (e : Entry) : ¬ e.bytes <+: [] := by
  intro h
  have hnil := List.prefix_nil.mp h
  rw [Entry.bytes, addressBytes] at hnil
  simp at hnil

theorem parseStackSizes_data (sections : List Shdr) :
    parseStackSizes sections = stackSizesLoop (fun _ => none) (sectionData sections) := by
  rw [parseStackSizes, sectionData]
  cases sections.find? fun s => s.name = bytes ".stack_sizes" with
  | none => exact (stackSizesLoop_tail no_entry).symm
  | some s => rfl

def written (entry : UInt64 × UInt64) : List UInt8 :=
  addressBytes entry.1 ++ Leb128.encode entry.2.toNat

def Entry.of (entry : UInt64 × UInt64) : Entry :=
  ⟨entry.1, Leb128.encode entry.2.toNat, Leb128.encode_terminated _,
    Leb128.encode_length (k := 9) (entry.2.toNat_lt.trans (by decide))⟩

theorem lookup_of (entries : List (UInt64 × UInt64)) (a : UInt64) :
    lookup (entries.map Entry.of) a = (entries.filter fun e => e.1 = a).getLast?.map (·.2) := by
  have hsize : ∀ entry : UInt64 × UInt64, (Entry.of entry).size = entry.2 := by
    intro entry
    rw [Entry.size, Entry.of, Leb128.value_encode]
    exact UInt64.ofNat_toNat
  have hmatch : (fun e : Entry => decide (e.address = a)) ∘ Entry.of =
      fun entry => decide (entry.1 = a) := rfl
  rw [lookup, List.filter_map, hmatch, List.getLast?_map, Option.map_map]
  exact congrArg (Option.map · _) (funext hsize)

theorem parseStackSizes_table (sections : List Shdr) :
    (∃ es : List Entry, ∃ tail, sectionData sections = es.flatMap Entry.bytes ++ tail ∧
      (∀ e : Entry, ¬ e.bytes <+: tail) ∧ ∀ a, parseStackSizes sections a = lookup es a) ∧
    ∀ (entries : List (UInt64 × UInt64)) a,
      parseStackSizes (⟨bytes ".stack_sizes", entries.flatMap written⟩ :: sections) a =
        (entries.filter fun e => e.1 = a).getLast?.map (·.2) := by
  constructor
  · obtain ⟨es, tail, hdata, htail⟩ := entries_exist (sectionData sections)
    refine ⟨es, tail, hdata, htail, fun a => ?_⟩
    rw [parseStackSizes_data, hdata, stackSizesLoop_entries htail, Option.or_none]
  · intro entries a
    have hdata : sectionData (⟨bytes ".stack_sizes", entries.flatMap written⟩ :: sections) =
        (entries.map Entry.of).flatMap Entry.bytes ++ [] := by
      rw [sectionData, List.find?_cons_of_pos (by simp), List.append_nil, List.flatMap_map]
      rfl
    rw [parseStackSizes_data, hdata, stackSizesLoop_entries no_entry, Option.or_none, lookup_of]

end Ltop.StackSvg
