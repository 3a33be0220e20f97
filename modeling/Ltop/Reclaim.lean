import Mathlib
import Ltop.Arena

namespace Ltop.Reclaim

open Arena (SIZE)

structure Region where
  priAddress : UInt64
  priSize : UInt64
deriving DecidableEq

namespace Region

def stop (r : Region) : UInt64 := r.priAddress + r.priSize

def Holds (r : Region) (a : ℕ) : Prop :=
  r.priAddress.toNat ≤ a ∧ a < r.priAddress.toNat + r.priSize.toNat

structure Valid (r : Region) : Prop where
  nonempty : 0 < r.priSize.toNat
  fits : r.priAddress.toNat + r.priSize.toNat < 2 ^ 64

end Region

def Before (r s : Region) : Prop := r.priAddress.toNat + r.priSize.toNat ≤ s.priAddress.toNat

instance : DecidableRel Before := fun r s =>
  inferInstanceAs (Decidable (r.priAddress.toNat + r.priSize.toNat ≤ s.priAddress.toNat))

structure AddressMap where
  regions : List Region
  valid : ∀ r ∈ regions, r.Valid
  ordered : regions.Pairwise Before

structure Process where
  arenaPtr : UInt64
  code : UInt64
  vmDeallocate : UInt64 → UInt64 → Int32
  arena_fits : arenaPtr.toNat + SIZE < 2 ^ 64

def HUGE : UInt64 := 32 * 1024 * 1024

def ROUNDS : ℕ := 256

def procRegionInfo (m : List Region) (addr : UInt64) : Option Region :=
  m.find? fun r => addr < r.stop

def unmapped (m : List Region) (addr size : UInt64) : List Region :=
  m.filter fun r => r.stop ≤ addr ∨ addr + size ≤ r.priAddress

variable (p : Process)

def keep (stack : UInt64) (r : Region) : Bool :=
  let contains := fun a => r.priAddress ≤ a && a < r.stop
  let overlaps := fun lo hi => lo < r.stop && r.priAddress < hi
  overlaps p.arenaPtr (p.arenaPtr + SIZE.toUInt64) || contains p.code || contains stack ||
    r.priSize ≥ HUGE

def unmapLoop (stack : UInt64) : ℕ → List Region → UInt64 → UInt64 → List Region × UInt64
  | 0, m, _, total => (m, total)
  | n + 1, m, addr, total =>
    match procRegionInfo m addr with
    | none => (m, total)
    | some info =>
      let next := info.priAddress + info.priSize
      if keep p stack info then unmapLoop stack n m next total
      else if p.vmDeallocate info.priAddress info.priSize = 0 then
        unmapLoop stack n (unmapped m info.priAddress info.priSize) next (total + info.priSize)
      else unmapLoop stack n m next total

def unmapIdleState (stack : UInt64) (m : List Region) : List Region × UInt64 :=
  unmapLoop p stack ROUNDS m 0 0

def regionContaining (m : List Region) (addr : UInt64) : Option (UInt64 × UInt64) :=
  match procRegionInfo m addr with
  | none => none
  | some info =>
    if addr < info.priAddress || addr ≥ info.stop then none
    else some (info.priAddress, info.stop)

def startup (m : List Region) (sp pushed : UInt64) : List Region × UInt64 :=
  match regionContaining m sp with
  | some (_, hi) => unmapIdleState p (hi - 16 - pushed) m
  | none => unmapIdleState p sp m

def released (stack : UInt64) (r : Region) : Bool :=
  !keep p stack r && p.vmDeallocate r.priAddress r.priSize == 0

def sizes (m : List Region) : ℕ := (m.map fun r => r.priSize.toNat).sum

variable {p} {stack addr total : UInt64} {r : Region} {m done rest : List Region} {n a : ℕ}

theorem Region.Valid.stop_toNat (h : r.Valid) :
    r.stop.toNat = r.priAddress.toNat + r.priSize.toNat := by
  rw [Region.stop, UInt64.toNat_add]
  exact Nat.mod_eq_of_lt h.fits

theorem sizes_fit (hv : ∀ r ∈ m, r.Valid) (ho : m.Pairwise Before)
    (ha : ∀ r ∈ m, a ≤ r.priAddress.toNat) (hlt : a < 2 ^ 64) : a + sizes m < 2 ^ 64 := by
  induction m generalizing a with
  | nil => exact hlt
  | cons r m ih =>
    obtain ⟨hr, hv⟩ := List.forall_mem_cons.mp hv
    obtain ⟨hfirst, ho⟩ := List.pairwise_cons.mp ho
    have hstart := ha r List.mem_cons_self
    have hrest := ih hv ho hfirst hr.fits
    rw [sizes, List.map_cons, List.sum_cons]
    rw [sizes] at hrest
    omega

theorem procRegionInfo_append (hdone : ∀ r ∈ done, r.stop ≤ addr)
    (hrest : ∀ r ∈ rest, r.Valid ∧ addr.toNat ≤ r.priAddress.toNat) :
    procRegionInfo (done ++ rest) addr = rest.head? := by
  have hpast : done.find? (fun r => addr < r.stop) = none := by
    rw [List.find?_eq_none]
    intro r hr
    simpa using hdone r hr
  rw [procRegionInfo, List.find?_append, hpast, Option.none_or]
  cases rest with
  | nil => rfl
  | cons r rest =>
    obtain ⟨hv, hle⟩ := hrest r List.mem_cons_self
    have hlt : addr < r.stop := by
      rw [UInt64.lt_iff_toNat_lt, hv.stop_toNat]
      have := hv.nonempty
      omega
    rw [List.find?_cons_of_pos (by simpa using hlt), List.head?_cons]

theorem unmapped_append (hr : r.Valid) (hdone : ∀ s ∈ done, s.stop ≤ r.priAddress)
    (hrest : ∀ s ∈ rest, Before r s) :
    unmapped (done ++ r :: rest) r.priAddress r.priSize = done ++ rest := by
  have hself : ¬(r.stop ≤ r.priAddress ∨ r.priAddress + r.priSize ≤ r.priAddress) := by
    have hstop := hr.stop_toNat
    have := hr.nonempty
    rw [show r.priAddress + r.priSize = r.stop from rfl, or_self_iff, UInt64.le_iff_toNat_le,
      hstop]
    omega
  have hlater : ∀ s ∈ rest, r.priAddress + r.priSize ≤ s.priAddress := by
    intro s hs
    have hstop : (r.priAddress + r.priSize).toNat = _ := hr.stop_toNat
    rw [UInt64.le_iff_toNat_le, hstop]
    exact hrest s hs
  rw [unmapped, List.filter_append, List.filter_cons_of_neg (by simpa using hself),
    List.filter_eq_self.mpr fun s hs => by simp [hdone s hs],
    List.filter_eq_self.mpr fun s hs => by simp [hlater s hs]]

theorem unmapLoop_stay (hinfo : procRegionInfo m addr = some r) (h : released p stack r = false) :
    unmapLoop p stack (n + 1) m addr total = unmapLoop p stack n m r.stop total := by
  rw [unmapLoop, hinfo]
  dsimp only
  by_cases hk : keep p stack r = true
  · rw [if_pos hk]
    rfl
  · have hrefused : ¬ p.vmDeallocate r.priAddress r.priSize = 0 := by
      simpa [released, hk] using h
    rw [if_neg hk, if_neg hrefused]
    rfl

theorem unmapLoop_release (hinfo : procRegionInfo m addr = some r) (h : released p stack r = true) :
    unmapLoop p stack (n + 1) m addr total =
      unmapLoop p stack n (unmapped m r.priAddress r.priSize) r.stop (total + r.priSize) := by
  simp only [released, Bool.and_eq_true, Bool.not_eq_true', beq_iff_eq] at h
  rw [unmapLoop, hinfo]
  dsimp only
  rw [if_neg (Bool.eq_false_iff.mp h.1), if_pos h.2]
  rfl

theorem unmapLoop_end (hinfo : procRegionInfo m addr = none) (n : ℕ) :
    unmapLoop p stack n m addr total = (m, total) := by
  cases n with
  | zero => rfl
  | succ n => rw [unmapLoop, hinfo]

theorem sizes_cons (r : Region) (m : List Region) : sizes (r :: m) = r.priSize.toNat + sizes m := by
  rw [sizes, List.map_cons, List.sum_cons, sizes]

theorem unmapLoop_eq (hv : ∀ r ∈ rest, r.Valid) (ho : rest.Pairwise Before)
    (hdone : ∀ r ∈ done, r.stop ≤ addr) (hrest : ∀ r ∈ rest, addr.toNat ≤ r.priAddress.toNat)
    (hsum : total.toNat + sizes rest < 2 ^ 64) :
    (unmapLoop p stack n (done ++ rest) addr total).1 =
        done ++ ((rest.take n).filter (!released p stack ·) ++ rest.drop n) ∧
      (unmapLoop p stack n (done ++ rest) addr total).2.toNat =
        total.toNat + sizes ((rest.take n).filter (released p stack)) := by
  induction n generalizing done rest addr total with
  | zero => simp [unmapLoop, sizes]
  | succ n ih =>
    have hinfo := procRegionInfo_append hdone fun r hr => ⟨hv r hr, hrest r hr⟩
    cases rest with
    | nil =>
      rw [unmapLoop_end hinfo]
      simp [sizes]
    | cons r rest =>
      obtain ⟨hr, hv⟩ := List.forall_mem_cons.mp hv
      obtain ⟨hfirst, ho⟩ := List.pairwise_cons.mp ho
      have hstop := hr.stop_toNat
      have hle : addr ≤ r.priAddress :=
        UInt64.le_iff_toNat_le.mpr (hrest r List.mem_cons_self)
      have hgrow : r.priAddress ≤ r.stop :=
        UInt64.le_iff_toNat_le.mpr (hstop ▸ Nat.le_add_right _ _)
      have hnext : ∀ s ∈ rest, r.stop.toNat ≤ s.priAddress.toNat := fun s hs =>
        hstop ▸ hfirst s hs
      have hpast : ∀ s ∈ done, s.stop ≤ r.stop := fun s hs =>
        UInt64.le_trans (UInt64.le_trans (hdone s hs) hle) hgrow
      rw [sizes_cons] at hsum
      rw [List.take_succ_cons, List.drop_succ_cons]
      cases hrel : released p stack r with
      | false =>
        rw [unmapLoop_stay hinfo hrel, List.filter_cons_of_pos (by simp [hrel]),
          List.filter_cons_of_neg (by simp [hrel]), List.cons_append,
          List.append_cons done r rest, List.append_cons done r (_ ++ _)]
        refine ih hv ho (List.forall_mem_append.mpr ⟨hpast, ?_⟩) hnext ?_
        · simp
        · omega
      | true =>
        have hadd : (total + r.priSize).toNat = total.toNat + r.priSize.toNat := by
          rw [UInt64.toNat_add]
          exact Nat.mod_eq_of_lt (by omega)
        rw [unmapLoop_release hinfo hrel, List.filter_cons_of_neg (by simp [hrel]),
          List.filter_cons_of_pos hrel, sizes_cons, ← Nat.add_assoc, ← hadd,
          unmapped_append hr (fun s hs => UInt64.le_trans (hdone s hs) hle) hfirst]
        exact ih hv ho hpast hnext (by omega)

def Anchored (p : Process) (stack : UInt64) (r : Region) : Prop :=
  (∃ a, p.arenaPtr.toNat ≤ a ∧ a < p.arenaPtr.toNat + SIZE ∧ r.Holds a) ∨
    r.Holds p.code.toNat ∨ r.Holds stack.toNat ∨ HUGE.toNat ≤ r.priSize.toNat

theorem holds_iff (hr : r.Valid) (a : UInt64) :
    (decide (r.priAddress ≤ a) && decide (a < r.stop)) = true ↔ r.Holds a.toNat := by
  rw [Bool.and_eq_true, decide_eq_true_iff, decide_eq_true_iff, UInt64.le_iff_toNat_le,
    UInt64.lt_iff_toNat_lt, hr.stop_toNat, Region.Holds]

theorem keep_iff (hr : r.Valid) : keep p stack r = true ↔ Anchored p stack r := by
  have harena : (p.arenaPtr + SIZE.toUInt64).toNat = p.arenaPtr.toNat + SIZE := by
    rw [UInt64.toNat_add]
    exact Nat.mod_eq_of_lt p.arena_fits
  have hoverlap : (decide (p.arenaPtr < r.stop) &&
      decide (r.priAddress < p.arenaPtr + SIZE.toUInt64)) = true ↔
      ∃ a, p.arenaPtr.toNat ≤ a ∧ a < p.arenaPtr.toNat + SIZE ∧ r.Holds a := by
    have hsize : 0 < SIZE := by decide
    have hne := hr.nonempty
    rw [Bool.and_eq_true, decide_eq_true_iff, decide_eq_true_iff, UInt64.lt_iff_toNat_lt,
      UInt64.lt_iff_toNat_lt, hr.stop_toNat, harena]
    constructor
    · rintro ⟨hlo, hhi⟩
      refine ⟨max p.arenaPtr.toNat r.priAddress.toNat, le_max_left _ _, by omega, ?_, by omega⟩
      exact le_max_right _ _
    · rintro ⟨a, hlo, hhi, hstart, hstop⟩
      omega
  have hhuge : decide (r.priSize ≥ HUGE) = true ↔ HUGE.toNat ≤ r.priSize.toNat := by
    rw [decide_eq_true_iff, ge_iff_le, UInt64.le_iff_toNat_le]
  rw [keep, Bool.or_eq_true, Bool.or_eq_true, Bool.or_eq_true, hoverlap, holds_iff hr,
    holds_iff hr, hhuge, or_assoc, or_assoc, Anchored]

theorem sizes_filter (q : Region → Bool) (m : List Region) :
    sizes (m.filter q) + sizes (m.filter (!q ·)) = sizes m := by
  induction m with
  | nil => rfl
  | cons r m ih =>
    cases hq : q r with
    | false =>
      rw [List.filter_cons_of_neg (by simp [hq]), List.filter_cons_of_pos (by simp [hq]),
        sizes_cons, sizes_cons]
      omega
    | true =>
      rw [List.filter_cons_of_pos hq, List.filter_cons_of_neg (by simp [hq]), sizes_cons,
        sizes_cons]
      omega

theorem sizes_append (m m' : List Region) : sizes (m ++ m') = sizes m + sizes m' := by
  simp [sizes]

structure Reclaimed (p : Process) (stack : UInt64) (before after : List Region) (total : UInt64) :
    Prop where
  sublist : after.Sublist before
  mem : ∀ r, r ∈ after ↔ r ∈ before ∧ (Anchored p stack r ∨
    p.vmDeallocate r.priAddress r.priSize ≠ 0 ∨ r ∈ before.drop ROUNDS)
  total : total.toNat + sizes after = sizes before

theorem unmapIdleState_reclaimed (p : Process) (stack : UInt64) (m : AddressMap) :
    Reclaimed p stack m.regions (unmapIdleState p stack m.regions).1
      (unmapIdleState p stack m.regions).2 := by
  have hfit : 0 + sizes m.regions < 2 ^ 64 :=
    sizes_fit m.valid m.ordered (fun _ _ => Nat.zero_le _) (Nat.two_pow_pos 64)
  have hloop : (unmapIdleState p stack m.regions).1 =
      [] ++ ((m.regions.take ROUNDS).filter (!released p stack ·) ++ m.regions.drop ROUNDS) ∧
      (unmapIdleState p stack m.regions).2.toNat =
        (0 : UInt64).toNat + sizes ((m.regions.take ROUNDS).filter (released p stack)) :=
    unmapLoop_eq m.valid m.ordered (List.forall_mem_nil _) (fun _ _ => Nat.zero_le _) hfit
  obtain ⟨hregions, htotal⟩ := hloop
  rw [List.nil_append] at hregions
  rw [UInt64.toNat_zero, Nat.zero_add] at htotal
  have hsplit := List.take_append_drop ROUNDS m.regions
  have hkept : ∀ r ∈ m.regions, (!released p stack r) = true ↔
      Anchored p stack r ∨ p.vmDeallocate r.priAddress r.priSize ≠ 0 := by
    intro r hr
    rw [← keep_iff (m.valid r hr), released, Bool.not_and, Bool.not_not, Bool.or_eq_true,
      Bool.not_eq_true', beq_eq_false_iff_ne]
  refine ⟨?_, fun r => ?_, ?_⟩
  · rw [hregions]
    conv_rhs => rw [← hsplit]
    exact List.filter_sublist.append_right _
  · rw [hregions, List.mem_append, List.mem_filter, ← or_assoc]
    constructor
    · rintro (⟨htake, hfree⟩ | hdrop)
      · have hr := List.mem_of_mem_take htake
        exact ⟨hr, .inl ((hkept r hr).mp hfree)⟩
      · exact ⟨List.mem_of_mem_drop hdrop, .inr hdrop⟩
    · rintro ⟨hr, hfree | hdrop⟩
      · rw [← hsplit, List.mem_append] at hr
        refine hr.imp_left fun htake => ⟨htake, ?_⟩
        exact (hkept r (List.mem_of_mem_take htake)).mpr hfree
      · exact .inr hdrop
  · conv_rhs => rw [← hsplit]
    rw [hregions, htotal, sizes_append, sizes_append, ← Nat.add_assoc, sizes_filter]

theorem regionContaining_eq (m : AddressMap) {sp : UInt64} (hr : r ∈ m.regions)
    (hsp : r.Holds sp.toNat) : regionContaining m.regions sp = some (r.priAddress, r.stop) := by
  obtain ⟨done, rest, hsplit⟩ := List.append_of_mem hr
  have hv := m.valid r hr
  obtain ⟨hlo, hhi⟩ := (Bool.and_eq_true _ _).mp ((holds_iff hv sp).mpr hsp)
  have hinfo : procRegionInfo m.regions sp = some r := by
    rw [procRegionInfo, List.find?_eq_some_iff_append]
    refine ⟨hhi, done, rest, hsplit, fun s hs => ?_⟩
    have hbefore : Before s r := by
      have ho := m.ordered
      rw [hsplit, List.pairwise_append] at ho
      exact ho.2.2 s hs r List.mem_cons_self
    have hstop := (m.valid s (hsplit ▸ List.mem_append_left _ hs)).stop_toNat
    rw [Before, ← hstop] at hbefore
    have hnot : ¬ sp < s.stop := by
      rw [UInt64.lt_iff_toNat_lt]
      exact Nat.not_lt.mpr (hbefore.trans hsp.1)
    simpa using hnot
  have hin : ¬((decide (sp < r.priAddress) || decide (sp ≥ r.stop)) = true) := by
    rw [Bool.or_eq_true, decide_eq_true_iff, decide_eq_true_iff, ge_iff_le, not_or,
      UInt64.lt_iff_toNat_lt, UInt64.le_iff_toNat_le, hv.stop_toNat]
    exact ⟨Nat.not_lt.mpr hsp.1, Nat.not_le.mpr hsp.2⟩
  rw [regionContaining, hinfo]
  exact if_neg hin

theorem startup_reclaims (p : Process) (m : AddressMap) {sp pushed : UInt64} (hr : r ∈ m.regions)
    (hsp : r.Holds sp.toNat) (hpushed : pushed.toNat + 16 ≤ r.priSize.toNat) :
    ∃ stack, r.Holds stack.toNat ∧ r ∈ (startup p m.regions sp pushed).1 ∧
      Reclaimed p stack m.regions (startup p m.regions sp pushed).1
        (startup p m.regions sp pushed).2 := by
  have hv := m.valid r hr
  have hstop := hv.stop_toNat
  have hsixteen : (16 : UInt64).toNat = 16 := rfl
  have htop : (r.stop - 16).toNat = r.stop.toNat - 16 :=
    UInt64.toNat_sub_of_le _ _ (UInt64.le_iff_toNat_le.mpr (by omega))
  have hstack : (r.stop - 16 - pushed).toNat = r.stop.toNat - 16 - pushed.toNat := by
    rw [UInt64.toNat_sub_of_le _ _ (UInt64.le_iff_toNat_le.mpr (by omega)), htop]
  have hholds : r.Holds (r.stop - 16 - pushed).toNat := by
    rw [hstack, hstop]
    exact ⟨by omega, by omega⟩
  have hdone := unmapIdleState_reclaimed p (r.stop - 16 - pushed) m
  rw [startup, regionContaining_eq m hr hsp]
  exact ⟨_, hholds, (hdone.mem r).mpr ⟨hr, .inl (.inr (.inr (.inl hholds)))⟩, hdone⟩

def binary : Process := ⟨0x10000c000, 0x100001000, fun _ _ => 0, by decide⟩

def stackRegion : Region := ⟨0x16f000000, 0x800000⟩

def loadedRegions : List Region :=
  [⟨0x100000000, 0x8000⟩, ⟨0x100008000, 0x90000⟩, ⟨0x140000000, 0x100000⟩, stackRegion,
    ⟨0x300000000, 0x4000000⟩]

theorem loaded_valid : ∀ r ∈ loadedRegions, r.Valid := by
  have hbounds : ∀ r ∈ loadedRegions,
      0 < r.priSize.toNat ∧ r.priAddress.toNat + r.priSize.toNat < 2 ^ 64 := by decide
  intro r hr
  exact ⟨(hbounds r hr).1, (hbounds r hr).2⟩

theorem loaded_ordered : loadedRegions.Pairwise Before := by decide

def loaded : AddressMap := ⟨loadedRegions, loaded_valid, loaded_ordered⟩

theorem startup_reclaims_loaded : ∃ stack, stackRegion.Holds stack.toNat ∧
    stackRegion ∈ (startup binary loaded.regions 0x16f7ff000 64).1 ∧
      Reclaimed binary stack loaded.regions (startup binary loaded.regions 0x16f7ff000 64).1
        (startup binary loaded.regions 0x16f7ff000 64).2 :=
  startup_reclaims binary loaded (by decide) ⟨by decide, by decide⟩ (by decide)

end Ltop.Reclaim
