import Mathlib
import Ltop.Startup
import Ltop.Uncommit

namespace Ltop.Startup

open Arena (PageSize pageMask page_pos)
open ProcArgs (CStr)

structure Kernel where
  page : PageSize
  mapped : ℕ → Bool

structure Vm where
  mem : Mem
  resident : ℕ → Bool

theorem page_le (page : PageSize) : page.1.toNat ≤ 2 ^ 63 := by
  obtain ⟨k, hk⟩ := page.2
  have hlt := page.1.toNat_lt
  rw [hk] at hlt ⊢
  have hk : k < 64 := (Nat.pow_lt_pow_iff_right (by decide)).mp hlt
  exact Nat.pow_le_pow_right (by decide) (Nat.lt_succ_iff.mp hk)

namespace Kernel

variable (k : Kernel)

def size : ℕ := k.page.1.toNat

def base (addr : ℕ) : ℕ := Align.down addr k.size

def dontneed (vm : Vm) (addr len : ℕ) : Vm × Bool :=
  if addr % k.size ≠ 0 then (vm, false)
  else
    let stop := addr + Align.up len k.size
    let dropped := fun p => addr ≤ p ∧ p < stop ∧ k.mapped p
    (⟨fun a => if dropped (k.base a) then 0 else vm.mem a,
      fun a => if dropped (k.base a) then false else vm.resident a⟩,
      decide (∀ i < Align.up len k.size / k.size, k.mapped (addr + i * k.size) = true))

def touch (vm : Vm) (addr : ℕ) : Vm :=
  { vm with resident := fun a => k.base a == k.base addr || vm.resident a }

def dropOne (page : UInt64) (vm : Vm) (addr : UInt64) : Vm × Bool :=
  k.dontneed vm addr.toNat page.toNat

def dropUp (page : UInt64) : ℕ → Vm → UInt64 → UInt64 → Option (Vm × UInt64)
  | 0, _, _, _ => none
  | fuel + 1, vm, p, lastMapped =>
    let (vm, ok) := k.dropOne page vm p
    if ok then dropUp page fuel vm (p + page) p else some (vm, lastMapped)

def dropDown (page : UInt64) : ℕ → Vm → UInt64 → Option Vm
  | 0, _, _ => none
  | fuel + 1, vm, p =>
    if p ≠ 0 then
      let (vm, ok) := k.dropOne page vm p
      if ok then dropDown page fuel vm (p - page) else some vm
    else some vm

inductive Entered where
  | checked
  | main (vm : Vm) (flags page rsp : UInt64)

def ltopEntry (sys : Syscalls) (fuel : ℕ) (vm : Vm) (sp : UInt64) : Option Entered := do
  let argc := word vm.mem sp.toNat % 2 ^ 32
  match ← parseArgs sys vm.mem fuel argc (sp.toNat + 8) with
  | .checked => some .checked
  | .flags flags =>
    let page := (← readPage vm.mem fuel sp.toNat argc).toUInt64
    let spPage := sp &&& ~~~(page - 1)
    let (vm, lastMapped) ← k.dropUp page fuel vm (spPage + page) spPage
    some (.main vm flags page (lastMapped + page - 16))

def ltopMain (fuel : ℕ) (vm : Vm) (page curSp : UInt64) : Option Vm :=
  k.dropDown page fuel (k.touch vm curSp.toNat) ((curSp &&& ~~~(page - 1)) - page)

inductive Started where
  | checked
  | run (vm : Vm) (flags : UInt64)

def start (sys : Syscalls) (fuel : ℕ) (vm : Vm) (sp pushed : UInt64) : Option Started := do
  match ← k.ltopEntry sys fuel vm sp with
  | .checked => some .checked
  | .main vm flags page rsp =>
    let vm ← k.ltopMain fuel vm page (rsp - pushed)
    some (.run vm flags)

structure Vma (lo hi : ℕ) : Prop where
  lo_page : k.size ∣ lo
  hi_page : k.size ∣ hi
  lo_pos : 0 < lo
  nonempty : lo < hi
  user : hi ≤ 2 ^ 63
  inside : ∀ p, k.size ∣ p → lo ≤ p → p < hi → k.mapped p = true
  above : k.mapped hi = false
  below : k.mapped (lo - k.size) = false

end Kernel

def Vm.clear (vm : Vm) (lo hi : ℕ) : Vm :=
  ⟨fun a => if lo ≤ a ∧ a < hi then 0 else vm.mem a,
    fun p => if lo ≤ p ∧ p < hi then false else vm.resident p⟩

variable {k : Kernel} {vm : Vm} {lo hi mid fuel : ℕ} {addr p q : UInt64}

theorem Vm.clear_self (vm : Vm) (lo : ℕ) : vm.clear lo lo = vm := by
  have hnone : ∀ a, ¬(lo ≤ a ∧ a < lo) := fun a h => by omega
  simp [Vm.clear, hnone]

theorem Vm.clear_clear (h₁ : lo ≤ mid) (h₂ : mid ≤ hi) :
    (vm.clear lo mid).clear mid hi = vm.clear lo hi := by
  have hsplit : ∀ a, (lo ≤ a ∧ a < hi) ↔ (mid ≤ a ∧ a < hi) ∨ (lo ≤ a ∧ a < mid) := fun a => by
    omega
  simp only [Vm.clear, hsplit]
  congr 1
  · funext a
    by_cases hm : mid ≤ a ∧ a < hi <;> simp [hm]
  · funext a
    by_cases hm : mid ≤ a ∧ a < hi <;> simp [hm]

theorem Vm.clear_comm (h₁ : lo ≤ mid) (h₂ : mid ≤ hi) :
    (vm.clear mid hi).clear lo mid = vm.clear lo hi := by
  have hsplit : ∀ a, (lo ≤ a ∧ a < hi) ↔ (lo ≤ a ∧ a < mid) ∨ (mid ≤ a ∧ a < hi) := fun a => by
    omega
  simp only [Vm.clear, hsplit]
  congr 1
  · funext a
    by_cases hm : lo ≤ a ∧ a < mid <;> simp [hm]
  · funext a
    by_cases hm : lo ≤ a ∧ a < mid <;> simp [hm]

namespace Kernel

theorem size_pos (k : Kernel) : 0 < k.size := page_pos k.page

theorem base_eq_iff {a b : ℕ} (hb : k.size ∣ b) : k.base a = b ↔ b ≤ a ∧ a < b + k.size := by
  have hsize := k.size_pos
  obtain ⟨n, rfl⟩ := hb
  rw [base, Align.down, Nat.mul_comm k.size n, Nat.mul_left_inj hsize.ne', Nat.div_eq_iff hsize]
  omega

theorem size_up : Align.up k.size k.size = k.size := Align.up_of_dvd dvd_rfl k.size_pos

theorem dropOne_eq (hp : k.size ∣ p.toNat) : k.dropOne k.page.1 vm p =
    if k.mapped p.toNat then (vm.clear p.toNat (p.toNat + k.size), true) else (vm, false) := by
  have hsize := k.size_pos
  have hpage : k.page.1.toNat = k.size := rfl
  have hone : ∀ a, (p.toNat ≤ k.base a ∧ k.base a < p.toNat + k.size) ↔ k.base a = p.toNat := by
    intro a
    constructor
    · rintro ⟨hlo, hhi⟩
      have hbase := (base_eq_iff (k := k) (a := k.base a) hp).mpr ⟨hlo, hhi⟩
      rwa [base, Align.down, Nat.div_mul_cancel (show k.size ∣ k.base a from Align.dvd_down _ _)]
        at hbase
    · rintro h
      omega
  have hdropped : ∀ a, (p.toNat ≤ k.base a ∧ k.base a < p.toNat + k.size ∧
      k.mapped (k.base a) = true) ↔ k.mapped p.toNat = true ∧ p.toNat ≤ a ∧ a < p.toNat + k.size := by
    intro a
    rw [← and_assoc, hone, base_eq_iff hp]
    constructor
    · rintro ⟨hin, hm⟩
      exact ⟨(base_eq_iff hp).mpr hin ▸ hm, hin⟩
    · rintro ⟨hm, hin⟩
      exact ⟨hin, ((base_eq_iff hp).mpr hin).symm ▸ hm⟩
  rw [dropOne, dontneed, if_neg (not_not.mpr (Nat.mod_eq_zero_of_dvd hp)), hpage, size_up,
    Nat.div_self hsize]
  simp only [hdropped]
  by_cases hm : k.mapped p.toNat = true
  · simp [hm, Vm.clear]
  · simp [hm]

theorem dropUp_eq (hv : k.Vma lo hi) {n : ℕ} (hp : k.size ∣ p.toNat) (hlo : lo ≤ p.toNat)
    (hn : p.toNat + n * k.size = hi) (hq : q.toNat + k.size = p.toNat) (hfuel : n < fuel) :
    ∃ last, k.dropUp k.page.1 fuel vm p q = some (vm.clear p.toNat hi, last) ∧
      last.toNat + k.size = hi := by
  have hsize := k.size_pos
  have huser := hv.user
  have hle := page_le k.page
  induction n generalizing vm p q fuel with
  | zero =>
    obtain ⟨fuel, rfl⟩ := Nat.exists_eq_succ_of_ne_zero hfuel.ne'
    have heq : p.toNat = hi := by omega
    rw [dropUp, dropOne_eq hp, heq, hv.above, Vm.clear_self]
    exact ⟨q, rfl, hq.trans heq⟩
  | succ n ih =>
    obtain ⟨fuel, rfl⟩ := Nat.exists_eq_succ_of_ne_zero (Nat.ne_zero_of_lt hfuel)
    rw [Nat.add_mul, Nat.one_mul] at hn
    have hnext : (p + k.page.1).toNat = p.toNat + k.size := by
      rw [UInt64.toNat_add]
      exact Nat.mod_eq_of_lt (show p.toNat + k.size < 2 ^ 64 by omega)
    have hrest : ∃ last, k.dropUp k.page.1 fuel (vm.clear p.toNat (p.toNat + k.size))
        (p + k.page.1) p = some ((vm.clear p.toNat (p.toNat + k.size)).clear
          (p + k.page.1).toNat hi, last) ∧ last.toNat + k.size = hi :=
      ih (hnext ▸ dvd_add hp dvd_rfl) (by omega) (by omega) hnext.symm (by omega)
    rw [hnext, Vm.clear_clear (by omega) (by omega)] at hrest
    obtain ⟨last, hrun, hlast⟩ := hrest
    rw [dropUp, dropOne_eq hp, hv.inside _ hp hlo (by omega)]
    exact ⟨last, hrun, hlast⟩

theorem dropDown_eq (hv : k.Vma lo hi) {n : ℕ} (hp : k.size ∣ p.toNat)
    (hn : p.toNat + k.size = lo + n * k.size) (hhi : p.toNat < hi) (hfuel : n < fuel) :
    k.dropDown k.page.1 fuel vm p = some (vm.clear lo (p.toNat + k.size)) := by
  have hsize := k.size_pos
  induction n generalizing vm p fuel with
  | zero =>
    obtain ⟨fuel, rfl⟩ := Nat.exists_eq_succ_of_ne_zero hfuel.ne'
    have heq : p.toNat = lo - k.size := by omega
    rw [hn, Nat.zero_mul, Nat.add_zero, Vm.clear_self, dropDown, dropOne_eq hp, heq, hv.below]
    split <;> rfl
  | succ n ih =>
    obtain ⟨fuel, rfl⟩ := Nat.exists_eq_succ_of_ne_zero (Nat.ne_zero_of_lt hfuel)
    rw [Nat.add_mul, Nat.one_mul] at hn
    have hpos : p ≠ 0 := by
      rintro rfl
      have hzero : (0 : UInt64).toNat = 0 := rfl
      have := hv.lo_pos
      omega
    have hfloor : k.size ≤ p.toNat :=
      Nat.le_of_dvd (by have := hv.lo_pos; omega) hp
    have hnext : (p - k.page.1).toNat = p.toNat - k.size := UInt64.toNat_sub_of_le _ _ hfloor
    have hrun : k.dropDown k.page.1 fuel (vm.clear p.toNat (p.toNat + k.size)) (p - k.page.1) =
        some ((vm.clear p.toNat (p.toNat + k.size)).clear lo ((p - k.page.1).toNat + k.size)) :=
      ih (hnext ▸ Nat.dvd_sub hp dvd_rfl) (by omega) (by omega) (by omega)
    rw [hnext, Nat.sub_add_cancel hfloor, Vm.clear_comm (by omega) (by omega)] at hrun
    rw [dropDown, if_pos hpos, dropOne_eq hp, hv.inside _ hp (by omega) hhi]
    exact hrun

theorem Vma.two_pages (hv : k.Vma lo hi) : k.size ≤ lo ∧ lo + k.size ≤ hi := by
  have hpos := hv.lo_pos
  have hlt := hv.nonempty
  obtain ⟨n, rfl⟩ := hv.lo_page
  obtain ⟨m, rfl⟩ := hv.hi_page
  have hn : 1 ≤ n := Nat.pos_of_mul_pos_left hpos
  have hm : n + 1 ≤ m := Nat.lt_of_mul_lt_mul_left hlt
  have hstep := Nat.mul_le_mul_left k.size hm
  have hfirst := Nat.mul_le_mul_left k.size hn
  rw [Nat.mul_succ] at hstep
  omega

theorem Vma.pages {b c : ℕ} (hb : k.size ∣ b) (hc : k.size ∣ c) (h : b ≤ c) :
    b + (c - b) / k.size * k.size = c := by
  rw [Nat.div_mul_cancel (Nat.dvd_sub hc hb)]
  omega

theorem ltopMain_eq (hv : k.Vma lo hi) {s : UInt64} (hlo : hi - k.size ≤ s.toNat)
    (hhi : s.toNat < hi) (hfuel : hi / k.size < fuel) :
    k.ltopMain fuel vm k.page.1 s = some ((k.touch vm s.toNat).clear lo (hi - k.size)) := by
  have hsize := k.size_pos
  obtain ⟨hfirst, hroom⟩ := hv.two_pages
  have htop : k.size ∣ hi - k.size := Nat.dvd_sub hv.hi_page dvd_rfl
  have hmask : (s &&& ~~~(k.page.1 - 1)).toNat = hi - k.size := by
    rw [pageMask]
    exact (base_eq_iff htop).mpr ⟨hlo, by omega⟩
  have hp : ((s &&& ~~~(k.page.1 - 1)) - k.page.1).toNat = hi - k.size - k.size := by
    have hle : k.page.1 ≤ s &&& ~~~(k.page.1 - 1) :=
      UInt64.le_iff_toNat_le.mpr (hmask ▸ show k.size ≤ hi - k.size by omega)
    rw [UInt64.toNat_sub_of_le _ _ hle, hmask]
    rfl
  have hn := Vma.pages hv.lo_page htop (by omega)
  have hcount : (hi - k.size - lo) / k.size ≤ hi / k.size := Nat.div_le_div_right (by omega)
  rw [ltopMain, dropDown_eq hv (n := (hi - k.size - lo) / k.size), hp, Nat.sub_add_cancel (by omega)]
  · exact hp ▸ Nat.dvd_sub htop dvd_rfl
  · omega
  · omega
  · omega

end Kernel

structure Settled (k : Kernel) (lo hi : ℕ) (before after : Vm) : Prop where
  resident : ∀ a, after.resident a =
    if lo ≤ a ∧ a < hi then decide (hi - k.size ≤ a) else before.resident a
  zeroed : ∀ a, lo ≤ a → a < hi - k.size → after.mem a = 0
  elsewhere : ∀ a, a < lo ∨ hi ≤ a → after.mem a = before.mem a

theorem Kernel.Vma.page_above (hv : k.Vma lo hi) {a : ℕ} (h : a < hi) :
    k.base a + k.size ≤ hi := by
  have hbase : k.base a < hi := (Align.down_le a k.size).trans_lt h
  obtain ⟨n, hn⟩ : k.size ∣ k.base a := Align.dvd_down _ _
  obtain ⟨m, rfl⟩ := hv.hi_page
  rw [hn] at hbase ⊢
  rw [← Nat.mul_succ]
  exact Nat.mul_le_mul_left k.size (Nat.lt_of_mul_lt_mul_left hbase)

theorem Kernel.settled (hv : k.Vma lo hi) {start s : ℕ} (hlo : lo ≤ start)
    (hs : hi - k.size ≤ s) (hstop : s < hi) :
    Settled k lo hi vm ((k.touch (vm.clear start hi) s).clear lo (hi - k.size)) := by
  obtain ⟨hfirst, hroom⟩ := hv.two_pages
  have htop : k.size ∣ hi - k.size := Nat.dvd_sub hv.hi_page dvd_rfl
  have hbase : k.base s = hi - k.size := (base_eq_iff htop).mpr ⟨hs, by omega⟩
  have hpage : ∀ a, k.base a = k.base s ↔ hi - k.size ≤ a ∧ a < hi := by
    intro a
    rw [hbase, base_eq_iff htop]
    omega
  refine ⟨?_, ?_, ?_⟩
  · intro a
    have hb : (k.base a == k.base s) = decide (hi - k.size ≤ a ∧ a < hi) := by
      rw [Bool.eq_iff_iff, beq_iff_eq, hpage, decide_eq_true_iff]
    simp only [Vm.clear, touch, hb]
    by_cases hin : lo ≤ a ∧ a < hi
    · by_cases htoppage : hi - k.size ≤ a
      · simp [hin, htoppage, Nat.not_lt.mpr htoppage]
      · simp [hin, htoppage, Nat.not_le.mp htoppage]
    · rw [if_neg (by omega), if_neg hin, if_neg (by omega), Bool.or_eq_right_iff_imp]
      intro hpage
      have := of_decide_eq_true hpage
      omega
  · intro a hlo hhi
    exact if_pos ⟨hlo, hhi⟩
  · intro a ha
    simp only [Vm.clear, touch]
    rw [if_neg (by omega), if_neg (by omega)]

theorem start_settled (k : Kernel) (sys : Syscalls) {vm : Vm} {sp pushed : UInt64} {lo hi fuel : ℕ}
    {argv envp : List CStr} {auxv : List (ℕ × ℕ)} (hb : Block vm.mem sp.toNat argv envp auxv)
    (hargc : argv.length < 2 ^ 31) (hpage : auxPage auxv = some k.size) (hok : Plausible k.size)
    (hv : k.Vma lo hi) (hlo : lo ≤ sp.toNat) (hhi : sp.toNat < hi)
    (hpushed : pushed.toNat + 16 ≤ k.size)
    (hfuel : envp.length + auxv.length + hi / k.size < fuel) :
    (k.start sys fuel vm sp pushed = some .checked ∧ Given argv "--check") ∨
      ∃ after flags, k.start sys fuel vm sp pushed = some (.run after flags) ∧
        Flags sys vm.mem argv envp flags ∧ Settled k lo hi vm after := by
  have hpages : hi / k.size < fuel := (Nat.le_add_left _ _).trans_lt hfuel
  have hlists : envp.length + auxv.length < fuel := (Nat.le_add_right _ _).trans_lt hfuel
  have henv : envp.length < fuel := (Nat.le_add_right _ _).trans_lt hlists
  have haux : auxv.length < fuel := (Nat.le_add_left _ _).trans_lt hlists
  have hargs : word vm.mem sp.toNat % 2 ^ 32 = argv.length := by
    rw [hb.argc]
    exact Nat.mod_eq_of_lt (by omega)
  rcases parseArgs_spec sys hb.args hb.env henv with ⟨hparse, hcheck⟩ | ⟨flags, hparse, hflags⟩
  · refine .inl ⟨?_, hcheck⟩
    rw [Kernel.start, Kernel.ltopEntry, hargs, hparse]
    rfl
  have hread := readPage_eq hb henv haux
  have hword : k.size.toUInt64 = k.page.1 := UInt64.ofNat_toNat
  rw [hpage, pageSize, if_pos hok] at hread
  have hsize := k.size_pos
  have huser := hv.user
  have hle := page_le k.page
  obtain ⟨hfirst, hroom⟩ := hv.two_pages
  have hbase : (sp &&& ~~~(k.page.1 - 1)).toNat = k.base sp.toNat := pageMask sp k.page
  have hdvd : k.size ∣ k.base sp.toNat := Align.dvd_down _ _
  have hstack : lo ≤ k.base sp.toNat := Align.le_down hv.lo_page hlo
  have habove : k.base sp.toNat + k.size ≤ hi := hv.page_above hhi
  have hnext : ((sp &&& ~~~(k.page.1 - 1)) + k.page.1).toNat = k.base sp.toNat + k.size := by
    rw [UInt64.toNat_add, hbase]
    exact Nat.mod_eq_of_lt (show k.base sp.toNat + k.size < 2 ^ 64 by omega)
  have hcount := Kernel.Vma.pages (dvd_add hdvd dvd_rfl) hv.hi_page habove
  have hrounds : (hi - (k.base sp.toNat + k.size)) / k.size < fuel :=
    (Nat.div_le_div_right (Nat.sub_le _ _)).trans_lt hpages
  obtain ⟨last, hrun, hlast⟩ : ∃ last, k.dropUp k.page.1 fuel vm
      ((sp &&& ~~~(k.page.1 - 1)) + k.page.1) (sp &&& ~~~(k.page.1 - 1)) =
        some (vm.clear ((sp &&& ~~~(k.page.1 - 1)) + k.page.1).toNat hi, last) ∧
      last.toNat + k.size = hi :=
    Kernel.dropUp_eq hv (hnext ▸ dvd_add hdvd dvd_rfl) (by omega) (hnext ▸ hcount)
      (hbase ▸ hnext.symm) hrounds
  have htop : (last + k.page.1).toNat = hi := by
    rw [UInt64.toNat_add]
    exact (Nat.mod_eq_of_lt (show last.toNat + k.size < 2 ^ 64 by omega)).trans hlast
  have hrsp : (last + k.page.1 - 16 - pushed).toNat = hi - 16 - pushed.toNat := by
    have hroomy : (16 : UInt64).toNat = 16 := rfl
    have hfirst16 : (last + k.page.1 - 16).toNat = hi - 16 := by
      rw [UInt64.toNat_sub_of_le _ _ (UInt64.le_iff_toNat_le.mpr (by omega)), htop, hroomy]
    rw [UInt64.toNat_sub_of_le _ _ (UInt64.le_iff_toNat_le.mpr (by omega)), hfirst16]
  refine .inr ?_
  rw [Kernel.start, Kernel.ltopEntry, hargs, hparse]
  simp only [Option.bind_eq_bind, Option.bind_some, hread, hword, hrun]
  rw [Kernel.ltopMain_eq hv (by omega) (by omega) hpages, hnext]
  exact ⟨_, flags, rfl, hflags, k.settled hv (by omega) (by omega) (by omega)⟩

namespace Once

def image : List UInt8 :=
  [2, 0, 0, 0, 0, 0, 0, 0, 0x48, 0x21, 0, 0, 0, 0, 0, 0, 0x4a, 0x21, 0, 0, 0, 0, 0, 0,
    0, 0, 0, 0, 0, 0, 0, 0, 0x51, 0x21, 0, 0, 0, 0, 0, 0, 0, 0, 0, 0, 0, 0, 0, 0,
    6, 0, 0, 0, 0, 0, 0, 0, 0, 0x10, 0, 0, 0, 0, 0, 0, 0, 0, 0, 0, 0, 0, 0, 0] ++
    bytes "l" ++ [0] ++ bytes "--once" ++ [0] ++ bytes "HOME=/h" ++ [0]

def entered : Vm :=
  ⟨fun a => image.getD (a - 0x2100) 0, fun a => decide (0x2000 ≤ a ∧ a < 0x3000)⟩

def kernel : Kernel := ⟨Arena.Storage.basicPage, fun p => decide (0x2000 ≤ p ∧ p < 0x4000)⟩

def sys : Syscalls := ⟨fun _ => 3, fun _ _ => 4⟩

def args : List CStr := [⟨bytes "l", by decide⟩, ⟨bytes "--once", by decide⟩]

def settings : List CStr := [⟨bytes "HOME=/h", by decide⟩]

theorem block : Block entered.mem (0x2100 : UInt64).toNat args settings [(6, 4096)] :=
  ⟨by decide, by decide, by decide, by decide⟩

theorem vma : kernel.Vma 0x2000 0x4000 := by
  refine ⟨by decide, by decide, by decide, by decide, by decide, ?_, rfl, rfl⟩
  intro p _ hlo hhi
  exact decide_eq_true ⟨hlo, hhi⟩

end Once

open Once in
theorem start_settled_once : ∃ after flags,
    kernel.start sys 20 entered 0x2100 8 = some (.run after flags) ∧
      Flags sys entered.mem args settings flags ∧
      Settled kernel 0x2000 0x4000 entered after := by
  have hcheck : ¬ Given args "--check" := by
    rintro ⟨c, hc, heq⟩
    rw [List.mem_singleton.mp hc] at heq
    exact absurd heq (by decide)
  exact (start_settled kernel sys block (by decide) rfl (by decide) vma (by decide) (by decide)
    (by decide) (by decide)).resolve_left fun h => hcheck h.2

end Ltop.Startup
