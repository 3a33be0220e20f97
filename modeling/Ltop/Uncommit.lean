import Mathlib
import Ltop.Library.LittleEndian
import Ltop.Library.Align
import Ltop.Proc
import Ltop.Arena

namespace Ltop

namespace Arena

structure Storage where
  base : UInt64
  aligned : MAX_ALIGN ∣ base.toNat
  inside : base.toNat + SIZE < 2 ^ 64

abbrev Cursor := {offset : UInt32 // offset.toNat ≤ SIZE}

abbrev PageSize := {page : UInt64 // ∃ k, page.toNat = 2 ^ k}

def saturatingSub (a b : UInt64) : UInt64 := if b ≤ a then a - b else 0

namespace Storage

variable (s : Storage) (offset : Cursor) (page : PageSize)

def tailCall (pageSize : UInt64) : Option (UInt64 × UInt64) :=
  let currentAddr := s.base + offset.1.toUInt64
  let tailStart := (currentAddr + pageSize - 1) &&& ~~~(pageSize - 1)
  let arenaEnd := s.base + SIZE.toUInt64
  let len := saturatingSub arenaEnd tailStart &&& ~~~(pageSize - 1)
  if len > 0 then some (tailStart, len) else none

def uncommitTailLinux (pageSize : UInt64) : Option (UInt64 × UInt64) :=
  s.tailCall offset pageSize

def uncommitTailMacos (pageSize : UInt64) : Option (UInt64 × UInt64) :=
  if pageSize = 0 then none else s.tailCall offset pageSize

def uncommitTail (os : Os) : Option (UInt64 × UInt64) :=
  match os with
  | .linux => s.uncommitTailLinux offset page.1
  | .macos => s.uncommitTailMacos offset page.1

def lowest : ℕ := s.base.toNat + offset.1.toNat

def arenaEnd : ℕ := s.base.toNat + SIZE

def madvise (mem : Mem) (call : Option (UInt64 × UInt64)) : Mem :=
  match call with
  | none => mem
  | some (start, len) => fun addr =>
    if start.toNat ≤ addr ∧ addr < start.toNat + Align.up len.toNat page.1.toNat then 0 else mem addr

structure Whole (lo hi : ℕ) : Prop where
  lo_page : page.1.toNat ∣ lo
  hi_page : page.1.toNat ∣ hi
  above : s.lowest offset ≤ lo
  below : hi ≤ s.arenaEnd
  nonempty : lo < hi

structure Discards (call : Option (UInt64 × UInt64)) : Prop where
  whole : ∀ start len, call = some (start, len) →
    s.Whole offset page start.toNat (start.toNat + len.toNat)
  largest : ∀ lo hi, s.Whole offset page lo hi → ∃ start len, call = some (start, len) ∧
    start.toNat ≤ lo ∧ hi ≤ start.toNat + len.toNat
  live : ∀ mem addr, addr < s.lowest offset ∨ s.arenaEnd ≤ addr →
    madvise page mem call addr = mem addr
  cell : ∀ mem, LittleEndian.load (madvise page mem call) s.arenaEnd 4 =
    LittleEndian.load mem s.arenaEnd 4

end Storage

variable {s : Storage} {offset : Cursor} {page : PageSize} {x : UInt64}
  {call : Option (UInt64 × UInt64)}

theorem page_pos (page : PageSize) : 0 < page.1.toNat := by
  obtain ⟨k, hk⟩ := page.2
  exact hk ▸ Nat.two_pow_pos k

theorem pageMask (x : UInt64) (page : PageSize) :
    (x &&& ~~~(page.1 - 1)).toNat = Align.down x.toNat page.1.toNat := by
  obtain ⟨k, hk⟩ := page.2
  have hpos := page_pos page
  have hlt := page.1.toNat_lt
  have hone : (1 : UInt64).toNat = 1 := rfl
  have hsub : (page.1 - 1).toNat = page.1.toNat - 1 := by
    rw [UInt64.toNat_sub, hone]
    omega
  have hmask : (~~~(page.1 - 1)).toNat = 2 ^ 64 - 2 ^ k := by
    have hsize : UInt64.size = 2 ^ 64 := rfl
    rw [UInt64.toNat_not, hsub, hk, hsize]
    have := Nat.two_pow_pos k
    omega
  have hk64 : k ≤ 64 := by
    rw [hk] at hlt
    exact ((Nat.pow_lt_pow_iff_right (by decide)).mp hlt).le
  rw [UInt64.toNat_and, hmask, Align.mask_eq x.toNat_lt hk64, Align.down, hk]

theorem tailStart_eq (h : x.toNat + page.1.toNat ≤ 2 ^ 64) :
    ((x + page.1 - 1) &&& ~~~(page.1 - 1)).toNat = Align.up x.toNat page.1.toNat := by
  have hpos := page_pos page
  have hone : (1 : UInt64).toNat = 1 := rfl
  have hsum : (x + page.1 - 1).toNat = x.toNat + (page.1.toNat - 1) := by
    rw [UInt64.toNat_sub, UInt64.toNat_add, hone]
    omega
  rw [pageMask, hsum]
  rfl

theorem saturatingSub_toNat (a b : UInt64) : (saturatingSub a b).toNat = a.toNat - b.toNat := by
  unfold saturatingSub
  split
  · rename_i hle
    exact UInt64.toNat_sub_of_le _ _ hle
  · rename_i hlt
    have hlt := UInt64.le_iff_toNat_le.not.mp hlt
    rw [Nat.sub_eq_zero_of_le (by omega)]
    rfl

namespace Storage

theorem current_toNat (s : Storage) (offset : Cursor) :
    (s.base + offset.1.toUInt64).toNat = s.lowest offset := by
  have hinside := s.inside
  have hoffset := offset.2
  rw [UInt64.toNat_add, UInt32.toNat_toUInt64, Nat.mod_eq_of_lt (by omega), lowest]

theorem end_toNat (s : Storage) : (s.base + SIZE.toUInt64).toNat = s.arenaEnd := by
  have hinside := s.inside
  have hsize : SIZE.toUInt64.toNat = SIZE := rfl
  rw [UInt64.toNat_add, hsize, Nat.mod_eq_of_lt (by omega), arenaEnd]

theorem tailCall_eq (h : s.lowest offset + page.1.toNat ≤ 2 ^ 64) :
    ∃ start len : UInt64,
      start.toNat = Align.up (s.lowest offset) page.1.toNat ∧
      len.toNat = Align.down (s.arenaEnd - start.toNat) page.1.toNat ∧
      s.tailCall offset page.1 = if 0 < len.toNat then some (start, len) else none := by
  refine ⟨(s.base + offset.1.toUInt64 + page.1 - 1) &&& ~~~(page.1 - 1),
    saturatingSub (s.base + SIZE.toUInt64)
      ((s.base + offset.1.toUInt64 + page.1 - 1) &&& ~~~(page.1 - 1)) &&& ~~~(page.1 - 1),
    ?_, ?_, rfl⟩
  · rw [← current_toNat] at h ⊢
    exact tailStart_eq h
  · rw [pageMask, saturatingSub_toNat, end_toNat]

theorem uncommitTail_eq (s : Storage) (offset : Cursor) (page : PageSize) (os : Os) :
    s.uncommitTail offset page os = s.tailCall offset page.1 := by
  cases os with
  | linux => rfl
  | macos =>
    refine if_neg fun hzero => ?_
    have hpos := page_pos page
    rw [hzero] at hpos
    exact absurd hpos (by decide)

theorem Discards.of_whole
    (whole : ∀ start len, call = some (start, len) →
      s.Whole offset page start.toNat (start.toNat + len.toNat))
    (largest : ∀ lo hi, s.Whole offset page lo hi → ∃ start len, call = some (start, len) ∧
      start.toNat ≤ lo ∧ hi ≤ start.toNat + len.toNat) : s.Discards offset page call := by
  have live : ∀ mem addr, addr < s.lowest offset ∨ s.arenaEnd ≤ addr →
      madvise page mem call addr = mem addr := by
    intro mem addr haddr
    cases hcall : call with
    | none => rfl
    | some range =>
      obtain ⟨start, len⟩ := range
      obtain ⟨hlo, hhi, habove, hbelow, -⟩ := whole start len hcall
      have hlen : Align.up len.toNat page.1.toNat = len.toNat :=
        Align.up_of_dvd ((Nat.dvd_add_right hlo).mp hhi) (page_pos page)
      rw [madvise, hlen]
      exact if_neg (by omega)
  refine ⟨whole, largest, live, fun mem => LittleEndian.load_congr fun addr hlo _ => ?_⟩
  exact live mem addr (.inr hlo)

theorem uncommitTail_discards (h : s.lowest offset + page.1.toNat ≤ 2 ^ 64) (os : Os) :
    s.Discards offset page (s.uncommitTail offset page os) := by
  obtain ⟨tailStart, tailLen, hstart, hlen, hcall⟩ := tailCall_eq h
  have hpos := page_pos page
  have hpage : page.1.toNat ∣ tailStart.toNat := hstart ▸ Align.dvd_up _ _
  have hlow : s.lowest offset ≤ tailStart.toNat := hstart ▸ Align.le_up hpos
  rw [uncommitTail_eq, hcall]
  refine Discards.of_whole ?_ ?_
  · intro start len hsome
    obtain ⟨hlt, hsome⟩ := Option.ite_none_right_eq_some.mp hsome
    obtain ⟨rfl, rfl⟩ := Prod.mk.inj (Option.some.inj hsome)
    have hdown : tailLen.toNat ≤ s.arenaEnd - tailStart.toNat := hlen ▸ Align.down_le _ _
    have hlenPage : page.1.toNat ∣ tailLen.toNat := hlen ▸ Align.dvd_down _ _
    exact ⟨hpage, Nat.dvd_add hpage hlenPage, hlow, by omega, by omega⟩
  · intro lo hi hwhole
    have hlo : tailStart.toNat ≤ lo := hstart ▸ Align.up_le hpos hwhole.lo_page hwhole.above
    have hlt := hwhole.nonempty
    have hbelow := hwhole.below
    have hhi : hi - tailStart.toNat ≤ tailLen.toNat :=
      hlen ▸ Align.le_down (Nat.dvd_sub hwhole.hi_page hpage) (by omega)
    exact ⟨tailStart, tailLen, if_pos (by omega), hlo, by omega⟩

theorem static_placed : MAX_ALIGN ∣ 0x404010 ∧ 0x404010 + SIZE < 2 ^ 64 := by decide

def static : Storage := ⟨0x404010, static_placed.1, static_placed.2⟩

theorem cursor_le : 160000 ≤ SIZE := by decide

def cursor : Cursor := ⟨160000, cursor_le⟩

def basicPage : PageSize := ⟨4096, 12, rfl⟩

theorem uncommitTail_discards_static :
    static.Discards cursor basicPage (static.uncommitTail cursor basicPage .linux) ∧
      static.uncommitTail cursor basicPage .linux = some (0x42c000, 0x58000) :=
  ⟨uncommitTail_discards (by decide) .linux, by decide⟩

theorem topmost_placed : MAX_ALIGN ∣ 0xfffffffffff00000 ∧ 0xfffffffffff00000 + SIZE < 2 ^ 64 := by
  decide

def topmost : Storage := ⟨0xfffffffffff00000, topmost_placed.1, topmost_placed.2⟩

def vastPage : PageSize := ⟨0x8000000000000000, 63, rfl⟩

theorem uncommitTail_wraps :
    ¬ ∀ (s : Storage) (offset : Cursor) (page : PageSize) (os : Os),
      s.Discards offset page (s.uncommitTail offset page os) := by
  intro h
  have hcall : topmost.uncommitTail cursor vastPage .linux = some (0, 0x8000000000000000) := by decide
  have hwhole := (h topmost cursor vastPage .linux).whole 0 0x8000000000000000 hcall
  exact absurd hwhole.above (by decide)

end Storage

end Arena

end Ltop
