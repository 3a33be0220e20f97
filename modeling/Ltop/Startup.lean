import Mathlib
import Ltop.Library.LittleEndian
import Ltop.Bytes
import Ltop.ProcArgs

namespace Ltop.Startup

open ProcArgs (CStr)

abbrev Mem := ℕ → UInt8

def AT_PAGESZ : ℕ := 6

def FLAG_ONCE : UInt64 := 1

def REST : List UInt8 := bytes ".cache/ltop/status"

structure Syscalls where
  openBase : ℕ → Int32
  openat : Int32 → List UInt8 → Int32

def word (mem : Mem) (addr : ℕ) : ℕ := LittleEndian.load mem addr 8

def argEq (mem : Mem) (ptr : ℕ) : List UInt8 → Bool
  | [] => mem ptr == 0
  | b :: flag =>
    let a := mem ptr
    if a ≠ b then false else if a = 0 then true else argEq mem (ptr + 1) flag

def hasArg (mem : Mem) (argc argv : ℕ) (flag : List UInt8) : Bool :=
  (List.range' 1 (argc - 1)).any fun i =>
    let ptr := word mem (argv + 8 * i)
    ptr ≠ 0 && argEq mem ptr flag

def value (mem : Mem) (e : ℕ) : List UInt8 → Option ℕ
  | [] => some e
  | k :: key => if mem e ≠ k then none else value mem (e + 1) key

def envLoop (mem : Mem) : ℕ → ℕ → ℕ → ℕ → Option (ℕ × ℕ)
  | 0, _, _, _ => none
  | fuel + 1, env, home, xdg =>
    let e := word mem env
    if e = 0 then some (home, xdg)
    else
      match value mem e (bytes "HOME=") with
      | some v => envLoop mem fuel (env + 8) v xdg
      | none =>
        match value mem e (bytes "XDG_CACHE_HOME=") with
        | some v => envLoop mem fuel (env + 8) home v
        | none => envLoop mem fuel (env + 8) home xdg

def openDir (sys : Syscalls) (mem : Mem) (fuel argc argv : ℕ) : Option Int32 := do
  let (home, xdg) ← envLoop mem fuel (argv + 8 * (argc + 1)) 0 0
  let (base, rest) := if xdg ≠ 0 ∧ mem xdg ≠ 0 then (xdg, REST.drop 7) else (home, REST)
  if base = 0 then some (-1)
  else
    let b := sys.openBase base
    if b < 0 then some b else some (sys.openat b rest)

inductive Parsed where
  | checked
  | flags (word : UInt64)
deriving DecidableEq

def parseArgs (sys : Syscalls) (mem : Mem) (fuel argc argv : ℕ) : Option Parsed :=
  if hasArg mem argc argv (bytes "--check") then some .checked
  else do
    let flags : UInt64 := if hasArg mem argc argv (bytes "--once") then FLAG_ONCE else 0
    let dir ← openDir sys mem fuel argc argv
    some (.flags (flags ||| dir.toInt64.toUInt64 <<< 32))

def once (flags : UInt64) : Bool := flags &&& FLAG_ONCE != 0

def labelDir (flags : UInt64) : Int32 := (flags >>> 32).toUInt32.toInt32

def skipEnv (mem : Mem) : ℕ → ℕ → Option ℕ
  | 0, _ => none
  | fuel + 1, q => if word mem q ≠ 0 then skipEnv mem fuel (q + 8) else some (q + 8)

def findPageSize (mem : Mem) : ℕ → ℕ → Option (Option ℕ)
  | 0, _ => none
  | fuel + 1, aux =>
    let key := word mem aux
    if key = 0 then some none
    else if key = AT_PAGESZ then some (some (word mem (aux + 8)))
    else findPageSize mem fuel (aux + 16)

def Plausible (size : ℕ) : Prop := size = 2 ^ size.log2 ∧ 1024 ≤ size ∧ size ≤ 2 ^ 20

instance (size : ℕ) : Decidable (Plausible size) := inferInstanceAs (Decidable (_ ∧ _))

def pageSize (stored : Option ℕ) : ℕ :=
  match stored with
  | some size => if Plausible size then size else 4096
  | none => 4096

def readPage (mem : Mem) (fuel sp argc : ℕ) : Option ℕ := do
  let aux ← skipEnv mem fuel (sp + 8 * (1 + argc + 1))
  let stored ← findPageSize mem fuel aux
  some (pageSize stored)

def CStrAt (mem : Mem) (ptr : ℕ) : List UInt8 → Prop
  | [] => mem ptr = 0
  | b :: s => mem ptr = b ∧ CStrAt mem (ptr + 1) s

def Pointers (mem : Mem) (addr : ℕ) : List CStr → Prop
  | [] => word mem addr = 0
  | s :: ss => word mem addr ≠ 0 ∧ CStrAt mem (word mem addr) s.1 ∧ Pointers mem (addr + 8) ss

def AuxPairs (mem : Mem) (addr : ℕ) : List (ℕ × ℕ) → Prop
  | [] => word mem addr = 0
  | (key, v) :: rest =>
    key ≠ 0 ∧ word mem addr = key ∧ word mem (addr + 8) = v ∧ AuxPairs mem (addr + 16) rest

instance CStrAt.decidable (mem : Mem) : ∀ ptr s, Decidable (CStrAt mem ptr s)
  | ptr, [] => inferInstanceAs (Decidable (mem ptr = 0))
  | ptr, b :: s =>
    have := CStrAt.decidable mem (ptr + 1) s
    inferInstanceAs (Decidable (mem ptr = b ∧ _))

instance Pointers.decidable (mem : Mem) : ∀ addr ss, Decidable (Pointers mem addr ss)
  | addr, [] => inferInstanceAs (Decidable (word mem addr = 0))
  | addr, _ :: ss =>
    have := Pointers.decidable mem (addr + 8) ss
    inferInstanceAs (Decidable (word mem addr ≠ 0 ∧ _ ∧ _))

instance AuxPairs.decidable (mem : Mem) : ∀ addr auxv, Decidable (AuxPairs mem addr auxv)
  | addr, [] => inferInstanceAs (Decidable (word mem addr = 0))
  | addr, (key, _) :: rest =>
    have := AuxPairs.decidable mem (addr + 16) rest
    inferInstanceAs (Decidable (key ≠ 0 ∧ _ ∧ _ ∧ _))

structure Block (mem : Mem) (sp : ℕ) (argv envp : List CStr) (auxv : List (ℕ × ℕ)) : Prop where
  argc : word mem sp = argv.length
  args : Pointers mem (sp + 8) argv
  env : Pointers mem (sp + 8 + 8 * (argv.length + 1)) envp
  aux : AuxPairs mem (sp + 8 + 8 * (argv.length + 1) + 8 * (envp.length + 1)) auxv

def stripKey : List UInt8 → List UInt8 → Option (List UInt8)
  | [], s => some s
  | k :: key, b :: s => if b = k then stripKey key s else none
  | _ :: _, [] => none

def setting (key : List UInt8) (envp : List CStr) : Option (List UInt8) :=
  (envp.filterMap fun s => stripKey key s.1).getLast?

def labelBase (envp : List CStr) : Option (List UInt8 × List UInt8) :=
  match setting (bytes "XDG_CACHE_HOME=") envp with
  | some (b :: s) => some (b :: s, bytes "ltop/status")
  | _ => (setting (bytes "HOME=") envp).map fun home => (home, bytes ".cache/ltop/status")

def auxPage (auxv : List (ℕ × ℕ)) : Option ℕ :=
  (auxv.find? fun pair => pair.1 = AT_PAGESZ).map Prod.snd

variable {mem : Mem} {ptr addr argc sp fuel home xdg : ℕ} {s key flag : List UInt8}
  {argv envp : List CStr} {auxv : List (ℕ × ℕ)}

theorem argEq_iff (hs : CStrAt mem ptr s) (hclean : 0 ∉ s) (hflag : 0 ∉ flag) :
    argEq mem ptr flag = true ↔ s = flag := by
  induction flag generalizing ptr s with
  | nil =>
    cases s with
    | nil => exact iff_of_true (beq_iff_eq.mpr hs) rfl
    | cons b s =>
      have hb : b ≠ 0 := fun h => hclean (h ▸ List.mem_cons_self)
      rw [argEq, hs.1, beq_iff_eq]
      exact iff_of_false hb (List.cons_ne_nil _ _)
  | cons k flag ih =>
    obtain ⟨hk, hflag⟩ := not_or.mp (mt List.mem_cons.mpr hflag)
    cases s with
    | nil =>
      have hz : mem ptr = 0 := hs
      rw [argEq, hz, if_pos hk]
      simp
    | cons b s =>
      obtain ⟨hb, hclean⟩ := not_or.mp (mt List.mem_cons.mpr hclean)
      rw [argEq, hs.1]
      by_cases hbk : b = k
      · rw [if_neg (not_not.mpr hbk), if_neg (Ne.symm hb), ih hs.2 hclean hflag, hbk]
        simp
      · rw [if_pos hbk]
        simp [hbk]

theorem Pointers.get (h : Pointers mem addr argv) {i : ℕ} {c : CStr} (hi : argv[i]? = some c) :
    word mem (addr + 8 * i) ≠ 0 ∧ CStrAt mem (word mem (addr + 8 * i)) c.1 := by
  induction argv generalizing addr i with
  | nil => cases hi
  | cons d argv ih =>
    cases i with
    | zero =>
      cases hi
      exact ⟨h.1, h.2.1⟩
    | succ i =>
      have hstep := ih h.2.2 hi
      rwa [show addr + 8 + 8 * i = addr + 8 * (i + 1) by omega] at hstep

theorem hasArg_iff (h : Pointers mem addr argv) (hflag : 0 ∉ flag) :
    hasArg mem argv.length addr flag = true ↔ ∃ c ∈ argv.tail, c.1 = flag := by
  rw [hasArg, List.any_eq_true]
  constructor
  · rintro ⟨i, hi, hmatch⟩
    rw [List.mem_range'_1] at hi
    obtain ⟨c, hc⟩ : ∃ c, argv[i]? = some c := ⟨_, List.getElem?_eq_getElem (by omega)⟩
    obtain ⟨-, hstr⟩ := h.get hc
    simp only [Bool.and_eq_true] at hmatch
    refine ⟨c, List.mem_iff_getElem?.mpr ⟨i - 1, ?_⟩, (argEq_iff hstr c.2 hflag).mp hmatch.2⟩
    rw [List.getElem?_tail, Nat.sub_add_cancel hi.1, hc]
  · rintro ⟨c, hc, heq⟩
    obtain ⟨i, hi⟩ := List.mem_iff_getElem?.mp hc
    rw [List.getElem?_tail] at hi
    have hlen := (List.getElem?_eq_some_iff.mp hi).1
    obtain ⟨hne, hstr⟩ := h.get hi
    refine ⟨i + 1, List.mem_range'_1.mpr ⟨by omega, by omega⟩, ?_⟩
    simp [hne, (argEq_iff hstr c.2 hflag).mpr heq]

theorem value_iff (hs : CStrAt mem ptr s) (hkey : 0 ∉ key) :
    (∀ rest, stripKey key s = some rest →
      value mem ptr key = some (ptr + key.length) ∧ CStrAt mem (ptr + key.length) rest) ∧
      (stripKey key s = none → value mem ptr key = none) := by
  induction key generalizing ptr s with
  | nil => exact ⟨fun rest hrest => ⟨rfl, Option.some.inj hrest ▸ hs⟩, fun h => nomatch h⟩
  | cons k key ih =>
    obtain ⟨hk, hkey⟩ := not_or.mp (mt List.mem_cons.mpr hkey)
    cases s with
    | nil =>
      have hz : mem ptr = 0 := hs
      refine ⟨fun rest hrest => (nomatch hrest), fun _ => ?_⟩
      rw [value, hz, if_pos hk]
    | cons b s =>
      obtain ⟨hb, hs⟩ := hs
      rw [stripKey, value, hb]
      by_cases hbk : b = k
      · rw [if_pos hbk, if_neg (not_not.mpr hbk), List.length_cons,
          show ptr + (key.length + 1) = ptr + 1 + key.length by omega]
        exact ih hs hkey
      · rw [if_neg hbk, if_pos hbk]
        exact ⟨fun rest hrest => (nomatch hrest), fun _ => rfl⟩

def Points (mem : Mem) (ptr : ℕ) (found : Option (List UInt8)) : Prop :=
  match found with
  | none => ptr = 0
  | some s => ptr ≠ 0 ∧ CStrAt mem ptr s

theorem setting_cons (key : List UInt8) (c : CStr) (envp : List CStr) :
    setting key (c :: envp) = (setting key envp).or (stripKey key c.1) := by
  cases hc : stripKey key c.1 with
  | none => simp [setting, hc]
  | some rest =>
    simp only [setting, List.filterMap_cons, hc, List.getLast?_cons]
    cases (envp.filterMap fun s => stripKey key s.1).getLast? <;> rfl

theorem stripKey_iff {key s rest : List UInt8} : stripKey key s = some rest ↔ s = key ++ rest := by
  induction key generalizing s with
  | nil => exact Option.some_inj
  | cons k key ih =>
    cases s with
    | nil => exact iff_of_false (fun h => nomatch h) fun h => nomatch h
    | cons b s =>
      rw [stripKey, List.cons_append, List.cons.injEq]
      split
      · rename_i hb
        rw [ih, and_iff_right hb]
      · rename_i hb
        exact iff_of_false (fun h => nomatch h) fun h => hb h.1

theorem setting_clean {key s : List UInt8} (h : setting key envp = some s) : 0 ∉ s := by
  obtain ⟨c, -, hc⟩ := List.mem_filterMap.mp (List.mem_of_getLast? h)
  have hclean := c.2
  rw [stripKey_iff.mp hc, List.mem_append, not_or] at hclean
  exact hclean.2

theorem stripKey_home {s rest : List UInt8} (h : stripKey (bytes "HOME=") s = some rest) :
    stripKey (bytes "XDG_CACHE_HOME=") s = none := by
  cases s with
  | nil => rfl
  | cons b s =>
    have hhome : bytes "HOME=" = 72 :: bytes "OME=" := by decide
    have hxdg : bytes "XDG_CACHE_HOME=" = 88 :: bytes "DG_CACHE_HOME=" := by decide
    rw [hhome, stripKey] at h
    rw [hxdg, stripKey]
    split at h
    · rename_i hb
      rw [if_neg (by rw [hb]; decide)]
    · cases h

theorem points_value {e : ℕ} {key s rest : List UInt8} (hs : CStrAt mem e s) (hkey : 0 ∉ key)
    (he : e ≠ 0) (h : stripKey key s = some rest) :
    ∃ v, value mem e key = some v ∧ Points mem v (some rest) := by
  obtain ⟨hv, hrest⟩ := (value_iff hs hkey).1 rest h
  exact ⟨_, hv, by omega, hrest⟩

theorem envLoop_eq {fh fx : Option (List UInt8)} (h : Pointers mem addr envp)
    (hfuel : envp.length < fuel) (hh : Points mem home fh) (hx : Points mem xdg fx) :
    ∃ home' xdg', envLoop mem fuel addr home xdg = some (home', xdg') ∧
      Points mem home' ((setting (bytes "HOME=") envp).or fh) ∧
      Points mem xdg' ((setting (bytes "XDG_CACHE_HOME=") envp).or fx) := by
  have hhome : 0 ∉ bytes "HOME=" := by decide
  have hxdg : 0 ∉ bytes "XDG_CACHE_HOME=" := by decide
  induction envp generalizing addr fuel home xdg fh fx with
  | nil =>
    obtain ⟨fuel, rfl⟩ := Nat.exists_eq_succ_of_ne_zero hfuel.ne'
    have hz : word mem addr = 0 := h
    exact ⟨home, xdg, by rw [envLoop, hz]; rfl, hh, hx⟩
  | cons c envp ih =>
    obtain ⟨fuel, rfl⟩ := Nat.exists_eq_succ_of_ne_zero (Nat.ne_zero_of_lt hfuel)
    obtain ⟨hne, hstr, hrest⟩ := h
    have hfuel : envp.length < fuel := Nat.lt_of_succ_lt_succ hfuel
    rw [envLoop, setting_cons, setting_cons, Option.or_assoc, Option.or_assoc, if_neg hne]
    cases hc : stripKey (bytes "HOME=") c.1 with
    | some rest =>
      obtain ⟨v, hv, hpoints⟩ := points_value hstr hhome hne hc
      rw [hv, stripKey_home hc]
      exact ih hrest hfuel hpoints hx
    | none =>
      rw [(value_iff hstr hhome).2 hc]
      cases hd : stripKey (bytes "XDG_CACHE_HOME=") c.1 with
      | some rest =>
        obtain ⟨v, hv, hpoints⟩ := points_value hstr hxdg hne hd
        rw [hv]
        exact ih hrest hfuel hh hpoints
      | none =>
        rw [(value_iff hstr hxdg).2 hd]
        exact ih hrest hfuel hh hx

def openedDir (sys : Syscalls) (mem : Mem) (envp : List CStr) (dir : Int32) : Prop :=
  match labelBase envp with
  | none => dir = -1
  | some (base, rest) => ∃ ptr, CStrAt mem ptr base ∧
      dir = if sys.openBase ptr < 0 then sys.openBase ptr else sys.openat (sys.openBase ptr) rest

theorem openDir_opened (sys : Syscalls) (h : Pointers mem (addr + 8 * (argc + 1)) envp)
    (hfuel : envp.length < fuel) :
    ∃ dir, openDir sys mem fuel argc addr = some dir ∧ openedDir sys mem envp dir := by
  obtain ⟨home, xdg, hloop, hhome, hxdg⟩ := envLoop_eq h hfuel (show Points mem 0 none from rfl)
    (show Points mem 0 none from rfl)
  rw [Option.or_none] at hhome hxdg
  have hopen : ∀ {base : ℕ} {s rest : List UInt8}, CStrAt mem base s → base ≠ 0 →
      labelBase envp = some (s, rest) → ∃ dir, (if base = 0 then some (-1) else
        if sys.openBase base < 0 then some (sys.openBase base)
        else some (sys.openat (sys.openBase base) rest)) = some dir ∧
        openedDir sys mem envp dir := by
    intro base s rest hs hne hbase
    refine ⟨if sys.openBase base < 0 then sys.openBase base else
      sys.openat (sys.openBase base) rest, ?_, ?_⟩
    · rw [if_neg hne]
      split <;> rfl
    · rw [openedDir, hbase]
      exact ⟨base, hs, rfl⟩
  rw [openDir, hloop, Option.bind_eq_bind, Option.bind_some]
  by_cases hx : ∃ b s, setting (bytes "XDG_CACHE_HOME=") envp = some (b :: s)
  · obtain ⟨b, s, hset⟩ := hx
    rw [hset] at hxdg
    have hb : mem xdg ≠ 0 := by
      rw [hxdg.2.1]
      exact fun hz => setting_clean hset (hz ▸ List.mem_cons_self)
    simp only [if_pos (And.intro hxdg.1 hb), show REST.drop 7 = bytes "ltop/status" by decide]
    exact hopen hxdg.2 hxdg.1 (by rw [labelBase, hset])
  · have hunset : ¬(xdg ≠ 0 ∧ mem xdg ≠ 0) := by
      rintro ⟨hne, hbyte⟩
      cases hset : setting (bytes "XDG_CACHE_HOME=") envp with
      | none =>
        rw [hset] at hxdg
        exact hne hxdg
      | some s =>
        rw [hset] at hxdg
        cases s with
        | nil => exact hbyte hxdg.2
        | cons b s => exact hx ⟨b, s, hset⟩
    have hlabel : labelBase envp =
        (setting (bytes "HOME=") envp).map fun home => (home, bytes ".cache/ltop/status") := by
      rw [labelBase]
      split
      · rename_i b s hset
        exact absurd ⟨b, s, hset⟩ hx
      · rfl
    simp only [if_neg hunset]
    cases hset : setting (bytes "HOME=") envp with
    | none =>
      rw [hset] at hhome hlabel
      have hzero : home = 0 := hhome
      exact ⟨-1, by rw [if_pos hzero], by rw [openedDir, hlabel]; rfl⟩
    | some s =>
      rw [hset] at hhome hlabel
      exact hopen hhome.2 hhome.1 hlabel

theorem skipEnv_eq (h : Pointers mem addr envp) (hfuel : envp.length < fuel) :
    skipEnv mem fuel addr = some (addr + 8 * (envp.length + 1)) := by
  induction envp generalizing addr fuel with
  | nil =>
    obtain ⟨fuel, rfl⟩ := Nat.exists_eq_succ_of_ne_zero hfuel.ne'
    have hz : word mem addr = 0 := h
    rw [skipEnv, if_neg (not_not.mpr hz)]
    rfl
  | cons c envp ih =>
    obtain ⟨fuel, rfl⟩ := Nat.exists_eq_succ_of_ne_zero (Nat.ne_zero_of_lt hfuel)
    rw [skipEnv, if_pos h.1, ih h.2.2 (Nat.lt_of_succ_lt_succ hfuel), List.length_cons]
    congr 1
    omega

theorem findPageSize_eq (h : AuxPairs mem addr auxv) (hfuel : auxv.length < fuel) :
    findPageSize mem fuel addr = some (auxPage auxv) := by
  induction auxv generalizing addr fuel with
  | nil =>
    obtain ⟨fuel, rfl⟩ := Nat.exists_eq_succ_of_ne_zero hfuel.ne'
    have hz : word mem addr = 0 := h
    rw [findPageSize, hz]
    rfl
  | cons pair auxv ih =>
    obtain ⟨fuel, rfl⟩ := Nat.exists_eq_succ_of_ne_zero (Nat.ne_zero_of_lt hfuel)
    obtain ⟨key, v⟩ := pair
    obtain ⟨hne, hkey, hv, hrest⟩ := h
    rw [findPageSize, hkey, hv, if_neg hne]
    by_cases hpage : key = AT_PAGESZ
    · simp [hpage, auxPage]
    · rw [if_neg hpage, ih hrest (Nat.lt_of_succ_lt_succ hfuel)]
      simp [auxPage, hpage]

theorem packed_toNat {flag : UInt64} (hf : flag.toNat < 2) (d : UInt64) :
    (flag ||| d <<< 32).toNat = flag.toNat + d.toNat % 2 ^ 32 * 2 ^ 32 := by
  have hshift : (d <<< 32).toNat = 2 ^ 32 * (d.toNat % 2 ^ 32) := by
    rw [UInt64.toNat_shiftLeft]
    simp [Nat.shiftLeft_eq]
    omega
  have hdisjoint := Nat.two_pow_add_eq_or_of_lt (show flag.toNat < 2 ^ 32 from hf.trans (by decide))
    (d.toNat % 2 ^ 32)
  rw [UInt64.toNat_or, hshift, Nat.or_comm, ← hdisjoint]
  omega

theorem once_packed {flag : UInt64} (hf : flag.toNat < 2) (d : UInt64) :
    once (flag ||| d <<< 32) = (flag != 0) := by
  have hlow : (flag ||| d <<< 32) &&& 1 = flag := by
    refine UInt64.toNat_inj.mp ?_
    rw [UInt64.toNat_and, packed_toNat hf]
    simp
    omega
  rw [once, FLAG_ONCE, hlow]

theorem labelDir_packed {flag : UInt64} (hf : flag.toNat < 2) (dir : Int32) :
    labelDir (flag ||| dir.toInt64.toUInt64 <<< 32) = dir := by
  have hword : ((flag ||| dir.toInt64.toUInt64 <<< 32) >>> 32).toUInt32 =
      dir.toInt64.toUInt64.toUInt32 := by
    refine UInt32.toNat_inj.mp ?_
    rw [UInt64.toNat_toUInt32, UInt64.toNat_toUInt32, UInt64.toNat_shiftRight, packed_toNat hf]
    simp [Nat.shiftRight_eq_div_pow]
    omega
  have hsigned : dir.toInt64.toUInt64.toUInt32.toInt32 = dir.toInt64.toInt32 := by
    refine Int32.toBitVec_inj.mp ?_
    rw [Int64.toBitVec_toInt32, BitVec.signExtend_eq_setWidth_of_le _ (by decide)]
    rfl
  rw [labelDir, hword, hsigned, Int32.toInt32_toInt64]

def Given (argv : List CStr) (flag : String) : Prop := ∃ c ∈ argv.tail, c.1 = bytes flag

structure Flags (sys : Syscalls) (mem : Mem) (argv envp : List CStr) (flags : UInt64) : Prop where
  running : ¬ Given argv "--check"
  once : once flags = true ↔ Given argv "--once"
  label : openedDir sys mem envp (labelDir flags)

theorem parseArgs_spec (sys : Syscalls) (hargs : Pointers mem addr argv)
    (henv : Pointers mem (addr + 8 * (argv.length + 1)) envp) (hfuel : envp.length < fuel) :
    (parseArgs sys mem fuel argv.length addr = some .checked ∧ Given argv "--check") ∨
      ∃ flags, parseArgs sys mem fuel argv.length addr = some (.flags flags) ∧
        Flags sys mem argv envp flags := by
  obtain ⟨dir, hdir, hopened⟩ := openDir_opened sys henv hfuel
  have hcheck := hasArg_iff hargs (show 0 ∉ bytes "--check" by decide)
  have honce := hasArg_iff hargs (show 0 ∉ bytes "--once" by decide)
  rw [parseArgs]
  by_cases hc : hasArg mem argv.length addr (bytes "--check") = true
  · exact .inl ⟨if_pos hc, hcheck.mp hc⟩
  · rw [if_neg hc, hdir, Option.bind_eq_bind, Option.bind_some]
    refine .inr ⟨_, rfl, fun hgiven => hc (hcheck.mpr hgiven), ?_, ?_⟩
    · split
      · rename_i ho
        rw [once_packed (by decide)]
        exact iff_of_true (by decide) (honce.mp ho)
      · rename_i ho
        rw [once_packed (by decide)]
        exact iff_of_false (by decide) fun hgiven => ho (honce.mpr hgiven)
    · rw [labelDir_packed (by split <;> decide)]
      exact hopened

theorem readPage_eq (h : Block mem sp argv envp auxv) (henv : envp.length < fuel)
    (haux : auxv.length < fuel) :
    readPage mem fuel sp argv.length = some (pageSize (auxPage auxv)) := by
  have hstart : sp + 8 * (1 + argv.length + 1) = sp + 8 + 8 * (argv.length + 1) := by omega
  rw [readPage, hstart, skipEnv_eq h.env henv, Option.bind_eq_bind, Option.bind_some,
    findPageSize_eq h.aux haux]
  rfl

end Ltop.Startup
