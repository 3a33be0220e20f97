import Mathlib
import Ltop.Library.Bpf

namespace Ltop.Sandbox

open Bpf

def SECCOMP_RET_KILL_PROCESS : UInt32 := 0x80000000
def SECCOMP_RET_TRAP : UInt32 := 0x00030000
def SECCOMP_RET_ALLOW : UInt32 := 0x7fff0000

def SECCOMP_DATA_NR : UInt32 := 0
def SECCOMP_DATA_ARCH : UInt32 := 4
def SECCOMP_DATA_ARG0_LO : UInt32 := 16
def SECCOMP_DATA_ARG1_LO : UInt32 := 24
def SECCOMP_DATA_ARG2_LO : UInt32 := 32

def OPENAT_DENY_FLAGS : UInt32 := 0x400643
def TIOCGWINSZ : UInt32 := 0x5413
def TCSETS : UInt32 := 0x5402
def RM_IOCTL_MASK : UInt32 := 0xc000ff00
def RM_IOCTL_VALUE : UInt32 := (0xc0000000 : UInt32) ||| ((0x46 : UInt32) <<< 8)

inductive Arch where
  | x86_64
  | aarch64
deriving DecidableEq

namespace Arch

def AUDIT_ARCH : Arch → UInt32
  | x86_64 => 0xC000003E
  | aarch64 => 0xC00000B7

def SYS_WRITE : Arch → UInt32
  | x86_64 => 1
  | aarch64 => 64

def SYS_OPENAT : Arch → UInt32
  | x86_64 => 257
  | aarch64 => 56

def SYS_IOCTL : Arch → UInt32
  | x86_64 => 16
  | aarch64 => 29

end Arch

def DENY_ACTION (sandboxTrap : Bool) : UInt32 :=
  if sandboxTrap then SECCOMP_RET_TRAP else SECCOMP_RET_KILL_PROCESS

def ALLOW_DIRECT (sandboxTrap : Bool) : Arch → List UInt32
  | .x86_64 => [0, 3, 28, 35, 39, 217, 219, 263, 228, 231] ++ if sandboxTrap then [15] else []
  | .aarch64 => [63, 57, 233, 101, 172, 61, 128, 35, 113, 94] ++ if sandboxTrap then [139] else []

def I_LD_ARCH : ℕ := 0
def I_JEQ_ARCH : ℕ := 1
def I_LD_NR : ℕ := 2
def I_DIRECT_START : ℕ := 3

section Layout

variable (n : ℕ)

def I_DISPATCH_WRITE : ℕ := I_DIRECT_START + n
def I_DISPATCH_OPENAT : ℕ := I_DISPATCH_WRITE n + 1
def I_DISPATCH_IOCTL : ℕ := I_DISPATCH_OPENAT n + 1
def I_CHECK_WRITE : ℕ := I_DISPATCH_IOCTL n + 1
def I_CHECK_OPENAT : ℕ := I_CHECK_WRITE n + 3
def I_CHECK_IOCTL : ℕ := I_CHECK_OPENAT n + 3
def I_RET_DENY : ℕ := I_CHECK_IOCTL n + 5
def I_RET_ALLOW : ℕ := I_RET_DENY n + 1
def PROG_LEN : ℕ := I_RET_ALLOW n + 1

end Layout

def jmp (source target : ℕ) : UInt8 := (target - source - 1).toUInt8

def setup (arch : Arch) (n : ℕ) : List (ℕ × SockFilter) :=
  [(I_LD_ARCH, ⟨BPF_LD_W_ABS, 0, 0, SECCOMP_DATA_ARCH⟩),
    (I_JEQ_ARCH, ⟨BPF_JMP_JEQ_K, 0, jmp I_JEQ_ARCH (I_RET_DENY n), arch.AUDIT_ARCH⟩),
    (I_LD_NR, ⟨BPF_LD_W_ABS, 0, 0, SECCOMP_DATA_NR⟩)]

def directJeqs (n i : ℕ) : List UInt32 → List (ℕ × SockFilter)
  | [] => []
  | nr :: rest =>
    let idx := I_DIRECT_START + i
    (idx, ⟨BPF_JMP_JEQ_K, jmp idx (I_RET_ALLOW n), 0, nr⟩) :: directJeqs n (i + 1) rest

def dispatch (arch : Arch) (n : ℕ) : List (ℕ × SockFilter) :=
  [(I_DISPATCH_WRITE n,
      ⟨BPF_JMP_JEQ_K, jmp (I_DISPATCH_WRITE n) (I_CHECK_WRITE n), 0, arch.SYS_WRITE⟩),
    (I_DISPATCH_OPENAT n,
      ⟨BPF_JMP_JEQ_K, jmp (I_DISPATCH_OPENAT n) (I_CHECK_OPENAT n), 0, arch.SYS_OPENAT⟩),
    (I_DISPATCH_IOCTL n,
      ⟨BPF_JMP_JEQ_K, jmp (I_DISPATCH_IOCTL n) (I_CHECK_IOCTL n),
        jmp (I_DISPATCH_IOCTL n) (I_RET_DENY n), arch.SYS_IOCTL⟩)]

def checkWrite (n : ℕ) : List (ℕ × SockFilter) :=
  [(I_CHECK_WRITE n, ⟨BPF_LD_W_ABS, 0, 0, SECCOMP_DATA_ARG0_LO⟩),
    (I_CHECK_WRITE n + 1, ⟨BPF_JMP_JEQ_K, jmp (I_CHECK_WRITE n + 1) (I_RET_ALLOW n), 0, 1⟩),
    (I_CHECK_WRITE n + 2,
      ⟨BPF_JMP_JEQ_K, jmp (I_CHECK_WRITE n + 2) (I_RET_ALLOW n),
        jmp (I_CHECK_WRITE n + 2) (I_RET_DENY n), 2⟩)]

def checkOpenat (n : ℕ) : List (ℕ × SockFilter) :=
  [(I_CHECK_OPENAT n, ⟨BPF_LD_W_ABS, 0, 0, SECCOMP_DATA_ARG2_LO⟩),
    (I_CHECK_OPENAT n + 1, ⟨BPF_ALU_AND_K, 0, 0, OPENAT_DENY_FLAGS⟩),
    (I_CHECK_OPENAT n + 2,
      ⟨BPF_JMP_JEQ_K, jmp (I_CHECK_OPENAT n + 2) (I_RET_ALLOW n),
        jmp (I_CHECK_OPENAT n + 2) (I_RET_DENY n), 0⟩)]

def checkIoctl (n : ℕ) : List (ℕ × SockFilter) :=
  [(I_CHECK_IOCTL n, ⟨BPF_LD_W_ABS, 0, 0, SECCOMP_DATA_ARG1_LO⟩),
    (I_CHECK_IOCTL n + 1,
      ⟨BPF_JMP_JEQ_K, jmp (I_CHECK_IOCTL n + 1) (I_RET_ALLOW n), 0, TIOCGWINSZ⟩),
    (I_CHECK_IOCTL n + 2, ⟨BPF_JMP_JEQ_K, jmp (I_CHECK_IOCTL n + 2) (I_RET_ALLOW n), 0, TCSETS⟩),
    (I_CHECK_IOCTL n + 3, ⟨BPF_ALU_AND_K, 0, 0, RM_IOCTL_MASK⟩),
    (I_CHECK_IOCTL n + 4,
      ⟨BPF_JMP_JEQ_K, jmp (I_CHECK_IOCTL n + 4) (I_RET_ALLOW n),
        jmp (I_CHECK_IOCTL n + 4) (I_RET_DENY n), RM_IOCTL_VALUE⟩)]

def returns (sandboxTrap : Bool) (n : ℕ) : List (ℕ × SockFilter) :=
  [(I_RET_DENY n, ⟨BPF_RET_K, 0, 0, DENY_ACTION sandboxTrap⟩),
    (I_RET_ALLOW n, ⟨BPF_RET_K, 0, 0, SECCOMP_RET_ALLOW⟩)]

def tail (arch : Arch) (sandboxTrap : Bool) (n : ℕ) : List (ℕ × SockFilter) :=
  dispatch arch n ++ checkWrite n ++ checkOpenat n ++ checkIoctl n ++ returns sandboxTrap n

def assign (prog : List SockFilter) (writes : List (ℕ × SockFilter)) : List SockFilter :=
  writes.foldl (fun prog w => prog.set w.1 w.2) prog

def buildProg (arch : Arch) (sandboxTrap : Bool) (direct : List UInt32) : List SockFilter :=
  let n := direct.length
  assign (List.replicate (PROG_LEN n) ⟨0, 0, 0, 0⟩)
    (setup arch n ++ directJeqs n 0 direct ++ tail arch sandboxTrap n)

def iowr (magic nr size : UInt32) : UInt64 :=
  (((3 : UInt32) <<< 30) ||| (size <<< 16) ||| (magic <<< 8) ||| nr).toUInt64

variable {arch : Arch} {trap : Bool} {direct : List UInt32} {data : List UInt8} {n i fuel : ℕ}

theorem assign_range {writes : List (ℕ × SockFilter)} {prog : List SockFilter} {s : ℕ}
    (hidx : writes.map Prod.fst = List.range' s writes.length)
    (hlen : prog.length = s + writes.length) :
    assign prog writes = prog.take s ++ writes.map Prod.snd := by
  induction writes generalizing prog s with
  | nil =>
    rw [assign, List.foldl_nil, List.map_nil, List.append_nil, List.take_of_length_le]
    simp [hlen]
  | cons w writes ih =>
    rw [List.map_cons, List.length_cons, List.range'_succ] at hidx
    obtain ⟨hw, hrest⟩ := List.cons.inj hidx
    rw [List.length_cons] at hlen
    have hset : (prog.set w.1 w.2).length = s + 1 + writes.length := by
      rw [List.length_set]
      omega
    have htake : (prog.set w.1 w.2).take (s + 1) = prog.take s ++ [w.2] := by
      rw [hw, List.take_succ_eq_append_getElem (by rw [List.length_set]; omega),
        List.take_set_of_le (by omega), List.getElem_set_self]
    change assign (prog.set w.1 w.2) writes = _
    rw [ih hrest hset, htake, List.append_assoc, List.map_cons]
    rfl

theorem directJeqs_fst (n i : ℕ) (direct : List UInt32) :
    (directJeqs n i direct).map Prod.fst = List.range' (3 + i) direct.length := by
  induction direct generalizing i with
  | nil => rfl
  | cons nr rest ih =>
    rw [directJeqs, List.map_cons, ih, List.length_cons, List.range'_succ]
    rfl

theorem directJeqs_length (n i : ℕ) (direct : List UInt32) :
    (directJeqs n i direct).length = direct.length := by
  rw [← List.length_map Prod.fst, directJeqs_fst, List.length_range']

theorem tail_fst (arch : Arch) (trap : Bool) (n : ℕ) :
    (tail arch trap n).map Prod.fst = List.range' (3 + n) 16 := by
  rfl

theorem buildProg_eq (arch : Arch) (trap : Bool) (direct : List UInt32) :
    buildProg arch trap direct =
      (setup arch direct.length).map Prod.snd ++ ((directJeqs direct.length 0 direct).map Prod.snd ++
        (tail arch trap direct.length).map Prod.snd) := by
  have hsetup : (setup arch direct.length).map Prod.fst = List.range' 0 3 := rfl
  rw [buildProg, assign_range (s := 0), List.take_zero, List.nil_append, List.map_append,
    List.map_append, List.append_assoc]
  · rw [List.map_append, List.map_append, hsetup, directJeqs_fst, tail_fst, List.length_append,
      List.length_append, directJeqs_length]
    change _ = List.range' 0 (3 + direct.length + 16)
    rw [← List.range'_append, ← List.range'_append, Nat.zero_add]
    simp
  · rw [List.length_replicate, List.length_append, List.length_append, directJeqs_length]
    change PROG_LEN direct.length = 0 + (3 + direct.length + 16)
    unfold PROG_LEN I_RET_ALLOW I_RET_DENY I_CHECK_IOCTL I_CHECK_OPENAT I_CHECK_WRITE
      I_DISPATCH_IOCTL I_DISPATCH_OPENAT I_DISPATCH_WRITE I_DIRECT_START
    omega

theorem setup_get (arch : Arch) (trap : Bool) (direct : List UInt32) {i : ℕ} (hi : i < 3) :
    (buildProg arch trap direct)[i]? = ((setup arch direct.length).map Prod.snd)[i]? := by
  rw [buildProg_eq]
  exact List.getElem?_append_left hi

theorem direct_get (arch : Arch) (trap : Bool) (direct : List UInt32) {i : ℕ}
    (hi : i < direct.length) :
    (buildProg arch trap direct)[3 + i]? =
      ((directJeqs direct.length 0 direct).map Prod.snd)[i]? := by
  have hlen : ((setup arch direct.length).map Prod.snd).length = 3 := rfl
  rw [buildProg_eq, List.getElem?_append_right (by omega), hlen, Nat.add_sub_cancel_left]
  exact List.getElem?_append_left (by rwa [List.length_map, directJeqs_length])

theorem tail_get (arch : Arch) (trap : Bool) (direct : List UInt32) (i : ℕ) :
    (buildProg arch trap direct)[3 + direct.length + i]? =
      ((tail arch trap direct.length).map Prod.snd)[i]? := by
  have hlen : ((setup arch direct.length).map Prod.snd).length = 3 := rfl
  rw [buildProg_eq, List.getElem?_append_right (by omega), hlen,
    List.getElem?_append_right (by rw [List.length_map, directJeqs_length]; omega), List.length_map,
    directJeqs_length]
  congr 1
  omega

theorem directJeqs_get (n i : ℕ) {direct : List UInt32} {j : ℕ} (hj : j < direct.length) :
    ((directJeqs n i direct).map Prod.snd)[j]? =
      some ⟨BPF_JMP_JEQ_K, jmp (3 + (i + j)) (I_RET_ALLOW n), 0, direct[j]⟩ := by
  induction direct generalizing i j with
  | nil => exact absurd hj (Nat.not_lt_zero _)
  | cons nr rest ih =>
    cases j with
    | zero => rfl
    | succ j =>
      rw [directJeqs, List.map_cons, List.getElem?_cons_succ, ih (i + 1) (Nat.lt_of_succ_lt_succ hj),
        List.getElem_cons_succ, show i + 1 + j = i + (j + 1) by omega]

theorem land {source target : ℕ} (h : source < target) (hsmall : target ≤ 256) :
    source + 1 + (jmp source target).toNat = target := by
  have hjmp : (jmp source target).toNat = target - source - 1 :=
    UInt8.toNat_ofNat_of_lt' (show target - source - 1 < 256 by omega)
  rw [hjmp]
  omega

@[simp] theorem ret_deny (n : ℕ) : I_RET_DENY n = 3 + n + 14 := rfl

@[simp] theorem ret_allow (n : ℕ) : I_RET_ALLOW n = 3 + n + 15 := rfl

section Run

variable (arch trap direct data)

theorem run_allow (fuel : ℕ) (a : UInt32) :
    run (buildProg arch trap direct) data (fuel + 1) (I_RET_ALLOW direct.length) a =
      some SECCOMP_RET_ALLOW := run_ret (tail_get arch trap direct 15)

theorem run_deny (fuel : ℕ) (a : UInt32) :
    run (buildProg arch trap direct) data (fuel + 1) (I_RET_DENY direct.length) a =
      some (DENY_ACTION trap) := run_ret (tail_get arch trap direct 14)

end Run

def verdict (trap allowed : Bool) : Option UInt32 :=
  some (if allowed then SECCOMP_RET_ALLOW else DENY_ACTION trap)

theorem run_last {pc : ℕ} {a k : UInt32} (hlen : PROG_LEN direct.length ≤ 256)
    (hpc : pc < I_RET_DENY direct.length)
    (h : (buildProg arch trap direct)[pc]? = some ⟨BPF_JMP_JEQ_K,
      jmp pc (I_RET_ALLOW direct.length), jmp pc (I_RET_DENY direct.length), k⟩) :
    run (buildProg arch trap direct) data (fuel + 2) pc a = verdict trap (a = k) := by
  have hallow : PROG_LEN direct.length = I_RET_ALLOW direct.length + 1 := rfl
  have hdeny : I_RET_ALLOW direct.length = I_RET_DENY direct.length + 1 := rfl
  rw [run_jeq h]
  by_cases hak : a = k
  · rw [if_pos hak, land (by omega) (by omega), run_allow]
    simp [verdict, hak]
  · rw [if_neg hak, land (by omega) (by omega), run_deny]
    simp [verdict, hak]

theorem run_branch {pc : ℕ} {a k : UInt32} (hlen : PROG_LEN direct.length ≤ 256)
    (hpc : pc < I_RET_DENY direct.length)
    (h : (buildProg arch trap direct)[pc]? = some ⟨BPF_JMP_JEQ_K,
      jmp pc (I_RET_ALLOW direct.length), 0, k⟩) :
    run (buildProg arch trap direct) data (fuel + 2) pc a =
      if a = k then some SECCOMP_RET_ALLOW
      else run (buildProg arch trap direct) data (fuel + 1) (pc + 1) a := by
  have hallow : PROG_LEN direct.length = I_RET_ALLOW direct.length + 1 := rfl
  have hdeny : I_RET_ALLOW direct.length = I_RET_DENY direct.length + 1 := rfl
  rw [run_jeq h]
  by_cases hak : a = k
  · rw [if_pos hak, land (by omega) (by omega), run_allow, if_pos hak]
  · rw [if_neg hak, if_neg hak]
    rfl

theorem before_deny {n k : ℕ} (hk : k < 14) : 3 + n + k < I_RET_DENY n := by
  rw [ret_deny]
  omega

theorem run_write {a fd : UInt32} (hlen : PROG_LEN direct.length ≤ 256)
    (hfd : load data 16 = some fd) :
    run (buildProg arch trap direct) data (fuel + 4) (I_CHECK_WRITE direct.length) a =
      verdict trap (fd = 1 ∨ fd = 2) := by
  change run _ data (fuel + 4) (3 + direct.length + 3) a = _
  rw [run_ld (tail_get arch trap direct 3) hfd,
    run_branch hlen (before_deny (by omega)) (tail_get arch trap direct 4),
    run_last hlen (before_deny (by omega)) (tail_get arch trap direct 5)]
  by_cases h1 : fd = 1 <;> simp [verdict, h1]

theorem run_openat {a flags : UInt32} (hlen : PROG_LEN direct.length ≤ 256)
    (hflags : load data 32 = some flags) :
    run (buildProg arch trap direct) data (fuel + 4) (I_CHECK_OPENAT direct.length) a =
      verdict trap (flags &&& OPENAT_DENY_FLAGS = 0) := by
  change run _ data (fuel + 4) (3 + direct.length + 6) a = _
  rw [run_ld (tail_get arch trap direct 6) hflags, run_and (tail_get arch trap direct 7),
    run_last hlen (before_deny (by omega)) (tail_get arch trap direct 8)]

theorem run_ioctl {a cmd : UInt32} (hlen : PROG_LEN direct.length ≤ 256)
    (hcmd : load data 24 = some cmd) :
    run (buildProg arch trap direct) data (fuel + 6) (I_CHECK_IOCTL direct.length) a =
      verdict trap (cmd = TIOCGWINSZ ∨ cmd = TCSETS ∨ cmd &&& RM_IOCTL_MASK = RM_IOCTL_VALUE) := by
  change run _ data (fuel + 6) (3 + direct.length + 9) a = _
  rw [run_ld (tail_get arch trap direct 9) hcmd,
    run_branch hlen (before_deny (by omega)) (tail_get arch trap direct 10),
    run_branch hlen (before_deny (by omega)) (tail_get arch trap direct 11),
    run_and (tail_get arch trap direct 12),
    run_last hlen (before_deny (by omega)) (tail_get arch trap direct 13)]
  by_cases h1 : cmd = TIOCGWINSZ
  · simp [verdict, h1]
  · by_cases h2 : cmd = TCSETS <;> simp [verdict, h1, h2]

theorem run_direct {nr : UInt32} (hlen : PROG_LEN direct.length ≤ 256) {rest : List UInt32}
    (hrest : rest = direct.drop i) (hi : i + rest.length = direct.length) :
    run (buildProg arch trap direct) data (fuel + 1 + rest.length) (3 + i) nr =
      if nr ∈ rest then some SECCOMP_RET_ALLOW
      else run (buildProg arch trap direct) data (fuel + 1) (3 + direct.length) nr := by
  induction rest generalizing i with
  | nil =>
    rw [List.length_nil, Nat.add_zero] at hi
    rw [if_neg List.not_mem_nil, hi]
    rfl
  | cons k rest ih =>
    rw [List.length_cons] at hi ⊢
    have hi' : i < direct.length := by omega
    have hk : direct[i] = k := by
      rw [List.drop_eq_getElem_cons hi'] at hrest
      exact (List.cons.inj hrest).1.symm
    have htail : rest = direct.drop (i + 1) := by
      rw [List.drop_eq_getElem_cons hi'] at hrest
      exact (List.cons.inj hrest).2
    have hget := (direct_get arch trap direct hi').trans
      (directJeqs_get direct.length 0 hi')
    rw [Nat.zero_add, hk] at hget
    have hpc : 3 + i < I_RET_DENY direct.length := by
      rw [ret_deny]
      omega
    rw [show fuel + 1 + (rest.length + 1) = fuel + rest.length + 2 by omega, run_branch hlen hpc hget]
    by_cases hnr : nr = k
    · rw [if_pos hnr, if_pos (hnr ▸ List.mem_cons_self)]
    · have hmem : nr ∈ k :: rest ↔ nr ∈ rest := by simp [hnr]
      rw [if_neg hnr, show fuel + rest.length + 1 = fuel + 1 + rest.length by omega,
        show 3 + i + 1 = 3 + (i + 1) by omega, ih htail (by omega)]
      simp only [hmem]

def allows (arch : Arch) (direct : List UInt32) (archWord nr arg0 arg1 arg2 : UInt32) : Prop :=
  archWord = arch.AUDIT_ARCH ∧ (nr ∈ direct ∨
    nr = arch.SYS_WRITE ∧ (arg0 = 1 ∨ arg0 = 2) ∨
    nr = arch.SYS_OPENAT ∧ arg2 &&& OPENAT_DENY_FLAGS = 0 ∨
    nr = arch.SYS_IOCTL ∧ (arg1 = TIOCGWINSZ ∨ arg1 = TCSETS ∨
      arg1 &&& RM_IOCTL_MASK = RM_IOCTL_VALUE))

instance (arch : Arch) (direct : List UInt32) (archWord nr arg0 arg1 arg2 : UInt32) :
    Decidable (allows arch direct archWord nr arg0 arg1 arg2) := by
  unfold allows
  infer_instance

theorem run_dispatch {nr fd cmd flags : UInt32} (hlen : PROG_LEN direct.length ≤ 256)
    (h0 : load data 16 = some fd) (h1 : load data 24 = some cmd) (h2 : load data 32 = some flags) :
    run (buildProg arch trap direct) data (fuel + 9) (3 + direct.length) nr =
      verdict trap (nr = arch.SYS_WRITE ∧ (fd = 1 ∨ fd = 2) ∨
        nr = arch.SYS_OPENAT ∧ flags &&& OPENAT_DENY_FLAGS = 0 ∨
        nr = arch.SYS_IOCTL ∧ (cmd = TIOCGWINSZ ∨ cmd = TCSETS ∨
          cmd &&& RM_IOCTL_MASK = RM_IOCTL_VALUE)) := by
  have hpl : PROG_LEN direct.length = 3 + direct.length + 16 := rfl
  have hwo : arch.SYS_WRITE ≠ arch.SYS_OPENAT := by cases arch <;> decide
  have hwi : arch.SYS_WRITE ≠ arch.SYS_IOCTL := by cases arch <;> decide
  have hoi : arch.SYS_OPENAT ≠ arch.SYS_IOCTL := by cases arch <;> decide
  have hdeny : I_RET_DENY direct.length = 3 + direct.length + 14 := rfl
  have hcw : I_CHECK_WRITE direct.length = 3 + direct.length + 3 := rfl
  have hco : I_CHECK_OPENAT direct.length = 3 + direct.length + 6 := rfl
  have hci : I_CHECK_IOCTL direct.length = 3 + direct.length + 9 := rfl
  have hdw : I_DISPATCH_WRITE direct.length = 3 + direct.length := rfl
  have hdo : I_DISPATCH_OPENAT direct.length = 3 + direct.length + 1 := rfl
  have hdi : I_DISPATCH_IOCTL direct.length = 3 + direct.length + 2 := rfl
  change run _ data (fuel + 9) (3 + direct.length + 0) nr = _
  rw [run_jeq (tail_get arch trap direct 0)]
  by_cases hw : nr = arch.SYS_WRITE
  · rw [if_pos hw, show 3 + direct.length + 0 = I_DISPATCH_WRITE direct.length from rfl,
      land (by omega) (by omega), run_write hlen h0]
    simp [verdict, hw, hwo, hwi]
  · rw [if_neg hw]
    change run _ data (fuel + 8) (3 + direct.length + 1) nr = _
    rw [run_jeq (tail_get arch trap direct 1)]
    by_cases ho : nr = arch.SYS_OPENAT
    · rw [if_pos ho, show 3 + direct.length + 1 = I_DISPATCH_OPENAT direct.length from rfl,
        land (by omega) (by omega), run_openat hlen h2]
      simp [verdict, ho, hoi, hwo.symm]
    · rw [if_neg ho]
      change run _ data (fuel + 7) (3 + direct.length + 2) nr = _
      rw [run_jeq (tail_get arch trap direct 2)]
      by_cases hi : nr = arch.SYS_IOCTL
      · rw [if_pos hi, show 3 + direct.length + 2 = I_DISPATCH_IOCTL direct.length from rfl,
          land (by omega) (by omega), run_ioctl hlen h1]
        simp [verdict, hi, hwi.symm, hoi.symm]
      · rw [if_neg hi, show 3 + direct.length + 2 = I_DISPATCH_IOCTL direct.length from rfl,
          land (by omega) (by omega), run_deny]
        simp [verdict, hw, ho, hi]

theorem run_prog {archWord nr fd cmd flags : UInt32} (hlen : PROG_LEN direct.length ≤ 256)
    (hnr : load data 0 = some nr) (harch : load data 4 = some archWord)
    (h0 : load data 16 = some fd) (h1 : load data 24 = some cmd) (h2 : load data 32 = some flags) :
    run (buildProg arch trap direct) data (PROG_LEN direct.length) 0 0 =
      verdict trap (allows arch direct archWord nr fd cmd flags) := by
  have hpl : PROG_LEN direct.length = 9 + direct.length + 10 := by
    change 3 + direct.length + 16 = _
    omega
  have hlast : PROG_LEN direct.length = I_RET_DENY direct.length + 2 := rfl
  rw [show PROG_LEN direct.length = 8 + 1 + direct.length + 8 + 2 by omega,
    run_ld (setup_get arch trap direct (by omega)) harch,
    run_jeq (setup_get arch trap direct (by omega))]
  by_cases ha : archWord = arch.AUDIT_ARCH
  · rw [if_pos ha]
    change run _ data (8 + 1 + direct.length + 7 + 1) 2 _ = _
    rw [run_ld (setup_get arch trap direct (by omega)) hnr]
    have hstart : run (buildProg arch trap direct) data (15 + 1 + direct.length) (3 + 0) nr =
        if nr ∈ direct then some SECCOMP_RET_ALLOW
        else run (buildProg arch trap direct) data (15 + 1) (3 + direct.length) nr :=
      run_direct hlen rfl (Nat.zero_add _)
    rw [show 8 + 1 + direct.length + 7 = 15 + 1 + direct.length by omega]
    change run _ data (15 + 1 + direct.length) (3 + 0) nr = _
    rw [hstart, run_dispatch hlen h0 h1 h2]
    by_cases hmem : nr ∈ direct
    · simp [allows, verdict, ha, hmem]
    · simp [allows, verdict, ha, hmem]
  · rw [if_neg ha]
    change run _ data _ (I_JEQ_ARCH + 1 + _) _ = _
    have harchIdx : I_JEQ_ARCH = 1 := rfl
    rw [land (by omega) (by omega), run_deny]
    simp [allows, verdict, ha]

theorem iowr_masked {nr : UInt32} (hnr : nr < 256) (size : UInt32) :
    (iowr 0x46 nr size).toUInt32 &&& RM_IOCTL_MASK = RM_IOCTL_VALUE := by
  have hlow : ∀ i, 8 ≤ i → nr.toBitVec.getLsbD i = false := by
    intro i hi
    refine Nat.testBit_lt_two_pow (Nat.lt_of_lt_of_le (UInt32.lt_iff_toNat_lt.mp hnr) ?_)
    exact Nat.pow_le_pow_right (n := 2) (by omega) hi
  have hcast : (iowr 0x46 nr size).toUInt32 =
      ((3 : UInt32) <<< 30) ||| (size <<< 16) ||| ((0x46 : UInt32) <<< 8) ||| nr :=
    UInt32.toUInt32_toUInt64 _
  have hmask : ∀ i < 32, RM_IOCTL_MASK.toBitVec.getLsbD i = decide (8 ≤ i ∧ i < 16 ∨ 30 ≤ i) := by
    decide
  have hvalue : ∀ i < 32, RM_IOCTL_VALUE.toBitVec.getLsbD i =
      (decide (8 ≤ i ∧ i < 16 ∨ 30 ≤ i) && (decide (30 ≤ i) ||
        ((0x46 : UInt32) <<< 8).toBitVec.getLsbD i)) := by decide
  have hdir : ∀ i < 32, ((3 : UInt32) <<< 30).toBitVec.getLsbD i = decide (30 ≤ i) := by decide
  have hsize : ∀ i < 16, (size <<< 16).toBitVec.getLsbD i = false := by
    intro i hi
    rw [UInt32.toBitVec_shiftLeft]
    change (size.toBitVec <<< 16).getLsbD i = false
    simp [BitVec.getLsbD_shiftLeft, hi]
  rw [hcast]
  apply UInt32.toBitVec_inj.mp
  apply BitVec.eq_of_getLsbD_eq
  intro i hi
  rw [hvalue i hi, UInt32.toBitVec_and, BitVec.getLsbD_and, hmask i hi, UInt32.toBitVec_or,
    UInt32.toBitVec_or, UInt32.toBitVec_or, BitVec.getLsbD_or, BitVec.getLsbD_or,
    BitVec.getLsbD_or, hdir i hi, Bool.and_comm]
  by_cases hbits : 8 ≤ i ∧ i < 16 ∨ 30 ≤ i
  · rw [hlow i (by omega), Bool.or_false]
    rcases hbits with hmagic | htop
    · rw [hsize i hmagic.2, Bool.or_false]
    · simp [htop]
  · simp [hbits]

def reads (data : List UInt8) (off : ℕ) : UInt32 := (load data off).getD 0

theorem seccomp_filter (arch : Arch) (trap : Bool) (direct : List UInt32)
    (hlen : PROG_LEN direct.length ≤ 256) (data : List UInt8) (hdata : data.length = 64) :
    let result := run (buildProg arch trap direct) data (PROG_LEN direct.length) 0 0
    let allowed := allows arch direct (reads data 4) (reads data 0) (reads data 16)
      (reads data 24) (reads data 32)
    (result = some SECCOMP_RET_ALLOW ↔ allowed) ∧
      (result = some (DENY_ACTION trap) ↔ ¬ allowed) ∧
      ∀ nr size, nr < 256 → reads data 4 = arch.AUDIT_ARCH → reads data 0 = arch.SYS_IOCTL →
        reads data 24 = (iowr 0x46 nr size).toUInt32 → result = some SECCOMP_RET_ALLOW := by
  have hload : ∀ off, off + 4 ≤ 64 → load data off = some (reads data off) := by
    intro off hoff
    obtain ⟨w, hw⟩ := load_some (hdata ▸ hoff)
    rw [reads, hw]
    rfl
  intro result allowed
  have hrun : result = verdict trap allowed :=
    run_prog hlen (hload 0 (by omega)) (hload 4 (by omega)) (hload 16 (by omega))
      (hload 24 (by omega)) (hload 32 (by omega))
  have hne : DENY_ACTION trap ≠ SECCOMP_RET_ALLOW := by cases trap <;> decide
  refine ⟨?_, ?_, ?_⟩
  · rw [hrun]
    by_cases ha : allowed <;> simp [verdict, ha, hne]
  · rw [hrun]
    by_cases ha : allowed <;> simp [verdict, ha, hne.symm]
  · intro nr size hnr harch hsys hcmd
    have ha : allowed := ⟨harch, .inr (.inr (.inr ⟨hsys, .inr (.inr ?_)⟩))⟩
    · rw [hrun]
      simp [verdict, ha]
    · rw [hcmd]
      exact iowr_masked hnr size

def readCall : List UInt8 := [0, 0, 0, 0, 0x3e, 0, 0, 0xc0] ++ List.replicate 56 0

theorem seccomp_filter_read :
    run (buildProg .x86_64 false (ALLOW_DIRECT false .x86_64)) readCall (PROG_LEN 10) 0 0 =
      some SECCOMP_RET_ALLOW :=
  (seccomp_filter .x86_64 false (ALLOW_DIRECT false .x86_64) (by decide) readCall rfl).1.mpr
    (by decide)

end Ltop.Sandbox
