import Mathlib

namespace Bpf

structure SockFilter where
  code : UInt16
  jt : UInt8
  jf : UInt8
  k : UInt32
deriving DecidableEq

def BPF_LD_W_ABS : UInt16 := 0x20
def BPF_JMP_JEQ_K : UInt16 := 0x15
def BPF_RET_K : UInt16 := 0x06
def BPF_ALU_AND_K : UInt16 := 0x54

def load (data : List UInt8) (off : ℕ) : Option UInt32 :=
  match data[off]?, data[off + 1]?, data[off + 2]?, data[off + 3]? with
  | some b₀, some b₁, some b₂, some b₃ =>
    some (b₀.toNat + 256 * (b₁.toNat + 256 * (b₂.toNat + 256 * b₃.toNat))).toUInt32
  | _, _, _, _ => none

def run (prog : List SockFilter) (data : List UInt8) : ℕ → ℕ → UInt32 → Option UInt32
  | 0, _, _ => none
  | fuel + 1, pc, a => do
    let i ← prog[pc]?
    if i.code = BPF_LD_W_ABS then run prog data fuel (pc + 1) (← load data i.k.toNat)
    else if i.code = BPF_JMP_JEQ_K then
      run prog data fuel (pc + 1 + (if a = i.k then i.jt else i.jf).toNat) a
    else if i.code = BPF_ALU_AND_K then run prog data fuel (pc + 1) (a &&& i.k)
    else if i.code = BPF_RET_K then some i.k
    else none

variable {prog : List SockFilter} {data : List UInt8} {fuel pc : ℕ} {a k w : UInt32}
  {jt jf : UInt8}

theorem run_ld (h : prog[pc]? = some ⟨BPF_LD_W_ABS, jt, jf, k⟩)
    (hw : load data k.toNat = some w) :
    run prog data (fuel + 1) pc a = run prog data fuel (pc + 1) w := by
  rw [run, h, Option.bind_eq_bind, Option.bind_some, if_pos rfl, hw]
  rfl

theorem run_jeq (h : prog[pc]? = some ⟨BPF_JMP_JEQ_K, jt, jf, k⟩) :
    run prog data (fuel + 1) pc a =
      run prog data fuel (pc + 1 + (if a = k then jt else jf).toNat) a := by
  rw [run, h]
  rfl

theorem run_and (h : prog[pc]? = some ⟨BPF_ALU_AND_K, jt, jf, k⟩) :
    run prog data (fuel + 1) pc a = run prog data fuel (pc + 1) (a &&& k) := by
  rw [run, h]
  rfl

theorem run_ret (h : prog[pc]? = some ⟨BPF_RET_K, jt, jf, k⟩) :
    run prog data (fuel + 1) pc a = some k := by
  rw [run, h]
  rfl

theorem load_some {off : ℕ} (h : off + 4 ≤ data.length) : ∃ w, load data off = some w := by
  unfold load
  rw [List.getElem?_eq_getElem (by omega), List.getElem?_eq_getElem (by omega),
    List.getElem?_eq_getElem (by omega), List.getElem?_eq_getElem (by omega)]
  exact ⟨_, rfl⟩

end Bpf
