import Mathlib

namespace Memory

variable {α : Type}

def write (mem : ℕ → α) (start : ℕ) (xs : List α) : ℕ → α :=
  fun b => if b < start then mem b else (xs[b - start]?).getD (mem b)

theorem write_outside (mem : ℕ → α) {start b : ℕ} {xs : List α}
    (h : b < start ∨ start + xs.length ≤ b) : write mem start xs b = mem b := by
  unfold write
  split
  · rfl
  · rw [List.getElem?_eq_none (by omega), Option.getD_none]

def copyStep (src dst : ℕ) (mem : ℕ → α) (i : ℕ) : ℕ → α :=
  Function.update mem (dst + i) (mem (src + i))

def copyDown (mem : ℕ → α) (src dst len : ℕ) : ℕ → α :=
  (List.range len).foldl (copyStep src dst) mem

theorem copyDown_succ (mem : ℕ → α) (src dst len : ℕ) :
    copyDown mem src dst (len + 1) = copyStep src dst (copyDown mem src dst len) len := by
  rw [copyDown, List.range_succ, List.foldl_append]
  rfl

theorem copyDown_outside (mem : ℕ → α) (src : ℕ) {dst len b : ℕ} (h : b < dst ∨ dst + len ≤ b) :
    copyDown mem src dst len b = mem b := by
  induction len with
  | zero => rfl
  | succ len ih =>
    rw [copyDown_succ, copyStep, Function.update_of_ne (by omega), ih (by omega)]

theorem copyDown_moved (mem : ℕ → α) {src dst len i : ℕ} (hle : dst ≤ src) (hi : i < len) :
    copyDown mem src dst len (dst + i) = mem (src + i) := by
  induction len with
  | zero => omega
  | succ len ih =>
    rw [copyDown_succ, copyStep]
    rcases Nat.lt_succ_iff_lt_or_eq.mp hi with hlt | rfl
    · rw [Function.update_of_ne (by omega), ih hlt]
    · rw [Function.update_self, copyDown_outside _ _ (by omega)]

end Memory
