import Mathlib

namespace LittleEndian

def load (mem : ℕ → UInt8) (off : ℕ) : ℕ → ℕ
  | 0 => 0
  | n + 1 => (mem off).toNat + 256 * load mem (off + 1) n

def store (mem : ℕ → UInt8) (off n v : ℕ) : ℕ → UInt8 :=
  fun i => if off ≤ i ∧ i < off + n then (v / 256 ^ (i - off)).toUInt8 else mem i

def paste (mem src : ℕ → UInt8) (off srcOff len : ℕ) : ℕ → UInt8 :=
  fun i => if off ≤ i ∧ i < off + len then src (srcOff + (i - off)) else mem i

def Agree (lo hi : ℕ) (mem mem' : ℕ → UInt8) : Prop := ∀ i, lo ≤ i → i < hi → mem i = mem' i

variable {mem mem' mem'' src src' : ℕ → UInt8} {off off' srcOff n k v len lo hi lo' hi' : ℕ}

theorem Agree.refl (mem : ℕ → UInt8) : Agree lo hi mem mem := fun _ _ _ => rfl

theorem Agree.symm (h : Agree lo hi mem mem') : Agree lo hi mem' mem :=
  fun i hlo hhi => (h i hlo hhi).symm

theorem Agree.trans (h : Agree lo hi mem mem') (h' : Agree lo hi mem' mem'') :
    Agree lo hi mem mem'' := fun i hlo hhi => (h i hlo hhi).trans (h' i hlo hhi)

theorem Agree.mono (h : Agree lo hi mem mem') (hlo : lo ≤ lo') (hhi : hi' ≤ hi) :
    Agree lo' hi' mem mem' := fun i h1 h2 => h i (hlo.trans h1) (h2.trans_le hhi)

theorem load_congr (h : Agree off (off + n) mem mem') : load mem off n = load mem' off n := by
  induction n generalizing off with
  | zero => rfl
  | succ n ih =>
    rw [load, load, h off le_rfl (by omega), ih (h.mono (by omega) (by omega))]

theorem load_lt (mem : ℕ → UInt8) (off n : ℕ) : load mem off n < 256 ^ n := by
  induction n generalizing off with
  | zero => exact Nat.one_pos
  | succ n ih =>
    have hbyte : (mem off).toNat < 256 := (mem off).toNat_lt
    have hrest := ih (off + 1)
    rw [load, Nat.pow_succ]
    omega

theorem store_agree (h : hi ≤ off ∨ off + n ≤ lo) : Agree lo hi (store mem off n v) mem := by
  intro i hlo hhi
  exact if_neg (by omega)

theorem load_digits (h : ∀ i < n, mem (off + i) = (v / 256 ^ i).toUInt8) :
    load mem off n = v % 256 ^ n := by
  induction n generalizing off v with
  | zero => rw [Nat.pow_zero, Nat.mod_one, load]
  | succ n ih =>
    have hfirst : (mem off).toNat = v % 256 := by
      have hzero := h 0 (by omega)
      rw [Nat.add_zero, Nat.pow_zero, Nat.div_one] at hzero
      rw [hzero]
      exact UInt8.toNat_ofNat
    have hrest : load mem (off + 1) n = v / 256 % 256 ^ n := by
      refine ih fun i hi => ?_
      rw [Nat.add_assoc, Nat.add_comm 1, h (i + 1) (by omega), Nat.div_div_eq_div_mul,
        Nat.pow_succ, Nat.mul_comm]
    rw [load, hfirst, hrest, Nat.pow_succ, Nat.mul_comm (256 ^ n), Nat.mod_mul]

theorem load_digit (mem : ℕ → UInt8) {i : ℕ} (off : ℕ) (hi : i < n) :
    load mem off n / 256 ^ i % 256 = (mem (off + i)).toNat := by
  induction i generalizing off n with
  | zero =>
    obtain ⟨n, rfl⟩ := Nat.exists_eq_succ_of_ne_zero hi.ne'
    have hbyte : (mem off).toNat < 256 := (mem off).toNat_lt
    rw [load, Nat.pow_zero, Nat.div_one, Nat.add_mul_mod_self_left, Nat.add_zero]
    exact Nat.mod_eq_of_lt hbyte
  | succ i ih =>
    obtain ⟨n, rfl⟩ := Nat.exists_eq_succ_of_ne_zero (Nat.ne_zero_of_lt hi)
    have hbyte : (mem off).toNat < 256 := (mem off).toNat_lt
    have hrest : load mem off (n + 1) / 256 = load mem (off + 1) n := by
      rw [load]
      omega
    rw [Nat.pow_succ', ← Nat.div_div_eq_div_mul, hrest, ih (off + 1) (Nat.lt_of_succ_lt_succ hi),
      Nat.add_assoc, Nat.add_comm 1]

theorem load_store (mem : ℕ → UInt8) (off n v : ℕ) :
    load (store mem off n v) off n = v % 256 ^ n := by
  refine load_digits fun i hi => ?_
  rw [store, if_pos (by omega), Nat.add_sub_cancel_left]

theorem load_store_outside (h : off' + k ≤ off ∨ off + n ≤ off') :
    load (store mem off n v) off' k = load mem off' k := load_congr (store_agree h)

theorem paste_outside {i : ℕ} (h : i < off ∨ off + len ≤ i) :
    paste mem src off srcOff len i = mem i := if_neg (by omega)

theorem paste_below {i : ℕ} (h : i < off) : paste mem src off srcOff len i = mem i :=
  paste_outside (.inl h)

theorem paste_inside {i : ℕ} (h : i < len) : paste mem src off srcOff len (off + i) = src (srcOff + i) := by
  rw [paste, if_pos (by omega), Nat.add_sub_cancel_left]

theorem paste_congr (h : Agree srcOff (srcOff + len) src src') :
    paste mem src off srcOff len = paste mem src' off srcOff len := by
  funext i
  unfold paste
  split
  · exact h _ (by omega) (by omega)
  · rfl

end LittleEndian
