import Mathlib

namespace Heap

variable {κ : Type} [LinearOrder κ]

def Ordered (f : ℕ → κ) (n lo : ℕ) : Prop :=
  ∀ c, 0 < c → c < n → lo ≤ (c - 1) / 2 → f c ≤ f ((c - 1) / 2)

structure Hole (f : ℕ → κ) (n lo i : ℕ) : Prop where
  off : ∀ c, 0 < c → c < n → lo ≤ (c - 1) / 2 → (c - 1) / 2 ≠ i → f c ≤ f ((c - 1) / 2)
  grand : ∀ c, 0 < c → c < n → (c - 1) / 2 = i → 0 < i → lo ≤ (i - 1) / 2 → f c ≤ f ((i - 1) / 2)

theorem hole_of_ordered {f : ℕ → κ} {n i : ℕ} (h : Ordered f n (i + 1)) : Hole f n i i := by
  constructor
  · intro c hc hcn hlo hne
    exact h c hc hcn (by omega)
  · intro c _ _ _ hi hlo
    omega

theorem hole_of_root {f g : ℕ → κ} {n : ℕ} (h : Ordered f n 0)
    (he : ∀ i, 0 < i → i < n → g i = f i) : Hole g n 0 0 := by
  constructor
  · intro c hc hcn _ hne
    rw [he c hc hcn, he ((c - 1) / 2) (by omega) (by omega)]
    exact h c hc hcn (by omega)
  · intro c _ _ _ hi
    omega

theorem Hole.done {f : ℕ → κ} {n lo i : ℕ} (h : Hole f n lo i)
    (hi : ∀ c, c < n → (c = 2 * i + 1 ∨ c = 2 * i + 2) → f c ≤ f i) : Ordered f n lo := by
  intro c hc hcn hlo
  by_cases hp : (c - 1) / 2 = i
  · rw [hp]
    exact hi c hcn (by omega)
  · exact h.off c hc hcn hlo hp

theorem Hole.descend {f : ℕ → κ} {n lo i m : ℕ} (h : Hole f n lo i) (hmn : m < n)
    (hm : m = 2 * i + 1 ∨ m = 2 * i + 2) (hlt : f i ≤ f m)
    (hmax : ∀ c, c < n → (c = 2 * i + 1 ∨ c = 2 * i + 2) → f c ≤ f m) :
    Hole (f ∘ Equiv.swap i m) n lo m := by
  have hat : ∀ j, j ≠ i → j ≠ m → (f ∘ Equiv.swap i m) j = f j := by
    intro j hji hjm
    simp [Equiv.swap_apply_of_ne_of_ne hji hjm]
  have hgi : (f ∘ Equiv.swap i m) i = f m := by simp
  have hgm : (f ∘ Equiv.swap i m) m = f i := by simp
  constructor
  · intro c hc hcn hlo hne
    by_cases hcm : c = m
    · have hp : (c - 1) / 2 = i := by omega
      rw [hp, hgi, hcm, hgm]
      exact hlt
    by_cases hci : c = i
    · rw [hci, hgi, hat ((i - 1) / 2) (by omega) (by omega)]
      exact h.grand m (by omega) hmn (by omega) (by omega) (by omega)
    rw [hat c hci hcm]
    by_cases hp : (c - 1) / 2 = i
    · rw [hp, hgi]
      exact hmax c hcn (by omega)
    · rw [hat _ hp hne]
      exact h.off c hc hcn hlo hp
  · intro c hc hcn hp _ hlo
    have hi : (m - 1) / 2 = i := by omega
    rw [hi, hgi, hat c (by omega) (by omega), ← hp]
    exact h.off c hc hcn (by omega) (by omega)

theorem Ordered.root_max {f : ℕ → κ} {n : ℕ} (h : Ordered f n 0) (i : ℕ) (hi : i < n) :
    f i ≤ f 0 := by
  induction i using Nat.strong_induction_on with
  | _ i ih =>
    rcases Nat.eq_zero_or_pos i with rfl | hpos
    · exact le_refl _
    · exact (h i hpos hi (by omega)).trans (ih ((i - 1) / 2) (by omega) (by omega))

end Heap
