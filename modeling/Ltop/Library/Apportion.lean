import Mathlib

namespace Apportion

open Finset

def proportional (budget total w : ℕ) : ℕ := budget * w / total

theorem sum_proportional_le (budget m : ℕ) (size : ℕ → ℕ) :
    ∑ k ∈ range m, proportional budget (∑ j ∈ range m, size j) (size k) ≤ budget := by
  generalize htotal : ∑ j ∈ range m, size j = total
  have hfloor : ∀ i, ∑ k ∈ range i, proportional budget total (size k) ≤
      budget * (∑ k ∈ range i, size k) / total := by
    intro i
    induction i with
    | zero => simp
    | succ i ih =>
      simp only [sum_range_succ, mul_add]
      exact (Nat.add_le_add_right ih _).trans Nat.div_add_div_le_add_div
  calc ∑ k ∈ range m, proportional budget total (size k)
      ≤ budget * total / total := by simpa only [htotal] using hfloor m
    _ ≤ budget := Nat.div_le_of_le_mul (Nat.mul_comm budget total).le

theorem le_proportional {budget total w : ℕ} (hb : total ≤ budget) (hw : w ≤ total) :
    w ≤ proportional budget total w := by
  rcases Nat.eq_zero_or_pos total with h | h
  · omega
  · exact (Nat.le_div_iff_mul_le h).mpr ((Nat.mul_comm w total).le.trans (Nat.mul_le_mul_right w hb))

variable (share size : ℕ → ℕ) (budget m : ℕ)

def spent (k : ℕ) : ℕ := ∑ j ∈ range k, min (share j) (size j)

def slot (k : ℕ) : ℕ := if k + 1 = m then budget - spent share size k else share k

def used (k : ℕ) : ℕ := min (slot share size budget m k) (size k)

variable {share size budget m}

theorem sum_used {k : ℕ} (hk : k < m) :
    ∑ j ∈ range k, used share size budget m j = spent share size k := by
  refine sum_congr rfl fun j hj => ?_
  have hlt := mem_range.mp hj
  simp only [used, slot, if_neg (show ¬ j + 1 = m by omega)]

theorem sum_used_le (hs : ∑ k ∈ range m, share k ≤ budget) {i : ℕ} (hi : i ≤ m) :
    ∑ j ∈ range i, used share size budget m j ≤ budget := by
  have hspent : ∀ k ≤ m, spent share size k ≤ budget := by
    intro k hk
    calc spent share size k ≤ ∑ j ∈ range k, share j := sum_le_sum fun j _ => Nat.min_le_left _ _
      _ ≤ ∑ j ∈ range m, share j := sum_le_sum_of_subset (range_mono hk)
      _ ≤ budget := hs
  rcases Nat.lt_or_ge i m with hlt | hge
  · simpa only [sum_used hlt] using hspent i hi
  · obtain rfl : i = m := by omega
    cases i with
    | zero => simp
    | succ k =>
      have hlast : used share size budget (k + 1) k ≤ budget - spent share size k := by
        simp [used, slot]
      have hle := hspent k (by omega)
      rw [sum_range_succ, sum_used (by omega)]
      omega

theorem size_le_slot (hs : ∀ k < m, size k ≤ share k) (hb : ∑ k ∈ range m, size k ≤ budget)
    {k : ℕ} (hk : k < m) : size k ≤ slot share size budget m k := by
  unfold slot
  split
  · rename_i hlast
    have hspent : spent share size k ≤ ∑ j ∈ range k, size j :=
      sum_le_sum fun j _ => Nat.min_le_right _ _
    rw [← hlast, sum_range_succ] at hb
    omega
  · exact hs k hk

end Apportion
