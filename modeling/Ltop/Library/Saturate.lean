import Mathlib

namespace Saturate

structure Sat (c : ℕ) where
  val : ℕ
  bounded : val ≤ c

namespace Sat

variable {c : ℕ}

theorem ext {a b : Sat c} (h : a.val = b.val) : a = b := by
  cases a
  cases b
  simpa using h

def clamp (n : ℕ) : Sat c := ⟨min n c, Nat.min_le_right _ _⟩

instance : Zero (Sat c) := ⟨⟨0, Nat.zero_le c⟩⟩

instance : Add (Sat c) := ⟨fun a b => clamp (a.val + b.val)⟩

@[simp] theorem val_zero : (0 : Sat c).val = 0 := rfl

theorem val_add (a b : Sat c) : (a + b).val = min (a.val + b.val) c := rfl

instance : AddCommMonoid (Sat c) where
  add_assoc a b d := by
    apply ext
    simp only [val_add]
    omega
  zero_add a := by
    apply ext
    have := a.bounded
    simp only [val_add, val_zero]
    omega
  add_zero a := by
    apply ext
    have := a.bounded
    simp only [val_add, val_zero]
    omega
  add_comm a b := by
    apply ext
    simp only [val_add, Nat.add_comm]
  nsmul := nsmulRec

theorem val_sum {ι : Type} (s : Finset ι) (f : ι → Sat c) :
    (∑ i ∈ s, f i).val = min (∑ i ∈ s, (f i).val) c := by
  classical
  induction s using Finset.induction_on with
  | empty => simp
  | insert i s hi ih =>
    have := (f i).bounded
    rw [Finset.sum_insert hi, Finset.sum_insert hi, val_add, ih]
    omega

def ofBool (b : Bool) : Sat 1 := ⟨b.toNat, Bool.toNat_le b⟩

@[simp] theorem ofBool_false : ofBool false = 0 := rfl

theorem ofBool_or (a b : Bool) : ofBool (a || b) = ofBool a + ofBool b := by
  apply ext
  cases a <;> cases b <;> simp [ofBool, val_add]

@[simp] theorem ofBool_pos (b : Bool) : 0 < (ofBool b).val ↔ b = true := by
  cases b <;> simp [ofBool]

theorem add_pos_iff (a b : Sat 1) : 0 < (a + b).val ↔ 0 < a.val ∨ 0 < b.val := by
  rw [val_add]
  omega

theorem sum_pos_iff {ι : Type} (s : Finset ι) (f : ι → Sat 1) :
    0 < (∑ i ∈ s, f i).val ↔ ∃ i ∈ s, 0 < (f i).val := by
  classical
  induction s using Finset.induction_on with
  | empty => simp
  | insert i s hi ih =>
    rw [Finset.sum_insert hi, add_pos_iff, ih]
    simp

end Sat

end Saturate
