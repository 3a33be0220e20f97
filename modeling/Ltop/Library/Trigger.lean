import Mathlib

namespace Trigger

variable {K : Type} [Field K] [LinearOrder K] [IsStrictOrderedRing K] {lo hi : K}

def threshold (lo hi : K) (was : Bool) : K := if was then lo else hi

inductive Tracks (lo hi : K) : Bool → List (K × Bool) → Prop
  | nil {was : Bool} : Tracks lo hi was []
  | cons {was now : Bool} {x : K} {rest : List (K × Bool)}
      (hnow : now = true ↔ threshold lo hi was ≤ x) (hrest : Tracks lo hi now rest) :
      Tracks lo hi was ((x, now) :: rest)

def flips : Bool → List Bool → ℕ
  | _, [] => 0
  | was, now :: rest => (if now = was then 0 else 1) + flips now rest

def variation : K → List K → K
  | _, [] => 0
  | last, x :: rest => |x - last| + variation x rest

def slack (lo hi : K) (was : Bool) (x : K) : K := if was then max 0 (hi - x) else max 0 (x - lo)

variable {was now : Bool} {x v : K} {obs : List (K × Bool)}

theorem slack_step (hnow : now = true ↔ threshold lo hi was ≤ x) :
    ((if now = was then 0 else 1 : ℕ) : K) * (hi - lo) + slack lo hi now x ≤
      |x - v| + slack lo hi was v := by
  have hup : x - v ≤ |x - v| := le_abs_self _
  have hdown : v - x ≤ |x - v| := by
    rw [abs_sub_comm]
    exact le_abs_self _
  have habs : 0 ≤ |x - v| := abs_nonneg _
  unfold threshold at hnow
  cases was with
  | true =>
    have hv := le_max_left 0 (hi - v)
    have hv' := le_max_right 0 (hi - v)
    cases now with
    | true =>
      simp only [slack, if_true, Nat.cast_zero, zero_mul, zero_add]
      exact max_le (by linarith) (by linarith)
    | false =>
      have hx : x < lo := by simpa using hnow
      simp only [slack, if_true, Bool.false_eq_true, if_false, Nat.cast_one, one_mul]
      rw [max_eq_left (by linarith)]
      linarith
  | false =>
    have hv := le_max_left 0 (v - lo)
    have hv' := le_max_right 0 (v - lo)
    cases now with
    | true =>
      have hx : hi ≤ x := by simpa using hnow
      simp only [slack, if_true, Bool.true_eq_false, Bool.false_eq_true, if_false, Nat.cast_one,
        one_mul]
      rw [max_eq_left (by linarith)]
      linarith
    | false =>
      simp only [slack, Bool.false_eq_true, if_true, if_false, Nat.cast_zero, zero_mul, zero_add]
      exact max_le (by linarith) (by linarith)

theorem flips_potential (h : Tracks lo hi was obs) (v : K) :
    flips was (obs.map (·.2)) * (hi - lo) ≤ variation v (obs.map (·.1)) + slack lo hi was v := by
  induction h generalizing v with
  | @nil was =>
    have hslack : 0 ≤ slack lo hi was v := by
      cases was <;> exact le_max_left _ _
    simpa [flips, variation] using hslack
  | @cons was now x rest hnow _ ih =>
    have hstep := slack_step (v := v) hnow
    have hrest := ih x
    rw [List.map_cons, List.map_cons, flips, variation, Nat.cast_add, add_mul]
    linarith

theorem flips_variation (hle : lo ≤ hi) (h : Tracks lo hi was ((x, now) :: obs)) :
    ((flips now (obs.map (·.2)) : K) - 1) * (hi - lo) ≤ variation x (obs.map (·.1)) := by
  cases h with
  | cons hnow hrest =>
    have hpot := flips_potential hrest x
    have hlow : threshold lo hi was ≤ hi ∧ lo ≤ threshold lo hi was := by
      cases was
      · exact ⟨le_rfl, hle⟩
      · exact ⟨hle, le_rfl⟩
    have hslack : slack lo hi now x ≤ hi - lo := by
      cases now with
      | true =>
        have hx := hnow.mp rfl
        exact max_le (by linarith) (by linarith)
      | false =>
        have hx : x < threshold lo hi was := by simpa using hnow
        exact max_le (by linarith) (by linarith)
    linarith

omit [Field K] [IsStrictOrderedRing K] in
theorem steady (h : Tracks lo hi was obs) (hband : ∀ o ∈ obs, lo ≤ o.1 ∧ o.1 < hi) :
    ∀ o ∈ obs, o.2 = was := by
  induction h with
  | nil => exact fun o ho => absurd ho List.not_mem_nil
  | @cons was now x rest hnow _ ih =>
    obtain ⟨⟨hlo, hhi⟩, hrest⟩ := List.forall_mem_cons.mp hband
    have hsame : now = was := by
      cases was with
      | true => exact hnow.mpr hlo
      | false =>
        rw [← Bool.not_eq_true]
        exact fun hon => absurd (hnow.mp hon) (not_le.mpr hhi)
    refine List.forall_mem_cons.mpr ⟨hsame, ?_⟩
    rw [← hsame]
    exact ih hrest

end Trigger
