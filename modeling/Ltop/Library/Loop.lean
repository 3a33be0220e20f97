import Mathlib

namespace Loop

variable {σ : Type} (step : σ → Option σ)

def iterate : ℕ → σ → σ
  | 0, s => s
  | n + 1, s => match step s with
    | none => s
    | some t => iterate n t

def run (n : ℕ) (s : σ) : Option σ :=
  if (step (iterate step n s)).isNone then some (iterate step n s) else none

theorem iterate_done {s : σ} (h : step s = none) (n : ℕ) : iterate step n s = s := by
  cases n with
  | zero => rfl
  | succ n => simp [iterate, h]

theorem iterate_step {s t : σ} (h : step s = some t) (n : ℕ) :
    iterate step (n + 1) s = iterate step n t := by
  simp [iterate, h]

theorem iterate_invariant (Inv : σ → Prop) (hinv : ∀ s t, Inv s → step s = some t → Inv t)
    (n : ℕ) {s : σ} (hs : Inv s) : Inv (iterate step n s) := by
  induction n generalizing s with
  | zero => exact hs
  | succ n ih =>
    cases h : step s with
    | none => rwa [iterate_done step h]
    | some t =>
      rw [iterate_step step h]
      exact ih (hinv s t hs h)

theorem iterate_halts (Inv : σ → Prop) (variant : σ → ℕ)
    (hinv : ∀ s t, Inv s → step s = some t → Inv t)
    (hvar : ∀ s t, Inv s → step s = some t → variant t < variant s)
    (n : ℕ) {s : σ} (hs : Inv s) (hn : variant s ≤ n) : step (iterate step n s) = none := by
  induction n generalizing s with
  | zero =>
    cases h : step s with
    | none => simpa [iterate] using h
    | some t =>
      have := hvar s t hs h
      omega
  | succ n ih =>
    cases h : step s with
    | none => rwa [iterate_done step h]
    | some t =>
      rw [iterate_step step h]
      have := hvar s t hs h
      exact ih (hinv s t hs h) (by omega)

theorem run_total (Inv : σ → Prop) (variant : σ → ℕ)
    (hinv : ∀ s t, Inv s → step s = some t → Inv t)
    (hvar : ∀ s t, Inv s → step s = some t → variant t < variant s)
    (n : ℕ) {s : σ} (hs : Inv s) (hn : variant s ≤ n) :
    ∃ t, run step n s = some t ∧ Inv t ∧ step t = none := by
  have hdone := iterate_halts step Inv variant hinv hvar n hs hn
  exact ⟨_, by simp [run, hdone], iterate_invariant step Inv hinv n hs, hdone⟩

variable {step} in
theorem iterate_map {τ : Type} {step' : τ → Option τ} {f : σ → τ}
    (h : ∀ s, (step s).map f = step' (f s)) (n : ℕ) (s : σ) :
    f (iterate step n s) = iterate step' n (f s) := by
  induction n generalizing s with
  | zero => rfl
  | succ n ih =>
    have hs := h s
    cases hstep : step s with
    | none =>
      rw [hstep] at hs
      rw [iterate_done step hstep, iterate_done step' hs.symm]
    | some t =>
      rw [hstep] at hs
      rw [iterate_step step hstep, iterate_step step' hs.symm, ih]

variable {step} in
theorem run_map {τ : Type} {step' : τ → Option τ} {f : σ → τ}
    (h : ∀ s, (step s).map f = step' (f s)) (n : ℕ) (s : σ) :
    (run step n s).map f = run step' n (f s) := by
  unfold run
  rw [← iterate_map h, ← h, Option.isNone_map]
  split <;> rfl

theorem run_eq_some {n : ℕ} {s t : σ} (h : run step n s = some t) :
    iterate step n s = t ∧ step t = none := by
  unfold run at h
  split at h
  · rename_i hn
    obtain rfl := Option.some.inj h
    exact ⟨rfl, Option.isNone_iff_eq_none.mp hn⟩
  · cases h

end Loop
