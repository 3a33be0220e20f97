import Mathlib

namespace Search

variable {T : Type} (key : T → ℕ)

def above (xs : List T) (k i : ℕ) : Bool := (xs[i]?).any fun x => k < key x

def narrow (xs : List T) (k : ℕ) : ℕ → ℕ → ℕ → ℕ
  | 0, base, _ => base
  | fuel + 1, base, size =>
    if 1 < size then
      let half := size / 2
      let mid := base + half
      narrow xs k fuel (if above key xs k mid then base else mid) (size - half)
    else base

def search (xs : List T) (k : ℕ) : Option ℕ :=
  let base := narrow key xs k xs.length 0 xs.length
  if (xs[base]?).any (fun x => key x = k) then some base else none

variable {key} {xs : List T} {k : ℕ}

theorem above_iff (hs : xs.Pairwise fun a b => key a < key b) {i j : ℕ} {x : T}
    (hx : xs[i]? = some x) (hk : key x = k) (hj : j < xs.length) :
    above key xs k j = true ↔ i < j := by
  obtain ⟨hi, rfl⟩ := List.getElem?_eq_some_iff.mp hx
  have hrel : ∀ (a b : ℕ) (ha : a < xs.length) (hb : b < xs.length), a < b →
      key xs[a] < key xs[b] := fun a b ha hb => List.pairwise_iff_getElem.mp hs a b ha hb
  rw [above, List.getElem?_eq_getElem hj, Option.any_some, decide_eq_true_eq, ← hk]
  rcases Nat.lt_trichotomy i j with h | rfl | h
  · exact iff_of_true (hrel i j hi hj h) h
  · exact iff_of_false (lt_irrefl _) (lt_irrefl _)
  · exact iff_of_false (hrel j i hj hi h).le.not_gt h.le.not_gt

theorem narrow_finds (hs : xs.Pairwise fun a b => key a < key b) {i : ℕ} {x : T}
    (hx : xs[i]? = some x) (hk : key x = k) {fuel base size : ℕ} (hlo : base ≤ i)
    (hhi : i < base + size) (hin : base + size ≤ xs.length) (hf : size ≤ fuel + 1) :
    narrow key xs k fuel base size = i := by
  induction fuel generalizing base size with
  | zero =>
    rw [narrow]
    omega
  | succ fuel ih =>
    rw [narrow]
    split
    · rename_i hsize
      have habove := above_iff hs hx hk (show base + size / 2 < xs.length by omega)
      dsimp only
      split
      · rename_i h
        have hlt := habove.mp h
        exact ih hlo (by omega) (by omega) (by omega)
      · rename_i h
        have hle := Nat.le_of_not_lt fun hlt => h (habove.mpr hlt)
        exact ih hle (by omega) (by omega) (by omega)
    · omega

theorem search_sound {i : ℕ} (h : search key xs k = some i) : ∃ x, xs[i]? = some x ∧ key x = k := by
  unfold search at h
  dsimp only at h
  split at h
  · rename_i hany
    obtain rfl := Option.some.inj h
    cases hx : xs[narrow key xs k xs.length 0 xs.length]? with
    | none => simp [hx] at hany
    | some x => exact ⟨x, rfl, by simpa [hx] using hany⟩
  · cases h

theorem search_complete (hs : xs.Pairwise fun a b => key a < key b) {i : ℕ} {x : T}
    (hx : xs[i]? = some x) (hk : key x = k) : search key xs k = some i := by
  have hi := (List.getElem?_eq_some_iff.mp hx).1
  have hbase := narrow_finds hs hx hk (Nat.zero_le i) (show i < 0 + xs.length by omega)
    (Nat.zero_add _).le (Nat.le_succ xs.length)
  unfold search
  dsimp only
  rw [hbase, hx, if_pos (by simp [hk])]

end Search
