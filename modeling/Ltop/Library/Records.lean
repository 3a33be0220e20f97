import Mathlib

namespace Records

variable {α : Type} (w : ℕ)

def record (ws : List α) (i : ℕ) : List α := (ws.drop (i * w)).take w

def records (n : ℕ) (ws : List α) : List (List α) := (List.range n).map (record w ws)

variable {w} {n i j c k r : ℕ} {ws vs : List α}

theorem record_getElem? (hc : c < w) : (record w ws i)[c]? = ws[i * w + c]? := by
  rw [record, List.getElem?_take_of_lt hc, List.getElem?_drop]

theorem record_ext (h : ∀ c, c < w → vs[i * w + c]? = ws[j * w + c]?) :
    record w vs i = record w ws j := by
  apply List.ext_getElem?
  intro c
  rcases Nat.lt_or_ge c w with hc | hc
  · rw [record_getElem? hc, record_getElem? hc, h c hc]
  · have hout : ∀ (us : List α) (r : ℕ), (record w us r)[c]? = none := fun us r =>
      List.getElem?_eq_none ((List.length_take_le w _).trans hc)
    rw [hout, hout]

theorem record_flatMap {β : Type} {f : β → List α} {l : List β} (h : ∀ b ∈ l, (f b).length = w)
    (hi : i < l.length) : record w (l.flatMap f) i = f (l.get ⟨i, hi⟩) := by
  induction l generalizing i with
  | nil => exact absurd hi (Nat.not_lt_zero i)
  | cons b l ih =>
    obtain ⟨hb, hl⟩ := List.forall_mem_cons.mp h
    rw [record, List.flatMap_cons]
    cases i with
    | zero =>
      rw [Nat.zero_mul, List.drop_zero, List.take_append_of_le_length hb.ge,
        List.take_of_length_le hb.le]
      rfl
    | succ i =>
      rw [Nat.succ_mul, Nat.add_comm, ← List.drop_drop, List.drop_left' hb]
      exact ih hl (Nat.lt_of_succ_lt_succ hi)

theorem record_head (hw : 0 < w) : (record w ws i).head? = ws[i * w]? := by
  rw [List.head?_eq_getElem?, record_getElem? hw, Nat.add_zero]

theorem records_length : (records w n ws).length = n := by
  rw [records, List.length_map, List.length_range]

theorem records_getElem? (hi : i < n) : (records w n ws)[i]? = some (record w ws i) := by
  rw [records, List.getElem?_map, List.getElem?_range hi]
  rfl

theorem slot_lt (hi : i < n) (hc : c < w) : i * w + c < n * w :=
  calc i * w + c < i * w + w := Nat.add_lt_add_left hc _
    _ = (i + 1) * w := (Nat.succ_mul i w).symm
    _ ≤ n * w := Nat.mul_le_mul_right w hi

theorem slot_inj (hc : c < w) (hk : k < w) (h : i * w + c = j * w + k) : i = j ∧ c = k := by
  have hpos : 0 < w := Nat.zero_lt_of_lt hc
  have hdiv := congrArg (· / w) h
  have hmod := congrArg (· % w) h
  simp only [Nat.mul_comm _ w, Nat.mul_add_div hpos, Nat.div_eq_of_lt hc, Nat.div_eq_of_lt hk,
    Nat.add_zero] at hdiv
  simp only [Nat.mul_comm _ w, Nat.mul_add_mod, Nat.mod_eq_of_lt hc, Nat.mod_eq_of_lt hk] at hmod
  exact ⟨hdiv, hmod⟩

theorem swap_slot (hc : c < w) (hk : k < w) :
    Equiv.swap (i * w + k) (j * w + k) (r * w + c) =
      (if c = k then Equiv.swap i j r else r) * w + c := by
  split
  · rename_i hck
    subst hck
    have hinj : Function.Injective fun x => x * w + c := fun _ _ h => (slot_inj hc hc h).1
    exact (hinj.map_swap i j r).symm
  · rename_i hck
    have hne : ∀ x, r * w + c ≠ x * w + k := fun _ h => hck (slot_inj hc hk h).2
    exact Equiv.swap_apply_of_ne_of_ne (hne i) (hne j)

end Records
