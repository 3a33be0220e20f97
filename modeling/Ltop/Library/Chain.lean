import Mathlib

namespace Chain

variable {ι : Type} (parent : ι → Option ι)

def climb : ℕ → ι → Option ι
  | 0, i => some i
  | n + 1, i => (parent i).bind (climb n)

def Above (a i : ι) : Prop := ∃ n, climb parent (n + 1) i = some a

def Nearest (K : ι → Prop) (i a : ι) : Prop :=
  ∃ n, climb parent (n + 1) i = some a ∧ K a ∧
    ∀ m b, m < n → climb parent (m + 1) i = some b → ¬ K b

def Rooted (i : ι) : Prop := ∃ n r, climb parent n i = some r ∧ parent r = none

@[simp] theorem climb_zero (i : ι) : climb parent 0 i = some i := rfl

theorem climb_succ (n : ℕ) (i : ι) : climb parent (n + 1) i = (parent i).bind (climb parent n) := rfl

@[simp] theorem climb_one (i : ι) : climb parent 1 i = parent i := by
  simp [climb]

theorem climb_of_parent {i p : ι} (h : parent i = some p) (n : ℕ) :
    climb parent (n + 1) i = climb parent n p := by
  simp [climb_succ, h]

theorem climb_of_root {i : ι} (h : parent i = none) (n : ℕ) : climb parent (n + 1) i = none := by
  simp [climb_succ, h]

theorem climb_add (m n : ℕ) (i : ι) :
    climb parent (m + n) i = (climb parent m i).bind (climb parent n) := by
  induction m generalizing i with
  | zero => simp
  | succ m ih =>
    rw [Nat.add_right_comm, climb_succ, climb_succ]
    cases parent i with
    | none => rfl
    | some p => exact ih p

theorem climb_snoc (n : ℕ) (i : ι) : climb parent (n + 1) i = (climb parent n i).bind parent := by
  rw [climb_add]
  cases climb parent n i <;> simp

variable {parent}

theorem climb_some_of_le {m n : ℕ} {i a : ι} (h : climb parent n i = some a) (hm : m ≤ n) :
    ∃ b, climb parent m i = some b ∧ climb parent (n - m) b = some a := by
  rw [show n = m + (n - m) by omega, climb_add] at h
  cases hb : climb parent m i with
  | none => simp [hb] at h
  | some b =>
    refine ⟨b, rfl, ?_⟩
    simpa [hb] using h

theorem above_of_parent {i p : ι} (h : parent i = some p) : Above parent p i := ⟨0, by simpa⟩

theorem Above.step {a i p : ι} (hp : parent i = some p) (h : Above parent a p) :
    Above parent a i := by
  obtain ⟨n, hn⟩ := h
  exact ⟨n + 1, by rw [climb_of_parent parent hp, hn]⟩

theorem Above.trans {a b i : ι} (hab : Above parent a b) (hbi : Above parent b i) :
    Above parent a i := by
  obtain ⟨m, hm⟩ := hab
  obtain ⟨n, hn⟩ := hbi
  exact ⟨n + 1 + m, by
    rw [show n + 1 + m + 1 = (n + 1) + (m + 1) by omega, climb_add, hn]
    exact hm⟩

theorem above_iff {a i : ι} :
    Above parent a i ↔ ∃ p, parent i = some p ∧ (a = p ∨ Above parent a p) := by
  constructor
  · rintro ⟨n, hn⟩
    cases hp : parent i with
    | none => simp [climb_of_root parent hp] at hn
    | some p =>
      rw [climb_of_parent parent hp] at hn
      cases n with
      | zero => exact ⟨p, rfl, .inl (Option.some.inj hn).symm⟩
      | succ n => exact ⟨p, rfl, .inr ⟨n, hn⟩⟩
  · rintro ⟨p, hp, rfl | h⟩
    · exact above_of_parent hp
    · exact h.step hp

theorem nearest_iff {K : ι → Prop} {i a : ι} :
    Nearest parent K i a ↔
      ∃ p, parent i = some p ∧ (K p ∧ a = p ∨ ¬ K p ∧ Nearest parent K p a) := by
  constructor
  · rintro ⟨n, hn, ha, hmin⟩
    cases hp : parent i with
    | none => simp [climb_of_root parent hp] at hn
    | some p =>
      rw [climb_of_parent parent hp] at hn
      cases n with
      | zero =>
        obtain rfl := Option.some.inj hn
        exact ⟨p, rfl, .inl ⟨ha, rfl⟩⟩
      | succ n =>
        refine ⟨p, rfl, .inr ⟨hmin 0 p (by omega) (by simpa), n, hn, ha, ?_⟩⟩
        intro m b hm hb
        exact hmin (m + 1) b (by omega) (by rw [climb_of_parent parent hp, hb])
  · rintro ⟨p, hp, ⟨hk, rfl⟩ | ⟨hk, n, hn, ha, hmin⟩⟩
    · exact ⟨0, by simpa, hk, by simp⟩
    · refine ⟨n + 1, by rw [climb_of_parent parent hp, hn], ha, ?_⟩
      intro m b hm hb
      rw [climb_of_parent parent hp] at hb
      cases m with
      | zero => exact Option.some.inj hb ▸ hk
      | succ m => exact hmin m b (by omega) hb

theorem Nearest.unique {K : ι → Prop} {i a b : ι} (ha : Nearest parent K i a)
    (hb : Nearest parent K i b) : a = b := by
  obtain ⟨m, hm, hka, hma⟩ := ha
  obtain ⟨n, hn, hkb, hmb⟩ := hb
  rcases Nat.lt_trichotomy m n with h | rfl | h
  · exact absurd hka (hmb m a h hm)
  · exact Option.some.inj (hm.symm.trans hn)
  · exact absurd hkb (hma n b h hn)

theorem Nearest.kept {K : ι → Prop} {i a : ι} (h : Nearest parent K i a) : K a := by
  obtain ⟨_, _, hk, _⟩ := h
  exact hk

theorem Nearest.above {K : ι → Prop} {i a : ι} (h : Nearest parent K i a) : Above parent a i := by
  obtain ⟨n, hn, _⟩ := h
  exact ⟨n, hn⟩

theorem nearest_exists {K : ι → Prop} {i a : ι} (h : Above parent a i) (hk : K a) :
    ∃ b, Nearest parent K i b := by
  obtain ⟨n, hn⟩ := h
  induction n generalizing i with
  | zero => exact ⟨a, 0, hn, hk, by simp⟩
  | succ n ih =>
    cases hp : parent i with
    | none => simp [climb_of_root parent hp] at hn
    | some p =>
      by_cases hkp : K p
      · exact ⟨p, nearest_iff.mpr ⟨p, hp, .inl ⟨hkp, rfl⟩⟩⟩
      · obtain ⟨b, hb⟩ := ih (i := p) (by rwa [climb_of_parent parent hp] at hn)
        exact ⟨b, nearest_iff.mpr ⟨p, hp, .inr ⟨hkp, hb⟩⟩⟩

theorem climb_past_root {n m : ℕ} {i r : ι} (hn : climb parent n i = some r)
    (hr : parent r = none) (hm : n < m) : climb parent m i = none := by
  rw [show m = n + ((m - n - 1) + 1) by omega, climb_add, hn]
  exact climb_of_root parent hr _

theorem Rooted.up {i p : ι} (hp : parent i = some p) (h : Rooted parent i) :
    Rooted parent p := by
  obtain ⟨n, r, hn, hr⟩ := h
  cases n with
  | zero =>
    obtain rfl := Option.some.inj hn
    simp [hp] at hr
  | succ n => exact ⟨n, r, by rwa [climb_of_parent parent hp] at hn, hr⟩

theorem climb_cycle {p : ℕ} {i : ι} (h : climb parent p i = some i) (k : ℕ) :
    climb parent (k * p) i = some i := by
  induction k with
  | zero => simp
  | succ k ih =>
    rw [Nat.succ_mul, climb_add, ih]
    exact h

theorem not_rooted_of_closed {Q : ι → Prop} (hQ : ∀ i, Q i → ∃ p, parent i = some p ∧ Q p) {i : ι}
    (hi : Q i) : ¬ Rooted parent i := by
  rintro ⟨n, r, hn, hr⟩
  induction n generalizing i with
  | zero =>
    obtain ⟨p, hp, _⟩ := hQ i hi
    obtain rfl := Option.some.inj hn
    simp [hp] at hr
  | succ n ih =>
    obtain ⟨p, hp, hq⟩ := hQ i hi
    rw [climb_of_parent parent hp] at hn
    exact ih hq hn

theorem Above.of_cycle {a i : ι} (h : Above parent a i) (hc : Above parent i i) :
    Above parent a a := by
  obtain ⟨p, hp⟩ := hc
  have hmul := climb_cycle hp
  obtain ⟨m, hm⟩ := h
  have hlap := hmul (m + 2)
  obtain ⟨b, hb, hba⟩ := climb_some_of_le hlap (show m + 1 ≤ (m + 2) * (p + 1) by nlinarith)
  obtain rfl := Option.some.inj (hm.symm.trans hb)
  have hia : Above parent i a := by
    refine ⟨(m + 2) * (p + 1) - (m + 1) - 1, ?_⟩
    have : m + 2 ≤ (m + 2) * (p + 1) := by nlinarith
    rw [show (m + 2) * (p + 1) - (m + 1) - 1 + 1 = (m + 2) * (p + 1) - (m + 1) by omega]
    exact hba
  exact Above.trans ⟨m, hm⟩ hia

theorem Nearest.below {K : ι → Prop} {i a c : ι} (h : Nearest parent K i a)
    (hc : Above parent c i) (hk : K c) : a = c ∨ Above parent c a := by
  obtain ⟨n, hn, _, hmin⟩ := h
  obtain ⟨m, hm⟩ := hc
  rcases Nat.lt_trichotomy m n with hlt | rfl | hgt
  · exact absurd hk (hmin m c hlt hm)
  · exact .inl (Option.some.inj (hn.symm.trans hm))
  · obtain ⟨b, hb, hbc⟩ := climb_some_of_le hm (show n + 1 ≤ m + 1 by omega)
    obtain rfl := Option.some.inj (hn.symm.trans hb)
    refine .inr ⟨m - n - 1, ?_⟩
    rw [show m - n - 1 + 1 = m + 1 - (n + 1) by omega]
    exact hbc

theorem rooted_or_cycle (s : Finset ι) (hs : ∀ i p, parent i = some p → p ∈ s) (i : ι) :
    Rooted parent i ∨ ∃ c n, climb parent n i = some c ∧ Above parent c c := by
  by_cases hall : ∀ n, (climb parent n i).isSome
  · right
    have hmem : ∀ n ∈ Finset.range (s.card + 1), (climb parent (n + 1) i).get (hall _) ∈ s := by
      intro n _
      have hn := Option.some_get (hall (n + 1))
      have hsn := climb_snoc parent n i
      rw [← hn] at hsn
      obtain ⟨b, _, hb⟩ := Option.bind_eq_some_iff.mp hsn.symm
      exact hs b _ hb
    obtain ⟨x, _, y, _, hne, he⟩ :=
      Finset.exists_ne_map_eq_of_card_lt_of_maps_to (by simp) hmem
    have key : ∀ x y, x < y → (climb parent (x + 1) i).get (hall _) =
        (climb parent (y + 1) i).get (hall _) →
        ∃ c n, climb parent n i = some c ∧ Above parent c c := by
      intro x y hxy he
      have hx := Option.some_get (hall (x + 1))
      have hy := Option.some_get (hall (y + 1))
      refine ⟨_, x + 1, hx.symm, y - x - 1, ?_⟩
      have ha := climb_add parent (x + 1) (y - x - 1 + 1) i
      rw [show x + 1 + (y - x - 1 + 1) = y + 1 by omega, ← hx, ← hy, he] at ha
      rw [he]
      exact ha.symm
    rcases Nat.lt_or_gt_of_ne hne with h | h
    · exact key x y h he
    · exact key y x h he.symm
  · left
    push Not at hall
    classical
    have hex : ∃ n, climb parent n i = none := by
      obtain ⟨n, hn⟩ := hall
      exact ⟨n, by simpa using hn⟩
    have hspec := Nat.find_spec hex
    have hmin : ∀ m, m < Nat.find hex → climb parent m i ≠ none := fun m hm => Nat.find_min hex hm
    cases hfind : Nat.find hex with
    | zero => simp [hfind] at hspec
    | succ n =>
      rw [hfind] at hspec
      have hn := hmin n (by omega)
      obtain ⟨r, hr⟩ := Option.ne_none_iff_exists'.mp hn
      refine ⟨n, r, hr, ?_⟩
      simpa [climb_snoc, hr] using hspec

section Relabel

variable {κ : Type} {parent' : κ → Option κ} (e : κ ≃ ι)

theorem climb_relabel (h : ∀ i, parent' i = (parent (e i)).map e.symm) (n : ℕ) (i : κ) :
    climb parent' n i = (climb parent n (e i)).map e.symm := by
  induction n generalizing i with
  | zero => simp
  | succ n ih =>
    rw [climb_succ, climb_succ, h i]
    cases parent (e i) with
    | none => rfl
    | some p => rw [Option.map_some, Option.bind_some, Option.bind_some, ih, e.apply_symm_apply]

theorem climb_relabel_some (h : ∀ i, parent' i = (parent (e i)).map e.symm) {n : ℕ} {i a : κ} :
    climb parent' n i = some a ↔ climb parent n (e i) = some (e a) := by
  rw [climb_relabel e h, Option.map_eq_some_iff]
  constructor
  · rintro ⟨b, hb, rfl⟩
    rw [hb, e.apply_symm_apply]
  · exact fun hb => ⟨e a, hb, e.symm_apply_apply a⟩

theorem above_relabel (h : ∀ i, parent' i = (parent (e i)).map e.symm) {a i : κ} :
    Above parent' a i ↔ Above parent (e a) (e i) :=
  exists_congr fun _ => climb_relabel_some e h

theorem nearest_relabel (h : ∀ i, parent' i = (parent (e i)).map e.symm) {K : ι → Prop} {i a : κ} :
    Nearest parent' (fun k => K (e k)) i a ↔ Nearest parent K (e i) (e a) := by
  simp only [Nearest, climb_relabel_some e h]
  refine exists_congr fun n => and_congr_right fun _ => and_congr_right fun _ => ?_
  constructor
  · intro hmin m b hm hb
    obtain ⟨c, rfl⟩ := e.surjective b
    exact hmin m c hm hb
  · exact fun hmin m b hm hb => hmin m (e b) hm hb

end Relabel

end Chain
