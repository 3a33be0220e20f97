import Mathlib

namespace Transfer

variable {ι α M : Type} [DecidableEq ι] (R : ι → Option ι)

def move (i loc : ι) : ι := if loc = i then (R i).getD i else loc

def settle (l : List ι) (k : ι) : ι := l.foldl (fun loc i => move R i loc) k

@[simp] theorem settle_nil (k : ι) : settle R [] k = k := rfl

@[simp] theorem settle_cons (i : ι) (l : List ι) (k : ι) :
    settle R (i :: l) k = settle R l (move R i k) := rfl

theorem move_of_none {i : ι} (h : R i = none) (k : ι) : move R i k = k := by
  unfold move
  split
  · rename_i hk
    simp [h, hk]
  · rfl

theorem move_of_ne {i k : ι} (h : k ≠ i) : move R i k = k := if_neg h

theorem move_self {i t : ι} (h : R i = some t) : move R i i = t := by
  simp [move, h]

theorem settle_of_none {k : ι} (h : R k = none) (l : List ι) : settle R l k = k := by
  induction l with
  | nil => rfl
  | cons i l ih =>
    rw [settle_cons]
    by_cases hk : k = i
    · rw [move_of_none R (hk ▸ h), ih]
    · rw [move_of_ne R hk, ih]

theorem settle_of_some {k r : ι} (h : R k = some r) (hr : R r = none) {l : List ι} (hk : k ∈ l) :
    settle R l k = r := by
  induction l with
  | nil => simp at hk
  | cons i l ih =>
    rw [settle_cons]
    by_cases hi : k = i
    · rw [← hi, move_self R h, settle_of_none R hr]
    · rw [move_of_ne R hi, ih ((List.mem_cons.mp hk).resolve_left hi)]

theorem settle_target (l : List ι) (k : ι) :
    settle R l k = k ∨ ∃ j, R j = some (settle R l k) := by
  induction l generalizing k with
  | nil => exact .inl rfl
  | cons i l ih =>
    rw [settle_cons]
    rcases ih (move R i k) with h | h
    · by_cases hk : k = i
      · cases hi : R i with
        | none => exact .inl (h.trans (move_of_none R hi k))
        | some t =>
          rw [hk, move_self R hi] at h ⊢
          exact .inr ⟨i, by rw [h, hi]⟩
      · exact .inl (h.trans (move_of_ne R hk))
    · exact .inr h

theorem settle_eq_iff (hR : ∀ i r, R i = some r → R r = none) {l : List ι} (hl : ∀ i, i ∈ l)
    {r : ι} (hr : R r = none) (k : ι) : settle R l k = r ↔ k = r ∨ R k = some r := by
  cases hk : R k with
  | none =>
    rw [settle_of_none R hk]
    simp
  | some t =>
    rw [settle_of_some R hk (hR k t hk) (hl k), Option.some.injEq]
    constructor
    · exact .inr
    · rintro (rfl | h)
      · simp [hr] at hk
      · exact h

theorem settle_ne (hR : ∀ i r, R i = some r → R r = none) {l : List ι} (hl : ∀ i, i ∈ l)
    {i r : ι} (hi : R i = some r) (k : ι) : settle R l k ≠ i := by
  cases hk : R k with
  | none =>
    rw [settle_of_none R hk]
    rintro rfl
    simp [hi] at hk
  | some t =>
    rw [settle_of_some R hk (hR k t hk) (hl k)]
    rintro rfl
    simp [hR k t hk] at hi

def transfer (clear : α → α) (absorb : α → α → α) (s : ι → α) (i : ι) : ι → α :=
  match R i with
  | none => s
  | some r =>
    let cleared := Function.update s i (clear (s i))
    Function.update cleared r (absorb (s i) (cleared r))

section Run

variable {R} {R' : ι → Option ι} {β : Type} {clear : α → α} {absorb : α → α → α} {l : List ι}

theorem transfer_apply (s : ι → α) (i k : ι) : transfer R clear absorb s i k =
    let moved := if R i ≠ none ∧ k = i then clear (s i) else s k
    if R i = some k then absorb (s i) moved else moved := by
  unfold transfer
  cases R i with
  | none => simp
  | some r =>
    by_cases hr : k = r
    · subst hr
      simp [Function.update_apply]
    · simp [Function.update_apply, hr, Ne.symm hr]

theorem transfer_map (φ : α → β) {clear' : β → β} {absorb' : β → β → β}
    (hclear : ∀ a, φ (clear a) = clear' (φ a))
    (habsorb : ∀ k p, φ (absorb k p) = absorb' (φ k) (φ p)) (s : ι → α) (i k : ι) :
    φ (transfer R clear absorb s i k) = transfer R clear' absorb' (fun j => φ (s j)) i k := by
  simp only [transfer_apply]
  split <;> split <;> simp only [hclear, habsorb]

theorem run_map (φ : α → β) {clear' : β → β} {absorb' : β → β → β}
    (hclear : ∀ a, φ (clear a) = clear' (φ a))
    (habsorb : ∀ k p, φ (absorb k p) = absorb' (φ k) (φ p)) (l : List ι) (s : ι → α) (k : ι) :
    φ (l.foldl (transfer R clear absorb) s k) =
      l.foldl (transfer R clear' absorb') (fun j => φ (s j)) k := by
  induction l generalizing s with
  | nil => rfl
  | cons i l ih =>
    rw [List.foldl_cons, List.foldl_cons, ih, ← funext (transfer_map φ hclear habsorb s i)]

theorem run_untouched {i : ι} (hi : R i = none ∨ i ∉ l) (htarget : ∀ k, R k ≠ some i) (s : ι → α) :
    l.foldl (transfer R clear absorb) s i = s i := by
  induction l generalizing s with
  | nil => rfl
  | cons j l ih =>
    have hne : ¬ (R j ≠ none ∧ i = j) := by
      rintro ⟨hj, rfl⟩
      exact hi.elim hj fun hmem => hmem (.head _)
    rw [List.foldl_cons, ih (hi.imp_right fun hmem hl => hmem (.tail _ hl)), transfer_apply]
    simp only [if_neg (htarget j), if_neg hne]

theorem run_folded (hR : ∀ i r, R i = some r → R r = none) (hclear : ∀ a b, clear a = clear b)
    {i r : ι} (hi : R i = some r) (hl : i ∈ l) (s : ι → α) :
    l.foldl (transfer R clear absorb) s i = clear (s i) := by
  have htarget : ∀ k, R k ≠ some i := fun k hk => by simp [hR k i hk] at hi
  induction l generalizing s with
  | nil => cases hl
  | cons j l ih =>
    rw [List.foldl_cons]
    by_cases hmem : i ∈ l
    · exact (ih hmem _).trans (hclear _ _)
    · obtain rfl := (List.mem_cons.mp hl).resolve_right hmem
      have hsome : R i ≠ none := by simp [hi]
      rw [run_untouched (.inr hmem) htarget, transfer_apply]
      simp only [if_neg (htarget i), hsome, ne_eq, not_false_eq_true, and_self, if_true]

theorem run_terminal (hR : ∀ i r, R i = some r → R r = none) (hnd : l.Nodup) {r : ι}
    (hr : R r = none) (s : ι → α) :
    l.foldl (transfer R clear absorb) s r =
      (l.filter fun k => R k = some r).foldl (fun p k => absorb (s k) p) (s r) := by
  induction l generalizing s with
  | nil => rfl
  | cons i l ih =>
    obtain ⟨hi, hnd⟩ := List.nodup_cons.mp hnd
    have hself : ¬ (R i ≠ none ∧ r = i) := by
      rintro ⟨hi, rfl⟩
      exact hi hr
    have hrest : ∀ p, (l.filter fun k => R k = some r).foldl
        (fun p k => absorb (transfer R clear absorb s i k) p) p =
        (l.filter fun k => R k = some r).foldl (fun p k => absorb (s k) p) p := by
      intro p
      refine List.foldl_ext _ _ p fun q k hk => ?_
      obtain ⟨hmem, hk⟩ := List.mem_filter.mp hk
      have hki : k ≠ i := fun h => hi (h ▸ hmem)
      have htarget : R i ≠ some k := by
        intro h
        rw [hR i k h] at hk
        simp at hk
      rw [transfer_apply]
      simp only [if_neg htarget, hki, and_false, if_false]
    rw [List.foldl_cons, ih hnd, hrest, transfer_apply]
    simp only [if_neg hself]
    by_cases hir : R i = some r
    · simp [hir]
    · simp [hir]

theorem settle_congr (hnd : l.Nodup) {i : ι}
    (h : ∀ k ∈ l, settle R l k = i ∨ settle R' l k = i → R k = R' k) (k : ι) :
    settle R l k = i ↔ settle R' l k = i := by
  induction l generalizing k with
  | nil => rfl
  | cons j l ih =>
    obtain ⟨hj, hnd⟩ := List.nodup_cons.mp hnd
    have hrest : ∀ k, settle R l k = i ↔ settle R' l k = i := by
      refine ih hnd fun k hk hs => h k (.tail _ hk) ?_
      have hkj : k ≠ j := fun he => hj (he ▸ hk)
      rwa [settle_cons, settle_cons, move_of_ne R hkj, move_of_ne R' hkj]
    have hmove : settle R (j :: l) k = i ∨ settle R' (j :: l) k = i → move R j k = move R' j k := by
      intro hs
      by_cases hkj : k = j
      · subst hkj
        rw [move, move, h k (.head _) hs]
      · rw [move_of_ne R hkj, move_of_ne R' hkj]
    constructor
    · intro hs
      rw [settle_cons] at hs ⊢
      rw [← hmove (.inl hs)]
      exact (hrest _).mp hs
    · intro hs
      rw [settle_cons] at hs ⊢
      rw [hmove (.inr hs)]
      exact (hrest _).mpr hs

theorem run_congr (hclear : ∀ a b, clear a = clear b) (hnd : l.Nodup) {i : ι} {s s' : ι → α}
    (hroot : ∀ k ∈ l, settle R l k = i ∨ settle R' l k = i → R k = R' k)
    (hsame : ∀ k, settle R l k = i → s k = s' k) :
    l.foldl (transfer R clear absorb) s i = l.foldl (transfer R' clear absorb) s' i := by
  induction l generalizing s s' with
  | nil => exact hsame i rfl
  | cons j l ih =>
    obtain ⟨hj, hndl⟩ := List.nodup_cons.mp hnd
    have hiff := settle_congr hnd hroot
    have hne : ∀ {k}, k ∈ l → k ≠ j := fun hk he => hj (he ▸ hk)
    have hrest : ∀ k ∈ l, settle R l k = i ∨ settle R' l k = i → R k = R' k := by
      intro k hk hs
      refine hroot k (.tail _ hk) ?_
      rwa [settle_cons, settle_cons, move_of_ne R (hne hk), move_of_ne R' (hne hk)]
    have hfrom : ∀ k, settle R l k = i → (R j = some k ∨ R' j = some k) →
        R j = R' j ∧ s j = s' j := by
      intro k hs hk
      have hcons : settle R (j :: l) j = i ∨ settle R' (j :: l) j = i := by
        rcases hk with hk | hk
        · exact .inl (by rw [settle_cons, move_self R hk, hs])
        · exact .inr (by rw [settle_cons, move_self R' hk, (settle_congr hndl hrest k).mp hs])
      exact ⟨hroot j (.head _) hcons, hsame j (hcons.elim id (hiff j).mpr)⟩
    rw [List.foldl_cons, List.foldl_cons]
    refine ih hndl hrest fun k hs => ?_
    have hplain : k ≠ j → s k = s' k := fun hkj =>
      hsame k (by rwa [settle_cons, move_of_ne R hkj])
    rw [transfer_apply, transfer_apply]
    by_cases hk : R j = some k ∨ R' j = some k
    · obtain ⟨hRj, hsj⟩ := hfrom k hs hk
      have hkR : R j = some k := hk.elim id fun h => hRj.trans h
      have hmoved : (if k = j then clear (s j) else s k) = if k = j then clear (s' j) else s' k := by
        by_cases hkj : k = j
        · rw [if_pos hkj, if_pos hkj, hsj]
        · rw [if_neg hkj, if_neg hkj, hplain hkj]
      simp only [← hRj, hkR, ne_eq, reduceCtorEq, not_false_eq_true, true_and, if_true]
      rw [hmoved, hsj]
    · obtain ⟨hkR, hkR'⟩ := not_or.mp hk
      simp only [if_neg hkR, if_neg hkR']
      by_cases hkj : k = j
      · subst hkj
        have hstay : R k = none ∨ R' k = none → R k = R' k ∧ s k = s' k := by
          rintro (h | h)
          · have hcons : settle R (k :: l) k = i := by rwa [settle_cons, move_of_none R h]
            exact ⟨hroot k (.head _) (.inl hcons), hsame k hcons⟩
          · have hcons : settle R' (k :: l) k = i := by
              rw [settle_cons, move_of_none R' h]
              exact (settle_congr hndl hrest k).mp hs
            exact ⟨hroot k (.head _) (.inr hcons), hsame k ((hiff k).mpr hcons)⟩
        by_cases hnone : R k = none ∨ R' k = none
        · obtain ⟨hRk, hsk⟩ := hstay hnone
          rw [← hRk, hsk]
        · obtain ⟨hRk, hRk'⟩ := not_or.mp hnone
          rw [if_pos ⟨hRk, rfl⟩, if_pos ⟨hRk', rfl⟩]
          exact hclear _ _
      · simp only [hkj, and_false, if_false]
        exact hplain hkj

end Run

variable [AddCommMonoid M]

def emitted (E : ι → M) (r : ι) : List ι → M
  | [] => 0
  | i :: l =>
    (match R i with
      | none => 0
      | some t => if settle R l t = r then E t else 0) + emitted E r l

theorem emitted_zero (r : ι) (l : List ι) : emitted R (fun _ => (0 : M)) r l = 0 := by
  induction l with
  | nil => rfl
  | cons i l ih =>
    rw [emitted, ih, add_zero]
    split
    · rfl
    · simp

theorem emitted_terminal (hR : ∀ i r, R i = some r → R r = none) (E : ι → M) (r : ι) (l : List ι) :
    emitted R E r l = (l.map fun i => if R i = some r then E r else 0).sum := by
  induction l with
  | nil => rfl
  | cons i l ih =>
    rw [emitted, ih, List.map_cons, List.sum_cons]
    congr 1
    cases hi : R i with
    | none => simp
    | some t =>
      dsimp only
      rw [settle_of_none R (hR i t hi)]
      by_cases ht : t = r
      · simp [ht]
      · simp [ht]

variable {clear : α → α} {absorb : α → α → α} {φ : α → M} {e : α → M}

structure Observes (clear : α → α) (absorb : α → α → α) (φ e : α → M) : Prop where
  cleared : ∀ a, φ (clear a) = 0
  absorbed : ∀ k p, φ (absorb k p) = φ p + φ k + e p
  kept_clear : ∀ a, e (clear a) = e a
  kept_absorb : ∀ k p, e (absorb k p) = e p

theorem transfer_kept (ho : Observes clear absorb φ e) (s : ι → α) (i k : ι) :
    e (transfer R clear absorb s i k) = e (s k) := by
  unfold transfer
  cases R i with
  | none => rfl
  | some t =>
    by_cases hk : k = t
    · subst hk
      by_cases hi : k = i
      · subst hi
        simp [ho.kept_absorb, ho.kept_clear]
      · simp [ho.kept_absorb, hi]
    · by_cases hi : k = i
      · subst hi
        simp [hk, ho.kept_clear]
      · simp [hk, hi]

variable [Fintype ι]

theorem sum_moved (P : ι → Prop) [DecidablePred P] (g : ι → ι) (f : ι → M) :
    ∑ k with P k, ∑ j with g j = k, f j = ∑ j with P (g j), f j := by
  simp only [Finset.sum_filter]
  calc (∑ k, if P k then ∑ j, if g j = k then f j else 0 else 0)
      = ∑ k, ∑ j, if g j = k then (if P k then f j else 0) else 0 := by
        refine Finset.sum_congr rfl fun k _ => ?_
        by_cases hk : P k <;> simp [hk]
    _ = ∑ j, ∑ k, if g j = k then (if P k then f j else 0) else 0 := Finset.sum_comm
    _ = ∑ j, if P (g j) then f j else 0 := by simp

theorem fiber_none {i : ι} (h : R i = none) (f : ι → M) (k : ι) :
    ∑ j with move R i j = k, f j = f k := by
  simp only [move_of_none R h]
  rw [Finset.sum_filter]
  simp

theorem fiber_some {i t : ι} (h : R i = some t) (f : ι → M) (k : ι) :
    ∑ j with move R i j = k, f j = (if k = i then 0 else f k) + (if k = t then f i else 0) := by
  have hone : ∀ j, (if move R i j = k then f j else 0) =
      (if j = k then (if k = i then 0 else f k) else 0) +
        (if j = i then (if k = t then f i else 0) else 0) := by
    intro j
    by_cases hj : j = i
    · subst hj
      rw [move_self R h, if_pos rfl]
      by_cases hk : j = k
      · subst hk
        rw [if_pos rfl, if_pos rfl, zero_add]
        exact if_congr eq_comm rfl rfl
      · rw [if_neg hk, zero_add]
        exact if_congr eq_comm rfl rfl
    · rw [move_of_ne R hj]
      by_cases hk : j = k
      · subst hk
        simp [hj]
      · simp [hk, hj]
  rw [Finset.sum_filter, Finset.sum_congr rfl fun j _ => hone j, Finset.sum_add_distrib]
  simp

theorem transfer_obs (ho : Observes clear absorb φ e) (s : ι → α) (i k : ι) :
    φ (transfer R clear absorb s i k) = ∑ j with move R i j = k, φ (s j) +
      (match R i with
        | none => 0
        | some t => if t = k then e (s t) else 0) := by
  unfold transfer
  cases h : R i with
  | none => rw [fiber_none R h, add_zero]
  | some t =>
    rw [fiber_some R h (fun j => φ (s j))]
    by_cases hk : k = t
    · subst hk
      by_cases hi : k = i
      · subst hi
        simp [ho.absorbed, ho.cleared, ho.kept_clear]
      · simp [ho.absorbed, hi]
    · by_cases hi : k = i
      · subst hi
        simp [hk, Ne.symm hk, ho.cleared]
      · simp [hk, Ne.symm hk, hi]

theorem run_obs (ho : Observes clear absorb φ e) (l : List ι) (s : ι → α) (r : ι) :
    φ (l.foldl (transfer R clear absorb) s r) =
      ∑ k with settle R l k = r, φ (s k) + emitted R (fun i => e (s i)) r l := by
  induction l generalizing s with
  | nil =>
    rw [emitted, add_zero, Finset.sum_filter, Finset.sum_eq_single r]
    · simp
    · intro k _ hk
      exact if_neg hk
    · simp
  | cons i l ih =>
    have hkept : (fun k => e (transfer R clear absorb s i k)) = fun k => e (s k) :=
      funext fun k => transfer_kept R ho s i k
    rw [List.foldl_cons, ih, hkept, emitted]
    simp only [transfer_obs R ho, Finset.sum_add_distrib]
    rw [sum_moved (fun k => settle R l k = r) (move R i), ← add_assoc]
    simp only [settle_cons]
    congr 2
    cases R i with
    | none => simp
    | some t =>
      rw [Finset.sum_filter]
      have hone : ∀ k, (if settle R l k = r then if t = k then e (s t) else 0 else 0) =
          if t = k then (if settle R l t = r then e (s t) else 0) else 0 := by
        intro k
        by_cases hk : t = k
        · subst hk
          simp
        · simp [hk]
      simp [hone]

theorem obs_root (ho : Observes clear absorb φ e) (hR : ∀ i r, R i = some r → R r = none)
    {l : List ι} (hl : ∀ i, i ∈ l) (hsum : ∀ f : ι → M, (l.map f).sum = ∑ i, f i)
    (s : ι → α) {r : ι} (hr : R r = none) :
    φ (l.foldl (transfer R clear absorb) s r) =
      φ (s r) + ∑ k with R k = some r, φ (s k) + ∑ k with R k = some r, e (s r) := by
  rw [run_obs R ho, emitted_terminal R hR, hsum, Finset.sum_filter, Finset.sum_filter,
    Finset.sum_filter]
  congr 1
  have hone : ∀ k, (if settle R l k = r then φ (s k) else 0) =
      (if k = r then φ (s k) else 0) + if R k = some r then φ (s k) else 0 := by
    intro k
    simp only [settle_eq_iff R hR hl hr]
    by_cases hk : k = r
    · subst hk
      simp [hr]
    · simp [hk]
  rw [Finset.sum_congr rfl fun k _ => hone k, Finset.sum_add_distrib]
  simp

theorem obs_folded (ho : Observes clear absorb φ e) (hR : ∀ i r, R i = some r → R r = none)
    {l : List ι} (hl : ∀ i, i ∈ l) (s : ι → α) {i r : ι} (hi : R i = some r) :
    φ (l.foldl (transfer R clear absorb) s i) = 0 := by
  rw [run_obs R ho, emitted_terminal R hR, Finset.sum_filter]
  have hnone : ∀ k, R k ≠ some i := by
    intro k hk
    simp [hR k i hk] at hi
  simp [settle_ne R hR hl hi, hnone]

theorem obs_total (ho : Observes clear absorb φ fun _ => 0) (l : List ι) (s : ι → α) :
    ∑ r, φ (l.foldl (transfer R clear absorb) s r) = ∑ k, φ (s k) := by
  simp only [run_obs R ho, emitted_zero, add_zero]
  exact Finset.sum_fiberwise _ _ _

end Transfer
