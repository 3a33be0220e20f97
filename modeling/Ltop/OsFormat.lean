import Mathlib
import Ltop.OsBinary
import Ltop.Library.Align

namespace Ltop.Os

def Tag.arity (tag : Tag) : ℕ :=
  if tag.isContainer then tag.operand * (if tag.ty = TYPE_DICT then 2 else 1) else 0

inductive Items (blob : List UInt8) : ℕ → ℕ → ℕ → ℕ → List ℕ → List ℕ → Prop where
  | nil {seen p : ℕ} : Items blob 0 seen p p [] []
  | ref {n seen p q : ℕ} {offs refs : List ℕ} {tag : Tag} :
      readTag blob p = .some tag → tag.ty = TYPE_OBJECT → tag.operand < seen →
      Items blob n seen (p + 4) q offs refs →
      Items blob (n + 1) seen p q offs (tag.operand :: refs)
  | item {n seen p m q step : ℕ} {kids offs kidRefs refs : List ℕ} {tag : Tag} :
      readTag blob p = .some tag → scalarStep tag = .some step → p + step ≤ blob.length →
      Items blob tag.arity (seen + 1) (p + step) m kids kidRefs →
      Items blob n (seen + 1 + kids.length) m q offs refs →
      Items blob (n + 1) seen p q (p :: (kids ++ offs)) (kidRefs ++ refs)

variable {blob : List UInt8} {n a c seen p q step : ℕ} {offs refs : List ℕ} {tag : Tag}

theorem readTag_some (h : readTag blob p = .some tag) :
    p + 4 ≤ blob.length ∧ tag.operand < 2 ^ 24 ∧ tag.ty < 2 ^ 7 := by
  unfold readTag at h
  split at h
  · cases h
  · rename_i hlen
    obtain ⟨bs, _, h⟩ := Outcome.bind_eq_some.mp h
    cases h
    have hop := Nat.and_lt_two_pow (fromLeBytes bs) (show 0x00ffffff < 2 ^ 24 by decide)
    have hty := Nat.and_lt_two_pow (fromLeBytes bs >>> 24) (show 0x7f < 2 ^ 7 by decide)
    exact ⟨by omega, hop, hty⟩

theorem readTag_safe (blob : List UInt8) (p : ℕ) : (readTag blob p).Safe := by
  unfold readTag
  split
  · exact Outcome.safe_none
  · refine Outcome.Safe.bind ?_ fun _ _ => Outcome.safe_some _
    rw [slice, if_pos ⟨by omega, by omega⟩]
    exact Outcome.safe_some _

theorem padded_eq {len : ℕ} (hlen : len < 2 ^ 24) :
    (len + 3) &&& 0xfffffffc = (len + 3) / 4 * 4 :=
  Align.mask_eq (w := 32) (k := 2) (by omega) (by omega)

theorem scalarStep_bytes {len : ℕ} (hlen : len < 2 ^ 24) {ty : ℕ}
    (hty : ty = TYPE_SYMBOL ∨ ty = TYPE_STRING ∨ ty = TYPE_DATA) :
    scalarStep ⟨ty, len⟩ = .some ((len + 3) / 4 * 4 + 4) := by
  have hcont : Tag.isContainer ⟨ty, len⟩ = false := by
    rcases hty with rfl | rfl | rfl <;> rfl
  have hnot : ty ≠ TYPE_BOOLEAN ∧ ty ≠ TYPE_NUMBER := by
    rcases hty with rfl | rfl | rfl <;> decide
  have hdiv : (len + 3) / 4 * 4 ≤ len + 3 := Nat.div_mul_le_self _ _
  simp only [scalarStep, hcont, hnot.1, hnot.2, Bool.false_eq_true, or_self, if_false, if_pos hty]
  rw [checkedAdd, if_pos (by omega), Outcome.some_bind, padded_eq hlen, checkedAdd,
    if_pos (by omega)]

theorem scalarStep_spec (hop : tag.operand < 2 ^ 24) :
    scalarStep tag = .none ∨ ∃ step, scalarStep tag = .some step ∧ 4 ≤ step ∧
      step < 2 ^ 25 ∧ tag.ty ≠ TYPE_OBJECT := by
  obtain ⟨ty, len⟩ := tag
  by_cases hbytes : ty = TYPE_SYMBOL ∨ ty = TYPE_STRING ∨ ty = TYPE_DATA
  · right
    refine ⟨_, scalarStep_bytes hop hbytes, by omega, ?_, ?_⟩
    · have hdiv : (len + 3) / 4 * 4 ≤ len + 3 := Nat.div_mul_le_self _ _
      change len < 2 ^ 24 at hop
      change (len + 3) / 4 * 4 + 4 < 2 ^ 25
      omega
    · change ty ≠ TYPE_OBJECT
      rcases hbytes with rfl | rfl | rfl <;> decide
  · simp only [scalarStep, if_neg hbytes]
    split
    · rename_i h
      refine .inr ⟨4, rfl, le_rfl, by norm_num, fun hobj => ?_⟩
      simp only [Tag.isContainer] at h
      rw [hobj] at h
      simp [TYPE_OBJECT, TYPE_DICT, TYPE_ARRAY, TYPE_SET, TYPE_BOOLEAN] at h
    · split
      · rename_i h
        refine .inr ⟨12, rfl, by omega, by norm_num, fun hobj => ?_⟩
        rw [hobj] at h
        simp [TYPE_OBJECT, TYPE_NUMBER] at h
      · exact .inl rfl

theorem scalarStep_some (hop : tag.operand < 2 ^ 24) (h : scalarStep tag = .some step) :
    4 ≤ step ∧ step < 2 ^ 25 ∧ tag.ty ≠ TYPE_OBJECT := by
  rcases scalarStep_spec hop with hn | ⟨step', hs, hspec⟩
  · rw [hn] at h
    cases h
  · obtain rfl : step' = step := by
      rw [hs] at h
      cases h
      rfl
    exact hspec

theorem arity_le (hop : tag.operand < 2 ^ 24) : tag.arity < 2 ^ 25 := by
  unfold Tag.arity
  split <;> [split; skip] <;> omega

namespace Items

theorem advance (h : Items blob n seen p q offs refs) : p + 4 * offs.length ≤ q := by
  induction h with
  | nil => exact le_rfl
  | ref _ _ _ _ ih => omega
  | item htag hstep _ _ _ ihk ih =>
    have hge := (scalarStep_some (readTag_some htag).2.1 hstep).1
    simp only [List.length_cons, List.length_append]
    omega

theorem le (h : Items blob n seen p q offs refs) : p ≤ q :=
  (Nat.le_add_right _ _).trans h.advance

theorem inside (h : Items blob n seen p q offs refs) (hn : 0 < n) : q ≤ blob.length := by
  have haux : ∀ {n seen p q offs refs}, Items blob n seen p q offs refs →
      p ≤ blob.length → q ≤ blob.length := by
    intro n seen p q offs refs h
    induction h with
    | nil => exact id
    | ref htag _ _ _ ih => exact fun _ => ih (readTag_some htag).1
    | item _ _ hin _ _ ihk ih => exact fun _ => ih (ihk hin)
  cases h with
  | nil => omega
  | ref htag hobj hlt h => exact haux (.ref htag hobj hlt h) (by have := (readTag_some htag).1; omega)
  | item htag hstep hin hk h => exact haux (.item htag hstep hin hk h) (by omega)

theorem refs_lt (h : Items blob n seen p q offs refs) : ∀ r ∈ refs, r < seen + offs.length := by
  induction h with
  | nil => simp
  | ref _ _ hlt _ ih =>
    refine List.forall_mem_cons.mpr ⟨by omega, ih⟩
  | item _ _ _ _ _ ihk ih =>
    refine List.forall_mem_append.mpr ⟨fun r hr => ?_, fun r hr => ?_⟩
    · have := ihk r hr
      simp only [List.length_cons, List.length_append]
      omega
    · have := ih r hr
      simp only [List.length_cons, List.length_append]
      omega

theorem split {a b seen p q : ℕ} {offs refs : List ℕ} (h : Items blob (a + b) seen p q offs refs) :
    ∃ m offs₁ offs₂ refs₁ refs₂, Items blob a seen p m offs₁ refs₁ ∧
      Items blob b (seen + offs₁.length) m q offs₂ refs₂ ∧ offs = offs₁ ++ offs₂ ∧
      refs = refs₁ ++ refs₂ := by
  induction a generalizing seen p offs refs with
  | zero => exact ⟨p, [], offs, [], refs, .nil, by simpa using h, rfl, rfl⟩
  | succ a ih =>
    rw [Nat.add_right_comm] at h
    cases h with
    | ref htag hobj hlt h =>
      obtain ⟨m, o₁, o₂, r₁, r₂, h₁, h₂, rfl, rfl⟩ := ih h
      exact ⟨m, o₁, o₂, _, r₂, .ref htag hobj hlt h₁, h₂, rfl, rfl⟩
    | item htag hstep hin hk h =>
      obtain ⟨m, o₁, o₂, r₁, r₂, h₁, h₂, rfl, rfl⟩ := ih h
      refine ⟨m, _, o₂, _, r₂, .item htag hstep hin hk h₁, ?_, by simp, by simp⟩
      convert h₂ using 1
      simp only [List.length_cons, List.length_append]
      omega

end Items

end Ltop.Os
