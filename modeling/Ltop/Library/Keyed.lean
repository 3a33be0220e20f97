import Mathlib

namespace Keyed

variable {K V : Type} [DecidableEq K] (op : V → V → V)

def pooled (vs : List V) : Option V := (vs.map some).foldr (Option.merge op) none

def valuesAt (k : K) (es : List (K × V)) : List V := (es.filter (·.1 = k)).map (·.2)

def total (es : List (K × V)) (k : K) : Option V := pooled op (valuesAt k es)

variable {k : K} {v a b : V} {vs ws : List V} {es fs : List (K × V)}

theorem pooled_cons (v : V) (vs : List V) :
    pooled op (v :: vs) = Option.merge op (some v) (pooled op vs) := rfl

theorem pooled_eq_none : pooled op vs = none ↔ vs = [] := by
  cases vs with
  | nil => exact iff_of_true rfl rfl
  | cons v vs => simp [pooled_cons]

theorem pooled_append [Std.Associative op] (vs ws : List V) :
    pooled op (vs ++ ws) = Option.merge op (pooled op vs) (pooled op ws) := by
  induction vs with
  | nil => exact Option.merge_none_left.symm
  | cons v vs ih =>
    rw [List.cons_append, pooled_cons, ih, pooled_cons]
    exact (Std.Associative.assoc _ _ _).symm

theorem pooled_join [Std.Associative op] (vs ws : List V) (a b : V) :
    pooled op (vs ++ a :: b :: ws) = pooled op (vs ++ op a b :: ws) := by
  have hhead : pooled op (a :: b :: ws) = pooled op (op a b :: ws) := by
    rw [pooled_cons, pooled_cons, pooled_cons, ← Option.merge_some_some]
    exact (Std.Associative.assoc _ _ _).symm
  rw [pooled_append, pooled_append, hhead]

theorem pooled_perm [Std.Commutative op] [Std.Associative op] (h : vs.Perm ws) :
    pooled op vs = pooled op ws := by
  have hleft : LeftCommutative (Option.merge op) := ⟨fun x y z => by
    have hassoc := @Std.Associative.assoc _ (Option.merge op) _
    rw [← hassoc, @Std.Commutative.comm _ (Option.merge op) _ x, hassoc]⟩
  exact (h.map some).foldr_eq none

theorem valuesAt_append (k : K) (es fs : List (K × V)) :
    valuesAt k (es ++ fs) = valuesAt k es ++ valuesAt k fs := by
  rw [valuesAt, List.filter_append, List.map_append]
  rfl

theorem valuesAt_cons (k : K) (e : K × V) (es : List (K × V)) :
    valuesAt k (e :: es) = if e.1 = k then e.2 :: valuesAt k es else valuesAt k es := by
  rw [valuesAt, List.filter_cons]
  by_cases h : e.1 = k <;> simp [h, valuesAt]

theorem valuesAt_eq_nil : valuesAt k es = [] ↔ ∀ e ∈ es, e.1 ≠ k := by
  rw [valuesAt, List.map_eq_nil_iff, List.filter_eq_nil_iff]
  simp

theorem total_eq_none : total op es k = none ↔ ∀ e ∈ es, e.1 ≠ k := by
  rw [total, pooled_eq_none, valuesAt_eq_nil]

theorem total_perm [Std.Commutative op] [Std.Associative op] (h : es.Perm fs) (k : K) :
    total op es k = total op fs k :=
  pooled_perm op ((h.filter _).map _)

theorem total_join [Std.Associative op] (es fs : List (K × V)) (j : K) (a b : V) (k : K) :
    total op (es ++ (j, a) :: (j, b) :: fs) k = total op (es ++ (j, op a b) :: fs) k := by
  simp only [total, valuesAt_append, valuesAt_cons]
  split
  · exact pooled_join op _ _ a b
  · rfl

theorem total_unique (h : (es.map (·.1)).Nodup) : total op es k = some v ↔ (k, v) ∈ es := by
  induction es with
  | nil => simp [total, valuesAt, pooled]
  | cons e es ih =>
    obtain ⟨hnew, hes⟩ := List.nodup_cons.mp h
    have habsent : e.1 = k → valuesAt k es = [] := fun hk => valuesAt_eq_nil.mpr fun f hf hfk =>
      hnew (List.mem_map.mpr ⟨f, hf, hfk.trans hk.symm⟩)
    rw [List.mem_cons, total, valuesAt_cons]
    split
    · rename_i hk
      have hout : (k, v) ∉ es := fun hin => hnew (List.mem_map.mpr ⟨(k, v), hin, hk.symm⟩)
      rw [habsent hk, pooled_cons]
      simp only [pooled, List.map_nil, List.foldr_nil, Option.merge_none_right, Option.some.injEq,
        hout, or_false]
      constructor
      · rintro rfl
        exact Prod.ext hk.symm rfl
      · intro he
        rw [← he]
    · rename_i hk
      have hne : (k, v) ≠ e := fun he => hk (he ▸ rfl)
      simp only [hne, false_or]
      exact ih hes

theorem pooled_sum {f : V → ℕ} {n : ℕ} (hlt : ∀ v, f v < n)
    (hop : ∀ a b, f (op a b) = (f a + f b) % n) (h : pooled op vs = some v) :
    f v = (vs.map f).sum % n := by
  induction vs generalizing v with
  | nil => cases h
  | cons a vs ih =>
    rw [pooled_cons] at h
    cases hrest : pooled op vs with
    | none =>
      rw [hrest, Option.merge_none_right] at h
      obtain rfl := Option.some.inj h
      rw [pooled_eq_none] at hrest
      subst hrest
      rw [List.map_singleton, List.sum_singleton, Nat.mod_eq_of_lt (hlt a)]
    | some b =>
      rw [hrest, Option.merge_some_some] at h
      obtain rfl := Option.some.inj h
      rw [hop, ih hrest, List.map_cons, List.sum_cons, Nat.add_mod_mod]

end Keyed
