import Mathlib
import Ltop.Sort

namespace Ltop

section Dedup

variable {T : Type} (same : T → T → Bool × T × T)

def dedupStep (sw : List T × ℕ) (r : ℕ) : List T × ℕ :=
  match sw.1[r]?, sw.1[sw.2 - 1]? with
  | some right, some left =>
    match same right left with
    | (dup, right', left') =>
      let slice := (sw.1.set r right').set (sw.2 - 1) left'
      if dup then (slice, sw.2)
      else (if sw.2 ≠ r then slice.set sw.2 right' else slice, sw.2 + 1)
  | _, _ => sw

def dedupInPlace (slice : List T) : List T × ℕ :=
  if slice.length < 2 then (slice, slice.length)
  else (List.range' 1 (slice.length - 1)).foldl (dedupStep same) (slice, 1)

def squeeze : List T → T → List T → List T
  | acc, l, [] => acc ++ [l]
  | acc, l, r :: rest => match same r l with
    | (true, _, l') => squeeze acc l' rest
    | (false, r', l') => squeeze (acc ++ [l']) r' rest

theorem dedupStep_split (acc : List T) (l : T) (junk : List T) (r : T) (rest : List T) :
    dedupStep same (acc ++ l :: (junk ++ r :: rest), acc.length + 1) (acc.length + 1 + junk.length) =
      match same r l with
      | (true, r', l') => (acc ++ l' :: (junk ++ r' :: rest), acc.length + 1)
      | (false, r', l') => match junk with
        | [] => (acc ++ l' :: r' :: rest, acc.length + 2)
        | _ :: junk => (acc ++ l' :: r' :: (junk ++ r' :: rest), acc.length + 2) := by
  have hr : (acc ++ l :: (junk ++ r :: rest))[acc.length + 1 + junk.length]? = some r := by
    rw [List.getElem?_append_right (by omega),
      show acc.length + 1 + junk.length - acc.length = junk.length + 1 by omega]
    simp
  have hset : ∀ r' l', ((acc ++ l :: (junk ++ r :: rest)).set (acc.length + 1 + junk.length) r').set
      acc.length l' = acc ++ l' :: (junk ++ r' :: rest) := by
    intro r' l'
    rw [List.set_append_right _ _ (by omega),
      show acc.length + 1 + junk.length - acc.length = junk.length + 1 by omega]
    simp
  simp only [dedupStep, hr, Nat.add_sub_cancel, List.getElem?_append_right (le_refl _),
    Nat.sub_self, List.getElem?_cons_zero, hset]
  obtain ⟨dup, r', l'⟩ := same r l
  cases dup with
  | true => rfl
  | false =>
    cases junk with
    | nil => simp
    | cons j junk => simp

theorem dedup_fold (acc : List T) (l : T) (junk rest : List T) :
    ∃ tail, (List.range' (acc.length + 1 + junk.length) rest.length).foldl (dedupStep same)
      (acc ++ l :: (junk ++ rest), acc.length + 1) =
        (squeeze same acc l rest ++ tail, (squeeze same acc l rest).length) := by
  induction rest generalizing acc l junk with
  | nil => exact ⟨junk, by simp [squeeze]⟩
  | cons r rest ih =>
    rw [List.length_cons, List.range'_succ, List.foldl_cons, dedupStep_split, squeeze]
    obtain ⟨dup, r', l'⟩ := same r l
    cases dup with
    | true => simpa [Nat.add_assoc] using ih acc l' (junk ++ [r'])
    | false =>
      cases junk with
      | nil => simpa [Nat.add_assoc] using ih (acc ++ [l']) r' []
      | cons j junk =>
        simpa [Nat.add_assoc, Nat.add_comm, Nat.add_left_comm] using ih (acc ++ [l']) r' (junk ++ [r'])

theorem dedupInPlace_nil : dedupInPlace same [] = ([], 0) := rfl

theorem dedupInPlace_cons (x : T) (xs : List T) :
    (dedupInPlace same (x :: xs)).1.take (dedupInPlace same (x :: xs)).2 = squeeze same [] x xs := by
  unfold dedupInPlace
  split
  · have hxs : xs = [] := by
      cases xs with
      | nil => rfl
      | cons y ys => simp at *
    subst hxs
    rfl
  · obtain ⟨tail, ht⟩ := dedup_fold same [] x [] xs
    simp only [List.length_nil, Nat.zero_add, Nat.add_zero, List.nil_append] at ht
    rw [List.length_cons, Nat.add_sub_cancel, ht]
    simp

theorem squeeze_ascending (key : T → UInt32)
    (hsame : ∀ r l, (same r l).1 = decide (key l = key r) ∧ key (same r l).2.1 = key r ∧
      key (same r l).2.2 = key l) {acc : List T} {l : T} {rest : List T}
    (hacc : (acc ++ [l]).Pairwise (fun a b => key a < key b))
    (hrest : (l :: rest).Pairwise (fun a b => key a ≤ key b)) :
    (squeeze same acc l rest).Pairwise (fun a b => key a < key b) := by
  induction rest generalizing acc l with
  | nil => exact hacc
  | cons r rest ih =>
    obtain ⟨hle, hpw⟩ := List.pairwise_cons.mp hrest
    obtain ⟨hr, htail⟩ := List.pairwise_cons.mp hpw
    obtain ⟨hlast, -, hbelow⟩ := List.pairwise_append.mp hacc
    have hbelow : ∀ a ∈ acc, key a < key l := fun a ha => hbelow a ha l (List.mem_singleton_self l)
    obtain ⟨hdup, hright, hleft⟩ := hsame r l
    rw [squeeze]
    generalize same r l = out at hdup hright hleft ⊢
    obtain ⟨dup, r', l'⟩ := out
    dsimp only at hdup hright hleft ⊢
    have hkeeper : (acc ++ [l']).Pairwise (fun a b => key a < key b) := by
      refine List.pairwise_append.mpr ⟨hlast, List.pairwise_singleton _ _, fun a ha b hb => ?_⟩
      rw [List.mem_singleton.mp hb, hleft]
      exact hbelow a ha
    cases dup with
    | true =>
      refine ih hkeeper (List.pairwise_cons.mpr ⟨fun x hx => ?_, htail⟩)
      rw [hleft]
      exact hle x (List.mem_cons_of_mem r hx)
    | false =>
      have hne : key l ≠ key r := of_decide_eq_false hdup.symm
      have hlt : key l < key r := UInt32.lt_of_le_of_ne (hle r List.mem_cons_self) hne
      refine ih (List.pairwise_append.mpr ⟨hkeeper, List.pairwise_singleton _ _, fun a ha b hb => ?_⟩)
        (List.pairwise_cons.mpr ⟨fun x hx => ?_, htail⟩)
      · rw [List.mem_singleton.mp hb, hright]
        rcases List.mem_append.mp ha with ha | ha
        · exact UInt32.lt_trans (hbelow a ha) hlt
        · rwa [List.mem_singleton.mp ha, hleft]
      · rw [hright]
        exact hr x hx

end Dedup

variable {V : Type}

structure Map (V : Type) where
  entries : List (UInt32 × V)
  sorted : entries.Pairwise (fun a b => a.1 < b.1)

namespace Map

def get (m : Map V) (k : UInt32) : Option V := (m.entries.find? (fun e => e.1 == k)).map (·.2)

def empty : Map V := ⟨[], .nil⟩

theorem get_eq_some (m : Map V) (k : UInt32) (v : V) : m.get k = some v ↔ (k, v) ∈ m.entries := by
  obtain ⟨es, hs⟩ := m
  simp only [get]
  induction es with
  | nil => simp
  | cons e es ih =>
    obtain ⟨hlt, hes⟩ := List.pairwise_cons.mp hs
    by_cases hk : e.1 = k
    · subst hk
      simp only [List.find?_cons, BEq.rfl, Option.map_some, Option.some.injEq, List.mem_cons]
      constructor
      · rintro rfl
        exact .inl rfl
      · rintro (h | h)
        · rw [← h]
        · exact absurd (hlt _ h) (by simp [UInt32.lt_irrefl])
    · have hb : (e.1 == k) = false := by simpa using hk
      simp only [List.find?_cons, hb, List.mem_cons]
      rw [ih hes]
      constructor
      · exact .inr
      · rintro (h | h)
        · exact absurd (by rw [← h]) hk
        · exact h

end Map

def sameKey (merge : V → V → V × V) (right left : UInt32 × V) :
    Bool × (UInt32 × V) × (UInt32 × V) :=
  if left.1 = right.1 then
    match merge left.2 right.2 with
    | (l, r) => (true, (right.1, r), (left.1, l))
  else (false, right, left)

def freezeEntries (entries : List (UInt32 × V)) (merge : V → V → V × V) : List (UInt32 × V) :=
  let sorted := Sort.sortByU32Key (·.1) entries
  (dedupInPlace (sameKey merge) sorted).1.take (dedupInPlace (sameKey merge) sorted).2

theorem sameKey_keys (merge : V → V → V × V) (r l : UInt32 × V) :
    (sameKey merge r l).1 = decide (l.1 = r.1) ∧ (sameKey merge r l).2.1.1 = r.1 ∧
      (sameKey merge r l).2.2.1 = l.1 := by
  unfold sameKey
  split
  · rename_i h
    exact ⟨(decide_eq_true h).symm, rfl, rfl⟩
  · rename_i h
    exact ⟨(decide_eq_false h).symm, rfl, rfl⟩

theorem squeeze_sorted (merge : V → V → V × V) (acc : List (UInt32 × V)) (l : UInt32 × V)
    (rest : List (UInt32 × V)) (hacc : (acc ++ [l]).Pairwise (fun a b => a.1 < b.1))
    (hrest : (l :: rest).Pairwise (fun a b => a.1 ≤ b.1)) :
    (squeeze (sameKey merge) acc l rest).Pairwise (fun a b => a.1 < b.1) :=
  squeeze_ascending (sameKey merge) (fun e : UInt32 × V => e.1) (sameKey_keys merge) hacc hrest

theorem freezeEntries_sorted (entries : List (UInt32 × V)) (merge : V → V → V × V) :
    (freezeEntries entries merge).Pairwise (fun a b => a.1 < b.1) := by
  have hs := (Sort.sortByU32Key_spec (fun e : UInt32 × V => e.1) entries).2
  unfold freezeEntries
  dsimp only
  generalize Sort.sortByU32Key (fun e : UInt32 × V => e.1) entries = sorted at hs ⊢
  cases sorted with
  | nil => simp [dedupInPlace_nil]
  | cons x xs =>
    rw [dedupInPlace_cons]
    exact squeeze_sorted merge [] x xs (by simp) hs

def freezeMap (entries : List (UInt32 × V)) (merge : V → V → V × V) : Map V :=
  ⟨freezeEntries entries merge, freezeEntries_sorted entries merge⟩

theorem squeeze_distinct (merge : V → V → V × V) (acc : List (UInt32 × V)) (l : UInt32 × V)
    (rest : List (UInt32 × V)) (hd : (l :: rest).Pairwise (fun a b => a.1 ≠ b.1)) :
    squeeze (sameKey merge) acc l rest = acc ++ l :: rest := by
  induction rest generalizing acc l with
  | nil => rfl
  | cons r rest ih =>
    obtain ⟨hne, hpw⟩ := List.pairwise_cons.mp hd
    simp only [squeeze, sameKey, if_neg (hne r (by simp))]
    rw [ih (acc ++ [l]) r hpw]
    simp

theorem mem_freezeMap {entries : List (UInt32 × V)} (merge : V → V → V × V)
    (hd : (entries.map (·.1)).Nodup) (e : UInt32 × V) :
    e ∈ (freezeMap entries merge).entries ↔ e ∈ entries := by
  have hp := (Sort.sortByU32Key_spec (fun e : UInt32 × V => e.1) entries).1
  have hnd := (hp.map (·.1)).nodup_iff.mpr hd
  rw [← hp.mem_iff]
  simp only [freezeMap, freezeEntries]
  generalize Sort.sortByU32Key (fun e : UInt32 × V => e.1) entries = sorted at hp hnd ⊢
  cases sorted with
  | nil => simp [dedupInPlace_nil]
  | cons x xs =>
    rw [dedupInPlace_cons, squeeze_distinct merge [] x xs (List.pairwise_map.mp hnd), List.nil_append]

end Ltop
