import Mathlib
import Ltop.Library.Keyed
import Ltop.Ticks

namespace Ltop

open Keyed

structure KeySet where
  keys : List UInt32
  sorted : keys.Pairwise (fun a b => a < b)

def KeySet.contains (s : KeySet) (k : UInt32) : Bool :=
  (Search.search UInt32.toNat s.keys k.toNat).isSome

def sameItem (right left : UInt32) : Bool × UInt32 × UInt32 := (left == right, right, left)

def freezeKeys (keys : List UInt32) : List UInt32 :=
  let sorted := Sort.sortByU32Key id keys
  (dedupInPlace sameItem sorted).1.take (dedupInPlace sameItem sorted).2

theorem freezeKeys_sorted (keys : List UInt32) : (freezeKeys keys).Pairwise (fun a b => a < b) := by
  have hs := (Sort.sortByU32Key_spec id keys).2
  unfold freezeKeys
  dsimp only
  generalize Sort.sortByU32Key id keys = sorted at hs ⊢
  cases sorted with
  | nil => simp [dedupInPlace_nil]
  | cons x xs =>
    rw [dedupInPlace_cons]
    have hsame : ∀ r l : UInt32, (sameItem r l).1 = decide (l = r) ∧ (sameItem r l).2.1 = r ∧
        (sameItem r l).2.2 = l := fun r l => ⟨rfl, rfl, rfl⟩
    have hfirst : ([] ++ [x]).Pairwise (fun a b : UInt32 => a < b) := List.pairwise_singleton _ _
    exact squeeze_ascending sameItem (fun k : UInt32 => k) hsame hfirst hs

def freezeSet (keys : List UInt32) : KeySet := ⟨freezeKeys keys, freezeKeys_sorted keys⟩

variable {V : Type} {k : UInt32} {entries : List (UInt32 × V)}

theorem mem_squeeze_sameItem (acc : List UInt32) (l : UInt32) (rest : List UInt32) :
    k ∈ squeeze sameItem acc l rest ↔ k ∈ acc ++ l :: rest := by
  induction rest generalizing acc l with
  | nil => rfl
  | cons r rest ih =>
    rw [squeeze, sameItem]
    by_cases h : l = r
    · rw [h, beq_self_eq_true]
      dsimp only
      rw [ih]
      simp
    · rw [beq_eq_false_iff_ne.mpr h]
      dsimp only
      rw [ih, List.append_assoc]
      rfl

theorem mem_freezeKeys (keys : List UInt32) : k ∈ freezeKeys keys ↔ k ∈ keys := by
  rw [← (Sort.sortByU32Key_spec id keys).1.mem_iff]
  unfold freezeKeys
  dsimp only
  generalize Sort.sortByU32Key id keys = sorted
  cases sorted with
  | nil => simp [dedupInPlace_nil]
  | cons x xs =>
    rw [dedupInPlace_cons, mem_squeeze_sameItem]
    rfl

theorem contains_iff (s : KeySet) (k : UInt32) : s.contains k ↔ k ∈ s.keys := by
  have hsorted : s.keys.Pairwise fun a b => a.toNat < b.toNat :=
    s.sorted.imp fun h => UInt32.lt_iff_toNat_lt.mp h
  rw [KeySet.contains, Option.isSome_iff_exists]
  constructor
  · rintro ⟨i, hi⟩
    obtain ⟨x, hx, hk⟩ := Search.search_sound hi
    obtain rfl := UInt32.toNat_inj.mp hk
    exact List.mem_of_getElem? hx
  · intro hmem
    obtain ⟨i, hi⟩ := List.mem_iff_getElem?.mp hmem
    exact ⟨i, Search.search_complete hsorted hi rfl⟩

variable (merge : V → V → V × V)

def combined (a b : V) : V := (merge a b).1

theorem squeeze_total [Std.Associative (combined merge)] (acc : List (UInt32 × V)) (l : UInt32 × V)
    (rest : List (UInt32 × V)) (k : UInt32) :
    total (combined merge) (squeeze (sameKey merge) acc l rest) k =
      total (combined merge) (acc ++ l :: rest) k := by
  induction rest generalizing acc l with
  | nil => rfl
  | cons r rest ih =>
    obtain ⟨j, a⟩ := l
    obtain ⟨j', b⟩ := r
    rw [squeeze, sameKey]
    by_cases h : j = j'
    · obtain rfl := h
      rw [if_pos rfl, total_join]
      exact ih acc (j, combined merge a b)
    · rw [if_neg h]
      dsimp only
      rw [ih, List.append_assoc]
      rfl

theorem freezeEntries_total [Std.Commutative (combined merge)] [Std.Associative (combined merge)]
    (entries : List (UInt32 × V)) (k : UInt32) :
    total (combined merge) (freezeEntries entries merge) k = total (combined merge) entries k := by
  rw [← total_perm (combined merge) (Sort.sortByU32Key_spec (fun e : UInt32 × V => e.1) entries).1 k]
  unfold freezeEntries
  dsimp only
  generalize Sort.sortByU32Key (fun e : UInt32 × V => e.1) entries = sorted
  cases sorted with
  | nil => rw [dedupInPlace_nil, List.take_nil]
  | cons x xs =>
    rw [dedupInPlace_cons, squeeze_total]
    rfl

theorem Map.keys_nodup (m : Map V) : (m.entries.map (·.1)).Nodup :=
  List.pairwise_map.mpr (m.sorted.imp fun h => UInt32.ne_of_lt h)

theorem freezeMap_get [Std.Commutative (combined merge)] [Std.Associative (combined merge)]
    (entries : List (UInt32 × V)) (k : UInt32) :
    (freezeMap entries merge).get k = total (combined merge) entries k := by
  rw [← freezeEntries_total]
  ext v
  rw [Map.get_eq_some]
  exact (total_unique (combined merge) (freezeMap entries merge).keys_nodup).symm

theorem Map.ext_get {m n : Map V} (h : ∀ k, m.get k = n.get k) : m = n := by
  have hmem : ∀ e, e ∈ m.entries ↔ e ∈ n.entries := fun e => by
    rw [← Map.get_eq_some, ← Map.get_eq_some, h]
  have hperm : m.entries.Perm n.entries :=
    (List.perm_ext_iff_of_nodup (List.Nodup.of_map _ m.keys_nodup)
      (List.Nodup.of_map _ n.keys_nodup)).mpr hmem
  have heq := hperm.eq_of_pairwise (fun a b _ _ hab hba =>
    absurd (UInt32.lt_trans hab hba) (UInt32.lt_irrefl _)) m.sorted n.sorted
  cases m
  cases n
  congr

theorem keys_iff_total (op : V → V → V) :
    k ∈ entries.map (·.1) ↔ total op entries k ≠ none := by
  rw [ne_eq, total_eq_none]
  simp

theorem freezeMap_keys [Std.Commutative (combined merge)] [Std.Associative (combined merge)]
    (entries : List (UInt32 × V)) (k : UInt32) :
    k ∈ (freezeMap entries merge).entries.map (·.1) ↔ k ∈ entries.map (·.1) := by
  rw [keys_iff_total (combined merge), keys_iff_total (combined merge),
    ← freezeEntries_total merge entries]
  rfl

theorem freezeMap_perm [Std.Commutative (combined merge)] [Std.Associative (combined merge)]
    {entries entries' : List (UInt32 × V)} (h : entries.Perm entries') :
    freezeMap entries' merge = freezeMap entries merge :=
  Map.ext_get fun k => by rw [freezeMap_get, freezeMap_get, total_perm (combined merge) h]

theorem freezeEntries_spec (hcomm : ∀ a b, (merge a b).1 = (merge b a).1)
    (hassoc : ∀ a b c, (merge (merge a b).1 c).1 = (merge a (merge b c).1).1)
    (entries : List (UInt32 × V)) (keys : List UInt32) :
    (freezeMap entries merge).entries.Pairwise (fun a b => a.1 < b.1) ∧
      (∀ k, k ∈ (freezeMap entries merge).entries.map (·.1) ↔ k ∈ entries.map (·.1)) ∧
      (∀ k, (freezeMap entries merge).search k =
        pooled (fun a b => (merge a b).1) (valuesAt k entries)) ∧
      (∀ k, k ∉ entries.map (·.1) → (freezeMap entries merge).search k = none) ∧
      (∀ k v, (k, v) ∈ (freezeMap entries merge).entries ↔
        (freezeMap entries merge).search k = some v) ∧
      (∀ entries', entries.Perm entries' → freezeMap entries' merge = freezeMap entries merge) ∧
      (freezeSet keys).keys.Pairwise (fun a b => a < b) ∧
      ∀ k, (freezeSet keys).contains k ↔ k ∈ keys := by
  have hc : Std.Commutative (combined merge) := ⟨hcomm⟩
  have ha : Std.Associative (combined merge) := ⟨hassoc⟩
  have hsearch : ∀ k, (freezeMap entries merge).search k = total (combined merge) entries k :=
    fun k => (Map.search_eq _ k).trans (freezeMap_get merge entries k)
  refine ⟨(freezeMap entries merge).sorted, freezeMap_keys merge entries, hsearch, ?_, ?_,
    fun _ => freezeMap_perm merge, (freezeSet keys).sorted, ?_⟩
  · intro k hk
    rw [hsearch]
    exact not_not.mp fun hne => hk ((keys_iff_total (combined merge)).mpr hne)
  · intro k v
    rw [Map.search_eq, Map.get_eq_some]
  · intro k
    rw [contains_iff]
    exact mem_freezeKeys keys

def summed (a b : UInt32) : UInt32 × UInt32 := (a + b, b)

def duplicates : List (UInt32 × UInt32) := [(1, 10), (1, 20), (1, 5), (2, 100), (3, 0), (3, 7)]

theorem freezeEntries_spec_summed :
    (freezeMap duplicates summed).search 1 = some 35 ∧ (freezeMap duplicates summed).search 4 = none ∧
      (freezeSet [3, 1, 3]).contains 1 := by
  have h := freezeEntries_spec summed (fun a b => UInt32.add_comm a b)
    (fun a b c => UInt32.add_assoc a b c)
    duplicates [3, 1, 3]
  exact ⟨(h.2.2.1 1).trans (by decide), h.2.2.2.1 4 (by decide), (h.2.2.2.2.2.2.2 1).mpr (by decide)⟩

end Ltop
