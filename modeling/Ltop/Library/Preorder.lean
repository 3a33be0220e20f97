import Mathlib
import Ltop.Library.Chain

namespace Preorder

open Chain

variable {ι : Type} {kids : ι → List ι} {parent : ι → Option ι}

def levelFlags (above : Option (List Bool)) (isLast : Bool) : List Bool :=
  match above with
  | none => []
  | some flags => flags ++ [isLast]

def level (above : Option (List Bool)) : ℕ := (levelFlags above true).length

theorem levelFlags_length (above : Option (List Bool)) (b : Bool) :
    (levelFlags above b).length = level above := by
  cases above <;> simp [levelFlags, level]

theorem level_below (above : Option (List Bool)) (b : Bool) :
    level (some (levelFlags above b)) = level above + 1 := by
  rw [← levelFlags_length above b]
  simp [level, levelFlags]

inductive Listing (kids : ι → List ι) :
    Option (List Bool) → List ι → List (List Bool × ι) → Prop
  | nil (above : Option (List Bool)) : Listing kids above [] []
  | cons {above : Option (List Bool)} {i : ι} {rest : List ι} {sub out : List (List Bool × ι)}
      (hsub : Listing kids (some (levelFlags above rest.isEmpty)) (kids i) sub)
      (hrest : Listing kids above rest out) :
      Listing kids above (i :: rest) ((levelFlags above rest.isEmpty, i) :: (sub ++ out))

theorem Listing.unique {above : Option (List Bool)} {rows : List ι} {l l' : List (List Bool × ι)}
    (h : Listing kids above rows l) (h' : Listing kids above rows l') : l = l' := by
  induction h generalizing l' with
  | nil => cases h' with | nil => rfl
  | cons _ _ ihsub ihrest =>
    cases h' with
    | cons hsub hrest => rw [ihsub hsub, ihrest hrest]

theorem Listing.mem_iff {above : Option (List Bool)} {rows : List ι} {l : List (List Bool × ι)}
    (h : Listing kids above rows l) (j : ι) :
    j ∈ l.map (·.2) ↔ ∃ i ∈ rows, Relation.ReflTransGen (fun a b => b ∈ kids a) i j := by
  induction h with
  | nil => simp
  | @cons above i rest sub out _ _ ihsub ihrest =>
    rw [List.map_cons, List.map_append, List.mem_cons, List.mem_append, ihsub, ihrest]
    constructor
    · rintro (rfl | ⟨k, hk, hkj⟩ | ⟨k, hk, hkj⟩)
      · exact ⟨j, by simp, .refl⟩
      · exact ⟨i, by simp, .head hk hkj⟩
      · exact ⟨k, by simp [hk], hkj⟩
    · rintro ⟨k, hk, hkj⟩
      rcases List.mem_cons.mp hk with rfl | hk
      · rcases Relation.ReflTransGen.cases_head hkj with rfl | ⟨m, hm, hmj⟩
        · exact .inl rfl
        · exact .inr (.inl ⟨m, hm, hmj⟩)
      · exact .inr (.inr ⟨k, hk, hkj⟩)

theorem Listing.length_le {above : Option (List Bool)} {rows : List ι} {l : List (List Bool × ι)}
    (h : Listing kids above rows l) : rows.length ≤ l.length := by
  induction h with
  | nil => simp
  | cons _ _ _ ihrest =>
    simp only [List.length_cons, List.length_append]
    omega

theorem Listing.relabel {above : Option (List Bool)} {rows : List ι} {l : List (List Bool × ι)}
    (h : Listing kids above rows l) (above' : Option (List Bool)) :
    ∃ l', Listing kids above' rows l' ∧ l'.length = l.length := by
  induction h generalizing above' with
  | nil => exact ⟨[], .nil above', rfl⟩
  | cons _ _ ihsub ihrest =>
    obtain ⟨sub', hsub', hlen⟩ := ihsub _
    obtain ⟨out', hout', hlen'⟩ := ihrest above'
    exact ⟨_, .cons hsub' hout', by simp [hlen, hlen']⟩

theorem Listing.append {above above' : Option (List Bool)} {rows rows' : List ι}
    {l l' : List (List Bool × ι)} (h : Listing kids above rows l)
    (h' : Listing kids above' rows' l') :
    ∃ m, Listing kids above (rows ++ rows') m ∧ m.length = l.length + l'.length := by
  induction h with
  | nil above =>
    obtain ⟨m, hm, hlen⟩ := h'.relabel above
    exact ⟨m, hm, by simpa using hlen⟩
  | cons hsub _ _ ihrest =>
    obtain ⟨m, hm, hlen⟩ := ihrest
    obtain ⟨sub', hsub', hlen'⟩ := hsub.relabel _
    refine ⟨_, .cons hsub' hm, ?_⟩
    simp only [List.length_cons, List.length_append, hlen, hlen']
    omega

def Depth (parent : ι → Option ι) (d : ℕ) (i : ι) : Prop :=
  ∃ r, climb parent d i = some r ∧ parent r = none

theorem Depth.unique {d e : ℕ} {i : ι} (hd : Depth parent d i) (he : Depth parent e i) : d = e := by
  obtain ⟨r, hr, hn⟩ := hd
  obtain ⟨s, hs, hm⟩ := he
  rcases Nat.lt_trichotomy d e with h | h | h
  · simp [climb_past_root hr hn h] at hs
  · exact h
  · simp [climb_past_root hs hm h] at hr

theorem Depth.child {d : ℕ} {i k : ι} (hp : parent k = some i) (h : Depth parent d i) :
    Depth parent (d + 1) k := by
  obtain ⟨r, hr, hn⟩ := h
  exact ⟨r, by rw [climb_of_parent parent hp, hr], hn⟩

theorem climb_through {m d : ℕ} {i j k : ι} (hp : parent k = some i) (hle : d + 1 ≤ m)
    (hc : climb parent (m - (d + 1)) j = some k) : climb parent (m - d) j = some i := by
  rw [show m - d = (m - (d + 1)) + 1 by omega, climb_snoc, hc, Option.bind_some]
  exact hp

theorem listing_of_subtrees {rows : List ι}
    (h : ∀ i ∈ rows, ∀ flags, ∃ l, Listing kids (some flags) (kids i) l)
    (above : Option (List Bool)) : ∃ l, Listing kids above rows l := by
  induction rows with
  | nil => exact ⟨[], .nil above⟩
  | cons i rest ih =>
    obtain ⟨sub, hsub⟩ := h i (by simp) (levelFlags above rest.isEmpty)
    obtain ⟨out, hout⟩ := ih fun k hk => h k (by simp [hk])
    exact ⟨_, .cons hsub hout⟩

theorem Depth.lt_card [Fintype ι] {d : ℕ} {i : ι} (h : Depth parent d i) :
    d < Fintype.card ι := by
  obtain ⟨r, hr, hn⟩ := h
  have hsome : ∀ m : Fin (d + 1), ∃ b, climb parent m.val i = some b := fun m => by
    obtain ⟨b, hb, _⟩ := climb_some_of_le hr (Nat.lt_succ_iff.mp m.isLt)
    exact ⟨b, hb⟩
  choose f hf using hsome
  have hinj : Function.Injective f := by
    have hlt : ∀ a b : Fin (d + 1), a < b → f a ≠ f b := by
      intro a b hab he
      obtain ⟨x, hx, hxr⟩ := climb_some_of_le hr (Nat.lt_succ_iff.mp a.isLt)
      obtain ⟨y, hy, hyr⟩ := climb_some_of_le hr (Nat.lt_succ_iff.mp b.isLt)
      obtain rfl := Option.some.inj ((hf a).symm.trans hx)
      obtain rfl := Option.some.inj ((hf b).symm.trans hy)
      rw [he] at hxr
      have := Depth.unique ⟨r, hxr, hn⟩ ⟨r, hyr, hn⟩
      have := b.isLt
      have : a.val < b.val := hab
      omega
    intro a b he
    rcases lt_trichotomy a b with h | h | h
    · exact absurd he (hlt a b h)
    · exact h
    · exact absurd he.symm (hlt b a h)
  have hcard := Fintype.card_le_of_injective f hinj
  rw [Fintype.card_fin] at hcard
  omega

variable (hkids : ∀ i k, k ∈ kids i ↔ parent k = some i)

include hkids

theorem Listing.rises {above : Option (List Bool)} {rows : List ι} {l : List (List Bool × ι)}
    (h : Listing kids above rows l) (p : List Bool × ι) (hp : p ∈ l) :
    level above ≤ p.1.length ∧
      ∃ i ∈ rows, climb parent (p.1.length - level above) p.2 = some i := by
  induction h generalizing p with
  | nil => simp at hp
  | @cons above i rest sub out _ _ ihsub ihrest =>
    rcases List.mem_cons.mp hp with rfl | hp
    · exact ⟨(levelFlags_length above _).ge, i, by simp, by simp [levelFlags_length]⟩
    rcases List.mem_append.mp hp with hp | hp
    · obtain ⟨hle, k, hk, hc⟩ := ihsub p hp
      rw [level_below] at hle hc
      exact ⟨by omega, i, by simp, climb_through ((hkids i k).mp hk) hle hc⟩
    · obtain ⟨hle, k, hk, hc⟩ := ihrest p hp
      exact ⟨hle, k, by simp [hk], hc⟩

theorem Listing.depth {above : Option (List Bool)} {rows : List ι} {l : List (List Bool × ι)}
    (h : Listing kids above rows l) (hrows : ∀ i ∈ rows, Depth parent (level above) i)
    (p : List Bool × ι) (hp : p ∈ l) : Depth parent p.1.length p.2 := by
  obtain ⟨hle, i, hi, hc⟩ := h.rises hkids p hp
  obtain ⟨r, hr, hn⟩ := hrows i hi
  refine ⟨r, ?_, hn⟩
  rw [show p.1.length = (p.1.length - level above) + level above by omega, climb_add, hc]
  exact hr

theorem Listing.nodup {above : Option (List Bool)} {rows : List ι} {l : List (List Bool × ι)}
    (hnd : ∀ i, (kids i).Nodup) (h : Listing kids above rows l)
    (hrows : ∀ i ∈ rows, Depth parent (level above) i) (hr : rows.Nodup) :
    (l.map (·.2)).Nodup := by
  induction h with
  | nil => simp
  | @cons above i rest sub out hsub hrest ihsub ihrest =>
    obtain ⟨hout, hr⟩ := List.nodup_cons.mp hr
    have hdi := hrows i (by simp)
    have hdsub : ∀ k ∈ kids i, Depth parent (level (some (levelFlags above rest.isEmpty))) k := by
      intro k hk
      rw [level_below]
      exact hdi.child ((hkids i k).mp hk)
    have hdrest : ∀ k ∈ rest, Depth parent (level above) k := fun k hk => hrows k (by simp [hk])
    have hself : i ∉ sub.map (·.2) := by
      intro hm
      obtain ⟨p, hp, rfl⟩ := List.mem_map.mp hm
      have hle := (hsub.rises hkids p hp).1
      rw [level_below] at hle
      have := (hsub.depth hkids hdsub p hp).unique hdi
      omega
    have hrise : ∀ p ∈ sub, climb parent (p.1.length - level above) p.2 = some i := by
      intro p hp
      obtain ⟨hle, k, hk, hc⟩ := hsub.rises hkids p hp
      rw [level_below] at hle hc
      exact climb_through ((hkids i k).mp hk) hle hc
    have hrest' : ∀ p ∈ out, ∀ d, Depth parent d p.2 →
        climb parent (d - level above) p.2 ≠ some i := by
      intro p hp d hd hc
      obtain rfl := hd.unique (hrest.depth hkids hdrest p hp)
      obtain ⟨_, k, hk, hck⟩ := hrest.rises hkids p hp
      rw [hc] at hck
      exact hout (Option.some.inj hck ▸ hk)
    rw [List.map_cons, List.map_append, List.nodup_cons, List.mem_append, not_or, List.nodup_append]
    refine ⟨⟨hself, ?_⟩, ihsub hdsub (hnd i), ihrest hdrest hr, ?_⟩
    · intro hm
      obtain ⟨p, hp, rfl⟩ := List.mem_map.mp hm
      exact hrest' p hp _ hdi (by simp)
    · rintro a ha b hb rfl
      obtain ⟨p, hp, hpa⟩ := List.mem_map.mp ha
      obtain ⟨q, hq, rfl⟩ := List.mem_map.mp hb
      have hd := hsub.depth hkids hdsub p hp
      rw [hpa] at hd
      refine hrest' q hq _ hd ?_
      rw [← hpa]
      exact hrise p hp

theorem subtree_exists [Fintype ι] {d : ℕ} {i : ι} (h : Depth parent d i) (flags : List Bool) :
    ∃ l, Listing kids (some flags) (kids i) l := by
  induction hm : Fintype.card ι - d generalizing d i flags with
  | zero =>
    have := h.lt_card
    omega
  | succ m ih =>
    refine listing_of_subtrees (fun k hk flags => ?_) _
    exact ih (h.child ((hkids i k).mp hk)) flags (by omega)

theorem listing_exists [Fintype ι] {rows : List ι} (hrows : ∀ i ∈ rows, parent i = none) :
    ∃ l, Listing kids none rows l :=
  listing_of_subtrees (fun i hi flags => subtree_exists hkids (d := 0) ⟨i, rfl, hrows i hi⟩ flags) _

theorem reaches_iff {i j : ι} :
    Relation.ReflTransGen (fun a b => b ∈ kids a) i j ↔ ∃ n, climb parent n j = some i := by
  constructor
  · intro h
    induction h with
    | refl => exact ⟨0, rfl⟩
    | tail _ hk ih =>
      obtain ⟨n, hn⟩ := ih
      exact ⟨n + 1, by rw [climb_of_parent parent ((hkids _ _).mp hk), hn]⟩
  · rintro ⟨n, hn⟩
    induction n generalizing j with
    | zero =>
      obtain rfl := Option.some.inj hn
      exact .refl
    | succ n ih =>
      cases hp : parent j with
      | none => simp [climb_of_root parent hp] at hn
      | some k =>
        rw [climb_of_parent parent hp] at hn
        exact (ih hn).tail ((hkids k j).mpr hp)

end Preorder
