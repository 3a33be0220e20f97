import Mathlib
import Ltop.Library.Heap
import Ltop.Library.Loop

namespace Ltop.Sort

section Raw

variable {σ κ : Type} [LinearOrder κ] (key : σ → ℕ → κ) (swap : ℕ → ℕ → σ → σ)

def maxChild (heap_len : ℕ) (s : σ) (left : ℕ) : ℕ :=
  let right := left + 1
  if right < heap_len ∧ key s right > key s left then right else left

def siftStep (heap_len : ℕ) : ℕ × σ → Option (ℕ × σ)
  | (i, s) =>
    let left := 2 * i + 1
    if left ≥ heap_len then none
    else
      let max := maxChild key heap_len s left
      if key s i ≥ key s max then none else some (max, swap i max s)

def siftDown (i heap_len : ℕ) (s : σ) : σ :=
  (Loop.iterate (siftStep key swap heap_len) heap_len (i, s)).2

def heapify (len : ℕ) : ℕ → σ → σ
  | 0, s => s
  | i + 1, s => heapify len i (siftDown key swap i len s)

def drain : ℕ → σ → σ
  | 0, s => s
  | 1, s => s
  | n + 2, s => drain (n + 1) (siftDown key swap 0 (n + 1) (swap 0 (n + 1) s))

def sortRaw (len : ℕ) (s : σ) : σ := drain key swap len (heapify key swap len (len / 2) s)

variable {α : Type} {view : σ → ℕ → α} {k : α → κ} {len : ℕ}

def Moves (view : σ → ℕ → α) (n : ℕ) (s t : σ) : Prop :=
  ∃ π : Equiv.Perm ℕ, (∀ i, n ≤ i → π i = i) ∧ view t = view s ∘ π

theorem Moves.refl (n : ℕ) (s : σ) : Moves view n s s := ⟨1, by simp, by simp⟩

theorem Moves.trans {n : ℕ} {s t u : σ} (hst : Moves view n s t) (htu : Moves view n t u) :
    Moves view n s u := by
  obtain ⟨π, hπ, ht⟩ := hst
  obtain ⟨ρ, hρ, hu⟩ := htu
  refine ⟨π * ρ, ?_, ?_⟩
  · intro i hi
    rw [Equiv.Perm.mul_apply, hρ i hi, hπ i hi]
  · rw [hu, ht]
    rfl

theorem Moves.mono {m n : ℕ} {s t : σ} (hmn : m ≤ n) (h : Moves view m s t) : Moves view n s t := by
  obtain ⟨π, hπ, ht⟩ := h
  exact ⟨π, fun i hi => hπ i (by omega), ht⟩

theorem Moves.above {n : ℕ} {s t : σ} (h : Moves view n s t) {i : ℕ} (hi : n ≤ i) :
    view t i = view s i := by
  obtain ⟨π, hπ, ht⟩ := h
  simp [ht, hπ i hi]

theorem Moves.below {n : ℕ} {s t : σ} (h : Moves view n s t) {i : ℕ} (hi : i < n) :
    ∃ j, j < n ∧ view t i = view s j := by
  obtain ⟨π, hπ, ht⟩ := h
  refine ⟨π i, ?_, by simp [ht]⟩
  by_contra hge
  have hfix := hπ (π i) (by omega)
  have := π.injective hfix
  omega

theorem moves_swap (hswap : ∀ s i j, i < len → j < len → view (swap i j s) = view s ∘ Equiv.swap i j)
    {s : σ} {i j n : ℕ} (hi : i < n) (hj : j < n) (hn : n ≤ len) :
    Moves view n s (swap i j s) := by
  refine ⟨Equiv.swap i j, ?_, hswap s i j (by omega) (by omega)⟩
  intro x hx
  exact Equiv.swap_apply_of_ne_of_ne (by omega) (by omega)

variable (hkey : ∀ s i, i < len → key s i = k (view s i))
  (hswap : ∀ s i j, i < len → j < len → view (swap i j s) = view s ∘ Equiv.swap i j)

include hkey hswap

omit hswap in
theorem maxChild_spec {n left : ℕ} {s : σ} (hn : n ≤ len) (hl : left < n) :
    maxChild key n s left < n ∧
      (maxChild key n s left = left ∨ maxChild key n s left = left + 1) ∧
      ∀ c, c < n → (c = left ∨ c = left + 1) → k (view s c) ≤ k (view s (maxChild key n s left)) := by
  unfold maxChild
  dsimp only
  split
  · rename_i hr
    rw [hkey s _ (by omega), hkey s _ (by omega)] at hr
    refine ⟨hr.1, .inr rfl, ?_⟩
    rintro c _ (rfl | rfl)
    · exact hr.2.le
    · exact le_refl _
  · rename_i hr
    refine ⟨hl, .inl rfl, ?_⟩
    rintro c hc (rfl | rfl)
    · exact le_refl _
    · rw [hkey s _ (by omega), hkey s _ (by omega)] at hr
      by_contra hgt
      exact hr ⟨hc, not_le.mp hgt⟩

omit hswap in
theorem siftStep_none {n i : ℕ} {s : σ} (hn : n ≤ len) (h : siftStep key swap n (i, s) = none)
    (c : ℕ) (hc : c < n) (hci : c = 2 * i + 1 ∨ c = 2 * i + 2) :
    k (view s c) ≤ k (view s i) := by
  simp only [siftStep] at h
  split at h
  · omega
  · obtain ⟨hlt, _, hmax⟩ := maxChild_spec key hkey (s := s) hn (show 2 * i + 1 < n by omega)
    split at h
    · rename_i hge
      rw [hkey s i (by omega), hkey s _ (by omega)] at hge
      exact (hmax c hc hci).trans hge
    · cases h

omit hswap in
theorem siftStep_some {n i m : ℕ} {s t : σ} (hn : n ≤ len)
    (h : siftStep key swap n (i, s) = some (m, t)) :
    m < n ∧ (m = 2 * i + 1 ∨ m = 2 * i + 2) ∧ k (view s i) ≤ k (view s m) ∧
      (∀ c, c < n → (c = 2 * i + 1 ∨ c = 2 * i + 2) → k (view s c) ≤ k (view s m)) ∧
      t = swap i m s := by
  simp only [siftStep] at h
  split at h
  · cases h
  · obtain ⟨hlt, hm, hmax⟩ := maxChild_spec key hkey (s := s) hn (show 2 * i + 1 < n by omega)
    split at h
    · cases h
    · rename_i hge
      rw [hkey s i (by omega), hkey s _ (by omega), ge_iff_le, not_le] at hge
      obtain ⟨rfl, rfl⟩ := Prod.mk.inj (Option.some.inj h)
      exact ⟨hlt, hm, hge.le, hmax, rfl⟩

theorem siftDown_spec {n lo i : ℕ} {s : σ} (hn : n ≤ len)
    (hs : Heap.Hole (fun j => k (view s j)) n lo i) :
    Heap.Ordered (fun j => k (view (siftDown key swap i n s) j)) n lo ∧
      Moves view n s (siftDown key swap i n s) := by
  let Inv : ℕ × σ → Prop := fun p =>
    Heap.Hole (fun j => k (view p.2 j)) n lo p.1 ∧ Moves view n s p.2
  have hinv : ∀ p q, Inv p → siftStep key swap n p = some q → Inv q := by
    rintro ⟨i, s⟩ ⟨m, t⟩ ⟨hhole, hmove⟩ hstep
    obtain ⟨hmn, hm, hlt, hmax, rfl⟩ := siftStep_some key swap hkey hn hstep
    refine ⟨?_, hmove.trans (moves_swap swap hswap (by omega) hmn hn)⟩
    have hview := hswap s i m (by omega) (by omega)
    have hd := hhole.descend hmn hm hlt hmax
    change Heap.Hole (fun j => k (view (swap i m s) j)) n lo m
    rw [hview]
    exact hd
  have hvar : ∀ p q, Inv p → siftStep key swap n p = some q → n - q.1 < n - p.1 := by
    rintro ⟨i, s⟩ ⟨m, t⟩ _ hstep
    obtain ⟨hmn, hm, _⟩ := siftStep_some key swap hkey hn hstep
    dsimp only
    omega
  have hstart : Inv (i, s) := ⟨hs, Moves.refl n s⟩
  have hend := Loop.iterate_invariant _ Inv hinv n hstart
  have hhalt := Loop.iterate_halts _ Inv (fun p => n - p.1) hinv hvar n hstart (by simp)
  exact ⟨hend.1.done (siftStep_none key swap hkey hn hhalt), hend.2⟩

theorem heapify_spec (i : ℕ) (s : σ) (hs : Heap.Ordered (fun j => k (view s j)) len i) :
    Heap.Ordered (fun j => k (view (heapify key swap len i s) j)) len 0 ∧
      Moves view len s (heapify key swap len i s) := by
  induction i generalizing s with
  | zero => exact ⟨hs, Moves.refl len s⟩
  | succ i ih =>
    obtain ⟨ho, hm⟩ := siftDown_spec key swap hkey hswap (le_refl len) (Heap.hole_of_ordered hs)
    obtain ⟨ho', hm'⟩ := ih _ ho
    exact ⟨ho', hm.trans hm'⟩

theorem drain_spec (n : ℕ) (s : σ) (hn : n ≤ len)
    (hheap : Heap.Ordered (fun j => k (view s j)) n 0)
    (hsplit : ∀ i j, i < n → n ≤ j → j < len → k (view s i) ≤ k (view s j))
    (hsorted : ∀ i j, n ≤ i → i ≤ j → j < len → k (view s i) ≤ k (view s j)) :
    (∀ i j, i ≤ j → j < len →
      k (view (drain key swap n s) i) ≤ k (view (drain key swap n s) j)) ∧
      Moves view len s (drain key swap n s) := by
  induction n, s using drain.induct key swap with
  | case1 s => exact ⟨fun i j hij hj => hsorted i j (by omega) hij hj, Moves.refl len s⟩
  | case2 s =>
    refine ⟨?_, Moves.refl len s⟩
    intro i j hij hj
    rcases Nat.eq_zero_or_pos i with rfl | hi
    · rcases Nat.eq_zero_or_pos j with rfl | hj0
      · exact le_refl _
      · exact hsplit 0 j (by omega) hj0 hj
    · exact hsorted i j hi hij hj
  | case3 n s ih =>
    have hview := hswap s 0 (n + 1) (by omega) (by omega)
    have hat : ∀ j, j ≠ 0 → j ≠ n + 1 → view (swap 0 (n + 1) s) j = view s j := by
      intro j h0 h1
      simp [hview, Equiv.swap_apply_of_ne_of_ne h0 h1]
    have hlast : view (swap 0 (n + 1) s) (n + 1) = view s 0 := by simp [hview]
    have hhole : Heap.Hole (fun j => k (view (swap 0 (n + 1) s) j)) (n + 1) 0 0 := by
      have hsmall : Heap.Ordered (fun j => k (view s j)) (n + 1) 0 :=
        fun c hc hcn hlo => hheap c hc (by omega) hlo
      refine Heap.hole_of_root hsmall ?_
      intro i hi hin
      rw [hat i (by omega) (by omega)]
    obtain ⟨ho, hm⟩ := siftDown_spec key swap hkey hswap (by omega) hhole
    have hhigh : ∀ j, n + 1 ≤ j → view (siftDown key swap 0 (n + 1) (swap 0 (n + 1) s)) j =
        view (swap 0 (n + 1) s) j := fun j hj => hm.above hj
    have hmax := hheap.root_max
    have hle : ∀ i j, i < n + 2 → n + 1 ≤ j → j < len →
        k (view s i) ≤ k (view (swap 0 (n + 1) s) j) := by
      intro i j hi hj hjl
      rcases Nat.eq_or_lt_of_le hj with rfl | hlt
      · rw [hlast]
        exact hmax i hi
      · rw [hat j (by omega) (by omega)]
        exact hsplit i j hi (by omega) hjl
    obtain ⟨hs', hm'⟩ := ih (by omega) ho
      (by
        intro i j hi hj hjl
        obtain ⟨x, hx, hxe⟩ := hm.below hi
        rw [hxe, hhigh j hj]
        rcases Nat.eq_zero_or_pos x with rfl | hx0
        · have hz : view (swap 0 (n + 1) s) 0 = view s (n + 1) := by simp [hview]
          rw [hz]
          exact hle (n + 1) j (by omega) hj hjl
        · rw [hat x (by omega) (by omega)]
          exact hle x j (by omega) hj hjl)
      (by
        intro i j hi hij hjl
        rw [hhigh i hi, hhigh j (by omega)]
        rcases Nat.eq_or_lt_of_le hi with rfl | hlt
        · rw [hlast]
          exact hle 0 j (by omega) (by omega) hjl
        · rw [hat i (by omega) (by omega), hat j (by omega) (by omega)]
          exact hsorted i j (by omega) hij hjl)
    refine ⟨hs', ?_⟩
    exact ((moves_swap swap hswap (by omega) (by omega) (by omega)).trans
      (hm.mono (by omega))).trans hm'

theorem sortRaw_spec (s : σ) :
    (∀ i j, i ≤ j → j < len →
      k (view (sortRaw key swap len s) i) ≤ k (view (sortRaw key swap len s) j)) ∧
      Moves view len s (sortRaw key swap len s) := by
  have hleaf : Heap.Ordered (fun j => k (view s j)) len (len / 2) := by
    intro c hc hcn hlo
    omega
  obtain ⟨ho, hm⟩ := heapify_spec key swap hkey hswap (len / 2) s hleaf
  obtain ⟨hs, hm'⟩ := drain_spec key swap hkey hswap len _ (le_refl len) ho
    (fun i j _ hj hjl => by omega) (fun i j hi hij hjl => by omega)
  exact ⟨hs, hm.trans hm'⟩

omit hkey hswap

section Map

variable {τ : Type} {f : σ → τ} (key' : τ → ℕ → κ) (swap' : ℕ → ℕ → τ → τ)
  (hkey' : ∀ s i, key' (f s) i = key s i) (hswap' : ∀ s i j, f (swap i j s) = swap' i j (f s))

include hkey' hswap'

theorem siftDown_map (i n : ℕ) (s : σ) :
    f (siftDown key swap i n s) = siftDown key' swap' i n (f s) := by
  have hstep : ∀ p : ℕ × σ, (siftStep key swap n p).map (fun p => (p.1, f p.2)) =
      siftStep key' swap' n (p.1, f p.2) := by
    rintro ⟨i, s⟩
    have hmax : maxChild key' n (f s) (2 * i + 1) = maxChild key n s (2 * i + 1) := by
      simp only [maxChild, hkey']
    simp only [siftStep, hmax, hkey', ← hswap']
    generalize maxChild key n s (2 * i + 1) = m
    split
    · rfl
    · split <;> rfl
  exact congrArg Prod.snd (Loop.iterate_map hstep n (i, s))

theorem heapify_map (i : ℕ) (s : σ) :
    f (heapify key swap len i s) = heapify key' swap' len i (f s) := by
  induction i generalizing s with
  | zero => rfl
  | succ i ih => rw [heapify, ih, siftDown_map key swap key' swap' hkey' hswap', heapify]

theorem drain_map (n : ℕ) (s : σ) : f (drain key swap n s) = drain key' swap' n (f s) := by
  induction n, s using drain.induct key swap with
  | case1 s => rfl
  | case2 s => rfl
  | case3 n s ih => rw [drain, ih, siftDown_map key swap key' swap' hkey' hswap', hswap', drain]

theorem sortRaw_map (s : σ) : f (sortRaw key swap len s) = sortRaw key' swap' len (f s) := by
  rw [sortRaw, drain_map key swap key' swap' hkey' hswap',
    heapify_map key swap key' swap' hkey' hswap', sortRaw]

end Map

end Raw

section Slice

variable {α : Type}

def swapAt (i j : ℕ) (xs : List α) : List α :=
  match xs[i]?, xs[j]? with
  | some a, some b => (xs.set i b).set j a
  | _, _ => xs

@[simp] theorem swapAt_length (i j : ℕ) (xs : List α) : (swapAt i j xs).length = xs.length := by
  unfold swapAt
  split <;> simp

theorem swapAt_getElem? {xs : List α} {i j : ℕ} (hi : i < xs.length) (hj : j < xs.length) (m : ℕ) :
    (swapAt i j xs)[m]? = xs[Equiv.swap i j m]? := by
  have ha : xs[i]? = some xs[i] := List.getElem?_eq_getElem hi
  have hb : xs[j]? = some xs[j] := List.getElem?_eq_getElem hj
  simp only [swapAt, ha, hb, List.getElem?_set, List.length_set]
  by_cases hmj : j = m
  · subst hmj
    simp [hj]
  by_cases hmi : i = m
  · subst hmi
    simp [hmj, hi]
  · simp [hmi, hmj, Equiv.swap_apply_of_ne_of_ne (Ne.symm hmi) (Ne.symm hmj)]

def sliceSwap {n : ℕ} (i j : ℕ) (xs : {xs : List α // xs.length = n}) :
    {xs : List α // xs.length = n} :=
  ⟨swapAt i j xs.val, by simpa using xs.property⟩

def sliceKey {n : ℕ} (key : α → UInt32) (xs : {xs : List α // xs.length = n}) (i : ℕ) : ℕ :=
  (xs.val[i]?.map fun x => (key x).toNat).getD 0

def sortByU32Key (key : α → UInt32) (xs : List α) : List α :=
  if xs.length < 2 then xs
  else (sortRaw (sliceKey key) sliceSwap xs.length ⟨xs, rfl⟩).val

theorem sortByU32Key_of_length {n : ℕ} {xs : List α} (key : α → UInt32) (h : xs.length = n) :
    sortByU32Key key xs =
      if n < 2 then xs else (sortRaw (sliceKey key) sliceSwap n ⟨xs, h⟩).val := by
  subst h
  rfl

theorem perm_of_moves {xs ys : List α} (π : Equiv.Perm ℕ) (hlen : ys.length = xs.length)
    (hπ : ∀ i, xs.length ≤ i → π i = i) (h : ∀ i, ys[i]? = xs[π i]?) : ys.Perm xs := by
  have hfm : ∀ zs : List α, (List.range zs.length).filterMap (zs[·]?) = zs := by
    intro zs
    apply List.ext_getElem?
    intro i
    induction zs using List.reverseRecOn generalizing i with
    | nil => simp
    | append_singleton zs z ih =>
      have hpre : (List.range zs.length).filterMap ((zs ++ [z])[·]?) =
          (List.range zs.length).filterMap (zs[·]?) := by
        apply List.filterMap_congr
        intro j hj
        exact List.getElem?_append_left (List.mem_range.mp hj)
      rw [List.length_append, List.length_singleton, List.range_succ, List.filterMap_append, hpre,
        List.ext_getElem? (ih)]
      simp
  have hrange : ((List.range xs.length).map π).Perm (List.range xs.length) := by
    have hnd : ((List.range xs.length).map π).Nodup := List.nodup_range.map π.injective
    refine (List.perm_ext_iff_of_nodup hnd List.nodup_range).mpr ?_
    intro a
    simp only [List.mem_map, List.mem_range]
    constructor
    · rintro ⟨i, hi, rfl⟩
      by_contra hge
      have := π.injective (hπ (π i) (by omega))
      omega
    · intro ha
      refine ⟨π.symm a, ?_, by simp⟩
      by_contra hge
      have := hπ (π.symm a) (by omega)
      simp at this
      omega
  calc ys = (List.range ys.length).filterMap (ys[·]?) := (hfm ys).symm
    _ = (List.range xs.length).filterMap (fun i => xs[π i]?) := by simp only [hlen, h]
    _ = ((List.range xs.length).map π).filterMap (xs[·]?) := by rw [List.filterMap_map]; rfl
    List.Perm _ ((List.range xs.length).filterMap (xs[·]?)) := hrange.filterMap _
    _ = xs := hfm xs

theorem sortByU32Key_spec (key : α → UInt32) (xs : List α) :
    (sortByU32Key key xs).Perm xs ∧
      (sortByU32Key key xs).Pairwise (fun a b => key a ≤ key b) := by
  unfold sortByU32Key
  split
  · rename_i hlen
    refine ⟨.refl _, ?_⟩
    rcases xs with _ | ⟨x, _ | ⟨y, xs⟩⟩
    · exact .nil
    · exact List.pairwise_singleton _ _
    · simp at hlen
  · let k : Option α → ℕ := fun o => (o.map fun x => (key x).toNat).getD 0
    let view : {ys : List α // ys.length = xs.length} → ℕ → Option α := fun ys i => ys.val[i]?
    have hkey : ∀ s i, i < xs.length → sliceKey key s i = k (view s i) := fun _ _ _ => rfl
    obtain ⟨hs, π, hπ, hv⟩ := sortRaw_spec (sliceKey key) sliceSwap hkey
      (fun s i j hi hj => by
        funext m
        exact swapAt_getElem? (by rw [s.property]; exact hi) (by rw [s.property]; exact hj) m)
      ⟨xs, rfl⟩
    generalize sortRaw (sliceKey key) sliceSwap xs.length ⟨xs, rfl⟩ = ys at hs hv ⊢
    refine ⟨perm_of_moves π ys.property hπ (fun i => congrFun hv i), ?_⟩
    rw [List.pairwise_iff_getElem]
    intro i j hi hj hij
    have hle := hs i j hij.le (by rw [ys.property] at hj; exact hj)
    rw [UInt32.le_iff_toNat_le]
    simpa [k, view, hi, hj] using hle

end Slice

end Ltop.Sort
