import Mathlib

namespace Ltop

structure FNest (T : Type) where
  offsets : List ℕ
  data : List T
  zero : offsets[0]? = some 0
  mono : offsets.Pairwise (· ≤ ·)
  last : offsets.getLast? = some data.length

namespace FNest

variable {T : Type}

def len (c : FNest T) : ℕ := c.offsets.length - 1

def bucket (c : FNest T) (i : ℕ) : List T :=
  match c.offsets[i]?, c.offsets[i + 1]? with
  | some start, some stop => (c.data.take stop).drop start
  | _, _ => []

end FNest

namespace Nest

variable {T : Type}

def tally (n : ℕ) : List ℕ → List (ℕ × T) → Option (List ℕ)
  | counts, [] => some counts
  | counts, (b, _) :: rest =>
    if b < n then tally n (counts.modify (b + 1) (· + 1)) rest else none

def prefixSum : ℕ → List ℕ → List ℕ
  | _, [] => []
  | prev, c :: cs => (prev + c) :: prefixSum (prev + c) cs

def fill (offsets : List ℕ) : List ℕ × List T → List (ℕ × T) → Option (List ℕ × List T)
  | s, [] => some s
  | (cursors, data), (b, v) :: rest =>
    match cursors[b]?, offsets[b + 1]? with
    | some cursor, some limit =>
      if cursor < limit then fill offsets (cursors.set b (cursor + 1), data.set cursor v) rest
      else none
    | _, _ => none

theorem prefixSum_length (prev : ℕ) (cs : List ℕ) : (prefixSum prev cs).length = cs.length := by
  induction cs generalizing prev with
  | nil => rfl
  | cons c cs ih => simp [prefixSum, ih]

theorem prefixSum_le (prev : ℕ) (cs : List ℕ) : ∀ x ∈ prefixSum prev cs, prev ≤ x := by
  induction cs generalizing prev with
  | nil => simp [prefixSum]
  | cons c cs ih =>
    intro x hx
    rcases List.mem_cons.mp hx with rfl | hx
    · omega
    · have := ih (prev + c) x hx
      omega

theorem prefixSum_mono (prev : ℕ) (cs : List ℕ) : (prefixSum prev cs).Pairwise (· ≤ ·) := by
  induction cs generalizing prev with
  | nil => exact .nil
  | cons c cs ih => exact List.pairwise_cons.mpr ⟨prefixSum_le _ cs, ih _⟩

theorem prefixSum_getElem? (prev : ℕ) (cs : List ℕ) {i : ℕ} (hi : i < cs.length) :
    (prefixSum prev cs)[i]? = some (prev + (cs.take (i + 1)).sum) := by
  induction cs generalizing prev i with
  | nil => simp at hi
  | cons c cs ih =>
    cases i with
    | zero => simp [prefixSum]
    | succ i =>
      rw [prefixSum, List.getElem?_cons_succ, ih _ (by simpa using hi)]
      simp [Nat.add_assoc]

theorem tally_eq {n : ℕ} {counts counts' : List ℕ} {items : List (ℕ × T)}
    (h : tally n counts items = some counts') (j : ℕ) :
    counts'[j]? = counts[j]?.map (· + items.countP (·.1 + 1 = j)) := by
  induction items generalizing counts with
  | nil =>
    obtain rfl := Option.some.inj h
    simp
  | cons p rest ih =>
    rw [tally] at h
    split at h
    · rw [ih h, List.getElem?_modify]
      by_cases hj : p.1 + 1 = j
      · simp [hj, Nat.add_comm]
      · simp [hj]
    · cases h

theorem tally_total {n : ℕ} {items : List (ℕ × T)} (h : ∀ p ∈ items, p.1 < n) (counts : List ℕ) :
    ∃ counts', tally n counts items = some counts' := by
  induction items generalizing counts with
  | nil => exact ⟨counts, rfl⟩
  | cons p rest ih =>
    simp only [tally, if_pos (h p (by simp))]
    exact ih (fun q hq => h q (by simp [hq])) _

theorem tally_bound {n : ℕ} {counts counts' : List ℕ} {items : List (ℕ × T)}
    (h : tally n counts items = some counts') : ∀ p ∈ items, p.1 < n := by
  induction items generalizing counts with
  | nil => simp
  | cons p rest ih =>
    rw [tally] at h
    split at h
    · rename_i hp
      intro q hq
      rcases List.mem_cons.mp hq with rfl | hq
      · exact hp
      · exact ih h q hq
    · cases h

def start (items : List (ℕ × T)) (i : ℕ) : ℕ := items.countP (·.1 < i)

theorem start_succ (items : List (ℕ × T)) (i : ℕ) :
    start items (i + 1) = start items i + items.countP (·.1 = i) := by
  induction items with
  | nil => rfl
  | cons p rest ih =>
    simp only [start, List.countP_cons, decide_eq_true_eq] at ih ⊢
    rcases Nat.lt_trichotomy p.1 i with h | h | h
    · rw [if_pos (by omega), if_pos h, if_neg (by omega)]
      omega
    · rw [if_pos (by omega), if_neg (by omega), if_pos h]
      omega
    · rw [if_neg (by omega), if_neg (by omega), if_neg (by omega)]
      omega

theorem start_mono (items : List (ℕ × T)) {i j : ℕ} (h : i ≤ j) : start items i ≤ start items j := by
  induction h with
  | refl => exact le_refl _
  | step _ ih => exact ih.trans (by rw [start_succ]; omega)

theorem offsets_eq {n : ℕ} {items : List (ℕ × T)} {counts : List ℕ}
    (h : tally n (List.replicate (n + 1) 0) items = some counts) :
    prefixSum 0 counts = (List.range (n + 1)).map (start items) := by
  have hcounts : counts = (List.range (n + 1)).map (fun j => items.countP (·.1 + 1 = j)) := by
    apply List.ext_getElem?
    intro j
    rw [tally_eq h j]
    by_cases hj : j < n + 1
    · simp [hj]
    · simp [hj]
  have hsum : ∀ i, i ≤ n → (counts.take (i + 1)).sum = start items i := by
    intro i hi
    rw [hcounts, ← List.map_take, List.take_range, Nat.min_eq_left (by omega)]
    induction i with
    | zero => simp [start]
    | succ i ih =>
      rw [List.range_succ, List.map_append, List.sum_append, ih (by omega), start_succ]
      simp
  apply List.ext_getElem?
  intro i
  by_cases hi : i < n + 1
  · rw [prefixSum_getElem? 0 counts (by simpa [hcounts] using hi), hsum i (by omega)]
    simp [hi]
  · rw [List.getElem?_eq_none (by rw [prefixSum_length, hcounts]; simp; omega),
      List.getElem?_eq_none (by simp; omega)]

theorem fill_length {offsets : List ℕ} {s t : List ℕ × List T} {items : List (ℕ × T)}
    (h : fill offsets s items = some t) : t.2.length = s.2.length := by
  induction items generalizing s with
  | nil =>
    obtain rfl := Option.some.inj h
    rfl
  | cons p rest ih =>
    obtain ⟨b, v⟩ := p
    obtain ⟨cursors, data⟩ := s
    simp only [fill] at h
    split at h
    · split at h
      · simpa using ih h
      · cases h
    · cases h

def cursorsAt (n : ℕ) (items done : List (ℕ × T)) : List ℕ :=
  (List.range n).map fun b => start items b + done.countP (·.1 = b)

def Placed (items done : List (ℕ × T)) (data : List T) : Prop :=
  ∀ b k, k < done.countP (·.1 = b) →
    data[start items b + k]? = ((done.filter (·.1 = b)).map (·.2))[k]?

theorem cursorsAt_set (n : ℕ) (items done : List (ℕ × T)) (b : ℕ) (v : T) :
    (cursorsAt n items done).set b (start items b + done.countP (·.1 = b) + 1) =
      cursorsAt n items (done ++ [(b, v)]) := by
  apply List.ext_getElem?
  intro i
  simp only [cursorsAt, List.getElem?_set, List.length_map, List.length_range, List.getElem?_map,
    List.countP_append, List.countP_singleton]
  by_cases hb : b = i
  · subst hb
    by_cases hn : b < n
    · simp [hn, Nat.add_assoc]
    · simp [hn]
  · by_cases hn : i < n
    · simp [hb, hn]
    · simp [hb, hn]

theorem placed_set {items done rest : List (ℕ × T)} {data : List T} {b : ℕ} {v : T}
    (hitems : items = done ++ (b, v) :: rest) (hlen : data.length = items.length)
    (h : Placed items done data) :
    Placed items (done ++ [(b, v)]) (data.set (start items b + done.countP (·.1 = b)) v) := by
  have hroom : ∀ i, start items i + done.countP (·.1 = i) + (if b = i then 1 else 0) ≤
      start items (i + 1) := by
    intro i
    rw [start_succ, hitems, List.countP_append, List.countP_cons]
    by_cases hb : b = i
    · simp [hb]
    · simp [hb]
  have hall : ∀ i, start items i ≤ items.length := fun i => List.countP_le_length
  intro i k hk
  have hr := hroom b
  rw [if_pos rfl] at hr
  have hin : start items b + done.countP (·.1 = b) < data.length := by
    have := hall (b + 1)
    omega
  rw [List.countP_append, List.countP_singleton] at hk
  by_cases hb : b = i
  · subst hb
    simp only [decide_true, if_true] at hk
    rw [List.filter_append, List.map_append]
    rcases Nat.lt_or_ge k (done.countP (·.1 = b)) with hlt | hge
    · rw [List.getElem?_set_ne (by omega), h b k hlt, List.getElem?_append_left]
      rwa [List.length_map, ← List.countP_eq_length_filter]
    · obtain rfl : k = done.countP (·.1 = b) := by omega
      rw [List.getElem?_set_self hin, List.getElem?_append_right]
      · simp [List.countP_eq_length_filter]
      · rw [List.length_map, ← List.countP_eq_length_filter]
  · simp only [hb, decide_false, Bool.false_eq_true, if_false, Nat.add_zero] at hk
    have hi := hroom i
    rw [if_neg hb] at hi
    rw [List.filter_append, List.getElem?_set_ne, h i k hk]
    · simp [hb]
    · rcases Nat.lt_or_gt_of_ne hb with hlt | hgt
      · have := start_mono items (show b + 1 ≤ i by omega)
        omega
      · have := start_mono items (show i + 1 ≤ b by omega)
        omega

theorem fill_spec {n : ℕ} {items : List (ℕ × T)} (hn : ∀ p ∈ items, p.1 < n)
    (rest done : List (ℕ × T)) (data : List T) (hitems : items = done ++ rest)
    (hlen : data.length = items.length) (h : Placed items done data) :
    ∃ data', fill ((List.range (n + 1)).map (start items)) (cursorsAt n items done, data) rest =
      some (cursorsAt n items items, data') ∧ Placed items items data' := by
  induction rest generalizing done data with
  | nil =>
    obtain rfl : items = done := by simpa using hitems
    exact ⟨data, rfl, h⟩
  | cons p rest ih =>
    obtain ⟨b, v⟩ := p
    have hb : b < n := hn (b, v) (by simp [hitems])
    have hcur : (cursorsAt n items done)[b]? = some (start items b + done.countP (·.1 = b)) := by
      simp [cursorsAt, hb]
    have hlim : ((List.range (n + 1)).map (start items))[b + 1]? = some (start items (b + 1)) := by
      simp [hb]
    have hlt : start items b + done.countP (·.1 = b) < start items (b + 1) := by
      rw [start_succ, hitems, List.countP_append, List.countP_cons]
      simp
    simp only [fill, hcur, hlim, if_pos hlt, cursorsAt_set n items done b v]
    exact ih (done ++ [(b, v)]) _ (by simp [hitems]) (by simpa using hlen)
      (placed_set hitems hlen h)

theorem start_all {n : ℕ} {items : List (ℕ × T)} (hn : ∀ p ∈ items, p.1 < n) :
    start items n = items.length :=
  List.countP_eq_length.mpr fun p hp => by simpa using hn p hp

theorem placed_bucket {items : List (ℕ × T)} {data : List T} (h : Placed items items data) (i : ℕ) :
    (data.take (start items (i + 1))).drop (start items i) =
      (items.filter (·.1 = i)).map (·.2) := by
  apply List.ext_getElem?
  intro k
  rw [List.getElem?_drop]
  rcases Nat.lt_or_ge k (items.countP (·.1 = i)) with hlt | hge
  · rw [List.getElem?_take_of_lt (by rw [start_succ]; omega), h i k hlt]
  · rw [List.getElem?_eq_none, List.getElem?_eq_none]
    · rwa [List.length_map, ← List.countP_eq_length_filter]
    · have hle := start_succ items i
      simp only [List.length_take]
      omega

variable [Inhabited T]

def nest (n : ℕ) (pass1 pass2 : List (ℕ × T)) : Option (FNest T) :=
  match ht : tally n (List.replicate (n + 1) 0) pass1 with
  | none => none
  | some counts =>
    match hf : fill (prefixSum 0 counts) ((prefixSum 0 counts).take n,
        List.replicate ((prefixSum 0 counts).getLast?.getD 0) default) pass2 with
    | none => none
    | some (cursors, data) =>
      if (List.range n).all (fun i => cursors[i]? == (prefixSum 0 counts)[i + 1]?) then
        some ⟨prefixSum 0 counts, data, by rw [offsets_eq ht]; simp [start],
          prefixSum_mono 0 counts, by rw [fill_length hf, offsets_eq ht]; simp [List.range_succ]⟩
      else none

theorem nest_spec {n : ℕ} {items : List (ℕ × T)} (hn : ∀ p ∈ items, p.1 < n) :
    ∃ c, nest n items items = some c ∧ c.len = n ∧
      ∀ i, i < n → c.bucket i = (items.filter (·.1 = i)).map (·.2) := by
  obtain ⟨counts, ht⟩ := tally_total hn (List.replicate (n + 1) 0)
  have hoff := offsets_eq ht
  have hcur : (prefixSum 0 counts).take n = cursorsAt n items [] := by
    rw [hoff, ← List.map_take, List.take_range, Nat.min_eq_left (by omega)]
    simp [cursorsAt]
  have hlast : (prefixSum 0 counts).getLast?.getD 0 = items.length := by
    rw [hoff, ← start_all hn]
    simp [List.range_succ]
  obtain ⟨data, hf, hp⟩ := fill_spec hn items [] (List.replicate items.length default) rfl (by simp)
    (by intro b k hk; simp at hk)
  have hlen := fill_length hf
  rw [List.length_replicate] at hlen
  refine ⟨⟨prefixSum 0 counts, data, by rw [hoff]; simp [start], prefixSum_mono 0 counts,
    by rw [hlen, hoff, ← start_all hn]; simp [List.range_succ]⟩, ?_, ?_, ?_⟩
  · have hf' : fill (prefixSum 0 counts) ((prefixSum 0 counts).take n,
        List.replicate ((prefixSum 0 counts).getLast?.getD 0) default) items =
        some (cursorsAt n items items, data) := by
      rw [hcur, hlast, hoff]
      exact hf
    unfold nest
    split
    · rename_i h
      simp [ht] at h
    · rename_i counts' h
      obtain rfl := Option.some.inj (ht.symm.trans h)
      split
      · rename_i h'
        simp [hf'] at h'
      · rename_i cursors data' h'
        obtain ⟨rfl, rfl⟩ := Prod.mk.inj (Option.some.inj (hf'.symm.trans h'))
        rw [if_pos]
        rw [List.all_eq_true]
        intro i hi
        have hi := List.mem_range.mp hi
        simp [hoff, cursorsAt, hi, start_succ]
  · change (prefixSum 0 counts).length - 1 = n
    simp [hoff]
  · intro i hi
    have hs : (prefixSum 0 counts)[i]? = some (start items i) := by
      rw [hoff]
      simp [show i < n + 1 by omega]
    have he : (prefixSum 0 counts)[i + 1]? = some (start items (i + 1)) := by
      rw [hoff]
      simp [hi]
    simp only [FNest.bucket, hs, he]
    exact placed_bucket hp i

end Nest

end Ltop
