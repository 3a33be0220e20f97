import Mathlib
import Ltop.Sort
import Ltop.Library.Outcome
import Ltop.Library.Records

namespace Ltop.Sort

open Records

def readWord (ws : List UInt32) (a : ℕ) : Outcome UInt32 := ws[a]?.elim (.fault .index) .some

def writeWord (ws : List UInt32) (a : ℕ) (x : UInt32) : Outcome (List UInt32) :=
  if a < ws.length then .some (ws.set a x) else .fault .index

section Mono

variable (elem_words : ℕ)

def wordKey (ws : List UInt32) (i : ℕ) : Outcome UInt32 := readWord ws (i * elem_words)

def swapStep (i j : ℕ) (ws : List UInt32) (k : ℕ) : Outcome (List UInt32) := do
  let pa := i * elem_words + k
  let pb := j * elem_words + k
  let ta ← readWord ws pa
  let ws ← writeWord ws pa (← readWord ws pb)
  writeWord ws pb ta

def swapFrom (i j : ℕ) : ℕ → ℕ → List UInt32 → Outcome (List UInt32)
  | _, 0, ws => .some ws
  | k, n + 1, ws => do swapFrom i j (k + 1) n (← swapStep elem_words i j ws k)

def wordSwap (i j : ℕ) (ws : List UInt32) : Outcome (List UInt32) :=
  swapFrom elem_words i j 0 elem_words ws

def pickChild (heap_len : ℕ) (ws : List UInt32) (left : ℕ) : Outcome ℕ :=
  let right := left + 1
  if right < heap_len then do
    let r ← wordKey elem_words ws right
    let l ← wordKey elem_words ws left
    return if r > l then right else left
  else .some left

def wordSiftDown (heap_len : ℕ) : ℕ → ℕ → List UInt32 → Outcome (List UInt32)
  | 0, _, _ => .fault .spin
  | fuel + 1, i, ws =>
    let left := 2 * i + 1
    if left ≥ heap_len then .some ws
    else do
      let max ← pickChild elem_words heap_len ws left
      let here ← wordKey elem_words ws i
      let there ← wordKey elem_words ws max
      if here ≥ there then .some ws
      else wordSiftDown heap_len fuel max (← wordSwap elem_words i max ws)

def wordHeapify (len : ℕ) : ℕ → List UInt32 → Outcome (List UInt32)
  | 0, ws => .some ws
  | i + 1, ws => do wordHeapify len i (← wordSiftDown elem_words len (len + 1) i ws)

def wordDrain : ℕ → List UInt32 → Outcome (List UInt32)
  | 0, ws => .some ws
  | 1, ws => .some ws
  | n + 2, ws => do
    let ws ← wordSwap elem_words 0 (n + 1) ws
    wordDrain (n + 1) (← wordSiftDown elem_words (n + 1) (n + 2) 0 ws)

def wordSortRaw (len : ℕ) (ws : List UInt32) : Outcome (List UInt32) := do
  wordDrain elem_words len (← wordHeapify elem_words len (len / 2) ws)

end Mono

def sortMono (ws : List UInt32) (len elem_size : ℕ) : Outcome (List UInt32) :=
  let elem_words := elem_size / 4
  wordSortRaw elem_words len ws

def sortWordsByU32Key (elem_size len : ℕ) (ws : List UInt32) : Outcome (List UInt32) :=
  if len < 2 then .some ws else sortMono ws len elem_size

def firstWord (r : List UInt32) : UInt32 := r.head?.getD 0

variable {w len i j : ℕ} {ws : List UInt32}

theorem readWord_eq {a : ℕ} (h : a < ws.length) : readWord ws a = .some ws[a] := by
  rw [readWord, List.getElem?_eq_getElem h]
  rfl

theorem readWord_fault {a : ℕ} (h : ws.length ≤ a) : readWord ws a = .fault .index := by
  rw [readWord, List.getElem?_eq_none h]
  rfl

theorem swapStep_eq {k : ℕ} (hi : i * w + k < ws.length) (hj : j * w + k < ws.length) :
    swapStep w i j ws k = .some (swapAt (i * w + k) (j * w + k) ws) := by
  simp only [swapStep, readWord_eq hi, readWord_eq hj, Outcome.some_bind, writeWord, if_pos hi]
  rw [if_pos (by rwa [List.length_set]), swapAt, List.getElem?_eq_getElem hi,
    List.getElem?_eq_getElem hj]

theorem swapFrom_spec {k n : ℕ} (hlen : ws.length = len * w) (hi : i < len) (hj : j < len)
    (hkn : k + n ≤ w) : ∃ out, swapFrom w i j k n ws = .some out ∧ out.length = len * w ∧
      ∀ r c, c < w → out[r * w + c]? =
        ws[(if k ≤ c ∧ c < k + n then Equiv.swap i j r else r) * w + c]? := by
  induction n generalizing k ws with
  | zero =>
    refine ⟨ws, rfl, hlen, fun r c _ => ?_⟩
    rw [if_neg (by omega)]
  | succ n ih =>
    have hislot : i * w + k < ws.length := hlen ▸ slot_lt hi (by omega)
    have hjslot : j * w + k < ws.length := hlen ▸ slot_lt hj (by omega)
    have hswapped : (swapAt (i * w + k) (j * w + k) ws).length = len * w := by
      rw [swapAt_length, hlen]
    obtain ⟨out, hout, hsize, hslots⟩ := ih hswapped (k := k + 1) (by omega)
    refine ⟨out, by rw [swapFrom, swapStep_eq hislot hjslot, Outcome.some_bind, hout], hsize, ?_⟩
    intro r c hc
    rw [hslots r c hc, swapAt_getElem? hislot hjslot, swap_slot hc (by omega)]
    by_cases hck : c = k
    · rw [if_pos hck, if_neg (by omega), if_pos (by omega)]
    · rw [if_neg hck]
      have hiff : (k + 1 ≤ c ∧ c < k + 1 + n) ↔ (k ≤ c ∧ c < k + (n + 1)) := by omega
      simp only [hiff]

theorem writeWord_length {a : ℕ} {x : UInt32} {out : List UInt32}
    (h : writeWord ws a x = .some out) : out.length = ws.length := by
  unfold writeWord at h
  split at h
  · rw [← Outcome.some.inj h, List.length_set]
  · cases h

theorem swapFrom_length {k n : ℕ} {out : List UInt32} (h : swapFrom w i j k n ws = .some out) :
    out.length = ws.length := by
  induction n generalizing k ws with
  | zero => rw [← Outcome.some.inj h]
  | succ n ih =>
    obtain ⟨ws', hstep, h⟩ := Outcome.bind_eq_some.mp h
    obtain ⟨ta, -, hstep⟩ := Outcome.bind_eq_some.mp hstep
    obtain ⟨tb, -, hstep⟩ := Outcome.bind_eq_some.mp hstep
    obtain ⟨ws₁, hfirst, hsecond⟩ := Outcome.bind_eq_some.mp hstep
    rw [ih h, writeWord_length hsecond, writeWord_length hfirst]

abbrev Words (w len : ℕ) := {ws : List UInt32 // ws.length = len * w}

def recordKey (s : Words w len) (i : ℕ) : ℕ := (firstWord (record w s.val i)).toNat

def recordSwap (i j : ℕ) (s : Words w len) : Words w len :=
  ⟨(wordSwap w i j s.val).getD s.val, by
    cases h : wordSwap w i j s.val with
    | some out => exact (swapFrom_length h).trans s.property
    | none => exact s.property
    | fault f => exact s.property⟩

variable {s : Words w len}

theorem wordSwap_eq (hi : i < len) (hj : j < len) :
    wordSwap w i j s.val = .some (recordSwap i j s).val ∧
      record w (recordSwap i j s).val = record w s.val ∘ Equiv.swap i j := by
  obtain ⟨out, hout, -, hslots⟩ := swapFrom_spec (k := 0) (n := w) s.property hi hj (by omega)
  have hval : (recordSwap i j s).val = out := by
    change (wordSwap w i j s.val).getD s.val = out
    rw [wordSwap, hout]
    rfl
  refine ⟨by rw [wordSwap, hout, hval], ?_⟩
  funext r
  rw [hval]
  refine record_ext fun c hc => ?_
  rw [hslots r c hc, if_pos (by omega)]

theorem wordKey_eq (hw : 0 < w) (hi : i < len) :
    ∃ x : UInt32, wordKey w s.val i = .some x ∧ x.toNat = recordKey s i := by
  have hslot : i * w < s.val.length := by
    rw [s.property]
    exact slot_lt hi hw
  refine ⟨_, readWord_eq hslot, ?_⟩
  rw [recordKey, firstWord, record_head hw, List.getElem?_eq_getElem hslot]
  rfl

theorem pickChild_eq (hw : 0 < w) {n left : ℕ} (hn : n ≤ len) :
    pickChild w n s.val left = .some (maxChild recordKey n s left) := by
  unfold pickChild maxChild
  dsimp only
  by_cases hr : left + 1 < n
  · obtain ⟨r, hrkey, hrval⟩ := wordKey_eq (s := s) hw (show left + 1 < len by omega)
    obtain ⟨l, hlkey, hlval⟩ := wordKey_eq (s := s) hw (show left < len by omega)
    rw [if_pos hr, hrkey, Outcome.some_bind, hlkey, Outcome.some_bind, ← hrval, ← hlval]
    simp only [hr, true_and, gt_iff_lt, UInt32.lt_iff_toNat_lt]
    rfl
  · rw [if_neg hr, if_neg fun h => hr h.1]

theorem wordSiftDown_eq (hw : 0 < w) {n m fuel : ℕ} (hn : n ≤ len) (hi : i < len) (hm : n ≤ i + m)
    (hf : m < fuel) : wordSiftDown w n fuel i s.val =
      .some (Loop.iterate (siftStep recordKey recordSwap n) m (i, s)).2.val := by
  induction m generalizing i s fuel with
  | zero =>
    obtain ⟨fuel, rfl⟩ := Nat.exists_eq_succ_of_ne_zero hf.ne'
    rw [wordSiftDown, if_pos (by omega)]
    rfl
  | succ m ih =>
    obtain ⟨fuel, rfl⟩ := Nat.exists_eq_succ_of_ne_zero (Nat.zero_lt_of_lt hf).ne'
    rw [wordSiftDown]
    by_cases hleaf : 2 * i + 1 ≥ n
    · have hstep : siftStep recordKey recordSwap n (i, s) = none := if_pos hleaf
      rw [if_pos hleaf, Loop.iterate_done _ hstep]
    · obtain ⟨hmax, hchild, -⟩ := @maxChild_spec (Words w len) ℕ _ recordKey (List UInt32)
        (fun s => record w s.val) (fun r => (firstWord r).toNat) len (fun _ _ _ => rfl) _ _ s hn
        (not_le.mp hleaf)
      obtain ⟨x, hx, hxval⟩ := wordKey_eq (s := s) hw hi
      obtain ⟨y, hy, hyval⟩ := wordKey_eq (s := s) hw (hmax.trans_le hn)
      rw [if_neg hleaf, pickChild_eq hw hn, Outcome.some_bind, hx,
        Outcome.some_bind, hy, Outcome.some_bind]
      by_cases hge : x ≥ y
      · have hstep : siftStep recordKey recordSwap n (i, s) = none := by
          rw [siftStep]
          dsimp only
          rw [if_neg hleaf, if_pos (by rw [← hxval, ← hyval]; exact UInt32.le_iff_toNat_le.mp hge)]
        rw [if_pos hge, Loop.iterate_done _ hstep]
      · have hstep : siftStep recordKey recordSwap n (i, s) =
            some (maxChild recordKey n s (2 * i + 1),
              recordSwap i (maxChild recordKey n s (2 * i + 1)) s) := by
          rw [siftStep]
          dsimp only
          rw [if_neg hleaf, if_neg fun h => hge (UInt32.le_iff_toNat_le.mpr (by
            rw [hxval, hyval]
            exact h))]
        rw [if_neg hge, (wordSwap_eq hi (hmax.trans_le hn)).1, Outcome.some_bind,
          Loop.iterate_step _ hstep]
        exact ih (hmax.trans_le hn) (by omega) (by omega)

theorem wordHeapify_eq (hw : 0 < w) (hi : i ≤ len) :
    wordHeapify w len i s.val = .some (heapify recordKey recordSwap len i s).val := by
  induction i generalizing s with
  | zero => rfl
  | succ i ih =>
    rw [wordHeapify, wordSiftDown_eq hw le_rfl hi (Nat.le_add_left len i) (Nat.lt_succ_self len),
      Outcome.some_bind]
    exact ih (by omega)

theorem wordDrain_eq (hw : 0 < w) {n : ℕ} (hn : n ≤ len) :
    wordDrain w n s.val = .some (drain recordKey recordSwap n s).val := by
  induction n, s using drain.induct recordKey recordSwap with
  | case1 s => rfl
  | case2 s => rfl
  | case3 n s ih =>
    rw [wordDrain, (wordSwap_eq (by omega) (by omega)).1, Outcome.some_bind,
      wordSiftDown_eq (m := n + 1) hw (by omega) (by omega) (by omega) (Nat.lt_succ_self _),
      Outcome.some_bind]
    exact ih (by omega)

theorem wordSortRaw_eq (hw : 0 < w) (s : Words w len) :
    wordSortRaw w len s.val = .some (sortRaw recordKey recordSwap len s).val := by
  rw [wordSortRaw, wordHeapify_eq hw (Nat.div_le_self len 2), Outcome.some_bind,
    wordDrain_eq hw le_rfl]
  rfl

theorem records_perm {t : Words w len}
    (h : Moves (fun s : Words w len => record w s.val) len s t) :
    (records w len t.val).Perm (records w len s.val) := by
  obtain ⟨π, hπ, hview⟩ := h
  refine perm_of_moves π (by rw [records_length, records_length]) (fun i hi => hπ i ?_) fun i => ?_
  · rwa [records_length] at hi
  · rcases Nat.lt_or_ge i len with hi | hi
    · have hlt : π i < len := by
        by_contra hge
        have hfix := π.injective (hπ (π i) (not_lt.mp hge))
        omega
      rw [records_getElem? hi, records_getElem? hlt]
      exact congrArg some (congrFun hview i)
    · rw [hπ i hi, List.getElem?_eq_none (by rwa [records_length]),
        List.getElem?_eq_none (by rwa [records_length])]

theorem records_pairwise (h : ∀ i j, i ≤ j → j < len → recordKey s i ≤ recordKey s j) :
    (records w len s.val).Pairwise fun a b => firstWord a ≤ firstWord b := by
  rw [records, List.pairwise_map]
  refine List.pairwise_lt_range.imp_of_mem fun {i j} _ hj hij => ?_
  exact UInt32.le_iff_toNat_le.mpr (h i j hij.le (List.mem_range.mp hj))

theorem wordKey_fault_iff (hw : 0 < w) (hlen : ws.length = len * w) :
    wordKey w ws i = .fault .index ↔ len ≤ i := by
  constructor
  · intro h
    by_contra hlt
    obtain ⟨x, hx, -⟩ := wordKey_eq (s := ⟨ws, hlen⟩) hw (not_le.mp hlt)
    rw [hx] at h
    cases h
  · intro hi
    refine readWord_fault ?_
    rw [hlen]
    exact Nat.mul_le_mul_right w hi

theorem wordSwap_fault_iff (hw : 0 < w) (hlen : ws.length = len * w) :
    wordSwap w i j ws = .fault .index ↔ len ≤ i ∨ len ≤ j := by
  constructor
  · intro h
    by_contra hlt
    obtain ⟨hi, hj⟩ := not_or.mp hlt
    have hswap := (wordSwap_eq (s := ⟨ws, hlen⟩) (not_le.mp hi) (not_le.mp hj)).1
    rw [hswap] at h
    cases h
  · intro h
    obtain ⟨n, rfl⟩ := Nat.exists_eq_succ_of_ne_zero hw.ne'
    have hout : ∀ {r}, len ≤ r → ws.length ≤ r * (n + 1) + 0 := fun hr =>
      hlen ▸ Nat.mul_le_mul_right (n + 1) hr
    have hstep : swapStep (n + 1) i j ws 0 = .fault .index := by
      unfold swapStep
      dsimp only
      rcases Nat.lt_or_ge i len with hi | hi
      · have hj := h.resolve_left (not_le.mpr hi)
        rw [readWord_eq (hlen ▸ slot_lt hi n.succ_pos), Outcome.some_bind, readWord_fault (hout hj)]
        rfl
      · rw [readWord_fault (hout hi)]
        rfl
    rw [wordSwap, swapFrom, hstep]
    rfl

def recordSlice (s : Words w len) : {rs : List (List UInt32) // rs.length = len} :=
  ⟨records w len s.val, records_length⟩

theorem recordSlice_key (s : Words w len) (i : ℕ) :
    sliceKey firstWord (recordSlice s) i = recordKey s i := by
  change ((records w len s.val)[i]?.map fun x => (firstWord x).toNat).getD 0 = _
  rcases Nat.lt_or_ge i len with hi | hi
  · rw [records_getElem? hi]
    rfl
  · have hend : s.val.length ≤ i * w := by
      rw [s.property]
      exact Nat.mul_le_mul_right w hi
    rw [List.getElem?_eq_none (by rwa [records_length]), recordKey, record, List.drop_of_length_le hend,
      List.take_nil]
    rfl

theorem recordSlice_swap (hw : 0 < w) (s : Words w len) (i j : ℕ) :
    recordSlice (recordSwap i j s) = sliceSwap i j (recordSlice s) := by
  apply Subtype.ext
  change records w len (recordSwap i j s).val = swapAt i j (records w len s.val)
  by_cases h : i < len ∧ j < len
  · obtain ⟨hi, hj⟩ := h
    apply List.ext_getElem?
    intro m
    rw [swapAt_getElem? (by rwa [records_length]) (by rwa [records_length])]
    rcases Nat.lt_or_ge m len with hm | hm
    · have hswap : Equiv.swap i j m < len := by
        rw [Equiv.swap_apply_def]
        split_ifs <;> assumption
      rw [records_getElem? hm, records_getElem? hswap]
      exact congrArg some (congrFun (wordSwap_eq hi hj).2 m)
    · rw [Equiv.swap_apply_of_ne_of_ne (by omega) (by omega),
        List.getElem?_eq_none (by rwa [records_length]), List.getElem?_eq_none (by rwa [records_length])]
  · have hfault := (wordSwap_fault_iff (i := i) (j := j) hw s.property).mpr (by omega)
    have hstill : (recordSwap i j s).val = s.val := by
      change (wordSwap w i j s.val).getD s.val = s.val
      rw [hfault]
      rfl
    have hout : (records w len s.val)[i]? = none ∨ (records w len s.val)[j]? = none := by
      rw [List.getElem?_eq_none_iff, List.getElem?_eq_none_iff, records_length]
      omega
    rw [hstill]
    unfold swapAt
    rcases hout with h | h
    · rw [h]
    · rw [h]
      cases (records w len s.val)[i]? <;> rfl

theorem sortWords_refines (hw : 0 < w) (hlen : ws.length = len * w) :
    ∃ out, sortWordsByU32Key (4 * w) len ws = .some out ∧
      records w len out = sortByU32Key firstWord (records w len ws) := by
  rw [sortByU32Key_of_length firstWord records_length, sortWordsByU32Key]
  split
  · exact ⟨ws, rfl, rfl⟩
  · refine ⟨(sortRaw recordKey recordSwap len ⟨ws, hlen⟩).val, ?_, ?_⟩
    · rw [sortMono, Nat.mul_div_cancel_left w (by decide)]
      exact wordSortRaw_eq hw ⟨ws, hlen⟩
    · exact congrArg Subtype.val (sortRaw_map (f := recordSlice) recordKey recordSwap
        (sliceKey firstWord) sliceSwap recordSlice_key (recordSlice_swap hw) ⟨ws, hlen⟩)

theorem sortWordsByU32Key_spec (hw : 0 < w) (hlen : ws.length = len * w) :
    ∃ out, sortWordsByU32Key (4 * w) len ws = .some out ∧ out.length = ws.length ∧
      (records w len out).Perm (records w len ws) ∧
      (records w len out).Pairwise (fun a b => firstWord a ≤ firstWord b) ∧
      (∀ vs i, vs.length = len * w → (wordKey w vs i = .fault .index ↔ len ≤ i)) ∧
      ∀ vs i j, vs.length = len * w →
        (wordSwap w i j vs = .fault .index ↔ len ≤ i ∨ len ≤ j) := by
  have hclosures : (∀ vs i, vs.length = len * w → (wordKey w vs i = .fault .index ↔ len ≤ i)) ∧
      ∀ vs i j, vs.length = len * w → (wordSwap w i j vs = .fault .index ↔ len ≤ i ∨ len ≤ j) :=
    ⟨fun _ _ h => wordKey_fault_iff hw h, fun _ _ _ h => wordSwap_fault_iff hw h⟩
  unfold sortWordsByU32Key
  split
  · rename_i hsmall
    refine ⟨ws, rfl, rfl, .refl _, records_pairwise (s := ⟨ws, hlen⟩) fun i j hij hj => ?_, hclosures⟩
    rw [show i = j by omega]
  · obtain ⟨hsorted, hmoves⟩ := @sortRaw_spec (Words w len) ℕ _ recordKey recordSwap (List UInt32)
      (fun s => record w s.val) (fun r => (firstWord r).toNat) len (fun _ _ _ => rfl)
      (fun s i j hi hj => (wordSwap_eq hi hj).2) ⟨ws, hlen⟩
    refine ⟨(sortRaw recordKey recordSwap len ⟨ws, hlen⟩).val, ?_,
      (sortRaw recordKey recordSwap len ⟨ws, hlen⟩).property.trans hlen.symm, records_perm hmoves,
      records_pairwise hsorted, hclosures⟩
    rw [sortMono, Nat.mul_div_cancel_left w (by decide)]
    exact wordSortRaw_eq hw ⟨ws, hlen⟩

theorem sortWordsByU32Key_spec_pairs :
    ∃ out, sortWordsByU32Key (4 * 2) 3 [3, 30, 1, 10, 2, 20] = .some out ∧
      (records 2 3 out).Perm [[3, 30], [1, 10], [2, 20]] := by
  obtain ⟨out, hout, -, hperm, -⟩ := @sortWordsByU32Key_spec 2 3 [3, 30, 1, 10, 2, 20]
    (by decide) rfl
  exact ⟨out, hout, hperm⟩

end Ltop.Sort
