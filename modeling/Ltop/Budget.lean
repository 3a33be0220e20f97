import Mathlib
import Ltop.Layout
import Ltop.Library.Apportion

namespace Ltop

open Apportion

abbrev Color := ℕ × ℕ × ℕ

def Indent.isRoot (t : Indent) : Bool := t.depth == 0

inductive Row where
  | proc (ti : ℕ)
  | elision (more : UInt32) (color : Color)
deriving DecidableEq

variable {os : Os} {n : ℕ}

def gpuRed : {os : Os} → GpuUsage os → ℕ → ℕ
  | .linux, g, gpuTotalMib =>
    if gpuTotalMib > 0 then min (g.memMib.val.toNat * 255 / gpuTotalMib) 255 else 0
  | .macos, _, _ => 0

def rowColor (p : ProcInfo os) (gpuTotalMib : ℕ) : Color :=
  let r := min (p.rssKib.toNat * 255 / (4 <<< 20)) 255
  let b := min (min ⌊p.cpu⌋.toNat (2 ^ 32 - 1)) 100 * 255 / 100
  match p.gpu with
  | none => (r, 0, b)
  | some g => (max r (gpuRed g gpuTotalMib), 0, max b (min (g.smPct.toNat * 255 / 100) 255))

def colorAt (procs : Table os n) (tree : List (Indent × Fin n)) (gpuTotalMib ti : ℕ) : Color :=
  match tree[ti]? with
  | none => (0, 0, 0)
  | some e => rowColor (procs e.2) gpuTotalMib

def peakStep (peak : ℕ × ℕ) (c : Color) : ℕ × ℕ := (max peak.1 c.1, max peak.2 c.2.2)

def peakColor (colors : List Color) : Color :=
  let peak := colors.foldl peakStep (0, 0)
  (peak.1, 0, peak.2)

def rootPositions (tree : List (Indent × Fin n)) : List ℕ :=
  tree.zipIdx.filterMap fun (e, i) => if e.1.isRoot then some i else none

def kidsIn (len : ℕ) (roots : List ℕ) (k : ℕ) : ℕ :=
  (roots[k + 1]?).getD len - roots.getD k 0 - 1

def allot (slot kids : ℕ) : ℕ × ℕ :=
  if slot ≥ kids then (kids, kids)
  else if slot > 0 then (slot - 1, slot)
  else (0, 0)

def shareOf (childBudget totalChildren kids : ℕ) : ℕ :=
  if totalChildren > 0 then childBudget * kids % 2 ^ 64 / totalChildren else 0

def renderGroup (procs : Table os n) (tree : List (Indent × Fin n)) (roots : List ℕ)
    (maxRows gpuTotalMib : ℕ) (s : ℕ × List Row) (k : ℕ) : ℕ × List Row :=
  let childBudget := maxRows - roots.length
  let totalChildren := ((List.range roots.length).map (kidsIn tree.length roots)).sum
  let rootTi := roots.getD k 0
  let kids := kidsIn tree.length roots k
  let slot := if k + 1 = roots.length then childBudget - s.1
    else shareOf childBudget totalChildren kids
  let (limit, used) := allot slot kids
  let shown := Row.proc rootTi :: (List.range' (rootTi + 1) limit).map Row.proc
  let elided := if used > limit then
      [Row.elision (kids - limit).toUInt32
        (peakColor ((List.range' (rootTi + 1 + limit) (kids - limit)).map
          (colorAt procs tree gpuTotalMib)))]
    else []
  (s.1 + used, s.2 ++ shown ++ elided)

def renderTree (procs : Table os n) (tree : List (Indent × Fin n)) (roots : List ℕ)
    (maxRows gpuTotalMib : ℕ) : List Row :=
  ((List.range (min roots.length maxRows)).foldl
    (renderGroup procs tree roots maxRows gpuTotalMib) (0, [])).2

structure TreeOrder (n : ℕ) where
  entries : List (Indent × Fin n)
  fits : entries.length < 2 ^ 32
  rooted : ∀ e, entries.head? = some e → e.1.isRoot = true

theorem foldl_max_bound (l : List ℕ) (a : ℕ) :
    a ≤ l.foldl max a ∧ (∀ x ∈ l, x ≤ l.foldl max a) ∧
      (l.foldl max a = a ∨ l.foldl max a ∈ l) := by
  induction l generalizing a with
  | nil => simp
  | cons y l ih =>
    obtain ⟨hle, hall, hmem⟩ := ih (max a y)
    rw [List.foldl_cons]
    refine ⟨(Nat.le_max_left a y).trans hle, ?_, ?_⟩
    · exact List.forall_mem_cons.mpr ⟨(Nat.le_max_right a y).trans hle, hall⟩
    · rcases hmem with h | h
      · rw [h]
        rcases Nat.le_total a y with hay | hya
        · exact .inr (by simp [hay])
        · exact .inl (Nat.max_eq_left hya)
      · exact .inr (List.mem_cons_of_mem _ h)

theorem isGreatest_foldl_max {l : List ℕ} (hl : l ≠ []) :
    IsGreatest {x | x ∈ l} (l.foldl max 0) := by
  obtain ⟨_, hall, hmem⟩ := foldl_max_bound l 0
  refine ⟨?_, fun x hx => hall x hx⟩
  rcases hmem with h | h
  · obtain ⟨x, hx⟩ := List.exists_mem_of_ne_nil l hl
    have hzero : x = 0 := by
      have := hall x hx
      omega
    rw [h]
    exact hzero ▸ hx
  · exact h

theorem peak_fold (colors : List Color) (peak : ℕ × ℕ) :
    colors.foldl peakStep peak =
      ((colors.map (·.1)).foldl max peak.1, (colors.map (·.2.2)).foldl max peak.2) := by
  induction colors generalizing peak with
  | nil => rfl
  | cons c colors ih => exact ih (peakStep peak c)

theorem rowColor_green (p : ProcInfo os) (gpuTotalMib : ℕ) : (rowColor p gpuTotalMib).2.1 = 0 := by
  unfold rowColor
  dsimp only
  split <;> rfl

theorem colorAt_green (procs : Table os n) (tree : List (Indent × Fin n)) (gpuTotalMib ti : ℕ) :
    (colorAt procs tree gpuTotalMib ti).2.1 = 0 := by
  unfold colorAt
  split
  · rfl
  · exact rowColor_green _ _

theorem allot_eq (slot kids : ℕ) :
    allot slot kids = (if kids ≤ slot then kids else slot - 1, min slot kids) := by
  unfold allot
  split
  · rename_i h
    rw [Nat.min_eq_right h]
  · rename_i h
    rw [Nat.min_eq_left (by omega)]
    split
    · rfl
    · rw [show slot = 0 by omega]

def positionsFrom (start : ℕ) (tree : List (Indent × Fin n)) : List ℕ :=
  (tree.zipIdx start).filterMap fun (e, i) => if e.1.isRoot then some i else none

theorem positionsFrom_cons (start : ℕ) (e : Indent × Fin n) (tree : List (Indent × Fin n)) :
    positionsFrom start (e :: tree) =
      (if e.1.isRoot then [start] else []) ++ positionsFrom (start + 1) tree := by
  unfold positionsFrom
  rw [List.zipIdx_cons, List.filterMap_cons]
  cases he : e.1.isRoot with
  | false => simp [he]
  | true => simp [he]

theorem positionsFrom_bounds (start : ℕ) (tree : List (Indent × Fin n)) :
    (∀ i ∈ positionsFrom start tree, start ≤ i ∧ i < start + tree.length) ∧
      (positionsFrom start tree).Pairwise (· < ·) := by
  induction tree generalizing start with
  | nil => simp [positionsFrom]
  | cons e tree ih =>
    obtain ⟨hb, hs⟩ := ih (start + 1)
    rw [positionsFrom_cons]
    have hrest : ∀ i ∈ positionsFrom (start + 1) tree, start < i ∧ i < start + (tree.length + 1) := by
      intro i hi
      have := hb i hi
      omega
    cases e.1.isRoot with
    | false => exact ⟨fun i hi => ⟨(hrest i hi).1.le, (hrest i hi).2⟩, hs⟩
    | true =>
      refine ⟨?_, List.pairwise_cons.mpr ⟨fun i hi => (hrest i hi).1, hs⟩⟩
      rintro i (_ | ⟨_, hi⟩)
      · simp
      · exact ⟨(hrest i hi).1.le, (hrest i hi).2⟩

namespace TreeOrder

variable (order : TreeOrder n)

def len : ℕ := order.entries.length

def roots : List ℕ := rootPositions order.entries

def cut (k : ℕ) : ℕ := (order.roots[k]?).getD order.len

def kids (k : ℕ) : ℕ := order.cut (k + 1) - order.cut k - 1

def descendants (k : ℕ) : List ℕ := List.range' (order.cut k + 1) (order.kids k)

variable {order} {k : ℕ}

theorem cut_of_lt (hk : k < order.roots.length) : order.cut k = order.roots[k] := by
  simp [cut, hk]

theorem cut_end : order.cut order.roots.length = order.len := by simp [cut]

theorem cut_zero : order.cut 0 = 0 := by
  obtain ⟨entries, fits, rooted⟩ := order
  cases entries with
  | nil => rfl
  | cons e entries =>
    have hroot : (positionsFrom 0 (e :: entries))[0]? = some 0 := by
      rw [positionsFrom_cons, rooted e rfl]
      rfl
    change (positionsFrom 0 (e :: entries))[0]?.getD _ = 0
    rw [hroot, Option.getD_some]

theorem cut_lt (hk : k < order.roots.length) : order.cut k < order.cut (k + 1) := by
  obtain ⟨hb, hs⟩ := positionsFrom_bounds 0 order.entries
  rw [cut_of_lt hk]
  rcases Nat.lt_or_ge (k + 1) order.roots.length with h | h
  · rw [cut_of_lt h]
    exact List.pairwise_iff_getElem.mp hs k (k + 1) hk h (Nat.lt_succ_self k)
  · rw [show k + 1 = order.roots.length by omega, cut_end]
    exact (hb _ (List.getElem_mem hk)).2.trans_eq (Nat.zero_add _)

theorem getD_roots (hk : k < order.roots.length) : order.roots.getD k 0 = order.cut k := by
  simp [cut, hk]

theorem kidsIn_eq (hk : k < order.roots.length) :
    kidsIn order.entries.length order.roots k = order.kids k := by
  rw [kidsIn, getD_roots hk]
  rfl

theorem groups_flat {j : ℕ} (hj : j ≤ order.roots.length) :
    (List.range j).flatMap (fun k => order.cut k :: order.descendants k) =
      List.range (order.cut j) := by
  induction j with
  | zero => simp [cut_zero]
  | succ j ih =>
    have hlt : order.cut j < order.cut (j + 1) := cut_lt (by omega)
    have hgroup : order.cut j :: order.descendants j =
        List.range' (order.cut j) (order.cut (j + 1) - order.cut j) := by
      rw [show order.cut (j + 1) - order.cut j = order.kids j + 1 by unfold kids; omega,
        List.range'_succ]
      rfl
    have hjoin : List.range' 0 (order.cut j) ++
        List.range' (order.cut j) (order.cut (j + 1) - order.cut j) =
        List.range' 0 (order.cut (j + 1)) := by
      have happ := List.range'_append_1 (s := 0) (m := order.cut j)
        (n := order.cut (j + 1) - order.cut j)
      rwa [Nat.zero_add, Nat.add_sub_of_le hlt.le] at happ
    rw [List.range_succ, List.flatMap_append, ih (by omega), List.flatMap_singleton, hgroup,
      List.range_eq_range', List.range_eq_range', hjoin]

variable (order) in
theorem sum_kids : ∑ k ∈ Finset.range order.roots.length, order.kids k + order.roots.length =
    order.len := by
  have hflat := groups_flat (order.roots.length.le_refl)
  have hlen := congrArg List.length hflat
  have hsum : ∀ f : ℕ → ℕ, ((List.range order.roots.length).map f).sum =
      ∑ k ∈ Finset.range order.roots.length, f k := fun _ => rfl
  rw [cut_end, List.length_range, List.length_flatMap, hsum] at hlen
  simpa [descendants, Finset.sum_add_distrib] using hlen

def share (order : TreeOrder n) (maxRows k : ℕ) : ℕ :=
  shareOf (maxRows - order.roots.length) (∑ j ∈ Finset.range order.roots.length, order.kids j)
    (order.kids k)

def slot (order : TreeOrder n) (maxRows : ℕ) : ℕ → ℕ :=
  Apportion.slot (order.share maxRows) order.kids (maxRows - order.roots.length) order.roots.length

def used (order : TreeOrder n) (maxRows : ℕ) : ℕ → ℕ :=
  Apportion.used (order.share maxRows) order.kids (maxRows - order.roots.length) order.roots.length

def limit (order : TreeOrder n) (maxRows k : ℕ) : ℕ :=
  if order.kids k ≤ order.slot maxRows k then order.kids k else order.slot maxRows k - 1

theorem share_le (maxRows k : ℕ) : order.share maxRows k ≤
    proportional (maxRows - order.roots.length)
      (∑ j ∈ Finset.range order.roots.length, order.kids j) (order.kids k) := by
  unfold share shareOf
  split
  · exact Nat.div_le_div_right (Nat.mod_le _ _)
  · exact Nat.zero_le _

theorem kids_le_total (hk : k < order.roots.length) :
    order.kids k ≤ ∑ j ∈ Finset.range order.roots.length, order.kids j :=
  Finset.single_le_sum (f := order.kids) (fun _ _ => Nat.zero_le _) (Finset.mem_range.mpr hk)

theorem share_eq {maxRows : ℕ} (hfit : maxRows * order.len < 2 ^ 64)
    (hk : k < order.roots.length) : order.share maxRows k =
    proportional (maxRows - order.roots.length)
      (∑ j ∈ Finset.range order.roots.length, order.kids j) (order.kids k) := by
  have hkids : order.kids k ≤ order.len := by
    have := kids_le_total hk
    have := sum_kids order
    omega
  have hsmall : (maxRows - order.roots.length) * order.kids k < 2 ^ 64 :=
    (Nat.mul_le_mul (Nat.sub_le _ _) hkids).trans_lt hfit
  unfold share shareOf proportional
  rw [Nat.mod_eq_of_lt hsmall]
  split
  · rfl
  · rename_i h
    rw [show (∑ j ∈ Finset.range order.roots.length, order.kids j) = 0 by omega, Nat.div_zero]

theorem sum_used_le (maxRows : ℕ) {j : ℕ} (hj : j ≤ order.roots.length) :
    ∑ k ∈ Finset.range j, order.used maxRows k ≤ maxRows - order.roots.length := by
  refine Apportion.sum_used_le ?_ hj
  exact (Finset.sum_le_sum fun k _ => share_le maxRows k).trans (sum_proportional_le _ _ _)

theorem kids_le_slot {maxRows : ℕ} (hfit : maxRows * order.len < 2 ^ 64)
    (hroom : order.len ≤ maxRows) (hk : k < order.roots.length) :
    order.kids k ≤ order.slot maxRows k := by
  have hsum := sum_kids order
  have hbudget : ∑ j ∈ Finset.range order.roots.length, order.kids j ≤
      maxRows - order.roots.length := by omega
  refine Apportion.size_le_slot (fun j hj => ?_) hbudget hk
  rw [share_eq hfit hj]
  exact le_proportional hbudget (kids_le_total hj)

variable (order) (procs : Table os n) (gpuTotalMib maxRows : ℕ)

def hidden (k : ℕ) : List ℕ := (order.descendants k).drop (order.limit maxRows k)

def elided (k : ℕ) : Option (UInt32 × Color) :=
  if 0 < order.slot maxRows k ∧ order.slot maxRows k < order.kids k then
    some ((order.hidden maxRows k).length.toUInt32,
      peakColor ((order.hidden maxRows k).map (colorAt procs order.entries gpuTotalMib)))
  else none

def groupRows (k : ℕ) : List Row :=
  (order.cut k :: (order.descendants k).take (order.limit maxRows k)).map Row.proc ++
    ((order.elided procs gpuTotalMib maxRows k).map fun e => Row.elision e.1 e.2).toList

variable {order maxRows}

theorem limit_le : order.limit maxRows k ≤ order.kids k := by
  unfold limit
  split <;> omega

theorem take_descendants : (order.descendants k).take (order.limit maxRows k) =
    List.range' (order.cut k + 1) (order.limit maxRows k) := by
  rw [descendants, List.take_range'_of_length_ge limit_le]

theorem hidden_eq : order.hidden maxRows k =
    List.range' (order.cut k + 1 + order.limit maxRows k)
      (order.kids k - order.limit maxRows k) := by
  rw [hidden, descendants, List.drop_range', Nat.mul_one]

theorem total_eq : ((List.range order.roots.length).map
    (kidsIn order.entries.length order.roots)).sum =
      ∑ j ∈ Finset.range order.roots.length, order.kids j :=
  Finset.sum_congr rfl fun _ hj => kidsIn_eq (Finset.mem_range.mp hj)

theorem slot_eq (hk : k < order.roots.length) :
    (if k + 1 = order.roots.length then
        maxRows - order.roots.length - ∑ j ∈ Finset.range k, order.used maxRows j
      else order.share maxRows k) = order.slot maxRows k := by
  have hspent : ∑ j ∈ Finset.range k, order.used maxRows j =
      spent (order.share maxRows) order.kids k := Apportion.sum_used hk
  rw [hspent]
  rfl

theorem elided_iff : order.limit maxRows k < order.used maxRows k ↔
    0 < order.slot maxRows k ∧ order.slot maxRows k < order.kids k := by
  change order.limit maxRows k < min (order.slot maxRows k) (order.kids k) ↔ _
  unfold limit
  split <;> omega

theorem renderGroup_eq (hk : k < order.roots.length) (out : List Row) :
    renderGroup procs order.entries order.roots maxRows gpuTotalMib
      (∑ j ∈ Finset.range k, order.used maxRows j, out) k =
      (∑ j ∈ Finset.range (k + 1), order.used maxRows j,
        out ++ order.groupRows procs gpuTotalMib maxRows k) := by
  have hslot : _ = order.slot maxRows k := slot_eq hk
  have hallot : allot (order.slot maxRows k) (order.kids k) =
      (order.limit maxRows k, order.used maxRows k) := allot_eq _ _
  have hshare : shareOf (maxRows - order.roots.length)
      (∑ j ∈ Finset.range order.roots.length, order.kids j) (order.kids k) =
      order.share maxRows k := rfl
  simp only [renderGroup, getD_roots hk, kidsIn_eq hk, total_eq, hshare, hslot, hallot]
  refine Prod.ext (Finset.sum_range_succ _ k).symm ?_
  rw [List.append_assoc]
  refine congrArg (out ++ ·) ?_
  rw [groupRows, take_descendants, List.map_cons, elided]
  refine congrArg _ ?_
  split
  · rename_i h
    rw [if_pos (elided_iff.mp h), hidden_eq, List.length_range']
    rfl
  · rename_i h
    rw [if_neg (fun h' => h (elided_iff.mpr h'))]
    rfl

theorem renderTree_groups : renderTree procs order.entries order.roots maxRows gpuTotalMib =
    (List.range (min order.roots.length maxRows)).flatMap
      (order.groupRows procs gpuTotalMib maxRows) := by
  have hrun : ∀ j ≤ order.roots.length, (List.range j).foldl
      (renderGroup procs order.entries order.roots maxRows gpuTotalMib) (0, []) =
        (∑ k ∈ Finset.range j, order.used maxRows k,
          (List.range j).flatMap (order.groupRows procs gpuTotalMib maxRows)) := by
    intro j hj
    induction j with
    | zero => rfl
    | succ j ih =>
      rw [List.range_succ, List.foldl_append, ih (by omega), List.foldl_cons, List.foldl_nil,
        renderGroup_eq _ _ (by omega), List.flatMap_append, List.flatMap_singleton]
  rw [renderTree, hrun _ (Nat.min_le_left _ _)]

theorem groupRows_length :
    (order.groupRows procs gpuTotalMib maxRows k).length = 1 + order.used maxRows k := by
  have hiff : order.limit maxRows k < order.used maxRows k ↔
      0 < order.slot maxRows k ∧ order.slot maxRows k < order.kids k := elided_iff
  have hused : order.used maxRows k = min (order.slot maxRows k) (order.kids k) := rfl
  unfold groupRows
  rw [take_descendants, elided]
  split
  · rename_i h
    simp [limit]
    split <;> omega
  · rename_i h
    simp [limit]
    split <;> omega

theorem renderTree_length : (renderTree procs order.entries order.roots maxRows
    gpuTotalMib).length ≤ maxRows := by
  have hused := sum_used_le maxRows (Nat.min_le_left order.roots.length maxRows)
  have hsum : ∀ f : ℕ → ℕ, ((List.range (min order.roots.length maxRows)).map f).sum =
      ∑ k ∈ Finset.range (min order.roots.length maxRows), f k := fun _ => rfl
  rw [renderTree_groups, List.length_flatMap, hsum]
  simp only [groupRows_length, Finset.sum_add_distrib, Finset.sum_const, Finset.card_range]
  simp only [smul_eq_mul, Nat.mul_one]
  omega

theorem renderTree_all (hfit : maxRows * order.len < 2 ^ 64) (hroom : order.len ≤ maxRows) :
    renderTree procs order.entries order.roots maxRows gpuTotalMib =
      (List.range order.len).map Row.proc := by
  have hsum := sum_kids order
  have hgroup : ∀ k ∈ List.range order.roots.length,
      order.groupRows procs gpuTotalMib maxRows k =
        (order.cut k :: order.descendants k).map Row.proc := by
    intro k hk
    have hle := kids_le_slot hfit hroom (List.mem_range.mp hk)
    have helided : order.elided procs gpuTotalMib maxRows k = none := if_neg (by omega)
    have hlimit : order.limit maxRows k = order.kids k := if_pos hle
    rw [groupRows, helided, take_descendants, hlimit, descendants]
    simp
  rw [renderTree_groups, Nat.min_eq_left (by omega), List.flatMap_congr hgroup, ← List.map_flatMap,
    groups_flat le_rfl, cut_end]

end TreeOrder

structure Slots (order : TreeOrder n) (maxRows : ℕ) (slot : ℕ → ℕ) : Prop where
  share : ∀ k, k + 1 < order.roots.length → slot k =
    (maxRows - order.roots.length) * (order.descendants k).length /
      ∑ j ∈ Finset.range order.roots.length, (order.descendants j).length
  last : ∀ k, k + 1 = order.roots.length → slot k = (maxRows - order.roots.length) -
    ∑ j ∈ Finset.range k, min (slot j) (order.descendants j).length

def channels : List (Color → ℕ) := [(·.1), (·.2.1), (·.2.2)]

theorem peakColor_greatest {colors : List Color} (hne : colors ≠ [])
    (hgreen : ∀ c ∈ colors, c.2.1 = 0) :
    ∀ c ∈ channels, IsGreatest {x | ∃ color ∈ colors, c color = x} (c (peakColor colors)) := by
  have hmax : ∀ f : Color → ℕ, IsGreatest {x | ∃ color ∈ colors, f color = x}
      ((colors.map f).foldl max 0) := by
    intro f
    simpa only [List.mem_map] using isGreatest_foldl_max (l := colors.map f) (by simpa using hne)
  have hpeak : peakColor colors =
      ((colors.map (·.1)).foldl max 0, 0, (colors.map (·.2.2)).foldl max 0) := by
    rw [peakColor, peak_fold]
  simp only [channels, List.forall_mem_cons, hpeak]
  refine ⟨hmax _, ?_, hmax _, by simp⟩
  obtain ⟨color, hmem⟩ := List.exists_mem_of_ne_nil _ hne
  exact ⟨⟨color, hmem, hgreen color hmem⟩, fun x ⟨color, hm, hx⟩ => by rw [← hx, hgreen color hm]⟩

structure Elides (colorOf : ℕ → Color) (descendants : List ℕ) (slot limit : ℕ)
    (elided : Option (UInt32 × Color)) : Prop where
  shown : limit = if descendants.length ≤ slot then descendants.length else slot - 1
  appears : elided.isSome = true ↔ 0 < slot ∧ slot < descendants.length
  count : ∀ e, elided = some e → e.1.toNat = (descendants.drop limit).length
  peak : ∀ e, elided = some e → ∀ c ∈ channels,
    IsGreatest {x | ∃ ti ∈ descendants.drop limit, c (colorOf ti) = x} (c e.2)

namespace TreeOrder

variable {order : TreeOrder n} {maxRows k : ℕ} (procs : Table os n) (gpuTotalMib : ℕ)

theorem descendants_length : (order.descendants k).length = order.kids k := List.length_range'

theorem slots (hfit : maxRows * order.len < 2 ^ 64) :
    Slots order maxRows (order.slot maxRows) := by
  constructor
  case share =>
    intro k hk
    simp only [descendants_length]
    rw [← slot_eq (by omega), if_neg (by omega), share_eq hfit (by omega)]
    rfl
  case last =>
    intro k hk
    simp only [descendants_length]
    rw [← slot_eq (by omega), if_pos hk]
    rfl

theorem kids_fit (hk : k < order.roots.length) : order.kids k < 2 ^ 32 := by
  have := kids_le_total hk
  have := sum_kids order
  have := order.fits
  unfold len at *
  omega

theorem elides (hk : k < order.roots.length) :
    Elides (colorAt procs order.entries gpuTotalMib) (order.descendants k) (order.slot maxRows k)
      (order.limit maxRows k) (order.elided procs gpuTotalMib maxRows k) := by
  have hlen : (order.hidden maxRows k).length = order.kids k - order.limit maxRows k := by
    rw [hidden_eq, List.length_range']
  constructor
  case shown => rw [descendants_length]; rfl
  case appears =>
    rw [descendants_length, elided]
    split <;> simp_all
  case count =>
    intro e he
    obtain ⟨_, he⟩ := Option.ite_none_right_eq_some.mp he
    obtain rfl := Option.some.inj he
    have hfits : (order.hidden maxRows k).length < 2 ^ 32 := by
      rw [hlen]
      exact (Nat.sub_le _ _).trans_lt (kids_fit hk)
    exact UInt32.toNat_ofNat_of_lt' hfits
  case peak =>
    intro e he c hc
    obtain ⟨hslot, he⟩ := Option.ite_none_right_eq_some.mp he
    obtain rfl := Option.some.inj he
    have hne : order.hidden maxRows k ≠ [] := by
      have hlimit : order.limit maxRows k = order.slot maxRows k - 1 := if_neg (by omega)
      exact List.ne_nil_of_length_pos (by omega)
    have hcolors : (order.hidden maxRows k).map (colorAt procs order.entries gpuTotalMib) ≠ [] := by
      simpa using hne
    have hpeak := peakColor_greatest hcolors (by simp [colorAt_green]) c hc
    simp only [List.mem_map, exists_exists_and_eq_and] at hpeak
    exact hpeak

end TreeOrder

theorem listing_head {kids : Fin n → List (Fin n)} {rows : List (Fin n)}
    {l : List (List Bool × Fin n)} (h : Preorder.Listing kids none rows l)
    {out : List (Indent × Fin n)} (hf : List.Forall₂ Matches out l) (e : Indent × Fin n)
    (he : out.head? = some e) : e.1.isRoot = true := by
  cases h with
  | nil =>
    cases hf
    cases he
  | cons _ _ =>
    cases hf with
    | @cons row _ _ _ hrow _ =>
      obtain rfl : row = e := Option.some.inj he
      have hdepth : row.1.depth.toNat = 0 := hrow.2.1
      simpa [Indent.isRoot, ← UInt8.toNat_inj] using hdepth

theorem treeLayout_order {procs : List (ProcInfo os)} (hfit : procs.length < 2 ^ 32)
    {out : List (Indent × Fin procs.length)} (h : treeLayout procs = some out) :
    ∃ order : TreeOrder procs.length, order.entries = out := by
  obtain ⟨out', l, hout, hl, hf, hnd, _⟩ := treeLayout_listing procs
  obtain rfl := Option.some.inj (h.symm.trans hout)
  have hlen : out.length ≤ procs.length := by
    have hcard := hnd.length_le_card
    simpa [hf.length_eq] using hcard
  exact ⟨⟨out, hlen.trans_lt hfit, listing_head hl hf⟩, rfl⟩

theorem renderTree_budget (order : TreeOrder n) (procs : Table os n) (gpuTotalMib maxRows : ℕ) :
    (renderTree procs order.entries order.roots maxRows gpuTotalMib).length ≤ maxRows ∧
    (maxRows * order.len < 2 ^ 64 →
      (order.len ≤ maxRows → renderTree procs order.entries order.roots maxRows gpuTotalMib =
        (List.range order.len).map Row.proc) ∧
      ∃ (slot limit : ℕ → ℕ) (elided : ℕ → Option (UInt32 × Color)),
        renderTree procs order.entries order.roots maxRows gpuTotalMib =
          ((List.range (min order.roots.length maxRows)).flatMap fun k =>
            (order.cut k :: (order.descendants k).take (limit k)).map Row.proc ++
              ((elided k).map fun e => Row.elision e.1 e.2).toList) ∧
        Slots order maxRows slot ∧
        ∀ k < min order.roots.length maxRows,
          Elides (colorAt procs order.entries gpuTotalMib) (order.descendants k) (slot k) (limit k)
            (elided k)) := by
  refine ⟨TreeOrder.renderTree_length procs gpuTotalMib, fun hfit =>
    ⟨TreeOrder.renderTree_all procs gpuTotalMib hfit, order.slot maxRows, order.limit maxRows,
      order.elided procs gpuTotalMib maxRows, TreeOrder.renderTree_groups procs gpuTotalMib,
      TreeOrder.slots hfit, fun k hk => TreeOrder.elides procs gpuTotalMib (by omega)⟩⟩

def forkedOrder : TreeOrder 6 where
  entries := [(⟨0, 0⟩, 0), (⟨1, 0⟩, 1), (⟨1, 0⟩, 2), (⟨0, 0⟩, 3), (⟨1, 0⟩, 4), (⟨1, 0⟩, 5)]
  fits := by decide
  rooted := by decide

def forkedRows : Table .linux 6 := fun i => procInfo i.val.toUInt32 1 6 true []

theorem renderTree_budget_forked :
    (renderTree forkedRows forkedOrder.entries forkedOrder.roots 5 0).length ≤ 5 ∧
      renderTree forkedRows forkedOrder.entries forkedOrder.roots 6 0 =
        (List.range 6).map Row.proc :=
  ⟨(renderTree_budget forkedOrder forkedRows 0 5).1,
    ((renderTree_budget forkedOrder forkedRows 0 6).2 (by decide)).1 (by decide)⟩

theorem renderTree_wraps :
    forkedOrder.len ≤ 2 ^ 63 + 2 ∧ 2 ^ 63 + 2 < 2 ^ 64 ∧
      renderTree forkedRows forkedOrder.entries forkedOrder.roots (2 ^ 63 + 2) 0 =
        [.proc 0, .proc 3, .proc 4, .proc 5] ∧
      renderTree forkedRows forkedOrder.entries forkedOrder.roots (2 ^ 63 + 2) 0 ≠
        (List.range forkedOrder.len).map Row.proc := by
  have hshort : renderTree forkedRows forkedOrder.entries forkedOrder.roots (2 ^ 63 + 2) 0 =
      [.proc 0, .proc 3, .proc 4, .proc 5] := by decide
  refine ⟨by decide, by decide, hshort, ?_⟩
  rw [hshort]
  decide

example : ([3, 6, 10, 0].map fun maxRows =>
    (renderTree (fun i : Fin 6 => (procInfo i.val.toUInt32 1 6 true [] : ProcInfo .linux))
      ((List.finRange 6).map fun i => (⟨0, 0⟩, i)) (List.range 6) maxRows 0).length) =
    [3, 6, 6, 0] := by
  decide

end Ltop
