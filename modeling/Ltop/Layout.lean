import Mathlib
import Ltop.Tree
import Ltop.Library.Preorder

namespace Ltop

open Preorder

def rail (isLast : Bool) : List UInt8 := if isLast then bytes "  " else bytes "│ "

def glyph (isLast : Bool) : List UInt8 := if isLast then bytes "└─" else bytes "├─"

def rails : List Bool → List UInt8
  | [] => []
  | [b] => glyph b
  | b :: c :: flags => rail b ++ rails (c :: flags)

theorem rails_eq {flags : List Bool} (h : flags ≠ []) :
    rails flags = flags.dropLast.flatMap rail ++ glyph (flags.getLast h) := by
  induction flags with
  | nil => exact absurd rfl h
  | cons b flags ih =>
    cases flags with
    | nil => rfl
    | cons c flags => simp [rails, ih]

def Encodes (mask : UInt32) (flags : List Bool) : Prop :=
  ∀ j, mask.toNat.testBit j = (decide (j < 32) && flags.getD j false)

theorem encodes_zero : Encodes 0 [] := by
  intro j
  simp

theorem isLast_eq (t : Indent) {i : ℕ} (hi : i < 32) : t.isLast i = t.mask.toNat.testBit i := by
  have hmod : (UInt32.ofNat i).toNat % 32 = i := by
    rw [UInt32.toNat_ofNat_of_lt' (by rw [UInt32.size]; omega), Nat.mod_eq_of_lt hi]
  have hnat : ((t.mask >>> UInt32.ofNat i) &&& 1).toNat = 1 &&& (t.mask.toNat >>> i) := by
    rw [UInt32.toNat_and, UInt32.toNat_shiftRight, hmod, Nat.and_comm]
    rfl
  rw [Nat.testBit, ← hnat, Indent.isLast, Bool.eq_iff_iff, bne_iff_ne, bne_iff_ne, ne_eq, ne_eq,
    not_iff_not, ← UInt32.toNat_inj]
  rfl

theorem put_eq {t : Indent} {flags : List Bool} (hm : Encodes t.mask flags)
    (hd : t.depth.toNat = min 255 flags.length) : t.put = rails (flags.take 32) := by
  have hlen : t.renderDepth = (flags.take 32).length := by
    rw [Indent.renderDepth, hd, List.length_take]
    omega
  have hbit : ∀ i (hi : i < (flags.take 32).length), t.isLast i = (flags.take 32)[i] := by
    intro i hi
    have h32 : i < 32 := by
      rw [List.length_take] at hi
      omega
    have hf : i < flags.length := by
      rw [List.length_take] at hi
      omega
    rw [isLast_eq t h32, hm i]
    simp [h32, hf]
  unfold Indent.put
  dsimp only
  rw [hlen]
  generalize flags.take 32 = shown at hbit ⊢
  by_cases h : shown = []
  · subst h
    rfl
  · have hpos := List.length_pos_iff.mpr h
    rw [if_neg (by omega), rails_eq h, hbit _ (by omega), List.getLast_eq_getElem]
    congr 1
    have hmap : (List.range (shown.length - 1)).map t.isLast = shown.dropLast := by
      apply List.ext_getElem
      · simp
      · intro i h1 h2
        rw [List.length_dropLast] at h2
        simp [hbit i (by omega)]
    rw [← hmap, List.flatMap_map]
    rfl

theorem Encodes.snoc {mask : UInt32} {depth : UInt8} {flags : List Bool} (h : Encodes mask flags)
    (hd : depth.toNat = min 255 (flags.length + 1)) (b : Bool) :
    Encodes (if 0 < depth ∧ depth ≤ 32 ∧ b then mask ||| (1 <<< (depth - 1).toUInt32) else mask)
      (flags ++ [b]) := by
  have hpos : 0 < depth := by
    rw [UInt8.lt_iff_toNat_lt, hd]
    simp
  have hle : depth ≤ 32 ↔ flags.length < 32 := by
    rw [UInt8.le_iff_toNat_le, hd]
    simp
  have hbase : ∀ j, j ≠ flags.length → (flags ++ [b]).getD j false = flags.getD j false := by
    intro j hj
    rw [List.getD_eq_getElem?_getD, List.getD_eq_getElem?_getD]
    rcases Nat.lt_or_gt_of_ne hj with hlt | hgt
    · rw [List.getElem?_append_left hlt]
    · rw [List.getElem?_eq_none (by simp; omega), List.getElem?_eq_none (by omega)]
  have hself : (flags ++ [b]).getD flags.length false = b := by simp
  have hout : flags.getD flags.length false = false := by simp
  intro j
  split
  · rename_i hc
    have hlt := hle.mp hc.2.1
    have hshift : ((1 : UInt32) <<< (depth - 1).toUInt32).toNat = 2 ^ flags.length := by
      have hsub : (depth - 1).toUInt32.toNat = flags.length := by
        rw [UInt8.toNat_toUInt32, UInt8.toNat_sub_of_le _ _ (by
          rw [UInt8.le_iff_toNat_le, hd]
          simp)]
        rw [hd]
        simp
        omega
      rw [UInt32.toNat_shiftLeft, hsub, Nat.mod_eq_of_lt hlt, UInt32.toNat_one, Nat.one_shiftLeft,
        Nat.mod_eq_of_lt (Nat.pow_lt_pow_right (by omega) hlt)]
    rw [UInt32.toNat_or, Nat.testBit_or, hshift, Nat.testBit_two_pow, h j]
    by_cases hj : j = flags.length
    · subst hj
      rw [hself, hc.2.2]
      simp [hlt]
    · rw [hbase j hj]
      simp [Ne.symm hj]
  · rename_i hc
    rw [h j]
    by_cases hj : j = flags.length
    · subst hj
      rw [hself, hout]
      by_cases hlt : flags.length < 32
      · have hb : b = false := by
          rw [← Bool.not_eq_true]
          exact fun hb => hc ⟨hpos, hle.mpr hlt, hb⟩
        simp [hb]
      · simp [hlt]
    · rw [hbase j hj]

variable {n : ℕ}

def pending (depth : UInt8) (mask : UInt32) : List (Fin n) → List (WorkItem n)
  | [] => []
  | i :: rest => (i, depth, mask, rest.isEmpty) :: pending depth mask rest

@[simp] theorem pending_length (depth : UInt8) (mask : UInt32) (rows : List (Fin n)) :
    (pending depth mask rows).length = rows.length := by
  induction rows with
  | nil => rfl
  | cons i rest ih => simp [pending, ih]

theorem zipIdx_pending (depth : UInt8) (mask : UInt32) (rows : List (Fin n)) (k : ℕ) :
    (rows.zipIdx k).map (fun p => (p.1, depth, mask, p.2 == k + rows.length - 1)) =
      pending depth mask rows := by
  induction rows generalizing k with
  | nil => rfl
  | cons i rest ih =>
    have hlast : (k == k + (i :: rest).length - 1) = rest.isEmpty := by
      cases rest <;> simp
    rw [List.zipIdx_cons, List.map_cons, pending, hlast, ← ih (k + 1), List.length_cons]
    congr 1
    apply List.map_congr_left
    intro p _
    rw [show k + 1 + rest.length - 1 = k + (rest.length + 1) - 1 by omega]

def Matches (row : Indent × Fin n) (item : List Bool × Fin n) : Prop :=
  row.2 = item.2 ∧ row.1.depth.toNat = min 255 item.1.length ∧ Encodes row.1.mask item.1

structure Emits (children : FNest (Fin n)) (base : List (WorkItem n)) (s t : Walk n)
    (l : List (List Bool × Fin n)) : Prop where
  run : ∀ k, Loop.iterate (walkStep children) (l.length + k) s =
    Loop.iterate (walkStep children) k t
  stack : t.1.items = base
  stackRoom : t.1.capacity = s.1.capacity
  outRoom : t.2.capacity = s.2.capacity
  out : ∃ rows, t.2.items = s.2.items ++ rows ∧ List.Forall₂ Matches rows l

theorem Emits.nil (children : FNest (Fin n)) (s : Walk n) : Emits children s.1.items s s [] :=
  ⟨fun k => by simp, rfl, rfl, rfl, [], by simp, .nil⟩

theorem Emits.trans {children : FNest (Fin n)} {base base' : List (WorkItem n)} {s t u : Walk n}
    {l l' : List (List Bool × Fin n)} (h : Emits children base s t l)
    (h' : Emits children base' t u l') : Emits children base' s u (l ++ l') := by
  obtain ⟨rows, hrows, hmatch⟩ := h.out
  obtain ⟨rows', hrows', hmatch'⟩ := h'.out
  refine ⟨fun k => ?_, h'.stack, h'.stackRoom.trans h.stackRoom, h'.outRoom.trans h.outRoom,
    rows ++ rows', by rw [hrows', hrows, List.append_assoc], List.rel_append hmatch hmatch'⟩
  rw [List.length_append, Nat.add_assoc, h.run, h'.run]

theorem Emits.finish {children : FNest (Fin n)} {s t : Walk n} {l : List (List Bool × Fin n)}
    (h : Emits children [] s t l) {fuel : ℕ} (hf : l.length ≤ fuel) :
    Loop.run (walkStep children) fuel s = some t := by
  have hdone : walkStep children t = none := by
    rw [walkStep, FVec.pop_eq_none.mpr h.stack]
    rfl
  obtain ⟨k, rfl⟩ := Nat.exists_eq_add_of_le hf
  rw [Loop.run, h.run, Loop.iterate_done _ hdone, hdone]
  rfl

theorem matches_rows {rows : List (Indent × Fin n)} {l : List (List Bool × Fin n)}
    (h : List.Forall₂ Matches rows l) : rows.map (·.2) = l.map (·.2) := by
  induction h with
  | nil => rfl
  | cons h _ ih => rw [List.map_cons, List.map_cons, h.1, ih]

theorem saturatingSucc_toNat {d : UInt8} {k : ℕ} (hd : d.toNat = min 255 k) :
    (saturatingSucc d).toNat = min 255 (k + 1) := by
  have := d.toNat_lt
  unfold saturatingSucc
  split
  · rw [UInt8.toNat_add, show (1 : UInt8).toNat = 1 from rfl]
    omega
  · rw [show (255 : UInt8).toNat = 255 from rfl]
    omega

theorem walkStep_emits {children : FNest (Fin n)} {kids : Fin n → List (Fin n)}
    (hkids : ∀ i : Fin n, children.bucket i = kids i) {s : Walk n} {base : List (WorkItem n)}
    {i : Fin n} {depth : UInt8} {pm : UInt32} {isLast : Bool} {flags : List Bool}
    (hs : s.1.items = base ++ [(i, depth, pm, isLast)])
    (hroom : base.length + (kids i).length ≤ s.1.capacity)
    (hout : s.2.items.length + 1 ≤ s.2.capacity)
    (hd : depth.toNat = min 255 flags.length)
    (hm : Encodes (if 0 < depth ∧ depth ≤ 32 ∧ isLast then pm ||| (1 <<< (depth - 1).toUInt32)
      else pm) flags) :
    ∃ t depth' mask, Emits children (base ++ (pending depth' mask (kids i)).reverse) s t
        [(flags, i)] ∧ depth'.toNat = min 255 (flags.length + 1) ∧ Encodes mask flags := by
  obtain ⟨stack, hpop⟩ : ∃ stack, s.1.pop = some (stack, (i, depth, pm, isLast)) := by
    cases hp : s.1.pop with
    | none =>
      rw [FVec.pop_eq_none.mp hp] at hs
      simp at hs
    | some p =>
      obtain ⟨stack, x⟩ := p
      obtain ⟨hitems, _⟩ := FVec.pop_eq_some hp
      rw [hitems] at hs
      obtain ⟨_, hx⟩ := List.append_inj' hs rfl
      obtain rfl := List.singleton_inj.mp hx
      exact ⟨stack, rfl⟩
  obtain ⟨hitems, hcap⟩ := FVec.pop_eq_some hpop
  rw [hitems] at hs
  obtain ⟨hbase, _⟩ := List.append_inj' hs rfl
  generalize hmask : (if 0 < depth ∧ depth ≤ 32 ∧ isLast then
    pm ||| (1 <<< (depth - 1).toUInt32) else pm) = mask at hm
  have hpend : ((kids i).zipIdx.reverse.map fun p =>
      (p.1, saturatingSucc depth, mask, p.2 == (kids i).length - 1)) =
      (pending (saturatingSucc depth) mask (kids i)).reverse := by
    rw [List.map_reverse, ← zipIdx_pending (saturatingSucc depth) mask (kids i) 0, Nat.zero_add]
  have hstep : walkStep children s = some
      (stack.pushAll (pending (saturatingSucc depth) mask (kids i)).reverse,
        (s.2.push (⟨depth, mask⟩, i)).1) := by
    rw [walkStep, hpop, Option.map_some, ← hpend, ← hkids i, ← hmask]
  refine ⟨(stack.pushAll (pending (saturatingSucc depth) mask (kids i)).reverse,
    (s.2.push (⟨depth, mask⟩, i)).1), saturatingSucc depth, mask,
    ⟨fun k => ?_, ?_, ?_, FVec.push_capacity _ _, ?_⟩, saturatingSucc_toNat hd, hm⟩
  · rw [List.length_singleton, Nat.add_comm, Loop.iterate_step _ hstep]
  · rw [FVec.pushAll_items, hbase]
    simp only [List.length_reverse, pending_length, hbase, hcap]
    exact hroom
  · rw [FVec.pushAll_capacity, hcap]
  · exact ⟨[(⟨depth, mask⟩, i)], FVec.push_items (by omega) _,
      .cons ⟨rfl, hd, hm⟩ .nil⟩

theorem walk_listing {children : FNest (Fin n)} {kids : Fin n → List (Fin n)}
    (hkids : ∀ i : Fin n, children.bucket i = kids i) {flags : List Bool} {rows : List (Fin n)}
    {l : List (List Bool × Fin n)} (h : Listing kids (some flags) rows l) {depth : UInt8}
    {mask : UInt32} (hd : depth.toNat = min 255 (flags.length + 1)) (hm : Encodes mask flags)
    {s : Walk n} {base : List (WorkItem n)}
    (hs : s.1.items = base ++ (pending depth mask rows).reverse)
    (hroom : base.length + l.length ≤ s.1.capacity)
    (hout : s.2.items.length + l.length ≤ s.2.capacity) :
    ∃ t, Emits children base s t l := by
  generalize habove : some flags = above at h
  induction h generalizing flags depth mask s base with
  | nil =>
    have hbase : s.1.items = base := by simpa [pending] using hs
    exact ⟨s, hbase ▸ Emits.nil children s⟩
  | @cons above i rest sub out hsub hrest ihsub ihrest =>
    subst habove
    have hlen := hsub.length_le
    have hlen' := hrest.length_le
    rw [List.length_cons, List.length_append] at hroom hout
    rw [pending, List.reverse_cons, ← List.append_assoc] at hs
    obtain ⟨t, depth', mask', ht, hd', hm'⟩ := walkStep_emits hkids hs
      (by simp; omega) (by omega)
      (by simpa using hd) (hm.snoc hd rest.isEmpty)
    obtain ⟨r, hr, _⟩ := ht.out
    have hr1 : r.length = 1 := by
      obtain ⟨r', hr', hf⟩ := ht.out
      rw [hr, List.append_cancel_left_eq] at hr'
      rw [hr', hf.length_eq]
      rfl
    obtain ⟨u, hu⟩ := ihsub hd' hm' (s := t) ht.stack
      (by rw [ht.stackRoom]; simp; omega)
      (by rw [ht.outRoom, hr, List.length_append, hr1]; omega) rfl
    obtain ⟨r', hr', hf'⟩ := hu.out
    obtain ⟨v, hv⟩ := ihrest hd hm (s := u) hu.stack
      (by rw [hu.stackRoom, ht.stackRoom]; omega)
      (by
        rw [hu.outRoom, ht.outRoom, hr', hr, List.length_append, List.length_append, hr1,
          hf'.length_eq]
        omega) rfl
    exact ⟨v, (ht.trans hu).trans hv⟩

theorem treeWalk_listing {children : FNest (Fin n)} {kids : Fin n → List (Fin n)}
    (hkids : ∀ i : Fin n, children.bucket i = kids i) {s : Walk n} {r : Fin n}
    {sub : List (List Bool × Fin n)} (hsub : Listing kids (some []) (kids r) sub)
    (hstack : s.1.capacity = n) (hcap : s.2.capacity = n)
    (hroom : s.2.items.length + (sub.length + 1) ≤ n) :
    ∃ t rows, treeWalk children s r = some t ∧ t.1.capacity = n ∧ t.2.capacity = n ∧
      t.2.items = s.2.items ++ rows ∧ List.Forall₂ Matches rows (([], r) :: sub) := by
  have hlen := hsub.length_le
  have hpush : (s.1.clear.push (r, 0, 0, true)).1.items = [] ++ [(r, 0, 0, true)] :=
    FVec.push_items (by simp; omega) _
  have hpcap : (s.1.clear.push (r, 0, 0, true)).1.capacity = n := by
    rw [FVec.push_capacity, FVec.clear_capacity, hstack]
  obtain ⟨t, depth, mask, ht, hd, hm⟩ := walkStep_emits hkids
    (s := ((s.1.clear.push (r, 0, 0, true)).1, s.2)) hpush
    (by simp only [hpcap, List.length_nil]; omega) (by simp only [hcap]; omega)
    (show (0 : UInt8).toNat = min 255 ([] : List Bool).length from rfl)
    (by simpa using encodes_zero)
  obtain ⟨r', hr', hf'⟩ := ht.out
  obtain ⟨u, hu⟩ := walk_listing hkids hsub hd hm ht.stack
    (by rw [ht.stackRoom]; simp only [hpcap, List.length_nil]; omega)
    (by
      rw [ht.outRoom, hr', List.length_append, hf'.length_eq]
      simp only [hcap, List.length_singleton]
      omega)
  have hall := ht.trans hu
  obtain ⟨rows, hrows, hf⟩ := hall.out
  exact ⟨u, rows, hall.finish (by simp; omega), hall.stackRoom.trans hpcap,
    hall.outRoom.trans hcap, hrows, hf⟩

theorem roots_listing {children : FNest (Fin n)} {kids : Fin n → List (Fin n)}
    (hkids : ∀ i : Fin n, children.bucket i = kids i) {roots : List (Fin n)}
    {l : List (List Bool × Fin n)} (h : Listing kids none roots l) {s : Walk n}
    (hstack : s.1.capacity = n) (hcap : s.2.capacity = n)
    (hroom : s.2.items.length + l.length ≤ n) :
    ∃ t rows, roots.foldlM (treeWalk children) s = some t ∧
      t.2.items = s.2.items ++ rows ∧ List.Forall₂ Matches rows l := by
  generalize habove : (none : Option (List Bool)) = above at h
  induction h generalizing s with
  | nil => exact ⟨s, [], rfl, by simp, .nil⟩
  | @cons above r rest sub out hsub _ _ ihrest =>
    subst habove
    rw [List.length_cons, List.length_append] at hroom
    obtain ⟨t, rows, ht, htstack, htcap, hrows, hf⟩ :=
      treeWalk_listing hkids hsub hstack hcap (by omega)
    have hlen := hf.length_eq
    rw [List.length_cons] at hlen
    obtain ⟨u, rows', hu, hrows', hf'⟩ := ihrest htstack htcap
      (by rw [hrows, List.length_append]; omega) rfl
    refine ⟨u, rows ++ rows', ?_, by rw [hrows', hrows, List.append_assoc],
      List.rel_append hf hf'⟩
    rw [List.foldlM_cons, ht]
    exact hu

variable {os : Os}

def treeKids (procs : List (ProcInfo os)) (i : Fin procs.length) : List (Fin procs.length) :=
  (List.finRange procs.length).filter (treeParent procs.get · = some i)

def treeRoots (procs : List (ProcInfo os)) : List (Fin procs.length) :=
  (List.finRange procs.length).filter fun i => (treeParent procs.get i).isNone

theorem mem_treeKids (procs : List (ProcInfo os)) (i k : Fin procs.length) :
    k ∈ treeKids procs i ↔ treeParent procs.get k = some i := by
  simp [treeKids]

theorem treeLayout_listing (procs : List (ProcInfo os)) :
    ∃ out l, treeLayout procs = some out ∧ Listing (treeKids procs) none (treeRoots procs) l ∧
      List.Forall₂ Matches out l ∧ (l.map (·.2)).Nodup ∧
      ∀ i, i ∈ l.map (·.2) ↔ Chain.Rooted (treeParent procs.get) i := by
  have hroots : ∀ i ∈ treeRoots procs, treeParent procs.get i = none := by
    intro i hi
    simpa [treeRoots] using hi
  obtain ⟨l, hl⟩ := listing_exists (mem_treeKids procs) hroots
  have hnd := hl.nodup (mem_treeKids procs) (fun i => (List.nodup_finRange _).filter _)
    (fun i hi => ⟨i, rfl, hroots i hi⟩) ((List.nodup_finRange _).filter _)
  have hlen : l.length ≤ procs.length := by
    have := hnd.length_le_card
    simpa using this
  obtain ⟨t, rows, ht, hrows, hf⟩ := roots_listing
    (fun i => buildChildren_bucket procs.get (buildPidToIdx procs.get) i) hl
    (s := (FVec.new procs.length, FVec.new procs.length)) rfl rfl (by simpa using hlen)
  refine ⟨rows, l, ?_, hl, hf, hnd, ?_⟩
  · have hmap : (some t).map (fun s => s.2.items) = some rows := by simp [hrows]
    rw [← hmap, ← ht]
    rfl
  · intro i
    rw [hl.mem_iff]
    simp only [reaches_iff (mem_treeKids procs)]
    constructor
    · rintro ⟨r, hr, m, hm⟩
      exact ⟨m, r, hm, hroots r hr⟩
    · rintro ⟨m, r, hm, hr⟩
      exact ⟨r, by simp [treeRoots, hr], m, hm⟩

theorem treeLayout_total (procs : List (ProcInfo os)) :
    ∃ out, treeLayout procs = some out ∧ (out.map (·.2)).Nodup ∧
      ∀ i, i ∈ out.map (·.2) ↔ Chain.Rooted (treeParent procs.get) i := by
  obtain ⟨out, l, hout, _, hf, hnd, hmem⟩ := treeLayout_listing procs
  rw [← matches_rows hf] at hnd hmem
  exact ⟨out, hout, hnd, hmem⟩

def childrenOf (procs : List (ProcInfo os)) (i : Fin procs.length) : List (Fin procs.length) :=
  (List.finRange procs.length).filter fun j => (procs.get j).ppid = (procs.get i).pid

def rootsOf (procs : List (ProcInfo os)) : List (Fin procs.length) :=
  (List.finRange procs.length).filter fun j => ∀ i, (procs.get i).pid ≠ (procs.get j).ppid

theorem treeParent_eq {procs : List (ProcInfo os)} (hd : Distinct procs.get)
    (i j : Fin procs.length) :
    treeParent procs.get j = some i ↔ (procs.get j).ppid = (procs.get i).pid :=
  (buildPidToIdx_get hd _ i).trans eq_comm

theorem treeKids_eq {procs : List (ProcInfo os)} (hd : Distinct procs.get) :
    treeKids procs = childrenOf procs := by
  funext i
  apply List.filter_congr
  intro j _
  rw [decide_eq_decide]
  exact treeParent_eq hd i j

theorem treeRoots_eq {procs : List (ProcInfo os)} (hd : Distinct procs.get) :
    treeRoots procs = rootsOf procs := by
  apply List.filter_congr
  intro j _
  rw [Bool.eq_iff_iff, Option.isNone_iff_eq_none, decide_eq_true_eq, Option.eq_none_iff_forall_ne_some]
  exact forall_congr' fun i => not_congr ((treeParent_eq hd i j).trans eq_comm)

theorem treeLayout_preorder (procs : List (ProcInfo os)) (hd : Distinct procs.get) :
    ∃ out l, treeLayout procs = some out ∧ Listing (childrenOf procs) none (rootsOf procs) l ∧
      List.Forall₂ (fun row item => row.2 = item.2 ∧ row.1.depth.toNat = min 255 item.1.length ∧
        row.1.put = rails (item.1.take 32)) out l ∧
      (out.map (·.2)).Nodup ∧
      ∀ i, i ∈ out.map (·.2) ↔
        ∃ r ∈ rootsOf procs, Relation.ReflTransGen (fun a b => b ∈ childrenOf procs a) r i := by
  obtain ⟨out, l, hout, hl, hf, hnd, _⟩ := treeLayout_listing procs
  rw [treeKids_eq hd, treeRoots_eq hd] at hl
  have hmem := hl.mem_iff
  rw [← matches_rows hf] at hnd hmem
  exact ⟨out, l, hout, hl, hf.imp fun row item h => ⟨h.1, h.2.1, put_eq h.2.2 h.2.1⟩, hnd, hmem⟩

def loopRows : List (ProcInfo .linux) :=
  [procInfo 10 1 6 true (bytes "zsh"), procInfo 11 10 2 true (bytes "make"),
    procInfo 12 10 2 true (bytes "cat"), procInfo 20 21 3 true (bytes "a"),
    procInfo 21 20 3 true (bytes "b")]

theorem treeLayout_preorder_loop :
    ∃ out l, treeLayout loopRows = some out ∧
      Listing (childrenOf loopRows) none (rootsOf loopRows) l ∧
      List.Forall₂ (fun row item => row.2 = item.2 ∧ row.1.depth.toNat = min 255 item.1.length ∧
        row.1.put = rails (item.1.take 32)) out l ∧
      (out.map (·.2)).Nodup ∧
      ∀ i, i ∈ out.map (·.2) ↔ ∃ r ∈ rootsOf loopRows,
        Relation.ReflTransGen (fun a b => b ∈ childrenOf loopRows a) r i :=
  treeLayout_preorder loopRows (by decide)

end Ltop
