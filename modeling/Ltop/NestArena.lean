import Mathlib
import Ltop.Nest
import Ltop.Contract

namespace Ltop.Arena.TwoPass

def bumps (l : Layout) : ℕ → ℕ → Option ℕ
  | 0, offset => some offset
  | n + 1, offset => (bump offset l.size l.align).bind fun p => bumps l n p.2

def collect (l : Layout) (n offset : ℕ) : Option ℕ := bumps l n (alignUp offset l.align)

theorem bump_eq {offset : ℕ} (h : offset ≤ SIZE) (l : Layout) :
    bump offset l.size l.align = if Align.up offset l.align + l.size ≤ SIZE then
      some (Align.up offset l.align, Align.up offset l.align + l.size) else none := by
  obtain ⟨k, hk, hpow⟩ := l.align_pow
  have halign : l.align ≤ MAX_ALIGN :=
    hpow ▸ Nat.pow_le_pow_right Nat.two_pos hk
  simp only [bump, alignUp_eq h]
  by_cases hend : Align.up offset l.align + l.size ≤ SIZE
  · rw [if_neg (by omega)]
  · simp [hend]

theorem bumps_some {l : Layout} {n offset top : ℕ} (hd : l.align ∣ offset) (h : offset ≤ SIZE) :
    bumps l n offset = some top ↔ top = offset + n * l.size ∧ top ≤ SIZE := by
  induction n generalizing offset with
  | zero =>
    simp only [bumps, Option.some.injEq, Nat.zero_mul, Nat.add_zero]
    omega
  | succ n ih =>
    rw [bumps, bump_eq h, Align.up_of_dvd hd l.align_pos, Nat.succ_mul]
    by_cases hend : offset + l.size ≤ SIZE
    · rw [if_pos hend, Option.bind_some, ih (Dvd.dvd.add hd l.align_dvd) hend]
      omega
    · simp only [if_neg hend, Option.bind_none, reduceCtorEq, false_iff]
      omega

theorem collect_some {l : Layout} {n offset top : ℕ} (h : offset ≤ SIZE) :
    collect l n offset = some top ↔ top = Align.up offset l.align + n * l.size ∧ top ≤ SIZE := by
  rw [collect, alignUp_eq h]
  exact bumps_some (Align.dvd_up _ _) (Align.up_le l.align_pos l.align_dvd_SIZE h)

variable {T : Type}

structure Built (T : Type) where
  offsets : List UInt32
  data : List T
  top : ℕ

def Built.bucket (r : Built T) (i : ℕ) : Option (List T) :=
  match r.offsets[i]?, r.offsets[i + 1]? with
  | some start, some stop =>
    if start ≤ stop ∧ stop.toNat ≤ r.data.length then
      some ((r.data.take stop.toNat).drop start.toNat)
    else none
  | _, _ => none

def tally (n : UInt32) : List UInt32 → List (UInt32 × T) → Option (List UInt32)
  | offsets, [] => some offsets
  | offsets, (b, _) :: rest =>
    if b < n then tally n (offsets.modify (b.toNat + 1) (· + 1)) rest else none

def accumulate : UInt32 → List UInt32 → List UInt32
  | _, [] => []
  | prev, c :: cs => (prev + c) :: accumulate (prev + c) cs

def place (offsets : List UInt32) :
    List UInt32 × List T → List (UInt32 × T) → Option (List UInt32 × List T)
  | s, [] => some s
  | (cursors, data), (b, v) :: rest =>
    match offsets[b.toNat + 1]?, cursors[b.toNat]? with
    | some limit, some cursor =>
      if cursor < limit ∧ cursor.toNat < data.length then
        place offsets (cursors.set b.toNat (cursor + 1), data.set cursor.toNat v) rest
      else none
    | _, _ => none

def nest [Inhabited T] (l : Layout) (offset : ℕ) (n : UInt32) (pass1 pass2 : List (UInt32 × T)) :
    Option (Built T) := do
  let kept ← collect word (n.toNat + 1) offset
  let counts ← tally n (List.replicate (n.toNat + 1) 0) pass1
  let offsets := accumulate 0 counts
  let total := (offsets.getLast?.getD 0).toNat
  let top ← collect l total kept
  let _ ← collect word n.toNat top
  let (cursors, data) ← place offsets (offsets.take n.toNat, List.replicate total default) pass2
  if (List.range n.toNat).all fun i => cursors[i]? == offsets[i + 1]? then
    some ⟨offsets, data, top⟩
  else none

def plain (items : List (UInt32 × T)) : List (ℕ × T) := items.map fun p => (p.1.toNat, p.2)

theorem tally_ofNat (n : UInt32) (counts : List ℕ) (items : List (UInt32 × T)) :
    tally n (counts.map UInt32.ofNat) items =
      (Nest.tally n.toNat counts (plain items)).map (List.map UInt32.ofNat) := by
  induction items generalizing counts with
  | nil => rfl
  | cons p rest ih =>
    obtain ⟨b, v⟩ := p
    have hmodify : (counts.map UInt32.ofNat).modify (b.toNat + 1) (· + 1) =
        (counts.modify (b.toNat + 1) (· + 1)).map UInt32.ofNat := by
      apply List.ext_getElem?
      intro j
      rw [List.getElem?_modify, List.getElem?_map, List.getElem?_map, List.getElem?_modify]
      by_cases hj : b.toNat + 1 = j
      · simp [hj, Function.comp_def, UInt32.ofNat_add]
      · simp [hj]
    simp only [tally, plain, List.map_cons, Nest.tally, UInt32.lt_iff_toNat_lt]
    by_cases hb : b.toNat < n.toNat
    · rw [if_pos hb, if_pos hb, hmodify]
      exact ih _
    · rw [if_neg hb, if_neg hb]
      rfl

theorem accumulate_ofNat (prev : ℕ) (cs : List ℕ) :
    accumulate (UInt32.ofNat prev) (cs.map UInt32.ofNat) =
      (Nest.prefixSum prev cs).map UInt32.ofNat := by
  induction cs generalizing prev with
  | nil => rfl
  | cons c cs ih =>
    simp only [List.map_cons, accumulate, Nest.prefixSum, ← UInt32.ofNat_add]
    rw [ih]

def received (items : List (UInt32 × T)) (b : ℕ) : ℕ := items.countP (·.1.toNat = b)

theorem plain_received (items : List (UInt32 × T)) (b : ℕ) :
    (plain items).countP (·.1 = b) = received items b := by
  simp [plain, received, List.countP_map, Function.comp_def]

theorem plain_bound {n : UInt32} {items : List (UInt32 × T)} (h : ∀ p ∈ items, p.1 < n) :
    ∀ p ∈ plain items, p.1 < n.toNat := by
  intro p hp
  obtain ⟨q, hq, rfl⟩ := List.mem_map.mp hp
  exact UInt32.lt_iff_toNat_lt.mp (h q hq)

theorem tally_some {n : UInt32} {items : List (UInt32 × T)} {counts : List UInt32}
    (h : tally n (List.replicate (n.toNat + 1) 0) items = some counts) :
    (∀ p ∈ items, p.1 < n) ∧ accumulate 0 counts =
      (List.range (n.toNat + 1)).map fun i => UInt32.ofNat (Nest.start (plain items) i) := by
  have hzero : List.replicate (n.toNat + 1) (0 : UInt32) =
      (List.replicate (n.toNat + 1) 0).map UInt32.ofNat := by simp
  rw [hzero, tally_ofNat, Option.map_eq_some_iff] at h
  obtain ⟨ns, hns, rfl⟩ := h
  refine ⟨fun p hp => ?_, ?_⟩
  · exact UInt32.lt_iff_toNat_lt.mpr
      (Nest.tally_bound hns (p.1.toNat, p.2) (List.mem_map.mpr ⟨p, hp, rfl⟩))
  · have hoff := accumulate_ofNat 0 ns
    rw [Nest.offsets_eq hns, List.map_map] at hoff
    exact hoff

theorem tally_returns {n : UInt32} {items : List (UInt32 × T)} (h : ∀ p ∈ items, p.1 < n) :
    ∃ counts, tally n (List.replicate (n.toNat + 1) 0) items = some counts := by
  obtain ⟨ns, hns⟩ := Nest.tally_total (plain_bound h) (List.replicate (n.toNat + 1) 0)
  refine ⟨ns.map UInt32.ofNat, ?_⟩
  have hrun := tally_ofNat n (List.replicate (n.toNat + 1) 0) items
  rw [hns, List.map_replicate] at hrun
  exact hrun

theorem toNat_succ {cursor limit : UInt32} (h : cursor < limit) :
    (cursor + 1).toNat = cursor.toNat + 1 := by
  have hlt := UInt32.lt_iff_toNat_lt.mp h
  have hmax := limit.toNat_lt
  rw [UInt32.toNat_add, UInt32.toNat_one, Nat.mod_eq_of_lt (by omega)]

theorem place_some {offsets cursors cursors' : List UInt32} {data data' : List T}
    {rest : List (UInt32 × T)} (h : place offsets (cursors, data) rest = some (cursors', data')) :
    (∀ p ∈ rest, p.1.toNat + 1 < offsets.length) ∧
      ∀ b c, cursors[b]? = some c →
        ∃ c', cursors'[b]? = some c' ∧ c'.toNat = c.toNat + received rest b := by
  induction rest generalizing cursors data with
  | nil =>
    obtain ⟨rfl, rfl⟩ := Prod.mk.inj (Option.some.inj h)
    exact ⟨by simp, fun b c hc => ⟨c, hc, rfl⟩⟩
  | cons p rest ih =>
    obtain ⟨b, v⟩ := p
    rw [place] at h
    split at h
    · rename_i limit cursor hlimit hcursor
      split at h
      · rename_i hroom
        obtain ⟨hin, hcount⟩ := ih h
        have hb := (List.getElem?_eq_some_iff.mp hlimit).1
        have hstep := toNat_succ hroom.1
        refine ⟨List.forall_mem_cons.mpr ⟨hb, hin⟩, fun i c hc => ?_⟩
        by_cases hi : b.toNat = i
        · subst hi
          obtain rfl := Option.some.inj (hcursor.symm.trans hc)
          obtain ⟨c', hc', hcount'⟩ := hcount b.toNat (cursor + 1)
            (List.getElem?_set_self (List.getElem?_eq_some_iff.mp hcursor).1)
          refine ⟨c', hc', ?_⟩
          rw [hcount', hstep, received, received, List.countP_cons_of_pos (by simp)]
          omega
        · obtain ⟨c', hc', hcount'⟩ := hcount i c (by rw [List.getElem?_set_ne hi, hc])
          refine ⟨c', hc', ?_⟩
          rw [hcount', received, received, List.countP_cons_of_neg (by simpa using hi)]
      · cases h
    · cases h

theorem place_refines {offsets cursors : List UInt32} {data data' : List T} {cs : List ℕ}
    {rest : List (UInt32 × T)} (hin : ∀ x ∈ offsets, x.toNat ≤ data.length)
    (h : Nest.fill (offsets.map UInt32.toNat) (cursors.map UInt32.toNat, data) (plain rest) =
      some (cs, data')) :
    ∃ cursors', place offsets (cursors, data) rest = some (cursors', data') ∧
      cursors'.map UInt32.toNat = cs := by
  induction rest generalizing cursors data with
  | nil =>
    obtain ⟨rfl, rfl⟩ := Prod.mk.inj (Option.some.inj h)
    exact ⟨cursors, rfl, rfl⟩
  | cons p rest ih =>
    obtain ⟨b, v⟩ := p
    simp only [plain, List.map_cons, Nest.fill, List.getElem?_map] at h
    rw [place]
    rcases hlimit : offsets[b.toNat + 1]? with _ | limit
    · simp [hlimit] at h
    rcases hcursor : cursors[b.toNat]? with _ | cursor
    · simp [hcursor] at h
    simp only [hlimit, hcursor, Option.map_some] at h
    split at h
    · rename_i hlt
      have hlt' := UInt32.lt_iff_toNat_lt.mpr hlt
      have hle := hin limit (List.mem_of_getElem? hlimit)
      have hset : (cursors.set b.toNat (cursor + 1)).map UInt32.toNat =
          (cursors.map UInt32.toNat).set b.toNat (cursor.toNat + 1) := by
        rw [List.map_set, toNat_succ hlt']
      rw [← hset] at h
      simp only
      rw [if_pos ⟨hlt', by omega⟩]
      exact ih (by simpa using hin) h
    · cases h

def keptEnd (offset : ℕ) (n : UInt32) : ℕ := Align.up offset 4 + (n.toNat + 1) * 4

def dataEnd (l : Layout) (offset : ℕ) (n : UInt32) (total : ℕ) : ℕ :=
  Align.up (keptEnd offset n) l.align + total * l.size

structure Room (l : Layout) (offset : ℕ) (n : UInt32) (total : ℕ) : Prop where
  counted : total < 2 ^ 32
  kept : keptEnd offset n ≤ SIZE
  data : dataEnd l offset n total ≤ SIZE
  cursors : Align.up (dataEnd l offset n total) 4 + n.toNat * 4 ≤ SIZE

structure Built.Exact (r : Built T) (l : Layout) (offset : ℕ) (n : UInt32)
    (items : List (UInt32 × T)) : Prop where
  bucket : ∀ i < n.toNat, r.bucket i = some ((items.filter (·.1.toNat = i)).map (·.2))
  length : r.offsets.length = n.toNat + 1
  zero : r.offsets[0]? = some 0
  mono : r.offsets.Pairwise (· ≤ ·)
  last : r.offsets.getLast?.map UInt32.toNat = some items.length
  data : r.data.length = items.length
  top : r.top = dataEnd l offset n items.length

def starts (n : UInt32) (items : List (UInt32 × T)) : List ℕ :=
  (List.range (n.toNat + 1)).map (Nest.start (plain items))

theorem starts_getElem? {n : UInt32} {items : List (UInt32 × T)} {offsets : List UInt32} {i : ℕ}
    (h : offsets.map UInt32.toNat = starts n items) (hi : i ≤ n.toNat) :
    ∃ x, offsets[i]? = some x ∧ x.toNat = Nest.start (plain items) i := by
  have hget := congrArg (·[i]?) h
  simp only [List.getElem?_map, starts, List.getElem?_range (show i < n.toNat + 1 by omega),
    Option.map_some, Option.map_eq_some_iff] at hget
  exact hget

theorem starts_last {n : UInt32} {items : List (UInt32 × T)} (h : ∀ p ∈ items, p.1 < n) :
    (starts n items).getLast? = some items.length := by
  have hall := Nest.start_all (plain_bound h)
  simpa [starts, List.range_succ, plain] using hall

theorem starts_total {n : UInt32} {offsets : List UInt32} {items : List (UInt32 × T)}
    (hn : ∀ p ∈ items, p.1 < n) (ho : offsets.map UInt32.toNat = starts n items) :
    (offsets.getLast?.getD 0).toNat = items.length := by
  have hlast := starts_last hn
  rw [← ho, List.getLast?_map, Option.map_eq_some_iff] at hlast
  obtain ⟨x, hx, hlen⟩ := hlast
  rw [hx, Option.getD_some, hlen]

theorem place_starts [Inhabited T] {n : UInt32} {offsets : List UInt32} {items : List (UInt32 × T)}
    (hn : ∀ p ∈ items, p.1 < n) (ho : offsets.map UInt32.toNat = starts n items) :
    ∃ cursors data, place offsets (offsets.take n.toNat, List.replicate items.length default)
        items = some (cursors, data) ∧ data.length = items.length ∧
      (∀ i < n.toNat, cursors[i]? = offsets[i + 1]?) ∧
      Nest.Placed (plain items) (plain items) data := by
  have hlen : (plain items).length = items.length := List.length_map _
  obtain ⟨data, hf, hp⟩ := Nest.fill_spec (plain_bound hn) (plain items) []
    (List.replicate items.length default) rfl (by simp [hlen]) (by intro b k hk; simp at hk)
  have hcur : (offsets.take n.toNat).map UInt32.toNat = Nest.cursorsAt n.toNat (plain items) [] := by
    rw [List.map_take, ho, starts, ← List.map_take, List.take_range, Nat.min_eq_left (by omega)]
    simp [Nest.cursorsAt]
  have hin : ∀ x ∈ offsets, x.toNat ≤ (List.replicate items.length (default : T)).length := by
    intro x hx
    have hm : x.toNat ∈ starts n items := ho ▸ List.mem_map_of_mem hx
    obtain ⟨i, -, hi⟩ := List.mem_map.mp hm
    rw [List.length_replicate, ← hi, ← hlen]
    exact List.countP_le_length
  rw [← hcur, ← starts, ← ho] at hf
  obtain ⟨cursors, hplace, hcursors⟩ := place_refines hin hf
  refine ⟨cursors, data, hplace, by simpa using Nest.fill_length hf, fun i hi => ?_, hp⟩
  have hends : (cursors.map UInt32.toNat)[i]? = (offsets.map UInt32.toNat)[i + 1]? := by
    rw [hcursors, ho]
    simp [Nest.cursorsAt, starts, hi, Nest.start_succ]
  rw [List.getElem?_map, List.getElem?_map] at hends
  exact Option.map_injective (fun _ _ h => UInt32.toNat_inj.mp h) hends

theorem exact_of_starts {l : Layout} {offset : ℕ} {n : UInt32} {items : List (UInt32 × T)}
    {r : Built T} (hn : ∀ p ∈ items, p.1 < n) (ho : r.offsets.map UInt32.toNat = starts n items)
    (hlen : r.data.length = items.length) (hp : Nest.Placed (plain items) (plain items) r.data)
    (htop : r.top = dataEnd l offset n items.length) :
    r.Exact l offset n items where
  bucket i hi := by
    obtain ⟨start, hstart, hfrom⟩ := starts_getElem? ho (show i ≤ n.toNat by omega)
    obtain ⟨stop, hstop, hto⟩ := starts_getElem? ho (show i + 1 ≤ n.toNat by omega)
    have hle : start ≤ stop := by
      rw [UInt32.le_iff_toNat_le, hfrom, hto]
      exact Nest.start_mono _ (by omega)
    have hfits : stop.toNat ≤ r.data.length := by
      rw [hto, hlen]
      exact List.countP_le_length.trans (List.length_map _).le
    simp only [Built.bucket, hstart, hstop]
    rw [if_pos ⟨hle, hfits⟩, hfrom, hto, Nest.placed_bucket hp i, plain, List.filter_map,
      List.map_map]
    rfl
  length := by simpa [starts] using congrArg List.length ho
  zero := by
    obtain ⟨x, hx, hzero⟩ := starts_getElem? ho n.toNat.zero_le
    rw [hx, UInt32.toNat_inj.mp (hzero.trans (by simp [Nest.start]) : x.toNat = (0 : UInt32).toNat)]
  mono := by
    have hsorted : (starts n items).Pairwise (· ≤ ·) :=
      List.pairwise_map.mpr (List.pairwise_lt_range.imp fun h => Nest.start_mono _ h.le)
    rw [← ho, List.pairwise_map] at hsorted
    exact hsorted.imp fun h => UInt32.le_iff_toNat_le.mpr h
  last := by rw [← List.getLast?_map, ho, starts_last hn]
  data := hlen
  top := htop

theorem starts_of_placed {n : UInt32} {offsets cursors : List UInt32} {data data' : List T}
    {items : List (UInt32 × T)} (hlen : offsets.length = n.toNat + 1) (hzero : offsets[0]? = some 0)
    (h : place offsets (offsets.take n.toNat, data) items = some (cursors, data'))
    (hends : ∀ i < n.toNat, cursors[i]? = offsets[i + 1]?) :
    offsets.map UInt32.toNat = starts n items := by
  obtain ⟨-, hcount⟩ := place_some h
  have hat : ∀ i, i ≤ n.toNat → ∃ x, offsets[i]? = some x ∧ x.toNat = Nest.start (plain items) i := by
    intro i
    induction i with
    | zero => exact fun _ => ⟨0, hzero, by simp [Nest.start]⟩
    | succ i ih =>
      intro hi
      obtain ⟨x, hx, hstart⟩ := ih (by omega)
      obtain ⟨c, hc, hcx⟩ := hcount i x (by rw [List.getElem?_take_of_lt hi, hx])
      refine ⟨c, by rw [← hends i hi, hc], ?_⟩
      rw [hcx, hstart, Nest.start_succ, plain_received]
  apply List.ext_getElem?
  intro i
  rcases Nat.lt_or_ge i (n.toNat + 1) with hi | hi
  · obtain ⟨x, hx, hstart⟩ := hat i (by omega)
    simp [starts, hi, hx, hstart]
  · rw [List.getElem?_eq_none (by simpa [hlen] using hi),
      List.getElem?_eq_none (by simpa [starts] using hi)]

theorem received_zero {n : UInt32} {items : List (UInt32 × T)} (h : ∀ p ∈ items, p.1 < n) {b : ℕ}
    (hb : n.toNat ≤ b) : received items b = 0 := by
  refine List.countP_eq_zero.mpr fun p hp => ?_
  have := UInt32.lt_iff_toNat_lt.mp (h p hp)
  simp only [decide_eq_true_eq]
  omega

theorem received_replicate (k : ℕ) (v : T) (b : ℕ) :
    received (List.replicate k ((0 : UInt32), v)) b = if b = 0 then k else 0 := by
  by_cases hb : b = 0
  · subst hb
    simp [received, List.countP_replicate]
  · rw [received, if_neg hb, List.countP_eq_zero]
    intro p hp
    rw [List.eq_of_mem_replicate hp]
    simpa using Ne.symm hb

theorem received_mod {n : UInt32} {pass1 pass2 : List (UInt32 × T)}
    (h1 : ∀ p ∈ pass1, p.1 < n) (h2 : ∀ p ∈ pass2, p.1 < n)
    (h : ∀ i ≤ n.toNat, Nest.start (plain pass1) i ≡ Nest.start (plain pass2) i [MOD 2 ^ 32])
    (b : ℕ) : received pass1 b ≡ received pass2 b [MOD 2 ^ 32] := by
  rcases Nat.lt_or_ge b n.toNat with hb | hb
  · have hnext := h (b + 1) hb
    rw [Nest.start_succ, Nest.start_succ, plain_received, plain_received] at hnext
    exact Nat.ModEq.add_left_cancel (h b hb.le) hnext
  · rw [received_zero h1 hb, received_zero h2 hb]

theorem start_mod {pass1 pass2 : List (UInt32 × T)}
    (h : ∀ b, received pass1 b ≡ received pass2 b [MOD 2 ^ 32]) (i : ℕ) :
    Nest.start (plain pass1) i ≡ Nest.start (plain pass2) i [MOD 2 ^ 32] := by
  induction i with
  | zero => simp [Nest.start, Nat.ModEq.refl]
  | succ i ih =>
    rw [Nest.start_succ, Nest.start_succ, plain_received, plain_received]
    exact ih.add (h i)

theorem bound_of_mod {n : UInt32} {pass1 pass2 : List (UInt32 × T)} (h1 : ∀ p ∈ pass1, p.1 < n)
    (h : ∀ b, received pass1 b ≡ received pass2 b [MOD 2 ^ 32]) (hlen : pass2.length < 2 ^ 32) :
    ∀ p ∈ pass2, p.1 < n := by
  intro p hp
  by_contra hn
  rw [UInt32.lt_iff_toNat_lt, not_lt] at hn
  have hnone := received_zero h1 hn
  have hsome : 0 < received pass2 p.1.toNat := List.countP_pos_iff.mpr ⟨p, hp, by simp⟩
  have hle : received pass2 p.1.toNat ≤ pass2.length := List.countP_le_length
  have hmod := h p.1.toNat
  rw [hnone, Nat.ModEq, Nat.mod_eq_of_lt (hle.trans_lt hlen)] at hmod
  omega

theorem offsets_mod {n : UInt32} {pass1 pass2 : List (UInt32 × T)}
    (h : ∀ b, received pass1 b ≡ received pass2 b [MOD 2 ^ 32]) (hlen : pass2.length < 2 ^ 32) :
    (((List.range (n.toNat + 1)).map fun i => UInt32.ofNat (Nest.start (plain pass1) i)).map
      UInt32.toNat) = starts n pass2 := by
  rw [List.map_map]
  refine List.map_congr_left fun i _ => ?_
  have hle : Nest.start (plain pass2) i ≤ pass2.length :=
    List.countP_le_length.trans (List.length_map _).le
  have hmod := start_mod h i
  rw [Nat.ModEq, Nat.mod_eq_of_lt (hle.trans_lt hlen)] at hmod
  exact hmod

variable [Inhabited T] {l : Layout} {offset : ℕ} {n : UInt32} {pass1 pass2 : List (UInt32 × T)}

structure Congruent (l : Layout) (offset : ℕ) (n : UInt32) (pass1 pass2 : List (UInt32 × T)) :
    Prop where
  bound : ∀ p ∈ pass1, p.1 < n
  counts : ∀ b, received pass1 b ≡ received pass2 b [MOD 2 ^ 32]
  room : Room l offset n pass2.length

theorem nest_returns (h : offset ≤ SIZE) (hc : Congruent l offset n pass1 pass2) :
    ∃ r, nest l offset n pass1 pass2 = some r := by
  obtain ⟨counts, hcounts⟩ := tally_returns hc.bound
  have hoffsets := (tally_some hcounts).2
  have hbound := bound_of_mod hc.bound hc.counts hc.room.counted
  have hstarts : (accumulate 0 counts).map UInt32.toNat = starts n pass2 := by
    rw [hoffsets, offsets_mod hc.counts hc.room.counted]
  have htotal := starts_total hbound hstarts
  have hkept : collect word (n.toNat + 1) offset = some (keptEnd offset n) :=
    (collect_some h).mpr ⟨rfl, hc.room.kept⟩
  have htop : collect l pass2.length (keptEnd offset n) = some (dataEnd l offset n pass2.length) :=
    (collect_some hc.room.kept).mpr ⟨rfl, hc.room.data⟩
  have hcursors := (collect_some (l := word) hc.room.data).mpr ⟨rfl, hc.room.cursors⟩
  obtain ⟨cursors, data, hplace, -, hends, -⟩ := place_starts hbound hstarts
  refine ⟨⟨accumulate 0 counts, data, dataEnd l offset n pass2.length⟩, ?_⟩
  simp only [nest, Option.bind_eq_bind, Option.bind_eq_some_iff]
  refine ⟨_, hkept, counts, hcounts, _, htotal ▸ htop, _, hcursors, (cursors, data),
    by rwa [htotal], ?_⟩
  exact if_pos (by simpa using hends)

theorem nest_some (h : offset ≤ SIZE) {r : Built T} (hr : nest l offset n pass1 pass2 = some r) :
    Congruent l offset n pass1 pass2 ∧ r.Exact l offset n pass2 := by
  simp only [nest, Option.bind_eq_bind, Option.bind_eq_some_iff] at hr
  obtain ⟨kept, hkept, counts, hcounts, top, htop, scratch, hscratch, ⟨cursors, data⟩, hplace, hr⟩ :=
    hr
  obtain ⟨hbound1, hoffsets⟩ := tally_some hcounts
  split at hr
  · rename_i hends
    obtain rfl := Option.some.inj hr
    have hlen : (accumulate 0 counts).length = n.toNat + 1 := by rw [hoffsets]; simp
    have hzero : (accumulate 0 counts)[0]? = some 0 := by rw [hoffsets]; simp [Nest.start]
    have hends' : ∀ i < n.toNat, cursors[i]? = (accumulate 0 counts)[i + 1]? := by
      simpa using hends
    have hstarts := starts_of_placed hlen hzero hplace hends'
    have hbound2 : ∀ p ∈ pass2, p.1 < n := fun p hp => by
      have := (place_some hplace).1 p hp
      rw [hlen] at this
      exact UInt32.lt_iff_toNat_lt.mpr (by omega)
    have htotal := starts_total hbound2 hstarts
    rw [htotal] at htop hplace
    obtain ⟨hk, hkept⟩ := (collect_some h).mp hkept
    obtain rfl : kept = keptEnd offset n := hk
    obtain ⟨ht, htop⟩ := (collect_some hkept).mp htop
    obtain rfl : top = dataEnd l offset n pass2.length := ht
    obtain ⟨hs, hscratch⟩ := (collect_some htop).mp hscratch
    obtain ⟨cursors', data', hplace', hdata, -, hplaced⟩ := place_starts hbound2 hstarts
    obtain ⟨rfl, rfl⟩ := Prod.mk.inj (Option.some.inj (hplace'.symm.trans hplace))
    have hcounted : pass2.length < 2 ^ 32 := by
      rw [← htotal]
      exact UInt32.toNat_lt _
    refine ⟨⟨hbound1, received_mod hbound1 hbound2 fun i hi => ?_, hcounted, hkept, htop, ?_⟩,
      exact_of_starts hbound2 hstarts hdata hplaced rfl⟩
    · obtain ⟨x, hx, hstart⟩ := starts_getElem? hstarts hi
      rw [hoffsets, List.getElem?_map, List.getElem?_range (by omega)] at hx
      obtain rfl := Option.some.inj hx
      rw [← hstart]
      exact (Nat.mod_modEq _ _).symm
    · rw [hs] at hscratch
      exact hscratch
  · cases hr

def Specified (l : Layout) (offset : ℕ) (n : UInt32) (pass1 pass2 : List (UInt32 × T)) : Prop :=
  (pass1 = pass2 → (∀ p ∈ pass1, p.1 < n) →
    (Room l offset n pass1.length → ∃ r, nest l offset n pass1 pass2 = some r) ∧
      ∀ r, nest l offset n pass1 pass2 = some r → r.Exact l offset n pass1) ∧
  ((∃ b, received pass1 b ≠ received pass2 b) ∨ (∃ p ∈ pass1, n ≤ p.1) →
    nest l offset n pass1 pass2 = none)

theorem nest_specified_iff (h : offset ≤ SIZE) : Specified l offset n pass1 pass2 ↔
    ¬ ((∃ b, received pass1 b ≠ received pass2 b) ∧ Congruent l offset n pass1 pass2) := by
  constructor
  · rintro ⟨-, hpanics⟩ ⟨hdiffer, hcongruent⟩
    obtain ⟨r, hr⟩ := nest_returns h hcongruent
    rw [hpanics (.inl hdiffer)] at hr
    cases hr
  · intro hn
    refine ⟨fun heq hbound => ⟨fun hroom => ?_, fun r hr => ?_⟩, fun hbad => ?_⟩
    · subst heq
      exact nest_returns h ⟨hbound, fun _ => rfl, hroom⟩
    · subst heq
      exact (nest_some h hr).2
    · rw [Option.eq_none_iff_forall_ne_some]
      intro r hr
      have hcongruent := (nest_some h hr).1
      rcases hbad with hdiffer | ⟨p, hp, hout⟩
      · exact hn ⟨hdiffer, hcongruent⟩
      · exact absurd (hcongruent.bound p hp) (UInt32.not_lt.mpr hout)

theorem nest_specified_iff_pair :
    Specified byte 3 2 [(1, (7 : UInt8)), (0, 5)] [(1, 7), (0, 5)] := by
  refine (nest_specified_iff (by decide)).mpr ?_
  rintro ⟨⟨b, hb⟩, -⟩
  exact hb rfl

theorem nest_unspecified : ¬ Specified byte 0 1
    (List.replicate (2 ^ 32) ((0 : UInt32), (7 : UInt8))) [] := by
  rintro ⟨-, hpanics⟩
  have hdiffer : received (List.replicate (2 ^ 32) ((0 : UInt32), (7 : UInt8))) 0 ≠
      received ([] : List (UInt32 × UInt8)) 0 := by
    rw [received_replicate]
    decide
  have hcongruent : Congruent byte 0 1
      (List.replicate (2 ^ 32) ((0 : UInt32), (7 : UInt8))) [] := by
    refine ⟨fun p hp => ?_, fun b => ?_, ⟨by decide, by decide, by decide, by decide⟩⟩
    · rw [List.eq_of_mem_replicate hp]
      decide
    · rw [received_replicate]
      split
      · exact Nat.mod_self _
      · rfl
  obtain ⟨r, hr⟩ := nest_returns (Nat.zero_le _) hcongruent
  rw [hpanics (.inl ⟨0, hdiffer⟩)] at hr
  cases hr

end Ltop.Arena.TwoPass
