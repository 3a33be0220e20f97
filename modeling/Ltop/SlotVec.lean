import Mathlib
import Ltop.Vec
import Ltop.Library.Outcome

namespace Ltop

structure SlotVec (T : Type) where
  cells : List (Option (T × ℕ))
  len : ℕ
  dropped : List ℕ
  taken : List ℕ
  fresh : ℕ

inductive Verdict where
  | accept
  | reject
  | unwind

def Verdict.accepts : Verdict → Bool
  | .accept => true
  | _ => false

structure Pass (S T : Type) where
  slots : SlotVec T
  s : S
  w : ℕ
  calls : List (ℕ × T)
  unwound : Bool

namespace SlotVec

variable {S T : Type}

def new (capacity : ℕ) : SlotVec T := ⟨List.replicate capacity none, 0, [], [], 0⟩

def read (v : SlotVec T) (i : ℕ) : Outcome (T × ℕ) :=
  match v.cells[i]? with
  | some (some c) => .some c
  | _ => .fault .index

def write (v : SlotVec T) (i : ℕ) (c : T × ℕ) : Outcome (SlotVec T) :=
  if i < v.cells.length then .some { v with cells := v.cells.set i (some c) } else .fault .index

def dropInPlace (v : SlotVec T) (i : ℕ) : Outcome (SlotVec T) := do
  let c ← v.read i
  return { v with dropped := v.dropped ++ [c.2] }

def push (v : SlotVec T) (value : T) : Outcome (SlotVec T) :=
  if v.len ≥ v.cells.length then .some { v with taken := v.taken ++ [v.fresh], fresh := v.fresh + 1 }
  else do
    let v' ← v.write v.len (value, v.fresh)
    return { v' with len := v.len + 1, fresh := v.fresh + 1 }

def pop (v : SlotVec T) : Outcome (SlotVec T) :=
  if v.len = 0 then .some v
  else do
    let c ← v.read (v.len - 1)
    return { v with len := v.len - 1, taken := v.taken ++ [c.2] }

def truncateLoop (newLen : ℕ) : ℕ → SlotVec T → Outcome (SlotVec T)
  | 0, v => if v.len > newLen then .fault .spin else .some v
  | fuel + 1, v =>
    if v.len > newLen then do
      truncateLoop newLen fuel (← { v with len := v.len - 1 }.dropInPlace (v.len - 1))
    else .some v

def truncate (v : SlotVec T) (newLen : ℕ) : Outcome (SlotVec T) := truncateLoop newLen v.len v

def clear (v : SlotVec T) : Outcome (SlotVec T) := v.truncate 0

def moveDown (v : SlotVec T) (w r : ℕ) : Outcome (SlotVec T) :=
  if w ≠ r then do v.write w (← v.read r) else .some v

def retainLoop (keep : S → T → S × T × Verdict) : ℕ → ℕ → Pass S T → Outcome (Pass S T)
  | 0, _, p => .some p
  | n + 1, r, p => do
    let c ← p.slots.read r
    match keep p.s c.1 with
    | (s, x, verdict) => do
      let v ← p.slots.write r (x, c.2)
      let calls := p.calls ++ [(r, c.1)]
      match verdict with
      | .unwind => return ⟨v, s, p.w, calls, true⟩
      | .accept => do retainLoop keep n (r + 1) ⟨← v.moveDown p.w r, s, p.w + 1, calls, false⟩
      | .reject => do retainLoop keep n (r + 1) ⟨← v.dropInPlace r, s, p.w, calls, false⟩

def retainInPlace (v : SlotVec T) (keep : S → T → S × T × Verdict) (s : S) : Outcome (Pass S T) := do
  let p ← retainLoop keep v.len 0 ⟨{ v with len := 0 }, s, 0, [], false⟩
  return if p.unwound then p else { p with slots := { p.slots with len := p.w } }

def live (v : SlotVec T) : List (T × ℕ) := (v.cells.take v.len).filterMap id

def ids (cs : List (T × ℕ)) : List ℕ := cs.map (·.2)

def owned (v : SlotVec T) : List ℕ := ids v.live ++ v.dropped ++ v.taken

structure Sound (v : SlotVec T) : Prop where
  filled : v.cells.take v.len = v.live.map some
  fits : v.len ≤ v.cells.length
  once : v.owned.Nodup
  old : ∀ i ∈ v.owned, i < v.fresh

inductive Op (T : Type) : Type 1 where
  | push (value : T)
  | pop
  | truncate (newLen : ℕ)
  | clear
  | retain {S : Type} (keep : S → T → S × T × Verdict) (s : S)

def exec (v : SlotVec T) : Op T → Outcome (SlotVec T)
  | .push value => v.push value
  | .pop => v.pop
  | .truncate newLen => v.truncate newLen
  | .clear => v.clear
  | .retain keep s => do return (← v.retainInPlace keep s).slots

def run (v : SlotVec T) : List (Op T) → Outcome (SlotVec T)
  | [] => v.clear
  | op :: ops => do (← v.exec op).run ops

structure Swept (S T : Type) where
  s : S
  kept : List (T × ℕ)
  rejected : List ℕ
  calls : List (ℕ × T)
  unwound : Bool

def sweep (keep : S → T → S × T × Verdict) : ℕ → S → List (T × ℕ) → Swept S T
  | _, s, [] => ⟨s, [], [], [], false⟩
  | r, s, (x, i) :: cs => match keep s x with
    | (s', _, .unwind) => ⟨s', [], [], [(r, x)], true⟩
    | (s', x', .accept) =>
      let t := sweep keep (r + 1) s' cs
      { t with kept := (x', i) :: t.kept, calls := (r, x) :: t.calls }
    | (s', _, .reject) =>
      let t := sweep keep (r + 1) s' cs
      { t with rejected := i :: t.rejected, calls := (r, x) :: t.calls }

@[simp] theorem ids_nil : ids ([] : List (T × ℕ)) = [] := rfl

@[simp] theorem ids_cons (c : T × ℕ) (cs : List (T × ℕ)) : ids (c :: cs) = c.2 :: ids cs := rfl

@[simp] theorem ids_append (bs cs : List (T × ℕ)) : ids (bs ++ cs) = ids bs ++ ids cs :=
  List.map_append

theorem read_at {v : SlotVec T} {a b : List (Option (T × ℕ))} {c : T × ℕ}
    (h : v.cells = a ++ some c :: b) : v.read a.length = .some c := by
  simp [read, h]

theorem write_at {v : SlotVec T} {a b : List (Option (T × ℕ))} {o : Option (T × ℕ)}
    (h : v.cells = a ++ o :: b) (c : T × ℕ) :
    v.write a.length c = .some { v with cells := a ++ some c :: b } := by
  simp [write, h]

theorem moveDown_some {v : SlotVec T} {kept : List (T × ℕ)} {junk rest : List (Option (T × ℕ))}
    {c : T × ℕ} {r : ℕ} (hc : v.cells = kept.map some ++ junk ++ some c :: rest)
    (hr : r = kept.length + junk.length) :
    ∃ junk', junk'.length = junk.length ∧
      v.moveDown kept.length r =
        .some { v with cells := (kept ++ [c]).map some ++ (junk' ++ rest) } := by
  have hread : v.read r = .some c := by
    have hlen : r = (kept.map some ++ junk).length := by simpa using hr
    exact hlen ▸ read_at hc
  cases junk with
  | nil =>
    obtain rfl : r = kept.length := hr
    have hcells : v.cells = (kept ++ [c]).map some ++ ([] ++ rest) := by simpa using hc
    exact ⟨[], rfl, by rw [moveDown, if_neg (not_not.mpr rfl), ← hcells]⟩
  | cons o junk =>
    have hne : kept.length ≠ r := by
      rw [List.length_cons] at hr
      omega
    have hcells : v.cells = kept.map some ++ o :: (junk ++ some c :: rest) := by simpa using hc
    have hwrite := write_at hcells c
    rw [List.length_map] at hwrite
    refine ⟨junk ++ [some c], by simp, ?_⟩
    rw [moveDown, if_pos hne, hread, Outcome.some_bind, hwrite]
    simp

structure Scanning (p : Pass S T) (kept rest : List (T × ℕ)) (tail : List (Option (T × ℕ)))
    (r : ℕ) : Prop where
  cells : ∃ junk, r = kept.length + junk.length ∧
    p.slots.cells = kept.map some ++ junk ++ (rest.map some ++ tail)
  kept : p.w = kept.length
  running : p.unwound = false

variable {keep : S → T → S × T × Verdict} {p : Pass S T} {kept rest : List (T × ℕ)}
  {tail : List (Option (T × ℕ))} {s' : S} {x x' : T} {i r : ℕ}

theorem Scanning.load (h : Scanning p kept ((x, i) :: rest) tail r) (x' : T) :
    p.slots.read r = .some (x, i) ∧ ∃ junk, r = kept.length + junk.length ∧
      p.slots.write r (x', i) = .some { p.slots with
        cells := kept.map some ++ junk ++ some (x', i) :: (rest.map some ++ tail) } := by
  obtain ⟨junk, hr, hcells⟩ := h.cells
  have hlen : r = (kept.map some ++ junk).length := by simpa using hr
  exact ⟨hlen ▸ read_at hcells, junk, hr, hlen ▸ write_at hcells (x', i)⟩

theorem Scanning.accept (h : Scanning p kept ((x, i) :: rest) tail r)
    (hk : keep p.s x = (s', x', .accept)) (n : ℕ) :
    ∃ p', retainLoop keep (n + 1) r p = retainLoop keep n (r + 1) p' ∧
      Scanning p' (kept ++ [(x', i)]) rest tail (r + 1) ∧
      p' = { p with
        slots := { p.slots with cells := p'.slots.cells }, s := s', w := p'.w,
        calls := p.calls ++ [(r, x)] } := by
  obtain ⟨hread, junk, hr, hwrite⟩ := h.load x'
  obtain ⟨junk', hjunk, hmove⟩ := moveDown_some (v := { p.slots with
    cells := kept.map some ++ junk ++ some (x', i) :: (rest.map some ++ tail) }) rfl hr
  refine ⟨⟨{ p.slots with cells := (kept ++ [(x', i)]).map some ++ (junk' ++ (rest.map some ++ tail)) },
    s', kept.length + 1, p.calls ++ [(r, x)], false⟩, ?_, ⟨⟨junk', ?_, ?_⟩, ?_, rfl⟩, ?_⟩
  · rw [retainLoop]
    simp only [hread, hk, hwrite, h.kept, hmove, Outcome.some_bind]
  · simp
    omega
  · simp
  · simp
  · rw [h.running]

theorem Scanning.reject (h : Scanning p kept ((x, i) :: rest) tail r)
    (hk : keep p.s x = (s', x', .reject)) (n : ℕ) :
    ∃ p', retainLoop keep (n + 1) r p = retainLoop keep n (r + 1) p' ∧
      Scanning p' kept rest tail (r + 1) ∧
      p' = { p with
        slots := { p.slots with cells := p'.slots.cells, dropped := p.slots.dropped ++ [i] },
        s := s', w := p'.w, calls := p.calls ++ [(r, x)] } := by
  obtain ⟨hread, junk, hr, hwrite⟩ := h.load x'
  have hlen : r = (kept.map some ++ junk).length := by simpa using hr
  have hdrop : dropInPlace { p.slots with
      cells := kept.map some ++ junk ++ some (x', i) :: (rest.map some ++ tail) } r =
      .some { p.slots with
        cells := kept.map some ++ junk ++ some (x', i) :: (rest.map some ++ tail),
        dropped := p.slots.dropped ++ [i] } := by
    rw [dropInPlace, hlen, read_at rfl]
    rfl
  refine ⟨⟨{ p.slots with
      cells := kept.map some ++ junk ++ some (x', i) :: (rest.map some ++ tail),
      dropped := p.slots.dropped ++ [i] },
    s', kept.length, p.calls ++ [(r, x)], false⟩, ?_, ⟨⟨junk ++ [some (x', i)], ?_, ?_⟩, rfl, rfl⟩,
    ?_⟩
  · rw [retainLoop]
    simp only [hread, hk, hwrite, h.kept, hdrop, Outcome.some_bind]
  · simp
    omega
  · simp
  · rw [h.running]

theorem Scanning.unwind (h : Scanning p kept ((x, i) :: rest) tail r)
    (hk : keep p.s x = (s', x', .unwind)) (n : ℕ) :
    ∃ cells, retainLoop keep (n + 1) r p = .some
        ⟨{ p.slots with cells := cells }, s', p.w, p.calls ++ [(r, x)], true⟩ := by
  obtain ⟨hread, junk, -, hwrite⟩ := h.load x'
  refine ⟨kept.map some ++ junk ++ some (x', i) :: (rest.map some ++ tail), ?_⟩
  rw [retainLoop]
  simp only [hread, hk, hwrite, Outcome.some_bind, Outcome.pure_eq]

variable (keep) in
theorem retainLoop_sweep (h : Scanning p kept rest tail r) :
    ∃ cells w, retainLoop keep rest.length r p = .some
        ⟨{ p.slots with
            cells := cells, dropped := p.slots.dropped ++ (sweep keep r p.s rest).rejected },
          (sweep keep r p.s rest).s, w, p.calls ++ (sweep keep r p.s rest).calls,
          (sweep keep r p.s rest).unwound⟩ ∧
      ((sweep keep r p.s rest).unwound = false →
        w = (kept ++ (sweep keep r p.s rest).kept).length ∧
          cells.take w = (kept ++ (sweep keep r p.s rest).kept).map some) := by
  induction rest generalizing kept p r with
  | nil =>
    obtain ⟨junk, -, hcells⟩ := h.cells
    refine ⟨p.slots.cells, p.w, ?_, fun _ => ⟨by simp [sweep, h.kept], ?_⟩⟩
    · simp [retainLoop, sweep, ← h.running]
    · simp [sweep, h.kept, hcells]
  | cons c rest ih =>
    obtain ⟨x, i⟩ := c
    rw [List.length_cons]
    rcases hk : keep p.s x with ⟨s', x', verdict⟩
    cases verdict with
    | unwind =>
      obtain ⟨cells, hrun⟩ := h.unwind hk rest.length
      exact ⟨cells, p.w, by simp [sweep, hk, hrun], by simp [sweep, hk]⟩
    | accept =>
      obtain ⟨p', hrun, hscan, hp'⟩ := h.accept hk rest.length
      obtain ⟨cells, w, hrest, hdone⟩ := ih hscan
      rw [hp'] at hrest hdone
      refine ⟨cells, w, ?_, by simpa [sweep, hk] using hdone⟩
      rw [hrun, hp', hrest]
      simp [sweep, hk]
    | reject =>
      obtain ⟨p', hrun, hscan, hp'⟩ := h.reject hk rest.length
      obtain ⟨cells, w, hrest, hdone⟩ := ih hscan
      rw [hp'] at hrest hdone
      refine ⟨cells, w, ?_, by simpa [sweep, hk] using hdone⟩
      rw [hrun, hp', hrest]
      simp [sweep, hk]

theorem sweep_custody (keep : S → T → S × T × Verdict) (r : ℕ) (s : S) (cs : List (T × ℕ)) :
    ∃ lost,
      (ids (sweep keep r s cs).kept ++ (sweep keep r s cs).rejected ++ lost).Perm (ids cs) := by
  induction cs generalizing r s with
  | nil => exact ⟨[], by simp [sweep]⟩
  | cons c cs ih =>
    obtain ⟨x, i⟩ := c
    rcases hk : keep s x with ⟨s', x', verdict⟩
    obtain ⟨lost, hp⟩ := ih (r + 1) s'
    cases verdict with
    | unwind => exact ⟨ids ((x, i) :: cs), by simp [sweep, hk]⟩
    | accept => exact ⟨lost, by simpa [sweep, hk] using hp⟩
    | reject =>
      refine ⟨lost, ?_⟩
      simp only [sweep, hk, ids_cons, List.append_assoc, List.cons_append]
      exact List.perm_middle.trans (.cons i (by simpa using hp))

theorem sweep_calls (keep : S → T → S × T × Verdict) (r : ℕ) (s : S) (cs : List (T × ℕ)) :
    (sweep keep r s cs).calls <+: (cs.zipIdx r).map (fun c => (c.2, c.1.1)) ∧
      ((sweep keep r s cs).unwound = false → (sweep keep r s cs).calls.length = cs.length) := by
  induction cs generalizing r s with
  | nil => simp [sweep]
  | cons c cs ih =>
    obtain ⟨x, i⟩ := c
    rcases hk : keep s x with ⟨s', x', verdict⟩
    obtain ⟨hinit, hlength⟩ := ih (r + 1) s'
    cases verdict with
    | unwind => simp [sweep, hk]
    | accept =>
      refine ⟨by simpa [sweep, hk] using hinit, fun hu => ?_⟩
      simpa [sweep, hk] using hlength (by simpa [sweep, hk] using hu)
    | reject =>
      refine ⟨by simpa [sweep, hk] using hinit, fun hu => ?_⟩
      simpa [sweep, hk] using hlength (by simpa [sweep, hk] using hu)

theorem sweep_rejected {keep : S → T → S × T × Verdict} {r : ℕ} {s : S} {cs : List (T × ℕ)}
    (hn : (ids cs).Nodup) (h : (sweep keep r s cs).unwound = false) :
    (sweep keep r s cs).rejected = (ids cs).filter (· ∉ ids (sweep keep r s cs).kept) := by
  induction cs generalizing r s with
  | nil => rfl
  | cons c cs ih =>
    obtain ⟨x, i⟩ := c
    obtain ⟨hi, hn⟩ := List.nodup_cons.mp hn
    rcases hk : keep s x with ⟨s', x', verdict⟩
    obtain ⟨lost, hp⟩ := sweep_custody keep (r + 1) s' cs
    cases verdict with
    | unwind => simp [sweep, hk] at h
    | accept =>
      have hrest := ih (r := r + 1) (s := s') hn (by simpa [sweep, hk] using h)
      have hother : ∀ j ∈ ids cs, j ≠ i := fun j hj hji => hi (hji ▸ hj)
      simp only [sweep, hk, ids_cons]
      rw [List.filter_cons_of_neg (by simp), hrest]
      exact List.filter_congr fun j hj => by simp [hother j hj]
    | reject =>
      have hrest := ih (r := r + 1) (s := s') hn (by simpa [sweep, hk] using h)
      have hout : i ∉ ids (sweep keep (r + 1) s' cs).kept := fun hm =>
        hi (hp.subset (by simp [hm]))
      simp only [sweep, hk, ids_cons]
      rw [List.filter_cons_of_pos (by simpa using hout), hrest]

theorem sweep_completes {keep : S → T → S × T × Verdict}
    (h : ∀ s x, (keep s x).2.2 ≠ .unwind) (r : ℕ) (s : S) (cs : List (T × ℕ)) :
    (sweep keep r s cs).unwound = false := by
  induction cs generalizing r s with
  | nil => rfl
  | cons c cs ih =>
    obtain ⟨x, i⟩ := c
    have hx := h s x
    rcases hk : keep s x with ⟨s', x', verdict⟩
    rw [hk] at hx
    cases verdict with
    | unwind => exact absurd rfl hx
    | accept => simpa [sweep, hk] using ih (r + 1) s'
    | reject => simpa [sweep, hk] using ih (r + 1) s'

def tagged (keep : S → T → S × T × Verdict) (s : S) (c : T × ℕ) : S × (T × ℕ) × Bool :=
  match keep s c.1 with
  | (s', x, verdict) => (s', (x, c.2), verdict.accepts)

theorem sweep_retain {keep : S → T → S × T × Verdict} {r : ℕ} {s : S} {cs : List (T × ℕ)}
    (h : (sweep keep r s cs).unwound = false) :
    FVec.retain (tagged keep) s cs = ((sweep keep r s cs).s, (sweep keep r s cs).kept) := by
  induction cs generalizing r s with
  | nil => rfl
  | cons c cs ih =>
    obtain ⟨x, i⟩ := c
    rcases hk : keep s x with ⟨s', x', verdict⟩
    cases verdict with
    | unwind => simp [sweep, hk] at h
    | accept =>
      have hrest := ih (r := r + 1) (s := s') (by simpa [sweep, hk] using h)
      simp [FVec.retain, tagged, Verdict.accepts, sweep, hk, hrest]
    | reject =>
      have hrest := ih (r := r + 1) (s := s') (by simpa [sweep, hk] using h)
      simp [FVec.retain, tagged, Verdict.accepts, sweep, hk, hrest]

theorem sound_of_cells {v : SlotVec T} (es : List (T × ℕ)) (hl : v.len = es.length)
    (hc : v.cells.take es.length = es.map some) (hn : (ids es ++ v.dropped ++ v.taken).Nodup)
    (ho : ∀ i ∈ ids es ++ v.dropped ++ v.taken, i < v.fresh) : v.Sound ∧ v.live = es := by
  have hlive : v.live = es := by simp [live, hl, hc]
  refine ⟨⟨?_, ?_, ?_, ?_⟩, hlive⟩
  · rw [hl, hc, hlive]
  · have hlen := congrArg List.length hc
    simp only [List.length_take, List.length_map] at hlen
    omega
  · simpa [owned, hlive] using hn
  · simpa only [owned, hlive] using ho

theorem Sound.live_length {v : SlotVec T} (h : v.Sound) : v.live.length = v.len := by
  have hlen := congrArg List.length h.filled
  simp only [List.length_take, List.length_map] at hlen
  have := h.fits
  omega

theorem owned_perm {v : SlotVec T} {kept : List (T × ℕ)} {rejected lost : List ℕ}
    (h : (ids kept ++ rejected ++ lost).Perm (ids v.live)) :
    (ids kept ++ (v.dropped ++ rejected) ++ v.taken ++ lost).Perm v.owned := by
  rw [List.perm_iff_count] at h ⊢
  intro i
  have hi := h i
  simp only [owned, List.count_append] at hi ⊢
  omega

theorem retainInPlace_sweep {v : SlotVec T} (h : v.Sound) (keep : S → T → S × T × Verdict)
    (s : S) : ∃ out, v.retainInPlace keep s = .some out ∧ out.s = (sweep keep 0 s v.live).s ∧
      out.calls = (sweep keep 0 s v.live).calls ∧ out.unwound = (sweep keep 0 s v.live).unwound ∧
      out.slots.dropped = v.dropped ++ (sweep keep 0 s v.live).rejected ∧
      out.slots.live = (if out.unwound then [] else (sweep keep 0 s v.live).kept) ∧
      out.slots.Sound := by
  obtain ⟨lost, hperm⟩ := sweep_custody keep 0 s v.live
  have hcells : v.cells = v.live.map some ++ v.cells.drop v.len := by
    rw [← h.filled, List.take_append_drop]
  have hscan : Scanning ⟨{ v with len := 0 }, s, 0, [], false⟩ [] v.live (v.cells.drop v.len) 0 :=
    ⟨⟨[], rfl, hcells⟩, rfl, rfl⟩
  obtain ⟨cells, w, hrun, hdone⟩ := retainLoop_sweep keep hscan
  rw [h.live_length] at hrun
  have hperm' := owned_perm hperm
  have hsub : (ids (sweep keep 0 s v.live).kept ++ (v.dropped ++ (sweep keep 0 s v.live).rejected) ++
      v.taken).Sublist _ := List.sublist_append_left _ lost
  have hn := hsub.nodup (hperm'.nodup_iff.mpr h.once)
  have ho := fun i hi => h.old i (hperm'.mem_iff.mp (hsub.subset hi))
  rw [retainInPlace, hrun, Outcome.some_bind]
  cases hu : (sweep keep 0 s v.live).unwound with
  | false =>
    obtain ⟨hw, htake⟩ := hdone hu
    obtain ⟨hsound, hlive⟩ := sound_of_cells _ (v := { v with
      cells := cells, len := w, dropped := v.dropped ++ (sweep keep 0 s v.live).rejected })
      hw (hw ▸ htake) hn ho
    exact ⟨_, rfl, rfl, rfl, rfl, rfl, hlive, hsound⟩
  | true =>
    have hrest : (v.dropped ++ (sweep keep 0 s v.live).rejected ++ v.taken).Sublist
        (ids (sweep keep 0 s v.live).kept ++ (v.dropped ++ (sweep keep 0 s v.live).rejected) ++
          v.taken) := by
      rw [List.append_assoc (ids _)]
      exact List.sublist_append_right _ _
    obtain ⟨hsound, hlive⟩ := sound_of_cells [] (v := { v with
      cells := cells, len := 0, dropped := v.dropped ++ (sweep keep 0 s v.live).rejected })
      rfl rfl (hrest.nodup hn) (fun i hi => ho i (hrest.subset hi))
    exact ⟨_, rfl, rfl, rfl, rfl, rfl, hlive, hsound⟩

def Follows (v v' : SlotVec T) : Prop := v'.Sound ∧ v.dropped <+: v'.dropped

theorem new_sound (capacity : ℕ) : (new capacity : SlotVec T).Sound :=
  (sound_of_cells (v := new capacity) [] rfl rfl .nil (by simp [new])).1

theorem push_follows {v : SlotVec T} (h : v.Sound) (value : T) :
    ∃ v', v.push value = .some v' ∧ v.Follows v' := by
  have hfresh : v.fresh ∉ v.owned := fun hm => Nat.lt_irrefl _ (h.old _ hm)
  have hn : (v.fresh :: v.owned).Nodup := List.nodup_cons.mpr ⟨hfresh, h.once⟩
  have ho : ∀ i ∈ v.fresh :: v.owned, i < v.fresh + 1 := by
    intro i hi
    rcases List.mem_cons.mp hi with rfl | hi
    · exact Nat.lt_succ_self _
    · exact (h.old i hi).trans (Nat.lt_succ_self _)
  rw [push]
  by_cases hfull : v.len ≥ v.cells.length
  · have hperm : (ids v.live ++ v.dropped ++ (v.taken ++ [v.fresh])).Perm (v.fresh :: v.owned) := by
      rw [← List.append_assoc]
      exact List.perm_append_singleton _ _
    obtain ⟨hsound, -⟩ := sound_of_cells v.live (v := { v with
      taken := v.taken ++ [v.fresh], fresh := v.fresh + 1 }) h.live_length.symm
      (h.live_length ▸ h.filled) (hperm.nodup_iff.mpr hn) (fun i hi => ho i (hperm.mem_iff.mp hi))
    exact ⟨_, if_pos hfull, hsound, List.prefix_rfl⟩
  · have hperm : (ids (v.live ++ [(value, v.fresh)]) ++ v.dropped ++ v.taken).Perm
        (v.fresh :: v.owned) := by
      simp only [owned, ids_append, ids_cons, ids_nil, List.append_assoc]
      exact List.perm_middle
    have hlen : v.len < v.cells.length := by omega
    have hwrite : v.write v.len (value, v.fresh) = .some { v with
        cells := v.cells.set v.len (some (value, v.fresh)) } := if_pos hlen
    have htake : (v.cells.set v.len (some (value, v.fresh))).take
        (v.live ++ [(value, v.fresh)]).length = (v.live ++ [(value, v.fresh)]).map some := by
      rw [List.length_append, h.live_length, List.length_singleton,
        List.take_succ_eq_append_getElem (by simpa using hlen), List.take_set_of_le le_rfl,
        h.filled]
      simp
    obtain ⟨hsound, -⟩ := sound_of_cells (v.live ++ [(value, v.fresh)]) (v := { v with
      cells := v.cells.set v.len (some (value, v.fresh)), len := v.len + 1,
      fresh := v.fresh + 1 }) (by simp [h.live_length]) htake (hperm.nodup_iff.mpr hn)
      (fun i hi => ho i (hperm.mem_iff.mp hi))
    refine ⟨_, ?_, hsound, List.prefix_rfl⟩
    rw [if_neg hfull, hwrite]
    rfl

theorem last_live {v : SlotVec T} (h : v.Sound) (hl : v.len ≠ 0) :
    ∃ es c, v.live = es ++ [c] ∧ v.len - 1 = es.length ∧ v.read (v.len - 1) = .some c ∧
      v.cells.take es.length = es.map some := by
  have hlen := h.live_length
  rcases List.eq_nil_or_concat v.live with hnil | ⟨es, c, hes⟩
  · rw [hnil] at hlen
    exact absurd hlen.symm hl
  · rw [List.concat_eq_append] at hes
    have hes' : v.len - 1 = es.length := by
      rw [← hlen, hes]
      simp
    have hcells : v.cells = es.map some ++ some c :: v.cells.drop v.len := by
      conv_lhs => rw [← List.take_append_drop v.len v.cells, h.filled, hes]
      simp
    have hread := read_at hcells
    rw [List.length_map] at hread
    refine ⟨es, c, hes, hes', hes' ▸ hread, ?_⟩
    rw [hcells]
    simp

theorem pop_follows {v : SlotVec T} (h : v.Sound) : ∃ v', v.pop = .some v' ∧ v.Follows v' := by
  by_cases hl : v.len = 0
  · exact ⟨v, if_pos hl, h, List.prefix_rfl⟩
  · obtain ⟨es, c, hlive, hes, hread, htake⟩ := last_live h hl
    have hperm : (ids es ++ v.dropped ++ (v.taken ++ [c.2])).Perm v.owned := by
      rw [List.perm_iff_count]
      intro i
      simp only [owned, hlive, ids_append, ids_cons, ids_nil, List.count_append]
      omega
    obtain ⟨hsound, -⟩ := sound_of_cells es (v := { v with
      len := v.len - 1, taken := v.taken ++ [c.2] }) hes htake (hperm.nodup_iff.mpr h.once)
      (fun i hi => h.old i (hperm.mem_iff.mp hi))
    refine ⟨_, ?_, hsound, List.prefix_rfl⟩
    rw [pop, if_neg hl, hread]
    rfl

theorem drop_last_follows {v : SlotVec T} (h : v.Sound) (hl : v.len ≠ 0) :
    ∃ v', { v with len := v.len - 1 }.dropInPlace (v.len - 1) = .some v' ∧ v.Follows v' ∧
      v'.len = v.len - 1 := by
  obtain ⟨es, c, hlive, hes, hread, htake⟩ := last_live h hl
  have hperm : (ids es ++ (v.dropped ++ [c.2]) ++ v.taken).Perm v.owned := by
    rw [List.perm_iff_count]
    intro i
    simp only [owned, hlive, ids_append, ids_cons, ids_nil, List.count_append]
    omega
  obtain ⟨hsound, -⟩ := sound_of_cells es (v := { v with
    len := v.len - 1, dropped := v.dropped ++ [c.2] }) hes htake (hperm.nodup_iff.mpr h.once)
    (fun i hi => h.old i (hperm.mem_iff.mp hi))
  have hread' : read { v with len := v.len - 1 } (v.len - 1) = .some c := hread
  refine ⟨_, ?_, ⟨hsound, List.prefix_append _ _⟩, rfl⟩
  rw [dropInPlace, hread']
  rfl

theorem truncateLoop_follows {v : SlotVec T} (h : v.Sound) (newLen fuel : ℕ) (hf : v.len ≤ fuel) :
    ∃ v', truncateLoop newLen fuel v = .some v' ∧ v.Follows v' := by
  induction fuel generalizing v with
  | zero => exact ⟨v, if_neg (by omega), h, List.prefix_rfl⟩
  | succ fuel ih =>
    rw [truncateLoop]
    by_cases hl : v.len > newLen
    · obtain ⟨v₁, hdrop, hstep, hlen⟩ := drop_last_follows h (by omega)
      obtain ⟨v₂, hrun, hrest⟩ := ih hstep.1 (by omega)
      refine ⟨v₂, ?_, hrest.1, hstep.2.trans hrest.2⟩
      rw [if_pos hl, hdrop]
      exact hrun
    · exact ⟨v, if_neg hl, h, List.prefix_rfl⟩

theorem exec_follows {v : SlotVec T} (h : v.Sound) (op : Op T) :
    ∃ v', v.exec op = .some v' ∧ v.Follows v' := by
  cases op with
  | push value => exact push_follows h value
  | pop => exact pop_follows h
  | truncate newLen => exact truncateLoop_follows h newLen v.len le_rfl
  | clear => exact truncateLoop_follows h 0 v.len le_rfl
  | retain keep s =>
    obtain ⟨out, hout, -, -, -, hdropped, -, hsound⟩ := retainInPlace_sweep h keep s
    refine ⟨out.slots, ?_, hsound, hdropped ▸ List.prefix_append _ _⟩
    rw [exec, hout]
    rfl

theorem run_follows {v : SlotVec T} (h : v.Sound) (ops : List (Op T)) :
    ∃ v', v.run ops = .some v' ∧ v.Follows v' := by
  induction ops generalizing v with
  | nil => exact truncateLoop_follows h 0 v.len le_rfl
  | cons op ops ih =>
    obtain ⟨v₁, hexec, hstep⟩ := exec_follows h op
    obtain ⟨v₂, hrun, hrest⟩ := ih hstep.1
    refine ⟨v₂, ?_, hrest.1, hstep.2.trans hrest.2⟩
    rw [run, hexec]
    exact hrun

theorem Sound.dropped_nodup {v : SlotVec T} (h : v.Sound) : (v.dropped ++ v.taken).Nodup := by
  have hsub : (v.dropped ++ v.taken).Sublist v.owned := by
    rw [owned, List.append_assoc]
    exact List.sublist_append_right _ _
  exact hsub.nodup h.once

theorem Sound.exec {v w : SlotVec T} (h : v.Sound) {op : Op T} (hexec : v.exec op = .some w) :
    w.Sound := by
  obtain ⟨v', hexec', hsound, -⟩ := exec_follows h op
  obtain rfl := Outcome.some.inj (hexec.symm.trans hexec')
  exact hsound

theorem retainInPlace_spec (v : SlotVec T) (h : v.Sound) (keep : S → T → S × T × Verdict) (s : S) :
    ∃ out, v.retainInPlace keep s = .some out ∧ out.slots.Sound ∧
      ((∀ s x, (keep s x).2.2 ≠ .unwind) → out.unwound = false) ∧
      (out.unwound = false →
        out.calls = v.live.zipIdx.map (fun c => (c.2, c.1.1)) ∧
        (out.s, out.slots.live) = FVec.retain (tagged keep) s v.live ∧
        out.slots.dropped = v.dropped ++ (ids v.live).filter (· ∉ ids out.slots.live)) ∧
      (out.unwound = true →
        out.calls <+: v.live.zipIdx.map (fun c => (c.2, c.1.1)) ∧ out.slots.live = []) ∧
      ∀ ops : List (Op T), ∃ final, out.slots.run ops = .some final ∧
        (final.dropped ++ final.taken).Nodup ∧ out.slots.dropped <+: final.dropped := by
  obtain ⟨out, hout, hs, hcalls, hunwound, hdropped, hlive, hsound⟩ := retainInPlace_sweep h keep s
  obtain ⟨hinit, hlength⟩ := sweep_calls keep 0 s v.live
  refine ⟨out, hout, hsound, ?_, ?_, ?_, ?_⟩
  · exact fun hk => hunwound.trans (sweep_completes hk 0 s v.live)
  · intro hu
    have hu' := hunwound ▸ hu
    have hlive' : out.slots.live = (sweep keep 0 s v.live).kept := by simpa [hu] using hlive
    have hids : (ids v.live).Nodup :=
      ((List.sublist_append_left _ _).trans (List.sublist_append_left _ _)).nodup h.once
    refine ⟨?_, ?_, ?_⟩
    · rw [hcalls]
      exact hinit.eq_of_length (by simpa using hlength hu')
    · rw [hs, hlive', sweep_retain hu']
    · rw [hdropped, hlive', sweep_rejected hids hu']
  · exact fun hu => ⟨hcalls ▸ hinit, by simpa [hu] using hlive⟩
  · intro ops
    obtain ⟨final, hrun, hfinal, hext⟩ := run_follows hsound ops
    exact ⟨final, hrun, hfinal.dropped_nodup, hext⟩

def evens (s x : ℕ) : ℕ × ℕ × Verdict := (s + 1, x + 100, if x % 2 = 0 then .accept else .reject)

theorem retainInPlace_spec_evens :
    ∃ out, retainInPlace ⟨[some (4, 0), some (5, 1), some (6, 2), none], 3, [], [], 3⟩ evens 0 =
        .some out ∧ out.s = 3 ∧ out.slots.live = [(104, 0), (106, 2)] ∧ out.slots.dropped = [1] := by
  have hpush : ∀ {v w : SlotVec ℕ} (x : ℕ), v.Sound → v.push x = .some w → w.Sound :=
    fun {v _} x h hp => h.exec (show v.exec (.push x) = _ from hp)
  have hs : Sound (⟨[some (4, 0), some (5, 1), some (6, 2), none], 3, [], [], 3⟩ : SlotVec ℕ) :=
    hpush 6 (hpush 5 (hpush 4 (new_sound 4) rfl) rfl) rfl
  obtain ⟨out, hout, -, hcomplete, hdone, -, -⟩ := retainInPlace_spec _ hs evens 0
  have hkeeps : ∀ s x, (evens s x).2.2 ≠ .unwind := by
    intro s x
    simp only [evens]
    split <;> simp
  obtain ⟨-, hretain, hdropped⟩ := hdone (hcomplete hkeeps)
  have hlive : out.slots.live = [(104, 0), (106, 2)] := congrArg Prod.snd hretain
  rw [hlive] at hdropped
  exact ⟨out, hout, congrArg Prod.fst hretain, hlive, hdropped⟩

end SlotVec

end Ltop
