import Mathlib

namespace Ltop.ArenaSvg

inductive Event (α : Type) where
  | alloc (newOffset : ℕ) (label : α)
  | rewind (newOffset : ℕ)
  | uncommit (newOffset : ℕ)
deriving DecidableEq

structure Rect (α : Type) where
  start : ℕ
  stop : ℕ
  offsetLo : ℕ
  offsetHi : ℕ
  label : α
deriving DecidableEq

structure Live (α : Type) where
  start : ℕ
  offsetLo : ℕ
  offsetHi : ℕ
  label : α
deriving DecidableEq

structure Warning (α : Type) where
  newOffset : ℕ
  top : Live α
deriving DecidableEq

structure Replay (α : Type) where
  rects : List (Rect α)
  live : List (Live α)
  current : ℕ
  peak : ℕ
  uncommits : List (ℕ × ℕ)
  warns : List (Warning α)

variable {α : Type}

def Event.newOffset : Event α → ℕ
  | .alloc n _ | .rewind n | .uncommit n => n

def Event.rises : Event α → Bool
  | .rewind _ => false
  | _ => true

def Live.close (l : Live α) (i : ℕ) : Rect α := ⟨l.start, i, l.offsetLo, l.offsetHi, l.label⟩

def Live.bytes (l : Live α) : Finset ℕ := Finset.Ico l.offsetLo l.offsetHi

def reclaim (i newOffset : ℕ) :
    List (Live α) → List (Rect α) → List (Live α) × List (Rect α) × List (Warning α)
  | [], rects => ([], rects, [])
  | top :: live, rects =>
    if top.offsetLo ≥ newOffset then reclaim i newOffset live (rects ++ [top.close i])
    else if top.offsetHi ≤ newOffset then (top :: live, rects, [])
    else (top :: live, rects, [⟨newOffset, top⟩])

namespace Replay

def empty : Replay α := ⟨[], [], 0, 0, [], []⟩

def step (p : Replay α) (i : ℕ) (ev : Event α) : Replay α :=
  let i := i % 2 ^ 32
  match ev with
  | .alloc newOffset label =>
    let lo := p.current
    { p with
      current := newOffset
      peak := if newOffset > p.peak then newOffset else p.peak
      live := if newOffset > lo then ⟨i, lo, newOffset, label⟩ :: p.live else p.live }
  | .rewind newOffset =>
    let (live, rects, warns) := reclaim i newOffset p.live p.rects
    { p with rects := rects, live := live, warns := p.warns ++ warns, current := newOffset }
  | .uncommit newOffset =>
    { p with uncommits := p.uncommits ++ [(i, newOffset)], current := newOffset }

def runFrom (i : ℕ) (p : Replay α) : List (Event α) → Replay α
  | [] => p
  | ev :: events => runFrom (i + 1) (p.step i ev) events

structure Ascending (p : Replay α) : Prop where
  order : p.live.Pairwise fun a b => b.offsetLo < a.offsetLo

structure Tidy (p : Replay α) : Prop extends Ascending p where
  disjoint : p.live.Pairwise fun a b => Disjoint a.bytes b.bytes
  contained : ∀ l ∈ p.live, l.bytes ⊆ Finset.Ico 0 p.current

end Replay

def replay (events : List (Event α)) : Replay α := Replay.empty.runFrom 0 events

def buildRects (events : List (Event α)) : List (Rect α) × List (ℕ × ℕ) × ℕ :=
  let p := replay events
  (p.rects ++ p.live.reverse.map (Live.close · (events.length % 2 ^ 32)), p.uncommits, p.peak)

def logged (start : ℕ) (events : List (Event α)) : ℕ := events.getLast?.elim start Event.newOffset

def loggedBefore (events : List (Event α)) (i : ℕ) : ℕ := logged 0 (events.take i)

def Rising (start : ℕ) : List (Event α) → Prop
  | [] => True
  | ev :: events => (ev.rises = true → start ≤ ev.newOffset) ∧ Rising ev.newOffset events

def Clean (events : List (Event α)) : Prop :=
  ∀ i k n label r, i < k → events[i]? = some (.alloc n label) → events[k]? = some (.rewind r) →
    loggedBefore events i < r → r < n →
    ∃ j, i < j ∧ j < k ∧ ∃ r', events[j]? = some (.rewind r') ∧ r' ≤ loggedBefore events i

structure Opens (events : List (Event α)) (l : Live α) (i : ℕ) : Prop where
  alloc : events[i]? = some (.alloc l.offsetHi l.label)
  start : l.start = i % 2 ^ 32
  lo : l.offsetLo = loggedBefore events i
  pos : l.offsetLo < l.offsetHi

def Outlives (events : List (Event α)) (l : Live α) (i : ℕ) : Prop :=
  ∀ k r, i < k → events[k]? = some (.rewind r) → l.offsetLo < r

variable {events es : List (Event α)} {ev : Event α} {l : Live α} {p : Replay α}
  {i k r c : ℕ}

@[simp] theorem logged_nil : logged c ([] : List (Event α)) = c := rfl

@[simp] theorem logged_concat : logged c (events ++ [ev]) = ev.newOffset := by
  rw [logged, List.getLast?_concat]
  rfl

theorem logged_cons : logged c (ev :: events) = logged ev.newOffset events := by
  cases events with
  | nil => rfl
  | cons e events => simp [logged, List.getLast?_cons]

theorem rising_append :
    Rising c (events ++ es) ↔ Rising c events ∧ Rising (logged c events) es := by
  induction events generalizing c with
  | nil => simp [Rising]
  | cons e events ih => rw [List.cons_append, Rising, Rising, ih, logged_cons, and_assoc]

theorem loggedBefore_append (hi : i ≤ events.length) :
    loggedBefore (events ++ es) i = loggedBefore events i := by
  rw [loggedBefore, loggedBefore, List.take_append_of_le_length hi]

theorem loggedBefore_length : loggedBefore (events ++ es) events.length = logged 0 events := by
  rw [loggedBefore, List.take_left']
  rfl

theorem opens_append (hi : i < events.length) : Opens (events ++ es) l i ↔ Opens events l i := by
  have hget : (events ++ es)[i]? = events[i]? := List.getElem?_append_left hi
  constructor
  · intro h
    exact ⟨hget ▸ h.alloc, h.start, loggedBefore_append hi.le ▸ h.lo, h.pos⟩
  · intro h
    exact ⟨hget.trans h.alloc, h.start, h.lo.trans (loggedBefore_append hi.le).symm, h.pos⟩

theorem Opens.lt (h : Opens events l i) : i < events.length :=
  (List.getElem?_eq_some_iff.mp h.alloc).1

theorem outlives_concat :
    Outlives (events ++ [ev]) l i ↔
      Outlives events l i ∧ (i < events.length → ∀ r, ev = .rewind r → l.offsetLo < r) := by
  constructor
  · intro h
    refine ⟨fun k r hk hev => h k r hk ?_, fun hi r hev => h _ r hi ?_⟩
    · rw [List.getElem?_append_left (List.getElem?_eq_some_iff.mp hev).1, hev]
    · rw [List.getElem?_concat_length, hev]
  · rintro ⟨hold, hnew⟩ k r hk hev
    rcases Nat.lt_or_ge k events.length with hlt | hge
    · exact hold k r hk (by rwa [List.getElem?_append_left hlt] at hev)
    · have hlen := (List.getElem?_eq_some_iff.mp hev).1
      rw [List.length_append, List.length_singleton] at hlen
      obtain rfl : k = events.length := by omega
      rw [List.getElem?_concat_length] at hev
      exact hnew hk r (Option.some.inj hev)

theorem Replay.runFrom_append :
    p.runFrom i (events ++ es) = (p.runFrom i events).runFrom (i + events.length) es := by
  induction events generalizing p i with
  | nil => rfl
  | cons e events ih =>
    rw [List.cons_append, Replay.runFrom, Replay.runFrom, ih, List.length_cons]
    congr 1
    omega

theorem replay_concat : replay (events ++ [ev]) = (replay events).step events.length ev := by
  rw [replay, Replay.runFrom_append, Nat.zero_add]
  rfl

theorem step_current : (p.step i ev).current = ev.newOffset := by
  cases ev <;> rfl

theorem runFrom_current : (p.runFrom i events).current = logged p.current events := by
  induction events generalizing p i with
  | nil => rfl
  | cons ev events ih => rw [Replay.runFrom, ih, logged_cons, step_current]

theorem current_eq : (replay events).current = logged 0 events := runFrom_current

theorem reclaim_live {live : List (Live α)} {rects : List (Rect α)}
    (h : live.Pairwise fun a b => b.offsetLo < a.offsetLo) :
    (reclaim i r live rects).1 = live.filter fun l => l.offsetLo < r := by
  induction live generalizing rects with
  | nil => rfl
  | cons top live ih =>
    obtain ⟨htop, hlive⟩ := List.pairwise_cons.mp h
    rw [reclaim]
    by_cases hge : top.offsetLo ≥ r
    · rw [if_pos hge, ih hlive, List.filter_cons_of_neg (by simpa using hge)]
    · have hall : (top :: live).filter (fun l => l.offsetLo < r) = top :: live := by
        refine List.filter_eq_self.mpr fun l hl => ?_
        rcases List.mem_cons.mp hl with rfl | hl
        · simpa using hge
        · have := htop l hl
          simp only [decide_eq_true_eq]
          omega
      rw [if_neg hge, hall]
      split <;> rfl

theorem reclaim_rects {live : List (Live α)} {rects : List (Rect α)}
    (h : live.Pairwise fun a b => b.offsetLo < a.offsetLo) :
    (reclaim i r live rects).2.1 =
      rects ++ (live.filter fun l => r ≤ l.offsetLo).map (Live.close · i) := by
  induction live generalizing rects with
  | nil => simp [reclaim]
  | cons top live ih =>
    obtain ⟨htop, hlive⟩ := List.pairwise_cons.mp h
    rw [reclaim]
    by_cases hge : top.offsetLo ≥ r
    · rw [if_pos hge, ih hlive, List.filter_cons_of_pos (by simpa using hge)]
      simp
    · have hnone : (top :: live).filter (fun l => r ≤ l.offsetLo) = [] := by
        refine List.filter_eq_nil_iff.mpr fun l hl => ?_
        rcases List.mem_cons.mp hl with rfl | hl
        · simpa using hge
        · have := htop l hl
          simp only [decide_eq_true_eq]
          omega
      rw [if_neg hge, hnone]
      split <;> simp

structure Discipline (p : Replay α) : Prop extends Replay.Ascending p where
  below : ∀ l ∈ p.live, l.offsetLo < p.current

theorem Discipline.step (h : Discipline p) (hev : ev.rises = true → p.current ≤ ev.newOffset) :
    Discipline (p.step i ev) := by
  cases ev with
  | alloc n label =>
    have hle : p.current ≤ n := hev rfl
    simp only [Replay.step]
    split
    · refine ⟨⟨List.pairwise_cons.mpr ⟨h.below, h.order⟩⟩, ?_⟩
      rintro l (_ | ⟨_, hl⟩)
      · assumption
      · exact (h.below l hl).trans_le hle
    · exact ⟨⟨h.order⟩, fun l hl => (h.below l hl).trans_le hle⟩
  | rewind r =>
    refine ⟨⟨?_⟩, ?_⟩
    · simp only [Replay.step, reclaim_live h.order]
      exact h.order.filter _
    · simp only [Replay.step, reclaim_live h.order]
      intro l hl
      simpa using (List.mem_filter.mp hl).2
  | uncommit n => exact ⟨⟨h.order⟩, fun l hl => (h.below l hl).trans_le (hev rfl)⟩

theorem discipline (h : Rising 0 events) : Discipline (replay events) := by
  induction events using List.reverseRecOn with
  | nil => exact ⟨⟨.nil⟩, fun l hl => absurd hl List.not_mem_nil⟩
  | append_singleton events ev ih =>
    obtain ⟨hevents, hev, -⟩ := rising_append.mp h
    rw [replay_concat]
    exact (ih hevents).step fun hr => current_eq ▸ hev hr

theorem mem_step_live (h : Discipline p) :
    l ∈ (p.step i ev).live ↔
      (l ∈ p.live ∧ ∀ r, ev = .rewind r → l.offsetLo < r) ∨
        ev = .alloc l.offsetHi l.label ∧ l.start = i % 2 ^ 32 ∧ l.offsetLo = p.current ∧
          l.offsetLo < l.offsetHi := by
  cases ev with
  | alloc n label =>
    simp only [Replay.step]
    constructor
    · intro hl
      split at hl
      · rcases List.mem_cons.mp hl with rfl | hl
        · exact .inr ⟨rfl, rfl, rfl, ‹_›⟩
        · exact .inl ⟨hl, fun r hr => nomatch hr⟩
      · exact .inl ⟨hl, fun r hr => nomatch hr⟩
    · rintro (⟨hl, -⟩ | ⟨hev, hstart, hlo, hpos⟩)
      · split
        · exact List.mem_cons_of_mem _ hl
        · exact hl
      · obtain ⟨rfl, rfl⟩ := Event.alloc.inj hev
        rw [if_pos (hlo ▸ hpos), ← hstart, ← hlo]
        exact List.mem_cons_self
  | rewind r =>
    simp only [Replay.step, reclaim_live h.order, List.mem_filter, decide_eq_true_eq]
    constructor
    · rintro ⟨hl, hlt⟩
      exact .inl ⟨hl, fun r' hr => Event.rewind.inj hr ▸ hlt⟩
    · rintro (⟨hl, hlt⟩ | ⟨hev, -⟩)
      · exact ⟨hl, hlt r rfl⟩
      · exact nomatch hev
  | uncommit n =>
    constructor
    · exact fun hl => .inl ⟨hl, fun r hr => nomatch hr⟩
    · rintro (⟨hl, -⟩ | ⟨hev, -⟩)
      · exact hl
      · exact nomatch hev

theorem opens_concat :
    Opens (events ++ [ev]) l i ↔ Opens events l i ∨ i = events.length ∧
      ev = .alloc l.offsetHi l.label ∧ l.start = i % 2 ^ 32 ∧ l.offsetLo = logged 0 events ∧
        l.offsetLo < l.offsetHi := by
  constructor
  · intro h
    have hlt := h.lt
    rw [List.length_append, List.length_singleton] at hlt
    rcases Nat.lt_succ_iff_lt_or_eq.mp hlt with hi | rfl
    · exact .inl ((opens_append hi).mp h)
    · have halloc := h.alloc
      rw [List.getElem?_concat_length] at halloc
      exact .inr ⟨rfl, Option.some.inj halloc, h.start, h.lo.trans loggedBefore_length, h.pos⟩
  · rintro (h | ⟨rfl, hev, hstart, hlo, hpos⟩)
    · exact (opens_append h.lt).mpr h
    · exact ⟨by rw [List.getElem?_concat_length, hev], hstart, hlo.trans loggedBefore_length.symm,
        hpos⟩

theorem mem_live (h : Rising 0 events) :
    l ∈ (replay events).live ↔ ∃ i, Opens events l i ∧ Outlives events l i := by
  induction events using List.reverseRecOn with
  | nil =>
    refine ⟨fun hl => absurd hl List.not_mem_nil, fun ⟨i, hopens, _⟩ => ?_⟩
    exact absurd hopens.lt (Nat.not_lt_zero _)
  | append_singleton events ev ih =>
    obtain ⟨hevents, -⟩ := rising_append.mp h
    rw [replay_concat, mem_step_live (discipline hevents), ih hevents, current_eq]
    constructor
    · rintro (⟨⟨i, hopens, hlives⟩, hev⟩ | hnew)
      · exact ⟨i, opens_concat.mpr (.inl hopens), outlives_concat.mpr ⟨hlives, fun _ => hev⟩⟩
      · refine ⟨events.length, opens_concat.mpr (.inr ⟨rfl, hnew⟩), outlives_concat.mpr ⟨?_, ?_⟩⟩
        · intro k r hk hev
          have := (List.getElem?_eq_some_iff.mp hev).1
          omega
        · exact fun hlt => absurd hlt (Nat.lt_irrefl _)
    · rintro ⟨i, hopens, hlives⟩
      obtain ⟨hlives, hev⟩ := outlives_concat.mp hlives
      rcases opens_concat.mp hopens with hold | ⟨rfl, hnew⟩
      · exact .inl ⟨⟨i, hold, hlives⟩, hev hold.lt⟩
      · exact .inr hnew

theorem Clean.append (h : Clean (events ++ es)) : Clean events := by
  intro i k n label r hik hi hk hlo hr
  have hki := (List.getElem?_eq_some_iff.mp hk).1
  have hget : ∀ {j e}, events[j]? = some e → (events ++ es)[j]? = some e := fun hj => by
    rw [List.getElem?_append_left (List.getElem?_eq_some_iff.mp hj).1, hj]
  have hbefore : loggedBefore (events ++ es) i = loggedBefore events i :=
    loggedBefore_append (by omega)
  rw [← hbefore] at hlo ⊢
  obtain ⟨j, hij, hjk, r', hj, hr'⟩ := h i k n label r hik (hget hi) (hget hk) hlo hr
  rw [List.getElem?_append_left (by omega)] at hj
  exact ⟨j, hij, hjk, r', hj, hr'⟩

structure Stacked (p : Replay α) : Prop where
  order : p.live.Pairwise fun a b => b.offsetHi ≤ a.offsetLo
  below : ∀ l ∈ p.live, l.offsetHi ≤ p.current

theorem Stacked.tidy (h : Stacked p) (hd : Discipline p) : p.Tidy := by
  refine ⟨⟨hd.order⟩, h.order.imp fun hab => ?_, fun l hl => ?_⟩
  · exact (Finset.Ico_disjoint_Ico_consecutive _ _ _).symm.mono le_rfl (Finset.Ico_subset_Ico le_rfl hab)
  · exact Finset.Ico_subset_Ico (Nat.zero_le _) (h.below l hl)

def Replay.Cut (p : Replay α) (r : ℕ) : Prop := ∀ l ∈ p.live, r ≤ l.offsetLo ∨ l.offsetHi ≤ r

theorem Replay.Cut.step {m : ℕ} (hcut : p.Cut m) (hd : Discipline p)
    (hm : ev.rises = true → m ≤ p.current) : (p.step i ev).Cut m := by
  cases ev with
  | alloc n label =>
    simp only [Replay.step]
    split
    · exact List.forall_mem_cons.mpr ⟨.inl (hm rfl), hcut⟩
    · exact hcut
  | rewind r =>
    simp only [Replay.Cut, Replay.step, reclaim_live hd.order]
    exact fun l hl => hcut l (List.mem_filter.mp hl).1
  | uncommit n => exact hcut

theorem Stacked.step (hs : Stacked p) (hd : Discipline p)
    (hev : ev.rises = true → p.current ≤ ev.newOffset) (hcut : ∀ r, ev = .rewind r → p.Cut r) :
    Stacked (p.step i ev) := by
  cases ev with
  | alloc n label =>
    have hle : p.current ≤ n := hev rfl
    have hbelow : ∀ l ∈ p.live, l.offsetHi ≤ n := fun l hl => (hs.below l hl).trans hle
    simp only [Replay.step]
    split
    · refine ⟨List.pairwise_cons.mpr ⟨hs.below, hs.order⟩, ?_⟩
      rintro l (_ | ⟨_, hl⟩)
      · exact le_rfl
      · exact hbelow l hl
    · exact ⟨hs.order, hbelow⟩
  | rewind r =>
    simp only [Replay.step, reclaim_live hd.order]
    refine ⟨hs.order.filter _, fun l hl => ?_⟩
    simp only [List.mem_filter, decide_eq_true_eq] at hl
    exact (hcut r rfl l hl.1).resolve_left (Nat.not_le.mpr hl.2)
  | uncommit n => exact ⟨hs.order, fun l hl => (hs.below l hl).trans (hev rfl)⟩

theorem stacked_of_clean (h : Rising 0 events) (hc : Clean events) : Stacked (replay events) := by
  induction events using List.reverseRecOn with
  | nil => exact ⟨.nil, fun l hl => absurd hl List.not_mem_nil⟩
  | append_singleton events ev ih =>
    obtain ⟨hevents, hev, -⟩ := rising_append.mp h
    rw [replay_concat]
    refine (ih hevents hc.append).step (discipline hevents) (fun hr => current_eq ▸ hev hr) ?_
    rintro r rfl l hl
    obtain ⟨i, hopens, hlives⟩ := (mem_live hevents).mp hl
    by_contra hinside
    obtain ⟨hlo, hhi⟩ := not_or.mp hinside
    -- the rewind lands inside `l`, so the trace must have closed `l` before it
    obtain ⟨j, hij, hjk, r', hj, hr'⟩ := hc i events.length l.offsetHi l.label r hopens.lt
      ((opens_append hopens.lt).mpr hopens).alloc List.getElem?_concat_length
      (by rw [loggedBefore_append hopens.lt.le, ← hopens.lo]; exact Nat.lt_of_not_le hlo)
      (Nat.lt_of_not_le hhi)
    rw [List.getElem?_append_left hjk] at hj
    rw [loggedBefore_append hopens.lt.le, ← hopens.lo] at hr'
    exact absurd (hlives j r' hij hj) (Nat.not_lt.mpr hr')

theorem Rising.take (h : Rising 0 events) (k : ℕ) : Rising 0 (events.take k) := by
  rw [← List.take_append_drop k events] at h
  exact (rising_append.mp h).1

theorem Clean.take (h : Clean events) (k : ℕ) : Clean (events.take k) := by
  rw [← List.take_append_drop k events] at h
  exact h.append

theorem clean_of_tidy (h : Rising 0 events) (ht : ∀ k, (replay (events.take k)).Tidy) :
    Clean events := by
  intro i k n label r hik hi hk hlo hr
  by_contra hnone
  have hklt := (List.getElem?_eq_some_iff.mp hk).1
  have hget : ∀ {j}, j ≤ k → (events.take (k + 1))[j]? = events[j]? := fun hj =>
    List.getElem?_take_of_lt (Nat.lt_succ_of_le hj)
  have hlogged : loggedBefore (events.take (k + 1)) i = loggedBefore events i := by
    rw [loggedBefore, List.take_take, min_eq_left (by omega)]
    rfl
  have hopens : Opens (events.take (k + 1)) ⟨i % 2 ^ 32, loggedBefore events i, n, label⟩ i :=
    ⟨(hget hik.le).trans hi, rfl, hlogged.symm, hlo.trans hr⟩
  have hlives : Outlives (events.take (k + 1)) ⟨i % 2 ^ 32, loggedBefore events i, n, label⟩ i := by
    intro j r' hij hj
    have hjlt := (List.getElem?_eq_some_iff.mp hj).1
    rw [List.length_take] at hjlt
    rw [hget (by omega)] at hj
    by_contra hle
    rcases Nat.lt_or_eq_of_le (show j ≤ k by omega) with hjk | rfl
    · exact hnone ⟨j, hij, hjk, r', hj, Nat.not_lt.mp hle⟩
    · cases hk.symm.trans hj
      exact hle hlo
  have hlive := (mem_live (h.take (k + 1))).mpr ⟨i, hopens, hlives⟩
  have hcurrent : (replay (events.take (k + 1))).current = r := by
    rw [List.take_add_one, hk, Option.toList_some, replay_concat, step_current]
    rfl
  have hin := (ht (k + 1)).contained _ hlive
  rw [hcurrent] at hin
  exact Nat.not_le.mpr hr ((Finset.Ico_subset_Ico_iff hopens.pos).mp hin).2

def Replay.Cutting (p : Replay α) (i : ℕ) : List (Event α) → Prop
  | [] => True
  | ev :: events => (∀ r, ev = .rewind r → p.Cut r) ∧ (p.step i ev).Cutting (i + 1) events

theorem cutting_append :
    p.Cutting i (events ++ es) ↔
      p.Cutting i events ∧ (p.runFrom i events).Cutting (i + events.length) es := by
  induction events generalizing p i with
  | nil => simp [Replay.Cutting, Replay.runFrom]
  | cons e events ih =>
    rw [List.cons_append, Replay.Cutting, Replay.Cutting, ih, Replay.runFrom, List.length_cons,
      and_assoc, show i + 1 + events.length = i + (events.length + 1) by omega]

theorem Stacked.cut_current (h : Stacked p) : p.Cut p.current := fun l hl => .inr (h.below l hl)

theorem Stacked.runFrom (hs : Stacked p) (hd : Discipline p) (hr : Rising p.current events)
    (hc : p.Cutting i events) :
    Stacked (p.runFrom i events) ∧ Discipline (p.runFrom i events) := by
  induction events generalizing p i with
  | nil => exact ⟨hs, hd⟩
  | cons ev events ih =>
    exact ih (hs.step hd hr.1 hc.1) (hd.step hr.1) (step_current ▸ hr.2) hc.2

theorem cutting_tidy (h : Rising 0 events) (hc : Replay.empty.Cutting 0 events) (k : ℕ) :
    (replay (events.take k)).Tidy := by
  have hempty : Stacked (Replay.empty : Replay α) := ⟨.nil, fun l hl => absurd hl List.not_mem_nil⟩
  have htake : Replay.empty.Cutting 0 (events.take k) := by
    rw [← List.take_append_drop k events] at hc
    exact (cutting_append.mp hc).1
  exact (hempty.runFrom ⟨⟨.nil⟩, fun l hl => absurd hl List.not_mem_nil⟩ (h.take k) htake).1.tidy
    (discipline (h.take k))

theorem tidy_iff (h : Rising 0 events) : (∀ k, (replay (events.take k)).Tidy) ↔ Clean events :=
  ⟨clean_of_tidy h, fun hc k =>
    (stacked_of_clean (h.take k) (hc.take k)).tidy (discipline (h.take k))⟩

end Ltop.ArenaSvg
