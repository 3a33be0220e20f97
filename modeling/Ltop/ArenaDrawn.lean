import Mathlib
import Ltop.ArenaSvg

namespace Ltop.ArenaSvg

variable {α : Type} {events es : List (Event α)} {ev : Event α} {l : Live α} {d : Rect α}
  {p : Replay α} {i k r c : ℕ}

def Rect.live (d : Rect α) : Live α := ⟨d.start, d.offsetLo, d.offsetHi, d.label⟩

def Rect.cells (d : Rect α) : Finset (ℕ × ℕ) :=
  Finset.Ico d.start d.stop ×ˢ Finset.Ico d.offsetLo d.offsetHi

structure Spans (events : List (Event α)) (d : Rect α) : Prop where
  opens : Opens events d.live d.start
  after : d.start < d.stop
  within : d.stop ≤ events.length
  kept : ∀ k n, d.start < k → k < d.stop → events[k]? = some (.rewind n) → d.offsetLo < n
  closed : d.stop < events.length → ∃ n, events[d.stop]? = some (.rewind n) ∧ n ≤ d.offsetLo

theorem close_live (d : Rect α) : d.live.close d.stop = d := rfl

theorem Spans.outlives (h : Spans events d) : Outlives (events.take d.stop) d.live d.start := by
  intro k n hk hev
  have hlt := (List.getElem?_eq_some_iff.mp hev).1
  rw [List.length_take] at hlt
  rw [List.getElem?_take_of_lt (by omega)] at hev
  exact h.kept k n hk (by omega) hev

theorem Opens.take (h : Opens events l i) (hk : i < k) : Opens (events.take k) l i := by
  rw [← List.take_append_drop k events] at h
  refine (opens_append ?_).mp h
  have := (List.take_append_drop k events ▸ h).lt
  rw [List.length_take]
  omega

theorem spans_append (hd : d.stop < events.length) :
    Spans (events ++ es) d ↔ Spans events d := by
  have hget : ∀ {k}, k < events.length → (events ++ es)[k]? = events[k]? := fun hk =>
    List.getElem?_append_left hk
  constructor
  · intro h
    have hafter := h.after
    refine ⟨(opens_append (by omega)).mp h.opens, hafter, hd.le, fun k n hk hlt hev => ?_, fun _ => ?_⟩
    · exact h.kept k n hk hlt (hget (hlt.trans hd) ▸ hev)
    · exact hget hd ▸ h.closed (by rw [List.length_append]; omega)
  · intro h
    have hafter := h.after
    refine ⟨(opens_append (by omega)).mpr h.opens, hafter, ?_, fun k n hk hlt hev => ?_, fun _ => ?_⟩
    · rw [List.length_append]
      omega
    · exact h.kept k n hk hlt ((hget (hlt.trans hd)).symm.trans hev)
    · exact (hget hd).symm ▸ h.closed hd

theorem spans_length (hd : d.stop = events.length) :
    Spans events d ↔ Opens events d.live d.start ∧ Outlives events d.live d.start := by
  constructor
  · intro h
    have houtlives := h.outlives
    rw [hd, List.take_length] at houtlives
    exact ⟨h.opens, houtlives⟩
  · rintro ⟨hopens, hlives⟩
    refine ⟨hopens, hd ▸ hopens.lt, hd.le, fun k n hk _ hev => hlives k n hk hev, fun hlt => ?_⟩
    exact absurd hd hlt.ne

theorem step_rects (h : Discipline p) :
    d ∈ (p.step i ev).rects ↔ d ∈ p.rects ∨
      ∃ n, ev = .rewind n ∧ d.live ∈ p.live ∧ n ≤ d.offsetLo ∧ d.stop = i % 2 ^ 32 := by
  cases ev with
  | alloc n label => simp [Replay.step]
  | rewind n =>
    simp only [Replay.step, reclaim_rects h.order, List.mem_append, List.mem_map, List.mem_filter,
      decide_eq_true_eq]
    refine or_congr_right ⟨?_, ?_⟩
    · rintro ⟨l, ⟨hl, hn⟩, rfl⟩
      exact ⟨n, rfl, hl, hn, rfl⟩
    · rintro ⟨n', hn', hl, hn, hstop⟩
      cases hn'
      exact ⟨d.live, ⟨hl, hn⟩, by rw [← hstop, close_live]⟩
  | uncommit n => simp [Replay.step]

theorem Opens.start_eq (h : Opens events l i) (hlen : events.length ≤ 2 ^ 32) : l.start = i := by
  rw [h.start, Nat.mod_eq_of_lt (h.lt.trans_le hlen)]

theorem mem_live_iff (h : Rising 0 events) (hlen : events.length ≤ 2 ^ 32) :
    l ∈ (replay events).live ↔ Opens events l l.start ∧ Outlives events l l.start := by
  rw [mem_live h]
  constructor
  · rintro ⟨i, hopens, hlives⟩
    rw [hopens.start_eq hlen]
    exact ⟨hopens, hlives⟩
  · exact fun hl => ⟨l.start, hl⟩

theorem mem_rects (h : Rising 0 events) (hlen : events.length ≤ 2 ^ 32) :
    d ∈ (replay events).rects ↔ Spans events d ∧ d.stop < events.length := by
  induction events using List.reverseRecOn with
  | nil => exact ⟨fun hd => absurd hd List.not_mem_nil, fun hd => absurd hd.2 (Nat.not_lt_zero _)⟩
  | append_singleton events ev ih =>
    obtain ⟨hevents, -⟩ := rising_append.mp h
    rw [List.length_append, List.length_singleton] at hlen ⊢
    rw [replay_concat, step_rects (discipline hevents), ih hevents (by omega),
      mem_live_iff hevents (by omega), Nat.mod_eq_of_lt (by omega)]
    constructor
    · rintro (⟨hspans, hlt⟩ | ⟨n, rfl, hl, hn, hstop⟩)
      · exact ⟨(spans_append hlt).mpr hspans, by omega⟩
      · have hspans := (spans_length hstop).mpr hl
        refine ⟨⟨(opens_append hl.1.lt).mpr hl.1, hspans.after, ?_, fun k m hk hlt hev => ?_,
          fun _ => ⟨n, ?_, hn⟩⟩, by omega⟩
        · rw [List.length_append]
          omega
        · rw [List.getElem?_append_left (by omega)] at hev
          exact hspans.kept k m hk hlt hev
        · rw [hstop, List.getElem?_concat_length]
    · rintro ⟨hspans, hlt⟩
      rcases Nat.lt_succ_iff_lt_or_eq.mp hlt with hlt | hstop
      · exact .inl ⟨(spans_append hlt).mp hspans, hlt⟩
      · obtain ⟨n, hev, hn⟩ := hspans.closed (by rw [List.length_append, hstop]; simp)
        rw [hstop, List.getElem?_concat_length] at hev
        have hafter : d.live.start < d.stop := hspans.after
        have hopens := (opens_append (hstop ▸ hafter)).mp hspans.opens
        refine .inr ⟨n, Option.some.inj hev, ⟨hopens, ?_⟩, hn, hstop⟩
        have houtlives := hspans.outlives
        rwa [hstop, List.take_left'] at houtlives
        rfl

theorem mem_drawn (h : Rising 0 events) (hlen : events.length < 2 ^ 32) :
    d ∈ (buildRects events).1 ↔ Spans events d := by
  simp only [buildRects, List.mem_append, List.mem_map, List.mem_reverse,
    Nat.mod_eq_of_lt hlen, mem_rects h hlen.le]
  constructor
  · rintro (⟨hd, -⟩ | ⟨l, hl, rfl⟩)
    · exact hd
    · exact (spans_length rfl).mpr ((mem_live_iff h hlen.le).mp hl)
  · intro hd
    rcases Nat.lt_or_eq_of_le hd.within with hlt | hstop
    · exact .inl ⟨hd, hlt⟩
    · exact .inr ⟨d.live, (mem_live_iff h hlen.le).mpr ((spans_length hstop).mp hd),
        by rw [← hstop, close_live]⟩

def Replay.starts (p : Replay α) : List ℕ := p.rects.map Rect.start ++ p.live.map Live.start

theorem starts_step (h : Discipline p) (hi : i < 2 ^ 32) (hall : ∀ k ∈ p.starts, k < i)
    (hnodup : p.starts.Nodup) :
    (p.step i ev).starts.Nodup ∧ ∀ k ∈ (p.step i ev).starts, k < i + 1 := by
  have hkeep : ∀ k ∈ p.starts, k < i + 1 := fun k hk => (hall k hk).trans (Nat.lt_succ_self i)
  cases ev with
  | alloc n label =>
    simp only [Replay.step, Replay.starts, Nat.mod_eq_of_lt hi] at *
    split
    · rw [List.map_cons, List.nodup_middle]
      refine ⟨List.nodup_cons.mpr ⟨fun hin => absurd (hall i hin) (Nat.lt_irrefl i), hnodup⟩, ?_⟩
      intro k hk
      rw [List.mem_append, List.mem_cons] at hk
      rcases hk with hk | rfl | hk
      · exact hkeep k (List.mem_append_left _ hk)
      · exact Nat.lt_succ_self k
      · exact hkeep k (List.mem_append_right _ hk)
    · exact ⟨hnodup, hkeep⟩
  | rewind n =>
    have hperm : (p.step i (.rewind n)).starts.Perm p.starts := by
      simp only [Replay.step, Replay.starts, reclaim_rects h.order, reclaim_live h.order,
        List.map_append, List.map_map, List.append_assoc]
      refine List.Perm.append_left _ ?_
      have hrest : p.live.filter (fun l => l.offsetLo < n) =
          p.live.filter fun l => !decide (n ≤ l.offsetLo) := by
        refine List.filter_congr fun l _ => ?_
        rw [← decide_not, decide_eq_decide, Nat.not_le]
      rw [hrest]
      have hsplit := List.filter_append_perm (fun l : Live α => decide (n ≤ l.offsetLo)) p.live
      exact (List.map_append ▸ hsplit.map Live.start :)
    exact ⟨hperm.nodup_iff.mpr hnodup, fun k hk => hkeep k (hperm.mem_iff.mp hk)⟩
  | uncommit n => exact ⟨hnodup, hkeep⟩

theorem starts_nodup (h : Rising 0 events) (hlen : events.length ≤ 2 ^ 32) :
    (replay events).starts.Nodup ∧ ∀ k ∈ (replay events).starts, k < events.length := by
  induction events using List.reverseRecOn with
  | nil => exact ⟨List.nodup_nil, fun k hk => absurd hk List.not_mem_nil⟩
  | append_singleton events ev ih =>
    obtain ⟨hevents, -⟩ := rising_append.mp h
    rw [List.length_append, List.length_singleton] at hlen ⊢
    obtain ⟨hnodup, hall⟩ := ih hevents (by omega)
    rw [replay_concat]
    exact starts_step (discipline hevents) (by omega) hall hnodup

theorem drawn_starts (h : Rising 0 events) (hlen : events.length ≤ 2 ^ 32) :
    ((buildRects events).1.map Rect.start).Nodup := by
  have hnodup := (starts_nodup h hlen).1
  simp only [buildRects, List.map_append, List.map_map, List.map_reverse]
  refine (List.Perm.append_left _ (List.reverse_perm _)).nodup_iff.mpr ?_
  exact hnodup

theorem step_uncommits : (p.step i ev).uncommits =
    p.uncommits ++ match ev with | .uncommit n => [(i % 2 ^ 32, n)] | _ => [] := by
  cases ev <;> simp [Replay.step]

theorem mem_uncommits (hlen : events.length ≤ 2 ^ 32) {n : ℕ} :
    (k, n) ∈ (replay events).uncommits ↔ events[k]? = some (.uncommit n) := by
  induction events using List.reverseRecOn with
  | nil => simp [replay, Replay.runFrom, Replay.empty]
  | append_singleton events ev ih =>
    rw [List.length_append, List.length_singleton] at hlen
    rw [replay_concat, step_uncommits, List.mem_append, ih (by omega), Nat.mod_eq_of_lt (by omega)]
    rcases Nat.lt_trichotomy k events.length with hlt | rfl | hgt
    · rw [List.getElem?_append_left hlt]
      cases ev <;> simp [hlt.ne]
    · rw [List.getElem?_concat_length]
      cases ev <;> simp [eq_comm]
    · have hout : (events ++ [ev])[k]? = none :=
        List.getElem?_eq_none (by rw [List.length_append, List.length_singleton]; omega)
      rw [hout, List.getElem?_eq_none hgt.le]
      cases ev <;> simp [hgt.ne']

theorem peak_eq : IsGreatest ({0} ∪ {n | ∃ label, Event.alloc n label ∈ events})
    (replay events).peak := by
  induction events using List.reverseRecOn with
  | nil => exact ⟨.inl rfl, fun n hn => by simpa [replay, Replay.runFrom, Replay.empty] using hn⟩
  | append_singleton events ev ih =>
    obtain ⟨hmem, hub⟩ := ih
    have hkeep : ∀ {n}, n ∈ {0} ∪ {n | ∃ label, Event.alloc n label ∈ events} →
        n ∈ {0} ∪ {n | ∃ label, Event.alloc n label ∈ events ++ [ev]} := by
      rintro n (hn | ⟨label, hn⟩)
      · exact .inl hn
      · exact .inr ⟨label, List.mem_append_left _ hn⟩
    rw [replay_concat]
    cases ev with
    | alloc n label =>
      simp only [Replay.step]
      have hnew : n ∈ {0} ∪ {m | ∃ l : α, Event.alloc m l ∈ events ++ [.alloc n label]} :=
        .inr ⟨label, List.mem_append_right _ (List.mem_singleton_self _)⟩
      refine ⟨by split; exacts [hnew, hkeep hmem], ?_⟩
      rintro m (rfl | ⟨l, hm⟩)
      · exact Nat.zero_le _
      · rcases List.mem_append.mp hm with hm | hm
        · have := hub (.inr ⟨l, hm⟩)
          split <;> omega
        · cases List.mem_singleton.mp hm
          split <;> omega
    | rewind n =>
      refine ⟨hkeep hmem, ?_⟩
      rintro m (rfl | ⟨l, hm⟩)
      · exact Nat.zero_le _
      · exact hub (.inr ⟨l, by simpa using hm⟩)
    | uncommit n =>
      refine ⟨hkeep hmem, ?_⟩
      rintro m (rfl | ⟨l, hm⟩)
      · exact Nat.zero_le _
      · exact hub (.inr ⟨l, by simpa using hm⟩)

def Live.Straddles (l : Live α) (n : ℕ) : Prop := l.offsetLo < n ∧ n < l.offsetHi

theorem reclaim_warns {live : List (Live α)} {rects : List (Rect α)}
    (h : live.Pairwise fun a b => b.offsetHi ≤ a.offsetLo) :
    (reclaim i r live rects).2.2 = [] ↔ ∀ l ∈ live, ¬ l.Straddles r := by
  induction live generalizing rects with
  | nil => simp [reclaim]
  | cons top live ih =>
    obtain ⟨htop, hlive⟩ := List.pairwise_cons.mp h
    rw [reclaim, List.forall_mem_cons]
    by_cases hge : top.offsetLo ≥ r
    · rw [if_pos hge, ih hlive]
      exact (and_iff_right fun hs => Nat.not_le.mpr hs.1 hge).symm
    · have hlo : top.offsetLo < r := Nat.not_le.mp hge
      rw [if_neg hge]
      by_cases hhi : top.offsetHi ≤ r
      · rw [if_pos hhi]
        refine iff_of_true rfl ⟨fun hs => Nat.not_le.mpr hs.2 hhi, fun l hl hs => ?_⟩
        exact Nat.lt_asymm hs.2 ((htop l hl).trans_lt hlo)
      · rw [if_neg hhi]
        exact iff_of_false (List.cons_ne_nil _ _) fun hall => hall.1 ⟨hlo, Nat.not_le.mp hhi⟩

theorem clean_concat (h : Rising 0 events) :
    Clean (events ++ [ev]) ↔
      Clean events ∧ ∀ n, ev = .rewind n → ∀ l ∈ (replay events).live, ¬ l.Straddles n := by
  have hget : ∀ {k}, k < events.length → (events ++ [ev])[k]? = events[k]? := fun hk =>
    List.getElem?_append_left hk
  constructor
  · intro hc
    refine ⟨hc.append, ?_⟩
    rintro n rfl l hl ⟨hlo, hhi⟩
    obtain ⟨i, hopens, hlives⟩ := (mem_live h).mp hl
    have hbefore : loggedBefore (events ++ [.rewind n]) i = l.offsetLo :=
      (loggedBefore_append hopens.lt.le).trans hopens.lo.symm
    obtain ⟨j, hij, hjk, r', hj, hr'⟩ := hc i events.length l.offsetHi l.label n hopens.lt
      ((hget hopens.lt).trans hopens.alloc) List.getElem?_concat_length (hbefore ▸ hlo) hhi
    rw [hbefore] at hr'
    exact Nat.not_lt.mpr hr' (hlives j r' hij (hget hjk ▸ hj))
  · rintro ⟨hc, hstraddle⟩ i k n label r hik hi hk hlo hr
    have hklt := (List.getElem?_eq_some_iff.mp hk).1
    rw [List.length_append, List.length_singleton] at hklt
    rw [hget (by omega)] at hi
    rw [loggedBefore_append (by omega)] at hlo ⊢
    rcases Nat.lt_succ_iff_lt_or_eq.mp hklt with hlt | rfl
    · obtain ⟨j, hij, hjk, r', hj, hr'⟩ := hc i k n label r hik hi (hget hlt ▸ hk) hlo hr
      exact ⟨j, hij, hjk, r', (hget (hjk.trans hlt)).trans hj, hr'⟩
    · rw [List.getElem?_concat_length, Option.some.injEq] at hk
      by_contra hnone
      refine hstraddle r hk ⟨i % 2 ^ 32, loggedBefore events i, n, label⟩ ?_ ⟨hlo, hr⟩
      refine (mem_live h).mpr ⟨i, ⟨hi, rfl, rfl, hlo.trans hr⟩, fun j r' hij hj => ?_⟩
      by_contra hle
      have hj' := (List.getElem?_eq_some_iff.mp hj).1
      exact hnone ⟨j, hij, hj', r', (hget hj').trans hj, Nat.not_lt.mp hle⟩

theorem step_warns (hs : Stacked p) :
    (p.step i ev).warns = [] ↔
      p.warns = [] ∧ ∀ n, ev = .rewind n → ∀ l ∈ p.live, ¬ l.Straddles n := by
  cases ev with
  | alloc n label => simp [Replay.step]
  | rewind n => simp [Replay.step, reclaim_warns hs.order]
  | uncommit n => simp [Replay.step]

theorem warns_iff (h : Rising 0 events) : (replay events).warns = [] ↔ Clean events := by
  induction events using List.reverseRecOn with
  | nil => exact iff_of_true rfl fun i k n label r _ hi => absurd hi (by simp)
  | append_singleton events ev ih =>
    obtain ⟨hevents, -⟩ := rising_append.mp h
    rw [replay_concat, clean_concat hevents, ← ih hevents]
    by_cases hwarns : (replay events).warns = []
    · exact step_warns (stacked_of_clean hevents ((ih hevents).mp hwarns))
    · have hmore : ((replay events).step events.length ev).warns ≠ [] := by
        cases ev <;> simp [Replay.step, hwarns]
      exact iff_of_false hmore fun hall => hwarns hall.1

theorem Spans.live_at (h : Rising 0 events) (hlen : events.length ≤ 2 ^ 32) (hd : Spans events d)
    (hlo : d.start ≤ k) (hhi : k < d.stop) : d.live ∈ (replay (events.take (k + 1))).live := by
  have htake : (events.take (k + 1)).length ≤ 2 ^ 32 := by
    rw [List.length_take]
    omega
  refine (mem_live_iff (h.take (k + 1)) htake).mpr ⟨hd.opens.take (Nat.lt_succ_of_le hlo), ?_⟩
  intro j n hj hev
  have hlt := (List.getElem?_eq_some_iff.mp hev).1
  rw [List.length_take] at hlt
  rw [List.getElem?_take_of_lt (by omega)] at hev
  exact hd.kept j n hj (by omega) hev

theorem drawn_disjoint (h : Rising 0 events) (hlen : events.length ≤ 2 ^ 32) (hc : Clean events)
    {d₁ d₂ : Rect α} (h₁ : Spans events d₁) (h₂ : Spans events d₂) (hne : d₁.start ≠ d₂.start) :
    Disjoint d₁.cells d₂.cells := by
  refine Finset.disjoint_left.mpr fun ⟨k, b⟩ hin₁ hin₂ => ?_
  simp only [Rect.cells, Finset.mem_product, Finset.mem_Ico] at hin₁ hin₂
  obtain ⟨⟨hlo₁, hhi₁⟩, hb₁⟩ := hin₁
  obtain ⟨⟨hlo₂, hhi₂⟩, hb₂⟩ := hin₂
  have hl₁ := h₁.live_at h hlen hlo₁ hhi₁
  have hl₂ := h₂.live_at h hlen hlo₂ hhi₂
  have htidy := (tidy_iff h).mpr hc (k + 1)
  have hlive : d₁.live ≠ d₂.live := fun heq => hne (congrArg Live.start heq)
  have hsymm : Std.Symm fun a b : Live α => Disjoint a.bytes b.bytes := ⟨fun a b hab => hab.symm⟩
  have hbytes := htidy.disjoint.forall hl₁ hl₂ hlive
  exact Finset.disjoint_left.mp hbytes (Finset.mem_Ico.mpr hb₁) (Finset.mem_Ico.mpr hb₂)

structure Pictured (events : List (Event α)) (drawing : List (Rect α) × List (ℕ × ℕ) × ℕ) :
    Prop where
  drawn : ∀ d, d ∈ drawing.1 ↔ Spans events d
  once : (drawing.1.map Rect.start).Nodup
  ticks : ∀ k n, (k, n) ∈ drawing.2.1 ↔ events[k]? = some (.uncommit n)
  peak : IsGreatest ({0} ∪ {n | ∃ label, Event.alloc n label ∈ events}) drawing.2.2
  disjoint : (replay events).warns = [] → drawing.1.Pairwise fun a b => Disjoint a.cells b.cells
  silent : (replay events).warns = [] ↔ Clean events

theorem buildRects_pictured (h : Rising 0 events) (hlen : events.length < 2 ^ 32) :
    Pictured events (buildRects events) := by
  have hstarts := drawn_starts h hlen.le
  refine ⟨fun d => mem_drawn h hlen, hstarts, fun k n => mem_uncommits hlen.le, peak_eq, ?_,
    warns_iff h⟩
  intro hwarns
  have hc := (warns_iff h).mp hwarns
  refine (List.pairwise_map.mp hstarts).imp_of_mem fun ha hb hne => ?_
  exact drawn_disjoint h hlen.le hc ((mem_drawn h hlen).mp ha) ((mem_drawn h hlen).mp hb) hne

def reused : List (Event String) :=
  [.alloc 4 "procs", .alloc 12 "stat_raw", .rewind 4, .uncommit 4, .alloc 6 "next"]

theorem buildRects_pictured_reused : Pictured reused
    ([⟨1, 2, 4, 12, "stat_raw"⟩, ⟨0, 5, 0, 4, "procs"⟩, ⟨4, 5, 4, 6, "next"⟩], [(3, 4)], 12) :=
  buildRects_pictured (by simp [reused, Rising, Event.rises, Event.newOffset])
    (by decide)

end Ltop.ArenaSvg
