import Mathlib
import Ltop.StackRects

namespace Ltop.StackSvg

variable {p : Program} {entry name : String} {caller : Option String} {es es' : List Event}
  {s s' s'' : Render} {Q Q' : ℕ → Prop} {path q : List String} {left i : ℕ} {size : UInt64}

structure Peaks (s s' : Render) (Q : ℕ → Prop) : Prop where
  grows : s.peak.toNat ≤ s'.peak.toNat
  upper : ∀ h, Q h → h ≤ s'.peak.toNat
  attained : s'.peak = s.peak ∨ Q s'.peak.toNat

namespace Peaks

theorem still (hpeak : s'.peak = s.peak) (h : ∀ h, ¬ Q h) : Peaks s s' Q :=
  ⟨hpeak.symm ▸ le_rfl, fun n hn => absurd hn (h n), .inl hpeak⟩

theorem trans (h : Peaks s s' Q) (h' : Peaks s' s'' Q') : Peaks s s'' fun n => Q n ∨ Q' n := by
  refine ⟨h.grows.trans h'.grows, fun n hn => ?_, ?_⟩
  · rcases hn with hn | hn
    · exact (h.upper n hn).trans h'.grows
    · exact h'.upper n hn
  · rcases h'.attained with heq | hq
    · rw [heq]
      exact h.attained.imp_right .inl
    · exact .inr (.inr hq)

theorem congr (h : Peaks s s' Q) (hq : ∀ n, Q n ↔ Q' n) : Peaks s s' Q' :=
  ⟨h.grows, fun n hn => h.upper n ((hq n).mpr hn), h.attained.imp_right (hq _).mp⟩

end Peaks

theorem max_toNat64 (a b : UInt64) : (max a b).toNat = max a.toNat b.toNat := by
  change (if a ≤ b then b else a).toNat = _
  split
  · rename_i hle
    exact (Nat.max_eq_right (UInt64.le_iff_toNat_le.mp hle)).symm
  · rename_i hle
    exact (Nat.max_eq_left (Nat.le_of_not_le (mt UInt64.le_iff_toNat_le.mpr hle))).symm

theorem push_peaks (s : Render) (i : ℕ) (name : String) (size : UInt64) :
    Peaks s (s.step i (.push name size)) fun n => n = (s.cur.toNat + size.toNat) % 2 ^ 64 := by
  have hpeak : (s.step i (.push name size)).peak.toNat =
      max s.peak.toNat ((s.cur.toNat + size.toNat) % 2 ^ 64) := by
    rw [← UInt64.toNat_add]
    exact max_toNat64 _ _
  refine ⟨hpeak ▸ le_max_left _ _, fun n hn => hn ▸ hpeak ▸ le_max_right _ _, ?_⟩
  rcases max_choice s.peak.toNat ((s.cur.toNat + size.toNat) % 2 ^ 64) with hmax | hmax
  · exact .inl (UInt64.toNat_inj.mp (hpeak.trans hmax))
  · exact .inr (hpeak.trans hmax)

theorem pop_peak (s : Render) (i : ℕ) : (s.step i .pop).peak = s.peak := by
  rw [Render.step]
  split <;> rfl

theorem run_silent (s : Render) (i : ℕ) (h : ∀ name size, Event.push name size ∉ es) :
    (s.run i es).peak = s.peak := by
  induction es generalizing s i with
  | nil => rfl
  | cons e es ih =>
    have hstep : (s.step (i % 2 ^ 32) e).peak = s.peak := by
      cases e with
      | push name size => exact absurd List.mem_cons_self (h name size)
      | pop => exact pop_peak s _
      | inlinedPush => rfl
      | inlinedPop =>
        rw [Render.step]
        split <;> rfl
      | loop => rfl
      | unknown => rfl
    rw [Render.run, ih _ _ fun name size hmem => h name size (List.mem_cons_of_mem _ hmem), hstep]

mutual

theorem inlineTrace_silent : ∀ ic name size, Event.push name size ∉ inlineTrace ic
  | .mk _ _ _ children, name, size => by
    rw [inlineTrace]
    have hchildren := inlinesTrace_silent children name size
    split
    · simp [hchildren]
    · exact hchildren

theorem inlinesTrace_silent : ∀ ics name size, Event.push name size ∉ inlinesTrace ics
  | [], _, _ => List.not_mem_nil
  | ic :: ics, name, size => by
    rw [inlinesTrace, List.mem_append, not_or]
    exact ⟨inlineTrace_silent ic name size, inlinesTrace_silent ics name size⟩

end

namespace Program

def total (p : Program) (path : List String) : ℕ :=
  (path.map fun f => ((p.frames.stackByName f).getD 0).toNat).sum

structure Continues (p : Program) (left : ℕ) (path : List String) (name : String)
    (q : List String) : Prop where
  starts : q.head? = some name
  calls : q.IsChain fun caller callee => callee ∈ p.targets caller
  known : ∀ f ∈ q, (p.frames.stackByName f).isSome
  short : q.length ≤ left
  bounded : ∀ f ∈ q, path.count f + q.count f ≤ max (p.bound f).toNat 1

def CallPath (p : Program) (entry : String) (path : List String) : Prop :=
  p.Continues (MAX_DEPTH + 1) [] entry path

end Program

theorem continues_cons (hsize : p.frames.stackByName name = some size)
    (hroom : path.count name < max (p.bound name).toNat 1) :
    p.Continues (left + 1) path name q ↔
      q = [name] ∨ ∃ t ∈ p.targets name, ∃ q', p.Continues left (name :: path) t q' ∧ q = name :: q' := by
  constructor
  · intro h
    obtain ⟨q', rfl⟩ := List.head?_eq_some_iff.mp h.starts
    cases q' with
    | nil => exact .inl rfl
    | cons t q' =>
      obtain ⟨hcall, hcalls⟩ := List.isChain_cons_cons.mp h.calls
      refine .inr ⟨t, hcall, _, ⟨rfl, hcalls, fun f hf => h.known f (List.mem_cons_of_mem _ hf),
        Nat.le_of_succ_le_succ h.short, fun f hf => ?_⟩, rfl⟩
      have hbound := h.bounded f (List.mem_cons_of_mem _ hf)
      rw [List.count_cons] at hbound ⊢
      omega
  · rintro (rfl | ⟨t, ht, q', hq', rfl⟩)
    · refine ⟨rfl, .singleton _, fun f hf => ?_, Nat.succ_le_succ (Nat.zero_le _), fun f hf => ?_⟩
      all_goals obtain rfl := List.mem_singleton.mp hf
      · rw [hsize]
        rfl
      · rw [List.count_singleton_self]
        exact hroom
    · obtain ⟨q', rfl⟩ := List.head?_eq_some_iff.mp hq'.starts
      refine ⟨rfl, List.isChain_cons_cons.mpr ⟨ht, hq'.calls⟩, ?_, Nat.succ_le_succ hq'.short,
        fun f hf => ?_⟩
      · exact List.forall_mem_cons.mpr ⟨by rw [hsize]; rfl, hq'.known⟩
      · by_cases hmem : f ∈ t :: q'
        · have hbound := hq'.bounded f hmem
          rw [List.count_cons] at hbound
          rw [List.count_cons]
          omega
        · obtain rfl := (List.mem_cons.mp hf).resolve_right hmem
          rw [List.count_cons_self, List.count_eq_zero_of_not_mem hmem]
          exact hroom

theorem flatMap_peaks {trace : String → List Event} {R : String → ℕ → ℕ → Prop} {ts : List String}
    (hwalked : ∀ t ∈ ts, Walked p entry caller (trace t))
    (h : ∀ t ∈ ts, ∀ s i, i + (trace t).length ≤ 2 ^ 32 →
      Peaks s (s.run i (trace t)) (R t s.cur.toNat))
    (s : Render) (i : ℕ) (hlen : i + (ts.flatMap trace).length ≤ 2 ^ 32) :
    Peaks s (s.run i (ts.flatMap trace)) fun n => ∃ t ∈ ts, R t s.cur.toNat n := by
  induction ts generalizing s i with
  | nil => exact .still rfl fun n ⟨t, ht, _⟩ => absurd ht List.not_mem_nil
  | cons t ts ih =>
    obtain ⟨hfirst, hrest⟩ := List.forall_mem_cons.mp h
    obtain ⟨hwalk, hwalks⟩ := List.forall_mem_cons.mp hwalked
    rw [List.flatMap_cons, List.length_append] at hlen
    obtain ⟨rs, hrun, -⟩ := hwalk.run s i (by omega)
    have hpeaks := ih hwalks hrest (s.run i (trace t)) (i + (trace t).length) (by omega)
    rw [hrun.cur] at hpeaks
    rw [List.flatMap_cons, Render.run_append]
    exact ((hfirst s i (by omega)).trans hpeaks).congr fun n =>
      (List.exists_mem_cons_iff (fun t => R t s.cur.toNat n) t ts).symm

theorem total_cons (hsize : p.frames.stackByName name = some size) (q : List String) :
    p.total (name :: q) = size.toNat + p.total q := by
  rw [Program.total, List.map_cons, List.sum_cons, hsize]
  rfl

theorem total_singleton (hsize : p.frames.stackByName name = some size) :
    p.total [name] = size.toNat := total_cons hsize []

theorem heights_cons (hsize : p.frames.stackByName name = some size)
    (hroom : path.count name < max (p.bound name).toNat 1) (c n : ℕ) :
    (n = (c + size.toNat) % 2 ^ 64 ∨ ∃ t ∈ p.targets name, ∃ q,
        p.Continues left (name :: path) t q ∧ n = ((c + size.toNat) % 2 ^ 64 + p.total q) % 2 ^ 64) ↔
      ∃ q, p.Continues (left + 1) path name q ∧ n = (c + p.total q) % 2 ^ 64 := by
  constructor
  · rintro (hn | ⟨t, ht, q, hq, hn⟩)
    · refine ⟨[name], (continues_cons hsize hroom).mpr (.inl rfl), ?_⟩
      rw [total_singleton hsize, hn]
    · refine ⟨name :: q, (continues_cons hsize hroom).mpr (.inr ⟨t, ht, q, hq, rfl⟩), ?_⟩
      rw [total_cons hsize, hn, Nat.mod_add_mod, Nat.add_assoc]
  · rintro ⟨q, hq, hn⟩
    rcases (continues_cons hsize hroom).mp hq with rfl | ⟨t, ht, q', hq', rfl⟩
    · left
      rw [hn, total_singleton hsize]
    · right
      refine ⟨t, ht, q', hq', ?_⟩
      rw [hn, total_cons hsize, Nat.mod_add_mod, Nat.add_assoc]

theorem trace_peaks (left : ℕ) : ∀ {caller path name}, p.Calls entry caller name → ∀ s i,
    i + (p.trace left path name).length ≤ 2 ^ 32 → Peaks s (s.run i (p.trace left path name)) fun n =>
      ∃ q, p.Continues left path name q ∧ n = (s.cur.toNat + p.total q) % 2 ^ 64 := by
  induction left with
  | zero =>
    intro caller path name _ s i _
    refine .still rfl ?_
    rintro n ⟨q, hq, -⟩
    obtain rfl := List.length_eq_zero_iff.mp (Nat.le_zero.mp hq.short)
    cases hq.starts
  | succ left ih =>
    intro caller path name hcalls s i hlen
    rw [Program.trace] at hlen ⊢
    have hmem : ∀ q, p.Continues (left + 1) path name q → name ∈ q := fun q hq =>
      List.mem_of_mem_head? hq.starts
    split at hlen
    case isTrue hloop =>
      rw [if_pos hloop]
      refine .still rfl ?_
      rintro n ⟨q, hq, -⟩
      have hbound := hq.bounded name (hmem q hq)
      have hcount := List.count_pos_iff.mpr (hmem q hq)
      omega
    case isFalse hroom =>
      rw [if_neg hroom]
      have hroom := Nat.lt_of_not_le hroom
      cases hsize : p.frames.stackByName name with
      | none =>
        refine .still rfl ?_
        rintro n ⟨q, hq, -⟩
        have hknown := hq.known name (hmem q hq)
        rw [hsize] at hknown
        cases hknown
      | some size =>
        rw [hsize] at hlen
        dsimp only at hlen ⊢
        rw [← List.append_assoc] at hlen ⊢
        rw [s.run_between hlen, Render.run_append]
        rw [List.length_cons, List.length_append, List.length_append] at hlen
        have hinlines : Walked p entry (some name) (inlinesTrace (p.inlined name)) :=
          inlinesTrace_walked _
        have htargets : ∀ t ∈ p.targets name, Walked p entry (some name) (p.trace left (name :: path) t) :=
          fun t ht => trace_walked left ht
        obtain ⟨rs, hrun, -⟩ := hinlines.run (s.step i (.push name size)) (i + 1) (by omega)
        have hcur : ((s.step i (.push name size)).run (i + 1) (inlinesTrace (p.inlined name))).cur.toNat =
            (s.cur.toNat + size.toNat) % 2 ^ 64 := by
          rw [hrun.cur]
          exact UInt64.toNat_add _ _
        have hbody := flatMap_peaks (R := fun t c n =>
            ∃ q, p.Continues left (name :: path) t q ∧ n = (c + p.total q) % 2 ^ 64) htargets
          (fun t (ht : p.Calls entry (some name) t) s i hlen => ih ht s i hlen)
          ((s.step i (.push name size)).run (i + 1) (inlinesTrace (p.inlined name)))
          (i + 1 + (inlinesTrace (p.inlined name)).length) (by omega)
        rw [hcur] at hbody
        have hstill : Peaks (s.step i (.push name size))
            ((s.step i (.push name size)).run (i + 1) (inlinesTrace (p.inlined name))) fun _ => False :=
          .still (run_silent _ _ (inlinesTrace_silent _)) fun _ h => h
        have hpop : ∀ s' j, Peaks s' (Render.step s' j .pop) fun _ => False := fun s' j =>
          .still (pop_peak s' j) fun _ h => h
        refine ((((push_peaks s i name size).trans hstill).trans hbody).trans (hpop _ _)).congr fun n => ?_
        rw [← heights_cons hsize hroom, or_false, or_false]

structure Measured (p : Program) (entry : String) (events : List Event) : Prop where
  bracketed : WellBracketed events
  upper : ∀ path, p.CallPath entry path → p.total path % 2 ^ 64 ≤ (buildRects events).2.2.toNat
  attained : (∃ path, p.CallPath entry path ∧
      (buildRects events).2.2.toNat = p.total path % 2 ^ 64) ∨
    (∀ path, ¬ p.CallPath entry path) ∧ (buildRects events).2.2 = 0
  stacked : Tower p entry none 0 0 events (buildRects events).1

theorem trace_measured (hlen : (p.trace (MAX_DEPTH + 1) [] entry).length ≤ 2 ^ 32) :
    Measured p entry (p.trace (MAX_DEPTH + 1) [] entry) := by
  have hwalked : Walked p entry none (p.trace (MAX_DEPTH + 1) [] entry) := trace_walked _ rfl
  have hbase : 0 + (p.trace (MAX_DEPTH + 1) [] entry).length ≤ 2 ^ 32 := by rwa [Nat.zero_add]
  obtain ⟨rs, hrun, htower⟩ := hwalked.run Render.empty 0 hbase
  have hcalls : p.Calls entry none entry := rfl
  have hpeaks : Peaks Render.empty (Render.empty.run 0 (p.trace (MAX_DEPTH + 1) [] entry)) fun n =>
      ∃ q, p.CallPath entry q ∧ n = (0 + p.total q) % 2 ^ 64 :=
    trace_peaks (MAX_DEPTH + 1) hcalls Render.empty 0 hbase
  simp only [Nat.zero_add] at hpeaks
  have hrects : (buildRects (p.trace (MAX_DEPTH + 1) [] entry)).1 = rs := by
    rw [buildRects, hrun.rects, hrun.openReal, hrun.openInlined]
    simp [Render.empty]
  have hupper : ∀ path, p.CallPath entry path → p.total path % 2 ^ 64 ≤
      (buildRects (p.trace (MAX_DEPTH + 1) [] entry)).2.2.toNat := fun path hpath =>
    hpeaks.upper _ ⟨path, hpath, rfl⟩
  refine ⟨hwalked.wellBracketed, hupper, ?_, hrects ▸ htower⟩
  rcases hpeaks.attained with hzero | hpath
  · by_cases hsome : ∃ path, p.CallPath entry path
    · obtain ⟨path, hpath⟩ := hsome
      have hle := hupper path hpath
      have hpeak : (buildRects (p.trace (MAX_DEPTH + 1) [] entry)).2.2.toNat = 0 :=
        congrArg UInt64.toNat hzero
      exact .inl ⟨path, hpath, by omega⟩
    · exact .inr ⟨not_exists.mp hsome, hzero⟩
  · exact .inl hpath

theorem walk_measured (p : Program) (entry : String) : ∃ events, p.walk entry = .some events ∧
    (events.length < MAX_EVENTS → Measured p entry events) := by
  obtain ⟨events, hwalk, htrace⟩ := p.walk_traces entry
  refine ⟨events, hwalk, fun hlt => ?_⟩
  have heq := htrace hlt
  rw [heq] at hlt ⊢
  exact trace_measured (hlt.le.trans (by decide))

def unrolled : Program where
  calls name := if name = "main" then some ["sift", "memcpy"] else some ["sift"]
  frames := ⟨fun name => if name = "memcpy" then none else some 32, fun _ => none⟩
  bounds := ⟨fun _ => some 2, 0⟩
  inlines := ⟨fun _ => none⟩

theorem walk_measured_unrolled : Measured unrolled "main" [.push "main" 32, .push "sift" 32,
    .push "sift" 32, .loop "sift", .pop, .pop, .unknown "memcpy", .pop] := by
  obtain ⟨events, hwalk, hmeasured⟩ := walk_measured unrolled "main"
  obtain rfl := Outcome.some.inj (hwalk.symm.trans (by rfl))
  exact hmeasured (by decide)

def wrapped : Program where
  calls name := if name = "main" then some ["leaf"] else none
  frames := ⟨fun _ => some 0x8000000000000000, fun _ => none⟩
  bounds := ⟨fun _ => none, 0⟩
  inlines := ⟨fun _ => none⟩

def wrappedEvents : List Event :=
  [.push "main" 0x8000000000000000, .push "leaf" 0x8000000000000000, .pop, .pop]

theorem wrapped_underreported : wrapped.walk "main" = .some wrappedEvents ∧
    wrappedEvents.length < MAX_EVENTS ∧ wrapped.CallPath "main" ["main", "leaf"] ∧
      (buildRects wrappedEvents).2.2.toNat < wrapped.total ["main", "leaf"] := by
  refine ⟨by rfl, by decide, ⟨rfl, ?_, ?_, by decide, ?_⟩, by decide⟩
  all_goals decide

end Ltop.StackSvg
