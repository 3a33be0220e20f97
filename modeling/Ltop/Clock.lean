import Mathlib
import Ltop.Traverse

namespace Ltop

open Rounding (f32 f64)

variable {os : Os}

def nowEpoch (wall : ℚ) : ℕ := ⌊wall⌋₊

def bootTime (launch uptime : ℚ) : ℕ := nowEpoch launch - ⌊uptime⌋₊

def startField (clockTicks : ℕ) (sinceBoot : ℚ) : ℕ := ⌊sinceBoot * clockTicks⌋₊

def ageSecs (wallNow boot starttime clockTicks : ℕ) : UInt32 :=
  let startEpoch := boot + starttime / clockTicks
  (wallNow - startEpoch).toUInt32

def percent (delta ticksPerSec dt : ℚ) : ℚ := f32 (f64 (f64 (f64 (delta / ticksPerSec) / dt) * 100))

def computeCpu (prevEntry : Option (Packed os)) (ageSecs : UInt32) (total : UInt64)
    (ticksPerSec dt : ℚ) : ℚ :=
  if dt ≤ 1 / 100 ∨ (ageSecs.toNat : ℚ) < dt then 0
  else (prevEntry.map fun p =>
    let newBits := Word.payload (total >>> Packed.shift os).toUInt32
    let deltaBits := Word.payload (newBits - p.cpuBits)
    let delta := f64 ((deltaBits.toNat : ℚ) * ((1 <<< (Packed.shift os).toNat : ℕ) : ℚ))
    percent delta ticksPerSec dt).getD 0

def freezePrev (next : List (UInt32 × Packed os)) : Option (Map (Packed os)) :=
  let sorted := Sort.sortByU32Key (·.1) next
  if h : sorted.Pairwise (fun a b => a.1 < b.1) then some ⟨sorted, h⟩ else none

def tickPrev (procs : List (ProcInfo os)) (prev : Map (Packed os))
    (next : List (UInt32 × Packed os)) : Option (Map (Packed os)) :=
  (filterWithChildren procs prev next).bind fun kept => freezePrev kept.2

theorem setVisible_cpuBits (p : Packed os) : p.setVisible.cpuBits = p.cpuBits :=
  Word.payload_setFlag true p.word

theorem retain_next (rows : List (ProcInfo os)) (s : ℕ × List (UInt32 × Packed os)) :
    (FVec.retain retainStep s rows).1.2.map (fun e => (e.1, e.2.cpuBits)) =
      s.2.map fun e => (e.1, e.2.cpuBits) := by
  induction rows generalizing s with
  | nil => rfl
  | cons p rows ih =>
    have hstep : (retainStep s p).1.2.map (fun e => (e.1, e.2.cpuBits)) =
        s.2.map fun e => (e.1, e.2.cpuBits) := by
      simp only [retainStep]
      split
      · apply List.ext_getElem?
        intro i
        simp only [List.getElem?_map, List.getElem?_modify]
        cases s.2[i]? with
        | none => rfl
        | some e =>
          simp only [Option.map_eq_map, Option.map_some]
          split <;> simp [setVisible_cpuBits]
      · rfl
    rw [← hstep, ← ih (retainStep s p).1]
    simp only [FVec.retain]
    obtain ⟨s', x', b⟩ := retainStep s p
    cases b <;> rfl

theorem filterWithChildren_next {procs out : List (ProcInfo os)} {prev : Map (Packed os)}
    {next next' : List (UInt32 × Packed os)}
    (h : filterWithChildren procs prev next = some (out, next')) :
    next'.map (fun e => (e.1, e.2.cpuBits)) = next.map fun e => (e.1, e.2.cpuBits) := by
  obtain ⟨s, _, hs⟩ := Option.map_eq_some_iff.mp h
  obtain ⟨_, rfl⟩ := Prod.mk.inj hs
  exact retain_next (List.ofFn s.procs) (0, next)

theorem freezePrev_get {next : List (UInt32 × Packed os)} {prev : Map (Packed os)}
    (h : freezePrev next = some prev) (pid : UInt32) (e : Packed os) :
    prev.get pid = some e ↔ (pid, e) ∈ next := by
  unfold freezePrev at h
  dsimp only at h
  split at h
  · obtain rfl := Option.some.inj h
    rw [Map.get_eq_some]
    exact (Sort.sortByU32Key_spec (fun e : UInt32 × Packed os => e.1) next).1.mem_iff
  · cases h

theorem freezePrev_total {next : List (UInt32 × Packed os)} (hd : (next.map (·.1)).Nodup) :
    ∃ prev, freezePrev next = some prev := by
  obtain ⟨hp, hs⟩ := Sort.sortByU32Key_spec (fun e : UInt32 × Packed os => e.1) next
  have hnd := List.pairwise_map.mp ((hp.map (·.1)).nodup_iff.mpr hd)
  have hlt := hs.imp₂ (fun a b hle hne => UInt32.lt_of_le_of_ne hle hne) hnd
  exact ⟨_, dif_pos hlt⟩

theorem tickPrev_total {procs : List (ProcInfo os)} (hd : Distinct procs.get)
    (prev : Map (Packed os)) {next : List (UInt32 × Packed os)} (hn : (next.map (·.1)).Nodup) :
    ∃ prev', tickPrev procs prev next = some prev' := by
  obtain ⟨kept, rows, next', hrun, _⟩ := filterWithChildren_filtered procs hd prev next
  have hpids : next'.map (·.1) = next.map (·.1) := by
    have h := congrArg (List.map (·.1)) (filterWithChildren_next hrun)
    rw [List.map_map, List.map_map] at h
    exact h
  have hnext' : (next'.map (·.1)).Nodup := by rwa [hpids]
  obtain ⟨prev', hfreeze⟩ := freezePrev_total hnext'
  exact ⟨prev', by rw [tickPrev, hrun]; exact hfreeze⟩

theorem tickPrev_get {procs : List (ProcInfo os)} {prev prev' : Map (Packed os)}
    {next : List (UInt32 × Packed os)} (h : tickPrev procs prev next = some prev') (pid bits : UInt32) :
    (∃ e, prev'.get pid = some e ∧ e.cpuBits = bits) ↔ ∃ e, (pid, e) ∈ next ∧ e.cpuBits = bits := by
  obtain ⟨⟨out, next'⟩, hrun, hfreeze⟩ := Option.bind_eq_some_iff.mp h
  have hbits : ∀ l : List (UInt32 × Packed os),
      (∃ e, (pid, e) ∈ l ∧ e.cpuBits = bits) ↔ (pid, bits) ∈ l.map fun e => (e.1, e.2.cpuBits) := by
    intro l
    simp [Prod.exists]
  simp only [freezePrev_get hfreeze]
  rw [hbits, hbits, filterWithChildren_next hrun]

theorem payload_toNat (w : UInt32) : (Word.payload w).toNat = w.toNat % 2 ^ 31 := by
  rw [Word.payload, UInt32.toNat_and, show (~~~Word.FLAG).toNat = 2 ^ 31 - 1 by decide,
    Nat.and_two_pow_sub_one_eq_mod]

theorem delta_eq_zero (a b : UInt32) :
    Word.payload (Word.payload a - Word.payload b) = 0 ↔ Word.payload a = Word.payload b := by
  rw [← UInt32.toNat_inj, ← UInt32.toNat_inj, payload_toNat (Word.payload a - Word.payload b),
    UInt32.toNat_sub, payload_toNat, payload_toNat, UInt32.toNat_zero]
  have := a.toNat_lt
  have := b.toNat_lt
  omega

theorem percent_eq_zero {delta ticksPerSec dt : ℚ} (hticks : 0 < ticksPerSec) (hdt : 0 < dt) :
    percent delta ticksPerSec dt = 0 ↔ delta = 0 := by
  simp [percent, hticks.ne', hdt.ne']

theorem computeCpu_eq_zero {prevEntry : Option (Packed os)} {age : UInt32} {total : UInt64}
    {ticksPerSec dt : ℚ} (hticks : 0 < ticksPerSec) :
    computeCpu prevEntry age total ticksPerSec dt = 0 ↔
      dt ≤ 1 / 100 ∨ (age.toNat : ℚ) < dt ∨ ∀ p ∈ prevEntry,
        Word.payload (total >>> Packed.shift os).toUInt32 = p.cpuBits := by
  unfold computeCpu
  split
  · rename_i h
    exact iff_of_true rfl (h.elim .inl fun h => .inr (.inl h))
  · rename_i h
    obtain ⟨hdt, hage⟩ := not_or.mp h
    have hpos : 0 < dt := lt_trans (by norm_num) (not_le.mp hdt)
    simp only [hdt, hage, false_or]
    cases prevEntry with
    | none => simp
    | some p =>
      have hshift : (1 <<< (Packed.shift os).toNat : ℕ) ≠ 0 := by cases os <;> decide
      have hbits := delta_eq_zero (total >>> Packed.shift os).toUInt32 p.word
      simp only [Option.map_some, Option.getD_some, Option.mem_def, Option.some.injEq,
        forall_eq', Packed.cpuBits, ← hbits]
      simp [percent_eq_zero hticks hpos, hshift, ← UInt32.toNat_inj]

structure Timeline where
  boot : ℚ
  launch : ℚ
  first : ℚ
  second : ℚ
  wall : ℚ
  clockTicks : ℕ
  boot_nonneg : 0 ≤ boot
  boot_le : boot ≤ launch
  launch_le : launch ≤ first
  first_le : first ≤ second
  second_le : second ≤ wall
  ticks_pos : 0 < clockTicks

namespace Timeline

variable (t : Timeline)

def dt : ℚ := t.second - t.first

def bootEpoch : ℕ := bootTime t.launch (t.launch - t.boot)

def age (start : ℚ) : UInt32 :=
  ageSecs (nowEpoch t.wall) t.bootEpoch (startField t.clockTicks (start - t.boot)) t.clockTicks

def wholeAge (start : ℚ) : ℕ :=
  (⌊t.wall⌋₊ + ⌊t.launch - t.boot⌋₊) - (⌊t.launch⌋₊ + ⌊start - t.boot⌋₊)

theorem startField_div (start : ℚ) :
    startField t.clockTicks (start - t.boot) / t.clockTicks = ⌊start - t.boot⌋₊ := by
  have hticks : (t.clockTicks : ℚ) ≠ 0 := by exact_mod_cast t.ticks_pos.ne'
  rw [startField, ← Nat.floor_div_natCast, mul_div_cancel_right₀ _ hticks]

theorem age_toNat (start : ℚ) : (t.age start).toNat = t.wholeAge start % 2 ^ 32 := by
  have huptime : ⌊t.launch - t.boot⌋₊ ≤ ⌊t.launch⌋₊ :=
    Nat.floor_le_floor (sub_le_self _ t.boot_nonneg)
  unfold age ageSecs
  dsimp only
  rw [startField_div, bootEpoch, bootTime, nowEpoch, nowEpoch, wholeAge]
  rw [show ⌊t.wall⌋₊ - (⌊t.launch⌋₊ - ⌊t.launch - t.boot⌋₊ + ⌊start - t.boot⌋₊) =
    ⌊t.wall⌋₊ + ⌊t.launch - t.boot⌋₊ - (⌊t.launch⌋₊ + ⌊start - t.boot⌋₊) by omega]
  exact UInt32.toNat_ofNat'

theorem wholeAge_near {start : ℚ} (hb : t.boot ≤ start) :
    (t.wholeAge start : ℚ) < max (t.wall - start + 2) 1 ∧
      t.wall - start - 2 < t.wholeAge start := by
  have hwall : 0 ≤ t.wall := t.boot_nonneg.trans
    (t.boot_le.trans (t.launch_le.trans (t.first_le.trans t.second_le)))
  have hw := Nat.floor_le hwall
  have hw' := Nat.lt_floor_add_one t.wall
  have hl := Nat.floor_le (t.boot_nonneg.trans t.boot_le)
  have hl' := Nat.lt_floor_add_one t.launch
  have hu := Nat.floor_le (sub_nonneg.mpr t.boot_le)
  have hu' := Nat.lt_floor_add_one (t.launch - t.boot)
  have hs := Nat.floor_le (sub_nonneg.mpr hb)
  have hs' := Nat.lt_floor_add_one (start - t.boot)
  unfold wholeAge
  rcases Nat.le_total (⌊t.launch⌋₊ + ⌊start - t.boot⌋₊) (⌊t.wall⌋₊ + ⌊t.launch - t.boot⌋₊) with h | h
  · rw [Nat.cast_sub h]
    push_cast
    exact ⟨lt_max_of_lt_left (by linarith), by linarith⟩
  · have hcast : ((⌊t.wall⌋₊ + ⌊t.launch - t.boot⌋₊ : ℕ) : ℚ) ≤
        (⌊t.launch⌋₊ + ⌊start - t.boot⌋₊ : ℕ) := by exact_mod_cast h
    push_cast at hcast
    rw [Nat.sub_eq_zero_of_le h, Nat.cast_zero]
    exact ⟨lt_max_of_lt_right one_pos, by linarith⟩

end Timeline

structure Reading (P : Type) where
  pid : UInt32
  stat : Option (P × UInt64)

variable {P : Type} (start : P → ℚ)

def Reading.counter (r : Reading P) : UInt64 := (r.stat.map (·.2)).getD 0

def readNext (r : Reading P) : UInt32 × Packed .linux := (r.pid, .pack false r.counter)

def sampledCpu (t : Timeline) (prev : Map (Packed .linux)) (r : Reading P) : ℚ :=
  match r.stat with
  | none => 0
  | some (p, total) =>
    computeCpu (prev.get r.pid) (t.age (start p)) total t.clockTicks t.dt

def Unread (sample : List (Reading P)) (p : P) : Prop :=
  ∀ r ∈ sample, ∀ total, r.stat ≠ some (p, total)

def NewcomersIdle (t : Timeline) (prev : Map (Packed .linux)) (first second : List (Reading P)) :
    Prop :=
  ∀ r ∈ second, ∀ p total, r.stat = some (p, total) → Unread first p →
    sampledCpu start t prev r = 0

def window (total : UInt64) : ℕ := total.toNat / 2 % 2 ^ 31

def Caught (t : Timeline) (first : List (Reading P)) (pid : UInt32) (p : P) (total : UInt64) :
    Prop :=
  t.dt ≤ 1 / 100 ∨ ((t.wholeAge (start p) % 2 ^ 32 : ℕ) : ℚ) < t.dt ∨
    ∀ r ∈ first, r.pid = pid → window r.counter = window total

theorem bits_window (total : UInt64) :
    (Word.payload (total >>> Packed.shift .linux).toUInt32).toNat = window total := by
  rw [payload_toNat, UInt64.toNat_toUInt32, UInt64.toNat_shiftRight,
    show (Packed.shift .linux).toNat % 64 = 1 by decide, Nat.shiftRight_eq_div_pow, window]
  omega

theorem pack_cpuBits (visible : Bool) (total : UInt64) :
    (Packed.pack visible total : Packed os).cpuBits =
      Word.payload (total >>> Packed.shift os).toUInt32 := by
  rw [Packed.cpuBits, Packed.pack_eq, Word.payload_setFlag]

theorem stored_bits {procs : List (ProcInfo .linux)} {prev prev' : Map (Packed .linux)}
    {first : List (Reading P)} (h : tickPrev procs prev (first.map readNext) = some prev')
    (pid : UInt32) (total : UInt64) :
    (∀ e ∈ prev'.get pid, Word.payload (total >>> Packed.shift .linux).toUInt32 = e.cpuBits) ↔
      ∀ r ∈ first, r.pid = pid → window r.counter = window total := by
  have hbits : ∀ bits, (∃ e, (pid, e) ∈ first.map readNext ∧ e.cpuBits = bits) ↔
      ∃ r ∈ first, r.pid = pid ∧ Word.payload (r.counter >>> Packed.shift .linux).toUInt32 = bits := by
    intro bits
    simp only [List.mem_map, readNext, Prod.mk.injEq]
    constructor
    · rintro ⟨_, ⟨r, hr, hpid, rfl⟩, hb⟩
      exact ⟨r, hr, hpid, by rwa [pack_cpuBits] at hb⟩
    · rintro ⟨r, hr, hpid, hb⟩
      exact ⟨_, ⟨r, hr, hpid, rfl⟩, by rwa [pack_cpuBits]⟩
  constructor
  · intro hall r hr hpid
    obtain ⟨e, he, hb⟩ := (tickPrev_get h pid _).mpr ((hbits _).mpr ⟨r, hr, hpid, rfl⟩)
    rw [← bits_window, ← bits_window, hall e he, hb]
  · intro hall e he
    obtain ⟨r, hr, hpid, hb⟩ := (hbits _).mp ((tickPrev_get h pid _).mp ⟨e, he, rfl⟩)
    rw [← hb, ← UInt32.toNat_inj, bits_window, bits_window, hall r hr hpid]

theorem sampledCpu_eq_zero {t : Timeline} {procs : List (ProcInfo .linux)}
    {prev prev' : Map (Packed .linux)} {first : List (Reading P)}
    (h : tickPrev procs prev (first.map readNext) = some prev') {r : Reading P} {p : P}
    {total : UInt64} (hr : r.stat = some (p, total)) :
    sampledCpu start t prev' r = 0 ↔ Caught start t first r.pid p total := by
  have hticks : (0 : ℚ) < t.clockTicks := by exact_mod_cast t.ticks_pos
  simp only [sampledCpu, hr]
  rw [computeCpu_eq_zero hticks, t.age_toNat, stored_bits h, Caught]

theorem newcomers_idle_iff (t : Timeline) (first second : List (Reading P))
    (hfirst : (first.map (·.pid)).Nodup) (procs : List (ProcInfo .linux))
    (hd : Distinct procs.get) (prev : Map (Packed .linux)) :
    ∃ prev', tickPrev procs prev (first.map readNext) = some prev' ∧
      (NewcomersIdle start t prev' first second ↔
        ∀ r ∈ second, ∀ p total, r.stat = some (p, total) → Unread first p →
          Caught start t first r.pid p total) := by
  have hnext : ((first.map readNext).map (·.1)).Nodup := by
    rw [List.map_map]
    exact hfirst
  obtain ⟨prev', hprev⟩ := tickPrev_total hd prev hnext
  refine ⟨prev', hprev, ?_⟩
  unfold NewcomersIdle
  refine forall₂_congr fun r _ => forall₂_congr fun p total => ?_
  refine forall₂_congr fun hr _ => sampledCpu_eq_zero start hprev hr

def phase : Timeline where
  boot := 0
  launch := 10
  first := 101 / 2
  second := 105 / 2
  wall := 105 / 2
  clockTicks := 100
  boot_nonneg := by norm_num
  boot_le := by norm_num
  launch_le := by norm_num
  first_le := by norm_num
  second_le := by norm_num
  ticks_pos := by norm_num

def births (p : Fin 2) : ℚ := if p = 0 then 1 else 253 / 5

def shellRows : List (ProcInfo .linux) := [procInfo 7 1 0 false (bytes "sh")]

def owned : List (Reading (Fin 2)) := [⟨7, some (0, 1000)⟩]

def unread : List (Reading (Fin 2)) := [⟨7, none⟩]

def reused : List (Reading (Fin 2)) := [⟨7, some (1, 3)⟩]

theorem newcomers_idle_iff_phase :
    ∃ prev, tickPrev shellRows .empty (owned.map readNext) = some prev ∧
      (NewcomersIdle births phase prev owned reused ↔
        ∀ r ∈ reused, ∀ p total, r.stat = some (p, total) → Unread owned p →
          Caught births phase owned r.pid p total) :=
  newcomers_idle_iff births phase owned reused (by decide) shellRows (by decide) .empty

theorem reused_pid_busy :
    (∃ prev, tickPrev shellRows .empty (owned.map readNext) = some prev ∧
      phase.first < births 1 ∧ births 1 < phase.second ∧ Unread owned 1 ∧
      ¬ NewcomersIdle births phase prev owned reused) ∧
    ∃ prev, tickPrev shellRows .empty (unread.map readNext) = some prev ∧ Unread unread 0 ∧
      ¬ NewcomersIdle births phase prev unread owned := by
  have hrows : Distinct shellRows.get := by decide
  have hdt : ¬ phase.dt ≤ 1 / 100 := by decide +kernel
  have hreused : ¬ ((phase.wholeAge (births 1) % 2 ^ 32 : ℕ) : ℚ) < phase.dt := by decide +kernel
  have hold : ¬ ((phase.wholeAge (births 0) % 2 ^ 32 : ℕ) : ℚ) < phase.dt := by decide +kernel
  have howned : Unread owned 1 := by
    rintro r (_ | ⟨_, ⟨⟩⟩) total
    simp
  have hunread : Unread unread 0 := by
    rintro r (_ | ⟨_, ⟨⟩⟩) total
    simp
  constructor
  · obtain ⟨prev, hprev⟩ := tickPrev_total hrows .empty
      (show ((owned.map readNext).map (·.1)).Nodup by decide)
    refine ⟨prev, hprev, by decide +kernel, by decide +kernel, howned, fun hidle => ?_⟩
    have hcaught := (sampledCpu_eq_zero births hprev (r := ⟨7, some (1, 3)⟩) rfl).mp
      (hidle ⟨7, some (1, 3)⟩ (.head _) 1 3 rfl howned)
    rcases hcaught with h | h | h
    · exact hdt h
    · exact hreused h
    · exact absurd (h ⟨7, some (0, 1000)⟩ (.head _) rfl) (by decide)
  · obtain ⟨prev, hprev⟩ := tickPrev_total hrows .empty
      (show ((unread.map readNext).map (·.1)).Nodup by decide)
    refine ⟨prev, hprev, hunread, fun hidle => ?_⟩
    have hcaught := (sampledCpu_eq_zero births hprev (r := ⟨7, some (0, 1000)⟩) rfl).mp
      (hidle ⟨7, some (0, 1000)⟩ (.head _) 0 1000 rfl hunread)
    rcases hcaught with h | h | h
    · exact hdt h
    · exact hold h
    · exact absurd (h ⟨7, none⟩ (.head _) rfl) (by decide)

end Ltop
