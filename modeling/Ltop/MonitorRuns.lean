import Mathlib
import Ltop.Delta
import Ltop.Monitor
import Ltop.Library.Trigger

namespace Ltop

open Chain
open Rounding (Within)

variable {prev prev' : Map (Packed .linux)} {t : Tick} {rows : List (ProcInfo .linux)}
  {pid : UInt32}

theorem displayed_iff : displayed rows pid = true ↔ ∃ row ∈ rows, row.pid = pid := by
  simp [displayed]

section Credit

def cpuAt (t : Tick) (prev : Map (Packed .linux)) (pid : UInt32) : ℚ :=
  ((t.scan prev).find? fun p => p.pid == pid).elim 0 (·.cpu)

def credited (pid : UInt32) (prev : Map (Packed .linux)) : List Tick → Option ℚ
  | [] => some 0
  | t :: ts => do
    let (_, next) ← t.step prev
    let later ← credited pid next ts
    some (cpuAt t prev pid / 100 * t.dt * CLOCK_TICKS + later)

inductive Followed (pid : UInt32) : UInt64 → List Tick → UInt64 → Prop
  | nil {total : UInt64} : Followed pid total [] total
  | cons {t : Tick} {ts : List Tick} {p : Sample} {st : Parsed} {total last : UInt64}
      (hp : p ∈ t.samples) (hpid : p.pid = pid) (hst : p.parsed = some st)
      (hdt : ¬ t.dt ≤ 1 / 100) (hage : ¬ (st.ageSecs.toNat : ℚ) < t.dt)
      (hle : total ≤ st.totalTicks) (hwin : st.totalTicks.toNat / 2 - total.toNat / 2 < 2 ^ 31)
      (hrest : Followed pid st.totalTicks ts last) : Followed pid total (t :: ts) last

theorem cpuAt_eq {p : Sample} (hp : p ∈ t.samples) : cpuAt t prev p.pid = p.cpu prev t.dt := by
  have hnodup : ((t.scan prev).map (·.pid)).Nodup := by
    rw [Tick.scan, List.map_map]
    exact t.distinct
  have hmem : p.scanned prev t.dt ∈ t.scan prev := List.mem_map_of_mem hp
  have hfind : (t.scan prev).find? (fun q => q.pid == p.pid) = some (p.scanned prev t.dt) := by
    cases hq : (t.scan prev).find? fun q => q.pid == p.pid with
    | none => exact absurd (beq_self_eq_true p.pid) (List.find?_eq_none.mp hq _ hmem)
    | some q =>
      have hpid : q.pid = p.pid := by simpa using List.find?_some hq
      rw [List.inj_on_of_nodup_map hnodup (List.mem_of_find?_eq_some hq) hmem hpid]
  rw [cpuAt, hfind]
  rfl

theorem cpuAt_stored {p : Sample} {st : Parsed} {e : Packed .linux} {total : UInt64}
    (hp : p ∈ t.samples) (hst : p.parsed = some st) (he : prev.get p.pid = some e)
    (hbits : e.cpuBits = Word.payload (total >>> Packed.shift .linux).toUInt32)
    (hdt : ¬ t.dt ≤ 1 / 100) (hage : ¬ (st.ageSecs.toNat : ℚ) < t.dt) (hle : total ≤ st.totalTicks)
    (hwin : st.totalTicks.toNat / 2 - total.toNat / 2 < 2 ^ 31) :
    Within (1 / 2 ^ 23) (cpuAt t prev p.pid / 100 * t.dt * CLOCK_TICKS)
      (((st.totalTicks.toNat / 2 - total.toNat / 2 : ℕ) : ℚ) * 2) := by
  have hpos : 0 < t.dt := lt_trans (by norm_num) (not_le.mp hdt)
  have hdelta := cpuDelta_eq st.totalTicks hbits hle hwin
  have hcpu : cpuAt t prev p.pid = percent (cpuDelta e st.totalTicks) CLOCK_TICKS t.dt := by
    rw [cpuAt_eq hp, Sample.cpu, hst]
    dsimp only
    rw [Map.search_eq, he, computeCpu_delta e st.totalTicks CLOCK_TICKS hdt hage]
  have hback : (cpuDelta e st.totalTicks : ℚ) / CLOCK_TICKS / t.dt * 100 / 100 * t.dt * CLOCK_TICKS =
      ((st.totalTicks.toNat / 2 - total.toNat / 2 : ℕ) : ℚ) * 2 := by
    rw [hdelta, show Packed.shiftWidth .linux = 1 from rfl, pow_one, Nat.cast_mul, CLOCK_TICKS]
    field_simp
    norm_num
  rw [hcpu, ← hback]
  exact (((percent_within _ CLOCK_TICKS t.dt).div 100).mul t.dt).mul CLOCK_TICKS

theorem credited_followed {ts : List Tick} {total last : UInt64} {e : Packed .linux}
    (hf : Followed pid total ts last) (he : prev.get pid = some e)
    (hbits : e.cpuBits = Word.payload (total >>> Packed.shift .linux).toUInt32) :
    ∃ sum, credited pid prev ts = some sum ∧
      Within (1 / 2 ^ 23) sum (((last.toNat / 2 - total.toNat / 2 : ℕ) : ℚ) * 2) ∧ total ≤ last := by
  induction hf generalizing prev e with
  | nil => exact ⟨0, rfl, by simp [Within], UInt64.le_refl _⟩
  | @cons t ts p st total last hp hpid hst hdt hage hle hwin _ ih =>
    subst hpid
    obtain ⟨rows, next, hstep, hticked⟩ := step_ticked prev t
    obtain ⟨e', he', hbits', -⟩ := hticked.found p hp
    have hcounter : p.counter = st.totalTicks := by rw [Sample.counter, hst]; rfl
    rw [hcounter] at hbits'
    obtain ⟨later, hlater, hnear, hmono⟩ := ih he' hbits'
    refine ⟨cpuAt t prev p.pid / 100 * t.dt * CLOCK_TICKS + later, ?_, ?_, UInt64.le_trans hle hmono⟩
    · rw [credited, hstep]
      simp only [Option.bind_eq_bind, Option.bind_some, hlater]
    · have hdiv := Nat.div_le_div_right (c := 2) (UInt64.le_iff_toNat_le.mp hle)
      have hdiv' := Nat.div_le_div_right (c := 2) (UInt64.le_iff_toNat_le.mp hmono)
      have hnow := cpuAt_stored hp hst he hbits hdt hage hle hwin
      have hsplit : last.toNat / 2 - total.toNat / 2 =
          (st.totalTicks.toNat / 2 - total.toNat / 2) + (last.toNat / 2 - st.totalTicks.toNat / 2) := by
        omega
      rw [hsplit, Nat.cast_add, add_mul]
      exact hnow.add hnear (by positivity) (by positivity)

theorem credited_telescopes {ts : List Tick} {p : Sample} {st : Parsed} {last : UInt64}
    (hstep : t.step prev = some (rows, prev')) (hp : p ∈ t.samples) (hst : p.parsed = some st)
    (hf : Followed p.pid st.totalTicks ts last) :
    ∃ total, credited p.pid prev' ts = some total ∧
      Within (1 / 2 ^ 23) total (((last.toNat / 2 - st.totalTicks.toNat / 2 : ℕ) : ℚ) * 2) ∧
      |total - (last.toNat - st.totalTicks.toNat : ℚ)| <
        2 + ((last.toNat / 2 - st.totalTicks.toNat / 2 : ℕ) : ℚ) / 2 ^ 22 := by
  obtain ⟨e, he, hbits, -⟩ := (Ticked.of_step hstep).found p hp
  have hcounter : p.counter = st.totalTicks := by rw [Sample.counter, hst]; rfl
  rw [hcounter] at hbits
  obtain ⟨total, hrun, hnear, hle⟩ := credited_followed hf he hbits
  refine ⟨total, hrun, hnear, ?_⟩
  have hscaled := scaled_near (w := 2) (by norm_num) (UInt64.le_iff_toNat_le.mp hle)
  have hcast : ((last.toNat - st.totalTicks.toNat : ℕ) : ℚ) =
      last.toNat - st.totalTicks.toNat := Nat.cast_sub (UInt64.le_iff_toNat_le.mp hle)
  have hgrowth : |((last.toNat / 2 - st.totalTicks.toNat / 2 : ℕ) : ℚ) * 2 -
      (last.toNat - st.totalTicks.toNat : ℚ)| < 2 := by
    rw [← hcast]
    exact_mod_cast hscaled
  rw [Within, abs_of_nonneg (by positivity : (0 : ℚ) ≤
    ((last.toNat / 2 - st.totalTicks.toNat / 2 : ℕ) : ℚ) * 2)] at hnear
  calc |total - (last.toNat - st.totalTicks.toNat : ℚ)|
      ≤ |total - ((last.toNat / 2 - st.totalTicks.toNat / 2 : ℕ) : ℚ) * 2| +
        |((last.toNat / 2 - st.totalTicks.toNat / 2 : ℕ) : ℚ) * 2 -
          (last.toNat - st.totalTicks.toNat : ℚ)| := abs_sub_le _ _ _
    _ < 1 / 2 ^ 23 * (((last.toNat / 2 - st.totalTicks.toNat / 2 : ℕ) : ℚ) * 2) + 2 :=
        add_lt_add_of_le_of_lt hnear hgrowth
    _ = 2 + ((last.toNat / 2 - st.totalTicks.toNat / 2 : ℕ) : ℚ) / 2 ^ 22 := by ring

theorem shell_short : (bytes "zsh").length ≤ 15 := by decide

def shellStat (totalTicks : UInt64) : Parsed := statLine 1 totalTicks (bytes "zsh") shell_short

def shellTick (dt : ℚ) (totalTicks : UInt64) : Tick :=
  ⟨dt, [⟨10, some (shellStat totalTicks), []⟩], .empty, List.nodup_singleton 10⟩

theorem shell_followed : Followed 10 100 [shellTick 2 700, shellTick 2 1001] 1001 := by
  have hage : ∀ n, ¬ ((shellStat n).ageSecs.toNat : ℚ) < 2 := fun n => by
    rw [show (shellStat n).ageSecs.toNat = 60 from rfl]
    norm_num
  have hdt : ¬ (2 : ℚ) ≤ 1 / 100 := by norm_num
  exact .cons (.head _) rfl rfl hdt (hage 700) (by decide) (by decide)
    (.cons (.head _) rfl rfl hdt (hage 1001) (by decide) (by decide) .nil)

theorem credited_telescopes_shell : ∃ prev total,
    credited 10 prev [shellTick 2 700, shellTick 2 1001] = some total ∧
      Within (1 / 2 ^ 23) total
        ((((1001 : UInt64).toNat / 2 - (shellStat 100).totalTicks.toNat / 2 : ℕ) : ℚ) * 2) ∧
      |total - ((1001 : UInt64).toNat - (shellStat 100).totalTicks.toNat : ℚ)| <
        2 + (((1001 : UInt64).toNat / 2 - (shellStat 100).totalTicks.toNat / 2 : ℕ) : ℚ) / 2 ^ 22 := by
  obtain ⟨rows, prev, hstep, -⟩ := step_ticked .empty (shellTick 0 100)
  exact ⟨prev, credited_telescopes hstep (.head _) rfl shell_followed⟩

end Credit

section Flicker

def wasVisible (prev : Map (Packed .linux)) (pid : UInt32) : Bool :=
  ((prev.get pid).map Packed.visible).getD false

inductive Watched (pid : UInt32) : Map (Packed .linux) → List Tick → List (ℚ × Bool) → Prop
  | nil {prev : Map (Packed .linux)} : Watched pid prev [] []
  | cons {prev next : Map (Packed .linux)} {t : Tick} {ts : List Tick}
      {rows : List (ProcInfo .linux)} {obs : List (ℚ × Bool)} (i : Fin t.samples.length)
      (hi : (t.samples.get i).pid = pid) (hstep : t.step prev = some (rows, next))
      (hquiet : ¬ Surfaces (t.table prev) (buildPidToIdx (t.table prev)) i)
      (hunder : ∃ a, Above (treeParent (t.table prev)) a i ∧
        Surfaces (t.table prev) (buildPidToIdx (t.table prev)) a)
      (hrest : Watched pid next ts obs) :
      Watched pid prev (t :: ts) ((loadCpu (t.table prev) i, displayed rows pid) :: obs)

theorem childThresh_eq (prev : Map (Packed .linux)) (pid : UInt32) :
    childThresh prev pid =
      Trigger.threshold CHILD_CPU_KEEP_THRESH CHILD_CPU_THRESH (wasVisible prev pid) := rfl

theorem Ticked.shown_iff (h : Ticked prev t rows prev') (i : Fin t.samples.length) :
    displayed rows (t.samples.get i).pid = true ↔ Shown prev (t.table prev) i := by
  obtain ⟨kept, table, hf, hperm⟩ := h.filtered
  have hmem := hf.pid_mem (t.table_distinct prev) i
  rw [survives_iff_shown] at hmem
  rw [← hmem, displayed_iff]
  simp only [hperm.mem_iff, Tick.table, Tick.row_pid]

theorem Ticked.remembered (h : Ticked prev t rows prev') {p : Sample} (hp : p ∈ t.samples) :
    wasVisible prev' p.pid = displayed rows p.pid := by
  obtain ⟨e, he, -, hv⟩ := h.found p hp
  rw [wasVisible, he, Option.map_some, Option.getD_some]
  exact Bool.eq_iff_iff.mpr (hv.trans displayed_iff.symm)

theorem watched_tracks {ts : List Tick} {obs : List (ℚ × Bool)} (h : Watched pid prev ts obs) :
    Trigger.Tracks CHILD_CPU_KEEP_THRESH CHILD_CPU_THRESH (wasVisible prev pid) obs := by
  induction h with
  | nil => exact .nil
  | @cons prev next t ts rows obs i hi hstep hquiet hunder _ ih =>
    have hticked := Ticked.of_step hstep
    subst hi
    rw [hticked.remembered (List.get_mem _ i)] at ih
    refine .cons ?_ ih
    have hpid : (t.table prev i).pid = (t.samples.get i).pid := Tick.row_pid _
    rw [hticked.shown_iff i, ← childThresh_eq, ← hpid]
    exact ⟨fun hs => (hs.resolve_left hquiet).2, fun hle => .inr ⟨hunder, hle⟩⟩

theorem flicker_bounded {ts : List Tick} {load : ℚ} {shown : Bool} {obs : List (ℚ × Bool)}
    (h : Watched pid prev ts ((load, shown) :: obs)) :
    ((Trigger.flips shown (obs.map (·.2)) : ℚ) - 1) * (7 / 10) ≤
        Trigger.variation load (obs.map (·.1)) ∧
      ((∀ o ∈ obs, 3 / 10 ≤ o.1 ∧ o.1 < 1) → ∀ o ∈ obs, o.2 = shown) := by
  have htracks := watched_tracks h
  constructor
  · have hgap : CHILD_CPU_THRESH - CHILD_CPU_KEEP_THRESH = 7 / 10 := by
      norm_num [CHILD_CPU_THRESH, CHILD_CPU_KEEP_THRESH]
    rw [← hgap]
    exact Trigger.flips_variation (by norm_num [CHILD_CPU_THRESH, CHILD_CPU_KEEP_THRESH]) htracks
  · cases htracks with
    | cons _ hrest => exact fun hband => Trigger.steady hrest hband

theorem Tick.table_paused (h : t.dt ≤ 1 / 100) (prev : Map (Packed .linux)) :
    t.table prev = t.table .empty := by
  have hcpu : ∀ (q : Map (Packed .linux)) (p : Sample), p.cpu q t.dt = 0 := by
    intro q p
    unfold Sample.cpu
    cases p.parsed with
    | none => rfl
    | some st => exact if_pos (.inl h)
  have hrow : ∀ p : Sample, collectRow prev t.gpuPids true (p.scanned prev t.dt) =
      collectRow .empty t.gpuPids true (p.scanned .empty t.dt) := by
    intro p
    rw [Sample.scanned, Sample.scanned, hcpu, hcpu]
    unfold collectRow
    cases p.parsed with
    | none => rfl
    | some st => simp [mayQualify, CHILD_CPU_KEEP_THRESH, CHILD_CPU_THRESH]
  funext i
  simp only [Tick.table, Tick.row, hrow]

def leanSample (pid ppid : UInt32) (comm : List UInt8) (h : comm.length ≤ 15) : Sample :=
  ⟨pid, some (statLine ppid 700 comm h), []⟩

def pausedTick : Tick :=
  ⟨0, [leanSample 10 1 (bytes "lean") (by decide), leanSample 12 10 (bytes "cat") (by decide)],
    .empty, by decide⟩

theorem pausedTick_rows :
    ¬ Surfaces (pausedTick.table .empty) (buildPidToIdx (pausedTick.table .empty)) ⟨1, by decide⟩ ∧
      ∃ a, Above (treeParent (pausedTick.table .empty)) a ⟨1, by decide⟩ ∧
        Surfaces (pausedTick.table .empty) (buildPidToIdx (pausedTick.table .empty)) a := by
  simp only [← coalesced_visible]
  exact ⟨by decide +kernel, ⟨0, by decide⟩, ⟨0, by decide +kernel⟩, by decide +kernel⟩

theorem flicker_bounded_paused : ∃ prev load shown obs,
    Watched 12 prev [pausedTick, pausedTick] ((load, shown) :: obs) ∧
      ((Trigger.flips shown (obs.map (·.2)) : ℚ) - 1) * (7 / 10) ≤
        Trigger.variation load (obs.map (·.1)) ∧
      ((∀ o ∈ obs, 3 / 10 ≤ o.1 ∧ o.1 < 1) → ∀ o ∈ obs, o.2 = shown) := by
  obtain ⟨rows, next, hstep, -⟩ := step_ticked .empty pausedTick
  obtain ⟨rows', next', hstep', -⟩ := step_ticked next pausedTick
  have hpaused : pausedTick.dt ≤ 1 / 100 := by norm_num [pausedTick]
  have hw : Watched 12 .empty [pausedTick, pausedTick] _ :=
    .cons ⟨1, by decide⟩ rfl hstep pausedTick_rows.1 pausedTick_rows.2
      (.cons ⟨1, by decide⟩ rfl hstep' (by rw [Tick.table_paused hpaused]; exact pausedTick_rows.1)
        (by rw [Tick.table_paused hpaused]; exact pausedTick_rows.2) .nil)
  exact ⟨.empty, _, _, _, hw, flicker_bounded hw⟩

end Flicker

end Ltop
