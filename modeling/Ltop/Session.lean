import Mathlib
import Ltop.Arena
import Ltop.LabelSweep
import Ltop.Monitor
import Ltop.Screen
import Ltop.Tty

namespace Ltop.Session

open Tty
open Arena (SIZE)

structure Reading where
  tick : Tick
  processes : ProcessTable
  labels : Option (List (List UInt8))
  label : List UInt8 → Option (List UInt8)
  loadavg : Option (List UInt8)
  meminfo : Option (List UInt8)
  gpu : GpuTotals
  winsize : Option (UInt16 × UInt16)
  peak : ℕ
  used : ℕ

inductive Exit where
  | returned (w : World)
  | aborted (w : World)

structure Env where
  numCpus : ℚ
  hasGpu : Bool
  readings : ℕ → Reading
  console : Console

def quitKey : Option UInt8 → Bool
  | some b => b == 113 || b == 0x03 || b == 0x1c
  | none => false

variable (e : Env)

def drawTick (r : Reading) (prev : Map (Packed .linux)) :
    Option (List UInt8 × Map (Packed .linux)) := do
  let (rows, prev) ← r.tick.step prev
  let procs := List.ofFn (Label.apply r.processes r.label r.labels rows.get).rows
  let (width, height) := termSize r.winsize
  let st := ⟨loadAvg r.loadavg e.numCpus, memInfo r.meminfo, r.gpu, e.hasGpu⟩
  -- peak and used: the arena bytes the rest of the tick takes at most, and holds under the frame
  if r.peak ≤ SIZE then
    let frame ← renderFrame st procs width height (SIZE - r.used)
    some (frame, prev)
  else none

def pollLoop : ℕ → World → World × Bool
  | 0, w => (w, false)
  | n + 1, w =>
    let reply := readOneStdin e.console w
    if quitKey reply.2 then (reply.1, true) else pollLoop n (reply.1.record .sleep)

def mainLoop (once : Bool) : ℕ → ℕ → ℕ → Map (Packed .linux) → World → Option Exit
  | 0, _, _, _, _ => none
  | fuel + 1, i, nextSteps, prev, w =>
    match drawTick e (e.readings i) prev with
    | none => some (.aborted w)
    | some (frame, prev) =>
      let w := writeStdout e.console (w.record .frame) frame
      if once then some (.returned w)
      else
        let (w, quit) := pollLoop e nextSteps (w.record .uncommit)
        if quit then some (.returned w) else mainLoop once fuel (i + 1) 40 prev w

def run (once : Bool) (fuel : ℕ) (w : World) : Option Exit := do
  let guard := if once then none else some (enterRawMode e.console w)
  match ← mainLoop e once fuel 0 6 .empty (guard.elim w (·.1)) with
  | .aborted w => some (.aborted w)
  | .returned w =>
    let w := writeStdout e.console w [10]
    some (.returned (guard.elim w fun g => dropGuard e.console w g.2))

def drawTicks : ℕ → ℕ → Map (Packed .linux) → Option (List (List UInt8))
  | 0, _, _ => some []
  | n + 1, i, prev => do
    let (frame, prev) ← drawTick e (e.readings i) prev
    let frames ← drawTicks n (i + 1) prev
    some (frame :: frames)

structure FirstQuit (start p : ℕ) : Prop where
  quits : quitKey (e.console.key (start + p)) = true
  before : ∀ k < p, quitKey (e.console.key (start + k)) = false

def ticksUntil (nextSteps p : ℕ) : ℕ := if p < nextSteps then 1 else 2 + (p - nextSteps) / 40

def expected (ticks p : ℕ) : Event → ℕ
  | .frame => ticks
  | .uncommit => ticks
  | .poll => p + 1
  | .sleep => p

def polledIn (nextSteps : ℕ) : ℕ → ℕ
  | 0 => 0
  | ticks + 1 => nextSteps + polledIn 40 ticks

def cutShort (nextSteps ticks : ℕ) : Event → ℕ
  | .frame => ticks
  | .uncommit => ticks
  | .poll => polledIn nextSteps ticks
  | .sleep => polledIn nextSteps ticks

structure Logged (w w' : World) (count : Event → ℕ) : Prop where
  tty : w'.tty = w.tty
  polls : w'.polls = w.polls + count .poll
  log : ∃ entries, w'.log = w.log ++ entries ∧ (∀ x ∈ entries, x.2 = w.tty) ∧
    ∀ ev, (entries.map (·.1)).count ev = count ev

variable {e : Env} {w w' w'' : World} {a b : Event → ℕ} {n p start : ℕ}

theorem Logged.trans (h : Logged w w' a) (h' : Logged w' w'' b) : Logged w w'' (a + b) := by
  obtain ⟨entries, hlog, htty, hcount⟩ := h.log
  obtain ⟨entries', hlog', htty', hcount'⟩ := h'.log
  refine ⟨h'.tty.trans h.tty, ?_, entries ++ entries', ?_, ?_, fun ev => ?_⟩
  · rw [h'.polls, h.polls, Pi.add_apply, Nat.add_assoc]
  · rw [hlog', hlog, List.append_assoc]
  · exact List.forall_mem_append.mpr ⟨htty, fun x hx => (htty' x hx).trans h.tty⟩
  · rw [List.map_append, List.count_append, hcount, hcount', Pi.add_apply]

theorem Logged.congr (h : Logged w w' a) (hab : ∀ ev, a ev = b ev) : Logged w w' b :=
  funext hab ▸ h

theorem Logged.of_calm (h : Calm w w') : Logged w w' 0 :=
  ⟨h.tty, h.polls, [], h.log.trans (List.append_nil _).symm, by simp, fun _ => rfl⟩

theorem logged_record (w : World) (ev : Event) (h : ev ≠ .poll) :
    Logged w (w.record ev) (Pi.single ev 1) := by
  refine ⟨rfl, ?_, [(ev, w.tty)], rfl, by simp, fun ev' => ?_⟩
  · rw [Pi.single_eq_of_ne h.symm]
    rfl
  · by_cases hev : ev = ev'
    · rw [hev, Pi.single_eq_same]
      simp
    · rw [Pi.single_eq_of_ne (Ne.symm hev)]
      simp [hev]

theorem logged_read (e : Env) (w : World) :
    Logged w (readOneStdin e.console w).1 (Pi.single .poll 1) := by
  refine ⟨rfl, rfl, [(.poll, w.tty)], rfl, by simp, fun ev => ?_⟩
  cases ev <;> rfl

theorem readOneStdin_key (w : World) :
    (readOneStdin e.console w).2 = e.console.key w.polls := rfl

theorem pollLoop_screen (n : ℕ) (w : World) : (pollLoop e n w).1.screen = w.screen := by
  induction n generalizing w with
  | zero => rfl
  | succ n ih =>
    rw [pollLoop]
    split
    · rfl
    · exact ih _

theorem FirstQuit.later (h : FirstQuit e start p) (hn : n ≤ p) :
    FirstQuit e (start + n) (p - n) := by
  refine ⟨?_, fun k hk => ?_⟩
  · rw [Nat.add_assoc, Nat.add_sub_cancel' hn]
    exact h.quits
  · rw [Nat.add_assoc]
    exact h.before (n + k) (by omega)

theorem pollLoop_quits (h : FirstQuit e w.polls p) (hp : p < n) :
    (pollLoop e n w).2 = true ∧ Logged w (pollLoop e n w).1 (expected 0 p) := by
  induction p generalizing n w with
  | zero =>
    obtain ⟨n, rfl⟩ := Nat.exists_eq_succ_of_ne_zero hp.ne'
    have hkey : quitKey (readOneStdin e.console w).2 = true := h.quits
    rw [pollLoop]
    rw [if_pos hkey]
    exact ⟨rfl, (logged_read e w).congr fun ev => by cases ev <;> rfl⟩
  | succ p ih =>
    obtain ⟨n, rfl⟩ := Nat.exists_eq_succ_of_ne_zero (Nat.ne_zero_of_lt hp)
    have hkey : ¬ quitKey (readOneStdin e.console w).2 = true := by
      rw [readOneStdin_key]
      exact Bool.eq_false_iff.mp (h.before 0 (Nat.succ_pos p))
    have hrest := ih (w := (readOneStdin e.console w).1.record .sleep) (h.later (Nat.le_add_left 1 p))
      (Nat.lt_of_succ_lt_succ hp)
    rw [pollLoop]
    rw [if_neg hkey]
    refine ⟨hrest.1, (((logged_read e w).trans (logged_record _ _ (by decide))).trans hrest.2).congr
      fun ev => ?_⟩
    cases ev with
    | frame => rfl
    | uncommit => rfl
    | poll => exact Nat.add_comm 1 (p + 1)
    | sleep => exact Nat.add_comm 1 p

def waited (n : ℕ) : Event → ℕ
  | .frame => 0
  | .uncommit => 0
  | .poll => n
  | .sleep => n

theorem pollLoop_waits (h : ∀ k < n, quitKey (e.console.key (w.polls + k)) = false) :
    (pollLoop e n w).2 = false ∧ Logged w (pollLoop e n w).1 (waited n) := by
  induction n generalizing w with
  | zero => exact ⟨rfl, (Logged.of_calm ⟨rfl, rfl, rfl⟩).congr fun ev => by cases ev <;> rfl⟩
  | succ n ih =>
    have hkey : ¬ quitKey (readOneStdin e.console w).2 = true := by
      rw [readOneStdin_key]
      exact Bool.eq_false_iff.mp (h 0 (Nat.succ_pos n))
    have hrest := ih (w := (readOneStdin e.console w).1.record .sleep) fun k hk => by
      have hlater := h (k + 1) (Nat.succ_lt_succ hk)
      rwa [← Nat.add_assoc, Nat.add_right_comm] at hlater
    rw [pollLoop]
    rw [if_neg hkey]
    refine ⟨hrest.1, (((logged_read e w).trans (logged_record _ _ (by decide))).trans hrest.2).congr
      fun ev => ?_⟩
    cases ev with
    | frame => rfl
    | uncommit => rfl
    | poll => exact Nat.add_comm 1 n
    | sleep => exact Nat.add_comm 1 n

def Fits (e : Env) : Prop := ∀ i, (e.readings i).tick.samples.length < 2 ^ 32

def Held (r : Reading) (frame : List UInt8) : Prop :=
  r.peak ≤ SIZE ∧ frame.length ≤ SIZE - r.used

instance (r : Reading) (frame : List UInt8) : Decidable (Held r frame) :=
  inferInstanceAs (Decidable (_ ∧ _))

theorem drawTick_held (e : Env) {r : Reading} (hfit : r.tick.samples.length < 2 ^ 32)
    (prev : Map (Packed .linux)) : ∃ frame prev',
      drawTick e r prev = if Held r frame then some (frame, prev') else none := by
  obtain ⟨rows, prev', hstep, hticked⟩ := step_ticked prev r.tick
  obtain ⟨kept, table, hfiltered, hperm⟩ := hticked.filtered
  have hlen : rows.length ≤ r.tick.samples.length := by
    rw [hperm.length_eq, List.length_map]
    exact hfiltered.order.length_le.trans_eq List.length_finRange
  obtain ⟨frame, hframe⟩ := renderFrame_total
    ⟨loadAvg r.loadavg e.numCpus, memInfo r.meminfo, r.gpu, e.hasGpu⟩
    (termSize r.winsize).1 (termSize r.winsize).2
    (show (List.ofFn (Label.apply r.processes r.label r.labels rows.get).rows).length < 2 ^ 32 by
      rw [List.length_ofFn]
      exact hlen.trans_lt hfit)
  refine ⟨frame, prev', ?_⟩
  rw [drawTick, hstep]
  simp only [Option.bind_eq_bind, Option.bind_some, hframe]
  by_cases hheld : Held r frame
  · rw [if_pos hheld, if_pos hheld.1, if_pos hheld.2, Option.bind_some]
  · rw [if_neg hheld]
    by_cases hpeak : r.peak ≤ SIZE
    · rw [if_pos hpeak, if_neg fun hroom => hheld ⟨hpeak, hroom⟩, Option.bind_none]
    · rw [if_neg hpeak]

theorem ticksUntil_next (h : n ≤ p) : ticksUntil n p = ticksUntil 40 (p - n) + 1 := by
  rw [ticksUntil, ticksUntil, if_neg (Nat.not_lt.mpr h)]
  split
  · rename_i hlast
    rw [Nat.div_eq_of_lt hlast]
  · rename_i hmore
    have hround := Nat.sub_add_cancel (Nat.not_lt.mp hmore)
    rw [← hround, Nat.add_div_right _ (by decide), hround]
    omega

def afterFrame (e : Env) (w : World) (frame : List UInt8) : World :=
  (writeStdout e.console (w.record .frame) frame).record .uncommit

theorem afterFrame_logged (e : Env) (w : World) (frame : List UInt8) :
    Logged w (afterFrame e w frame) (Pi.single .frame 1 + Pi.single .uncommit 1) := by
  have hframe := (logged_record w .frame (by decide)).trans
    (.of_calm (writeStdout_calm (c := e.console) (w.record .frame) frame))
  rw [add_zero] at hframe
  exact hframe.trans (logged_record _ _ (by decide))

theorem afterFrame_prints (e : Env) (w : World) (frame : List UInt8) :
    Prints e.console w (afterFrame e w frame) [frame] :=
  ((writeStdout_prints (w.record .frame) frame).congr rfl).congr_right rfl

theorem mainLoop_tick {i fuel : ℕ} {prev prev' : Map (Packed .linux)} {frame : List UInt8}
    (hdraw : drawTick e (e.readings i) prev = some (frame, prev')) :
    mainLoop e false (fuel + 1) i n prev w =
      if (pollLoop e n (afterFrame e w frame)).2 then
        some (.returned (pollLoop e n (afterFrame e w frame)).1)
      else mainLoop e false fuel (i + 1) 40 prev' (pollLoop e n (afterFrame e w frame)).1 := by
  rw [mainLoop, hdraw]
  rfl

theorem drawTicks_succ {m i : ℕ} {prev : Map (Packed .linux)} {shown : List (List UInt8)}
    (h : drawTicks e (m + 1) i prev = some shown) : ∃ frame prev' rest,
      drawTick e (e.readings i) prev = some (frame, prev') ∧
        drawTicks e m (i + 1) prev' = some rest ∧ shown = frame :: rest := by
  simp only [drawTicks, Option.bind_eq_bind, Option.bind_eq_some_iff, Option.some.injEq,
    Prod.exists] at h
  obtain ⟨frame, prev', hdraw, rest, hrest, rfl⟩ := h
  exact ⟨frame, prev', rest, hdraw, hrest, rfl⟩

theorem drawTicks_cons {m i : ℕ} {prev prev' : Map (Packed .linux)} {frame : List UInt8}
    (hdraw : drawTick e (e.readings i) prev = some (frame, prev')) :
    drawTicks e (m + 1) i prev = (drawTicks e m (i + 1) prev').map (frame :: ·) := by
  rw [drawTicks, hdraw]
  cases hrest : drawTicks e m (i + 1) prev' <;> simp [hrest]

theorem mainLoop_quits {i : ℕ} {prev : Map (Packed .linux)} {shown : List (List UInt8)}
    (h : FirstQuit e w.polls p) (hdrawn : drawTicks e (ticksUntil n p) i prev = some shown) :
    ∃ w', (∀ fuel ≥ ticksUntil n p, mainLoop e false fuel i n prev w = some (.returned w')) ∧
      Prints e.console w w' shown ∧ Logged w w' (expected (ticksUntil n p) p) := by
  induction hm : ticksUntil n p generalizing n p w i prev shown with
  | zero =>
    rw [ticksUntil] at hm
    split at hm <;> omega
  | succ m ih =>
    obtain ⟨frame, prev', rest, hdraw, hrest, rfl⟩ := drawTicks_succ (hm ▸ hdrawn)
    have htick := afterFrame_logged e w frame
    have hprints := afterFrame_prints e w frame
    have hpolls : (afterFrame e w frame).polls = w.polls := htick.polls
    have hscreen := pollLoop_screen (e := e) n (afterFrame e w frame)
    by_cases hp : p < n
    · obtain ⟨hquit, hlog⟩ := pollLoop_quits (hpolls ▸ h) hp
      obtain rfl : m = 0 := by
        rw [ticksUntil, if_pos hp] at hm
        omega
      obtain rfl : [] = rest := Option.some.inj hrest
      refine ⟨_, fun fuel hfuel => ?_, hprints.congr_right hscreen,
        (htick.trans hlog).congr fun ev => ?_⟩
      · obtain ⟨fuel, rfl⟩ := Nat.exists_eq_succ_of_ne_zero (Nat.ne_zero_of_lt hfuel)
        rw [mainLoop_tick hdraw, if_pos hquit]
      · cases ev with
        | frame => rfl
        | uncommit => rfl
        | poll => exact Nat.zero_add _
        | sleep => exact Nat.zero_add _
    · have hle := Nat.not_lt.mp hp
      rw [ticksUntil_next hle] at hm
      obtain rfl := Nat.succ.inj hm
      obtain ⟨hwait, hlog⟩ := pollLoop_waits (e := e) (n := n) (w := afterFrame e w frame)
        fun k hk => hpolls ▸ h.before k (hk.trans_le hle)
      have hquit : FirstQuit e (pollLoop e n (afterFrame e w frame)).1.polls (p - n) := by
        rw [hlog.polls, hpolls]
        exact h.later hle
      obtain ⟨w', hrun, hshown, hlogged⟩ := ih hquit hrest rfl
      refine ⟨w', fun fuel hfuel => ?_, (hprints.congr_right hscreen).trans hshown,
        ((htick.trans hlog).trans hlogged).congr fun ev => ?_⟩
      · obtain ⟨fuel, rfl⟩ := Nat.exists_eq_succ_of_ne_zero (Nat.ne_zero_of_lt hfuel)
        rw [mainLoop_tick hdraw, hwait]
        exact hrun fuel (Nat.le_of_succ_le_succ hfuel)
      · cases ev with
        | frame => exact Nat.add_comm 1 _
        | uncommit => exact Nat.add_comm 1 _
        | poll => exact show 0 + n + (p - n + 1) = p + 1 by omega
        | sleep => exact show 0 + n + (p - n) = p by omega

theorem mainLoop_aborts {m i : ℕ} {prev : Map (Packed .linux)} {shown : List (List UInt8)}
    (hdrawn : drawTicks e m i prev = some shown) (hover : drawTicks e (m + 1) i prev = none)
    (h : ∀ k < polledIn n m, quitKey (e.console.key (w.polls + k)) = false) :
    ∃ w', (∀ fuel > m, mainLoop e false fuel i n prev w = some (.aborted w')) ∧
      Prints e.console w w' shown ∧ Logged w w' (cutShort n m) := by
  induction m generalizing n w i prev shown with
  | zero =>
    obtain rfl : [] = shown := Option.some.inj hdrawn
    refine ⟨w, fun fuel hfuel => ?_, .refl w, (Logged.of_calm ⟨rfl, rfl, rfl⟩).congr fun ev => ?_⟩
    · obtain ⟨fuel, rfl⟩ := Nat.exists_eq_succ_of_ne_zero (Nat.ne_zero_of_lt hfuel)
      cases hdraw : drawTick e (e.readings i) prev with
      | none => rw [mainLoop, hdraw]
      | some r =>
        rw [drawTicks_cons hdraw] at hover
        cases hover
    · cases ev <;> rfl
  | succ m ih =>
    obtain ⟨frame, prev', rest, hdraw, hrest, rfl⟩ := drawTicks_succ hdrawn
    have htick := afterFrame_logged e w frame
    have hprints := afterFrame_prints e w frame
    have hpolls : (afterFrame e w frame).polls = w.polls := htick.polls
    have hscreen := pollLoop_screen (e := e) n (afterFrame e w frame)
    rw [drawTicks_cons hdraw, Option.map_eq_none_iff] at hover
    obtain ⟨hwait, hlog⟩ := pollLoop_waits (e := e) (n := n) (w := afterFrame e w frame)
      fun k hk => hpolls ▸ h k (hk.trans_le (Nat.le_add_right _ _))
    obtain ⟨w', hrun, hshown, hlogged⟩ := ih (n := 40)
      (w := (pollLoop e n (afterFrame e w frame)).1) hrest hover fun k hk => by
        rw [hlog.polls, hpolls, Nat.add_assoc]
        exact h _ (Nat.add_lt_add_left hk n)
    refine ⟨w', fun fuel hfuel => ?_, (hprints.congr_right hscreen).trans hshown,
      ((htick.trans hlog).trans hlogged).congr fun ev => ?_⟩
    · obtain ⟨fuel, rfl⟩ := Nat.exists_eq_succ_of_ne_zero (Nat.ne_zero_of_lt hfuel)
      rw [mainLoop_tick hdraw, hwait]
      exact hrun fuel (Nat.lt_of_succ_lt_succ hfuel)
    · cases ev with
      | frame => exact Nat.add_comm 1 m
      | uncommit => exact Nat.add_comm 1 m
      | poll => exact show 0 + n + polledIn 40 m = n + polledIn 40 m by omega
      | sleep => exact show 0 + n + polledIn 40 m = n + polledIn 40 m by omega

theorem mainLoop_endless {i : ℕ} {prev : Map (Packed .linux)}
    (hdrawn : ∀ m, drawTicks e m i prev ≠ none)
    (h : ∀ k, quitKey (e.console.key (w.polls + k)) = false) (fuel : ℕ) :
    mainLoop e false fuel i n prev w = none := by
  induction fuel generalizing i n prev w with
  | zero => rfl
  | succ fuel ih =>
    obtain ⟨shown, hshown⟩ := Option.ne_none_iff_exists'.mp (hdrawn 1)
    obtain ⟨frame, prev', -, hdraw, -, -⟩ := drawTicks_succ hshown
    have hpolls : (afterFrame e w frame).polls = w.polls := (afterFrame_logged e w frame).polls
    obtain ⟨hwait, hlog⟩ := pollLoop_waits (e := e) (n := n) (w := afterFrame e w frame)
      fun k _ => hpolls ▸ h k
    rw [mainLoop_tick hdraw, hwait]
    refine ih (fun m hm => hdrawn (m + 1) ?_) fun k => ?_
    · rw [drawTicks_cons hdraw, hm, Option.map_none]
    · rw [hlog.polls, hpolls, Nat.add_assoc]
      exact h _

theorem enterRawMode_tty (w : World) :
    (enterRawMode e.console w).1.tty = w.tty.map Termios.raw := by
  obtain ⟨tty, screen, writes, polls, log⟩ := w
  cases tty <;> rfl

theorem dropGuard_tty (w w' : World) (h : w'.tty = w.tty.map Termios.raw) :
    (dropGuard e.console w' (enterRawMode e.console w).2).tty = w.tty := by
  have hset : (dropGuard e.console w' (enterRawMode e.console w).2).tty =
      w'.tty.map fun _ => w.tty.getD .zero := rfl
  rw [hset, h]
  cases w.tty <;> rfl

structure Finished (e : Env) (w w' : World) (ticks p : ℕ) (shown : List (List UInt8)) : Prop where
  restored : w'.tty = w.tty
  prints : Prints e.console w w' (HIDE_CURSOR :: shown ++ [[10], SHOW_CURSOR])
  log : ∃ entries, w'.log = w.log ++ entries ∧
    (∀ x ∈ entries, x.2 = w.tty.map Termios.raw) ∧
    ∀ ev, (entries.map (·.1)).count ev = expected ticks p ev

theorem run_quits {shown : List (List UInt8)} (h : FirstQuit e w.polls p)
    (hdrawn : drawTicks e (ticksUntil 6 p) 0 .empty = some shown) :
    ∃ w', (∀ fuel ≥ ticksUntil 6 p, run e false fuel w = some (.returned w')) ∧
      Finished e w w' (ticksUntil 6 p) p shown := by
  have hraw := enterRawMode_tty (e := e) w
  obtain ⟨w₁, hrun, hprints, hlogged⟩ := mainLoop_quits (n := 6)
    (w := (enterRawMode e.console w).1) h hdrawn
  have hcalm := writeStdout_calm (c := e.console) w₁ [10]
  have htty : (writeStdout e.console w₁ [10]).tty = w.tty.map Termios.raw :=
    hcalm.tty.trans (hlogged.tty.trans hraw)
  have henter : Prints e.console w (enterRawMode e.console w).1 [HIDE_CURSOR] :=
    (writeOnce_prints _ rfl).congr rfl
  have hleave : Prints e.console (writeStdout e.console w₁ [10]) (dropGuard e.console
      (writeStdout e.console w₁ [10]) (enterRawMode e.console w).2) [SHOW_CURSOR] :=
    (writeOnce_prints _ rfl).congr rfl
  obtain ⟨entries, hlog, hsnap, hcount⟩ := hlogged.log
  refine ⟨dropGuard e.console (writeStdout e.console w₁ [10]) (enterRawMode e.console w).2,
    fun fuel hfuel => ?_, dropGuard_tty w _ htty, ?_, entries, hcalm.log.trans hlog,
    fun x hx => (hsnap x hx).trans hraw, hcount⟩
  · rw [run]
    simp only [Bool.false_eq_true, if_false, Option.elim_some, hrun fuel hfuel,
      Option.bind_eq_bind, Option.bind_some]
  · have hall := ((henter.trans hprints).trans (writeStdout_prints w₁ [10])).trans hleave
    simpa using hall

structure Aborted (e : Env) (w w' : World) (ticks : ℕ) (shown : List (List UInt8)) : Prop where
  raw : w'.tty = w.tty.map Termios.raw
  prints : Prints e.console w w' (HIDE_CURSOR :: shown)
  log : ∃ entries, w'.log = w.log ++ entries ∧
    (∀ x ∈ entries, x.2 = w.tty.map Termios.raw) ∧
    ∀ ev, (entries.map (·.1)).count ev = cutShort 6 ticks ev

theorem run_aborts {m : ℕ} {shown : List (List UInt8)} (hdrawn : drawTicks e m 0 .empty = some shown)
    (hover : drawTicks e (m + 1) 0 .empty = none)
    (h : ∀ k < polledIn 6 m, quitKey (e.console.key (w.polls + k)) = false) :
    ∃ w', (∀ fuel > m, run e false fuel w = some (.aborted w')) ∧ Aborted e w w' m shown := by
  have hraw := enterRawMode_tty (e := e) w
  obtain ⟨w', hrun, hprints, hlogged⟩ := mainLoop_aborts (n := 6)
    (w := (enterRawMode e.console w).1) hdrawn hover h
  have henter : Prints e.console w (enterRawMode e.console w).1 [HIDE_CURSOR] :=
    (writeOnce_prints _ rfl).congr rfl
  obtain ⟨entries, hlog, hsnap, hcount⟩ := hlogged.log
  refine ⟨w', fun fuel hfuel => ?_, hlogged.tty.trans hraw, henter.trans hprints, entries, hlog,
    fun x hx => (hsnap x hx).trans hraw, hcount⟩
  rw [run]
  simp only [Bool.false_eq_true, if_false, Option.elim_some, hrun fuel hfuel, Option.bind_eq_bind,
    Option.bind_some]

theorem run_endless (hdrawn : ∀ m, drawTicks e m 0 .empty ≠ none)
    (h : ∀ k, quitKey (e.console.key (w.polls + k)) = false) (fuel : ℕ) :
    run e false fuel w = none := by
  have hnone := mainLoop_endless (n := 6) (w := (enterRawMode e.console w).1) hdrawn h fuel
  rw [run]
  simp only [Bool.false_eq_true, if_false, Option.elim_some, hnone, Option.bind_eq_bind,
    Option.bind_none]

theorem run_once {frame : List UInt8} {prev' : Map (Packed .linux)}
    (hdraw : drawTick e (e.readings 0) .empty = some (frame, prev')) :
    ∃ w', (∀ fuel, run e true (fuel + 1) w = some (.returned w')) ∧ w'.tty = w.tty ∧
      w'.polls = w.polls ∧ Prints e.console w w' [frame, [10]] := by
  have hframe := writeStdout_calm (c := e.console) (w.record .frame) frame
  have hlast := writeStdout_calm (c := e.console)
    (writeStdout e.console (w.record .frame) frame) [10]
  refine ⟨writeStdout e.console (writeStdout e.console (w.record .frame) frame) [10],
    fun fuel => ?_, hlast.tty.trans hframe.tty, hlast.polls.trans hframe.polls,
    ((writeStdout_prints (w.record .frame) frame).congr rfl).trans (writeStdout_prints _ [10])⟩
  rw [run, mainLoop]
  simp only [if_true, Option.elim_none, hdraw, Option.bind_eq_bind, Option.bind_some]

theorem firstQuit_of_quits {k : ℕ} (h : quitKey (e.console.key (start + k)) = true) :
    ∃ p, FirstQuit e start p := by
  have hex : ∃ k, quitKey (e.console.key (start + k)) = true := ⟨k, h⟩
  exact ⟨Nat.find hex, Nat.find_spec hex, fun k hk => Bool.eq_false_iff.mpr (Nat.find_min hex hk)⟩

theorem polledIn_le {m : ℕ} (h : m < ticksUntil n p) : polledIn n m ≤ p := by
  induction m generalizing n p with
  | zero => exact Nat.zero_le p
  | succ m ih =>
    have hle : n ≤ p := by
      by_contra hlt
      rw [ticksUntil, if_pos (Nat.not_le.mp hlt)] at h
      omega
    rw [ticksUntil_next hle] at h
    have hrest := ih (Nat.lt_of_succ_lt_succ h)
    rw [polledIn]
    omega

theorem first_overflow {m : ℕ} (h : drawTicks e m 0 .empty = none) :
    ∃ k < m, ∃ shown, drawTicks e k 0 .empty = some shown ∧ drawTicks e (k + 1) 0 .empty = none := by
  induction m with
  | zero => cases h
  | succ m ih =>
    cases hm : drawTicks e m 0 .empty with
    | none =>
      obtain ⟨k, hk, hfirst⟩ := ih hm
      exact ⟨k, hk.trans (Nat.lt_succ_self m), hfirst⟩
    | some shown => exact ⟨m, Nat.lt_succ_self m, shown, hm, h⟩

structure Interactive (e : Env) (w : World) : Prop where
  drawn : ∀ i prev, ∃ frame prev', drawTick e (e.readings i) prev =
    if Held (e.readings i) frame then some (frame, prev') else none
  ends : (∃ fuel exit, run e false fuel w = some exit) ↔
    (∃ k, quitKey (e.console.key (w.polls + k)) = true) ∨ ∃ m, drawTicks e m 0 .empty = none
  quits : ∀ p shown, FirstQuit e w.polls p → drawTicks e (ticksUntil 6 p) 0 .empty = some shown →
    ∃ w', (∀ fuel ≥ ticksUntil 6 p, run e false fuel w = some (.returned w')) ∧
      Finished e w w' (ticksUntil 6 p) p shown
  aborts : ∀ m shown, drawTicks e m 0 .empty = some shown → drawTicks e (m + 1) 0 .empty = none →
    (∀ k < polledIn 6 m, quitKey (e.console.key (w.polls + k)) = false) →
      ∃ w', (∀ fuel > m, run e false fuel w = some (.aborted w')) ∧ Aborted e w w' m shown
  once : ∀ frame prev', drawTick e (e.readings 0) .empty = some (frame, prev') →
    ∃ w', (∀ fuel, run e true (fuel + 1) w = some (.returned w')) ∧ w'.tty = w.tty ∧
      w'.polls = w.polls ∧ Prints e.console w w' [frame, [10]]

theorem run_ends (h : (∃ k, quitKey (e.console.key (w.polls + k)) = true) ∨
    ∃ m, drawTicks e m 0 .empty = none) : ∃ fuel exit, run e false fuel w = some exit := by
  have hover : ∀ m, drawTicks e m 0 .empty = none →
      (∀ j < m, ∀ k < polledIn 6 j, quitKey (e.console.key (w.polls + k)) = false) →
      ∃ fuel exit, run e false fuel w = some exit := fun m hm hquiet => by
    obtain ⟨j, hj, shown, hdrawn, hfirst⟩ := first_overflow hm
    obtain ⟨w', hrun, -⟩ := run_aborts hdrawn hfirst (hquiet j hj)
    exact ⟨j + 1, _, hrun _ (Nat.lt_succ_self j)⟩
  by_cases hkey : ∃ k, quitKey (e.console.key (w.polls + k)) = true
  · obtain ⟨p, hp⟩ := firstQuit_of_quits hkey.choose_spec
    cases hdrawn : drawTicks e (ticksUntil 6 p) 0 .empty with
    | none => exact hover _ hdrawn fun j hj k hk => hp.before k (hk.trans_le (polledIn_le hj))
    | some shown =>
      obtain ⟨w', hrun, -⟩ := run_quits hp hdrawn
      exact ⟨_, _, hrun _ le_rfl⟩
  · obtain ⟨m, hm⟩ := h.resolve_left hkey
    exact hover m hm fun j _ k _ => Bool.eq_false_iff.mpr fun hk => hkey ⟨k, hk⟩

def reading (peak : ℕ) : Reading where
  tick := ⟨2, [], .empty, .nil⟩
  processes := ⟨[], .nil⟩
  labels := none
  label := fun _ => none
  loadavg := some (bytes "0.42 0.36 0.30 1/123 4567")
  meminfo := none
  gpu := ⟨0, 0, 0, 0⟩
  winsize := some (24, 80)
  peak := peak
  used := 2 ^ 16

def env (peak : ℕ → ℕ) : Env where
  numCpus := 8
  hasGpu := false
  readings := fun i => reading (peak i)
  console := ⟨fun _ buf => buf.length, fun i => if i = 7 then (1, 113) else (0, 0),
    fun _ _ => le_rfl⟩

def idle : Env := env fun _ => 2 ^ 17

def crowded : Env := env fun i => if i = 0 then 2 ^ 17 else 2 ^ 20

end Ltop.Session
