import Mathlib
import Ltop.Bytes

namespace Ltop.Tty

def ICANON : UInt32 := 2

def ECHO : UInt32 := 8

def VINTR : Fin 19 := 0

def VQUIT : Fin 19 := 1

def VTIME : Fin 19 := 5

def VMIN : Fin 19 := 6

def VDISABLE : UInt8 := 0

def HIDE_CURSOR : List UInt8 := 27 :: bytes "[?25l"

def SHOW_CURSOR : List UInt8 := 27 :: bytes "[?25h"

structure Termios where
  cIflag : UInt32
  cOflag : UInt32
  cCflag : UInt32
  cLflag : UInt32
  cLine : UInt8
  cCc : Vector UInt8 19
deriving DecidableEq

namespace Termios

def zero : Termios := ⟨0, 0, 0, 0, 0, .replicate 19 0⟩

def setCc (t : Termios) (i : Fin 19) (b : UInt8) : Termios := { t with cCc := t.cCc.set i b }

def raw (t : Termios) : Termios :=
  (((({ t with cLflag := t.cLflag &&& ~~~(ICANON ||| ECHO) } : Termios).setCc VMIN 0).setCc
    VTIME 0).setCc VINTR VDISABLE).setCc VQUIT VDISABLE

end Termios

inductive Event where
  | frame
  | uncommit
  | poll
  | sleep
deriving DecidableEq

structure World where
  tty : Option Termios
  screen : List UInt8
  writes : ℕ
  polls : ℕ
  log : List (Event × Option Termios)

structure Console where
  write : ℕ → List UInt8 → ℤ
  read : ℕ → ℤ × UInt8
  write_le : ∀ i buf, write i buf ≤ buf.length

def World.record (w : World) (e : Event) : World := { w with log := w.log ++ [(e, w.tty)] }

def tcget (w : World) (t : Termios) : Termios := w.tty.getD t

def tcset (w : World) (t : Termios) : World := { w with tty := w.tty.map fun _ => t }

variable (c : Console)

def writeOnce (w : World) (buf : List UInt8) : World × ℤ :=
  let n := c.write w.writes buf
  ({ w with writes := w.writes + 1, screen := w.screen ++ buf.take n.toNat }, n)

def writeStdout (w : World) (buf : List UInt8) : World :=
  if buf = [] then w
  else
    let out := writeOnce c w buf
    if 0 < out.2 then writeStdout out.1 (buf.drop out.2.toNat) else out.1
termination_by buf.length
decreasing_by
  rename_i hbuf hn
  have hpos := List.length_pos_iff.mpr hbuf
  have hsome : 0 < out.2.toNat := by omega
  rw [List.length_drop]
  exact Nat.sub_lt hpos hsome

def readOneStdin (w : World) : World × Option UInt8 :=
  let w' := w.record .poll
  let reply := c.read w.polls
  ({ w' with polls := w.polls + 1 }, if reply.1 = 1 then some reply.2 else none)

def enterRawMode (w : World) : World × Termios :=
  let orig := tcget w .zero
  ((writeOnce c (tcset w orig.raw) HIDE_CURSOR).1, orig)

def dropGuard (w : World) (orig : Termios) : World :=
  (writeOnce c (tcset w orig) SHOW_CURSOR).1

def Console.key (i : ℕ) : Option UInt8 :=
  if (c.read i).1 = 1 then some (c.read i).2 else none

def Console.Steady : Prop := ∀ i buf, buf ≠ [] → (min buf.length 6 : ℤ) ≤ c.write i buf

def Prints (w w' : World) (wanted : List (List UInt8)) : Prop :=
  ∃ pieces, w'.screen = w.screen ++ pieces.flatten ∧ List.Forall₂ (· <+: ·) pieces wanted ∧
    (c.Steady → pieces = wanted)

structure Calm (w w' : World) : Prop where
  tty : w'.tty = w.tty
  polls : w'.polls = w.polls
  log : w'.log = w.log

variable {c} {w w' w'' : World} {a b : List (List UInt8)} {buf : List UInt8}

theorem Prints.refl (w : World) : Prints c w w [] := ⟨[], by simp, .nil, fun _ => rfl⟩

theorem Prints.trans (h : Prints c w w' a) (h' : Prints c w' w'' b) : Prints c w w'' (a ++ b) := by
  obtain ⟨ps, hscreen, hpart, hsteady⟩ := h
  obtain ⟨ps', hscreen', hpart', hsteady'⟩ := h'
  refine ⟨ps ++ ps', ?_, List.rel_append hpart hpart', fun hc => ?_⟩
  · rw [hscreen', hscreen, List.flatten_append, List.append_assoc]
  · rw [hsteady hc, hsteady' hc]

theorem Prints.one {done : List UInt8} (hscreen : w'.screen = w.screen ++ done)
    (hpart : done <+: buf) (hsteady : c.Steady → done = buf) : Prints c w w' [buf] :=
  ⟨[done], by rw [hscreen, List.flatten_singleton], .cons hpart .nil, fun hc => by
    rw [hsteady hc]⟩

theorem Prints.congr (h : Prints c w w' a) (hscreen : w''.screen = w.screen) :
    Prints c w'' w' a := by
  obtain ⟨ps, hw, hrest⟩ := h
  exact ⟨ps, hscreen ▸ hw, hrest⟩

theorem Prints.congr_right (h : Prints c w w' a) (hscreen : w''.screen = w'.screen) :
    Prints c w w'' a := by
  obtain ⟨ps, hw, hrest⟩ := h
  exact ⟨ps, hscreen.trans hw, hrest⟩

theorem Calm.trans (h : Calm w w') (h' : Calm w' w'') : Calm w w'' :=
  ⟨h'.tty.trans h.tty, h'.polls.trans h.polls, h'.log.trans h.log⟩

theorem writeOnce_calm (w : World) (buf : List UInt8) : Calm w (writeOnce c w buf).1 :=
  ⟨rfl, rfl, rfl⟩

theorem writeOnce_prints (w : World) (h : buf.length = 6) :
    Prints c w (writeOnce c w buf).1 [buf] := by
  refine .one rfl (List.take_prefix _ _) fun hc => List.take_of_length_le ?_
  have hne : buf ≠ [] := List.ne_nil_of_length_eq_add_one h
  have hwhole := hc w.writes buf hne
  rw [h] at hwhole ⊢
  change 6 ≤ (c.write w.writes buf).toNat
  omega

theorem writeStdout_calm (w : World) (buf : List UInt8) : Calm w (writeStdout c w buf) := by
  fun_induction writeStdout c w buf with
  | case1 w => exact ⟨rfl, rfl, rfl⟩
  | case2 w buf hbuf out hn ih => exact (writeOnce_calm w buf).trans ih
  | case3 w buf hbuf out hn => exact writeOnce_calm w buf

theorem writeStdout_screen (w : World) (buf : List UInt8) :
    ∃ done, (writeStdout c w buf).screen = w.screen ++ done ∧ done <+: buf ∧
      (c.Steady → done = buf) := by
  fun_induction writeStdout c w buf with
  | case1 w => exact ⟨[], by simp, List.prefix_rfl, fun _ => rfl⟩
  | case2 w buf hbuf out hn ih =>
    obtain ⟨done, hscreen, hpart, hsteady⟩ := ih
    refine ⟨buf.take out.2.toNat ++ done, ?_, ?_, fun hc => ?_⟩
    · rw [hscreen, ← List.append_assoc]
      rfl
    · conv_rhs => rw [← List.take_append_drop out.2.toNat buf]
      exact (List.prefix_append_right_inj _).mpr hpart
    · rw [hsteady hc, List.take_append_drop]
  | case3 w buf hbuf out hn =>
    refine ⟨buf.take out.2.toNat, rfl, List.take_prefix _ _, fun hc => ?_⟩
    have hsome := hc w.writes buf hbuf
    have hpos := List.length_pos_iff.mpr hbuf
    change ¬ 0 < c.write w.writes buf at hn
    omega

theorem writeStdout_prints (w : World) (buf : List UInt8) :
    Prints c w (writeStdout c w buf) [buf] := by
  obtain ⟨done, hscreen, hpart, hsteady⟩ := writeStdout_screen (c := c) w buf
  exact .one hscreen hpart hsteady

end Ltop.Tty
