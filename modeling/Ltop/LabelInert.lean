import Mathlib
import Ltop.LabelSweep
import Ltop.Twrite

namespace Ltop.Label

open Numeral PidDir

variable {n : ℕ} {t : ProcessTable} {read : List UInt8 → Option (List UInt8)}
  {procs : Table .linux n} {i : Fin n} {s content : List UInt8} {names : List (List UInt8)}

structure Inert (display : List UInt8) : Prop where
  short : display.length ≤ LABEL_MAX
  single : 10 ∉ display
  plain : ∀ width, Plain (truncate display width)
  decoded : ∀ width, ¬ C1 (truncate display width)

structure Labelled (t : ProcessTable) (read : List UInt8 → Option (List UInt8))
    (names : List (List UInt8)) (procs : Table .linux n) (i : Fin n) (content : List UInt8) :
    Prop where
  shown : ∃ name ∈ names, Shows t read procs i name content
  only : ∀ name ∈ names, ∀ other, Shows t read procs i name other → other = content

def LabelInert (content : List UInt8) : Prop :=
  ∀ (n : ℕ) (t : ProcessTable) (read : List UInt8 → Option (List UInt8))
    (dir : Option (List (List UInt8))) (procs : Table .linux n) (i : Fin n),
    Labelled t read (dir.getD []) procs i content → Inert ((apply t read dir procs).rows i).display

def Escapes (content : List UInt8) : Prop :=
  ∃ before dropped c after,
    content.take LABEL_MAX = before ++ 0xC2 :: (dropped ++ c :: after) ∧ 10 ∉ before ∧
      (∀ b ∈ dropped, isControl b ∧ b ≠ 10) ∧ isC1 c

theorem kept_iff (c : UInt8) : decide (c ≥ 32 ∧ c ≠ 0x7f) = !isControl c :=
  forall_byte (P := fun c => decide (c ≥ 32 ∧ c ≠ 0x7f) = !isControl c) (by decide +kernel) c

theorem sanitised_eq (content : List UInt8) :
    sanitised content = ((content.take LABEL_MAX).takeWhile (· ≠ 10)).filter (!isControl ·) :=
  List.filter_congr fun c _ => kept_iff c

theorem sanitised_plain (content : List UInt8) : Plain (sanitised content) := by
  rw [sanitised_eq]
  intro c hc
  simpa using (List.mem_filter.mp hc).2

theorem c1_filter (hline : 10 ∉ s) : C1 (s.filter (!isControl ·)) ↔
    ∃ before dropped c after, s = before ++ 0xC2 :: (dropped ++ c :: after) ∧
      (∀ b ∈ dropped, isControl b ∧ b ≠ 10) ∧ isC1 c := by
  constructor
  · rintro ⟨c, hc, front, back, heq⟩
    rw [List.append_assoc] at heq
    obtain ⟨s₁, s₂, rfl, -, hs₂⟩ := List.filter_eq_append_iff.mp heq.symm
    obtain ⟨x, s₃, rfl, -, -, hs₃⟩ := List.filter_eq_cons_iff.mp hs₂
    obtain ⟨dropped, s₄, rfl, hdropped, -, -⟩ := List.filter_eq_cons_iff.mp hs₃
    refine ⟨s₁ ++ x, dropped, c, s₄, by rw [List.append_assoc], fun b hb => ⟨?_, ?_⟩, hc⟩
    · simpa using hdropped b hb
    · rintro rfl
      exact hline (by simp [hb])
  · rintro ⟨before, dropped, c, after, rfl, hdropped, hc⟩
    have hnone : dropped.filter (!isControl ·) = [] :=
      List.filter_eq_nil_iff.mpr fun b hb => by simp [(hdropped b hb).1]
    have hkeep : isControl c = false :=
      isControl_high (isContinuation_range (isC1_continuation hc)).1
    refine ⟨c, hc, before.filter (!isControl ·), after.filter (!isControl ·), ?_⟩
    rw [List.filter_append, List.filter_cons_of_pos (by decide), List.filter_append, hnone,
      List.nil_append, List.filter_cons_of_pos (by simp [hkeep]), List.append_assoc]
    rfl

theorem c1_sanitised (content : List UInt8) : C1 (sanitised content) ↔ Escapes content := by
  have hline : 10 ∉ (content.take LABEL_MAX).takeWhile (· ≠ 10) := fun hin => by
    simpa using List.mem_takeWhile_imp hin
  rw [sanitised_eq, c1_filter hline, Escapes]
  have hsplit := List.takeWhile_append_dropWhile (p := (· ≠ 10)) (l := content.take LABEL_MAX)
  constructor
  · rintro ⟨before, dropped, c, after, heq, hdropped, hc⟩
    rw [heq] at hline hsplit
    refine ⟨before, dropped, c, after ++ (content.take LABEL_MAX).dropWhile (· ≠ 10), ?_,
      fun hin => hline (List.mem_append_left _ hin), hdropped, hc⟩
    exact hsplit.symm.trans (by simp)
  · rintro ⟨before, dropped, c, after, heq, hbefore, hdropped, hc⟩
    refine ⟨before, dropped, c, after.takeWhile (· ≠ 10), ?_, hdropped, hc⟩
    have hcne : c ≠ 10 := by
      rintro rfl
      exact absurd hc (by decide)
    have hbefore' : ∀ b ∈ before, decide (b ≠ 10) := fun b hb => by
      simpa using fun h : b = 10 => hbefore (h ▸ hb)
    have hdropped' : ∀ b ∈ dropped, decide (b ≠ 10) := fun b hb => by
      simpa using (hdropped b hb).2
    rw [heq, List.takeWhile_append_of_pos hbefore', List.takeWhile_cons_of_pos (by decide),
      List.takeWhile_append_of_pos hdropped', List.takeWhile_cons_of_pos (by simpa using hcne)]

theorem inert_iff (content : List UInt8) : Inert (sanitised content) ↔ ¬ Escapes content := by
  rw [← c1_sanitised]
  constructor
  · intro h hc
    refine h.decoded _ (?_ : C1 (truncate _ (sanitised content).length))
    rw [truncate_wide _ le_rfl, putSlice_c1]
    exact hc
  · intro h
    have hplain := sanitised_plain content
    refine ⟨sanitised_length content, fun hin => absurd (hplain 10 hin) (by decide),
      fun width => truncate_plain width hplain, fun width => truncate_c1 width h⟩

theorem labelled_display {dir : Option (List (List UInt8))}
    (h : Labelled t read (dir.getD []) procs i content) :
    ((apply t read dir procs).rows i).display = sanitised content := by
  rw [apply_eq]
  rcases run_row t read ⟨procs, [], []⟩ (dir.getD []) i with
    ⟨hno, -⟩ | ⟨name, hin, other, hs, heq⟩
  · obtain ⟨name, hin, hs⟩ := h.shown
    exact absurd hs (hno name hin content)
  · rw [heq, h.only name hin other hs]

def idle : Process where
  pid := 1
  comm := []
  state := 83
  numbers := List.replicate 18 [48]
  start := 0
  rest := []
  comm_le := by decide
  state_letter := by decide
  numbers_length := by decide
  numbers_le := fun w hw => by
    rw [List.eq_of_mem_replicate hw]
    decide
  numbers_decimal := fun w hw b hb => by
    rw [List.eq_of_mem_replicate hw] at hb
    exact .inr (List.mem_singleton.mp hb ▸ rfl)
  rest_clean := by decide
  start_lt := by decide

theorem labelled_idle (hne : content ≠ []) :
    ∃ (t : ProcessTable) (dir : Option (List (List UInt8))) (procs : Table .linux 1),
      Labelled t (fun _ => some content) (dir.getD []) procs 0 content := by
  let t : ProcessTable := ⟨[idle], List.nodup_singleton _⟩
  let procs : Table .linux 1 := fun _ => stub 1
  have hname : decimal idle.pid.toNat = [49] := by simp [decimal, idle, glyph]
  have hlive : startTime t 1 [49, 46, 48] = some 0 := by
    have h : startTime t 1 (decimal idle.pid.toNat ++ 46 :: [48]) = some idle.start :=
      startTime_live (List.mem_singleton_self idle)
    rwa [hname] at h
  have hclaims : Claims [49, 46, 48] 1 0 := ⟨by decide, by decide⟩
  have hshows : Shows t (fun _ => some content) procs 0 [49, 46, 48] content :=
    ⟨⟨fun j hj => absurd hj (Fin.not_lt_zero j), 0, hclaims, hlive⟩, rfl, hne⟩
  refine ⟨t, some [[49, 46, 48]], procs, ⟨_, List.mem_singleton_self _, hshows⟩, ?_⟩
  intro name _ other h
  exact (Option.some.inj h.readable).symm

theorem escapes_ne_nil (h : Escapes content) : content ≠ [] := by
  rintro rfl
  obtain ⟨before, dropped, c, after, heq, -⟩ := h
  simp at heq

theorem inert_of_labelInert (h : LabelInert content) : ¬ Escapes content := by
  intro hesc
  obtain ⟨t, dir, procs, hl⟩ := labelled_idle (escapes_ne_nil hesc)
  have hinert := h 1 t _ dir procs 0 hl
  rw [labelled_display hl] at hinert
  exact (inert_iff content).mp hinert hesc

theorem labelInert_iff (content : List UInt8) : LabelInert content ↔ ¬ Escapes content := by
  refine ⟨inert_of_labelInert, fun h n t read dir procs i hl => ?_⟩
  rw [labelled_display hl]
  exact (inert_iff content).mpr h

theorem csi_label_escapes : ¬ ∀ content, LabelInert content := by
  intro h
  have hescapes : Escapes [0xC2, 0x9B, 50, 74] :=
    ⟨[], [], 0x9B, [50, 74], by decide, List.not_mem_nil, fun b hb => absurd hb List.not_mem_nil,
      by decide⟩
  exact inert_of_labelInert (h _) hescapes

end Ltop.Label
