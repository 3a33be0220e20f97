import Mathlib
import Ltop.Bytes
import Ltop.OsDecode

namespace Ltop

namespace ProcArgs

open Os

def OUT_LEN : ℕ := 64

def argcOf (blob : List UInt8) : ℕ :=
  let argc := fromLeBytes (blob.take 4)
  if argc < 2 ^ 31 then argc else 0

def scan : ℕ → List UInt8 → ℕ → List (List UInt8)
  | 0, _, _ => []
  | fuel + 1, rest, want =>
    if rest.isEmpty ∨ want = 0 then []
    else
      let piece := rest.takeWhile (· ≠ 0)
      let rest := (rest.dropWhile (· ≠ 0)).drop 1
      if piece.isEmpty then scan fuel rest want else piece :: scan fuel rest (want - 1)

def macosProcArgsInto (blob : List UInt8) : List (List UInt8) :=
  if blob.length < 4 then []
  else
    let want := min (argcOf blob) OUT_LEN
    let rest := (blob.drop 4).dropWhile (· ≠ 0)
    let rest := rest.dropWhile (· = 0)
    scan rest.length rest want

abbrev CStr := {s : List UInt8 // 0 ∉ s}

structure Image where
  exec : CStr
  padding : ℕ
  argv : List CStr
  env : List CStr
  argv_lt : argv.length < 2 ^ 31

def terminated (s : CStr) : List UInt8 := s.1 ++ [0]

namespace Image

variable (p : Image)

def blob : List UInt8 :=
  toLeBytes 4 p.argv.length ++ (terminated p.exec ++ List.replicate p.padding 0 ++
    (p.argv ++ p.env).flatMap terminated)

def full (strings : List CStr) : List (List UInt8) := (strings.map (·.1)).filter (! ·.isEmpty)

def args : List (List UInt8) := (full p.argv).take OUT_LEN

end Image

open Image

theorem full_cons_empty (s : CStr) (h : s.1 = []) (strings : List CStr) :
    full (s :: strings) = full strings := by
  simp [full, h]

theorem full_cons {s : CStr} (h : s.1 ≠ []) (strings : List CStr) :
    full (s :: strings) = s.1 :: full strings := by
  simp [full, h]

theorem split_terminated (s : CStr) (rest : List UInt8) :
    (terminated s ++ rest).takeWhile (· ≠ 0) = s.1 ∧
      (terminated s ++ rest).dropWhile (· ≠ 0) = 0 :: rest := by
  have hkeep : ∀ c ∈ s.1, decide (c ≠ 0) = true := fun c hc =>
    decide_eq_true fun h0 => s.2 (h0 ▸ hc)
  rw [terminated, List.append_assoc]
  constructor
  · rw [List.takeWhile_append_of_pos hkeep, List.singleton_append, List.takeWhile_cons_of_neg
      (by simp), List.append_nil]
  · rw [List.dropWhile_append_of_pos hkeep, List.singleton_append, List.dropWhile_cons_of_neg
      (by simp)]

theorem scan_eq {strings : List CStr} {fuel : ℕ} (want : ℕ)
    (hf : (strings.flatMap terminated).length ≤ fuel) :
    scan fuel (strings.flatMap terminated) want = (full strings).take want := by
  induction strings generalizing fuel want with
  | nil => cases fuel <;> simp [scan, full]
  | cons s strings ih =>
    rw [List.flatMap_cons] at hf ⊢
    obtain ⟨htake, hdrop⟩ := split_terminated s (strings.flatMap terminated)
    have hlen : (terminated s).length = s.1.length + 1 := by simp [terminated]
    rw [List.length_append, hlen] at hf
    obtain ⟨fuel, rfl⟩ : ∃ f, fuel = f + 1 := ⟨fuel - 1, by omega⟩
    have hne : (terminated s ++ strings.flatMap terminated).isEmpty = false := by
      simp [terminated]
    rw [scan]
    simp only [hne, htake, hdrop, List.drop_one, List.tail_cons]
    rcases Nat.eq_zero_or_pos want with rfl | hw
    · simp
    · rw [if_neg (by simp; omega)]
      by_cases hs : s.1 = []
      · rw [if_pos (by simp [hs]), ih want (by omega), full_cons_empty s hs]
      · rw [if_neg (by simp [hs]), ih (want - 1) (by omega), full_cons hs,
          ← List.take_succ_cons, Nat.sub_add_cancel hw]

theorem skip_padding (strings : List CStr) (n : ℕ) :
    ∃ rest, (List.replicate n 0 ++ strings.flatMap terminated).dropWhile (· = 0) =
      rest.flatMap terminated ∧ full rest = full strings := by
  rw [List.dropWhile_append_of_pos (by simp)]
  induction strings with
  | nil => exact ⟨[], rfl, rfl⟩
  | cons s strings ih =>
    obtain ⟨rest, hrest, hfull⟩ := ih
    obtain ⟨text, htext⟩ := s
    cases text with
    | nil =>
      refine ⟨rest, ?_, hfull.trans (full_cons_empty ⟨[], htext⟩ rfl strings).symm⟩
      rw [← hrest]
      rfl
    | cons c text =>
      refine ⟨⟨c :: text, htext⟩ :: strings, ?_, rfl⟩
      rw [List.flatMap_cons, terminated, List.cons_append, List.cons_append,
        List.dropWhile_cons_of_neg]
      intro h0
      rw [of_decide_eq_true h0] at htext
      exact htext List.mem_cons_self

theorem macosProcArgsInto_blob (p : Image) :
    macosProcArgsInto p.blob = (full (p.argv ++ p.env)).take (min p.argv.length OUT_LEN) := by
  have hhead : (toLeBytes 4 p.argv.length).length = 4 := toLeBytes_length _ _
  have htake : p.blob.take 4 = toLeBytes 4 p.argv.length := List.take_left' hhead
  have hdrop : p.blob.drop 4 = terminated p.exec ++ (List.replicate p.padding 0 ++
      (p.argv ++ p.env).flatMap terminated) := by
    rw [Image.blob, List.drop_left' hhead, List.append_assoc]
  have hargc : argcOf p.blob = p.argv.length := by
    have hlt := p.argv_lt
    rw [argcOf, htake, fromLeBytes_toLeBytes, Nat.mod_eq_of_lt (by omega), if_pos hlt]
  have hlong : ¬ p.blob.length < 4 := by
    rw [Image.blob, List.length_append, hhead]
    omega
  obtain ⟨rest, hskip, hfull⟩ := skip_padding (p.argv ++ p.env) (p.padding + 1)
  rw [macosProcArgsInto, if_neg hlong, hargc, hdrop, (split_terminated _ _).2]
  dsimp only
  rw [← List.cons_append, ← List.replicate_succ, hskip, scan_eq _ le_rfl, hfull]

theorem full_length_le (strings : List CStr) : (full strings).length ≤ strings.length := by
  simpa [full] using List.length_filter_le (! ·.isEmpty) (strings.map (·.1))

theorem full_length_eq (strings : List CStr) :
    (full strings).length = strings.length ↔ ∀ s ∈ strings, s.1 ≠ [] := by
  have h := List.length_filter_eq_length_iff (p := (! ·.isEmpty)) (l := strings.map (·.1))
  rw [List.length_map] at h
  rw [full, h]
  simp

theorem full_eq_nil (strings : List CStr) : full strings = [] ↔ ∀ s ∈ strings, s.1 = [] := by
  rw [full, List.filter_eq_nil_iff]
  simp

structure Extracts (p : Image) : Prop where
  args : macosProcArgsInto p.blob = p.args
  owned : ∀ s ∈ macosProcArgsInto p.blob, s ∈ p.argv.map (·.1)

theorem args_owned (p : Image) : ∀ s ∈ p.args, s ∈ p.argv.map (·.1) := fun _ hs =>
  (List.mem_filter.mp (List.mem_of_mem_take hs)).1

theorem extracts_iff (p : Image) :
    Extracts p ↔
      (∀ s ∈ p.argv, s.1 ≠ []) ∨ OUT_LEN ≤ (full p.argv).length ∨ ∀ s ∈ p.env, s.1 = [] := by
  have hle := full_length_le p.argv
  have hsplit : full (p.argv ++ p.env) = full p.argv ++ full p.env := by simp [full]
  have hargs : Extracts p ↔ macosProcArgsInto p.blob = p.args :=
    ⟨fun h => h.args, fun h => ⟨h, h ▸ args_owned p⟩⟩
  rw [hargs, macosProcArgsInto_blob, Image.args, hsplit, ← full_length_eq, ← full_eq_nil]
  rcases Nat.lt_or_ge (full p.argv).length OUT_LEN with hlt | hge
  · have hall : (full p.argv).take (min p.argv.length OUT_LEN) = full p.argv :=
      List.take_of_length_le (by omega)
    have hcount : min p.argv.length OUT_LEN - (full p.argv).length = 0 ↔
        (full p.argv).length = p.argv.length := by omega
    rw [List.take_of_length_le hlt.le, List.take_append, hall, List.append_right_eq_self,
      List.take_eq_nil_iff, hcount, or_iff_right hlt.not_ge]
  · rw [List.take_append_of_le_length (by omega), Nat.min_eq_right (hge.trans hle)]
    exact iff_of_true rfl (.inr (.inl hge))

def text (s : String) (h : 0 ∉ bytes s) : CStr := ⟨bytes s, h⟩

def emptyArg : Image where
  exec := text "/bin/sh" (by decide)
  padding := 3
  argv := [text "sh" (by decide), text "" (by decide)]
  env := [text "TOKEN=hunter2" (by decide)]
  argv_lt := by decide

theorem emptyArg_leaks : ¬ ∀ p : Image, Extracts p := by
  intro h
  have hargs := (h emptyArg).args
  revert hargs
  decide

end ProcArgs

end Ltop
