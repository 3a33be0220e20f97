import Mathlib
import Ltop.ProcArgs

namespace Ltop

namespace Cmdline

open ProcArgs Image

def CMDLINE_MAX : ℕ := 32 * 1024

def CHUNK : ℕ := 4096

def MAX_ARGS : ℕ := 64

def readLoop : List (Option (List UInt8)) → List UInt8 → List UInt8
  | [], b => b
  | none :: _, b => b
  | some chunk :: reads, b =>
    if chunk.length = 0 then b
    else if chunk.length < CHUNK then b ++ chunk
    else if (b ++ chunk).length ≥ CMDLINE_MAX then b ++ chunk
    else readLoop reads (b ++ chunk)

def cmdline (opened : Option (List (Option (List UInt8)))) : List UInt8 :=
  match opened with
  | none => []
  | some reads => readLoop reads []

def pieces (cmdline : List UInt8) : List (List UInt8) :=
  (cmdline.splitOnP (· == 0)).filter (! ·.isEmpty)

def fill : List (List UInt8) → List (List UInt8) → List (List UInt8)
  | args, [] => args
  | args, s :: rest => if args.length ≥ MAX_ARGS then args else fill (args ++ [s]) rest

def args (cmdline : List UInt8) : List (List UInt8) :=
  let argsArr := fill [] (pieces cmdline)
  let argsLen :=
    if cmdline.length ≥ CMDLINE_MAX ∧ cmdline.getLast? ≠ some 0 then argsArr.length - 1
    else argsArr.length
  argsArr.take argsLen

def encode (argv : List CStr) : List UInt8 := argv.flatMap terminated

inductive Served : List UInt8 → List (Option (List UInt8)) → Prop
  | full {file : List UInt8} {reads : List (Option (List UInt8))} : CHUNK ≤ file.length →
      Served (file.drop CHUNK) reads → Served file (some (file.take CHUNK) :: reads)
  | last {file : List UInt8} (reads : List (Option (List UInt8))) : file.length < CHUNK →
      Served file (some file :: reads)

def complete : ℕ → List CStr → List CStr
  | _, [] => []
  | room, s :: argv =>
    if s.1.length + 1 ≤ room then s :: complete (room - (s.1.length + 1)) argv else []

def Cut (argv : List CStr) : Prop :=
  ∃ before s after, argv = before ++ s :: after ∧ (encode before).length < CMDLINE_MAX ∧
    CMDLINE_MAX < (encode (before ++ [s])).length

def Extracted (argv : List CStr) (reads : List (Option (List UInt8))) : Prop :=
  args (cmdline (some reads)) =
    (full (complete (cmdline (some reads)).length argv)).take MAX_ARGS

variable {argv before after : List CStr} {s : CStr} {file b rest : List UInt8} {room : ℕ}
  {reads : List (Option (List UInt8))} {line : List UInt8} {stored list : List (List UInt8)}

theorem readLoop_served (h : Served file reads) (hb : b.length < CMDLINE_MAX)
    (haligned : CHUNK ∣ b.length) : readLoop reads b = b ++ file.take (CMDLINE_MAX - b.length) := by
  induction h generalizing b with
  | last reads hshort =>
    rename_i file
    obtain ⟨k, hk⟩ := haligned
    have hroom : CHUNK ≤ CMDLINE_MAX - b.length := by
      unfold CMDLINE_MAX CHUNK at *
      omega
    rw [readLoop, if_pos hshort, List.take_of_length_le (by omega)]
    split
    · rename_i hnil
      rw [List.length_eq_zero_iff.mp hnil, List.append_nil]
    · rfl
  | full hlong hserved ih =>
    rename_i file reads
    have hlen : (file.take CHUNK).length = CHUNK := List.length_take_of_le hlong
    obtain ⟨k, hk⟩ := haligned
    have htotal : (b ++ file.take CHUNK).length = b.length + CHUNK := by
      rw [List.length_append, hlen]
    rw [readLoop, if_neg (by rw [hlen]; decide), if_neg (by omega)]
    by_cases hcap : (b ++ file.take CHUNK).length ≥ CMDLINE_MAX
    · have hroom : CMDLINE_MAX - b.length = CHUNK := by
        unfold CMDLINE_MAX CHUNK at *
        omega
      rw [if_pos hcap, hroom]
    · rw [if_neg hcap, ih (by omega) (by rw [htotal, hk]; exact ⟨k + 1, by ring⟩), List.append_assoc]
      congr 1
      have hsum : CMDLINE_MAX - b.length = CHUNK + (CMDLINE_MAX - (b ++ file.take CHUNK).length) := by
        omega
      rw [hsum, List.take_add]

theorem cmdline_served (h : Served file reads) : cmdline (some reads) = file.take CMDLINE_MAX :=
  (readLoop_served h (by decide) (Nat.dvd_zero _)).trans (by simp)

theorem fill_eq (h : stored.length ≤ MAX_ARGS) :
    fill stored list = stored ++ list.take (MAX_ARGS - stored.length) := by
  induction list generalizing stored with
  | nil => simp [fill]
  | cons s list ih =>
    rw [fill]
    split
    · rename_i hfull
      rw [Nat.sub_eq_zero_of_le hfull, List.take_zero, List.append_nil]
    · rename_i hroom
      have hroom' : MAX_ARGS - stored.length = (MAX_ARGS - (stored ++ [s]).length) + 1 := by
        simp only [List.length_append, List.length_singleton]
        omega
      rw [ih (by simp only [List.length_append, List.length_singleton]; omega), hroom',
        List.take_succ_cons, List.append_assoc, List.singleton_append]

theorem pieces_terminated (s : CStr) (rest : List UInt8) :
    pieces (terminated s ++ rest) = full [s] ++ pieces rest := by
  have hs : ∀ x ∈ s.1, (x == 0) = false := fun x hx => beq_false_of_ne fun hzero =>
    s.2 (hzero ▸ hx)
  rw [pieces, terminated, List.append_assoc, List.singleton_append,
    List.splitOnP_append_cons_of_forall_mem hs 0 rfl, ← List.singleton_append, List.filter_append]
  rfl

theorem pieces_encode (argv : List CStr) (rest : List UInt8) :
    pieces (encode argv ++ rest) = full argv ++ pieces rest := by
  induction argv with
  | nil => rfl
  | cons s argv ih =>
    have hsplit : full (s :: argv) = full [s] ++ full argv := by
      rw [full, full, full, ← List.filter_append]
      rfl
    rw [encode, List.flatMap_cons, List.append_assoc, pieces_terminated, hsplit, List.append_assoc]
    exact congrArg (full [s] ++ ·) ih

theorem pieces_nil : pieces [] = [] := rfl

theorem pieces_tail (hne : rest ≠ []) (h : 0 ∉ rest) : pieces rest = [rest] := by
  have hclean : ∀ x ∈ rest, (x == 0) = false := fun x hx => beq_false_of_ne fun hzero =>
    h (hzero ▸ hx)
  rw [pieces, List.splitOnP_eq_singleton hclean]
  simp [hne]

theorem encode_append (before after : List CStr) :
    encode (before ++ after) = encode before ++ encode after := List.flatMap_append

theorem encode_singleton (s : CStr) : encode [s] = terminated s := List.flatMap_singleton _ _

theorem terminated_length (s : CStr) : (terminated s).length = s.1.length + 1 := by
  simp [terminated]

theorem complete_all (h : (encode argv).length ≤ room) : complete room argv = argv := by
  induction argv generalizing room with
  | nil => rfl
  | cons s argv ih =>
    have hlen : (encode (s :: argv)).length = s.1.length + 1 + (encode argv).length := by
      rw [encode, List.flatMap_cons, List.length_append, terminated_length]
      rfl
    rw [complete, if_pos (by omega), ih (by omega)]

theorem complete_fitting (hfits : (encode before).length ≤ room)
    (hpast : room < (encode (before ++ [s])).length) :
    complete room (before ++ s :: after) = before := by
  induction before generalizing room with
  | nil =>
    rw [List.nil_append, encode_singleton, terminated_length] at hpast
    rw [List.nil_append, complete, if_neg (by omega)]
  | cons t before ih =>
    rw [List.cons_append, encode, List.flatMap_cons, List.length_append, terminated_length] at hpast
    rw [encode, List.flatMap_cons, List.length_append, terminated_length] at hfits
    rw [List.cons_append, complete, if_pos (by omega)]
    refine congrArg (t :: ·) (ih ?_ ?_)
    · rw [encode]
      omega
    · rw [encode]
      omega

theorem exists_boundary (argv : List CStr) (room : ℕ) :
    (encode argv).length ≤ room ∨ ∃ before s after, argv = before ++ s :: after ∧
      (encode before).length ≤ room ∧ room < (encode (before ++ [s])).length := by
  induction argv using List.reverseRecOn with
  | nil => exact .inl (Nat.zero_le _)
  | append_singleton argv s ih =>
    rcases ih with hfits | ⟨before, t, after, rfl, hbounds⟩
    · rcases Nat.lt_or_ge room (encode (argv ++ [s])).length with hpast | hall
      · exact .inr ⟨argv, s, [], rfl, hfits, hpast⟩
      · exact .inl hall
    · exact .inr ⟨before, t, after ++ [s], by simp, hbounds⟩

theorem args_whole (h : line.length < CMDLINE_MAX ∨ line.getLast? = some 0) :
    args line = (pieces line).take MAX_ARGS := by
  have hkeep : ¬ (line.length ≥ CMDLINE_MAX ∧ line.getLast? ≠ some 0) := by
    rintro ⟨hlong, hlast⟩
    rcases h with hshort | hzero
    · omega
    · exact hlast hzero
  simp only [args, if_neg hkeep, List.take_length]
  exact fill_eq (Nat.zero_le _)

theorem args_cut (hlong : line.length ≥ CMDLINE_MAX) (hlast : line.getLast? ≠ some 0) :
    args line = ((pieces line).take MAX_ARGS).dropLast := by
  have hfill : fill [] (pieces line) = (pieces line).take MAX_ARGS := fill_eq (Nat.zero_le _)
  simp only [args, if_pos (show _ ∧ _ from ⟨hlong, hlast⟩), hfill, List.dropLast_eq_take]

theorem encode_ends (h : argv ≠ []) : (encode argv).getLast? = some 0 := by
  obtain ⟨before, s, rfl⟩ := List.eq_nil_or_concat'  argv |>.resolve_left h
  rw [encode_append, encode_singleton, terminated, ← List.append_assoc, List.getLast?_concat]

theorem args_encode (hcap : (encode argv).length ≤ CMDLINE_MAX) :
    args (encode argv) = (full argv).take MAX_ARGS := by
  have hpieces : pieces (encode argv) = full argv := by
    simpa [pieces_nil] using pieces_encode argv []
  have hend : (encode argv).length < CMDLINE_MAX ∨ (encode argv).getLast? = some 0 := by
    rcases eq_or_ne argv [] with rfl | hne
    · exact .inl (by decide)
    · exact .inr (encode_ends hne)
  rw [args_whole hend, hpieces]

theorem args_partial (hne : rest ≠ []) (hclean : 0 ∉ rest)
    (hcap : (encode before ++ rest).length = CMDLINE_MAX) :
    args (encode before ++ rest) = ((full before ++ [rest]).take MAX_ARGS).dropLast := by
  have hlast : (encode before ++ rest).getLast? ≠ some 0 := by
    intro hzero
    rw [List.getLast?_append_of_ne_nil _ hne] at hzero
    exact hclean (List.mem_of_getLast? hzero)
  rw [args_cut hcap.ge hlast, pieces_encode, pieces_tail hne hclean]

theorem dropLast_take_concat (list : List (List UInt8)) (rest : List UInt8) (n : ℕ) :
    ((list ++ [rest]).take (n + 1)).dropLast = list.take n := by
  rcases Nat.lt_or_ge n list.length with hlong | hshort
  · rw [List.take_append_of_le_length hlong, List.take_succ_eq_append_getElem hlong,
      List.dropLast_concat]
  · rw [List.take_of_length_le (by simpa using hshort), List.dropLast_concat,
      List.take_of_length_le hshort]

theorem take_cut (hfits : (encode before).length < room)
    (hpast : room < (encode (before ++ [s])).length) :
    ∃ rest, rest ≠ [] ∧ 0 ∉ rest ∧ (encode before ++ rest).length = room ∧
      (encode (before ++ s :: after)).take room = encode before ++ rest := by
  rw [encode_append, encode_singleton, List.length_append, terminated_length] at hpast
  have hlen : (s.1.take (room - (encode before).length)).length = room - (encode before).length :=
    List.length_take_of_le (by omega)
  refine ⟨s.1.take (room - (encode before).length), ?_, ?_, ?_, ?_⟩
  · apply List.ne_nil_of_length_pos
    omega
  · exact fun hzero => s.2 (List.mem_of_mem_take hzero)
  · rw [List.length_append, hlen]
    omega
  · have hrest : encode (s :: after) = s.1 ++ 0 :: encode after := by
      simp [encode, terminated]
    rw [encode_append, List.take_append, List.take_of_length_le hfits.le, hrest,
      List.take_append_of_le_length (by omega)]

theorem Cut.complete (h : Cut argv) :
    (encode (Cmdline.complete CMDLINE_MAX argv)).length < CMDLINE_MAX := by
  obtain ⟨before, s, after, rfl, hfits, hpast⟩ := h
  rw [complete_fitting hfits.le hpast]
  exact hfits

theorem complete_served (argv : List CStr) :
    Cmdline.complete ((encode argv).take CMDLINE_MAX).length argv =
      Cmdline.complete CMDLINE_MAX argv := by
  rw [List.length_take]
  rcases Nat.le_total CMDLINE_MAX (encode argv).length with hlong | hshort
  · rw [Nat.min_eq_left hlong]
  · rw [Nat.min_eq_right hshort, complete_all le_rfl, complete_all hshort]

theorem Cut.not_of_fits (h : (encode argv).length ≤ CMDLINE_MAX) : ¬ Cut argv := by
  rintro ⟨before, s, after, rfl, -, hpast⟩
  rw [List.append_cons, encode_append, List.length_append] at h
  omega

theorem extracted_cut (hserved : Served (encode (before ++ s :: after)) reads)
    (hfits : (encode before).length < CMDLINE_MAX)
    (hpast : CMDLINE_MAX < (encode (before ++ [s])).length) :
    Extracted (before ++ s :: after) reads ↔ (full before).length < MAX_ARGS := by
  obtain ⟨rest, hne, hclean, hlen, htake⟩ := take_cut hfits hpast
  have hkept : ((full before ++ [rest]).take MAX_ARGS).dropLast = (full before).take 63 :=
    dropLast_take_concat _ _ 63
  rw [Extracted, cmdline_served hserved, complete_served, complete_fitting hfits.le hpast, htake,
    args_partial hne hclean hlen, hkept]
  constructor
  · intro heq
    have hlength := congrArg List.length heq
    rw [List.length_take, List.length_take] at hlength
    unfold MAX_ARGS at *
    omega
  · intro hfew
    rw [List.take_of_length_le (Nat.le_of_lt_succ hfew), List.take_of_length_le hfew.le]

theorem extracted_whole (hserved : Served (encode (before ++ after)) reads)
    (htake : (encode (before ++ after)).take CMDLINE_MAX = encode before)
    (hcomplete : complete CMDLINE_MAX (before ++ after) = before) :
    Extracted (before ++ after) reads := by
  have hfits : (encode before).length ≤ CMDLINE_MAX := by
    rw [← htake]
    exact List.length_take_le _ _
  rw [Extracted, cmdline_served hserved, complete_served, hcomplete, htake, args_encode hfits]

theorem extracted_iff (h : Served (encode argv) reads) :
    Extracted argv reads ↔
      ¬ (Cut argv ∧ MAX_ARGS ≤ (full (complete CMDLINE_MAX argv)).length) := by
  rcases exists_boundary argv CMDLINE_MAX with hfits | ⟨before, s, after, rfl, hfits, hpast⟩
  · have hargv : argv ++ [] = argv := List.append_nil argv
    have hwhole : Extracted (argv ++ []) reads := by
      refine extracted_whole (hargv.symm ▸ h) ?_ ?_
      · rw [hargv, List.take_of_length_le hfits]
      · rw [hargv, complete_all hfits]
    exact iff_of_true (hargv ▸ hwhole) fun hcut => Cut.not_of_fits hfits hcut.1
  · have hcomplete : complete CMDLINE_MAX (before ++ s :: after) = before :=
      complete_fitting hfits hpast
    rcases hfits.lt_or_eq with hlt | heq
    · have hcut : Cut (before ++ s :: after) := ⟨before, s, after, rfl, hlt, hpast⟩
      rw [extracted_cut h hlt hpast, hcomplete, and_iff_right hcut, Nat.not_le]
    · have htake : (encode (before ++ s :: after)).take CMDLINE_MAX = encode before := by
        rw [encode_append, List.take_left' heq]
      refine iff_of_true (extracted_whole h htake hcomplete) fun hcut => ?_
      have hlt := hcut.1.complete
      rw [hcomplete] at hlt
      omega

theorem exists_served (file : List UInt8) : ∃ reads, Served file reads := by
  induction hn : file.length using Nat.strong_induction_on generalizing file with
  | _ n ih =>
    subst hn
    rcases Nat.lt_or_ge file.length CHUNK with hshort | hlong
    · exact ⟨[some file], .last [] hshort⟩
    · have hless : (file.drop CHUNK).length < file.length := by
        rw [List.length_drop]
        unfold CHUNK at *
        omega
      obtain ⟨reads, hreads⟩ := ih _ hless (file.drop CHUNK) rfl
      exact ⟨some (file.take CHUNK) :: reads, .full hlong hreads⟩

def letter : CStr := text "a" (by decide)

theorem long_clean : 0 ∉ List.replicate CMDLINE_MAX (120 : UInt8) := fun h =>
  absurd (List.eq_of_mem_replicate h) (by decide)

def long : CStr := ⟨List.replicate CMDLINE_MAX 120, long_clean⟩

theorem extracted_long : ∃ reads, Served (encode [letter, letter, long, letter]) reads ∧
    Extracted [letter, letter, long, letter] reads := by
  obtain ⟨reads, hserved⟩ := exists_served (encode [letter, letter, long, letter])
  refine ⟨reads, hserved, (extracted_iff hserved).mpr fun h => ?_⟩
  have hpast : CMDLINE_MAX < (encode ([letter, letter] ++ [long])).length := by
    rw [encode_append, List.length_append, encode_singleton, terminated_length, long,
      List.length_replicate]
    omega
  have hcomplete : complete CMDLINE_MAX ([letter, letter] ++ long :: [letter]) = [letter, letter] :=
    complete_fitting (by decide) hpast
  rw [List.cons_append, List.cons_append, List.nil_append] at hcomplete
  rw [hcomplete] at h
  exact absurd h.2 (by decide)

def crowded : List CStr := List.replicate MAX_ARGS letter ++ [long]

theorem crowded_drops : ¬ ∀ argv reads, Served (encode argv) reads → Extracted argv reads := by
  intro h
  obtain ⟨reads, hserved⟩ := exists_served (encode crowded)
  have hfits : (encode (List.replicate MAX_ARGS letter)).length < CMDLINE_MAX := by
    rw [encode, List.length_flatMap, List.map_replicate, List.sum_replicate]
    decide
  have hpast : CMDLINE_MAX < (encode (List.replicate MAX_ARGS letter ++ [long])).length := by
    rw [encode_append, List.length_append, encode_singleton, terminated_length, long,
      List.length_replicate]
    omega
  have hfew := (extracted_cut hserved hfits hpast).mp (h _ _ hserved)
  revert hfew
  decide

end Cmdline

end Ltop
