import Mathlib
import Ltop.Bytes
import Ltop.Library.Numeral

namespace Ltop

open Numeral

def NO_START : UInt64 := 0xffffffffffffffff

def isAsciiWhitespace (b : UInt8) : Bool := b ∈ [32, 9, 10, 12, 13]

def splitAsciiWhitespace (s : List UInt8) : List (List UInt8) :=
  (s.splitOnP isAsciiWhitespace).filter (· ≠ [])

def bytePosition (p : UInt8 → Bool) (s : List UInt8) : Option ℕ := s.findIdx? p

def byteRposition (p : UInt8 → Bool) (s : List UInt8) : Option ℕ :=
  (s.reverse.findIdx? p).map fun i => s.length - 1 - i

def parseStat (stat : List UInt8) : List UInt8 × List UInt8 :=
  let opening := (bytePosition (· == 40) stat).getD 0
  match byteRposition (· == 41) stat with
  | none => ([], [])
  | some close =>
    let comm := (stat.take close).drop (opening + 1)
    let tail := stat.drop (close + 1)
    let after := match bytePosition (fun b => !isAsciiWhitespace b) tail with
      | none => []
      | some i => tail.drop i
    (comm, after)

def parseU64Step (n : ℕ) (b : UInt8) : Option ℕ :=
  let d := (b - 48).toNat
  if d ≥ 10 then none
  else if n * 10 ≥ 2 ^ 64 then none
  else if n * 10 + d ≥ 2 ^ 64 then none
  else some (n * 10 + d)

def parseU64Ascii (s : List UInt8) : Option UInt64 :=
  if s = [] then none else (s.foldlM parseU64Step 0).map Nat.toUInt64

def readSmallFile (openAt : List UInt8 → Option (List UInt8)) (path : List UInt8) (cap : ℕ) :
    Option (List UInt8) :=
  match openAt path with
  | none => none
  | some content => if content.take cap = [] then none else some (content.take cap)

def IsWord (w : List UInt8) : Prop := w ≠ [] ∧ ∀ b ∈ w, isAsciiWhitespace b = false

structure Process where
  pid : UInt32
  comm : List UInt8
  state : UInt8
  numbers : List (List UInt8)
  start : UInt64
  rest : List UInt8
  comm_le : comm.length ≤ 64
  state_letter : 65 ≤ state ∧ state ≤ 122
  numbers_length : numbers.length = 18
  numbers_le : ∀ w ∈ numbers, w ≠ [] ∧ w.length ≤ 20
  numbers_decimal : ∀ w ∈ numbers, ∀ b ∈ w, b = 45 ∨ isDigit b
  rest_clean : 41 ∉ rest
  start_lt : start ≠ NO_START

namespace Process

variable (p : Process)

def fields : List (List UInt8) := [p.state] :: p.numbers

def afterComm : List UInt8 := p.fields.flatMap (· ++ [32]) ++ (decimal p.start.toNat ++ [32])

def stat : List UInt8 :=
  decimal p.pid.toNat ++ [32] ++ (40 :: p.comm) ++ (41 :: 32 :: p.afterComm) ++ p.rest

end Process

def statStart (stat : List UInt8) : Option UInt64 :=
  (splitAsciiWhitespace (parseStat stat).2)[19]?.bind parseU64Ascii

variable {p : Process} {b : UInt8} {w s t : List UInt8} {words : List (List UInt8)}

theorem splitAsciiWhitespace_cons (h : IsWord w) (rest : List UInt8) :
    splitAsciiWhitespace (w ++ 32 :: rest) = w :: splitAsciiWhitespace rest := by
  unfold splitAsciiWhitespace
  rw [List.splitOnP_append_cons_of_forall_mem h.2 32 (by decide),
    List.filter_cons_of_pos (by simpa using h.1)]

theorem splitAsciiWhitespace_words (h : ∀ w ∈ words, IsWord w) (rest : List UInt8) :
    splitAsciiWhitespace (words.flatMap (· ++ [32]) ++ rest) = words ++ splitAsciiWhitespace rest := by
  induction words with
  | nil => rfl
  | cons w words ih =>
    obtain ⟨hw, hwords⟩ := List.forall_mem_cons.mp h
    rw [List.flatMap_cons, List.append_assoc, List.append_assoc, List.singleton_append,
      splitAsciiWhitespace_cons hw, ih hwords, List.cons_append]

theorem parseU64Step_digit {n : ℕ} {b : UInt8} (hb : isDigit b) (hn : n * 10 + digit b < 2 ^ 64) :
    parseU64Step n b = some (n * 10 + digit b) := by
  have hd : (b - 48).toNat = digit b := by
    simp only [isDigit, Bool.and_eq_true, decide_eq_true_eq] at hb
    exact UInt8.toNat_sub_of_le _ _ hb.1
  have hlt := digit_lt hb
  unfold parseU64Step
  simp only [hd]
  rw [if_neg (by omega), if_neg (by omega), if_neg (by omega)]

theorem foldlM_parseU64Step (h : AllDigits s) (hlt : value s < 2 ^ 64) :
    s.foldlM parseU64Step 0 = some (value s) := by
  induction s using List.reverseRecOn with
  | nil => rfl
  | append_singleton s b ih =>
    obtain ⟨hs, hb⟩ := List.forall_mem_append.mp h
    rw [value_concat] at hlt
    rw [List.foldlM_append, ih hs (by omega), value_concat]
    have hstep := parseU64Step_digit (hb b (List.mem_singleton_self b)) hlt
    simp [hstep]

theorem parseU64Ascii_decimal (n : UInt64) : parseU64Ascii (decimal n.toNat) = some n := by
  have hfold := foldlM_parseU64Step (decimal_allDigits n.toNat) ((value_decimal _).trans_lt n.toNat_lt)
  unfold parseU64Ascii
  rw [if_neg (decimal_ne_nil _), hfold, value_decimal, Option.map_some, Nat.toUInt64,
    UInt64.ofNat_toNat]

theorem bytePosition_append {p : UInt8 → Bool} {b : UInt8} (hs : ∀ x ∈ s, p x = false) (hb : p b) :
    bytePosition p (s ++ b :: t) = some s.length := by
  unfold bytePosition
  rw [List.findIdx?_append, List.findIdx?_eq_none_iff.mpr hs]
  simp [List.findIdx?_cons, hb]

theorem byteRposition_append {p : UInt8 → Bool} {b : UInt8} (ht : ∀ x ∈ t, p x = false) (hb : p b) :
    byteRposition p (s ++ b :: t) = some s.length := by
  have hrev : (s ++ b :: t).reverse = t.reverse ++ b :: s.reverse := by simp
  have hpos := bytePosition_append (s := t.reverse) (t := s.reverse)
    (fun x hx => ht x (List.mem_reverse.mp hx)) hb
  unfold bytePosition at hpos
  unfold byteRposition
  rw [hrev, hpos, Option.map_some, List.length_reverse, List.length_append, List.length_cons]
  congr 1
  omega

theorem parseStat_eq {pid comm after : List UInt8} {c : UInt8} (hpid : 40 ∉ pid)
    (hc : isAsciiWhitespace c = false) (hafter : 41 ∉ c :: after) :
    parseStat (pid ++ (40 :: comm) ++ (41 :: 32 :: c :: after)) = (comm, c :: after) := by
  have hopen : bytePosition (· == 40) (pid ++ (40 :: comm) ++ (41 :: 32 :: c :: after)) =
      some pid.length := by
    rw [List.append_assoc, List.cons_append]
    refine bytePosition_append (fun x hx => ?_) rfl
    simpa using fun h : x = 40 => hpid (h ▸ hx)
  have hclose : byteRposition (· == 41) (pid ++ (40 :: comm) ++ (41 :: 32 :: c :: after)) =
      some (pid ++ 40 :: comm).length := by
    refine byteRposition_append (fun x hx => ?_) rfl
    rcases List.mem_cons.mp hx with rfl | hx
    · rfl
    · simpa using fun h : x = 41 => hafter (h ▸ hx)
  have hskip : bytePosition (fun b => !isAsciiWhitespace b) (32 :: c :: after) = some 1 := by
    have hspace : ∀ x ∈ [(32 : UInt8)], (!isAsciiWhitespace x) = false :=
      List.forall_mem_singleton.mpr rfl
    exact bytePosition_append hspace (by simp [hc])
  unfold parseStat
  rw [hopen, hclose]
  have hlen : (pid ++ 40 :: comm).length + 1 = (pid ++ 40 :: comm ++ [41]).length := by simp [Nat.add_assoc]
  have hdrop : (pid ++ (40 :: comm) ++ (41 :: 32 :: c :: after)).drop
      ((pid ++ 40 :: comm).length + 1) = 32 :: c :: after := by
    rw [hlen, show pid ++ (40 :: comm) ++ (41 :: 32 :: c :: after) =
      (pid ++ 40 :: comm ++ [41]) ++ 32 :: c :: after by simp, List.drop_left]
  simp only [hdrop, hskip, List.take_left, Option.getD_some, List.drop_succ_cons, List.drop_zero]
  rw [show pid ++ 40 :: comm = (pid ++ [40]) ++ comm by simp,
    show pid.length + 1 = (pid ++ [40]).length by simp, List.drop_left]

theorem digit_word (h : isDigit b ∨ b = 45) : isAsciiWhitespace b = false ∧ b ≠ 40 ∧ b ≠ 41 := by
  rcases h with h | rfl
  · simp only [isDigit, Bool.and_eq_true, decide_eq_true_eq, UInt8.le_iff_toNat_le] at h
    have h48 : (48 : UInt8).toNat = 48 := rfl
    have hne : ∀ c : UInt8, c.toNat < 48 → b ≠ c := fun c hc heq => by
      rw [heq] at h
      omega
    refine ⟨?_, hne 40 (by decide), hne 41 (by decide)⟩
    simp only [isAsciiWhitespace, decide_eq_false_iff_not, List.mem_cons, List.not_mem_nil,
      or_false, not_or]
    exact ⟨hne 32 (by decide), hne 9 (by decide), hne 10 (by decide), hne 12 (by decide),
      hne 13 (by decide)⟩
  · decide

theorem decimal_word (n : ℕ) : IsWord (decimal n) :=
  ⟨decimal_ne_nil n, fun b hb => (digit_word (.inl (decimal_allDigits n b hb))).1⟩

namespace Process

theorem state_plain (p : Process) : isAsciiWhitespace p.state = false ∧ p.state ≠ 41 := by
  have hlow := p.state_letter.1
  simp only [UInt8.le_iff_toNat_le] at hlow
  have h65 : (65 : UInt8).toNat = 65 := rfl
  have hne : ∀ c : UInt8, c.toNat < 65 → p.state ≠ c := fun c hc heq => by
    rw [heq] at hlow
    omega
  refine ⟨?_, hne 41 (by decide)⟩
  simp only [isAsciiWhitespace, decide_eq_false_iff_not, List.mem_cons, List.not_mem_nil,
    or_false, not_or]
  exact ⟨hne 32 (by decide), hne 9 (by decide), hne 10 (by decide), hne 12 (by decide),
    hne 13 (by decide)⟩

theorem fields_word (p : Process) : ∀ w ∈ p.fields, IsWord w := by
  intro w hw
  rcases List.mem_cons.mp hw with rfl | hw
  · exact ⟨List.cons_ne_nil _ _, fun b hb => (List.mem_singleton.mp hb) ▸ p.state_plain.1⟩
  · exact ⟨(p.numbers_le w hw).1, fun b hb => (digit_word (p.numbers_decimal w hw b hb).symm).1⟩

theorem afterComm_clean (p : Process) : 41 ∉ p.afterComm := by
  intro h
  rcases List.mem_append.mp h with h | h
  · obtain ⟨w, hw, h⟩ := List.mem_flatMap.mp h
    rcases List.mem_append.mp h with h | h
    · rcases List.mem_cons.mp hw with rfl | hw
      · exact p.state_plain.2 (List.mem_singleton.mp h).symm
      · exact (digit_word (p.numbers_decimal w hw 41 h).symm).2.2 rfl
    · exact absurd (List.mem_singleton.mp h) (by decide)
  · rcases List.mem_append.mp h with h | h
    · exact (digit_word (.inl (decimal_allDigits _ 41 h))).2.2 rfl
    · exact absurd (List.mem_singleton.mp h) (by decide)

theorem afterComm_length (p : Process) : p.afterComm.length ≤ 401 := by
  have hsum : ∀ words : List (List UInt8), (∀ w ∈ words, w.length ≤ 20) →
      (words.flatMap (· ++ [32])).length ≤ words.length * 21 := by
    intro words
    induction words with
    | nil => intro _; exact le_rfl
    | cons w words ih =>
      intro h
      obtain ⟨hw, hwords⟩ := List.forall_mem_cons.mp h
      have := ih hwords
      rw [List.flatMap_cons, List.length_append, List.length_append, List.length_singleton,
        List.length_cons]
      omega
  have hnumbers := hsum p.numbers fun w hw => (p.numbers_le w hw).2
  have hstart : (decimal p.start.toNat).length ≤ 20 :=
    decimal_length_le (by decide) (p.start.toNat_lt.trans (by decide))
  rw [p.numbers_length] at hnumbers
  rw [afterComm, fields, List.flatMap_cons]
  simp only [List.length_append, List.length_singleton]
  omega

theorem statStart_stat (p : Process) : statStart (p.stat.take 480) = some p.start := by
  have hpid : (decimal p.pid.toNat).length ≤ 10 :=
    decimal_length_le (by decide) (p.pid.toNat_lt.trans (by decide))
  have hafter := p.afterComm_length
  have hcomm := p.comm_le
  let header := decimal p.pid.toNat ++ [32] ++ (40 :: p.comm) ++ (41 :: 32 :: p.afterComm)
  have hlen : header.length ≤ 480 := by
    simp only [header, List.length_append, List.length_cons, List.length_nil]
    omega
  have htake : p.stat.take 480 = header ++ p.rest.take (480 - header.length) := by
    rw [show p.stat = header ++ p.rest from rfl, List.take_append, List.take_of_length_le hlen]
  generalize 480 - header.length = k at htake
  have hopen : 40 ∉ decimal p.pid.toNat ++ [32] := by
    intro h
    rcases List.mem_append.mp h with h | h
    · exact (digit_word (.inl (decimal_allDigits _ 40 h))).2.1 rfl
    · exact absurd (List.mem_singleton.mp h) (by decide)
  have hclean : 41 ∉ p.afterComm ++ p.rest.take k := fun h =>
    (List.mem_append.mp h).elim p.afterComm_clean fun h => p.rest_clean (List.mem_of_mem_take h)
  have hfirst : p.afterComm ++ p.rest.take k =
      p.state :: (32 :: p.numbers.flatMap (· ++ [32]) ++ (decimal p.start.toNat ++ [32]) ++
        p.rest.take k) := rfl
  have hparse : (parseStat (p.stat.take 480)).2 = p.afterComm ++ p.rest.take k := by
    rw [hfirst] at hclean
    have hstat : parseStat (decimal p.pid.toNat ++ [32] ++ (40 :: p.comm) ++ (41 :: 32 :: _)) = _ :=
      parseStat_eq hopen p.state_plain.1 hclean
    rw [← hfirst] at hstat
    rw [htake, show header ++ p.rest.take k = decimal p.pid.toNat ++ [32] ++ (40 :: p.comm) ++
      (41 :: 32 :: (p.afterComm ++ p.rest.take k)) by simp [header], hstat]
  have hsplit : splitAsciiWhitespace (p.afterComm ++ p.rest.take k) =
      p.fields ++ decimal p.start.toNat :: splitAsciiWhitespace (p.rest.take k) := by
    have hcons := splitAsciiWhitespace_cons (decimal_word p.start.toNat) (p.rest.take k)
    rw [afterComm, List.append_assoc, splitAsciiWhitespace_words p.fields_word, List.append_assoc,
      List.singleton_append, hcons]
  have hfields : p.fields.length = 19 := congrArg (· + 1) p.numbers_length
  have hnth : (p.fields ++ decimal p.start.toNat :: splitAsciiWhitespace (p.rest.take k))[19]? =
      some (decimal p.start.toNat) := by
    rw [← hfields, List.getElem?_append_right le_rfl, Nat.sub_self]
    rfl
  rw [statStart, hparse, hsplit, hnth, Option.bind_some, parseU64Ascii_decimal]

theorem stat_take_ne_nil (p : Process) : p.stat.take 480 ≠ [] := by
  have hne : p.stat ≠ [] := by simp [stat]
  simp [List.take_eq_nil_iff, hne]

end Process

structure ProcessTable where
  processes : List Process
  unique : (processes.map Process.pid).Nodup

namespace ProcessTable

variable (t : ProcessTable)

def statPath (pid : List UInt8) : List UInt8 := bytes "/proc/" ++ pid ++ bytes "/stat"

def openStat (path : List UInt8) : Option (List UInt8) :=
  (t.processes.find? fun p => path = statPath (decimal p.pid.toNat)).map Process.stat

def Live (pid start : ℕ) : Prop := ∃ p ∈ t.processes, p.pid.toNat = pid ∧ p.start.toNat = start

theorem statPath_inj {s t : List UInt8} : statPath s = statPath t ↔ s = t := by
  unfold statPath
  rw [List.append_left_inj, List.append_right_inj]

variable {t}

theorem same_pid {p q : Process} (hp : p ∈ t.processes) (hq : q ∈ t.processes)
    (h : p.pid = q.pid) : p = q :=
  List.inj_on_of_nodup_map t.unique hp hq h

theorem openStat_live {p : Process} (hp : p ∈ t.processes) :
    t.openStat (statPath (decimal p.pid.toNat)) = some p.stat := by
  unfold openStat
  cases hfind : t.processes.find? fun q =>
      statPath (decimal p.pid.toNat) = statPath (decimal q.pid.toNat) with
  | none =>
    have := List.find?_eq_none.mp hfind p hp
    simp at this
  | some q =>
    have heq := List.find?_some hfind
    simp only [decide_eq_true_eq, statPath_inj, decimal_inj] at heq
    rw [same_pid hp (List.mem_of_find?_eq_some hfind) (UInt32.toNat_inj.mp heq)]
    rfl

theorem openStat_some {s content : List UInt8} (h : t.openStat (statPath s) = some content) :
    ∃ p ∈ t.processes, s = decimal p.pid.toNat := by
  obtain ⟨p, hfind, -⟩ := Option.map_eq_some_iff.mp h
  have heq := List.find?_some hfind
  simp only [decide_eq_true_eq, statPath_inj] at heq
  exact ⟨p, List.mem_of_find?_eq_some hfind, heq⟩

end ProcessTable

end Ltop
