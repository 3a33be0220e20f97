import Mathlib
import Ltop.ArenaReplay
import Ltop.ArenaDrawn
import Ltop.Truncate
import Ltop.Library.Numeral

namespace Ltop.Arena

open ArenaSvg (Event)

def push (size : ℕ) (buf bytes : List UInt8) : Option (List UInt8) :=
  if buf.length + bytes.length ≤ size then some (buf ++ bytes) else none

def digitLoop : ℕ → UInt32 → List UInt8 → Option (List UInt8)
  | 0, n, digits => if n > 0 then none else some digits
  | k + 1, n, digits =>
    if n > 0 then digitLoop k (n / 10) ((48 + (n % 10).toUInt8) :: digits) else some digits

def pushU32 (size : ℕ) (buf : List UInt8) (n : UInt32) : Option (List UInt8) := do
  let digits ← if n = 0 then some [48] else digitLoop 10 n []
  push size buf digits

def traceAlloc (label : List UInt8) (newOffset : UInt32) : Option (List UInt8) := do
  let buf ← push 256 [] (bytes "A ")
  let buf ← pushU32 256 buf newOffset
  let buf ← push 256 buf (bytes " ")
  let label := if label.length > 240 then label.take 240 else label
  let buf ← push 256 buf label
  push 256 buf [10]

def traceOffset (kind : List UInt8) (newOffset : UInt32) : Option (List UInt8) := do
  let buf ← push 32 [] kind
  let buf ← pushU32 32 buf newOffset
  push 32 buf [10]

def traceRewind (newOffset : UInt32) : Option (List UInt8) := traceOffset (bytes "R ") newOffset

def traceUncommit (newOffset : UInt32) : Option (List UInt8) := traceOffset (bytes "U ") newOffset

def traceLine : Event (List Char) → Option (List UInt8)
  | .alloc n label => traceAlloc (encode label) n.toUInt32
  | .rewind n => traceRewind n.toUInt32
  | .uncommit n => traceUncommit n.toUInt32

def traceLog (events : List (Event (List Char))) : Option (List UInt8) :=
  (events.mapM traceLine).map List.flatten

end Ltop.Arena

namespace Ltop.ArenaSvg

open Numeral

def isWhitespace (c : Char) : Bool :=
  let n := c.toNat
  (9 ≤ n && n ≤ 13) || n == 0x20 || n == 0x85 || n == 0xA0 || n == 0x1680 ||
    (0x2000 ≤ n && n ≤ 0x200A) || n == 0x2028 || n == 0x2029 || n == 0x202F || n == 0x205F ||
    n == 0x3000

def trimEnd (s : List Char) : List Char := s.rdropWhile isWhitespace

def splitOnce (c : Char) : List Char → Option (List Char × List Char)
  | [] => none
  | x :: s => if x = c then some ([], s) else (splitOnce c s).map fun (a, b) => (x :: a, b)

def parseU32Step (n : ℕ) (c : Char) : Option ℕ :=
  if c.isDigit then
    let n := n * 10 + (c.toNat - 48)
    if n < 2 ^ 32 then some n else none
  else none

def parseU32 (s : List Char) : Option ℕ :=
  let digits := if s.head? = some '+' then s.tail else s
  if digits = [] then none else digits.foldlM parseU32Step 0

def parse (line : List Char) : Option (Event (List Char)) :=
  let line := trimEnd line
  if line = [] then none
  else do
    let (kind, rest) ← splitOnce ' ' line
    match kind with
    | ['A'] =>
      let (off, label) := (splitOnce ' ' rest).getD (rest, [])
      let newOffset ← parseU32 off
      some (.alloc newOffset label)
    | ['R'] => (parseU32 rest).map .rewind
    | ['U'] => (parseU32 rest).map .uncommit
    | _ => none

def splitInclusive : List Char → List (List Char)
  | [] => []
  | c :: s =>
    if c = '\n' then [c] :: splitInclusive s
    else
      match splitInclusive s with
      | [] => [[c]]
      | l :: ls => (c :: l) :: ls

def stripSuffix (c : Char) (l : List Char) : Option (List Char) :=
  if l.getLast? = some c then some l.dropLast else none

def stripEnd (l : List Char) : List Char :=
  match stripSuffix '\n' l with
  | none => l
  | some l => (stripSuffix '\r' l).getD l

def lines (s : List Char) : List (List Char) := (splitInclusive s).map stripEnd

def readToString (file : List UInt8) : Option (List Char) :=
  file.toByteArray.utf8Decode?.map Array.toList

def readLog (file : List UInt8) : Option (List (Event (List Char))) :=
  (readToString file).map fun src => (lines src).filterMap parse

variable {c : Char} {a b l : List Char} {s t : List UInt8} {n k : ℕ}

theorem readToString_iff : readToString s = some l ↔ s = encode l := by
  rw [readToString, Option.map_eq_some_iff]
  constructor
  · rintro ⟨cs, hcs, rfl⟩
    have hsome : s.toByteArray.utf8Decode?.isSome := by rw [hcs]; rfl
    have heq := ByteArray.utf8Encode_get_utf8Decode? (h := hsome)
    simp only [hcs, Option.get_some] at heq
    exact (List.toByteArray_inj.mp heq).symm
  · rintro rfl
    exact ⟨l.toArray, List.utf8Decode?_utf8Encode, rfl⟩

@[simp] theorem readToString_encode (l : List Char) : readToString (encode l) = some l :=
  readToString_iff.mpr rfl

theorem encode_append (a b : List Char) : encode (a ++ b) = encode a ++ encode b :=
  List.flatMap_append

theorem trimEnd_append (a b : List Char) :
    trimEnd (a ++ b) = if trimEnd b = [] then trimEnd a else a ++ trimEnd b := by
  induction b using List.reverseRecOn with
  | nil => simp [trimEnd]
  | append_singleton b c ih =>
    rw [← List.append_assoc, trimEnd, trimEnd, List.rdropWhile_concat, List.rdropWhile_concat]
    split
    · exact ih
    · rw [if_neg (by simp), List.append_assoc]

theorem trimEnd_concat (h : isWhitespace c = false) : trimEnd (a ++ [c]) = a ++ [c] :=
  List.rdropWhile_concat_neg _ _ _ (by simp [h])

theorem parse_congr (h : trimEnd a = trimEnd b) : parse a = parse b := by
  unfold parse
  rw [h]

theorem splitOnce_append (h : c ∉ a) : splitOnce c (a ++ c :: b) = some (a, b) := by
  induction a with
  | nil => simp [splitOnce]
  | cons x a ih =>
    obtain ⟨hx, ha⟩ := not_or.mp (mt List.mem_cons.mpr h)
    rw [List.cons_append, splitOnce, if_neg (Ne.symm hx), ih ha]
    rfl

theorem splitOnce_none (h : c ∉ a) : splitOnce c a = none := by
  induction a with
  | nil => rfl
  | cons x a ih =>
    obtain ⟨hx, ha⟩ := not_or.mp (mt List.mem_cons.mpr h)
    rw [splitOnce, if_neg (Ne.symm hx), ih ha]
    rfl

theorem splitInclusive_append (h : '\n' ∉ l) :
    splitInclusive (l ++ '\n' :: a) = (l ++ ['\n']) :: splitInclusive a := by
  induction l with
  | nil => rw [List.nil_append, splitInclusive, if_pos rfl, List.nil_append]
  | cons x l ih =>
    obtain ⟨hx, hl⟩ := not_or.mp (mt List.mem_cons.mpr h)
    rw [List.cons_append, splitInclusive, if_neg (Ne.symm hx), ih hl, List.cons_append]

theorem trimEnd_stripEnd (l : List Char) : trimEnd (stripEnd (l ++ ['\n'])) = trimEnd l := by
  rw [stripEnd, stripSuffix, if_pos List.getLast?_concat, List.dropLast_concat]
  dsimp only
  rw [stripSuffix]
  split
  · rename_i hlast
    obtain ⟨m, rfl⟩ := List.getLast?_eq_some_iff.mp hlast
    rw [Option.getD_some, List.dropLast_concat, trimEnd, trimEnd,
      List.rdropWhile_concat_pos _ _ _ (by decide)]
  · rfl

theorem parsed_line (h : '\n' ∉ l) (a : List Char) :
    (lines (l ++ '\n' :: a)).filterMap parse = (parse l).toList ++ (lines a).filterMap parse := by
  rw [lines, splitInclusive_append h, List.map_cons, List.filterMap_cons,
    parse_congr (trimEnd_stripEnd l)]
  cases parse l <;> rfl

def asChars (s : List UInt8) : List Char := s.map fun b => Char.ofNat b.toNat

theorem asciiChar_toNat {b : UInt8} (h : b < 0x80) : (Char.ofNat b.toNat).toNat = b.toNat := by
  simp only [UInt8.lt_iff_toNat_lt, UInt8.reduceToNat] at h
  rw [Char.toNat_ofNat, if_pos (.inl (by omega))]

theorem asciiChar {b : UInt8} (h : b < 0x80) : String.utf8EncodeChar (Char.ofNat b.toNat) = [b] := by
  have heq := asciiChar_toNat h
  simp only [UInt8.lt_iff_toNat_lt, UInt8.reduceToNat] at h
  have hle : b.toNat ≤ 127 := Nat.le_of_lt_succ h
  simp [String.utf8EncodeChar, heq, hle]

theorem encode_asChars (h : ∀ b ∈ s, b < 0x80) : encode (asChars s) = s := by
  induction s with
  | nil => rfl
  | cons b s ih =>
    obtain ⟨hb, hs⟩ := List.forall_mem_cons.mp h
    rw [asChars, List.map_cons, encode, List.flatMap_cons, asciiChar hb]
    exact congrArg (b :: ·) (ih hs)

def digitChars (n : ℕ) : List Char := asChars (decimal n)

theorem isDigit_ascii {b : UInt8} (h : isDigit b) : b < 0x80 := by
  simp only [isDigit, Bool.and_eq_true, decide_eq_true_eq, UInt8.le_iff_toNat_le,
    UInt8.reduceToNat] at h
  simp only [UInt8.lt_iff_toNat_lt, UInt8.reduceToNat]
  omega

theorem digit_isDigit {b : UInt8} (h : isDigit b) : (Char.ofNat b.toNat).isDigit = true := by
  have heq := asciiChar_toNat (isDigit_ascii h)
  simp only [isDigit, Bool.and_eq_true, decide_eq_true_eq, UInt8.le_iff_toNat_le,
    UInt8.reduceToNat] at h
  rw [Char.isDigit_iff_toNat, heq]
  exact h

theorem encode_digitChars (n : ℕ) : encode (digitChars n) = decimal n :=
  encode_asChars fun b hb => isDigit_ascii (decimal_allDigits n b hb)

theorem digitChars_digit (hc : c ∈ digitChars n) : c.isDigit = true := by
  obtain ⟨b, hb, rfl⟩ := List.mem_map.mp hc
  exact digit_isDigit (decimal_allDigits n b hb)

theorem digitChars_ne_nil (n : ℕ) : digitChars n ≠ [] :=
  mt List.map_eq_nil_iff.mp (decimal_ne_nil n)

theorem digit_notWhitespace (h : c.isDigit = true) : isWhitespace c = false := by
  rw [Char.isDigit_iff_toNat] at h
  have hzero : '0'.toNat = 48 := rfl
  have hnine : '9'.toNat = 57 := rfl
  simp only [isWhitespace, Bool.or_eq_false_iff, Bool.and_eq_false_iff, decide_eq_false_iff_not,
    beq_eq_false_iff_ne]
  omega

theorem foldlM_digits (hs : AllDigits s) (h : valueFrom k s < 2 ^ 32) :
    (asChars s).foldlM parseU32Step k = some (valueFrom k s) := by
  induction s generalizing k with
  | nil => rfl
  | cons b s ih =>
    obtain ⟨hb, hs⟩ := allDigits_cons.mp hs
    have hle : k * 10 + digit b < 2 ^ 32 := (le_valueFrom _ s).trans_lt h
    have hstep : parseU32Step k (Char.ofNat b.toNat) = some (k * 10 + digit b) := by
      rw [parseU32Step, if_pos (digit_isDigit hb), asciiChar_toNat (isDigit_ascii hb)]
      exact if_pos hle
    rw [asChars, List.map_cons, List.foldlM_cons, hstep]
    exact ih hs h

theorem parseU32_digitChars (h : n < 2 ^ 32) : parseU32 (digitChars n) = some n := by
  have hhead : (digitChars n).head? ≠ some '+' := fun hplus =>
    absurd (digitChars_digit (List.mem_of_head? hplus)) (by decide)
  rw [parseU32, if_neg hhead, if_neg (digitChars_ne_nil n), digitChars,
    foldlM_digits (decimal_allDigits n), ← value, value_decimal]
  rwa [← value, value_decimal]

def keptLabel (label : List Char) : Option (List Char) := readToString ((encode label).take 240)

def readBack : Event (List Char) → Option (Event (List Char))
  | .alloc n label => (keptLabel label).map fun kept => .alloc n (trimEnd kept)
  | .rewind n => some (.rewind n)
  | .uncommit n => some (.uncommit n)

def content : Event (List Char) → Option (List Char)
  | .alloc n label => (keptLabel label).map fun kept => 'A' :: ' ' :: digitChars n ++ ' ' :: kept
  | .rewind n => some ('R' :: ' ' :: digitChars n)
  | .uncommit n => some ('U' :: ' ' :: digitChars n)

theorem space_digitChars (n : ℕ) : ' ' ∉ digitChars n := fun h => by
  simpa using digitChars_digit h

theorem newline_digitChars (n : ℕ) : '\n' ∉ digitChars n := fun h => by
  simpa using digitChars_digit h

theorem trimEnd_digits (a : List Char) (n : ℕ) : trimEnd (a ++ digitChars n) = a ++ digitChars n := by
  obtain ⟨m, c, hmc⟩ := (List.eq_nil_or_concat' (digitChars n)).resolve_left (digitChars_ne_nil n)
  have hc : c.isDigit = true := digitChars_digit (hmc ▸ List.mem_append_right _ List.mem_cons_self)
  rw [hmc, ← List.append_assoc, trimEnd_concat (digit_notWhitespace hc)]

theorem parse_alloc (hn : n < 2 ^ 32) (label : List Char) :
    parse ('A' :: ' ' :: digitChars n ++ ' ' :: label) = some (.alloc n (trimEnd label)) := by
  have htrim : trimEnd ('A' :: ' ' :: digitChars n ++ ' ' :: label) =
      'A' :: ' ' :: digitChars n ++ if trimEnd label = [] then [] else ' ' :: trimEnd label := by
    have hspace : trimEnd (' ' :: label) = if trimEnd label = [] then [] else ' ' :: trimEnd label :=
      trimEnd_append [' '] label
    rw [trimEnd_append, hspace]
    by_cases hlabel : trimEnd label = []
    · simp only [hlabel, if_true, List.append_nil]
      exact trimEnd_digits ['A', ' '] n
    · simp only [hlabel, if_false, List.cons_ne_nil]
  have hkind : splitOnce ' ' ('A' :: ' ' :: digitChars n ++ if trimEnd label = [] then [] else
      ' ' :: trimEnd label) = some (['A'], digitChars n ++ if trimEnd label = [] then [] else
      ' ' :: trimEnd label) := splitOnce_append (a := ['A']) (by decide)
  have hoff : (splitOnce ' ' (digitChars n ++ if trimEnd label = [] then [] else
      ' ' :: trimEnd label)).getD (digitChars n ++ if trimEnd label = [] then [] else
      ' ' :: trimEnd label, []) = (digitChars n, trimEnd label) := by
    by_cases hlabel : trimEnd label = []
    · simp [hlabel, splitOnce_none (space_digitChars n)]
    · simp [hlabel, splitOnce_append (space_digitChars n)]
  unfold parse
  rw [htrim]
  simp only [List.cons_append, List.cons_ne_nil, if_false] at hkind ⊢
  simp only [hkind, Option.bind_eq_bind, Option.bind_some, hoff, parseU32_digitChars hn]

theorem parse_offset (hn : n < 2 ^ 32) :
    parse ('R' :: ' ' :: digitChars n) = some (.rewind n) ∧
      parse ('U' :: ' ' :: digitChars n) = some (.uncommit n) := by
  have htrim : ∀ kind, trimEnd (kind :: ' ' :: digitChars n) = kind :: ' ' :: digitChars n :=
    fun kind => trimEnd_digits [kind, ' '] n
  have hkind : ∀ kind, ' ' ≠ kind →
      splitOnce ' ' (kind :: ' ' :: digitChars n) = some ([kind], digitChars n) :=
    fun kind h => splitOnce_append (a := [kind]) (by simpa using h)
  constructor
  all_goals
    unfold parse
    rw [htrim]
    simp [hkind, parseU32_digitChars hn]

theorem readToString_append (a : List Char) (t : List UInt8) :
    readToString (encode a ++ t) = (readToString t).map (a ++ ·) := by
  refine Option.ext fun cs => ?_
  rw [readToString_iff, Option.map_eq_some_iff]
  constructor
  · intro h
    have hbytes : a.utf8Encode ++ t.toByteArray = cs.utf8Encode := by
      rw [List.utf8Encode, List.utf8Encode, ← List.toByteArray_append]
      exact congrArg List.toByteArray h
    obtain ⟨r, rfl⟩ := List.isPrefix_of_utf8Encode_append_eq_utf8Encode _ hbytes
    rw [encode_append, List.append_cancel_left_eq] at h
    exact ⟨r, readToString_iff.mpr h, rfl⟩
  · rintro ⟨r, hr, rfl⟩
    rw [encode_append, readToString_iff.mp hr]

theorem readToString_newline (h : readToString (s ++ 10 :: t) = some l) :
    (readToString s).isSome := by
  have heq := readToString_iff.mp h
  have hbyte : (encode l)[s.length]? = some 10 := by
    rw [← heq, List.getElem?_append_right le_rfl, Nat.sub_self]
    rfl
  obtain ⟨x, hx⟩ := (CharBoundary.of_starts hbyte (by decide)).take_encode
  rw [← heq, List.take_left'] at hx
  · rw [hx, readToString_encode]
    rfl
  · rfl

def lineBytes : Event (List Char) → List UInt8
  | .alloc n label => bytes "A " ++ decimal n ++ bytes " " ++ (encode label).take 240 ++ [10]
  | .rewind n => bytes "R " ++ decimal n ++ [10]
  | .uncommit n => bytes "U " ++ decimal n ++ [10]

variable {ev : Event (List Char)} {events : List (Event (List Char))} {line : List Char}

theorem encode_offset {kind : Char} (hkind : kind.toNat < 0x80) (n : ℕ) :
    encode (kind :: ' ' :: digitChars n) = kind.toNat.toUInt8 :: 32 :: decimal n := by
  have hhead : String.utf8EncodeChar kind = [kind.toNat.toUInt8] := by
    simp [String.utf8EncodeChar, Nat.le_of_lt_succ hkind]
  rw [← encode_digitChars n, encode, List.flatMap_cons, hhead]
  rfl

theorem lineBytes_content (h : content ev = some line) :
    lineBytes ev = encode (line ++ ['\n']) := by
  cases ev with
  | alloc n label =>
    obtain ⟨kept, hkept, rfl⟩ := Option.map_eq_some_iff.mp h
    have hspace : encode (' ' :: kept) = bytes " " ++ encode kept := rfl
    rw [encode_append, encode_append, encode_offset (by decide), hspace,
      ← readToString_iff.mp hkept, ← List.append_assoc]
    rfl
  | rewind n =>
    cases h
    rw [encode_append, encode_offset (by decide)]
    rfl
  | uncommit n =>
    cases h
    rw [encode_append, encode_offset (by decide)]
    rfl

theorem readToString_line (ev : Event (List Char)) (t : List UInt8) :
    readToString (lineBytes ev ++ t) =
      (content ev).bind fun line => (readToString t).map (line ++ ['\n'] ++ ·) := by
  cases hc : content ev with
  | some line => rw [lineBytes_content hc, readToString_append]; rfl
  | none =>
    cases ev with
    | rewind n => cases hc
    | uncommit n => cases hc
    | alloc n label =>
      -- the cap left a partial character, which no later byte can complete
      have hcut : keptLabel label = none := Option.map_eq_none_iff.mp hc
      have hhead : lineBytes (.alloc n label) ++ t =
          encode ('A' :: ' ' :: digitChars n ++ [' ']) ++
            ((encode label).take 240 ++ 10 :: t) := by
        rw [encode_append, encode_offset (by decide), lineBytes]
        simp only [List.append_assoc]
        rfl
      rw [hhead, readToString_append, Option.bind_none, Option.map_eq_none_iff]
      cases hread : readToString ((encode label).take 240 ++ 10 :: t) with
      | none => rfl
      | some l =>
        have hkept : (keptLabel label).isSome := readToString_newline hread
        rw [hcut] at hkept
        cases hkept

theorem readToString_lines (events : List (Event (List Char))) :
    readToString (events.flatMap lineBytes) =
      (events.mapM content).map fun ls => ls.flatMap (· ++ ['\n']) := by
  induction events with
  | nil => exact readToString_encode []
  | cons ev events ih =>
    rw [List.flatMap_cons, readToString_line, ih, List.mapM_cons]
    cases content ev <;> cases events.mapM content <;> rfl

theorem sequence_ascii {b : UInt8} (h : Sequence s) (hb : b < 0x80) (hin : b ∈ s) : s = [b] := by
  cases s with
  | nil => cases hin
  | cons a t =>
    obtain ⟨-, hlen, htail⟩ := sequence_iff.mp h
    rcases List.mem_cons.mp hin with rfl | hin
    · rw [leaderLen_ascii hb] at hlen
      rw [List.length_eq_zero_iff.mp hlen]
    · have hcont := (isContinuation_range (List.all_eq_true.mp htail b hin)).1
      exact absurd hb (UInt8.not_lt.mpr hcont)

theorem mem_encodeChar {x c : Char} (hx : x.toNat < 0x80) :
    x.toNat.toUInt8 ∈ String.utf8EncodeChar c ↔ x = c := by
  have hone : String.utf8EncodeChar x = [x.toNat.toUInt8] := by
    simp [String.utf8EncodeChar, Nat.le_of_lt_succ hx]
  have hlow : x.toNat.toUInt8 < 0x80 := by
    simp only [UInt8.lt_iff_toNat_lt, UInt8.toNat_ofNat', UInt8.reduceToNat, Nat.toUInt8_eq]
    omega
  refine ⟨fun hin => ?_, fun h => h ▸ hone ▸ List.mem_singleton_self _⟩
  have hsame := sequence_ascii (sequence_utf8EncodeChar c) hlow hin
  have hread : some [c] = some [x] := by
    rw [← readToString_encode [c], ← readToString_encode [x], encode, encode,
      List.flatMap_singleton, List.flatMap_singleton, hsame, hone]
  simpa using hread.symm

theorem mem_encode {x : Char} (hx : x.toNat < 0x80) (l : List Char) :
    x.toNat.toUInt8 ∈ encode l ↔ x ∈ l := by
  rw [encode, List.mem_flatMap]
  constructor
  · rintro ⟨c, hc, hin⟩
    exact (mem_encodeChar hx).mp hin ▸ hc
  · exact fun hin => ⟨x, hin, (mem_encodeChar hx).mpr rfl⟩

theorem content_newline (hlabel : ∀ n label, ev = .alloc n label → '\n' ∉ label)
    (h : content ev = some line) : '\n' ∉ line := by
  cases ev with
  | alloc n label =>
    obtain ⟨kept, hkept, rfl⟩ := Option.map_eq_some_iff.mp h
    have hkept' : '\n' ∉ kept := by
      intro hin
      have hbyte := (mem_encode (x := '\n') (by decide) kept).mpr hin
      rw [← readToString_iff.mp hkept] at hbyte
      exact hlabel n label rfl ((mem_encode (by decide) label).mp (List.mem_of_mem_take hbyte))
    simp [newline_digitChars, hkept']
  | rewind n =>
    cases h
    simp [newline_digitChars]
  | uncommit n =>
    cases h
    simp [newline_digitChars]

theorem parse_content (hfit : ev.newOffset < 2 ^ 32) :
    (content ev).map parse = (readBack ev).map some := by
  cases ev with
  | alloc n label =>
    rw [content, readBack, Option.map_map, Option.map_map]
    exact congrArg (Option.map · (keptLabel label)) (funext fun kept => parse_alloc hfit kept)
  | rewind n => exact congrArg some (parse_offset hfit).1
  | uncommit n => exact congrArg some (parse_offset hfit).2

theorem readLog_lines (hfit : ∀ ev ∈ events, ev.newOffset < 2 ^ 32)
    (hlabel : ∀ n label, .alloc n label ∈ events → '\n' ∉ label) :
    readLog (events.flatMap lineBytes) = events.mapM readBack := by
  rw [readLog, readToString_lines, Option.map_map]
  induction events with
  | nil => rfl
  | cons ev events ih =>
    obtain ⟨hev, hfit⟩ := List.forall_mem_cons.mp hfit
    have hparse := parse_content hev
    have ih := ih hfit fun n label h => hlabel n label (List.mem_cons_of_mem _ h)
    rw [List.mapM_cons, List.mapM_cons, ← ih]
    cases hc : content ev with
    | none =>
      rw [hc] at hparse
      rw [Option.map_eq_none_iff.mp hparse.symm]
      rfl
    | some line =>
      have hline := content_newline (fun n label h => hlabel n label (h ▸ List.mem_cons_self)) hc
      rw [hc] at hparse
      obtain ⟨back, hback, hpb⟩ := Option.map_eq_some_iff.mp hparse.symm
      rw [hback]
      cases events.mapM content with
      | none => rfl
      | some ls =>
        have hrest := parsed_line hline (ls.flatMap (· ++ ['\n']))
        simp [← hpb] at hrest ⊢
        exact hrest

end Ltop.ArenaSvg

namespace Ltop.Arena

open ArenaSvg (Event Pictured Rising buildRects lineBytes readBack readLog)
open Numeral

variable {n : ℕ} {size : ℕ} {buf s : List UInt8} {events : List (Event (List Char))}

theorem push_eq (h : buf.length + s.length ≤ size) : push size buf s = some (buf ++ s) := if_pos h

theorem digitLoop_eq {k : ℕ} {n : UInt32} (h : n.toNat < 10 ^ k) (digits : List UInt8) :
    digitLoop k n digits = some ((Nat.digits 10 n.toNat).reverse.map glyph ++ digits) := by
  induction k generalizing n digits with
  | zero =>
    obtain rfl : n = 0 := UInt32.toNat_inj.mp (Nat.lt_one_iff.mp h)
    rfl
  | succ k ih =>
    rw [digitLoop]
    by_cases hn : n > 0
    · have hpos : 0 < n.toNat := UInt32.lt_iff_toNat_lt.mp hn
      have hdiv : (n / 10).toNat = n.toNat / 10 := UInt32.toNat_div n 10
      have hlast : (48 : UInt8) + (n % 10).toUInt8 = glyph (n.toNat % 10) := by
        refine UInt8.toNat_inj.mp ?_
        rw [glyph_toNat (Nat.mod_lt _ (by decide))]
        simp [UInt32.toNat_mod]
        omega
      have hsmall : (n / 10).toNat < 10 ^ k := by
        rw [hdiv]
        exact Nat.div_lt_of_lt_mul (by rwa [Nat.pow_succ, Nat.mul_comm] at h)
      rw [if_pos hn, ih hsmall, hlast, hdiv, Nat.digits_def' (by decide) hpos, List.reverse_cons,
        List.map_append, List.append_assoc]
      rfl
    · obtain rfl : n = 0 := UInt32.le_antisymm (UInt32.not_lt.mp hn) (UInt32.zero_le)
      rfl

theorem pushU32_eq (hn : n < 2 ^ 32) : pushU32 size buf n.toUInt32 = push size buf (decimal n) := by
  have hn' : n.toUInt32.toNat = n := UInt32.toNat_ofNat_of_lt' hn
  rw [pushU32, decimal]
  by_cases hz : n = 0
  · rw [hz]
    rfl
  · have hz' : n.toUInt32 ≠ 0 := fun h => hz (hn' ▸ congrArg UInt32.toNat h)
    rw [if_neg hz', if_neg hz, digitLoop_eq (by omega), hn', List.append_nil]
    rfl

theorem decimal_short (hn : n < 2 ^ 32) : (decimal n).length ≤ 10 :=
  decimal_length_le (by decide) (hn.trans (by decide))

theorem traceAlloc_eq (hn : n < 2 ^ 32) (label : List UInt8) :
    traceAlloc label n.toUInt32 =
      some (bytes "A " ++ decimal n ++ bytes " " ++ label.take 240 ++ [10]) := by
  have hlen := decimal_short hn
  have hcap : (if label.length > 240 then label.take 240 else label) = label.take 240 := by
    split
    · rfl
    · exact (List.take_of_length_le (by omega)).symm
  have htake : (label.take 240).length ≤ 240 := List.length_take_le _ _
  have hkind : (bytes "A ").length = 2 ∧ (bytes " ").length = 1 := by decide
  have hend : ([10] : List UInt8).length = 1 := rfl
  simp only [traceAlloc, pushU32_eq hn, hcap, Option.bind_eq_bind]
  rw [push_eq, Option.bind_some, push_eq, Option.bind_some, push_eq, Option.bind_some, push_eq,
    Option.bind_some, push_eq, List.nil_append]
  all_goals
    simp only [List.length_append, List.length_nil]
    omega

theorem traceOffset_eq {kind : List UInt8} (hkind : kind.length = 2) (hn : n < 2 ^ 32) :
    traceOffset kind n.toUInt32 = some (kind ++ decimal n ++ [10]) := by
  have hlen := decimal_short hn
  have hend : ([10] : List UInt8).length = 1 := rfl
  simp only [traceOffset, pushU32_eq hn, Option.bind_eq_bind]
  rw [push_eq, Option.bind_some, push_eq, Option.bind_some, push_eq, List.nil_append]
  all_goals
    simp only [List.length_append, List.length_nil]
    omega

theorem traceLine_eq {ev : Event (List Char)} (h : ev.newOffset < 2 ^ 32) :
    traceLine ev = some (lineBytes ev) := by
  cases ev with
  | alloc n label => exact traceAlloc_eq h _
  | rewind n => exact traceOffset_eq rfl h
  | uncommit n => exact traceOffset_eq rfl h

theorem traceLog_eq (hfit : ∀ ev ∈ events, ev.newOffset < 2 ^ 32) :
    traceLog events = some (events.flatMap lineBytes) := by
  have hlines : events.mapM traceLine = some (events.map lineBytes) := by
    induction events with
    | nil => rfl
    | cons ev events ih =>
      obtain ⟨hev, hfit⟩ := List.forall_mem_cons.mp hfit
      rw [List.mapM_cons, traceLine_eq hev, ih hfit]
      rfl
  rw [traceLog, hlines, Option.map_some, List.flatMap]

theorem readBack_shape {ev back : Event (List Char)} (h : readBack ev = some back) :
    back.newOffset = ev.newOffset ∧ back.rises = ev.rises := by
  cases ev with
  | alloc n label =>
    obtain ⟨kept, -, rfl⟩ := Option.map_eq_some_iff.mp h
    exact ⟨rfl, rfl⟩
  | rewind n => cases h; exact ⟨rfl, rfl⟩
  | uncommit n => cases h; exact ⟨rfl, rfl⟩

theorem readBack_rising {c : ℕ} {back : List (Event (List Char))} (hr : Rising c events)
    (h : events.mapM readBack = some back) : Rising c back ∧ back.length = events.length := by
  induction events generalizing c back with
  | nil =>
    cases h
    exact ⟨trivial, rfl⟩
  | cons ev events ih =>
    rw [List.mapM_cons] at h
    obtain ⟨e, he, h⟩ := Option.bind_eq_some_iff.mp h
    obtain ⟨es, hes, h⟩ := Option.bind_eq_some_iff.mp h
    cases h
    obtain ⟨hoffset, hrises⟩ := readBack_shape he
    obtain ⟨hrising, hlen⟩ := ih hr.2 hes
    refine ⟨⟨fun hup => hoffset ▸ hr.1 (hrises ▸ hup), hoffset ▸ hrising⟩, ?_⟩
    rw [List.length_cons, List.length_cons, hlen]

theorem Session.run_bounded {α : Type} {t t' : Session} {c : ℕ} {acts : List (Act α)}
    {records : List (Record α)} (ht : t.Logging c) (h : t.run acts = some (t', records)) :
    ∀ r ∈ records, r.bump ≤ SIZE := by
  induction acts generalizing t c records with
  | nil =>
    obtain ⟨rfl, rfl⟩ := Prod.mk.inj (Option.some.inj h)
    exact fun r hr => absurd hr List.not_mem_nil
  | cons act acts ih =>
    obtain ⟨⟨t₁, first⟩, hstep, h⟩ := Option.bind_eq_some_iff.mp h
    obtain ⟨⟨t₂, more⟩, hrun, h⟩ := Option.bind_eq_some_iff.mp h
    obtain ⟨rfl, rfl⟩ := Prod.mk.inj (Option.some.inj h)
    obtain ⟨htraced, hpending⟩ := Session.step_traced ht hstep
    intro r hr
    rcases List.mem_append.mp hr with hr | hr
    · exact htraced.bump r hr ▸ htraced.logging.room
    · exact ih ⟨htraced.logging, hpending⟩ hrun r hr

theorem session_log {acts : List (Act (List Char))} {records : List (Record (List Char))}
    (h : traceOf acts = some records) (hlen : records.length < 2 ^ 32)
    (hlabel : ∀ r ∈ records, ∀ n label, r.event = .alloc n label → '\n' ∉ label) :
    ∃ file, traceLog (records.map Record.event) = some file ∧
      readLog file = (records.map Record.event).mapM readBack ∧
      ∀ events, readLog file = some events → Pictured events (buildRects events) := by
  obtain ⟨⟨t, out⟩, hrun, hout⟩ := Option.map_eq_some_iff.mp h
  obtain rfl : records = out := hout.symm
  obtain ⟨hrising, hrecords⟩ := Session.run_traced Session.init_logging hrun
  have hfit : ∀ ev ∈ records.map Record.event, ev.newOffset < 2 ^ 32 := by
    intro ev hev
    obtain ⟨r, hr, rfl⟩ := List.mem_map.mp hev
    have hle := (hrecords r hr).1.trans (Session.run_bounded Session.init_logging hrun r hr)
    exact hle.trans_lt (by decide)
  have hread := ArenaSvg.readLog_lines hfit fun n label hev => by
    obtain ⟨r, hr, heq⟩ := List.mem_map.mp hev
    exact hlabel r hr n label heq
  refine ⟨_, traceLog_eq hfit, hread, fun events hevents => ?_⟩
  obtain ⟨hback, hsame⟩ := readBack_rising hrising (hread.symm.trans hevents)
  exact ArenaSvg.buildRects_pictured hback (by rwa [hsame, List.length_map])

def labelled : List (Act (List Char)) :=
  [.op .scope [], .op (.vec byte 3) "procs ".toList, .op (.alloc byte [7]) "→".toList, .op .leave []]

theorem session_log_labelled : ∃ file, traceLog
      [.alloc 3 "procs ".toList, .alloc 4 "→".toList, .rewind 0] = some file ∧
    readLog file = [Event.alloc 3 "procs ".toList, .alloc 4 "→".toList, .rewind 0].mapM readBack ∧
      ∀ events, readLog file = some events → Pictured events (buildRects events) :=
  session_log (show traceOf labelled = some [⟨.alloc 3 "procs ".toList, 3, false⟩,
    ⟨.alloc 4 "→".toList, 4, false⟩, ⟨.rewind 0, 0, false⟩] from rfl) (by decide) (by simp)

end Ltop.Arena
