import Mathlib
import Ltop.Cmdline
import Ltop.LabelNames

namespace Ltop

namespace Dirents

open Numeral ProcArgs Label

def DIRENT_NAME_OFFSET : Os → ℕ
  | .linux => 19
  | .macos => 21

structure PidDir where
  bufFilled : ℕ
  bufPos : ℕ
  buf : List UInt8
  start : UInt64
  name : Option ℕ
  replies : List (Option (List UInt8))

def parseName (i : ℕ) (head n : UInt64) : List UInt8 → Option (UInt64 × UInt64)
  | [] => none
  | b :: rest =>
    if b = 0 then if i > 0 then some (head, n) else none
    else if b = 46 ∧ head = NO_START ∧ i > 0 then parseName (i + 1) n 0 rest
    else if isDigit b then parseName (i + 1) head (n * 10 + (b - 48).toUInt64) rest
    else none

inductive Turn where
  | done (d : PidDir)
  | skip (d : PidDir)
  | found (pid : UInt32) (d : PidDir)

namespace PidDir

variable (os : Os)

def opened (buf : List UInt8) (replies : List (Option (List UInt8))) : PidDir where
  bufFilled := 0
  bufPos := 0
  buf := buf
  start := NO_START
  name := none
  replies := replies

def load (d : PidDir) (batch : List UInt8) (replies : List (Option (List UInt8))) : PidDir :=
  { d with
    buf := batch ++ d.buf.drop batch.length
    bufFilled := batch.length
    bufPos := 0
    replies := replies }

def refill (d : PidDir) : Option PidDir :=
  if d.bufPos ≥ d.bufFilled then
    match d.replies with
    | [] => none
    | none :: _ => none
    | some batch :: replies => if batch.length = 0 then none else some (d.load batch replies)
  else some d

def entry (d : PidDir) : Turn :=
  let reclen := Os.fromLeBytes ((d.buf.drop (d.bufPos + 16)).take 2)
  let namePtr := d.bufPos + DIRENT_NAME_OFFSET os
  let stepped := { d with bufPos := d.bufPos + reclen }
  match parseName 0 NO_START 0 (d.buf.drop namePtr) with
  | none => .skip stepped
  | some (head, n) =>
    let named := { stepped with name := some namePtr }
    if head = NO_START then .found n.toUInt32 { named with start := NO_START }
    else .found head.toUInt32 { named with start := n }

def turn (d : PidDir) : Turn :=
  match d.refill with
  | none => .done d
  | some d => d.entry os

def next : ℕ → PidDir → Option (Option UInt32 × PidDir)
  | 0, _ => none
  | fuel + 1, d =>
    match d.turn os with
    | .done d => some (none, d)
    | .skip d => next fuel d
    | .found pid d => some (some pid, d)

def nameBytes (d : PidDir) : List UInt8 :=
  match d.name with
  | none => []
  | some namePtr => (d.buf.drop namePtr).takeWhile (· ≠ 0)

end PidDir

structure Entry where
  pid : UInt32
  start : UInt64
  name : List UInt8
deriving DecidableEq

def drain (os : Os) : ℕ → PidDir → Option (List Entry)
  | 0, _ => none
  | fuel + 1, d =>
    match d.next os (fuel + 1) with
    | none => none
    | some (none, _) => some []
    | some (some pid, d) => (drain os fuel d).map (⟨pid, d.start, d.nameBytes⟩ :: ·)

structure Record (os : Os) where
  head : List UInt8
  head_length : head.length = 16
  kind : List UInt8
  kind_length : 18 + kind.length = DIRENT_NAME_OFFSET os
  name : CStr
  padding : List UInt8
  short : DIRENT_NAME_OFFSET os + name.1.length + 1 + padding.length < 2 ^ 16

variable {os : Os}

def Record.reclen (r : Record os) : ℕ :=
  DIRENT_NAME_OFFSET os + r.name.1.length + 1 + r.padding.length

def Record.encode (r : Record os) : List UInt8 :=
  r.head ++ (Os.toLeBytes 2 r.reclen ++ (r.kind ++ (terminated r.name ++ r.padding)))

abbrev Batch (os : Os) := {records : List (Record os) // records ≠ []}

def Batch.reply (batch : Batch os) : Option (List UInt8) := some (batch.1.flatMap Record.encode)

def records (batches : List (Batch os)) : List (Record os) := batches.flatMap (·.1)

def firstNumber (name : List UInt8) : ℕ := value (name.takeWhile isDigit)

def Pair (name p s : List UInt8) : Prop := name = p ++ 46 :: s ∧ Numeric p ∧ Numeric s

structure Meets (name : List UInt8) (o : Option (UInt32 × UInt64)) : Prop where
  pid : Numeric name → value name < 2 ^ 32 → o = some ((value name).toUInt32, NO_START)
  pair : ∀ p s, Pair name p s → value p < 2 ^ 32 → value s < 2 ^ 64 - 1 →
    o = some ((value p).toUInt32, (value s).toUInt64)
  exact : firstNumber name < 2 ^ 32 → o ≠ none → Numeric name ∨ ∃ p s, Pair name p s
  foreign : (∃ b ∈ name, isDigit b = false ∧ b ≠ 46) → o = none
  hidden : name.head? = some 46 → o = none
  dotted : ∀ p s, name = p ++ 46 :: s → AllDigits p → value p < 2 ^ 64 - 1 → 46 ∈ s → o = none

def yielded (f : List UInt8 → Option (UInt32 × UInt64)) (r : Record os) : Option Entry :=
  (f r.name.1).map fun found => ⟨found.1, found.2, r.name.1⟩

def Lists (rs : List (Record os)) (out : List Entry) : Prop :=
  ∃ f, (∀ r ∈ rs, Meets r.name.1 (f r.name.1)) ∧ out = rs.filterMap (yielded f)

def Iterates (buf : List UInt8) (batches : List (Batch os)) : Prop :=
  ∃ out, (∃ n, ∀ fuel ≥ n, drain os fuel (.opened buf (batches.map Batch.reply)) = some out) ∧
    Lists (records batches) out

def Bare (name : List UInt8) : Prop := ∃ p, name = p ++ [46] ∧ Numeric p ∧ value p < 2 ^ 32

theorem parseName_terminated {text : List UInt8} (h : 0 ∉ text) (i : ℕ) (head n : UInt64)
    (rest : List UInt8) :
    parseName i head n (text ++ 0 :: rest) = Ltop.PidDir.scanName i head n text := by
  induction text generalizing i head n with
  | nil => rfl
  | cons b text ih =>
    obtain ⟨hb, htext⟩ := not_or.mp (mt List.mem_cons.mpr h)
    rw [List.cons_append, parseName, if_neg (Ne.symm hb), Ltop.PidDir.scanName]
    simp only [ih htext]

section Layout

variable (r : Record os) (tail : List UInt8)

theorem encode_length : r.encode.length = r.reclen := by
  have hle : (Os.toLeBytes 2 r.reclen).length = 2 := Os.toLeBytes_length _ _
  have := r.kind_length
  simp only [Record.encode, List.length_append, hle, r.head_length, Cmdline.terminated_length]
  unfold Record.reclen
  omega

theorem encode_reclen : Os.fromLeBytes (((r.encode ++ tail).drop 16).take 2) = r.reclen := by
  have hle : (Os.toLeBytes 2 r.reclen).length = 2 := Os.toLeBytes_length _ _
  have hlt : r.reclen < 256 ^ 2 := r.short
  rw [Record.encode, List.append_assoc, List.drop_left' r.head_length, List.append_assoc,
    List.take_left' hle, Os.fromLeBytes_toLeBytes, Nat.mod_eq_of_lt hlt]

theorem encode_name : (r.encode ++ tail).drop (DIRENT_NAME_OFFSET os) =
    r.name.1 ++ 0 :: (r.padding ++ tail) := by
  have hle : (Os.toLeBytes 2 r.reclen).length = 2 := Os.toLeBytes_length _ _
  have hfront : (r.head ++ (Os.toLeBytes 2 r.reclen ++ r.kind)).length = DIRENT_NAME_OFFSET os := by
    have := r.kind_length
    simp only [List.length_append, hle, r.head_length]
    omega
  have hsplit : r.encode ++ tail = (r.head ++ (Os.toLeBytes 2 r.reclen ++ r.kind)) ++
      (r.name.1 ++ 0 :: (r.padding ++ tail)) := by
    simp [Record.encode, terminated]
  rw [hsplit, List.drop_left' hfront]

end Layout

def At (d : PidDir) (current : List (Record os)) (batches : List (Batch os)) : Prop :=
  ∃ passed junk, d.buf = passed ++ (current.flatMap Record.encode ++ junk) ∧
    d.bufPos = passed.length ∧
    d.bufFilled = passed.length + (current.flatMap Record.encode).length ∧
    d.replies = batches.map Batch.reply

def Ahead (d : PidDir) (rs : List (Record os)) : Prop :=
  ∃ current batches, rs = current ++ records batches ∧ At d current batches

variable {d : PidDir} {r : Record os} {rs current : List (Record os)} {batches : List (Batch os)}
  {pid : UInt32} {start : UInt64}

theorem encode_ne_nil (r : Record os) : r.encode ≠ [] := by
  apply List.ne_nil_of_length_pos
  rw [encode_length]
  unfold Record.reclen
  omega

theorem At.refill (h : At d (r :: current) batches) : d.refill = some d := by
  obtain ⟨passed, junk, -, hpos, hfilled, -⟩ := h
  have hne := List.length_pos_of_ne_nil (encode_ne_nil r)
  rw [List.flatMap_cons, List.length_append] at hfilled
  exact if_neg (by omega)

theorem refill_ahead (h : Ahead d (r :: rs)) :
    ∃ d' current batches, d.refill = some d' ∧ rs = current ++ records batches ∧
      At d' (r :: current) batches := by
  obtain ⟨current, batches, hrs, hat⟩ := h
  cases current with
  | cons r' current =>
    obtain ⟨rfl, rfl⟩ := List.cons.inj hrs
    exact ⟨d, current, batches, hat.refill, rfl, hat⟩
  | nil =>
    obtain ⟨passed, junk, hbuf, hpos, hfilled, hreplies⟩ := hat
    cases batches with
    | nil => cases hrs
    | cons batch batches =>
      obtain ⟨list, hlist⟩ := batch
      obtain ⟨r', list, rfl⟩ := List.exists_cons_of_ne_nil hlist
      obtain ⟨rfl, rfl⟩ := List.cons.inj hrs
      have hne : ((r :: list).flatMap Record.encode).length ≠ 0 := by
        have := List.length_pos_of_ne_nil (encode_ne_nil r)
        rw [List.flatMap_cons, List.length_append]
        omega
      have hend : d.bufPos ≥ d.bufFilled := by
        rw [hpos, hfilled]
        exact le_rfl
      refine ⟨d.load ((r :: list).flatMap Record.encode) (batches.map Batch.reply), list, batches,
        ?_, rfl, [], d.buf.drop ((r :: list).flatMap Record.encode).length, rfl, rfl, ?_, rfl⟩
      · rw [PidDir.refill, if_pos hend, hreplies, List.map_cons, Batch.reply]
        exact if_neg hne
      · exact (Nat.zero_add _).symm

theorem refill_end (h : Ahead d ([] : List (Record os))) : d.refill = none := by
  obtain ⟨current, batches, hrs, passed, junk, -, hpos, hfilled, hreplies⟩ := h
  obtain ⟨rfl, hrest⟩ := List.append_eq_nil_iff.mp hrs.symm
  have hbatches : batches = [] := by
    refine List.eq_nil_iff_forall_not_mem.mpr fun batch hbatch => batch.2 ?_
    exact List.flatMap_eq_nil_iff.mp hrest batch hbatch
  rw [PidDir.refill, if_pos (by rw [hpos, hfilled]; exact le_rfl), hreplies, hbatches]
  rfl

theorem At.head (h : At d (r :: current) batches) :
    Os.fromLeBytes ((d.buf.drop (d.bufPos + 16)).take 2) = r.reclen ∧
      ∃ rest, d.buf.drop (d.bufPos + DIRENT_NAME_OFFSET os) = r.name.1 ++ 0 :: rest := by
  obtain ⟨passed, junk, hbuf, hpos, -, -⟩ := h
  have hdrop : d.buf.drop d.bufPos = r.encode ++ (current.flatMap Record.encode ++ junk) := by
    rw [hbuf, hpos, List.drop_left, List.flatMap_cons, List.append_assoc]
  rw [← List.drop_drop, ← List.drop_drop, hdrop]
  exact ⟨encode_reclen r _, _, encode_name r _⟩

theorem At.stepped {d' : PidDir} (h : At d (r :: current) batches) (hbuf : d'.buf = d.buf)
    (hpos : d'.bufPos = d.bufPos + r.reclen) (hfilled : d'.bufFilled = d.bufFilled)
    (hreplies : d'.replies = d.replies) : At d' current batches := by
  obtain ⟨passed, junk, hb, hp, hf, hr⟩ := h
  rw [List.flatMap_cons] at hb hf
  rw [List.length_append, encode_length] at hf
  refine ⟨passed ++ r.encode, junk, ?_, ?_, ?_, hreplies.trans hr⟩
  · rw [hbuf, hb, List.append_assoc, List.append_assoc]
  · rw [hpos, hp, List.length_append, encode_length]
  · rw [hfilled, hf, List.length_append, encode_length, Nat.add_assoc]

theorem turn_skip (h : Ahead d (r :: rs)) (hname : Ltop.PidDir.next r.name.1 = none) :
    ∃ d', d.turn os = .skip d' ∧ Ahead d' rs := by
  obtain ⟨d, current, batches, hrefill, rfl, hat⟩ := refill_ahead h
  obtain ⟨hreclen, rest, hbytes⟩ := hat.head
  have hscan : Ltop.PidDir.scanName 0 NO_START 0 r.name.1 = none := by
    unfold Ltop.PidDir.next at hname
    split at hname
    · assumption
    · split at hname <;> cases hname
  refine ⟨{ d with bufPos := d.bufPos + r.reclen }, ?_, current, batches, rfl,
    hat.stepped rfl rfl rfl rfl⟩
  simp only [PidDir.turn, hrefill, PidDir.entry, hbytes, parseName_terminated r.name.2, hscan, hreclen]

theorem turn_found (h : Ahead d (r :: rs)) (hname : Ltop.PidDir.next r.name.1 = some (pid, start)) :
    ∃ d', d.turn os = .found pid d' ∧ Ahead d' rs ∧ d'.start = start ∧
      d'.nameBytes = r.name.1 := by
  obtain ⟨d, current, batches, hrefill, rfl, hat⟩ := refill_ahead h
  obtain ⟨hreclen, rest, hbytes⟩ := hat.head
  refine ⟨{ d with
    bufPos := d.bufPos + r.reclen
    start := start
    name := some (d.bufPos + DIRENT_NAME_OFFSET os) }, ?_,
    ⟨current, batches, rfl, hat.stepped rfl rfl rfl rfl⟩, rfl, ?_⟩
  · rcases hscan : Ltop.PidDir.scanName 0 NO_START 0 r.name.1 with _ | ⟨head, n⟩
    · rw [Ltop.PidDir.next, hscan] at hname
      cases hname
    · simp only [PidDir.turn, hrefill, PidDir.entry, hbytes, parseName_terminated r.name.2, hscan,
        hreclen]
      rw [Ltop.PidDir.next, hscan] at hname
      dsimp only at hname
      split at hname
      · rename_i hhead
        obtain ⟨rfl, rfl⟩ := Prod.mk.inj (Option.some.inj hname)
        exact if_pos hhead
      · rename_i hhead
        obtain ⟨rfl, rfl⟩ := Prod.mk.inj (Option.some.inj hname)
        exact if_neg hhead
  · simp only [PidDir.nameBytes, hbytes]
    have hsplit := (split_terminated r.name rest).1
    rwa [terminated, List.append_assoc] at hsplit

theorem turn_end (h : Ahead d ([] : List (Record os))) : d.turn os = .done d := by
  rw [PidDir.turn, refill_end h]

theorem next_ahead {fuel : ℕ} (h : Ahead d rs) (hfuel : rs.length < fuel) :
    ((∀ r ∈ rs, Ltop.PidDir.next r.name.1 = none) ∧ ∃ d', d.next os fuel = some (none, d')) ∨
      ∃ skipped r rest pid start d', rs = skipped ++ r :: rest ∧
        (∀ r ∈ skipped, Ltop.PidDir.next r.name.1 = none) ∧
        Ltop.PidDir.next r.name.1 = some (pid, start) ∧
        d.next os fuel = some (some pid, d') ∧ Ahead d' rest ∧ d'.start = start ∧
        d'.nameBytes = r.name.1 := by
  induction rs generalizing d fuel with
  | nil =>
    obtain ⟨fuel, rfl⟩ := Nat.exists_eq_add_of_lt hfuel
    refine .inl ⟨fun r hr => absurd hr List.not_mem_nil, d, ?_⟩
    simp only [PidDir.next, turn_end h]
  | cons r rs ih =>
    obtain ⟨fuel, rfl⟩ : ∃ f, fuel = f + 1 := ⟨fuel - 1, by omega⟩
    rw [List.length_cons] at hfuel
    cases hname : Ltop.PidDir.next r.name.1 with
    | none =>
      obtain ⟨d', hturn, hahead⟩ := turn_skip h hname
      have hnext : d.next os (fuel + 1) = d'.next os fuel := by
        simp only [PidDir.next, hturn]
      have hless : rs.length < fuel := by omega
      rcases ih hahead hless with
        ⟨hnone, hend⟩ | ⟨skipped, r', rest, pid, start, e, rfl, hall, hfound, hlast⟩
      · exact .inl ⟨List.forall_mem_cons.mpr ⟨hname, hnone⟩, hnext ▸ hend⟩
      · exact .inr ⟨r :: skipped, r', rest, pid, start, e, rfl,
          List.forall_mem_cons.mpr ⟨hname, hall⟩, hfound, hnext ▸ hlast⟩
    | some found =>
      obtain ⟨pid, start⟩ := found
      obtain ⟨d', hturn, hahead, hresult⟩ := turn_found h hname
      refine .inr ⟨[], r, rs, pid, start, d', rfl, fun r hr => absurd hr List.not_mem_nil, hname, ?_,
        hahead, hresult⟩
      simp only [PidDir.next, hturn]

theorem filterMap_skipped {skipped : List (Record os)} {f : List UInt8 → Option (UInt32 × UInt64)}
    (h : ∀ r ∈ skipped, f r.name.1 = none) : skipped.filterMap (yielded f) = [] := by
  refine List.filterMap_eq_nil_iff.mpr fun r hr => ?_
  rw [yielded, h r hr, Option.map_none]

theorem drain_ahead {fuel : ℕ} (h : Ahead d rs) (hfuel : rs.length < fuel) :
    drain os fuel d = some (rs.filterMap (yielded Ltop.PidDir.next)) := by
  induction fuel generalizing d rs with
  | zero => exact absurd hfuel (Nat.not_lt_zero _)
  | succ fuel ih =>
    rw [drain]
    rcases next_ahead h hfuel with ⟨hnone, d', hnext⟩ |
      ⟨skipped, r, rest, pid, start, d', rfl, hall, hname, hnext, hahead, rfl, hown⟩
    · rw [hnext, filterMap_skipped hnone]
    · have hentry : yielded Ltop.PidDir.next r = some ⟨pid, d'.start, r.name.1⟩ := by
        rw [yielded, hname, Option.map_some]
      rw [List.length_append, List.length_cons] at hfuel
      simp only [hnext, ih hahead (by omega), List.filterMap_append, filterMap_skipped hall,
        List.nil_append, List.filterMap_cons_some hentry, Option.map_some, hown]

theorem opened_ahead (buf : List UInt8) (batches : List (Batch os)) :
    Ahead (.opened buf (batches.map Batch.reply)) (records batches) :=
  ⟨[], batches, rfl, [], buf, rfl, rfl, rfl, rfl⟩

variable {name p s : List UInt8}

theorem scan_foreign (h : ∃ b ∈ name, isDigit b = false ∧ b ≠ 46) (i : ℕ) (head n : UInt64) :
    Ltop.PidDir.scanName i head n name = none := by
  induction name generalizing i head n with
  | nil =>
    obtain ⟨b, hb, -⟩ := h
    exact absurd hb List.not_mem_nil
  | cons c name ih =>
    obtain ⟨b, hb, hdigit, hdot⟩ := h
    rw [Ltop.PidDir.scanName]
    rcases List.mem_cons.mp hb with rfl | hb
    · rw [if_neg fun h => hdot h.1, if_neg (by simp [hdigit])]
    · rw [ih ⟨b, hb, hdigit, hdot⟩, ih ⟨b, hb, hdigit, hdot⟩]
      simp

theorem next_none (h : Ltop.PidDir.scanName 0 NO_START 0 name = none) :
    Ltop.PidDir.next name = none := by
  rw [Ltop.PidDir.next, h]

theorem wrapFrom_start (hs : AllDigits s) : wrapFrom 0 s = (value s).toUInt64 :=
  UInt64.toNat_inj.mp (wrapFrom_toNat hs)

theorem wrapFrom_pid (hp : AllDigits p) : (wrapFrom 0 p).toUInt32 = (value p).toUInt32 := by
  have hmod : value p % 2 ^ 64 % 2 ^ 32 = value p % 2 ^ 32 := by omega
  refine UInt32.toNat_inj.mp ?_
  rw [UInt64.toNat_toUInt32, wrapFrom_toNat hp, hmod]
  rfl

theorem not_sentinel (h : value p < 2 ^ 64 - 1) : ¬ Sentinel p := by
  unfold Sentinel
  omega

theorem next_numeric (h : Numeric name) :
    Ltop.PidDir.next name = some ((value name).toUInt32, NO_START) := by
  have hscan := scan_digits h.2 0 NO_START 0 []
  have hpos := List.length_pos_of_ne_nil h.1
  rw [List.append_nil, Ltop.PidDir.scanName, if_pos (by omega)] at hscan
  simp only [Ltop.PidDir.next, hscan, if_true, wrapFrom_pid h.2]

theorem next_split (hp : AllDigits p) (hne : p ≠ []) (h : value p < 2 ^ 64 - 1) (s : List UInt8) :
    Ltop.PidDir.next (p ++ 46 :: s) = if AllDigits s then
      some ((value p).toUInt32, (value s).toUInt64) else none := by
  have hhead : wrapFrom 0 p ≠ NO_START := fun h' => not_sentinel h ((wrapFrom_sentinel hp).mp h')
  have hpos := List.length_pos_of_ne_nil hne
  split
  · rename_i hs
    have hchain : Chain [] := fun g hg => absurd hg List.not_mem_nil
    have hpair := next_pair hchain hp hs (fun _ => hne) (not_sentinel h)
    rwa [wrapFrom_pid hp, wrapFrom_start hs] at hpair
  · rename_i hs
    refine next_none ?_
    rw [scan_digits hp, scan_dot (by omega)]
    cases hscan : Ltop.PidDir.scanName (0 + p.length + 1) (wrapFrom 0 p) 0 s with
    | none => rfl
    | some r => exact absurd (scan_tail hhead hscan).1 hs

theorem next_hidden (s : List UInt8) : Ltop.PidDir.next (46 :: s) = none := by
  refine next_none ?_
  rw [Ltop.PidDir.scanName, if_neg (by decide), if_neg (by decide)]

theorem split_firstNumber (name : List UInt8) :
    AllDigits name ∨ ∃ b rest, name = name.takeWhile isDigit ++ b :: rest ∧ isDigit b = false := by
  have hall : AllDigits (name.takeWhile isDigit) := fun b hb => List.mem_takeWhile_imp hb
  cases hrest : name.dropWhile isDigit with
  | nil =>
    have hname := List.takeWhile_append_dropWhile (p := isDigit) (l := name)
    rw [hrest, List.append_nil] at hname
    exact .inl (hname ▸ hall)
  | cons b rest =>
    have hb := List.head_dropWhile_not isDigit (by rw [hrest]; exact List.cons_ne_nil _ _)
    simp only [hrest, List.head_cons] at hb
    exact .inr ⟨b, rest, by rw [← hrest, List.takeWhile_append_dropWhile], hb⟩

theorem next_exact (h : ¬ Bare name) (hfirst : firstNumber name < 2 ^ 32)
    (hsome : Ltop.PidDir.next name ≠ none) : Numeric name ∨ ∃ p s, Pair name p s := by
  rcases split_firstNumber name with hall | ⟨b, rest, hname, hb⟩
  · rcases eq_or_ne name [] with rfl | hne
    · exact absurd rfl hsome
    · exact .inl ⟨hne, hall⟩
  · have hall : AllDigits (name.takeWhile isDigit) := fun b hb => List.mem_takeWhile_imp hb
    unfold firstNumber at hfirst
    generalize name.takeWhile isDigit = p at hname hall hfirst
    subst hname
    rcases eq_or_ne b 46 with rfl | hdot
    · rcases eq_or_ne p [] with rfl | hne
      · exact absurd (next_hidden rest) hsome
      · rw [next_split hall hne (by omega)] at hsome
        have hrest : AllDigits rest := by
          by_contra hrest
          exact hsome (if_neg hrest)
        have hnil : rest ≠ [] := by
          rintro rfl
          exact h ⟨p, rfl, ⟨hne, hall⟩, hfirst⟩
        exact .inr ⟨p, rest, rfl, ⟨hne, hall⟩, hnil, hrest⟩
    · have hmem : b ∈ p ++ b :: rest := List.mem_append_right p List.mem_cons_self
      exact absurd (next_none (scan_foreign ⟨b, hmem, hb, hdot⟩ 0 NO_START 0)) hsome

theorem meets_of_not_bare (h : ¬ Bare name) : Meets name (Ltop.PidDir.next name) where
  pid hname _ := next_numeric hname
  pair p s hpair hp hs := by
    obtain ⟨rfl, hpn, hsn⟩ := hpair
    rw [next_split hpn.2 hpn.1 (by omega), if_pos hsn.2]
  exact := next_exact h
  foreign hb := next_none (scan_foreign hb _ _ _)
  hidden hhead := by
    obtain ⟨rest, rfl⟩ := List.head?_eq_some_iff.mp hhead
    exact next_hidden rest
  dotted p s hname hp hlt hdot := by
    have hs : ¬ AllDigits s := fun hs => no_dot hs hdot
    subst hname
    rcases eq_or_ne p [] with rfl | hne
    · exact next_hidden s
    · rw [next_split hp hne hlt, if_neg hs]

theorem bare_yields (h : Bare name) : ∃ found, Ltop.PidDir.next name = some found := by
  obtain ⟨p, rfl, hp, hlt⟩ := h
  have hempty : AllDigits [] := fun b hb => absurd hb List.not_mem_nil
  rw [next_split hp.2 hp.1 (by omega), if_pos hempty]
  exact ⟨_, rfl⟩

theorem Bare.not_meets (h : Bare name) {found : UInt32 × UInt64} : ¬ Meets name (some found) := by
  obtain ⟨p, rfl, hp, hlt⟩ := h
  intro hmeets
  have hfirst : firstNumber (p ++ [46]) = value p := by
    rw [firstNumber, List.takeWhile_append_of_pos hp.2, List.takeWhile_cons_of_neg (by decide),
      List.append_nil]
  rcases hmeets.exact (hfirst ▸ hlt) (Option.some_ne_none _) with hnumeric | ⟨q, s, hname, -, hs⟩
  · exact no_dot hnumeric.2 (List.mem_append_right p (List.mem_singleton_self 46))
  · have hlast := congrArg List.getLast? hname
    obtain ⟨s, b, rfl⟩ := (List.eq_nil_or_concat' s).resolve_left hs.1
    have hconcat : q ++ 46 :: (s ++ [b]) = (q ++ 46 :: s) ++ [b] := by simp
    rw [hconcat, List.getLast?_concat, List.getLast?_concat] at hlast
    exact no_dot hs.2 (List.mem_append_right s (Option.some.inj hlast ▸ List.mem_singleton_self _))

theorem drain_total (buf : List UInt8) (batches : List (Batch os)) {fuel : ℕ}
    (hfuel : fuel ≥ (records batches).length + 1) :
    drain os fuel (.opened buf (batches.map Batch.reply)) =
      some ((records batches).filterMap (yielded Ltop.PidDir.next)) :=
  drain_ahead (opened_ahead buf batches) hfuel

theorem iterates_lists {buf : List UInt8} :
    Iterates buf batches ↔
      Lists (records batches) ((records batches).filterMap (yielded Ltop.PidDir.next)) := by
  constructor
  · rintro ⟨out, ⟨n, hn⟩, hlists⟩
    have hdrain := drain_total buf batches (le_max_right n ((records batches).length + 1))
    rw [hn _ (le_max_left _ _)] at hdrain
    exact Option.some.inj hdrain ▸ hlists
  · intro hlists
    exact ⟨_, ⟨_, fun fuel hfuel => drain_total buf batches hfuel⟩, hlists⟩

theorem bare_not_lists (hr : r ∈ rs) (hbare : Bare r.name.1) :
    ¬ Lists rs (rs.filterMap (yielded Ltop.PidDir.next)) := by
  rintro ⟨f, hf, heq⟩
  obtain ⟨found, hfound⟩ := bare_yields hbare
  have hentry : yielded Ltop.PidDir.next r = some ⟨found.1, found.2, r.name.1⟩ := by
    rw [yielded, hfound, Option.map_some]
  have hmem := List.mem_filterMap.mpr ⟨r, hr, hentry⟩
  rw [heq] at hmem
  obtain ⟨r', hr', hyield⟩ := List.mem_filterMap.mp hmem
  obtain ⟨found', hfound', hsame⟩ := Option.map_eq_some_iff.mp hyield
  have hname : r'.name.1 = r.name.1 := congrArg Entry.name hsame
  have hmeets := hf r' hr'
  rw [hfound', hname] at hmeets
  exact hbare.not_meets hmeets

theorem iterates_iff (os : Os) (buf : List UInt8) (batches : List (Batch os)) :
    Iterates buf batches ↔ ∀ r ∈ records batches, ¬ Bare r.name.1 := by
  rw [iterates_lists]
  constructor
  · exact fun hlists r hr hbare => bare_not_lists hr hbare hlists
  · exact fun hnone => ⟨Ltop.PidDir.next, fun r hr => meets_of_not_bare (hnone r hr), rfl⟩

def trailingDot : Record .linux where
  head := List.replicate 16 0
  head_length := rfl
  kind := [8]
  kind_length := rfl
  name := text "12." (by decide)
  padding := []
  short := by decide

theorem trailingDot_yielded :
    ¬ ∀ (os : Os) (buf : List UInt8) (batches : List (Batch os)), Iterates buf batches := by
  intro h
  have hlists := iterates_lists.mp (h .linux [] [⟨[trailingDot], List.cons_ne_nil _ _⟩])
  refine @bare_not_lists _ trailingDot [trailingDot] (List.mem_singleton_self _) ?_ hlists
  exact ⟨bytes "12", rfl, ⟨by decide, by decide⟩, by decide⟩

end Dirents

end Ltop
