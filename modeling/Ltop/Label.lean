import Mathlib
import Ltop.Collect
import Ltop.Procfs

namespace Ltop

open Numeral

def LABEL_MAX : ℕ := 200

namespace PidDir

def scanName (i : ℕ) (head n : UInt64) : List UInt8 → Option (UInt64 × UInt64)
  | [] => if i > 0 then some (head, n) else none
  | b :: rest =>
    if b = 46 ∧ head = NO_START ∧ i > 0 then scanName (i + 1) n 0 rest
    else if isDigit b then scanName (i + 1) head (n * 10 + (b - 48).toUInt64) rest
    else none

def next (name : List UInt8) : Option (UInt32 × UInt64) :=
  match scanName 0 NO_START 0 name with
  | none => none
  | some (head, n) =>
    if head = NO_START then some (n.toUInt32, NO_START) else some (head.toUInt32, n)

end PidDir

namespace Label

def pidDigits (i : ℕ) : List UInt8 → Option (List UInt8)
  | [] => none
  | c :: rest =>
    if c = 46 then some []
    else if i > 16 then none
    else (pidDigits (i + 1) rest).map (c :: ·)

def startTime (t : ProcessTable) (_pid : UInt32) (name : List UInt8) : Option UInt64 :=
  match pidDigits 6 name with
  | none => none
  | some digits =>
    match readSmallFile t.openStat (ProcessTable.statPath digits) 480 with
    | none => none
    | some stat => statStart stat

def line : List UInt8 → List UInt8
  | [] => []
  | c :: rest => if c = 10 then [] else if c ≥ 32 ∧ c ≠ 0x7f then c :: line rest else line rest

structure Swept (n : ℕ) where
  rows : Table .linux n
  unlinked : List (List UInt8)
  opened : List (List UInt8)

variable {n : ℕ} (t : ProcessTable) (read : List UInt8 → Option (List UInt8))

def visit (o : Swept n) (name : List UInt8) : Swept n :=
  match PidDir.next name with
  | none => o
  | some (pid, start) =>
    if start = NO_START then o
    else if startTime t pid name ≠ some start then { o with unlinked := o.unlinked ++ [name] }
    else
      match (List.finRange n).find? fun i => (o.rows i).pid = pid with
      | none => o
      | some i =>
        let opened := o.opened ++ [name]
        match read name with
        | none => { o with opened := opened }
        | some content =>
          let text := content.take LABEL_MAX
          if text = [] then { o with opened := opened }
          else
            let row := { o.rows i with display := (line text).take MAX_LEN }
            { o with rows := Function.update o.rows i row, opened := opened }

def apply (dir : Option (List (List UInt8))) (procs : Table .linux n) : Swept n :=
  match dir with
  | none => ⟨procs, [], []⟩
  | some names => names.foldl (visit t read) ⟨procs, [], []⟩

def Numeric (s : List UInt8) : Prop := s ≠ [] ∧ AllDigits s

def Names (name : List UInt8) (pid start : ℕ) : Prop :=
  ∃ p s, name = p ++ 46 :: s ∧ Numeric p ∧ Numeric s ∧ value p = pid ∧ value s = start

def sanitised (content : List UInt8) : List UInt8 :=
  ((content.take LABEL_MAX).takeWhile (· ≠ 10)).filter fun c => c ≥ 32 ∧ c ≠ 0x7f

structure Labels (pid : UInt32) (name content : List UInt8) : Prop where
  live : ∃ start, Names name pid.toNat start ∧ t.Live pid.toNat start
  readable : read name = some content
  nonempty : content ≠ []

def First (rows : Table .linux n) (i : Fin n) : Prop := ∀ j < i, (rows j).pid ≠ (rows i).pid

structure Follows (names : List (List UInt8)) (before : Table .linux n) (o : Swept n) : Prop where
  unlinks : ∀ name, name ∈ o.unlinked ↔
    name ∈ names ∧ ∃ pid start, Names name pid start ∧ ¬ t.Live pid start
  opens : ∀ name ∈ o.opened, name ∈ names ∧ ∃ pid start, Names name pid start
  labelled : ∀ i, First before i →
    (∃ name ∈ names, ∃ content, Labels t read (before i).pid name content) →
    ∃ name ∈ names, ∃ content, Labels t read (before i).pid name content ∧
      o.rows i = { before i with display := sanitised content }
  unlabelled : ∀ i,
    (¬ First before i ∨ ∀ name ∈ names, ∀ content, ¬ Labels t read (before i).pid name content) →
    o.rows i = before i

def Sentinel (s : List UInt8) : Prop := value s % 2 ^ 64 = 2 ^ 64 - 1

def Chain (sentinels : List (List UInt8)) : Prop := ∀ g ∈ sentinels, AllDigits g ∧ Sentinel g

def chained (sentinels : List (List UInt8)) : List UInt8 := sentinels.flatMap (· ++ [46])

inductive Misread (rows : Table .linux n) : List UInt8 → Prop
  | bare {p : List UInt8} : Numeric p → ¬ Sentinel p →
      (∀ q ∈ t.processes, p = decimal q.pid.toNat → q.start = 0 → ∃ i, (rows i).pid = q.pid) →
      Misread rows (p ++ [46])
  | sentinel {p s : List UInt8} : Numeric p → Numeric s → Sentinel p ∨ Sentinel s →
      Misread rows (p ++ 46 :: s)
  | padded {p s : List UInt8} {q : Process} : Numeric p → Numeric s → q ∈ t.processes →
      value p = q.pid.toNat → value s = q.start.toNat → p ≠ decimal q.pid.toNat →
      Misread rows (p ++ 46 :: s)
  | wrapped {s : List UInt8} {q : Process} : Numeric s → q ∈ t.processes →
      value s % 2 ^ 64 = q.start.toNat → 2 ^ 64 ≤ value s →
      Misread rows (decimal q.pid.toNat ++ 46 :: s)
  | dotted {sentinels : List (List UInt8)} {p s : List UInt8} : sentinels ≠ [] →
      Chain sentinels → AllDigits p → AllDigits s → ¬ Sentinel p → ¬ Sentinel s →
      Misread rows (chained sentinels ++ (p ++ 46 :: s))

end Label

end Ltop
