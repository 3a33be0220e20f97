import Mathlib
import Ltop.Library.Forest

namespace Ltop.InlineBytes

open Forest (Build Frame)

inductive Tag where
  | subprogram
  | inlinedSubroutine
  | other
deriving DecidableEq

inductive HighPc where
  | addr (a : UInt64)
  | size (u : UInt64)
  | other
deriving DecidableEq

inductive Origin where
  | unitRef (r : ℕ)
  | debugInfoRef (r : ℕ)
  | other
deriving DecidableEq

structure Die where
  offset : ℕ
  tag : Tag
  linkageName : Option String
  name : Option String
  ranges : Option (List (UInt64 × UInt64))
  lowPc : Option UInt64
  highPc : HighPc
  origin : Origin
deriving DecidableEq

structure Entry where
  name : String
  ranges : List (UInt64 × UInt64)
deriving DecidableEq

abbrev NameMap := ℕ → Option String

def subprogramName (d : Die) : Option String := d.linkageName <|> d.name

def buildNameMap (units : List (ℕ × List Die)) : NameMap :=
  units.foldl (fun out u => u.2.foldl (fun out d =>
    if d.tag = .subprogram then
      match subprogramName d with
      | some n => Function.update out (u.1 + d.offset) (some n)
      | none => out
    else out) out) fun _ => none

def entryRanges (d : Die) : List (UInt64 × UInt64) :=
  match d.ranges with
  | some rs => rs.filter fun r => r.1 > 0 && r.1 < r.2
  | none =>
    match d.lowPc with
    | none => []
    | some low =>
      if low = 0 then []
      else
        let high := match d.highPc with
          | .addr a => a
          | .size u => low + u
          | .other => low
        if high > low then [(low, high)] else []

def resolveOriginName (unitBase : ℕ) (nameMap : NameMap) (d : Die) : Option String :=
  match d.origin with
  | .unitRef r => nameMap (unitBase + r)
  | .debugInfoRef r => nameMap r
  | .other => none

def openEntry (unitBase : ℕ) (nameMap : NameMap) (nested : Bool) (d : Die) : Option Entry :=
  let ranges := entryRanges d
  match d.tag with
  | .subprogram =>
    if ranges ≠ [] then
      some ⟨(nameMap (unitBase + d.offset)).getD "<unnamed-subprogram>", ranges⟩
    else none
  | .inlinedSubroutine =>
    if ranges ≠ [] ∧ nested then
      some ⟨(resolveOriginName unitBase nameMap d).getD "<unresolved-inline>", ranges⟩
    else none
  | .other => none

structure Walk where
  depth : ℤ
  build : Build Entry

def walkStep (unitBase : ℕ) (nameMap : NameMap) (w : Walk) (event : ℤ × Die) : Walk :=
  let depth := w.depth + event.1
  ⟨depth, w.build.visit (openEntry unitBase nameMap) (depth, event.2)⟩

def closeAll : List (Frame Entry) → Forest Entry → Forest Entry → Forest Entry
  | [], done, out => out.append done
  | top :: stack, done, out => closeAll stack (.node top.label (top.kids.append done) .nil) out

def walkUnit (unitBase : ℕ) (nameMap : NameMap) (events : List (ℤ × Die)) (out : Forest Entry) :
    Forest Entry :=
  let w := events.foldl (walkStep unitBase nameMap) ⟨0, ⟨[], out⟩⟩
  closeAll w.build.stack .nil w.build.out

def top (nextDfs : Forest Die → List (ℤ × Die)) (units : List (ℕ × Forest Die)) : Forest Entry :=
  let nameMap := buildNameMap (units.map fun u => (u.1, (nextDfs u.2).map Prod.snd))
  units.foldl (fun out u => walkUnit u.1 nameMap (nextDfs u.2) out) .nil

def rangeBytes (r : UInt64 × UInt64) : UInt64 := r.2 - r.1

def Entry.totalBytes (e : Entry) : UInt64 := (e.ranges.map rangeBytes).sum

def childrenBytes (kids : Forest Entry) : UInt64 := (kids.trees.map fun k => k.1.totalBytes).sum

def saturatingSub (a b : UInt64) : UInt64 := if b ≤ a then a - b else 0

def selfBytes (e : Entry) (kids : Forest Entry) : UInt64 :=
  saturatingSub e.totalBytes (childrenBytes kids)

def depths (depth : ℤ) : List (ℤ × Die) → List (ℤ × Die)
  | [] => []
  | (delta, die) :: rest => (depth + delta, die) :: depths (depth + delta) rest

def DepthFirst (nextDfs : Forest Die → List (ℤ × Die)) : Prop :=
  ∀ dies, ∃ base, depths 0 (nextDfs dies) = dies.listing base

def bytesOf (f : Forest Entry) : ℕ := (f.trees.map fun k => k.1.totalBytes.toNat).sum

def selfTotal : Forest Entry → ℕ
  | .nil => 0
  | .node e kids rest => (selfBytes e kids).toNat + (selfTotal kids + selfTotal rest)

def Summable : Forest Entry → Prop
  | .nil => True
  | .node _ kids rest => bytesOf kids < 2 ^ 64 ∧ Summable kids ∧ Summable rest

def Fitting : Forest Entry → Prop
  | .nil => True
  | .node e kids rest => bytesOf kids ≤ e.totalBytes.toNat ∧ Fitting kids ∧ Fitting rest

instance decidableSummable : (f : Forest Entry) → Decidable (Summable f)
  | .nil => .isTrue trivial
  | .node _ kids rest =>
    have := decidableSummable kids
    have := decidableSummable rest
    inferInstanceAs (Decidable (_ ∧ _ ∧ _))

variable {unitBase : ℕ} {nameMap : NameMap} {f : Forest Entry}
  {nextDfs : Forest Die → List (ℤ × Die)}

theorem foldl_depths (l : List (ℤ × Die)) (depth : ℤ) (s : Build Entry) :
    (l.foldl (walkStep unitBase nameMap) ⟨depth, s⟩).build =
      (depths depth l).foldl (Build.visit (openEntry unitBase nameMap)) s := by
  induction l generalizing depth s with
  | nil => rfl
  | cons event l ih => exact ih (depth + event.1) _

theorem depths_dies (l : List (ℤ × Die)) (depth : ℤ) :
    (depths depth l).map Prod.snd = l.map Prod.snd := by
  induction l generalizing depth with
  | nil => rfl
  | cons event l ih => exact congrArg (event.2 :: ·) (ih _)

theorem DepthFirst.dies (h : DepthFirst nextDfs) (dies : Forest Die) :
    (nextDfs dies).map Prod.snd = dies.labels := by
  obtain ⟨base, heq⟩ := h dies
  rw [← depths_dies _ 0, heq, Forest.listing_labels]

theorem closeAll_close {d : ℤ} {stack : List (Frame Entry)} {done out : Forest Entry}
    (h : (Build.close d stack done out).stack = []) :
    closeAll stack done out = (Build.close d stack done out).out := by
  induction stack generalizing done with
  | nil => rfl
  | cons top stack ih =>
    rw [Build.close] at h ⊢
    by_cases htop : top.depth < d
    · rw [if_pos htop] at h
      cases h
    · rw [if_neg htop] at h ⊢
      exact ih h

theorem walkUnit_contract (h : DepthFirst nextDfs) (dies : Forest Die) (out : Forest Entry) :
    walkUnit unitBase nameMap (nextDfs dies) out =
      out.append (dies.contract (openEntry unitBase nameMap) false) := by
  let start : Build Entry := ⟨[], out⟩
  obtain ⟨base, hdepths⟩ := h dies
  have hbuild : ((dies.listing base).foldl (Build.visit (openEntry unitBase nameMap))
      start).settle base = start.attach (dies.contract (openEntry unitBase nameMap) false) :=
    Build.build_listing dies fun top h => (nomatch h)
  rw [walkUnit]
  simp only [foldl_depths, hdepths]
  rw [closeAll_close (d := base)]
  · exact congrArg Build.out hbuild
  · exact congrArg Build.stack hbuild

def contracted (nameMap : NameMap) : List (ℕ × Forest Die) → Forest Entry
  | [] => .nil
  | u :: units => (u.2.contract (openEntry u.1 nameMap) false).append (contracted nameMap units)

theorem foldl_walkUnit (h : DepthFirst nextDfs) (units : List (ℕ × Forest Die))
    (out : Forest Entry) :
    units.foldl (fun out u => walkUnit u.1 nameMap (nextDfs u.2) out) out =
      out.append (contracted nameMap units) := by
  induction units generalizing out with
  | nil => exact (out.append_nil).symm
  | cons u units ih => rw [List.foldl_cons, contracted, ih, walkUnit_contract h, Forest.append_assoc]

def named (units : List (ℕ × Forest Die)) : NameMap :=
  buildNameMap (units.map fun u => (u.1, u.2.labels))

theorem top_eq (h : DepthFirst nextDfs) (units : List (ℕ × Forest Die)) :
    top nextDfs units = contracted (named units) units := by
  unfold top named
  simp only [h.dies]
  exact foldl_walkUnit h units .nil

theorem sum_toNat {α : Type} (g : α → UInt64) (l : List α) :
    (l.map g).sum.toNat = (l.map fun x => (g x).toNat).sum % 2 ^ 64 := by
  induction l with
  | nil => rfl
  | cons x l ih =>
    rw [List.map_cons, List.map_cons, List.sum_cons, List.sum_cons, UInt64.toNat_add, ih,
      Nat.add_mod_mod]

theorem bytesOf_node (e : Entry) (kids rest : Forest Entry) :
    bytesOf (.node e kids rest) = e.totalBytes.toNat + bytesOf rest := rfl

theorem saturatingSub_toNat (a b : UInt64) : (saturatingSub a b).toNat = a.toNat - b.toNat := by
  unfold saturatingSub
  split
  · rename_i hle
    exact UInt64.toNat_sub_of_le _ _ hle
  · rename_i hlt
    rw [UInt64.le_iff_toNat_le] at hlt
    exact (Nat.sub_eq_zero_of_le (Nat.not_le.mp hlt).le).symm

theorem selfTotal_bounds (hs : Summable f) :
    bytesOf f ≤ selfTotal f ∧ (selfTotal f = bytesOf f ↔ Fitting f) := by
  induction f with
  | nil => exact ⟨le_rfl, iff_of_true rfl trivial⟩
  | node e kids rest ihk ihr =>
    obtain ⟨hlt, hkids, hrest⟩ := hs
    obtain ⟨hk, hke⟩ := ihk hkids
    obtain ⟨hr, hre⟩ := ihr hrest
    have hchildren : (childrenBytes kids).toNat = bytesOf kids :=
      (sum_toNat _ _).trans (Nat.mod_eq_of_lt hlt)
    rw [bytesOf_node, selfTotal, selfBytes, saturatingSub_toNat, hchildren, Fitting, ← hke, ← hre]
    constructor
    · omega
    · omega

theorem entryRanges_forward {d : Die} : ∀ r ∈ entryRanges d, 0 < r.1 ∧ r.1 < r.2 := by
  intro r hr
  rw [entryRanges] at hr
  cases hranges : d.ranges with
  | some rs =>
    rw [hranges] at hr
    simpa using (List.mem_filter.mp hr).2
  | none =>
    cases hlow : d.lowPc with
    | none =>
      rw [hranges, hlow] at hr
      cases hr
    | some low =>
      simp only [hranges, hlow, List.mem_ite_nil_left, List.mem_ite_nil_right,
        List.mem_singleton] at hr
      obtain ⟨hzero, hgt, rfl⟩ := hr
      exact ⟨UInt64.pos_iff_ne_zero.mpr hzero, hgt⟩

theorem openEntry_ranges {nested : Bool} {d : Die} {e : Entry}
    (h : openEntry unitBase nameMap nested d = some e) :
    e.ranges = entryRanges d ∧ entryRanges d ≠ [] := by
  rw [openEntry] at h
  cases htag : d.tag with
  | subprogram =>
    simp only [htag, Option.ite_none_right_eq_some, Option.some.injEq] at h
    obtain ⟨hne, rfl⟩ := h
    exact ⟨rfl, hne⟩
  | inlinedSubroutine =>
    simp only [htag, Option.ite_none_right_eq_some, Option.some.injEq] at h
    obtain ⟨⟨hne, -⟩, rfl⟩ := h
    exact ⟨rfl, hne⟩
  | other => simp [htag] at h

theorem contracted_labels {units : List (ℕ × Forest Die)} {e : Entry}
    (h : e ∈ (contracted nameMap units).labels) :
    ∃ u ∈ units, ∃ d ∈ u.2.labels, ∃ nested, openEntry u.1 nameMap nested d = some e := by
  induction units with
  | nil => cases h
  | cons u units ih =>
    rw [contracted, Forest.labels_append] at h
    rcases List.mem_append.mp h with h | h
    · exact ⟨u, List.mem_cons_self, Forest.labels_contract _ h⟩
    · obtain ⟨v, hv, hd⟩ := ih h
      exact ⟨v, List.mem_cons_of_mem _ hv, hd⟩

structure Attributed (units : List (ℕ × Forest Die)) (entries : Forest Entry) : Prop where
  nesting : entries = contracted (named units) units
  placed : ∀ e ∈ entries.labels, e.ranges ≠ [] ∧ ∀ r ∈ e.ranges, 0 < r.1 ∧ r.1 < r.2
  total : ∀ e ∈ entries.labels, e.totalBytes.toNat =
    (e.ranges.map fun r => r.2.toNat - r.1.toNat).sum % 2 ^ 64
  counted : Summable entries → bytesOf entries ≤ selfTotal entries
  partitioned : Summable entries → (selfTotal entries = bytesOf entries ↔ Fitting entries)

def deltas (depth : ℤ) : List (ℤ × Die) → List (ℤ × Die)
  | [] => []
  | (d, die) :: rest => (d - depth, die) :: deltas d rest

def preorder (dies : Forest Die) : List (ℤ × Die) := deltas 0 (dies.listing 0)

theorem depths_deltas (depth : ℤ) (l : List (ℤ × Die)) : depths depth (deltas depth l) = l := by
  induction l generalizing depth with
  | nil => rfl
  | cons event l ih =>
    obtain ⟨d, die⟩ := event
    rw [deltas, depths, add_sub_cancel, ih]

def code (offset : ℕ) (tag : Tag) (low size : UInt64) : Die :=
  ⟨offset, tag, none, some "f", none, some low, .size size, .unitRef 0⟩

def sampleDies : Forest Die :=
  .node (code 0 .subprogram 16 12)
    (.node (code 1 .other 0 0) (.node (code 2 .inlinedSubroutine 20 4) .nil .nil) .nil)
    (.node (code 3 .inlinedSubroutine 64 8) .nil .nil)

end Ltop.InlineBytes
