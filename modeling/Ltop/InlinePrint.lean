import Mathlib
import Ltop.InlineBytes

namespace Ltop.InlineBytes

def MAX_DEPTH : ℕ := 12

def MAX_CHILDREN_PER_LEVEL : ℕ := 20

def MAX_TOTAL_LINES : ℕ := 5000

def MIN_BYTES_AT_LEAF : UInt64 := 8

def MAX_NEEDLE_HITS : ℕ := 8

abbrev Node := Entry × Forest Entry

structure Printer where
  w : List String
  linesLeft : ℕ
  truncated : Bool
deriving DecidableEq

def indented (width : ℕ) (text : String) : String := "".pushn ' ' width ++ text

def heading (indent : ℕ) (e : Node) : String :=
  let name := e.1.name
  let total := e.1.totalBytes
  let self := selfBytes e.1 e.2
  if indent = 0 then s!"{name} — total {total} B, self {self} B"
  else indented (indent * 2) s!"{name} — {total} B"

def largestFirst (es : List Node) : List Node :=
  es.mergeSort fun a b => b.1.totalBytes ≤ a.1.totalBytes

def listedKids (e : Node) : List Node :=
  largestFirst (e.2.trees.filter fun c => c.1.totalBytes ≥ MIN_BYTES_AT_LEAF)

def moreLine (indent : ℕ) (kids : List Node) : String :=
  let count := kids.length - MAX_CHILDREN_PER_LEVEL
  let rest := ((kids.drop MAX_CHILDREN_PER_LEVEL).map fun c => c.1.totalBytes).sum
  indented (indent * 2) s!"… {count} more, {rest} B total"

namespace Printer

def line (p : Printer) (text : String) : Printer × Bool :=
  if p.linesLeft = 0 then ({ p with truncated := true }, false)
  else (⟨p.w ++ [text], p.linesLeft - 1, p.truncated⟩, true)

def andThen (r : Printer × Bool) (next : Printer → Printer × Bool) : Printer × Bool :=
  if r.2 then next r.1 else r

def each {β : Type} (f : Printer → β → Printer × Bool) : List β → Printer → Printer × Bool
  | [], p => (p, true)
  | x :: xs, p => andThen (f p x) (each f xs)

def more (p : Printer) (indent : ℕ) (kids : List Node) : Printer × Bool :=
  if kids.length > MAX_CHILDREN_PER_LEVEL then p.line (moreLine indent kids) else (p, true)

def tree : ℕ → Printer → Node → Printer × Bool
  | 0, p, e => p.line (heading MAX_DEPTH e)
  | below + 1, p, e =>
    let indent := MAX_DEPTH - (below + 1)
    let kids := listedKids e
    andThen (p.line (heading indent e)) fun p =>
      andThen (each (fun p k => tree below p k) (kids.take MAX_CHILDREN_PER_LEVEL) p) fun p =>
        p.more (indent + 1) kids

def hits : List Node → Printer → Printer
  | [], p => p
  | e :: es, p =>
    let (p, ok) := tree MAX_DEPTH p e
    if ok then hits es { p with w := p.w ++ [""] } else p

end Printer

def isMatch (needle : List Char) (e : Node) : Bool := needle <:+: e.1.name.toList

def matchedLine (totalHits shown : ℕ) : String :=
  s!"… {totalHits - shown} more subprograms matched (showing top {shown} by bytes)"

def printNeedle (needle : List Char) (top : Forest Entry) : Option Printer :=
  let hits := largestFirst (top.trees.filter (isMatch needle))
  if hits = [] then none
  else
    let totalHits := hits.length
    let shown := min totalHits MAX_NEEDLE_HITS
    let p := Printer.hits (hits.take shown) ⟨[], MAX_TOTAL_LINES, false⟩
    some (if totalHits > shown then { p with w := p.w ++ [matchedLine totalHits shown] } else p)

def moreLines (indent : ℕ) (kids : List Node) : List String :=
  if kids.length > MAX_CHILDREN_PER_LEVEL then [moreLine indent kids] else []

def treeLines : ℕ → Node → List String
  | 0, e => [heading MAX_DEPTH e]
  | below + 1, e =>
    let indent := MAX_DEPTH - (below + 1)
    let kids := listedKids e
    heading indent e :: ((kids.take MAX_CHILDREN_PER_LEVEL).flatMap (treeLines below) ++
      moreLines (indent + 1) kids)

namespace Printer

variable {p : Printer} {L M : List String} {hs : List Node}

def emit (p : Printer) (L : List String) : Printer × Bool :=
  (⟨p.w ++ L.take p.linesLeft, p.linesLeft - L.length, p.truncated || p.linesLeft < L.length⟩,
    L.length ≤ p.linesLeft)

theorem emit_fits (h : L.length ≤ p.linesLeft) :
    p.emit L = (⟨p.w ++ L, p.linesLeft - L.length, p.truncated⟩, true) := by
  simp [emit, List.take_of_length_le h, h, Nat.not_lt.mpr h]

theorem emit_over (h : p.linesLeft < L.length) :
    p.emit L = (⟨p.w ++ L.take p.linesLeft, 0, true⟩, false) := by
  simp [emit, h, Nat.sub_eq_zero_of_le h.le]

theorem emit_nil (p : Printer) : p.emit [] = (p, true) := by simp [emit]

theorem line_emit (p : Printer) (text : String) : p.line text = p.emit [text] := by
  obtain ⟨w, left, cut⟩ := p
  cases left <;> simp [line, emit]

theorem emit_append (p : Printer) (L M : List String) :
    andThen (p.emit L) (·.emit M) = p.emit (L ++ M) := by
  have hlen : (L ++ M).length = L.length + M.length := List.length_append
  rcases Nat.lt_or_ge p.linesLeft L.length with hover | hfits
  · rw [emit_over hover, emit_over (by omega), List.take_append_of_le_length hover.le]
    rfl
  · rw [emit_fits hfits, andThen, if_pos rfl]
    rcases Nat.lt_or_ge p.linesLeft (L ++ M).length with hover | hall
    · rw [emit_over hover, emit_over (by dsimp only; omega), List.take_append,
        List.take_of_length_le hfits, List.append_assoc]
    · rw [emit_fits hall, emit_fits (by dsimp only; omega), List.append_assoc, hlen,
        Nat.sub_sub]

theorem each_emit {β : Type} {f : Printer → β → Printer × Bool} {g : β → List String}
    (h : ∀ p x, f p x = p.emit (g x)) (xs : List β) (p : Printer) :
    each f xs p = p.emit (xs.flatMap g) := by
  induction xs generalizing p with
  | nil => rw [each, List.flatMap_nil, emit_nil]
  | cons x xs ih =>
    rw [each, h, funext ih, List.flatMap_cons, emit_append]

theorem more_emit (p : Printer) (indent : ℕ) (kids : List Node) :
    p.more indent kids = p.emit (moreLines indent kids) := by
  unfold more moreLines
  split
  · exact line_emit p _
  · exact (emit_nil p).symm

theorem tree_emit (below : ℕ) (p : Printer) (e : Node) :
    tree below p e = p.emit (treeLines below e) := by
  induction below generalizing p e with
  | zero => rw [tree, treeLines, line_emit]
  | succ below ih =>
    have hkids : ∀ p : Printer, each (fun p k => tree below p k)
        ((listedKids e).take MAX_CHILDREN_PER_LEVEL) p =
        p.emit (((listedKids e).take MAX_CHILDREN_PER_LEVEL).flatMap (treeLines below)) :=
      each_emit ih _
    rw [tree, treeLines, ← List.singleton_append, ← emit_append]
    simp only [line_emit, hkids, more_emit, emit_append]

def printed (hs : List Node) : List String :=
  hs.flatMap fun e => treeLines MAX_DEPTH e ++ [""]

def counted (hs : List Node) : ℕ := (hs.map fun e => (treeLines MAX_DEPTH e).length).sum

structure Shown (hs : List Node) (limit : ℕ) (shown : List String) (truncated : Bool) : Prop where
  whole : shown <+: printed hs
  cut : truncated = true ↔ limit < counted hs
  all : counted hs ≤ limit → shown = printed hs
  bounded : shown.length ≤ limit + hs.length

theorem hits_shown (hs : List Node) (p : Printer) (hp : p.truncated = false) :
    ∃ shown, (hits hs p).w = p.w ++ shown ∧ Shown hs p.linesLeft shown (hits hs p).truncated := by
  induction hs generalizing p with
  | nil =>
    refine ⟨[], (List.append_nil _).symm, List.nil_prefix, ?_, fun _ => rfl, Nat.zero_le _⟩
    simp [hits, hp, counted]
  | cons e hs ih =>
    have hcount : counted (e :: hs) = (treeLines MAX_DEPTH e).length + counted hs := List.sum_cons
    have hall : printed (e :: hs) = treeLines MAX_DEPTH e ++ [""] ++ printed hs := List.flatMap_cons
    rw [hits, tree_emit]
    rcases Nat.lt_or_ge p.linesLeft (treeLines MAX_DEPTH e).length with hover | hfits
    · rw [emit_over hover]
      refine ⟨_, rfl, ?_, ?_, fun hle => ?_, ?_⟩
      · rw [hall, List.append_assoc]
        exact (List.take_prefix _ _).trans (List.prefix_append _ _)
      · exact iff_of_true rfl (by omega)
      · omega
      · rw [List.length_take]
        omega
    · rw [emit_fits hfits]
      obtain ⟨shown, hw, hwhole, hcut, hshown, hbounded⟩ :=
        ih ⟨p.w ++ treeLines MAX_DEPTH e ++ [""], p.linesLeft - (treeLines MAX_DEPTH e).length,
          p.truncated⟩ hp
      refine ⟨treeLines MAX_DEPTH e ++ [""] ++ shown, ?_, ?_, ?_, fun hle => ?_, ?_⟩
      · simpa using hw
      · rw [hall]
        exact (List.prefix_append_right_inj _).mpr hwhole
      · exact hcut.trans (by dsimp only; omega)
      · rw [hall, hshown (by dsimp only; omega)]
      · simp only [List.length_append, List.length_cons, List.length_nil] at hbounded ⊢
        omega

end Printer

def matching (needle : List Char) (top : Forest Entry) : List Node :=
  largestFirst (top.trees.filter (isMatch needle))

theorem mem_matching {needle : List Char} {top : Forest Entry} {e : Node} :
    e ∈ matching needle top ↔ e ∈ top.trees ∧ needle <:+: e.1.name.toList := by
  rw [matching, largestFirst, List.mem_mergeSort, List.mem_filter, isMatch, decide_eq_true_eq]

def matchedLines (totalHits : ℕ) : List String :=
  if MAX_NEEDLE_HITS < totalHits then [matchedLine totalHits MAX_NEEDLE_HITS] else []

theorem printNeedle_shown (needle : List Char) (top : Forest Entry) :
    (printNeedle needle top = none ∧ ∀ e ∈ top.trees, ¬ needle <:+: e.1.name.toList) ∨
      ∃ p shown, printNeedle needle top = some p ∧
        (∃ e ∈ top.trees, needle <:+: e.1.name.toList) ∧
        p.w = shown ++ matchedLines (matching needle top).length ∧
        Printer.Shown ((matching needle top).take MAX_NEEDLE_HITS) MAX_TOTAL_LINES shown
          p.truncated := by
  unfold printNeedle
  dsimp only
  rw [← matching]
  by_cases hnone : matching needle top = []
  · refine .inl ⟨if_pos hnone, fun e he hin => ?_⟩
    have hmem := mem_matching.mpr ⟨he, hin⟩
    rw [hnone] at hmem
    exact absurd hmem List.not_mem_nil
  · obtain ⟨e, he⟩ := List.exists_mem_of_ne_nil _ hnone
    obtain ⟨shown, hw, hshown⟩ := Printer.hits_shown ((matching needle top).take MAX_NEEDLE_HITS)
      ⟨[], MAX_TOTAL_LINES, false⟩ rfl
    rw [List.nil_append] at hw
    have hsome : ∃ e ∈ top.trees, needle <:+: e.1.name.toList := ⟨e, mem_matching.mp he⟩
    rw [if_neg hnone]
    unfold matchedLines
    rcases Nat.lt_or_ge MAX_NEEDLE_HITS (matching needle top).length with hmore | hfew
    · rw [Nat.min_eq_right hmore.le, if_pos hmore, if_pos hmore]
      exact .inr ⟨_, shown, rfl, hsome, congrArg (· ++ _) hw, hshown⟩
    · rw [List.take_of_length_le hfew] at hw hshown ⊢
      rw [Nat.min_eq_left hfew, List.take_length, if_neg (Nat.lt_irrefl _), if_neg (Nat.not_lt.mpr hfew)]
      exact .inr ⟨_, shown, rfl, hsome, hw.trans (List.append_nil _).symm, hshown⟩

end Ltop.InlineBytes
