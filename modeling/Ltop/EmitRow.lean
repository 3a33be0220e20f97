import Mathlib
import Ltop.Collect
import Ltop.Budget
import Ltop.Twrite

namespace Ltop

open Numeral

variable {os : Os} {n : ℕ}

def formatAge (secs : UInt32) : List UInt8 :=
  if secs ≥ 86400 then
    padRight (secs / 86400) 2 ++ bytes "d" ++ padZero (secs % 86400 / 3600) 2 ++ bytes "h"
  else if secs ≥ 3600 then
    padRight (secs / 3600) 2 ++ bytes "h" ++ padZero (secs % 3600 / 60) 2 ++ bytes "m"
  else if secs ≥ 60 then
    padRight (secs / 60) 2 ++ bytes "m" ++ padZero (secs % 60) 2 ++ bytes "s"
  else padRight secs 5 ++ bytes "s"

def formatMem (kib : UInt32) : List UInt8 :=
  if kib ≥ (1 : UInt32) <<< 20 then
    let tenths : UInt64 := (kib.toUInt64 * 10 + ((1 : UInt64) <<< (19 : UInt64))) >>> (20 : UInt64)
    padRight (tenths / 10).toUInt32 3 ++ bytes "." ++ u32d (tenths % 10).toUInt32 ++ bytes "G"
  else if kib ≥ (1 : UInt32) <<< 10 then padRight (kib >>> 10) 5 ++ bytes "M"
  else padRight kib 5 ++ bytes "K"

def fgOpen (c : Color) : List UInt8 :=
  27 :: bytes "[38;2;" ++ u32d c.1.toUInt32 ++ bytes ";" ++ u32d c.2.1.toUInt32 ++ bytes ";" ++
    u32d c.2.2.toUInt32 ++ bytes "m"

def FG_CLOSE_EOL : List UInt8 := 27 :: bytes "[0m" ++ 27 :: bytes "[K" ++ [10]

def GPU_DATA_COLS : Os → ℕ
  | .linux => 2
  | .macos => 1

def GPU_BLANK (os : Os) : List UInt8 := List.replicate (GPU_DATA_COLS os * 7) 32

def gpuCells : {os : Os} → GpuUsage os → List UInt8
  | .linux, gpu => bytes " " ++ padRight gpu.smPct 6 ++ bytes " " ++ formatMem (gpu.memMib.val <<< 10)
  | .macos, gpu => bytes " " ++ padRight gpu.smPct 6

def gpuText (gpu : Option (GpuUsage os)) : List UInt8 :=
  match gpu with
  | some gpu => gpuCells gpu
  | none => GPU_BLANK os

def cmdWidth (os : Os) (indent : Indent) (width : ℕ) (hasGpu : Bool) : ℕ :=
  let gpuCols := if hasGpu then GPU_DATA_COLS os else 0
  let nDataCols := 3 + gpuCols
  let statsW := 7 + nDataCols * 7
  width - (statsW + 2 + indent.width)

def emitProcRow (procs : Table os n) (tree : List (Indent × Fin n)) (ti : Fin tree.length)
    (width gpuTotalMib : ℕ) (hasGpu : Bool) : List UInt8 :=
  let indent := (tree.get ti).1
  let p := procs (tree.get ti).2
  let cmd := truncate p.display (cmdWidth os indent width hasGpu)
  fgOpen (rowColor p gpuTotalMib) ++ padLeft p.pid 7 ++ bytes " " ++ f1Wide p.cpu 6 ++ bytes " " ++
    formatMem p.rssKib ++ (if hasGpu then gpuText p.gpu else []) ++ bytes " " ++
    formatAge p.ageSecs ++ bytes "  " ++ indent.put ++ cmd ++ FG_CLOSE_EOL

def Confined (row : List UInt8) : Prop := row.filter isControl = [27, 27, 27, 10]

variable {s t : List UInt8}

def Printable (s : List UInt8) : Prop := ∀ b ∈ s, 32 ≤ b ∧ b < 0x7F

instance (s : List UInt8) : Decidable (Printable s) := List.decidableBAll _ s

theorem Printable.plain (h : Printable s) : Plain s := by
  intro c hc
  obtain ⟨hlow, hhigh⟩ := h c hc
  have hbelow : ¬ c < 32 := UInt8.not_lt.mpr hlow
  have hne : c ≠ 0x7F := fun heq => UInt8.lt_irrefl _ (heq ▸ hhigh)
  simp [isControl, hbelow, hne]

theorem Printable.append (hs : Printable s) (ht : Printable t) : Printable (s ++ t) :=
  List.forall_mem_append.mpr ⟨hs, ht⟩

theorem printable_replicate {b : UInt8} (hb : 32 ≤ b ∧ b < 0x7F) (k : ℕ) :
    Printable (List.replicate k b) := fun _ hc => List.eq_of_mem_replicate hc ▸ hb

theorem u32d_digits (n : UInt32) : ∀ b ∈ u32d n, 48 ≤ b ∧ b ≤ 57 := by
  intro b hb
  simpa [isDigit] using decimal_allDigits n.toNat b hb

theorem u32d_printable (n : UInt32) : Printable (u32d n) := by
  intro b hb
  obtain ⟨hlow, hhigh⟩ := u32d_digits n b hb
  exact ⟨UInt8.le_trans (by decide) hlow, UInt8.lt_of_le_of_lt hhigh (by decide)⟩

theorem padRight_printable (n : UInt32) (w : ℕ) : Printable (padRight n w) :=
  (printable_replicate (by decide) _).append (u32d_printable n)

theorem padLeft_printable (n : UInt32) (w : ℕ) : Printable (padLeft n w) :=
  (u32d_printable n).append (printable_replicate (by decide) _)

theorem padZero_printable (n : UInt32) (w : ℕ) : Printable (padZero n w) :=
  (printable_replicate (by decide) _).append (u32d_printable n)

theorem f1Wide_printable (x : ℚ) (w : ℕ) : Printable (f1Wide x w) :=
  ((padRight_printable _ _).append (by decide)).append (u32d_printable _)

theorem formatAge_printable (secs : UInt32) : Printable (formatAge secs) := by
  have hd : Printable (bytes "d") := by decide
  have hh : Printable (bytes "h") := by decide
  have hm : Printable (bytes "m") := by decide
  have hs : Printable (bytes "s") := by decide
  have hpair : ∀ {a b : UInt32} {x y : List UInt8}, Printable x → Printable y →
      Printable (padRight a 2 ++ x ++ padZero b 2 ++ y) := fun hx hy =>
    (((padRight_printable _ _).append hx).append (padZero_printable _ _)).append hy
  unfold formatAge
  split
  · exact hpair hd hh
  · split
    · exact hpair hh hm
    · split
      · exact hpair hm hs
      · exact (padRight_printable _ _).append hs

theorem formatMem_printable (kib : UInt32) : Printable (formatMem kib) := by
  unfold formatMem
  split
  · exact (((padRight_printable _ _).append (by decide)).append (u32d_printable _)).append
      (by decide)
  · split
    · exact (padRight_printable _ _).append (by decide)
    · exact (padRight_printable _ _).append (by decide)

theorem space_printable : Printable (bytes " ") := by decide

theorem gpuCells_printable : {os : Os} → (gpu : GpuUsage os) → Printable (gpuCells gpu)
  | .linux, _ => ((space_printable.append (padRight_printable _ _)).append space_printable).append
      (formatMem_printable _)
  | .macos, _ => space_printable.append (padRight_printable _ _)

theorem gpuText_printable (gpu : Option (GpuUsage os)) : Printable (gpuText gpu) := by
  cases gpu with
  | none => exact printable_replicate (by decide) _
  | some gpu => exact gpuCells_printable gpu

theorem text_plain (text : String) (h : (bytes text).filter isControl = []) : Plain (bytes text) :=
  plain_iff.mpr h

theorem indent_plain (t : Indent) : Plain t.put := by
  have hspaces : Plain (bytes "  ") := text_plain "  " (by decide)
  have hbar : Plain (bytes "│ ") := text_plain "│ " (by decide)
  have hlast : Plain (bytes "└─") := text_plain "└─" (by decide)
  have hmore : Plain (bytes "├─") := text_plain "├─" (by decide)
  unfold Indent.put
  dsimp only
  split
  · exact fun c hc => absurd hc List.not_mem_nil
  · refine .append (fun c hc => ?_) ?_
    · obtain ⟨i, -, hc⟩ := List.mem_flatMap.mp hc
      split at hc
      · exact hspaces c hc
      · exact hbar c hc
    · split
      · exact hlast
      · exact hmore

theorem fgOpen_controls (c : Color) : (fgOpen c).filter isControl = [27] := by
  have hsemi : Plain (bytes ";") := text_plain ";" (by decide)
  have hrest : Plain (bytes "[38;2;" ++ u32d c.1.toUInt32 ++ bytes ";" ++ u32d c.2.1.toUInt32 ++
      bytes ";" ++ u32d c.2.2.toUInt32 ++ bytes "m") :=
    ((((((text_plain "[38;2;" (by decide)).append (u32d_printable _).plain).append hsemi).append
      (u32d_printable _).plain).append hsemi).append (u32d_printable _).plain).append
      (text_plain "m" (by decide))
  have hcons : fgOpen c = 27 :: (bytes "[38;2;" ++ u32d c.1.toUInt32 ++ bytes ";" ++
      u32d c.2.1.toUInt32 ++ bytes ";" ++ u32d c.2.2.toUInt32 ++ bytes "m") := rfl
  rw [hcons, List.filter_cons_of_pos (by decide), plain_iff.mp hrest]

theorem close_controls : FG_CLOSE_EOL.filter isControl = [27, 27, 10] := by decide

theorem emitProcRow_controls (procs : Table os n) (tree : List (Indent × Fin n))
    (ti : Fin tree.length) (width gpuTotalMib : ℕ) (hasGpu : Bool) :
    (emitProcRow procs tree ti width gpuTotalMib hasGpu).filter isControl =
      [27] ++ (truncate (procs (tree.get ti).2).display
        (cmdWidth os (tree.get ti).1 width hasGpu)).filter isControl ++ [27, 27, 10] := by
  have hgpu : Plain (if hasGpu then gpuText (procs (tree.get ti).2).gpu else []) := by
    split
    · exact (gpuText_printable _).plain
    · exact fun c hc => absurd hc List.not_mem_nil
  have hspaces : Plain (bytes "  ") := text_plain "  " (by decide)
  unfold emitProcRow
  simp only [List.filter_append, fgOpen_controls, close_controls, plain_iff.mp hgpu,
    plain_iff.mp (padLeft_printable _ _).plain, plain_iff.mp space_printable.plain,
    plain_iff.mp (f1Wide_printable _ _).plain, plain_iff.mp (formatMem_printable _).plain,
    plain_iff.mp (formatAge_printable _).plain, plain_iff.mp hspaces,
    plain_iff.mp (indent_plain _), List.append_nil]

theorem confined_iff (procs : Table os n) (tree : List (Indent × Fin n)) (ti : Fin tree.length)
    (width gpuTotalMib : ℕ) (hasGpu : Bool) :
    Confined (emitProcRow procs tree ti width gpuTotalMib hasGpu) ↔
      Plain (truncate (procs (tree.get ti).2).display
        (cmdWidth os (tree.get ti).1 width hasGpu)) := by
  rw [Confined, emitProcRow_controls, plain_iff]
  constructor
  · intro h
    have hlen := congrArg List.length h
    simp only [List.length_append, List.length_cons, List.length_nil] at hlen
    exact List.eq_nil_of_length_eq_zero (by omega)
  · intro h
    rw [h]
    rfl

def RowsConfined (os : Os) (display : List UInt8) : Prop :=
  ∀ (n : ℕ) (procs : Table os n) (tree : List (Indent × Fin n)) (ti : Fin tree.length)
    (width gpuTotalMib : ℕ) (hasGpu : Bool), (procs (tree.get ti).2).display = display →
    Confined (emitProcRow procs tree ti width gpuTotalMib hasGpu)

theorem rowsConfined_iff {display : List UInt8} : RowsConfined os display ↔ Plain display := by
  constructor
  · intro h
    let row : ProcInfo os := procInfo 1 0 0 true display
    have hone := h 1 (fun _ => row) [(⟨0, 0⟩, 0)] ⟨0, Nat.one_pos⟩ (50 + display.length) 0 false rfl
    rw [confined_iff] at hone
    have hwidth : display.length ≤ cmdWidth os ⟨0, 0⟩ (50 + display.length) false := by
      have hzero : (⟨0, 0⟩ : Indent).width = 0 := rfl
      simp only [cmdWidth, hzero, Bool.false_eq_true, if_false]
      omega
    rw [plain_iff, ← putSlice_controls, ← truncate_wide display hwidth]
    exact plain_iff.mp hone
  · rintro h n procs tree ti width gpuTotalMib hasGpu rfl
    exact (confined_iff procs tree ti width gpuTotalMib hasGpu).mpr (truncate_plain _ h)

def commandPieces (comm : List UInt8) (args : List (List UInt8)) (isRelated : Bool) :
    List (List UInt8) :=
  match (if comm = bytes "cc1plus" ∨ comm = bytes "cc1" then findCcSource args else none) with
  | some src => [comm, src]
  | none =>
    if isRelated then leanLabel args :: (findLeanFile args).toList
    else match args.head? with
      | none => [comm]
      | some arg0 =>
        if isInterpreter (basename arg0) then [(findScriptArg args).getD (basename arg0)]
        else [basename arg0]

theorem buildCommand_pieces (comm : List UInt8) (args : List (List UInt8)) (isRelated : Bool) :
    buildCommand comm args isRelated = List.intercalate [32]
      (if isRelated then leanLabel args :: (findLeanFile args).toList
        else match args.head? with
          | none => [comm]
          | some arg0 =>
            if isInterpreter (basename arg0) then [(findScriptArg args).getD (basename arg0)]
            else [basename arg0]) := by
  have hspace : bytes " " = [32] := by decide
  unfold buildCommand
  cases isRelated with
  | true =>
    simp only [Bool.not_true, Bool.false_eq_true, if_false, if_true]
    cases findLeanFile args with
    | none => simp [List.intercalate]
    | some f => simp [List.intercalate, hspace]
  | false =>
    simp only [Bool.not_false, if_true, Bool.false_eq_true, if_false]
    cases args.head? with
    | none => simp [List.intercalate]
    | some arg0 =>
      dsimp only
      split <;> simp [List.intercalate]

theorem buildDisplayInto_pieces (comm : List UInt8) (args : List (List UInt8)) (isRelated : Bool) :
    buildDisplayInto comm args isRelated =
      List.intercalate [32] (commandPieces comm args isRelated) := by
  have hspace : bytes " " = [32] := by decide
  unfold buildDisplayInto commandPieces
  simp only [Bool.or_eq_true, beq_iff_eq]
  split
  · cases findCcSource args with
    | none => exact buildCommand_pieces comm args isRelated
    | some src => simp [List.intercalate, hspace]
  · exact buildCommand_pieces comm args isRelated

def Tame (prev : Map (Packed .linux)) (gpuPids : List UInt32) (fastPath : Bool) (p : Scanned) :
    Prop :=
  ∀ st, p.parsed = some st →
    if fastPath && !mayQualify prev gpuPids p.pid p.cpu st then Plain st.comm
    else isNoise st.comm p.args = false →
      Plain ((List.intercalate [32] (commandPieces st.comm p.args
        (isLeanOrLake st.comm p.args || isLeanRelated st.comm p.args))).take MAX_LEN)

theorem collectRow_plain (prev : Map (Packed .linux)) (gpuPids : List UInt32) (fastPath : Bool)
    (p : Scanned) : Plain (collectRow prev gpuPids fastPath p).display ↔
      Tame prev gpuPids fastPath p := by
  have hempty : Plain [] := fun c hc => absurd hc List.not_mem_nil
  unfold collectRow Tame
  cases p.parsed with
  | none => simpa [stub] using hempty
  | some st =>
    simp only [Option.some.injEq, forall_eq']
    split
    · rfl
    · simp only [fullRow, buildDisplayInto_pieces]
      cases isNoise st.comm p.args with
      | true => simpa using hempty
      | false => simp

theorem command_confined_iff (prev : Map (Packed .linux)) (gpuPids : List UInt32) (fastPath : Bool)
    (p : Scanned) : RowsConfined .linux (collectRow prev gpuPids fastPath p).display ↔
      Tame prev gpuPids fastPath p := by
  rw [rowsConfined_iff, collectRow_plain]

def clearScreen : Scanned where
  pid := 7
  parsed := some (statLine 1 0 (bytes "sh") (by decide))
  cpu := 50
  args := [[97, 27, 91, 50, 74]]

theorem command_drives_terminal : ¬ ∀ (prev : Map (Packed .linux)) (gpuPids : List UInt32)
    (fastPath : Bool) (p : Scanned),
    RowsConfined .linux (collectRow prev gpuPids fastPath p).display := by
  intro h
  have hplain := rowsConfined_iff.mp (h .empty [] true clearScreen)
  exact absurd (hplain 27 (by decide)) (by decide)

end Ltop
