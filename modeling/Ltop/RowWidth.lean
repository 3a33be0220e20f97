import Mathlib
import Ltop.Cells
import Ltop.Truncate

namespace Ltop

open Numeral

inductive Scan where
  | text
  | escape
  | csi
deriving DecidableEq

def scanByte (st : Scan) (b : UInt8) : Scan × ℕ :=
  if b = 27 then (.escape, 0)
  else match st with
    | .text => (.text, if isContinuation b then 0 else 1)
    | .escape => if b = 91 then (.csi, 0) else (.text, 0)
    | .csi => if 0x40 ≤ b ∧ b ≤ 0x7E then (.text, 0) else (.csi, 0)

def scanned : Scan → List UInt8 → Scan
  | st, [] => st
  | st, b :: s => scanned (scanByte st b).1 s

def columns : Scan → List UInt8 → ℕ
  | _, [] => 0
  | st, b :: s => (scanByte st b).2 + columns (scanByte st b).1 s

def rowColumns (row : List UInt8) : ℕ := columns .text row.dropLast

def fixedWidth (os : Os) (hasGpu : Bool) : ℕ := 30 + if hasGpu then GPU_DATA_COLS os * 7 else 0

def GpuNominal : {os : Os} → GpuUsage os → Prop
  | .linux, gpu => (padRight gpu.smPct 6).length = 6 ∧ (formatMem (gpu.memMib.val <<< 10)).length = 6
  | .macos, gpu => (padRight gpu.smPct 6).length = 6

def Nominal {os : Os} (p : ProcInfo os) : Prop :=
  p.pid.toNat < 10 ^ 7 ∧ (f1Wide p.cpu 6).length = 6 ∧ (formatMem p.rssKib).length = 6 ∧
    (formatAge p.ageSecs).length = 6 ∧ ∀ gpu ∈ p.gpu, GpuNominal gpu

def Spans (s : List UInt8) (k : ℕ) : Prop := columns .text s = k ∧ scanned .text s = .text

variable {os : Os} {n j k : ℕ} {st : Scan} {s t : List UInt8}

theorem scanned_append (st : Scan) (s t : List UInt8) :
    scanned st (s ++ t) = scanned (scanned st s) t := by
  induction s generalizing st with
  | nil => rfl
  | cons b s ih => exact ih _

theorem columns_append (st : Scan) (s t : List UInt8) :
    columns st (s ++ t) = columns st s + columns (scanned st s) t := by
  induction s generalizing st with
  | nil => exact (Nat.zero_add _).symm
  | cons b s ih =>
    rw [List.cons_append, columns, columns, ih, scanned, Nat.add_assoc]

theorem scanByte_le (st : Scan) (b : UInt8) : (scanByte st b).2 ≤ 1 := by
  unfold scanByte
  split
  · exact Nat.zero_le 1
  · cases st with
    | text =>
      dsimp only
      split <;> decide
    | escape =>
      dsimp only
      split <;> decide
    | csi =>
      dsimp only
      split <;> decide

theorem columns_le (st : Scan) (s : List UInt8) : columns st s ≤ s.length := by
  induction s generalizing st with
  | nil => exact le_rfl
  | cons b s ih =>
    rw [columns, List.length_cons, Nat.add_comm]
    exact Nat.add_le_add (ih _) (scanByte_le st b)

theorem Spans.append (hs : Spans s j) (ht : Spans t k) : Spans (s ++ t) (j + k) :=
  ⟨by rw [columns_append, hs.1, hs.2, ht.1], by rw [scanned_append, hs.2, ht.2]⟩

theorem spans_nil : Spans [] 0 := ⟨rfl, rfl⟩

theorem Spans.flatMap {ι : Type} {l : List ι} {f : ι → List UInt8} (h : ∀ i ∈ l, Spans (f i) k) :
    Spans (l.flatMap f) (l.length * k) := by
  induction l with
  | nil => simpa using spans_nil
  | cons i l ih =>
    obtain ⟨hi, hl⟩ := List.forall_mem_cons.mp h
    rw [List.flatMap_cons, List.length_cons, Nat.succ_mul, Nat.add_comm]
    exact hi.append (ih hl)

theorem Printable.spans (h : Printable s) : Spans s s.length := by
  induction s with
  | nil => exact spans_nil
  | cons b s ih =>
    obtain ⟨hb, hs⟩ := List.forall_mem_cons.mp h
    obtain ⟨hcols, hscan⟩ := ih hs
    have hne : b ≠ 27 := by
      rintro rfl
      exact absurd hb.1 (by decide)
    have hstart : isContinuation b = false := by
      rw [Bool.eq_false_iff]
      intro hcont
      have hlow := (isContinuation_range hcont).1
      have hhigh := hb.2
      simp only [UInt8.le_iff_toNat_le, UInt8.lt_iff_toNat_lt, UInt8.reduceToNat] at hlow hhigh
      omega
    have hscanByte : scanByte .text b = (.text, 1) := by simp [scanByte, hne, hstart]
    rw [Spans, columns, scanned, hscanByte, List.length_cons, Nat.add_comm]
    exact ⟨congrArg (· + 1) hcols, hscan⟩

theorem Printable.spans_of (h : Printable s) (hlen : s.length = k) : Spans s k := hlen ▸ h.spans

theorem gpuCells_spans : {os : Os} → {gpu : GpuUsage os} → GpuNominal gpu →
    Spans (gpuCells gpu) (GPU_DATA_COLS os * 7)
  | .linux, gpu, ⟨hsm, hmem⟩ => by
    have hspace : (bytes " ").length = 1 := rfl
    have hlen : (gpuCells gpu).length = GPU_DATA_COLS .linux * 7 := by
      simp only [gpuCells, List.length_append, hsm, hmem, hspace, GPU_DATA_COLS]
    exact (gpuCells_printable gpu).spans_of hlen
  | .macos, gpu, hsm => by
    have hspace : (bytes " ").length = 1 := rfl
    have hsm : (padRight gpu.smPct 6).length = 6 := hsm
    have hlen : (gpuCells gpu).length = GPU_DATA_COLS .macos * 7 := by
      simp only [gpuCells, List.length_append, hsm, hspace, GPU_DATA_COLS]
    exact (gpuCells_printable gpu).spans_of hlen

theorem gpuText_spans {gpu : Option (GpuUsage os)} (h : ∀ g ∈ gpu, GpuNominal g) :
    Spans (gpuText gpu) (GPU_DATA_COLS os * 7) := by
  cases gpu with
  | none =>
    have hblank : Printable (GPU_BLANK os) := printable_replicate (by decide) _
    have hlen : (GPU_BLANK os).length = GPU_DATA_COLS os * 7 := List.length_replicate
    exact hblank.spans_of hlen
  | some gpu => exact gpuCells_spans (h gpu rfl)

theorem indent_spans (t : Indent) : Spans t.put t.width := by
  have hspaces : Spans (bytes "  ") 2 := ⟨rfl, rfl⟩
  have hbar : Spans (bytes "│ ") 2 := ⟨rfl, rfl⟩
  have hlast : Spans (bytes "└─") 2 := ⟨rfl, rfl⟩
  have hmore : Spans (bytes "├─") 2 := ⟨rfl, rfl⟩
  unfold Indent.put Indent.width
  dsimp only
  split
  · rename_i hdepth
    rw [hdepth]
    exact spans_nil
  · rename_i hdepth
    have hlevels : ∀ i ∈ List.range (t.renderDepth - 1),
        Spans (if t.isLast i then bytes "  " else bytes "│ ") 2 := by
      intro i _
      split
      · exact hspaces
      · exact hbar
    have hself : Spans (if t.isLast (t.renderDepth - 1) then bytes "└─" else bytes "├─") 2 := by
      split
      · exact hlast
      · exact hmore
    have hall := (Spans.flatMap hlevels).append hself
    rw [List.length_range, ← Nat.succ_mul, Nat.succ_eq_add_one,
      Nat.sub_add_cancel (Nat.pos_of_ne_zero hdepth)] at hall
    exact hall

theorem csi_parameters (h : ∀ b ∈ s, 48 ≤ b ∧ b ≤ 59) :
    columns .csi s = 0 ∧ scanned .csi s = .csi := by
  induction s with
  | nil => exact ⟨rfl, rfl⟩
  | cons b s ih =>
    obtain ⟨hb, hs⟩ := List.forall_mem_cons.mp h
    have hbyte : scanByte .csi b = (.csi, 0) := by
      have hesc : b ≠ 27 := by
        rintro rfl
        exact absurd hb.1 (by decide)
      have hfinal : ¬ (0x40 ≤ b ∧ b ≤ 0x7E) := by
        simp only [UInt8.le_iff_toNat_le, UInt8.reduceToNat] at hb ⊢
        omega
      simp [scanByte, hesc, hfinal]
    rw [columns, scanned, hbyte, Nat.zero_add]
    exact ih hs

def parameters (c : Color) : List UInt8 :=
  bytes "38;2;" ++ u32d c.1.toUInt32 ++ bytes ";" ++ u32d c.2.1.toUInt32 ++ bytes ";" ++
    u32d c.2.2.toUInt32

theorem fgOpen_eq (c : Color) : fgOpen c = [27, 91] ++ parameters c ++ [109] := by
  have hhead : bytes "[38;2;" = 91 :: bytes "38;2;" := rfl
  have hlast : bytes "m" = [109] := rfl
  simp [fgOpen, parameters, hhead, hlast]

theorem parameters_range (c : Color) : ∀ b ∈ parameters c, 48 ≤ b ∧ b ≤ 59 := by
  have hdigits : ∀ n : UInt32, ∀ b ∈ u32d n, 48 ≤ b ∧ b ≤ 59 := by
    intro n b hb
    obtain ⟨hlow, hhigh⟩ := u32d_digits n b hb
    exact ⟨hlow, UInt8.le_trans hhigh (by decide)⟩
  have hstart : ∀ b ∈ bytes "38;2;", 48 ≤ b ∧ b ≤ 59 := by
    rw [show bytes "38;2;" = [51, 56, 59, 50, 59] by rfl]
    simp
  have hsemi : ∀ b ∈ bytes ";", 48 ≤ b ∧ b ≤ 59 := by
    rw [show bytes ";" = [59] by rfl]
    simp
  simp only [parameters, List.forall_mem_append]
  exact ⟨⟨⟨⟨⟨hstart, hdigits _⟩, hsemi⟩, hdigits _⟩, hsemi⟩, hdigits _⟩

theorem fgOpen_spans (c : Color) : Spans (fgOpen c) 0 := by
  obtain ⟨hcols, hscan⟩ := csi_parameters (parameters_range c)
  have hopen : columns .text [27, 91] = 0 ∧ scanned .text [27, 91] = .csi := ⟨rfl, rfl⟩
  have hfinal : columns .csi [109] = 0 ∧ scanned .csi [109] = .text := ⟨rfl, rfl⟩
  rw [fgOpen_eq]
  constructor
  · rw [columns_append, columns_append, scanned_append, hopen.1, hopen.2, hcols, hscan, hfinal.1]
  · rw [scanned_append, scanned_append, hopen.2, hscan, hfinal.2]

theorem close_columns (st : Scan) : columns st FG_CLOSE_EOL.dropLast = 0 := by
  cases st <;> rfl

def rowHead (p : ProcInfo os) (indent : Indent) (gpuTotalMib : ℕ) (hasGpu : Bool) : List UInt8 :=
  fgOpen (rowColor p gpuTotalMib) ++ padLeft p.pid 7 ++ bytes " " ++ f1Wide p.cpu 6 ++ bytes " " ++
    formatMem p.rssKib ++ (if hasGpu then gpuText p.gpu else []) ++ bytes " " ++
    formatAge p.ageSecs ++ bytes "  " ++ indent.put

theorem rowHead_spans {p : ProcInfo os} (h : Nominal p) (indent : Indent) (gpuTotalMib : ℕ)
    (hasGpu : Bool) : Spans (rowHead p indent gpuTotalMib hasGpu)
      (fixedWidth os hasGpu + indent.width) := by
  obtain ⟨hpid, hcpu, hmem, hage, hgpu⟩ := h
  have hspace : Spans (bytes " ") 1 := ⟨rfl, rfl⟩
  have hgap : Spans (bytes "  ") 2 := ⟨rfl, rfl⟩
  have hpidSpan : Spans (padLeft p.pid 7) 7 := by
    have hlen : (padLeft p.pid 7).length = 7 := by
      rw [padLeft_length]
      exact (field_eq_iff (by decide)).mpr hpid
    exact (padLeft_printable p.pid 7).spans_of hlen
  have hcpuSpan : Spans (f1Wide p.cpu 6) 6 := (f1Wide_printable p.cpu 6).spans_of hcpu
  have hmemSpan : Spans (formatMem p.rssKib) 6 := (formatMem_printable p.rssKib).spans_of hmem
  have hageSpan : Spans (formatAge p.ageSecs) 6 := (formatAge_printable p.ageSecs).spans_of hage
  have hgpuSpan : Spans (if hasGpu then gpuText p.gpu else [])
      (if hasGpu then GPU_DATA_COLS os * 7 else 0) := by
    split
    · exact gpuText_spans hgpu
    · exact spans_nil
  have hall := (((((((((fgOpen_spans (rowColor p gpuTotalMib)).append hpidSpan).append hspace).append
    hcpuSpan).append hspace).append hmemSpan).append hgpuSpan).append hspace).append hageSpan).append
    hgap |>.append (indent_spans indent)
  have hsum : fixedWidth os hasGpu + indent.width =
      0 + 7 + 1 + 6 + 1 + 6 + (if hasGpu then GPU_DATA_COLS os * 7 else 0) + 1 + 6 + 2 +
        indent.width := by
    rw [fixedWidth]
    omega
  rw [hsum]
  exact hall

theorem emitProcRow_columns (procs : Table os n) (tree : List (Indent × Fin n))
    (ti : Fin tree.length) (width gpuTotalMib : ℕ) (hasGpu : Bool)
    (h : Nominal (procs (tree.get ti).2)) :
    rowColumns (emitProcRow procs tree ti width gpuTotalMib hasGpu) =
      fixedWidth os hasGpu + (tree.get ti).1.width +
        columns .text (truncate (procs (tree.get ti).2).display
          (cmdWidth os (tree.get ti).1 width hasGpu)) := by
  obtain ⟨hcols, hscan⟩ := rowHead_spans h (tree.get ti).1 gpuTotalMib hasGpu
  have hrow : emitProcRow procs tree ti width gpuTotalMib hasGpu =
      rowHead (procs (tree.get ti).2) (tree.get ti).1 gpuTotalMib hasGpu ++
        truncate (procs (tree.get ti).2).display (cmdWidth os (tree.get ti).1 width hasGpu) ++
        FG_CLOSE_EOL := rfl
  have hne : FG_CLOSE_EOL ≠ [] := by decide
  rw [rowColumns, hrow, List.dropLast_append_of_ne_nil hne, columns_append, close_columns,
    columns_append, hcols, hscan, Nat.add_zero]

theorem cmdWidth_eq (indent : Indent) (width : ℕ) (hasGpu : Bool) :
    cmdWidth os indent width hasGpu = width - (fixedWidth os hasGpu + indent.width) := by
  cases hasGpu with
  | false => rfl
  | true =>
    unfold cmdWidth fixedWidth
    simp only [if_true]
    omega

theorem row_fits_iff (procs : Table os n) (tree : List (Indent × Fin n)) (ti : Fin tree.length)
    (width gpuTotalMib : ℕ) (hasGpu : Bool) (h : Nominal (procs (tree.get ti).2)) :
    rowColumns (emitProcRow procs tree ti width gpuTotalMib hasGpu) ≤ width ↔
      fixedWidth os hasGpu + 2 * min (tree.get ti).1.depth.toNat 32 ≤ width := by
  have hindent : (tree.get ti).1.width = 2 * min (tree.get ti).1.depth.toNat 32 := Nat.mul_comm _ _
  have hcmd := (columns_le .text _).trans (truncate_length (procs (tree.get ti).2).display
    (cmdWidth os (tree.get ti).1 width hasGpu))
  rw [emitProcRow_columns procs tree ti width gpuTotalMib hasGpu h, ← hindent]
  rw [cmdWidth_eq] at hcmd ⊢
  omega

theorem f1Wide_length {x : ℚ} (h : ⌊x * 10 + 1 / 2⌋ < 100000) : (f1Wide x 6).length = 6 := by
  have ht : min ⌊x * 10 + 1 / 2⌋.toNat (2 ^ 64 - 1) < 100000 := by omega
  unfold f1Wide
  generalize min ⌊x * 10 + 1 / 2⌋.toNat (2 ^ 64 - 1) = t at ht
  dsimp only
  have hwhole : (t / 10).toUInt32.toNat = t / 10 := UInt32.toNat_ofNat_of_lt' (by
    rw [UInt32.size]
    omega)
  have hfrac : (t % 10).toUInt32.toNat = t % 10 := UInt32.toNat_ofNat_of_lt' (by
    rw [UInt32.size]
    omega)
  have hfirst : max 4 (digitCount (t / 10)) = 4 := (field_eq_iff (by decide)).mpr (by omega)
  have hlast : (u32d (t % 10).toUInt32).length = 1 := digit_length (by omega)
  have hpoint : (bytes ".").length = 1 := rfl
  rw [List.length_append, List.length_append, padRight_length, hwhole, hlast, hpoint, hfirst]

def bashRow (display : List UInt8) : ProcInfo .linux := procInfo 4242 1 0 true display

theorem bashRow_nominal (display : List UInt8) : Nominal (bashRow display) := by
  have hpid : (4242 : UInt32).toNat < 10 ^ 7 := by decide
  have hage : Word.payload (ProcInfo.pack 100 true) = 100 := by decide
  have hcpu : (f1Wide 0 6).length = 6 := f1Wide_length (by norm_num)
  refine ⟨hpid, hcpu, (formatMem_length 1024).mpr (by decide), ?_, fun _ hgpu => by cases hgpu⟩
  change (formatAge (Word.payload (ProcInfo.pack 100 true))).length = 6
  rw [hage]
  exact (formatAge_length 100).mpr (by decide)

def nested : List (Indent × Fin 1) := [(⟨6, 0⟩, 0)]

theorem row_fits_iff_nested :
    rowColumns (emitProcRow (fun _ => bashRow (bytes "bash")) nested ⟨0, Nat.one_pos⟩ 46 0 false) ≤ 46 ↔
      fixedWidth .linux false + 2 * min 6 32 ≤ 46 :=
  row_fits_iff (fun _ => bashRow (bytes "bash")) nested ⟨0, Nat.one_pos⟩ 46 0 false (bashRow_nominal _)

theorem row_overflows : ¬ ∀ (os : Os) (n : ℕ) (procs : Table os n) (tree : List (Indent × Fin n))
    (ti : Fin tree.length) (width gpuTotalMib : ℕ) (hasGpu : Bool),
    Nominal (procs (tree.get ti).2) → fixedWidth os hasGpu ≤ width →
      rowColumns (emitProcRow procs tree ti width gpuTotalMib hasGpu) ≤ width := by
  intro h
  have hrow := h .linux 1 (fun _ => bashRow (bytes "bash")) nested ⟨0, Nat.one_pos⟩ 40 0 false
    (bashRow_nominal _) (by decide)
  rw [emitProcRow_columns _ _ _ _ _ _ (bashRow_nominal _)] at hrow
  have hwide : fixedWidth .linux false + (nested.get ⟨0, Nat.one_pos⟩).1.width = 42 := rfl
  omega

end Ltop
