import Mathlib
import Ltop.EmitRow
import Ltop.Nvidia
import Ltop.Procfs

namespace Ltop

open Numeral

variable {os : Os} {n : ℕ}

def EOL : List UInt8 := 27 :: bytes "[K" ++ [10]

def FG_CLOSE : List UInt8 := 27 :: bytes "[0m"

def CURSOR_HOME : List UInt8 := 27 :: bytes "[H"

def CLEAR_TO_END : List UInt8 := 27 :: bytes "[J"

def BOLD : List UInt8 := 27 :: bytes "[1m"

def GPU_HEADER : Os → List UInt8
  | .linux => bytes "   GPU%   GMEM"
  | .macos => bytes "   GPU%"

def line (content : List UInt8) : List UInt8 := content ++ EOL

def fg (c : Color) (content : List UInt8) : List UInt8 := fgOpen c ++ content ++ FG_CLOSE

def repeatChar (c : Char) (n : ℕ) : List UInt8 :=
  (List.replicate n (String.utf8EncodeChar c)).flatten

def fracColor (redFrac blueFrac : ℚ) : Color :=
  (⌊min redFrac 1 * 255⌋₊, 0, ⌊min blueFrac 1 * 255⌋₊)

structure LoadAvg where
  text : List UInt8
  frac : ℚ

structure MemInfo where
  usedBytes : UInt64
  totalBytes : UInt64

structure GpuTotals where
  nGpus : UInt32
  totalUtil : UInt32
  totalUsedMib : UInt64
  totalMib : UInt64

def thirdSpace (spaces i : ℕ) : List UInt8 → ℕ
  | [] => 0
  | b :: text =>
    if b = 32 then if spaces + 1 = 3 then i else thirdSpace (spaces + 1) (i + 1) text
    else thirdSpace spaces (i + 1) text

def loadAvg (content : Option (List UInt8)) (numCpus : ℚ) : LoadAvg :=
  match content with
  | none => ⟨[], 0⟩
  | some text =>
    let stop := thirdSpace 0 0 text
    if stop = 0 ∨ stop > 24 then ⟨[], 0⟩
    else
      let hundredths : UInt64 := ((text.take stop).takeWhile (· ≠ 32)).foldl
        (fun n b => if b - 48 < 10 then n * 10 + (b - 48).toUInt64 else n) 0
      ⟨text.take stop, min ((hundredths.toNat : ℚ) / 100 / numCpus) 1⟩

def memInfo (content : Option (List UInt8)) : MemInfo :=
  match content with
  | none => ⟨0, 0⟩
  | some content =>
    let nth : List UInt8 → ℕ → UInt64 := fun line n =>
      (((splitAsciiWhitespace line)[n]?).bind parseU64Ascii).getD 0
    let kib := (content.splitOn 10).foldl (fun (s : UInt64 × UInt64) line =>
      if (bytes "MemTotal:").isPrefixOf line then (nth line 1, s.2)
      else if (bytes "MemAvailable:").isPrefixOf line then (s.1, nth line 1)
      else s) (0, 0)
    ⟨(if kib.1 ≤ kib.2 then 0 else kib.1 - kib.2) * 1024, kib.1 * 1024⟩

def LoadAvg.put (la : LoadAvg) : List UInt8 := if la.text = [] then bytes "?" else la.text

namespace MemInfo

variable (mi : MemInfo)

def frac : ℚ :=
  if mi.totalBytes > 0 then (mi.usedBytes.toNat : ℚ) / mi.totalBytes.toNat else 0

def put : List UInt8 :=
  if mi.totalBytes = 0 then bytes "?"
  else f1Wide ((mi.usedBytes.toNat : ℚ) / 2 ^ 30) 0 ++ bytes "G / " ++
    f1Wide ((mi.totalBytes.toNat : ℚ) / 2 ^ 30) 0 ++ bytes "G used"

end MemInfo

namespace GpuTotals

variable (gpu : GpuTotals)

def memFrac : ℚ :=
  if gpu.totalMib > 0 then (gpu.totalUsedMib.toNat : ℚ) / gpu.totalMib.toNat else 0

def utilFrac : ℚ := (gpu.totalUtil.toNat : ℚ) / gpu.nGpus.toNat / 100

def put (os : Os) : List UInt8 :=
  if gpu.nGpus = 0 then bytes "?"
  else u32d (gpu.totalUtil / gpu.nGpus) ++ bytes "%  " ++
    f1Wide ((gpu.totalUsedMib.toNat : ℚ) / 1024) 0 ++
    match os with
    | .linux => bytes "G / " ++ f1Wide ((gpu.totalMib.toNat : ℚ) / 1024) 0 ++ bytes "G"
    | .macos => bytes "G active"

end GpuTotals

def emitElisionRow (os : Os) (more : UInt32) (hasGpu : Bool) (color : Color) : List UInt8 :=
  let blanks := 30 + if hasGpu then GPU_DATA_COLS os * 7 else 0
  fgOpen color ++ repeatChar ' ' blanks ++ bytes "└─" ++ u32d more ++ bytes " more..." ++
    FG_CLOSE_EOL

def termSize (reply : Option (UInt16 × UInt16)) : ℕ × ℕ :=
  match reply with
  | some (row, col) =>
    (if col > 0 then col.toNat else 80, if row > 0 then row.toNat else 24)
  | none => (80, 24)

structure Status where
  load : LoadAvg
  mem : MemInfo
  gpu : GpuTotals
  hasGpu : Bool

def Status.title (st : Status) (os : Os) : List UInt8 :=
  let (lr, _, lb) := fracColor 0 st.load.frac
  let (mr, _, mb) := fracColor st.mem.frac 0
  let (gr, _, gb) := fracColor st.gpu.memFrac st.gpu.utilFrac
  bytes "🌳 " ++ fg (0, 0, 255) (bytes "load:") ++ bytes " " ++ fg (lr, 0, lb) st.load.put ++
    bytes "  " ++ fg (255, 0, 0) (bytes "mem:") ++ bytes " " ++ fg (mr, 0, mb) st.mem.put ++
    if st.hasGpu then
      bytes "  " ++ fg (0, 0, 255) (bytes "gpu:") ++ bytes " " ++ fg (gr, 0, gb) (st.gpu.put os)
    else []

def Status.columns (st : Status) (os : Os) : List UInt8 :=
  BOLD ++ bytes "PID       CPU%    RSS" ++ (if st.hasGpu then GPU_HEADER os else []) ++
    bytes "    AGE  COMMAND"

def putRow (st : Status) (procs : Table os n) (tree : List (Indent × Fin n)) (width : ℕ) :
    Row → Option (List UInt8)
  | .proc ti =>
    if h : ti < tree.length then
      some (emitProcRow procs tree ⟨ti, h⟩ width st.gpu.totalMib.toNat st.hasGpu)
    else none
  | .elision more color => some (emitElisionRow os more st.hasGpu color)

def putFrame (st : Status) (procs : List (ProcInfo os)) (width : ℕ) (body : List (List UInt8)) :
    List UInt8 :=
  let out := CURSOR_HOME ++ st.title os ++ EOL ++ line (repeatChar '─' width) ++
    st.columns os ++ FG_CLOSE_EOL ++ line (repeatChar '─' width) ++
    (if procs = [] then line (bytes "(no matching processes)") else []) ++ body.flatten
  out.dropLast ++ CLEAR_TO_END

def renderFrame (st : Status) (procs : List (ProcInfo os)) (width height room : ℕ) :
    Option (List UInt8) := do
  let maxRows := height - 4
  let tree ← treeLayout procs
  let rows := renderTree procs.get tree (rootPositions tree) maxRows st.gpu.totalMib.toNat
  let frame := putFrame st procs width (← rows.mapM (putRow st procs.get tree width))
  -- the span grows byte by byte: bump panics on the first one past the arena's end
  if frame.length ≤ room then some frame else none

variable {s t : List UInt8}

theorem plain_lf (h : Plain s) : 10 ∉ s := fun hin => absurd (h 10 hin) (by decide)

theorem lf_filter : 10 ∈ s ↔ 10 ∈ s.filter isControl := by
  rw [List.mem_filter]
  exact (and_iff_left (by decide)).symm

theorem text_lf (text : String) (h : (bytes text).filter isControl = []) : 10 ∉ bytes text :=
  plain_lf (text_plain text h)

theorem fgOpen_lf (c : Color) : 10 ∉ fgOpen c := by
  rw [lf_filter, fgOpen_controls]
  decide

theorem fg_lf {c : Color} (h : 10 ∉ s) : 10 ∉ fg c s := by
  have hclose : 10 ∉ FG_CLOSE := by decide
  simp only [fg, List.mem_append, not_or]
  exact ⟨⟨fgOpen_lf c, h⟩, hclose⟩

theorem repeatChar_lf {c : Char} (h : 10 ∉ String.utf8EncodeChar c) : 10 ∉ repeatChar c n := by
  intro hin
  obtain ⟨l, hl, hmem⟩ := List.mem_flatten.mp hin
  exact h (List.eq_of_mem_replicate hl ▸ hmem)

theorem f1Wide_lf (x : ℚ) (w : ℕ) : 10 ∉ f1Wide x w := plain_lf (f1Wide_printable x w).plain

theorem u32d_lf (k : UInt32) : 10 ∉ u32d k := plain_lf (u32d_printable k).plain

theorem MemInfo.put_lf (mi : MemInfo) : 10 ∉ mi.put := by
  unfold MemInfo.put
  split
  · exact text_lf "?" (by decide)
  · simp only [List.mem_append, not_or]
    exact ⟨⟨⟨f1Wide_lf _ 0, text_lf "G / " (by decide)⟩, f1Wide_lf _ 0⟩,
      text_lf "G used" (by decide)⟩

theorem GpuTotals.put_lf (gpu : GpuTotals) (os : Os) : 10 ∉ gpu.put os := by
  unfold GpuTotals.put
  split
  · exact text_lf "?" (by decide)
  · simp only [List.mem_append, not_or]
    refine ⟨⟨⟨u32d_lf _, text_lf "%  " (by decide)⟩, f1Wide_lf _ 0⟩, ?_⟩
    cases os with
    | linux =>
      simp only [List.mem_append, not_or]
      exact ⟨⟨text_lf "G / " (by decide), f1Wide_lf _ 0⟩, text_lf "G" (by decide)⟩
    | macos => exact text_lf "G active" (by decide)

theorem LoadAvg.put_lf {la : LoadAvg} (h : 10 ∉ la.text) : 10 ∉ la.put := by
  unfold LoadAvg.put
  split
  · exact text_lf "?" (by decide)
  · exact h

theorem Status.title_lf {st : Status} (h : 10 ∉ st.load.text) (os : Os) : 10 ∉ st.title os := by
  have htree : 10 ∉ bytes "🌳 " := text_lf _ (by decide)
  have hone : 10 ∉ bytes " " := text_lf _ (by decide)
  have htwo : 10 ∉ bytes "  " := text_lf _ (by decide)
  have hlabel : ∀ c, 10 ∉ fg c (bytes "load:") ∧ 10 ∉ fg c (bytes "mem:") ∧
      10 ∉ fg c (bytes "gpu:") := fun c =>
    ⟨fg_lf (text_lf _ (by decide)), fg_lf (text_lf _ (by decide)), fg_lf (text_lf _ (by decide))⟩
  have hgpu : 10 ∉ if st.hasGpu then bytes "  " ++ fg (0, 0, 255) (bytes "gpu:") ++ bytes " " ++
      fg ((fracColor st.gpu.memFrac st.gpu.utilFrac).1, 0,
        (fracColor st.gpu.memFrac st.gpu.utilFrac).2.2) (st.gpu.put os) else [] := by
    split
    · simp only [List.mem_append, not_or]
      exact ⟨⟨⟨htwo, (hlabel _).2.2⟩, hone⟩, fg_lf (st.gpu.put_lf os)⟩
    · exact List.not_mem_nil
  unfold Status.title
  simp only [List.mem_append, not_or]
  exact ⟨⟨⟨⟨⟨⟨⟨⟨htree, (hlabel _).1⟩, hone⟩, fg_lf (LoadAvg.put_lf h)⟩, htwo⟩, (hlabel _).2.1⟩,
    hone⟩, fg_lf st.mem.put_lf⟩, hgpu⟩

theorem Status.columns_lf (st : Status) (os : Os) : 10 ∉ st.columns os := by
  cases hgpu : st.hasGpu <;> cases os <;> simp only [Status.columns, hgpu] <;> decide

theorem truncate_lf (max : ℕ) (h : 10 ∉ s) : 10 ∉ truncate s max := by
  obtain ⟨t, u, hpre, heq, hu, -⟩ := truncate_shows s max
  rw [heq, List.mem_append, not_or, lf_filter, putSlice_controls, ← lf_filter]
  exact ⟨fun hin => h (hpre.subset hin), plain_lf hu⟩

theorem close_line : FG_CLOSE_EOL = FG_CLOSE ++ EOL := by decide

theorem emitProcRow_line {procs : Table os n} {tree : List (Indent × Fin n)} {ti : Fin tree.length}
    (h : 10 ∉ (procs (tree.get ti).2).display) (width gpuTotalMib : ℕ) (hasGpu : Bool) :
    ∃ s, emitProcRow procs tree ti width gpuTotalMib hasGpu = line s ∧ 10 ∉ s := by
  have hcontrols := emitProcRow_controls procs tree ti width gpuTotalMib hasGpu
  have hshown := truncate_lf (cmdWidth os (tree.get ti).1 width hasGpu) h
  unfold emitProcRow at hcontrols ⊢
  dsimp only at hcontrols ⊢
  rw [close_line, ← List.append_assoc] at hcontrols ⊢
  refine ⟨_, rfl, ?_⟩
  rw [lf_filter] at hshown ⊢
  intro hin
  rw [List.filter_append] at hcontrols
  have hcount := congrArg (List.count 10) hcontrols
  have hpos := List.count_pos_iff.mpr hin
  have hzero := List.count_eq_zero.mpr hshown
  have heol : (EOL.filter isControl).count 10 = 1 := by decide
  simp only [List.count_append, heol, hzero] at hcount
  have hrest : ([27] : List UInt8).count 10 = 0 ∧ ([27, 27, 10] : List UInt8).count 10 = 1 := by
    decide
  omega

theorem emitElisionRow_line (os : Os) (more : UInt32) (hasGpu : Bool) (color : Color) :
    ∃ s, emitElisionRow os more hasGpu color = line s ∧ 10 ∉ s := by
  unfold emitElisionRow
  rw [close_line, ← List.append_assoc]
  refine ⟨_, rfl, ?_⟩
  have hclose : 10 ∉ FG_CLOSE := by decide
  simp only [List.mem_append, not_or]
  exact ⟨⟨⟨⟨⟨fgOpen_lf color, repeatChar_lf (by decide)⟩, text_lf "└─" (by decide)⟩, u32d_lf more⟩,
    text_lf " more..." (by decide)⟩, hclose⟩

theorem renderTree_proc {order : TreeOrder n} {procs : Table os n} {maxRows gpuTotalMib ti : ℕ}
    (h : Row.proc ti ∈ renderTree procs order.entries order.roots maxRows gpuTotalMib) :
    ti < order.entries.length := by
  rw [TreeOrder.renderTree_groups, List.mem_flatMap] at h
  obtain ⟨k, hk, hrow⟩ := h
  have hk : k < order.roots.length := (List.mem_range.mp hk).trans_le (Nat.min_le_left _ _)
  have hgroup : ti ∈ order.cut k :: order.descendants k := by
    rcases List.mem_append.mp hrow with hrow | hrow
    · obtain ⟨j, hj, hji⟩ := List.mem_map.mp hrow
      obtain rfl := Row.proc.inj hji
      rcases List.mem_cons.mp hj with rfl | hj
      · exact List.mem_cons_self
      · exact List.mem_cons_of_mem _ (List.mem_of_mem_take hj)
    · cases he : order.elided procs gpuTotalMib maxRows k with
      | none => simp [he] at hrow
      | some e => simp [he] at hrow
  have hflat := TreeOrder.groups_flat (order.roots.length.le_refl)
  rw [TreeOrder.cut_end] at hflat
  refine List.mem_range.mp (hflat ▸ List.mem_flatMap.mpr ⟨k, List.mem_range.mpr hk, hgroup⟩)

theorem mapM_lines {α : Type} {f : α → Option (List UInt8)} {rows : List α}
    (h : ∀ r ∈ rows, ∃ s, f r = some (line s) ∧ 10 ∉ s) :
    ∃ ss : List (List UInt8), rows.mapM f = some (ss.map line) ∧ ss.length = rows.length ∧
      ∀ s ∈ ss, 10 ∉ s := by
  induction rows with
  | nil => exact ⟨[], rfl, rfl, by simp⟩
  | cons r rows ih =>
    obtain ⟨⟨s, hs, hlf⟩, hrows⟩ := List.forall_mem_cons.mp h
    obtain ⟨ss, hss, hlen, hall⟩ := ih hrows
    refine ⟨s :: ss, ?_, congrArg Nat.succ hlen, List.forall_mem_cons.mpr ⟨hlf, hall⟩⟩
    simp [hs, hss]

def erased (s : List UInt8) : List UInt8 := s ++ 27 :: bytes "[K"

theorem line_eq (s : List UInt8) : line s = erased s ++ [10] := by
  simp [line, erased, EOL]

theorem erased_lf (h : 10 ∉ s) : 10 ∉ erased s := by
  have heol : 10 ∉ 27 :: bytes "[K" := by decide
  simp only [erased, List.mem_append, not_or]
  exact ⟨h, heol⟩

theorem flatten_lines (ss : List (List UInt8)) :
    (ss.map line).flatten.dropLast = List.intercalate [10] (ss.map erased) := by
  induction ss with
  | nil => rfl
  | cons s ss ih =>
    cases ss with
    | nil => simp [line_eq, List.intercalate]
    | cons u ss =>
      have hne : ((u :: ss).map line).flatten ≠ [] := by simp [line_eq]
      rw [List.map_cons, List.flatten_cons, List.dropLast_append_of_ne_nil hne, ih, line_eq]
      simp [List.intercalate]

def frameHead (st : Status) (procs : List (ProcInfo os)) (width : ℕ) : List (List UInt8) :=
  [CURSOR_HOME ++ st.title os, repeatChar '─' width, st.columns os ++ FG_CLOSE,
    repeatChar '─' width] ++ if procs = [] then [bytes "(no matching processes)"] else []

theorem frameHead_lf {st : Status} (h : 10 ∉ st.load.text) (procs : List (ProcInfo os))
    (width : ℕ) : ∀ s ∈ frameHead st procs width, 10 ∉ s := by
  have hrule : 10 ∉ repeatChar '─' width := repeatChar_lf (by decide)
  have hhome : 10 ∉ CURSOR_HOME := by decide
  have hclose : 10 ∉ FG_CLOSE := by decide
  have htitle : 10 ∉ CURSOR_HOME ++ st.title os := by
    simp only [List.mem_append, not_or]
    exact ⟨hhome, Status.title_lf h os⟩
  have hcolumns : 10 ∉ st.columns os ++ FG_CLOSE := by
    simp only [List.mem_append, not_or]
    exact ⟨st.columns_lf os, hclose⟩
  refine List.forall_mem_append.mpr ⟨by simp [htitle, hrule, hcolumns], ?_⟩
  split
  · exact fun s hs => List.mem_singleton.mp hs ▸ text_lf _ (by decide)
  · exact fun s hs => absurd hs List.not_mem_nil

theorem frameHead_bytes (st : Status) (procs : List (ProcInfo os)) (width : ℕ) :
    ((frameHead st procs width).map line).flatten =
      CURSOR_HOME ++ st.title os ++ EOL ++ line (repeatChar '─' width) ++
        st.columns os ++ FG_CLOSE_EOL ++ line (repeatChar '─' width) ++
        if procs = [] then line (bytes "(no matching processes)") else [] := by
  have hhead : (([CURSOR_HOME ++ st.title os, repeatChar '─' width, st.columns os ++ FG_CLOSE,
      repeatChar '─' width] : List (List UInt8)).map line).flatten =
      CURSOR_HOME ++ st.title os ++ EOL ++ line (repeatChar '─' width) ++
        st.columns os ++ FG_CLOSE_EOL ++ line (repeatChar '─' width) := by
    simp only [List.map_cons, List.map_nil, List.flatten_cons, List.flatten_nil, line, close_line,
      List.append_assoc, List.append_nil]
  rw [frameHead, List.map_append, List.flatten_append, hhead]
  split
  · rw [List.map_singleton, List.flatten_singleton]
  · rfl

theorem putFrame_eq (st : Status) (procs : List (ProcInfo os)) (width : ℕ)
    (ss : List (List UInt8)) : putFrame st procs width (ss.map line) =
      List.intercalate [10] ((frameHead st procs width ++ ss).map erased) ++ CLEAR_TO_END := by
  rw [← flatten_lines, List.map_append, List.flatten_append, frameHead_bytes]
  rfl

theorem renderFrame_eq {st : Status} {procs : List (ProcInfo os)} {width height : ℕ}
    {tree : List (Indent × Fin procs.length)} {body : List (List UInt8)}
    (htree : treeLayout procs = some tree)
    (hbody : (renderTree procs.get tree (rootPositions tree) (height - 4)
      st.gpu.totalMib.toNat).mapM (putRow st procs.get tree width) = some body) (room : ℕ) :
    renderFrame st procs width height room =
      if (putFrame st procs width body).length ≤ room then some (putFrame st procs width body)
      else none := by
  rw [renderFrame, htree]
  simp only [Option.bind_eq_bind, Option.bind_some, hbody]

theorem frame_rows (order : TreeOrder n) (st : Status) (procs : Table os n) (width maxRows : ℕ)
    (hshown : ∀ i, 10 ∉ (procs i).display) :
    ∃ ss : List (List UInt8), (renderTree procs order.entries order.roots maxRows
        st.gpu.totalMib.toNat).mapM (putRow st procs order.entries width) = some (ss.map line) ∧
      ss.length ≤ maxRows ∧ (n = 0 → ss = []) ∧ ∀ s ∈ ss, 10 ∉ s := by
  have hrows : ∀ row ∈ renderTree procs order.entries order.roots maxRows st.gpu.totalMib.toNat,
      ∃ s, putRow st procs order.entries width row = some (line s) ∧ 10 ∉ s := by
    intro row hrow
    cases row with
    | proc ti =>
      have hti := renderTree_proc hrow
      have hlf := hshown (order.entries.get ⟨ti, hti⟩).2
      obtain ⟨s, hs, hlf⟩ := emitProcRow_line hlf width st.gpu.totalMib.toNat st.hasGpu
      exact ⟨s, by rw [putRow, dif_pos hti, hs], hlf⟩
    | elision more color =>
      obtain ⟨s, hs, hlf⟩ := emitElisionRow_line os more st.hasGpu color
      exact ⟨s, congrArg some hs, hlf⟩
  obtain ⟨ss, hbody, hlen, hss⟩ := mapM_lines hrows
  refine ⟨ss, hbody, hlen ▸ TreeOrder.renderTree_length procs _, ?_, hss⟩
  rintro rfl
  have hentries : order.entries = [] := List.eq_nil_iff_forall_not_mem.mpr fun e _ => e.2.elim0
  have hroots : order.roots = [] := by rw [TreeOrder.roots, hentries]; rfl
  have hnone : renderTree procs order.entries order.roots maxRows st.gpu.totalMib.toNat = [] := by
    rw [TreeOrder.renderTree_groups, hroots]
    simp
  exact List.length_eq_zero_iff.mp (hlen.trans (congrArg List.length hnone))

theorem mapM_total {α β : Type} {f : α → Option β} {rows : List α}
    (h : ∀ r ∈ rows, ∃ out, f r = some out) : ∃ outs, rows.mapM f = some outs := by
  induction rows with
  | nil => exact ⟨[], rfl⟩
  | cons r rows ih =>
    obtain ⟨⟨out, hout⟩, hrows⟩ := List.forall_mem_cons.mp h
    obtain ⟨outs, houts⟩ := ih hrows
    exact ⟨out :: outs, by simp [hout, houts]⟩

theorem renderFrame_total (st : Status) {procs : List (ProcInfo os)} (width height : ℕ)
    (hfit : procs.length < 2 ^ 32) : ∃ frame, ∀ room, renderFrame st procs width height room =
      if frame.length ≤ room then some frame else none := by
  obtain ⟨tree, htree, -⟩ := treeLayout_total procs
  obtain ⟨order, rfl⟩ := treeLayout_order hfit htree
  have hrow : ∀ row ∈ renderTree procs.get order.entries order.roots (height - 4)
      st.gpu.totalMib.toNat, ∃ out, putRow st procs.get order.entries width row = some out := by
    intro row hrow
    cases row with
    | proc ti => exact ⟨_, by rw [putRow, dif_pos (renderTree_proc hrow)]⟩
    | elision more color => exact ⟨_, rfl⟩
  obtain ⟨body, hbody⟩ := mapM_total hrow
  exact ⟨putFrame st procs width body, renderFrame_eq htree hbody⟩

def idleStatus : Status :=
  ⟨⟨bytes "0.42 0.36 0.30", 1 / 100⟩, ⟨2 ^ 32, 2 ^ 34⟩, ⟨0, 0, 0, 0⟩, false⟩

def soleRow : List (ProcInfo .linux) := [procInfo 4242 1 3 true (bytes "bash -l")]

end Ltop
