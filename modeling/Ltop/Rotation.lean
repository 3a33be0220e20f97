import Mathlib
import Ltop.Contract
import Ltop.Stacked

namespace Ltop.Arena

structure Span where
  layout : Layout
  offset : ℕ
  len : ℕ
deriving DecidableEq

def Span.bytes (s : Span) : ℕ := s.len * s.layout.size

def Span.finish (s : Span) : ℕ := s.offset + s.bytes

structure Rotating where
  offset : ℕ
  mem : Mem
  span1 : Span
  span2 : Span

structure Closure where
  ops : List Op
  nested : Nested ops
  sized : ∀ op ∈ ops, op.Sized
  new1 : ℕ
  new2 : ℕ
  later : new1 < new2

structure Round where
  built : State
  new1 : Handle
  new2 : Handle
  next : Rotating

namespace Rotating

variable (r : Rotating)

def entered : State := ⟨r.offset, r.mem, [⟨r.offset, none, [], none⟩], 0⟩

def settle (t : State) (new1 new2 : Handle) : Round :=
  let old1Start := r.span1.offset
  let new1Bytes := new1.len * new1.layout.size
  let new2Bytes := new2.len * new2.layout.size
  let mem := if old1Start ≠ new1.offset ∧ new1Bytes > 0 then
      Memory.copyDown t.mem new1.offset old1Start new1Bytes
    else t.mem
  let afterNew1 := old1Start + new1Bytes
  let new2Dst := alignUp afterNew1 new2.layout.align
  let mem := if new2Dst ≠ new2.offset ∧ new2Bytes > 0 then
      Memory.copyDown mem new2.offset new2Dst new2Bytes
    else mem
  ⟨t, new1, new2, ⟨new2Dst + new2Bytes, mem, ⟨new1.layout, old1Start, new1.len⟩,
    ⟨new2.layout, new2Dst, new2.len⟩⟩⟩

def replace2 (c : Closure) : Option Round :=
  let old2End := r.span2.finish
  if r.offset ≤ old2End ∧ old2End - r.offset < max r.span2.layout.align 1 then
    (r.entered.run c.ops).bind fun t =>
      match t.frames with
      | [sub] => do
        let new1 ← sub.live.find? fun h => h.id = c.new1
        let new2 ← sub.live.find? fun h => h.id = c.new2
        if new1.kind = .span ∧ new1.layout = r.span1.layout ∧ new2.kind = .span ∧
            new2.layout = r.span2.layout then
          some (r.settle t new1 new2)
        else none
      | _ => none
  else none

def rotate (r : Rotating) : List Closure → Option Rotating
  | [] => some r
  | c :: cs => (r.replace2 c).bind fun round => rotate round.next cs

structure Ok (r : Rotating) : Prop where
  bounded : r.offset ≤ SIZE
  aligned1 : r.span1.layout.align ∣ r.span1.offset
  aligned2 : r.span2.layout.align ∣ r.span2.offset
  inside1 : r.span1.finish ≤ SIZE
  inside2 : r.span2.finish ≤ SIZE

structure Asserted (r : Rotating) : Prop where
  precedes : r.span1.finish ≤ r.span2.offset
  top : r.offset ≤ r.span2.finish
  slack : r.span2.finish - r.offset < r.span2.layout.align

def Roomy (r : Rotating) : Prop :=
  0 < r.span1.layout.size ∧
    alignUp r.offset r.span1.layout.align + r.span1.layout.size ≤ SIZE

def Clear (r : Rotating) : Prop :=
  r.Roomy → r.span1.offset ≤ alignUp r.offset r.span1.layout.align

instance : Decidable r.Clear := by
  unfold Clear Roomy
  infer_instance

end Rotating

open Rotating

structure Rotates (start : Rotating) (r : Rotating) (round : Round) : Prop where
  next : round.next.Asserted
  shape1 : round.next.span1.layout = round.new1.layout ∧ round.next.span1.len = round.new1.len
  shape2 : round.next.span2.layout = round.new2.layout ∧ round.next.span2.len = round.new2.len
  held1 : ∀ i < round.next.span1.bytes,
    round.next.mem (round.next.span1.offset + i) = round.built.mem (round.new1.offset + i)
  held2 : ∀ i < round.next.span2.bytes,
    round.next.mem (round.next.span2.offset + i) = round.built.mem (round.new2.offset + i)
  fixed : round.next.span1.offset = start.span1.offset
  offset : round.next.offset =
    alignUp (start.span1.offset + round.next.span1.bytes) r.span2.layout.align +
      round.next.span2.bytes
  down1 : 0 < round.next.span1.bytes → r.span1.offset ≤ round.new1.offset
  down2 : 0 < round.next.span2.bytes → round.next.span2.offset ≤ round.new2.offset

def Rotations (start : Rotating) : Prop :=
  ∀ cs c r round, start.rotate cs = some r → r.replace2 c = some round → Rotates start r round

variable {r r' start : Rotating} {c : Closure} {round : Round}

theorem entered_inv (hr : r.Ok) : Inv r.entered := by
  have hframe : Frame.Ok ⟨r.offset, none, [], none⟩ r.offset :=
    ⟨le_rfl, fun _ hh => absurd hh List.not_mem_nil, .nil, fun _ hk => by cases hk⟩
  exact ⟨hr.bounded, ⟨hframe, trivial⟩, .nil, fun _ hh => absurd hh List.not_mem_nil⟩

theorem entered_stacked (r : Rotating) : Stacked r.entered := List.Pairwise.nil

structure Built (r : Rotating) (t : State) (new1 new2 : Handle) : Prop where
  full1 : new1.len = new1.capacity
  full2 : new2.len = new2.capacity
  layout1 : new1.layout = r.span1.layout
  layout2 : new2.layout = r.span2.layout
  aligned1 : new1.layout.align ∣ new1.offset
  aligned2 : new2.layout.align ∣ new2.offset
  inside1 : new1.bytes ⊆ Finset.Ico r.offset t.offset
  inside2 : new2.bytes ⊆ Finset.Ico r.offset t.offset
  order : new2.offset < new2.extent → new1.bytes ⊆ Finset.Ico 0 new2.offset
  bounded : t.offset ≤ SIZE

theorem replace2_some (hr : r.Ok) (h : r.replace2 c = some round) :
    ∃ t new1 new2, Built r t new1 new2 ∧ round = r.settle t new1 new2 := by
  unfold Rotating.replace2 at h
  obtain ⟨-, h⟩ := Option.ite_none_right_eq_some.mp h
  obtain ⟨t, hrun, h⟩ := Option.bind_eq_some_iff.mp h
  have hinv := run_inv (entered_inv hr) c.sized hrun
  have houtline := nested_outline c.nested (entered_inv hr) c.sized hrun
  have hstacked := run_stacked (entered_stacked r) (entered_inv hr) c.sized hrun
  split at h
  · rename_i sub hframes
    simp only [Option.bind_eq_bind, Option.bind_eq_some_iff] at h
    obtain ⟨new1, hfind1, new2, hfind2, h⟩ := h
    obtain ⟨⟨hkind1, hlayout1, hkind2, hlayout2⟩, h⟩ := Option.ite_none_right_eq_some.mp h
    rw [outline_top hframes] at houtline
    have hshape := (List.cons.inj houtline).1
    have hsaved : sub.saved = r.offset := congrArg Prod.fst hshape
    have hlock : sub.lock = none := Option.map_eq_none_iff.mp (congrArg (·.2.2) hshape)
    have hlive1 := List.mem_of_find?_eq_some hfind1
    have hlive2 := List.mem_of_find?_eq_some hfind2
    have hfit : ∀ k ∈ sub.live, Fits r.offset t.offset k := fun k hk => by
      have hfit := (hinv.top hframes).live k hk
      rwa [hsaved, ceiling_of_unlocked hlock] at hfit
    have hin : ∀ k ∈ sub.live, k ∈ t.handles := fun k hk => by
      rw [handles_unlocked hframes hlock]
      exact List.mem_append_left _ hk
    have hid1 : new1.id = c.new1 := by simpa using List.find?_some hfind1
    have hid2 : new2.id = c.new2 := by simpa using List.find?_some hfind2
    have habove := hstacked.order (hin _ hlive2) (hin _ hlive1) (hid1 ▸ hid2 ▸ c.later)
    have hfit1 := hfit new1 hlive1
    have hfit2 := hfit new2 hlive2
    exact ⟨t, new1, new2, ⟨hfit1.ok.full (.inl hkind1), hfit2.ok.full (.inl hkind2), hlayout1,
      hlayout2, hfit1.ok.aligned, hfit2.ok.aligned, hfit1.inside, hfit2.inside, habove.higher,
      hinv.bounded⟩, (Option.some.inj h).symm⟩
  · cases h

theorem Built.span1 {t : State} {new1 new2 : Handle} (hb : Built r t new1 new2)
    (hpos : 0 < new1.len * new1.layout.size) :
    r.offset ≤ new1.offset ∧ new1.offset + new1.len * new1.layout.size ≤ t.offset := by
  rw [hb.full1] at hpos ⊢
  exact (Finset.Ico_subset_Ico_iff (Nat.lt_add_of_pos_right hpos)).mp hb.inside1

theorem Built.span2 {t : State} {new1 new2 : Handle} (hb : Built r t new1 new2)
    (hpos : 0 < new2.len * new2.layout.size) :
    r.offset ≤ new2.offset ∧ new2.offset + new2.len * new2.layout.size ≤ t.offset := by
  rw [hb.full2] at hpos ⊢
  exact (Finset.Ico_subset_Ico_iff (Nat.lt_add_of_pos_right hpos)).mp hb.inside2

theorem Built.apart {t : State} {new1 new2 : Handle} (hb : Built r t new1 new2)
    (hpos1 : 0 < new1.len * new1.layout.size) (hpos2 : 0 < new2.len * new2.layout.size) :
    new1.offset + new1.len * new1.layout.size ≤ new2.offset := by
  rw [hb.full1] at hpos1 ⊢
  rw [hb.full2] at hpos2
  have hin := hb.order (Nat.lt_add_of_pos_right hpos2)
  exact ((Finset.Ico_subset_Ico_iff (Nat.lt_add_of_pos_right hpos1)).mp hin).2

theorem Built.down1 {t : State} {new1 new2 : Handle} (hb : Built r t new1 new2) (hr : r.Ok)
    (hc : r.Clear) (hpos : 0 < new1.len * new1.layout.size) : r.span1.offset ≤ new1.offset := by
  obtain ⟨hlow, hhigh⟩ := hb.span1 hpos
  have hup : alignUp r.offset r.span1.layout.align ≤ new1.offset := by
    rw [alignUp_eq hr.bounded, ← hb.layout1]
    exact Align.up_le new1.layout.align_pos hb.aligned1 hlow
  have hbound := hb.bounded
  have hsize : 0 < new1.layout.size := Nat.pos_of_mul_pos_left hpos
  have hone : new1.layout.size ≤ new1.len * new1.layout.size :=
    Nat.le_mul_of_pos_left _ (Nat.pos_of_mul_pos_right hpos)
  rw [hb.layout1] at hsize hone hhigh
  exact (hc ⟨hsize, by omega⟩).trans hup

theorem Rotating.Asserted.below (h : r.Asserted) (hr : r.Ok) :
    Align.up r.span1.offset r.span2.layout.align ≤ Align.up r.offset r.span2.layout.align := by
  have hpos := r.span2.layout.align_pos
  have hle : r.span1.offset ≤ r.span2.offset := (Nat.le_add_right _ _).trans h.precedes
  refine (Align.up_le hpos hr.aligned2 hle).trans ?_
  have hslack := h.slack
  have htop := h.top
  have hfinish : r.span2.offset ≤ r.span2.finish := Nat.le_add_right _ _
  obtain ⟨m, hm⟩ := Align.dvd_up r.offset r.span2.layout.align
  obtain ⟨k, hk⟩ := hr.aligned2
  have hup := Align.le_up (n := r.offset) hpos
  have hlt : r.span2.layout.align * k < r.span2.layout.align * (m + 1) := by
    rw [Nat.mul_succ, ← hk, ← hm]
    omega
  rw [hm, hk]
  exact Nat.mul_le_mul_left _ (Nat.lt_succ_iff.mp (Nat.lt_of_mul_lt_mul_left hlt))

theorem slid_above {src dst len b : ℕ} (mem : Mem) (hb : dst + len ≤ b) :
    (if dst ≠ src ∧ len > 0 then Memory.copyDown mem src dst len else mem) b = mem b := by
  split
  · exact Memory.copyDown_outside _ _ (.inr hb)
  · rfl

structure Placed (r : Rotating) (t : State) (new1 new2 : Handle) (dst : ℕ) : Prop where
  start1 : r.span1.offset + new1.len * new1.layout.size ≤ dst
  end1 : r.span1.offset + new1.len * new1.layout.size ≤ SIZE
  end2 : dst + new2.len * new2.layout.size ≤ SIZE
  aligned : new2.layout.align ∣ dst
  down2 : 0 < new2.len * new2.layout.size → dst ≤ new2.offset
  clear2 : 0 < new2.len * new2.layout.size → 0 < new1.len * new1.layout.size →
    r.span1.offset + new1.len * new1.layout.size ≤ new2.offset

theorem Built.placed {t : State} {new1 new2 : Handle} (hb : Built r t new1 new2) (hr : r.Ok)
    (ha : r.Asserted) (hc : r.Clear) :
    Placed r t new1 new2
      (alignUp (r.span1.offset + new1.len * new1.layout.size) new2.layout.align) := by
  have hbound := hb.bounded
  have hdown1 := hb.down1 hr hc
  have hspan1 := hb.span1
  have hspan2 := hb.span2
  have hapart := hb.apart
  have hstart : r.span1.offset ≤ SIZE := (Nat.le_add_right _ _).trans hr.inside1
  have hend : r.span1.offset + new1.len * new1.layout.size ≤ SIZE := by
    rcases Nat.eq_zero_or_pos (new1.len * new1.layout.size) with hzero | hpos
    · omega
    · have := hdown1 hpos
      have := hspan1 hpos
      omega
  have hpos := new2.layout.align_pos
  have hclear : 0 < new2.len * new2.layout.size → 0 < new1.len * new1.layout.size →
      r.span1.offset + new1.len * new1.layout.size ≤ new2.offset := by
    intro h2 h1
    have := hdown1 h1
    have := hapart h1 h2
    omega
  have hdown2 : 0 < new2.len * new2.layout.size →
      Align.up (r.span1.offset + new1.len * new1.layout.size) new2.layout.align ≤
        new2.offset := by
    intro h2
    rcases Nat.eq_zero_or_pos (new1.len * new1.layout.size) with hzero | h1
    · have hbelow := ha.below hr
      rw [← hb.layout2] at hbelow
      rw [hzero, Nat.add_zero]
      exact hbelow.trans (Align.up_le hpos hb.aligned2 (hspan2 h2).1)
    · exact Align.up_le hpos hb.aligned2 (hclear h2 h1)
  have hdst := Align.up_le hpos new2.layout.align_dvd_SIZE hend
  rw [alignUp_eq hend]
  refine ⟨Align.le_up hpos, hend, ?_, Align.dvd_up _ _, hdown2, hclear⟩
  rcases Nat.eq_zero_or_pos (new2.len * new2.layout.size) with hzero | h2
  · omega
  · have := hdown2 h2
    have := hspan2 h2
    omega

theorem Built.rotates {t : State} {new1 new2 : Handle} (hb : Built r t new1 new2) (hr : r.Ok)
    (ha : r.Asserted) (hc : r.Clear) (hfixed : r.span1.offset = start.span1.offset) :
    Rotates start r (r.settle t new1 new2) := by
  have hplaced := hb.placed hr ha hc
  have hdown1 := hb.down1 hr hc
  refine ⟨⟨hplaced.start1, le_rfl, ?_⟩, ⟨rfl, rfl⟩, ⟨rfl, rfl⟩, fun i hi => ?_, fun i hi => ?_,
    hfixed, ?_, hdown1, hplaced.down2⟩
  · exact (Nat.sub_self _).trans_lt new2.layout.align_pos
  · change i < new1.len * new1.layout.size at hi
    have hlow := hplaced.start1
    refine (slid_below _ (show r.span1.offset + i < _ by omega)).trans ?_
    exact slid_moved t.mem (hdown1 (by omega)) hi
  · change i < new2.len * new2.layout.size at hi
    refine (slid_moved _ (hplaced.down2 (by omega)) hi).trans ?_
    rcases Nat.eq_zero_or_pos (new1.len * new1.layout.size) with hzero | hpos
    · exact congrFun (if_neg fun h => by omega) _
    · have := hplaced.clear2 (by omega) hpos
      exact slid_above t.mem (by omega)
  · rw [← hfixed, ← hb.layout2]
    rfl

theorem Built.next_ok {t : State} {new1 new2 : Handle} (hb : Built r t new1 new2) (hr : r.Ok)
    (ha : r.Asserted) (hc : r.Clear) : (r.settle t new1 new2).next.Ok := by
  have hplaced := hb.placed hr ha hc
  refine ⟨hplaced.end2, ?_, hplaced.aligned, hplaced.end1, hplaced.end2⟩
  change new1.layout.align ∣ r.span1.offset
  rw [hb.layout1]
  exact hr.aligned1

theorem Built.next_clear {t : State} {new1 new2 : Handle} (hb : Built r t new1 new2) (hr : r.Ok)
    (ha : r.Asserted) (hc : r.Clear) : (r.settle t new1 new2).next.Clear := by
  intro _
  have hplaced := hb.placed hr ha hc
  have hup : (r.settle t new1 new2).next.offset ≤
      alignUp (r.settle t new1 new2).next.offset (r.settle t new1 new2).next.span1.layout.align := by
    have hoff : (r.settle t new1 new2).next.offset ≤ SIZE := hplaced.end2
    rw [alignUp_eq hoff]
    exact Align.le_up (Layout.align_pos _)
  refine le_trans ?_ hup
  have := hplaced.start1
  change r.span1.offset ≤ _ + _
  omega

theorem replace2_rotates (hr : r.Ok) (ha : r.Asserted) (hc : r.Clear)
    (hfixed : r.span1.offset = start.span1.offset) (h : r.replace2 c = some round) :
    Rotates start r round ∧ round.next.Ok ∧ round.next.Clear := by
  obtain ⟨t, new1, new2, hb, rfl⟩ := replace2_some hr h
  exact ⟨hb.rotates hr ha hc hfixed, hb.next_ok hr ha hc, hb.next_clear hr ha hc⟩

theorem rotations_of_clear (hr : start.Ok) (ha : start.Asserted) (hc : start.Clear) :
    Rotations start := by
  have hrun : ∀ (cs : List Closure) (r r' : Rotating), r.Ok → r.Asserted → r.Clear →
      r.span1.offset = start.span1.offset → r.rotate cs = some r' →
      r'.Ok ∧ r'.Asserted ∧ r'.Clear ∧ r'.span1.offset = start.span1.offset := by
    intro cs
    induction cs with
    | nil =>
      intro r r' hr ha hc hfixed h
      obtain rfl := Option.some.inj h
      exact ⟨hr, ha, hc, hfixed⟩
    | cons c cs ih =>
      intro r r' hr ha hc hfixed h
      obtain ⟨round, hround, h⟩ := Option.bind_eq_some_iff.mp h
      obtain ⟨hrot, hok, hclear⟩ := replace2_rotates hr ha hc hfixed hround
      exact ih round.next r' hok hrot.next hclear hrot.fixed h
  intro cs c r round hreach hround
  obtain ⟨hok, hasserted, hclear, hfixed⟩ := hrun cs start r hr ha hc rfl hreach
  exact (replace2_rotates hok hasserted hclear hfixed hround).1

def earliest (l1 l2 : Layout) : Closure where
  ops := [.span l1, .push (List.replicate l1.size 0), .close, .empty l2]
  nested := by
    have hpush : Nested [.push (List.replicate l1.size 0)] := .flat trivial .nil
    have hempty : Nested [.empty l2] := .flat trivial .nil
    have hspan : Opens (.span l1) .close := .span l1
    exact .block hspan hpush hempty
  sized := by simp [Op.Sized]
  new1 := 0
  new2 := 1
  later := Nat.one_pos

theorem bump_aligned {cur : ℕ} {l : Layout} (ha : l.align ∣ cur) (hfit : cur + l.size ≤ SIZE) :
    bump cur l.size l.align = some (cur, cur + l.size) := by
  have halign : l.align ≤ MAX_ALIGN := by
    obtain ⟨k, hk, hpow⟩ := l.align_pow
    exact hpow.trans_le (Nat.pow_le_pow_right Nat.two_pos hk)
  have hcur : alignUp cur l.align = cur := by
    rw [alignUp_eq (by omega), Align.up_of_dvd ha l.align_pos]
  unfold bump
  rw [if_neg (by omega), hcur]
  exact if_pos hfit

def Rotating.earliestState (r : Rotating) : State :=
  let start := alignUp r.offset r.span1.layout.align
  let new1End := start + r.span1.layout.size
  ⟨new1End, Memory.write r.mem start (List.replicate r.span1.layout.size 0),
    [⟨r.offset, none, [⟨1, .span, r.span2.layout, alignUp new1End r.span2.layout.align, 0, 0⟩,
      ⟨0, .span, r.span1.layout, start, 1, 1⟩], none⟩], 2⟩

theorem earliest_run (hr : r.Ok) (hroom : r.Roomy) :
    r.entered.run (earliest r.span1.layout r.span2.layout).ops = some r.earliestState := by
  have hdvd : r.span1.layout.align ∣ alignUp r.offset r.span1.layout.align := by
    rw [alignUp_eq hr.bounded]
    exact Align.dvd_up _ _
  have hbump := bump_aligned hdvd hroom.2
  simp [earliest, entered, State.run, State.step, State.span, State.push, State.close, State.empty,
    State.innermost, State.setLock, State.hold, hbump, earliestState]

theorem earliest_built (hr : r.Ok) (ha : r.Asserted) (hroom : r.Roomy) :
    ∃ round, r.replace2 (earliest r.span1.layout r.span2.layout) = some round ∧
      round.new1.offset = alignUp r.offset r.span1.layout.align ∧
      round.next.span1.bytes = r.span1.layout.size := by
  have hslack : r.span2.finish - r.offset < max r.span2.layout.align 1 :=
    ha.slack.trans_le (le_max_left _ _)
  let start := alignUp r.offset r.span1.layout.align
  let new1 : Handle := ⟨0, .span, r.span1.layout, start, 1, 1⟩
  let new2 : Handle := ⟨1, .span, r.span2.layout,
    alignUp (start + r.span1.layout.size) r.span2.layout.align, 0, 0⟩
  have hbytes : (r.settle r.earliestState new1 new2).next.span1.bytes = r.span1.layout.size :=
    Nat.one_mul _
  refine ⟨r.settle r.earliestState new1 new2, ?_, rfl, hbytes⟩
  unfold Rotating.replace2
  rw [if_pos ⟨ha.top, hslack⟩, earliest_run hr hroom]
  simp [earliestState, earliest, new1, new2, start]

theorem clear_of_rotations (hr : start.Ok) (ha : start.Asserted) (h : Rotations start) :
    start.Clear := by
  intro hroom
  obtain ⟨round, hround, hlow, hbytes⟩ := earliest_built hr ha hroom
  have hrot := h [] _ start round rfl hround
  rw [← hlow]
  exact hrot.down1 (hbytes ▸ hroom.1)

theorem rotations_iff (hr : start.Ok) (ha : start.Asserted) :
    Rotations start ↔ start.Clear :=
  ⟨clear_of_rotations hr ha, rotations_of_clear hr ha⟩

theorem rotations_iff_settled : Rotations ⟨11, fun _ => 0, ⟨word, 0, 2⟩, ⟨byte, 8, 3⟩⟩ :=
  (rotations_iff ⟨by decide, by decide, by decide, by decide, by decide⟩
    ⟨by decide, by decide, by decide⟩).mpr (by decide)

def wide : Layout := ⟨8, 8, by decide, by decide⟩

theorem empty_span_rises :
    ¬ ∀ start : Rotating, start.Ok → start.Asserted → Rotations start := by
  intro h
  let early : Rotating := ⟨4, fun _ => 0, ⟨word, 8, 0⟩, ⟨wide, 8, 0⟩⟩
  have hok : early.Ok := ⟨by decide, by decide, by decide, by decide, by decide⟩
  have hasserted : early.Asserted := ⟨by decide, by decide, by decide⟩
  have hclear : early.Clear := clear_of_rotations hok hasserted (h early hok hasserted)
  exact absurd hclear (by decide)

end Ltop.Arena
