import Mathlib
import Ltop.OsWalk

namespace Ltop.Os

inductive Stream (blob : List UInt8) : ℕ → ℕ → List ℕ → Prop where
  | nil {p : ℕ} : Stream blob p p []
  | ref {p q : ℕ} {offs : List ℕ} {tag : Tag} :
      readTag blob p = .some tag → tag.ty = TYPE_OBJECT → Stream blob (p + 4) q offs →
      Stream blob p q offs
  | object {p q step : ℕ} {offs : List ℕ} {tag : Tag} :
      readTag blob p = .some tag → scalarStep tag = .some step → p + step ≤ blob.length →
      Stream blob (p + step) q offs → Stream blob p q (p :: offs)

variable {blob : List UInt8} {n k i seen fuel p q : ℕ} {offs refs : List ℕ} {o : ℕ}

theorem Stream.append {m : ℕ} {offs' : List ℕ} (h : Stream blob p m offs)
    (h' : Stream blob m q offs') : Stream blob p q (offs ++ offs') := by
  induction h with
  | nil => exact h'
  | ref htag hobj _ ih => exact .ref htag hobj (ih h')
  | object htag hstep hin _ ih => exact .object htag hstep hin (ih h')

theorem Items.stream (h : Items blob n seen p q offs refs) : Stream blob p q offs := by
  induction h with
  | nil => exact .nil
  | ref htag hobj _ _ ih => exact .ref htag hobj ih
  | item htag hstep hin _ _ ihk ih => exact .object htag hstep hin (ihk.append ih)

theorem Stream.le (h : Stream blob p q offs) : p + 4 * offs.length ≤ q := by
  induction h with
  | nil => exact le_rfl
  | ref _ _ _ ih => omega
  | object htag hstep _ _ ih =>
    have hge := (scalarStep_some (readTag_some htag).2.1 hstep).1
    rw [List.length_cons]
    omega

theorem Stream.drop (h : Stream blob p q offs) (ho : offs[i]? = some o) :
    Stream blob o q (offs.drop i) := by
  induction h generalizing i with
  | nil => simp at ho
  | ref _ _ _ ih => exact ih ho
  | @object p q step offs tag htag hstep hin h ih =>
    cases i with
    | zero =>
      obtain rfl : p = o := by simpa using ho
      exact .object htag hstep hin h
    | succ i => exact ih (by simpa using ho)

theorem Stream.nth (h : Stream blob p q offs) (ho : offs[k]? = some o)
    (hlen : blob.length < 2 ^ 32 - 17) (hq : q ≤ blob.length) (hidx : i + k < 2 ^ 32)
    (hfuel : q < p + fuel) : OsBinary.nthLoop blob (i + k) fuel p i = .some o := by
  induction h generalizing k i fuel with
  | nil => simp at ho
  | @ref p q offs tag htag hobj h ih =>
    have hin := (readTag_some htag).1
    have hle := h.le
    obtain ⟨fuel, rfl⟩ : ∃ f, fuel = f + 1 := ⟨fuel - 1, by omega⟩
    rw [OsBinary.nthLoop, htag, Outcome.some_bind, if_pos hobj, addU32_some (by omega),
      Outcome.some_bind]
    exact ih ho hq hidx (by omega)
  | @object p q step offs tag htag hstep hin h ih =>
    obtain ⟨hge, -, hobj⟩ := scalarStep_some (readTag_some htag).2.1 hstep
    have hle := h.le
    obtain ⟨fuel, rfl⟩ : ∃ f, fuel = f + 1 := ⟨fuel - 1, by omega⟩
    rw [OsBinary.nthLoop, htag, Outcome.some_bind, if_neg hobj]
    cases k with
    | zero =>
      obtain rfl : p = o := by simpa using ho
      exact if_pos rfl
    | succ k =>
      rw [if_neg (by omega), addU32_some (by omega), Outcome.some_bind, hstep, Outcome.some_bind,
        addU32_some (by omega), Outcome.some_bind, show i + (k + 1) = i + 1 + k by omega]
      exact ih (by simpa using ho) hq (by omega) (by omega)

structure Accepted (b : OsBinary) (q : ℕ) (offs refs : List ℕ) : Prop where
  items : Items b.blob 1 0 4 q offs refs
  small : b.blob.length < 2 ^ 32 - 17
  count : b.count = offs.length
  pos : 0 < b.stride
  entry : ∀ idx < offs.length, ∃ o, b.ckpts[idx / b.stride]? = some o ∧
    offs[idx / b.stride * b.stride]? = some o

theorem Ckpts.Tracks.accepted {ck : Ckpts} (h : ck.Tracks offs)
    (hitems : Items blob 1 0 4 q offs refs) (hlen : blob.length < 2 ^ 32 - 17) :
    ∃ ckpts, slice ck.buf 0 ck.n = .some ckpts ∧
      Accepted ⟨blob, ckpts, ck.stride, offs.length⟩ q offs refs := by
  refine ⟨ck.buf.take ck.n, ?_, hitems, hlen, rfl, h.pos, fun idx hidx => ?_⟩
  · rw [slice, if_pos ⟨Nat.zero_le _, h.fits⟩]
    rfl
  · have hlt : idx / ck.stride < ck.n :=
      (Nat.div_lt_iff_lt_mul h.pos).mpr (hidx.trans_le h.last)
    obtain ⟨o, hbuf, ho⟩ := h.entry _ hlt
    exact ⟨o, by rw [← hbuf]; exact List.getElem?_take_of_lt hlt, ho⟩

theorem new_tracks {buf : List ℕ} (hbuf : buf ≠ []) : Ckpts.Tracks ⟨buf, 0, 1⟩ [] :=
  ⟨Nat.zero_le _, List.length_pos_iff.mpr hbuf, Nat.one_pos, fun _ hi => absurd hi (Nat.not_lt_zero _),
    Nat.zero_le _⟩

structure Header (blob : List UInt8) (buf : List ℕ) : Prop where
  room : buf ≠ []
  magic : blob.take 4 = MAGIC
  long : 8 ≤ blob.length
  small : blob.length < 2 ^ 32 - 17

theorem parse_header {buf : List ℕ} (h : Header blob buf) :
    parse blob buf = (do
      let (_end, count, ck) ← walk blob 4 (some ⟨buf, 0, 1⟩)
      match ck with
      | none => .none
      | some ck => return ⟨blob, ← slice ck.buf 0 ck.n, ck.stride, count⟩) := by
  have hlong := h.long
  have hsmall := h.small
  unfold parse
  exact (if_neg (by simp [h.magic, h.room]; omega)).trans (if_neg (by omega))

theorem parse_no_header {buf : List ℕ} (h : ¬ Header blob buf) : parse blob buf = .none := by
  unfold parse
  split
  · rfl
  · rename_i hfirst
    split
    · rfl
    · rename_i hsecond
      simp only [not_or, not_not] at hfirst
      exact absurd ⟨hfirst.2.2, hfirst.2.1, by omega, by omega⟩ h

theorem parse_items {buf : List ℕ} (h : Header blob buf) (hitems : Items blob 1 0 4 q offs refs) :
    ∃ ckpts stride, parse blob buf = .some ⟨blob, ckpts, stride, offs.length⟩ ∧
      Accepted ⟨blob, ckpts, stride, offs.length⟩ q offs refs := by
  have hq := hitems.inside Nat.one_pos
  have hnew : Tracked (some ⟨buf, 0, 1⟩) [] := fun _ hc => by cases hc; exact new_tracks h.room
  obtain ⟨ck', hck', hsome, j, hj, hrun⟩ := hitems.walk (r := 0) h.small hnew (fun _ => rfl)
    (Nat.zero_le _) (by simp)
  obtain ⟨ck, rfl⟩ : ∃ ck, ck' = some ck := Option.isSome_iff_exists.mp hsome
  obtain ⟨fuel, hfuel⟩ : ∃ fuel, blob.length + 1 = fuel + 1 + j := ⟨blob.length - j, by omega⟩
  have hwalk : walk blob 4 (some ⟨buf, 0, 1⟩) = .some (q, offs.length, some ck) := by
    have := hrun (fuel + 1)
    simp only [List.length_nil, Nat.zero_add, Nat.add_zero] at this
    rw [walk, hfuel, this, walkLoop, if_neg (by omega)]
  obtain ⟨ckpts, hslice, hacc⟩ := (hck' ck rfl).accepted hitems h.small
  refine ⟨ckpts, ck.stride, ?_, hacc⟩
  rw [parse_header h, hwalk, Outcome.some_bind]
  dsimp only
  rw [hslice]
  rfl

theorem parse_spec (blob : List UInt8) (buf : List ℕ) :
    parse blob buf = .none ∨ ∃ q offs refs ckpts stride, Header blob buf ∧
      parse blob buf = .some ⟨blob, ckpts, stride, offs.length⟩ ∧
      Accepted ⟨blob, ckpts, stride, offs.length⟩ q offs refs := by
  by_cases h : Header blob buf
  · have hlong := h.long
    rcases walkLoop_spec (p := 4) (n := 1) h.small (new_tracks h.room) (by omega)
      (Nat.zero_le _) (by simp) (show blob.length < 4 + (blob.length + 1) by omega) with hnone | hsome
    · left
      rw [parse_header h, walk]
      rw [List.length_nil] at hnone
      rw [hnone]
      rfl
    · obtain ⟨q, offs, refs, c', -, -, hitems⟩ := hsome
      obtain ⟨ckpts, stride, hparse, hacc⟩ := parse_items h hitems
      exact .inr ⟨q, offs, refs, ckpts, stride, h, hparse, hacc⟩
  · exact .inl (parse_no_header h)

variable {b : OsBinary}

theorem Accepted.end_le (h : Accepted b q offs refs) : q ≤ b.blob.length :=
  h.items.inside Nat.one_pos

theorem Accepted.nthObject (h : Accepted b q offs refs) (idx : ℕ) :
    b.nthObject idx = .ofOption offs[idx]? := by
  rcases Nat.lt_or_ge idx offs.length with hidx | hidx
  · obtain ⟨o, hck, ho⟩ := h.entry idx hidx
    have hstream := h.items.stream.drop ho
    have hend := h.end_le
    have hsmall := h.small
    have hadv := h.items.advance
    have hdiv : idx / b.stride * b.stride ≤ idx := Nat.div_mul_le_self _ _
    have htarget : (offs.drop (idx / b.stride * b.stride))[idx - idx / b.stride * b.stride]? =
        some offs[idx] := by
      rw [List.getElem?_drop, Nat.add_sub_cancel' hdiv]
      exact List.getElem?_eq_getElem hidx
    rw [List.getElem?_eq_getElem hidx, OsBinary.nthObject, if_neg (by rw [h.count]; omega),
      if_neg h.pos.ne']
    dsimp only
    rw [hck, Outcome.ofOption_some, Outcome.ofOption_some, Outcome.some_bind, mulU64,
      if_pos (by omega), Outcome.some_bind, Nat.mod_eq_of_lt (by omega)]
    have hfuel : q < o + (b.blob.length + 1) := by omega
    have := hstream.nth (i := idx / b.stride * b.stride) htarget hsmall hend (by omega) hfuel
    rwa [Nat.add_sub_cancel' hdiv] at this
  · rw [List.getElem?_eq_none hidx, OsBinary.nthObject, if_pos (by rw [h.count]; exact hidx)]
    rfl

end Ltop.Os
