import Mathlib
import Ltop.OsLookup

namespace Ltop.Os

variable {blob : List UInt8} {fuel n p q count idx : ℕ} {offs : List ℕ} {ck ck' : Ckpts}

def Ckpts.recordFrom (ck : Ckpts) (count : ℕ) : List ℕ → Outcome Ckpts
  | [] => .some ck
  | o :: offs => do (← ck.record count o).recordFrom (count + 1) offs

def Ckpts.recordAll (buf offs : List ℕ) : Outcome Ckpts := Ckpts.recordFrom ⟨buf, 0, 1⟩ 0 offs

structure Ckpts.Samples (ck : Ckpts) (room : ℕ) (offs : List ℕ) : Prop where
  size : ck.buf.length = room
  fits : ck.n ≤ room
  power : ∃ k, ck.stride = 2 ^ k
  seen : ∀ i, i < ck.n ↔ i * ck.stride < offs.length
  entry : ∀ i < ck.n, ck.buf[i]? = offs[i * ck.stride]?

theorem Ckpts.append_shape (h : ck.append p = .some ck') :
    ck'.buf.length = ck.buf.length ∧ ck'.stride = ck.stride := by
  obtain ⟨buf, hput, hck⟩ := Outcome.bind_eq_some.mp h
  cases hck
  rw [put] at hput
  split at hput
  · cases hput
    exact ⟨List.length_set, rfl⟩
  · cases hput

theorem Ckpts.Tracks.record_shape (ht : ck.Tracks offs) (h : ck.record count p = .some ck') :
    ck'.buf.length = ck.buf.length ∧ (ck'.stride = ck.stride ∨ ck'.stride = ck.stride * 2) := by
  rw [Ckpts.record, remainder_some ht.pos, Outcome.some_bind] at h
  by_cases hoff : count % ck.stride ≠ 0
  · rw [if_pos hoff] at h
    cases h
    exact ⟨rfl, .inl rfl⟩
  · rw [if_neg hoff] at h
    by_cases hfull : ck.n = ck.buf.length
    · obtain ⟨buf, hthin, htrack, hbuf⟩ := ht.halve hfull
      rw [if_pos hfull, hthin, Outcome.some_bind] at h
      obtain ⟨stride, hmul, h⟩ := Outcome.bind_eq_some.mp h
      rw [mulU64] at hmul
      split at hmul
      · cases hmul
        dsimp only at h
        rw [remainder_some htrack.pos, Outcome.some_bind] at h
        by_cases hodd : count % (ck.stride * 2) ≠ 0
        · rw [if_pos hodd] at h
          cases h
          exact ⟨hbuf.trans hfull, .inr rfl⟩
        · rw [if_neg hodd] at h
          obtain ⟨hlen, hstride⟩ := Ckpts.append_shape h
          exact ⟨hlen.trans (hbuf.trans hfull), .inr hstride⟩
      · cases hmul
    · rw [if_neg hfull] at h
      exact ⟨(Ckpts.append_shape h).1, .inl (Ckpts.append_shape h).2⟩

theorem Ckpts.Tracks.samples {room : ℕ} (h : ck.Tracks offs) (hsize : ck.buf.length = room)
    (hpower : ∃ k, ck.stride = 2 ^ k) : ck.Samples room offs := by
  refine ⟨hsize, hsize ▸ h.fits, hpower, fun i => ⟨fun hi => ?_, fun hi => ?_⟩, fun i hi => ?_⟩
  · obtain ⟨o, -, ho⟩ := h.entry i hi
    exact (List.getElem?_eq_some_iff.mp ho).1
  · exact Nat.lt_of_mul_lt_mul_right (hi.trans_le h.last)
  · obtain ⟨o, hbuf, ho⟩ := h.entry i hi
    exact hbuf.trans ho.symm

theorem Ckpts.Tracks.recordFrom {room : ℕ} {seen : List ℕ} (ht : ck.Tracks seen)
    (hsize : ck.buf.length = room) (hpower : ∃ k, ck.stride = 2 ^ k)
    (hsmall : seen.length + offs.length ≤ 2 ^ 32) :
    ∃ ck', ck.recordFrom seen.length offs = .some ck' ∧ ck'.Samples room (seen ++ offs) := by
  induction offs generalizing ck seen with
  | nil => exact ⟨ck, rfl, by simpa using ht.samples hsize hpower⟩
  | cons o offs ih =>
    rw [List.length_cons] at hsmall
    obtain ⟨ck₁, hrec, ht₁⟩ := ht.record (by omega) o
    obtain ⟨hlen, hstride⟩ := ht.record_shape hrec
    have hpower₁ : ∃ k, ck₁.stride = 2 ^ k := by
      obtain ⟨k, hk⟩ := hpower
      rcases hstride with hs | hs
      · exact ⟨k, hs.trans hk⟩
      · exact ⟨k + 1, by rw [hs, hk, pow_succ]⟩
    have hseen : (seen ++ [o]).length = seen.length + 1 := by simp
    obtain ⟨ck', hrun, hsamples⟩ := ih ht₁ (hlen.trans hsize) hpower₁ (by omega)
    refine ⟨ck', ?_, by simpa using hsamples⟩
    rw [Ckpts.recordFrom, hrec, Outcome.some_bind, ← hseen, hrun]

theorem recordAll_samples {buf : List ℕ} (hbuf : buf ≠ []) (hsmall : offs.length ≤ 2 ^ 32) :
    ∃ ck, Ckpts.recordAll buf offs = .some ck ∧ ck.Samples buf.length offs := by
  have h : ∃ ck, Ckpts.recordFrom ⟨buf, 0, 1⟩ [].length offs = .some ck ∧
      ck.Samples buf.length ([] ++ offs) :=
    (new_tracks hbuf).recordFrom rfl ⟨0, rfl⟩ (by simpa using hsmall)
  simpa [Ckpts.recordAll] using h

theorem Stream.unique {offs' : List ℕ} (h : Stream blob p q offs) (h' : Stream blob p q offs') :
    offs = offs' := by
  induction h generalizing offs' with
  | nil =>
    cases h' with
    | nil => rfl
    | ref _ _ hrest => exact absurd hrest.le (by omega)
    | object htag hstep _ hrest =>
      have hge := (scalarStep_some (readTag_some htag).2.1 hstep).1
      exact absurd hrest.le (by omega)
  | ref htag hobj h ih =>
    cases h' with
    | nil => exact absurd h.le (by omega)
    | ref _ _ hrest => exact ih hrest
    | object htag' hstep _ _ =>
      cases htag.symm.trans htag'
      exact absurd hobj (scalarStep_some (readTag_some htag).2.1 hstep).2.2
  | object htag hstep _ h ih =>
    obtain ⟨hge, -, hobj⟩ := scalarStep_some (readTag_some htag).2.1 hstep
    cases h' with
    | nil => exact absurd h.le (by omega)
    | ref htag' hobj' _ =>
      cases htag.symm.trans htag'
      exact absurd hobj' hobj
    | object htag' hstep' _ hrest =>
      cases htag.symm.trans htag'
      cases hstep.symm.trans hstep'
      rw [ih hrest]

theorem walkLoop_recorded (h : walkLoop blob fuel p n count (some ck) = .some (q, idx, some ck')) :
    ∃ offs, ck.recordFrom count offs = .some ck' ∧ idx = count + offs.length ∧
      Stream blob p q offs := by
  induction fuel generalizing p n count ck with
  | zero =>
    rw [walkLoop] at h
    split at h
    · cases h
    · cases h
      exact ⟨[], rfl, rfl, .nil⟩
  | succ fuel ih =>
    rw [walkLoop] at h
    by_cases hn : n > 0
    · rw [if_pos hn] at h
      obtain ⟨tag, htag, h⟩ := Outcome.bind_eq_some.mp h
      dsimp only at h
      by_cases hobj : tag.ty = TYPE_OBJECT
      · rw [if_pos hobj] at h
        split at h
        · cases h
        · obtain ⟨next, hadd, h⟩ := Outcome.bind_eq_some.mp h
          rw [addU32] at hadd
          split at hadd
          · cases hadd
            obtain ⟨offs, hrec, hidx, hstream⟩ := ih h
            exact ⟨offs, hrec, hidx, .ref htag hobj hstream⟩
          · cases hadd
      · rw [if_neg hobj] at h
        obtain ⟨owed, -, h⟩ := Outcome.bind_eq_some.mp h
        obtain ⟨step, hstep, h⟩ := Outcome.bind_eq_some.mp h
        by_cases hin : p + step > blob.length
        · rw [if_pos hin] at h
          cases h
        · rw [if_neg hin] at h
          obtain ⟨cko, hcko, h⟩ := Outcome.bind_eq_some.mp h
          obtain ⟨ck₁, hrec₁, hck₁⟩ := Outcome.bind_eq_some.mp hcko
          cases hck₁
          obtain ⟨count₁, hcount, h⟩ := Outcome.bind_eq_some.mp h
          obtain ⟨next, hadd, h⟩ := Outcome.bind_eq_some.mp h
          rw [checkedAdd] at hcount
          rw [addU32] at hadd
          split at hcount
          · split at hadd
            · cases hcount
              cases hadd
              obtain ⟨offs, hrec, hidx, hstream⟩ := ih h
              refine ⟨p :: offs, ?_, ?_, .object htag hstep (Nat.le_of_not_lt hin) hstream⟩
              · rw [Ckpts.recordFrom, hrec₁, Outcome.some_bind, hrec]
              · rw [hidx, List.length_cons]
                omega
            · cases hadd
          · cases hcount
    · rw [if_neg hn] at h
      cases h
      exact ⟨[], rfl, rfl, .nil⟩

structure Table (b : OsBinary) (buf : List ℕ) (q : ℕ) (offs : List ℕ) (ck : Ckpts) : Prop where
  walked : walk b.blob 4 (some ⟨buf, 0, 1⟩) = .some (q, offs.length, some ck)
  stream : Stream b.blob 4 q offs
  recorded : Ckpts.recordAll buf offs = .some ck
  samples : ck.Samples buf.length offs
  entries : b.ckpts = ck.buf.take ck.n
  stride : b.stride = ck.stride
  count : b.count = offs.length

theorem parse_table {buf : List ℕ} {b : OsBinary} (h : parse blob buf = .some b) :
    ∃ q offs refs ck, Table b buf q offs ck ∧ Accepted b q offs refs := by
  by_cases hhead : Header blob buf
  · have hlong := hhead.long
    have hsmall := hhead.small
    rw [parse_header hhead] at h
    obtain ⟨⟨q, count, ck⟩, hwalk, hck⟩ := Outcome.bind_eq_some.mp h
    rcases walkLoop_spec (p := 4) (n := 1) hsmall (new_tracks hhead.room) (by omega)
      (Nat.zero_le _) (by simp) (show blob.length < 4 + (blob.length + 1) by omega) with hnone | hsome
    · cases hnone.symm.trans hwalk
    · obtain ⟨q', offs, refs, ck', hrun, htracks, hitems⟩ := hsome
      simp only [List.length_nil, Nat.zero_add, List.nil_append] at hrun hitems htracks
      cases hrun.symm.trans hwalk
      obtain ⟨table, hslice, hb⟩ := Outcome.bind_eq_some.mp hck
      cases hb
      obtain ⟨offs', hrec, hlen, hstream⟩ := walkLoop_recorded hwalk
      cases hstream.unique hitems.stream
      have hadv := hitems.advance
      have hend := hitems.inside Nat.one_pos
      have hcounts : offs.length ≤ 2 ^ 32 := by omega
      obtain ⟨ck, hall, hsamples⟩ := recordAll_samples hhead.room hcounts
      cases hall.symm.trans hrec
      obtain ⟨ckpts, hslice', hacc⟩ := htracks.accepted hitems hsmall
      cases hslice'.symm.trans hslice
      have hentries : table = ck'.buf.take ck'.n := by
        rw [slice, if_pos ⟨Nat.zero_le _, htracks.fits⟩] at hslice
        cases hslice
        rfl
      exact ⟨q, offs, refs, ck', ⟨hwalk, hitems.stream, hrec, hsamples, hentries, rfl, rfl⟩, hacc⟩
  · cases (parse_no_header hhead).symm.trans h

theorem checkpoint_table :
    (∀ buf offs : List ℕ, buf ≠ [] → offs.length ≤ 2 ^ 32 →
      ∃ ck, Ckpts.recordAll buf offs = .some ck ∧ ck.Samples buf.length offs) ∧
    ∀ (blob : List UInt8) (buf : List ℕ) (b : OsBinary), parse blob buf = .some b →
      ∃ q offs ck, Table b buf q offs ck ∧ ∀ i, b.nthObject i = .ofOption offs[i]? := by
  refine ⟨fun buf offs hbuf hsmall => recordAll_samples hbuf hsmall, fun blob buf b h => ?_⟩
  obtain ⟨q, offs, refs, ck, htable, hacc⟩ := parse_table h
  exact ⟨q, offs, ck, htable, hacc.nthObject⟩

def flags : List UInt8 :=
  MAGIC ++ [4, 0, 0, 2, 1, 0, 0, 0x0b, 1, 0, 0, 0x0c, 0, 0, 0, 0x0b, 1, 0, 0, 0x8b]

theorem flags_parsed : parse flags [0, 0] = .some ⟨flags, [4, 16], 2, 4⟩ := rfl

theorem checkpoint_table_flags :
    (∃ ck, Ckpts.recordAll [0, 0] [4, 8, 16, 20] = .some ck ∧ ck.Samples 2 [4, 8, 16, 20]) ∧
      ∃ q offs ck, Table ⟨flags, [4, 16], 2, 4⟩ [0, 0] q offs ck ∧
        ∀ i, OsBinary.nthObject ⟨flags, [4, 16], 2, 4⟩ i = .ofOption offs[i]? :=
  ⟨checkpoint_table.1 [0, 0] [4, 8, 16, 20] (by decide) (by decide),
    checkpoint_table.2 flags [0, 0] _ flags_parsed⟩

end Ltop.Os
