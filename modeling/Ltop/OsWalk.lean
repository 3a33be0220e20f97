import Mathlib
import Ltop.OsFormat

namespace Ltop.Os

theorem put_some {buf : List ℕ} {i : ℕ} (hi : i < buf.length) (x : ℕ) :
    put buf i x = .some (buf.set i x) := if_pos hi

theorem get_some {buf : List ℕ} {i : ℕ} (hi : i < buf.length) : get buf i = .some buf[i] := by
  rw [get, List.getElem?_eq_getElem hi]
  rfl

theorem addU32_some {a b : ℕ} (h : a + b < 2 ^ 32) : addU32 a b = .some (a + b) := if_pos h

theorem remainder_some {a b : ℕ} (h : 0 < b) : remainder a b = .some (a % b) := if_neg h.ne'

theorem thin_spec {n fuel w r : ℕ} {buf : List ℕ} (hn : n ≤ buf.length) (hwr : w ≤ r)
    (hf : n ≤ r + fuel) :
    ∃ buf', thin n fuel buf w r = .some (buf', w + (n + 1 - r) / 2) ∧ buf'.length = buf.length ∧
      (∀ i < w, buf'[i]? = buf[i]?) ∧ ∀ k, r + 2 * k < n → buf'[w + k]? = buf[r + 2 * k]? := by
  induction fuel generalizing buf w r with
  | zero =>
    refine ⟨buf, ?_, rfl, fun _ _ => rfl, fun k hk => by omega⟩
    rw [thin, if_neg (by omega)]
    congr 2
    omega
  | succ fuel ih =>
    by_cases hr : r < n
    · have hset : (buf.set w buf[r]).length = buf.length := List.length_set
      obtain ⟨buf', hrun, hlen, hlow, hhigh⟩ :=
        ih (w := w + 1) (r := r + 2) (show n ≤ (buf.set w buf[r]).length by omega) (by omega) (by omega)
      refine ⟨buf', ?_, hlen.trans hset, fun i hi => ?_, fun k hk => ?_⟩
      · rw [thin, if_pos hr, get_some (by omega), Outcome.some_bind, put_some (by omega),
          Outcome.some_bind, hrun]
        congr 2
        omega
      · rw [hlow i (by omega), List.getElem?_set_ne (by omega)]
      · cases k with
        | zero =>
          rw [Nat.add_zero, hlow w (by omega), List.getElem?_set_self (by omega)]
          exact (List.getElem?_eq_getElem (by omega)).symm
        | succ k =>
          have := hhigh k (by omega)
          rw [List.getElem?_set_ne (by omega)] at this
          rw [show w + (k + 1) = w + 1 + k by omega, this]
          congr 1
          omega
    · refine ⟨buf, ?_, rfl, fun _ _ => rfl, fun k hk => by omega⟩
      rw [thin, if_neg hr]
      congr 2
      omega

structure Ckpts.Tracks (ck : Ckpts) (offs : List ℕ) : Prop where
  fits : ck.n ≤ ck.buf.length
  room : 0 < ck.buf.length
  pos : 0 < ck.stride
  entry : ∀ i < ck.n, ∃ o, ck.buf[i]? = some o ∧ offs[i * ck.stride]? = some o
  last : offs.length ≤ ck.n * ck.stride

namespace Ckpts.Tracks

variable {ck : Ckpts} {offs : List ℕ}

theorem exact (h : ck.Tracks offs) (hdvd : ck.stride ∣ offs.length) :
    offs.length = ck.n * ck.stride := by
  obtain ⟨k, hk⟩ := hdvd
  rcases Nat.lt_or_ge k ck.n with hlt | hge
  · obtain ⟨o, -, ho⟩ := h.entry k hlt
    have := (List.getElem?_eq_some_iff.mp ho).1
    rw [hk, Nat.mul_comm] at this
    omega
  · have hle : ck.n * ck.stride ≤ offs.length := by
      rw [hk, Nat.mul_comm]
      exact Nat.mul_le_mul_left _ hge
    exact Nat.le_antisymm h.last hle

theorem skip (h : ck.Tracks offs) (hdvd : ¬ ck.stride ∣ offs.length) (o : ℕ) :
    ck.Tracks (offs ++ [o]) := by
  refine ⟨h.fits, h.room, h.pos, fun i hi => ?_, ?_⟩
  · obtain ⟨x, hx, ho⟩ := h.entry i hi
    exact ⟨x, hx, List.getElem?_append_left (List.getElem?_eq_some_iff.mp ho).1 ▸ ho⟩
  · have hne : offs.length ≠ ck.n * ck.stride := fun heq => hdvd ⟨ck.n, heq.trans (Nat.mul_comm _ _)⟩
    have := h.last
    simp only [List.length_append, List.length_singleton]
    omega

theorem append (h : ck.Tracks offs) (hdvd : ck.stride ∣ offs.length) (hn : ck.n < ck.buf.length)
    (o : ℕ) : ∃ ck', ck.append o = .some ck' ∧ ck'.Tracks (offs ++ [o]) := by
  have hlen := h.exact hdvd
  refine ⟨{ ck with buf := ck.buf.set ck.n o, n := ck.n + 1 }, ?_, ?_, ?_, h.pos, ?_, ?_⟩
  · rw [Ckpts.append, put_some hn]
    rfl
  · simpa using hn
  · simpa using h.room
  · intro i hi
    rcases Nat.lt_succ_iff_lt_or_eq.mp hi with hlt | rfl
    · obtain ⟨x, hx, ho⟩ := h.entry i hlt
      refine ⟨x, (List.getElem?_set_ne hlt.ne').trans hx, ?_⟩
      rw [List.getElem?_append_left (List.getElem?_eq_some_iff.mp ho).1, ho]
    · refine ⟨o, List.getElem?_set_self hn, ?_⟩
      dsimp only
      rw [← hlen, List.getElem?_concat_length]
  · simp only [List.length_append, List.length_singleton, Nat.add_mul, Nat.one_mul]
    have := h.pos
    omega

theorem halve (h : ck.Tracks offs) (hfull : ck.n = ck.buf.length) :
    ∃ buf, thin ck.n ck.n ck.buf 0 0 = .some (buf, (ck.n + 1) / 2) ∧
      Ckpts.Tracks ⟨buf, (ck.n + 1) / 2, ck.stride * 2⟩ offs ∧ buf.length = ck.n := by
  obtain ⟨buf, hrun, hlen, -, hkeep⟩ :=
    thin_spec hfull.le (Nat.zero_le 0) (show ck.n ≤ 0 + ck.n by omega)
  have hroom := h.room
  refine ⟨buf, by simpa using hrun, ⟨?_, ?_, ?_, ?_, ?_⟩, hlen.trans hfull.symm⟩
  · dsimp only
    omega
  · exact hlen ▸ hroom
  · exact Nat.mul_pos h.pos (by omega)
  · intro i hi
    dsimp only at hi ⊢
    have hi2 : 2 * i < ck.n := by omega
    obtain ⟨o, hx, ho⟩ := h.entry (2 * i) hi2
    refine ⟨o, ?_, ?_⟩
    · rw [← hx, ← Nat.zero_add (2 * i), ← hkeep i (by omega), Nat.zero_add]
    · rw [← ho]
      congr 1
      ring
  · dsimp only
    calc offs.length ≤ ck.n * ck.stride := h.last
      _ ≤ ((ck.n + 1) / 2 * 2) * ck.stride := Nat.mul_le_mul_right _ (by omega)
      _ = (ck.n + 1) / 2 * (ck.stride * 2) := by ring

theorem record (h : ck.Tracks offs) (hsmall : offs.length < 2 ^ 32) (o : ℕ) :
    ∃ ck', ck.record offs.length o = .some ck' ∧ ck'.Tracks (offs ++ [o]) := by
  rw [Ckpts.record, remainder_some h.pos, Outcome.some_bind]
  by_cases hdvd : ck.stride ∣ offs.length
  · rw [if_neg (not_not.mpr (Nat.mod_eq_zero_of_dvd hdvd))]
    by_cases hfull : ck.n = ck.buf.length
    · obtain ⟨buf, hthin, htrack, hbuf⟩ := h.halve hfull
      have hexact := h.exact hdvd
      have hroom := h.room
      have hstride : ck.stride ≤ offs.length := by
        rw [hexact]
        exact Nat.le_mul_of_pos_left _ (by omega)
      rw [if_pos hfull, hthin, Outcome.some_bind]
      dsimp only
      rw [mulU64, if_pos (by omega), Outcome.some_bind, remainder_some htrack.pos,
        Outcome.some_bind]
      by_cases hdvd' : ck.stride * 2 ∣ offs.length
      · rw [if_neg (not_not.mpr (Nat.mod_eq_zero_of_dvd hdvd'))]
        refine htrack.append hdvd' ?_ o
        -- an odd full table leaves `count` off the doubled stride
        have heven : 2 ∣ ck.n := by
          rw [hexact, Nat.mul_comm ck.stride] at hdvd'
          exact Nat.dvd_of_mul_dvd_mul_right h.pos hdvd'
        dsimp only
        omega
      · rw [if_pos fun hz => hdvd' (Nat.dvd_of_mod_eq_zero hz)]
        exact ⟨_, rfl, htrack.skip hdvd' o⟩
    · rw [if_neg hfull]
      exact h.append hdvd (lt_of_le_of_ne h.fits hfull) o
  · rw [if_pos fun hz => hdvd (Nat.dvd_of_mod_eq_zero hz)]
    exact ⟨ck, rfl, h.skip hdvd o⟩

end Ckpts.Tracks

def Tracked (ck : Option Ckpts) (offs : List ℕ) : Prop := ∀ c, ck = some c → c.Tracks offs

theorem tracked_none (offs : List ℕ) : Tracked none offs := fun _ h => by cases h

theorem recordIn_spec {ck : Option Ckpts} {offs : List ℕ} (h : Tracked ck offs)
    (hsmall : offs.length < 2 ^ 32) (o : ℕ) :
    ∃ ck', recordIn ck offs.length o = .some ck' ∧ Tracked ck' (offs ++ [o]) ∧
      ck'.isSome = ck.isSome := by
  cases ck with
  | none => exact ⟨none, rfl, tracked_none _, rfl⟩
  | some c =>
    obtain ⟨c', hrec, htrack⟩ := (h c rfl).record hsmall o
    refine ⟨some c', ?_, ?_, rfl⟩
    · rw [recordIn, hrec]
      rfl
    · rintro _ ⟨⟩
      exact htrack

variable {blob : List UInt8} {n r seen count fuel p q step : ℕ} {done offs refs : List ℕ}
  {tag : Tag} {ck ck' : Option Ckpts}

theorem walk_ref (htag : readTag blob p = .some tag) (hobj : tag.ty = TYPE_OBJECT)
    (hlt : ck.isSome → tag.operand < count) (hlen : blob.length < 2 ^ 32 - 17) :
    walkLoop blob (fuel + 1) p (n + 1) count ck = walkLoop blob fuel (p + 4) n count ck := by
  have hin := (readTag_some htag).1
  rw [walkLoop, if_pos (Nat.succ_pos n), htag, Outcome.some_bind]
  dsimp only
  rw [if_pos hobj, if_neg fun h => absurd (hlt h.1) h.2.not_gt, addU32_some (by omega),
    Outcome.some_bind, Nat.add_sub_cancel]

theorem owe_eq (h : n + tag.arity < 2 ^ 64) : owe n tag = .some (n + tag.arity) := by
  unfold owe Tag.arity at *
  split
  · rename_i hc
    rw [if_pos hc] at h
    rw [checkedAdd, if_pos h]
  · rfl

theorem walk_item (htag : readTag blob p = .some tag) (hstep : scalarStep tag = .some step)
    (hin : p + step ≤ blob.length) (hlen : blob.length < 2 ^ 32 - 17)
    (hrec : recordIn ck count p = .some ck') (hrem : n + tag.arity < 2 ^ 64)
    (hcount : count + 1 < 2 ^ 32) :
    walkLoop blob (fuel + 1) p (n + 1) count ck =
      walkLoop blob fuel (p + step) (n + tag.arity) (count + 1) ck' := by
  have hobj := (scalarStep_some (readTag_some htag).2.1 hstep).2.2
  rw [walkLoop, if_pos (Nat.succ_pos n), htag, Outcome.some_bind]
  dsimp only
  rw [if_neg hobj, Nat.add_sub_cancel, owe_eq hrem, Outcome.some_bind, hstep, Outcome.some_bind,
    if_neg (by omega), hrec, Outcome.some_bind, checkedAdd, if_pos hcount, Outcome.some_bind,
    addU32_some (by omega), Outcome.some_bind]

theorem Items.walk (h : Items blob n seen p q offs refs) (hlen : blob.length < 2 ^ 32 - 17)
    (hck : Tracked ck done) (hseen : ck.isSome → done.length = seen) (hdone : 4 * done.length ≤ p)
    (hrem : n + r ≤ 1 + 2 ^ 25 * done.length) :
    ∃ ck', Tracked ck' (done ++ offs) ∧ ck'.isSome = ck.isSome ∧ ∃ k ≤ q - p, ∀ fuel,
      walkLoop blob (fuel + k) p (n + r) done.length ck =
        walkLoop blob fuel q r (done.length + offs.length) ck' := by
  induction h generalizing done ck r with
  | nil => exact ⟨ck, by simpa using hck, rfl, 0, Nat.zero_le _, fun fuel => by simp⟩
  | @ref n seen p q offs refs tag htag hobj hlt h ih =>
    obtain ⟨ck', hck', hsome, k, hk, hrun⟩ := ih hck hseen (by omega) (r := r) (by omega)
    have hle := h.le
    refine ⟨ck', hck', hsome, k + 1, by omega, fun fuel => ?_⟩
    rw [← hrun, ← Nat.add_assoc, Nat.add_right_comm n 1 r]
    exact walk_ref htag hobj (fun hs => by rw [hseen hs]; exact hlt) hlen
  | @item n seen p m q step kids offs kidRefs refs tag htag hstep hin hk h ihk ih =>
    have hop := (readTag_some htag).2.1
    obtain ⟨hge, -, -⟩ := scalarStep_some hop hstep
    have harity := arity_le hop
    obtain ⟨ck₁, hrec, hck₁, hsome₁⟩ := recordIn_spec hck (by omega) p
    have hlen₁ : (done ++ [p]).length = done.length + 1 := by simp
    obtain ⟨ck₂, hck₂, hsome₂, k, hkle, hrunk⟩ := ihk hck₁
      (fun hs => by rw [hlen₁, hseen (hsome₁ ▸ hs)]) (by omega) (r := n + r) (by omega)
    have hadv := hk.advance
    have hlen₂ : (done ++ [p] ++ kids).length = done.length + 1 + kids.length := by
      rw [List.length_append, hlen₁]
    obtain ⟨ck₃, hck₃, hsome₃, k', hk'le, hrun⟩ := ih hck₂
      (fun hs => by rw [hlen₂, hseen (hsome₁ ▸ hsome₂ ▸ hs)]) (by omega) (r := r) (by omega)
    have hle := h.le
    refine ⟨ck₃, by simpa using hck₃, hsome₃.trans (hsome₂.trans hsome₁), k' + k + 1, by omega,
      fun fuel => ?_⟩
    have hstart : walkLoop blob (fuel + k' + k + 1) p (n + r + 1) done.length ck =
        walkLoop blob (fuel + k' + k) (p + step) (n + r + tag.arity) (done.length + 1) ck₁ :=
      walk_item htag hstep hin hlen hrec (by omega) (by omega)
    have hkids := hrunk (fuel + k')
    rw [hlen₁] at hkids
    have hrest := hrun fuel
    rw [hlen₂] at hrest
    rw [Nat.add_right_comm n 1 r, ← Nat.add_assoc, ← Nat.add_assoc, hstart,
      Nat.add_comm (n + r), hkids, hrest]
    congr 1
    simp only [List.length_cons, List.length_append]
    omega

theorem walkLoop_spec {c : Ckpts} (hlen : blob.length < 2 ^ 32 - 17) (hck : c.Tracks done)
    (hp : p ≤ blob.length) (hdone : 4 * done.length ≤ p) (hn : n ≤ 1 + 2 ^ 25 * done.length)
    (hfuel : blob.length < p + fuel) :
    walkLoop blob fuel p n done.length (some c) = .none ∨
      ∃ q offs refs c', walkLoop blob fuel p n done.length (some c) =
        .some (q, done.length + offs.length, some c') ∧ c'.Tracks (done ++ offs) ∧
        Items blob n done.length p q offs refs := by
  induction fuel generalizing p n done c with
  | zero => omega
  | succ fuel ih =>
    cases n with
    | zero => exact .inr ⟨p, [], [], c, by simp [walkLoop], by simpa using hck, .nil⟩
    | succ n =>
      cases htag : readTag blob p with
      | fault f => exact absurd htag (readTag_safe blob p f)
      | none =>
        left
        rw [walkLoop, if_pos (Nat.succ_pos n), htag]
        rfl
      | some tag =>
        obtain ⟨hin, hop, -⟩ := readTag_some htag
        by_cases hobj : tag.ty = TYPE_OBJECT
        · by_cases hlt : tag.operand < done.length
          · rw [walk_ref htag hobj (fun _ => hlt) hlen]
            rcases ih hck hin (by omega) (n := n) (by omega) (by omega) with hnone | hsome
            · exact .inl hnone
            · obtain ⟨q, offs, refs, c', hrun, htrack, hitems⟩ := hsome
              exact .inr ⟨q, offs, _, c', hrun, htrack, .ref htag hobj hlt hitems⟩
          · left
            rw [walkLoop, if_pos (Nat.succ_pos n), htag, Outcome.some_bind]
            dsimp only
            rw [if_pos hobj, if_pos ⟨rfl, Nat.le_of_not_lt hlt⟩]
        · have harity := arity_le hop
          have hfail : ∀ {x : Outcome ℕ}, x = scalarStep tag → (x = .none ∨
              ∃ step, x = .some step ∧ ¬ p + step ≤ blob.length) →
              walkLoop blob (fuel + 1) p (n + 1) done.length (some c) = .none := by
            rintro x rfl hx
            rw [walkLoop, if_pos (Nat.succ_pos n), htag, Outcome.some_bind]
            dsimp only
            rw [if_neg hobj, Nat.add_sub_cancel, owe_eq (by omega), Outcome.some_bind]
            rcases hx with hx | ⟨step, hx, hout⟩
            · rw [hx]
              rfl
            · rw [hx, Outcome.some_bind, if_pos (by omega)]
          rcases scalarStep_spec hop with hnone | ⟨step, hstep, hge, hlt, -⟩
          · exact .inl (hfail rfl (.inl hnone))
          · by_cases hend : p + step ≤ blob.length
            · obtain ⟨c₁, hrec, htrack₁⟩ := hck.record (by omega) p
              have hrecIn : recordIn (some c) done.length p = .some (some c₁) := by
                rw [recordIn, hrec]
                rfl
              have hlen₁ : (done ++ [p]).length = done.length + 1 := by simp
              rw [walk_item htag hstep hend hlen hrecIn (by omega) (by omega), ← hlen₁]
              rcases ih htrack₁ hend (by omega) (n := n + tag.arity) (by omega) (by omega)
                with hnone | hsome
              · exact .inl hnone
              · obtain ⟨q, offs, refs, c', hrun, htrack, hitems⟩ := hsome
                right
                rw [Nat.add_comm n] at hitems
                obtain ⟨m, o₁, o₂, r₁, r₂, hkids, hrest, rfl, rfl⟩ := hitems.split
                rw [hlen₁] at hkids hrest
                refine ⟨q, p :: (o₁ ++ o₂), r₁ ++ r₂, c', ?_, by simpa using htrack,
                  .item htag hstep hend hkids hrest⟩
                rw [hrun, hlen₁]
                congr 2
                simp only [List.length_cons, List.length_append]
                congr 1
                omega
            · exact .inl (hfail rfl (.inr ⟨step, hstep, hend⟩))

end Ltop.Os
