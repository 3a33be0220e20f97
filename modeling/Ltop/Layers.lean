import Mathlib
import Ltop.Arena

namespace Ltop.Arena

theorem Layout.align_pow (l : Layout) : ∃ k ≤ 4, l.align = 2 ^ k := by
  have h := l.align_mem
  simp only [List.mem_cons, List.not_mem_nil, or_false] at h
  rcases h with h | h | h | h | h
  exacts [⟨0, by omega, h⟩, ⟨1, by omega, h⟩, ⟨2, by omega, h⟩, ⟨3, by omega, h⟩, ⟨4, by omega, h⟩]

theorem Layout.align_pos (l : Layout) : 0 < l.align := by
  obtain ⟨k, _, h⟩ := l.align_pow
  exact h ▸ Nat.two_pow_pos k

theorem Layout.align_dvd_SIZE (l : Layout) : l.align ∣ SIZE := by
  obtain ⟨k, hk, h⟩ := l.align_pow
  rw [h, show SIZE = 2 ^ 19 by decide]
  exact pow_dvd_pow 2 (by omega)

theorem alignUp_eq {cur : ℕ} (hcur : cur ≤ SIZE) (l : Layout) :
    alignUp cur l.align = Align.up cur l.align := by
  obtain ⟨k, hk, hpow⟩ := l.align_pow
  have hle : 2 ^ k ≤ 2 ^ 4 := Nat.pow_le_pow_right (by omega) hk
  have hpos := Nat.two_pow_pos k
  have hsmall : cur + (2 ^ k - 1) < 2 ^ 32 := by
    unfold SIZE at hcur
    omega
  have hlow : (2 ^ k - 1).toUInt32.toNat = 2 ^ k - 1 :=
    UInt32.toNat_ofNat_of_lt' (show 2 ^ k - 1 < 2 ^ 32 by omega)
  have hcast : (cur + (2 ^ k - 1)).toUInt32.toNat = cur + (2 ^ k - 1) :=
    UInt32.toNat_ofNat_of_lt' hsmall
  have hmask : (~~~(2 ^ k - 1).toUInt32).toNat = 2 ^ 32 - 2 ^ k := by
    rw [UInt32.toNat_not, hlow, show UInt32.size = 2 ^ 32 by decide]
    omega
  rw [hpow, alignUp, UInt32.toNat_and, hmask, hcast, Align.mask_eq hsmall (by omega)]
  rfl

theorem bump_some {offset size : ℕ} {l : Layout} {aligned newEnd : ℕ} (ho : offset ≤ SIZE)
    (h : bump offset size l.align = some (aligned, newEnd)) :
    aligned = Align.up offset l.align ∧ newEnd = aligned + size ∧ newEnd ≤ SIZE := by
  unfold bump at h
  rw [alignUp_eq ho] at h
  split at h
  · cases h
  · dsimp only at h
    split at h
    · obtain ⟨rfl, rfl⟩ := Prod.mk.inj (Option.some.inj h)
      exact ⟨rfl, rfl, ‹_›⟩
    · cases h

def Op.Sized : Op → Prop
  | .vec l capacity | .reserve l capacity => capacity.toNat * l.size < 2 ^ 64
  | _ => True

theorem reserveSize_eq {l : Layout} {capacity : UInt32} (h : capacity.toNat * l.size < 2 ^ 64) :
    State.reserveSize l capacity = capacity.toNat * l.size := by
  rw [State.reserveSize, Nat.mul_comm, Nat.mod_eq_of_lt h]

namespace Handle

def extent (h : Handle) : ℕ := h.offset + h.capacity * h.layout.size

def bytes (h : Handle) : Finset ℕ := Finset.Ico h.offset h.extent

structure Ok (h : Handle) : Prop where
  aligned : h.layout.align ∣ h.offset
  len_le : h.len ≤ h.capacity
  full : h.kind = .span ∨ h.kind = .builder → h.len = h.capacity

structure Edited (h h' : Handle) : Prop where
  id : h'.id = h.id
  layout : h'.layout = h.layout
  offset : h'.offset = h.offset
  capacity : h'.capacity ≤ h.capacity
  ok : h'.Ok
  reserve : h.kind = .reserve → h'.kind = .reserve ∧ h'.capacity = h.capacity

theorem Edited.refl {h : Handle} (hok : h.Ok) : Edited h h :=
  ⟨rfl, rfl, rfl, le_rfl, hok, fun hr => ⟨hr, rfl⟩⟩

theorem Edited.bytes_subset {h h' : Handle} (he : Edited h h') : h'.bytes ⊆ h.bytes := by
  refine Finset.Ico_subset_Ico he.offset.ge ?_
  rw [extent, extent, he.offset, he.layout]
  exact Nat.add_le_add_left (Nat.mul_le_mul_right _ he.capacity) _

theorem write_slot {h : Handle} {i n : ℕ} {xs : List UInt8} (hn : xs.length = n * h.layout.size)
    (hi : i + n ≤ h.capacity) (mem : Mem) {b : ℕ} (hb : b ∉ h.bytes) :
    Memory.write mem (h.slotPtr i) xs b = mem b := by
  have hmul : i * h.layout.size + n * h.layout.size ≤ h.capacity * h.layout.size := by
    rw [← Nat.add_mul]
    exact Nat.mul_le_mul_right _ hi
  refine Memory.write_outside mem ?_
  simp only [bytes, Finset.mem_Ico, extent, not_and_or, not_le, not_lt] at hb
  unfold slotPtr
  omega

end Handle

theorem flatten_length {src : List (List UInt8)} {size : ℕ} (h : ∀ value ∈ src, value.length = size) :
    src.flatten.length = src.length * size := by
  rw [List.length_flatten, List.map_congr_left h, List.map_const', List.sum_replicate, smul_eq_mul]

theorem Handle.push_spec {h : Handle} (hok : h.Ok) (hk : h.kind = .vec ∨ h.kind = .reserve)
    (mem : Mem) {value : List UInt8} (hv : value.length = h.layout.size) :
    h.Edited (h.push mem value).2 ∧ ∀ b ∉ h.bytes, (h.push mem value).1 b = mem b := by
  unfold push
  split
  · exact ⟨.refl hok, fun _ _ => rfl⟩
  · rename_i hroom
    refine ⟨⟨rfl, rfl, rfl, le_rfl, ⟨hok.aligned, ?_, ?_⟩, fun hr => ⟨hr, rfl⟩⟩, ?_⟩
    · exact Nat.lt_of_not_le hroom
    · rintro (h' | h') <;> rcases hk with hk | hk <;> cases hk.symm.trans h'
    · intro b hb
      exact write_slot (n := 1) (by omega) (by omega) mem hb

theorem Handle.extend_spec {h h' : Handle} (hok : h.Ok) (hk : h.kind = .vec ∨ h.kind = .reserve)
    {mem mem' : Mem} {src : List (List UInt8)} (hv : ∀ value ∈ src, value.length = h.layout.size)
    (he : h.extendFromSlice mem src = some (mem', h')) :
    h.Edited h' ∧ ∀ b ∉ h.bytes, mem' b = mem b := by
  unfold extendFromSlice at he
  dsimp only at he
  split at he
  · obtain ⟨rfl, rfl⟩ := Prod.mk.inj (Option.some.inj he)
    exact ⟨.refl hok, fun _ _ => rfl⟩
  · split at he
    · rename_i hroom
      obtain ⟨rfl, rfl⟩ := Prod.mk.inj (Option.some.inj he)
      refine ⟨⟨rfl, rfl, rfl, le_rfl, ⟨hok.aligned, hroom, ?_⟩, fun hr => ⟨hr, rfl⟩⟩, ?_⟩
      · rintro (h' | h') <;> rcases hk with hk | hk <;> cases hk.symm.trans h'
      · intro b hb
        exact write_slot (flatten_length hv) hroom mem hb
    · cases he

theorem Handle.set_spec {h h' : Handle} (hok : h.Ok) {mem mem' : Mem} {i : ℕ} {value : List UInt8}
    (hv : value.length = h.layout.size) (he : h.set mem i value = some (mem', h')) :
    h.Edited h' ∧ ∀ b ∉ h.bytes, mem' b = mem b := by
  unfold set at he
  split at he
  · rename_i hi
    obtain ⟨rfl, rfl⟩ := Prod.mk.inj (Option.some.inj he)
    refine ⟨.refl hok, fun b hb => ?_⟩
    have := hok.len_le
    exact write_slot (n := 1) (by omega) (by omega) mem hb
  · cases he

theorem Handle.shrink_spec {h : Handle} (hok : h.Ok) (hk : h.kind = .vec ∨ h.kind = .reserve)
    {len : ℕ} (hlen : len ≤ h.len) : h.Edited { h with len := len } := by
  refine ⟨rfl, rfl, rfl, le_rfl, ⟨hok.aligned, hlen.trans hok.len_le, ?_⟩, fun hr => ⟨hr, rfl⟩⟩
  rintro (h' | h') <;> rcases hk with hk | hk <;> cases hk.symm.trans h'

theorem Edit.apply_spec {e : Edit} {mem mem' : Mem} {h h' : Handle} (hok : h.Ok)
    (he : e.apply mem h = some (mem', h')) :
    h.Edited h' ∧ ∀ b ∉ h.bytes, mem' b = mem b := by
  have htwo : ∀ {k : Kind}, k ∈ [Kind.vec, .reserve] → k = .vec ∨ k = .reserve := by
    intro k hk
    simpa using hk
  cases e with
  | push value =>
    obtain ⟨⟨hk, hv⟩, he⟩ := Option.ite_none_right_eq_some.mp he
    have hspec := Handle.push_spec hok (htwo hk) mem hv
    rwa [Option.some.inj he] at hspec
  | pop =>
    obtain ⟨hk, he⟩ := Option.ite_none_right_eq_some.mp he
    obtain ⟨rfl, rfl⟩ := Prod.mk.inj (Option.some.inj he)
    refine ⟨?_, fun _ _ => rfl⟩
    unfold Handle.pop
    split
    · exact Handle.shrink_spec hok (.inl hk) le_rfl
    · exact Handle.shrink_spec hok (.inl hk) (Nat.sub_le _ _)
  | truncate newLen =>
    obtain ⟨hk, he⟩ := Option.ite_none_right_eq_some.mp he
    obtain ⟨rfl, rfl⟩ := Prod.mk.inj (Option.some.inj he)
    exact ⟨Handle.shrink_spec hok (htwo hk) (Nat.min_le_left _ _), fun _ _ => rfl⟩
  | extend src =>
    obtain ⟨⟨hk, hv⟩, he⟩ := Option.ite_none_right_eq_some.mp he
    exact Handle.extend_spec hok (htwo hk) hv he
  | set i value =>
    obtain ⟨⟨_, hv⟩, he⟩ := Option.ite_none_right_eq_some.mp he
    exact Handle.set_spec hok hv he
  | intoFspan =>
    obtain ⟨hk, he⟩ := Option.ite_none_right_eq_some.mp he
    obtain ⟨rfl, rfl⟩ := Prod.mk.inj (Option.some.inj he)
    refine ⟨⟨rfl, rfl, rfl, hok.len_le, ⟨hok.aligned, le_rfl, fun _ => rfl⟩, ?_⟩, fun _ _ => rfl⟩
    intro hr
    cases hk.symm.trans hr
  | intoFvec =>
    obtain ⟨hk, he⟩ := Option.ite_none_right_eq_some.mp he
    obtain ⟨rfl, rfl⟩ := Prod.mk.inj (Option.some.inj he)
    refine ⟨⟨rfl, rfl, rfl, hok.len_le, ⟨hok.aligned, le_rfl, fun _ => rfl⟩, ?_⟩, fun _ _ => rfl⟩
    intro hr
    cases hk.symm.trans hr

structure Fits (lo hi : ℕ) (h : Handle) : Prop where
  ok : h.Ok
  inside : h.bytes ⊆ Finset.Ico lo hi

def Frame.ceiling (f : Frame) (hi : ℕ) : ℕ := f.lock.elim hi Handle.offset

structure Frame.Ok (f : Frame) (hi : ℕ) : Prop where
  saved_le : f.saved ≤ f.ceiling hi
  live : ∀ h ∈ f.live, Fits f.saved (f.ceiling hi) h
  disjoint : f.live.Pairwise fun a b => Disjoint a.bytes b.bytes
  lock : ∀ h, f.lock = some h → h.Ok ∧ h.extent = hi

def Layered : ℕ → List Frame → Prop
  | _, [] => True
  | hi, f :: rest => f.Ok hi ∧ Layered f.saved rest

def Frame.handles (f : Frame) : List Handle := f.lock.toList ++ f.live

def handlesOf (frames : List Frame) : List Handle := frames.flatMap Frame.handles

def State.handles (s : State) : List Handle := handlesOf s.frames

theorem Fits.mono {lo lo' hi hi' : ℕ} {h : Handle} (hf : Fits lo hi h) (hlo : lo' ≤ lo)
    (hhi : hi ≤ hi') : Fits lo' hi' h :=
  ⟨hf.ok, hf.inside.trans (Finset.Ico_subset_Ico hlo hhi)⟩

theorem Frame.Ok.ceiling_le {f : Frame} {hi : ℕ} (h : f.Ok hi) : f.ceiling hi ≤ hi := by
  unfold ceiling
  cases hl : f.lock with
  | none => exact le_rfl
  | some k =>
    rw [← (h.lock k hl).2]
    exact Nat.le_add_right _ _

theorem Frame.Ok.fits {f : Frame} {hi : ℕ} (h : f.Ok hi) {k : Handle} (hk : k ∈ f.handles) :
    Fits f.saved hi k := by
  rcases List.mem_append.mp hk with hk | hk
  · have hlock : f.lock = some k := by simpa using hk
    obtain ⟨hok, hext⟩ := h.lock k hlock
    have hsaved := h.saved_le
    simp only [ceiling, hlock, Option.elim_some] at hsaved
    exact ⟨hok, Finset.Ico_subset_Ico hsaved hext.le⟩
  · exact (h.live k hk).mono le_rfl h.ceiling_le

theorem Frame.Ok.apart {f : Frame} {hi : ℕ} (h : f.Ok hi) :
    f.handles.Pairwise fun a b => Disjoint a.bytes b.bytes := by
  refine List.pairwise_append.mpr ⟨?_, h.disjoint, ?_⟩
  · cases f.lock <;> simp
  · intro a ha b hb
    have hlock : f.lock = some a := by simpa using ha
    have hfit := (h.live b hb).inside
    simp only [ceiling, hlock, Option.elim_some] at hfit
    exact (Finset.Ico_disjoint_Ico_consecutive f.saved a.offset a.extent).symm.mono_right hfit

theorem Layered.fits {hi : ℕ} {frames : List Frame} (h : Layered hi frames) {k : Handle}
    (hk : k ∈ handlesOf frames) : Fits 0 hi k := by
  induction frames generalizing hi with
  | nil => simp [handlesOf] at hk
  | cons f rest ih =>
    rcases List.mem_append.mp hk with hk | hk
    · exact (h.1.fits hk).mono (Nat.zero_le _) le_rfl
    · exact (ih h.2 hk).mono le_rfl (h.1.saved_le.trans h.1.ceiling_le)

theorem Layered.apart {hi : ℕ} {frames : List Frame} (h : Layered hi frames) :
    (handlesOf frames).Pairwise fun a b => Disjoint a.bytes b.bytes := by
  induction frames generalizing hi with
  | nil => exact .nil
  | cons f rest ih =>
    refine List.pairwise_append.mpr ⟨h.1.apart, ih h.2, ?_⟩
    intro a ha b hb
    have hlow := (h.2.fits hb).inside
    exact (Finset.Ico_disjoint_Ico_consecutive 0 f.saved hi).symm.mono (h.1.fits ha).inside hlow

structure Inv (s : State) : Prop where
  bounded : s.offset ≤ SIZE
  layered : Layered s.offset s.frames
  ids : (s.handles.map Handle.id).Nodup
  fresh : ∀ h ∈ s.handles, h.id < s.next

structure Kept (s s' : State) (target : Option ℕ) : Prop where
  same : ∀ h ∈ s'.handles, h.id ∈ s.handles.map Handle.id → some h.id ≠ target → h ∈ s.handles
  bytes : ∀ h ∈ s.handles, some h.id ≠ target → h ∈ s'.handles → ∀ b ∈ h.bytes, s'.mem b = s.mem b

variable {s s' : State} {f f' : Frame} {rest : List Frame} {hi o' n' : ℕ} {mem' : Mem}
  {target : Option ℕ}

theorem Frame.Ok.hold (hf : f.Ok hi) {h : Handle} (hok : h.Ok)
    (hin : h.bytes ⊆ Finset.Ico (f.ceiling hi) o') (ho : f.ceiling hi ≤ o') :
    Frame.Ok { f with live := h :: f.live, lock := none } o' := by
  refine ⟨hf.saved_le.trans ho, ?_, ?_, fun k hk => by cases hk⟩
  · rintro k (_ | ⟨_, hk⟩)
    · exact Fits.mono ⟨hok, hin⟩ hf.saved_le le_rfl
    · exact (hf.live k hk).mono le_rfl ho
  · refine List.pairwise_cons.mpr ⟨fun k hk => ?_, hf.disjoint⟩
    exact (Finset.Ico_disjoint_Ico_consecutive f.saved (f.ceiling hi) o').symm.mono hin
      (hf.live k hk).inside

theorem Frame.Ok.relock (hf : f.Ok hi) {lock : Option Handle}
    (hlock : ∀ k, lock = some k → k.Ok ∧ k.extent = o' ∧ f.ceiling hi ≤ k.offset)
    (ho : f.ceiling hi ≤ o') : Frame.Ok { f with lock := lock } o' := by
  have hceil : f.ceiling hi ≤ Frame.ceiling { f with lock := lock } o' := by
    unfold ceiling at *
    cases hl : lock with
    | none => exact ho
    | some k => exact (hlock k hl).2.2
  exact ⟨hf.saved_le.trans hceil, fun k hk => (hf.live k hk).mono le_rfl hceil, hf.disjoint,
    fun k hk => ⟨(hlock k hk).1, (hlock k hk).2.1⟩⟩

theorem Inv.replace {t : List Frame} (hs : Inv s) (hf : s.frames = t ++ rest) (hok : f'.Ok o')
    (hrest : Layered f'.saved rest) (hnd : (f'.handles.map Handle.id).Nodup)
    (hids : ∀ h ∈ f'.handles, h.id < n' ∧ (s.next ≤ h.id ∨
      h.id ∈ (handlesOf t).map Handle.id ∧ (some h.id ≠ target → h ∈ handlesOf t)))
    (hn : s.next ≤ n') (hb : o' ≤ SIZE)
    (hmem : ∀ h ∈ s.handles, some h.id ≠ target → h ∈ handlesOf (f' :: rest) →
      ∀ b ∈ h.bytes, mem' b = s.mem b) :
    Inv ⟨o', mem', f' :: rest, n'⟩ ∧ Kept s ⟨o', mem', f' :: rest, n'⟩ target := by
  have hhandles : s.handles = handlesOf t ++ handlesOf rest := by
    rw [State.handles, hf, handlesOf, List.flatMap_append]
    rfl
  have hids' := hs.ids
  have hfresh := hs.fresh
  rw [hhandles] at hids' hfresh
  rw [List.map_append, List.nodup_append] at hids'
  refine ⟨⟨hb, ⟨hok, hrest⟩, ?_, ?_⟩, ⟨?_, hmem⟩⟩
  · change ((f'.handles ++ handlesOf rest).map Handle.id).Nodup
    rw [List.map_append, List.nodup_append]
    refine ⟨hnd, hids'.2.1, ?_⟩
    rintro a ha b hb rfl
    obtain ⟨h, hh, rfl⟩ := List.mem_map.mp ha
    rcases (hids h hh).2 with hnew | ⟨hold, _⟩
    · obtain ⟨k, hk, hkid⟩ := List.mem_map.mp hb
      have := hfresh k (List.mem_append_right _ hk)
      omega
    · exact hids'.2.2 _ hold _ hb rfl
  · intro h hh
    rcases List.mem_append.mp hh with hh | hh
    · exact (hids h hh).1
    · exact (hfresh h (List.mem_append_right _ hh)).trans_le hn
  · intro h hh hold ht
    rw [hhandles]
    rcases List.mem_append.mp hh with hh | hh
    · rcases (hids h hh).2 with hnew | ⟨_, hsame⟩
      · obtain ⟨k, hk, hkid⟩ := List.mem_map.mp hold
        have := hs.fresh k hk
        omega
      · exact List.mem_append_left _ (hsame ht)
    · exact List.mem_append_right _ hh

theorem Inv.below (hs : Inv s) (hmem : ∀ b < s.offset, mem' b = s.mem b) {h : Handle}
    (hh : h ∈ s.handles) : ∀ b ∈ h.bytes, mem' b = s.mem b := fun b hb =>
  hmem b (Finset.mem_Ico.mp ((hs.layered.fits hh).inside hb)).2

theorem Inv.unique (hs : Inv s) {h k : Handle} (hh : h ∈ s.handles) (hk : k ∈ s.handles)
    (hid : h.id = k.id) : h = k := List.inj_on_of_nodup_map hs.ids hh hk hid

theorem Inv.disjoint (hs : Inv s) {h k : Handle} (hh : h ∈ s.handles) (hk : k ∈ s.handles)
    (hne : h ≠ k) : Disjoint h.bytes k.bytes :=
  have : Std.Symm fun a b : Handle => Disjoint a.bytes b.bytes := ⟨fun _ _ hab => hab.symm⟩
  hs.layered.apart.forall hh hk hne

theorem Inv.beside (hs : Inv s) {t : Handle} (ht : t ∈ s.handles)
    (hmem : ∀ b ∉ t.bytes, mem' b = s.mem b) {h : Handle} (hh : h ∈ s.handles)
    (hne : some h.id ≠ some t.id) : ∀ b ∈ h.bytes, mem' b = s.mem b := by
  intro b hb
  have hdisj : Disjoint h.bytes t.bytes := hs.disjoint hh ht fun heq => hne (heq ▸ rfl)
  exact hmem b (Finset.disjoint_left.mp hdisj hb)

theorem innermost_some {lock : Option Kind} (h : s.innermost lock = some (f, rest)) :
    s.frames = f :: rest ∧ f.lock.map Handle.kind = lock := by
  unfold State.innermost at h
  cases hfr : s.frames with
  | nil => simp [hfr] at h
  | cons g gs =>
    rw [hfr] at h
    dsimp only at h
    split at h
    · obtain ⟨rfl, rfl⟩ := Prod.mk.inj (Option.some.inj h)
      exact ⟨rfl, ‹_›⟩
    · cases h

theorem Inv.top (hs : Inv s) (hf : s.frames = f :: rest) : f.Ok s.offset := by
  have hl := hs.layered
  rw [hf] at hl
  exact hl.1

theorem Inv.top_ids (hs : Inv s) (hf : s.frames = f :: rest) :
    (f.handles.map Handle.id).Nodup := by
  have hids := hs.ids
  rw [State.handles, hf, handlesOf, List.flatMap_cons, List.map_append] at hids
  exact (List.nodup_append.mp hids).1

theorem Inv.top_mem (hf : s.frames = f :: rest) {h : Handle} (hh : h ∈ f.handles) :
    h ∈ s.handles := by
  rw [State.handles, hf]
  exact List.mem_append_left _ hh

theorem Inv.below_top (hs : Inv s) (hf : s.frames = f :: rest) : Layered f.saved rest := by
  have hl := hs.layered
  rw [hf] at hl
  exact hl.2

theorem Inv.gain (hs : Inv s) (hf : s.frames = f :: rest) (hlock : f.lock = none) {h : Handle}
    (hid : h.id = s.next) (hh : f'.handles = h :: f.live) (hsaved : f'.saved = f.saved)
    (hok : f'.Ok o') (hb : o' ≤ SIZE) (hmem : ∀ b < s.offset, mem' b = s.mem b) :
    Inv ⟨o', mem', f' :: rest, s.next + 1⟩ ∧
      Kept s ⟨o', mem', f' :: rest, s.next + 1⟩ none := by
  have hlive : f.handles = f.live := by simp [Frame.handles, hlock]
  have hold : ∀ k ∈ f.live, k.id < s.next := fun k hk =>
    hs.fresh k (Inv.top_mem hf (hlive ▸ hk))
  refine hs.replace (t := [f]) hf hok (hsaved ▸ hs.below_top hf) ?_ ?_ (Nat.le_succ _) hb
    fun k hk _ _ => hs.below hmem hk
  · rw [hh, List.map_cons, List.nodup_cons]
    refine ⟨fun hmem => ?_, hlive ▸ hs.top_ids hf⟩
    obtain ⟨k, hk, hkid⟩ := List.mem_map.mp hmem
    have := hold k hk
    omega
  · intro k hk
    rw [hh] at hk
    rcases List.mem_cons.mp hk with rfl | hk
    · exact ⟨by omega, .inl hid.ge⟩
    · have hin : k ∈ handlesOf [f] := by simpa [handlesOf, hlive] using hk
      exact ⟨Nat.lt_succ_of_lt (hold k hk), .inr ⟨List.mem_map_of_mem hin, fun _ => hin⟩⟩

theorem Inv.swap (hs : Inv s) (hf : s.frames = f :: rest) {h h' : Handle} (hlock : f.lock = some h)
    (hid : h'.id = h.id) (hh : f'.handles = h' :: f.live) (hsaved : f'.saved = f.saved)
    (hok : f'.Ok o') (hb : o' ≤ SIZE)
    (hmem : ∀ k ∈ s.handles, some k.id ≠ some h.id → ∀ b ∈ k.bytes, mem' b = s.mem b) :
    Inv ⟨o', mem', f' :: rest, s.next⟩ ∧
      Kept s ⟨o', mem', f' :: rest, s.next⟩ (some h.id) := by
  have hcons : f.handles = h :: f.live := by simp [Frame.handles, hlock]
  have hin : handlesOf [f] = h :: f.live := by simp [handlesOf, hcons]
  refine hs.replace (t := [f]) hf hok (hsaved ▸ hs.below_top hf) ?_ ?_ le_rfl hb
    fun k hk hne _ => hmem k hk hne
  · have := hs.top_ids hf
    rwa [hcons, List.map_cons, ← hid, ← List.map_cons, ← hh] at this
  · intro k hk
    rw [hh] at hk
    rw [hin]
    rcases List.mem_cons.mp hk with rfl | hk
    · rw [hid]
      exact ⟨hs.fresh h (Inv.top_mem hf (hcons ▸ List.mem_cons_self)),
        .inr ⟨List.mem_cons_self, fun hne => absurd rfl hne⟩⟩
    · have hmem : k ∈ h :: f.live := List.mem_cons_of_mem _ hk
      exact ⟨hs.fresh k (Inv.top_mem hf (hcons ▸ hmem)),
        .inr ⟨List.mem_map_of_mem hmem, fun _ => hmem⟩⟩

end Ltop.Arena
