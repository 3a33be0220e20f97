import Mathlib
import Ltop.Layers

namespace Ltop.Arena

variable {s s' : State} {f g : Frame} {rest : List Frame} {l : Layout} {capacity : UInt32}
  {value : List UInt8} {src : List (List UInt8)} {mem mem' : Mem} {a e n size : ℕ}

theorem ceiling_of_unlocked (hlock : f.lock = none) (hi : ℕ) : f.ceiling hi = hi := by
  simp [Frame.ceiling, hlock]

theorem ceiling_of_locked {h : Handle} (hlock : f.lock = some h) (hi : ℕ) :
    f.ceiling hi = h.offset := by
  simp [Frame.ceiling, hlock]

theorem unlocked (h : s.innermost none = some (f, rest)) :
    s.frames = f :: rest ∧ f.lock = none := by
  obtain ⟨hf, hl⟩ := innermost_some h
  exact ⟨hf, Option.map_eq_none_iff.mp hl⟩

theorem alloc_some (h : s.alloc l value = some s') : ∃ f rest a e,
    s.innermost none = some (f, rest) ∧ bump s.offset l.size l.align = some (a, e) ∧
      value.length = l.size ∧ s' =
        ⟨e, Memory.write s.mem a value, State.hold f rest ⟨s.next, .box, l, a, 1, 1⟩, s.next + 1⟩ := by
  simp only [State.alloc, Option.bind_eq_bind, Option.bind_eq_some_iff, Prod.exists] at h
  obtain ⟨f, rest, hin, a, e, hbump, h⟩ := h
  obtain ⟨hlen, h⟩ := Option.ite_none_right_eq_some.mp h
  exact ⟨f, rest, a, e, hin, hbump, hlen, (Option.some.inj h).symm⟩

theorem vec_some (h : s.vec l capacity = some s') : ∃ f rest a e,
    s.innermost none = some (f, rest) ∧
      bump s.offset (State.reserveSize l capacity) l.align = some (a, e) ∧ s' =
        ⟨e, s.mem, State.hold f rest ⟨s.next, .vec, l, a, 0, capacity.toNat⟩, s.next + 1⟩ := by
  simp only [State.vec, Option.bind_eq_bind, Option.bind_eq_some_iff, Prod.exists] at h
  obtain ⟨f, rest, hin, a, e, hbump, h⟩ := h
  exact ⟨f, rest, a, e, hin, hbump, (Option.some.inj h).symm⟩

theorem empty_some (h : s.empty l = some s') : ∃ f rest, s.innermost none = some (f, rest) ∧
    s' = ⟨s.offset, s.mem,
      State.hold f rest ⟨s.next, .span, l, alignUp s.offset l.align, 0, 0⟩, s.next + 1⟩ := by
  simp only [State.empty, Option.bind_eq_bind, Option.bind_eq_some_iff, Prod.exists] at h
  obtain ⟨f, rest, hin, h⟩ := h
  exact ⟨f, rest, hin, (Option.some.inj h).symm⟩

theorem scope_some (h : s.scope = some s') : s' = s.enter none := by
  unfold State.scope at h
  split at h
  · exact (Option.some.inj h).symm
  · obtain ⟨-, h⟩ := Option.ite_none_right_eq_some.mp h
    exact (Option.some.inj h).symm

theorem leave_some (h : s.leave = some s') : ∃ f rest, s.innermost none = some (f, rest) ∧
    f.result = none ∧ s' = ⟨f.saved, s.mem, rest, s.next⟩ := by
  simp only [State.leave, Option.bind_eq_bind, Option.bind_eq_some_iff, Prod.exists] at h
  obtain ⟨f, rest, hin, h⟩ := h
  obtain ⟨hres, h⟩ := Option.ite_none_right_eq_some.mp h
  exact ⟨f, rest, hin, hres, (Option.some.inj h).symm⟩

theorem compact_some (h : s.compact l = some s') : s' = s.enter (some l) := by
  simp only [State.compact, Option.bind_eq_bind, Option.bind_eq_some_iff] at h
  obtain ⟨-, -, h⟩ := h
  exact (Option.some.inj h).symm

theorem finish_some {id : ℕ} (h : s.finish id = some s') : ∃ f g rest r,
    (s.frames = f :: g :: rest ∧ f.lock = none) ∧ g.lock = none ∧ r ∈ f.live ∧ r.id = id ∧
      (f.result = some r.layout ∧ r.kind = .span) ∧
      s' = ⟨alignUp f.saved r.layout.align + r.len * r.layout.size,
        if alignUp f.saved r.layout.align ≠ r.offset ∧ r.len * r.layout.size > 0 then
          Memory.copyDown s.mem r.offset (alignUp f.saved r.layout.align) (r.len * r.layout.size)
        else s.mem,
        State.hold g rest { r with offset := alignUp f.saved r.layout.align }, s.next⟩ := by
  simp only [State.finish, Option.bind_eq_bind, Option.bind_eq_some_iff, Prod.exists] at h
  obtain ⟨f, frames, hin, g, rest, hin', r, hfind, h⟩ := h
  obtain ⟨hres, h⟩ := Option.ite_none_right_eq_some.mp h
  obtain ⟨rfl, hlock⟩ : frames = g :: rest ∧ g.lock = none := unlocked hin'
  exact ⟨f, g, rest, r, unlocked hin, hlock, List.mem_of_find?_eq_some hfind,
    by simpa using List.find?_some hfind, hres, (Option.some.inj h).symm⟩

theorem span_some (h : s.span l = some s') : ∃ f rest, s.innermost none = some (f, rest) ∧
    s' = ⟨alignUp s.offset l.align, s.mem, State.setLock f rest
      (some ⟨s.next, .builder, l, alignUp s.offset l.align, 0, 0⟩), s.next + 1⟩ := by
  simp only [State.span, Option.bind_eq_bind, Option.bind_eq_some_iff, Prod.exists] at h
  obtain ⟨f, rest, hin, h⟩ := h
  exact ⟨f, rest, hin, (Option.some.inj h).symm⟩

theorem push_some (h : s.push value = some s') : ∃ f rest k a e,
    s.innermost (some .builder) = some (f, rest) ∧ f.lock = some k ∧
      bump s.offset k.layout.size k.layout.align = some (a, e) ∧ value.length = k.layout.size ∧
      s' = ⟨e, Memory.write s.mem a value, State.setLock f rest
        (some { k with len := k.len + 1, capacity := k.capacity + 1 }), s.next⟩ := by
  simp only [State.push, Option.bind_eq_bind, Option.bind_eq_some_iff, Prod.exists] at h
  obtain ⟨f, rest, hin, k, hlock, a, e, hbump, h⟩ := h
  obtain ⟨hlen, h⟩ := Option.ite_none_right_eq_some.mp h
  exact ⟨f, rest, k, a, e, hin, hlock, hbump, hlen, (Option.some.inj h).symm⟩

theorem extend_some (h : s.extend src = some s') : (src = [] ∧ s' = s) ∨ ∃ f rest k a e,
    s.innermost (some .builder) = some (f, rest) ∧ f.lock = some k ∧
      bump s.offset (k.layout.size * src.length) k.layout.align = some (a, e) ∧
      s' = ⟨e, Memory.write s.mem a src.flatten, State.setLock f rest (some { k with
        len := k.len + src.length, capacity := k.capacity + src.length }), s.next⟩ := by
  simp only [State.extend, Option.bind_eq_bind, Option.bind_eq_some_iff] at h
  obtain ⟨⟨f, rest⟩, hin, k, hlock, h⟩ := h
  dsimp only at h
  split at h
  · exact .inl ⟨‹_›, (Option.some.inj h).symm⟩
  · obtain ⟨⟨a, e⟩, hbump, h⟩ := Option.bind_eq_some_iff.mp h
    obtain ⟨-, h⟩ := Option.ite_none_right_eq_some.mp h
    exact .inr ⟨f, rest, k, a, e, hin, hlock, hbump, (Option.some.inj h).symm⟩

theorem pop_some (h : s.pop = some s') : s' = s ∨ ∃ f rest k,
    s.innermost (some .builder) = some (f, rest) ∧ f.lock = some k ∧ k.len ≠ 0 ∧
      s' = ⟨s.offset - k.layout.size, s.mem, State.setLock f rest
        (some { k with len := k.len - 1, capacity := k.capacity - 1 }), s.next⟩ := by
  simp only [State.pop, Option.bind_eq_bind, Option.bind_eq_some_iff] at h
  obtain ⟨⟨f, rest⟩, hin, k, hlock, h⟩ := h
  dsimp only at h
  split at h
  · exact .inl (Option.some.inj h).symm
  · exact .inr ⟨f, rest, k, hin, hlock, ‹_›, (Option.some.inj h).symm⟩

theorem close_some (h : s.close = some s') : ∃ f rest k,
    s.innermost (some .builder) = some (f, rest) ∧ f.lock = some k ∧
      s' = ⟨s.offset, s.mem, State.hold f rest { k with kind := .span }, s.next⟩ := by
  simp only [State.close, Option.bind_eq_bind, Option.bind_eq_some_iff, Prod.exists] at h
  obtain ⟨f, rest, hin, k, hlock, h⟩ := h
  exact ⟨f, rest, k, hin, hlock, (Option.some.inj h).symm⟩

theorem reserve_some (h : s.reserve l capacity = some s') : ∃ f rest a e,
    s.innermost none = some (f, rest) ∧
      bump s.offset (State.reserveSize l capacity) l.align = some (a, e) ∧
      s' = ⟨e, s.mem, State.setLock f rest
        (some ⟨s.next, .reserve, l, a, 0, capacity.toNat⟩), s.next + 1⟩ := by
  simp only [State.reserve, Option.bind_eq_bind, Option.bind_eq_some_iff, Prod.exists] at h
  obtain ⟨f, rest, hin, a, e, hbump, h⟩ := h
  exact ⟨f, rest, a, e, hin, hbump, (Option.some.inj h).symm⟩

theorem editReserve_some {ed : Edit} (h : s.editReserve ed = some s') : ∃ f rest k mem k',
    s.innermost (some .reserve) = some (f, rest) ∧ f.lock = some k ∧
      ed.apply s.mem k = some (mem, k') ∧
      s' = ⟨s.offset, mem, State.setLock f rest (some k'), s.next⟩ := by
  simp only [State.editReserve, Option.bind_eq_bind, Option.bind_eq_some_iff, Prod.exists] at h
  obtain ⟨f, rest, hin, k, hlock, mem, k', hedit, h⟩ := h
  exact ⟨f, rest, k, mem, k', hin, hlock, hedit, (Option.some.inj h).symm⟩

theorem freeze_some (h : s.freeze = some s') : ∃ f rest k,
    s.innermost (some .reserve) = some (f, rest) ∧ f.lock = some k ∧
      s' = ⟨k.offset + k.len * k.layout.size, s.mem,
        State.hold f rest { k with kind := .span, capacity := k.len }, s.next⟩ := by
  simp only [State.freeze, Option.bind_eq_bind, Option.bind_eq_some_iff, Prod.exists] at h
  obtain ⟨f, rest, hin, k, hlock, h⟩ := h
  exact ⟨f, rest, k, hin, hlock, (Option.some.inj h).symm⟩

theorem dropReserve_some (h : s.dropReserve = some s') : ∃ f rest k,
    s.innermost (some .reserve) = some (f, rest) ∧ f.lock = some k ∧
      s' = ⟨k.offset, s.mem, State.setLock f rest none, s.next⟩ := by
  simp only [State.dropReserve, Option.bind_eq_bind, Option.bind_eq_some_iff, Prod.exists] at h
  obtain ⟨f, rest, hin, k, hlock, h⟩ := h
  exact ⟨f, rest, k, hin, hlock, (Option.some.inj h).symm⟩

theorem edit_some {id : ℕ} {ed : Edit} (h : s.edit id ed = some s') : ∃ k mem k',
    k ∈ s.frames.flatMap Frame.live ∧ k.id = id ∧ ed.apply s.mem k = some (mem, k') ∧
      s' = ⟨s.offset, mem, s.mapLive fun h => some (if h.id = id then k' else h), s.next⟩ := by
  simp only [State.edit, Option.bind_eq_bind, Option.bind_eq_some_iff, Prod.exists] at h
  obtain ⟨k, hfind, mem, k', hedit, h⟩ := h
  exact ⟨k, mem, k', List.mem_of_find?_eq_some hfind, by simpa using List.find?_some hfind, hedit,
    (Option.some.inj h).symm⟩

theorem write_below (hlow : n ≤ a) (mem : Mem) (xs : List UInt8) :
    ∀ b < n, Memory.write mem a xs b = mem b :=
  fun _ hb => Memory.write_outside mem (.inl (hb.trans_le hlow))

theorem Inv.hold_fresh (hs : Inv s) (h : s.innermost none = some (f, rest)) {kind : Kind}
    {len cap : ℕ} (hok : Handle.Ok ⟨s.next, kind, l, a, len, cap⟩) (hlow : s.offset ≤ a)
    (hend : a + cap * l.size ≤ e ∨ cap * l.size = 0) (ho : s.offset ≤ e) (hb : e ≤ SIZE)
    (hmem : ∀ b < s.offset, mem' b = s.mem b) :
    Inv ⟨e, mem', State.hold f rest ⟨s.next, kind, l, a, len, cap⟩, s.next + 1⟩ ∧
      Kept s ⟨e, mem', State.hold f rest ⟨s.next, kind, l, a, len, cap⟩, s.next + 1⟩ none := by
  obtain ⟨hf, hlock⟩ := unlocked h
  refine hs.gain hf hlock rfl rfl rfl ((hs.top hf).hold hok ?_ ?_) hb hmem
  · rw [ceiling_of_unlocked hlock]
    rcases hend with hend | hzero
    · exact Finset.Ico_subset_Ico hlow hend
    · rw [Handle.bytes, Handle.extent]
      dsimp only
      rw [hzero, Nat.add_zero, Finset.Ico_self]
      exact Finset.empty_subset _
  · rw [ceiling_of_unlocked hlock]
    exact ho

theorem Inv.lock_fresh (hs : Inv s) (h : s.innermost none = some (f, rest)) {kind : Kind}
    {len cap : ℕ} (hok : Handle.Ok ⟨s.next, kind, l, a, len, cap⟩) (hlow : s.offset ≤ a)
    (hend : a + cap * l.size = e) (hb : e ≤ SIZE) :
    Inv ⟨e, s.mem, State.setLock f rest (some ⟨s.next, kind, l, a, len, cap⟩), s.next + 1⟩ ∧
      Kept s ⟨e, s.mem, State.setLock f rest (some ⟨s.next, kind, l, a, len, cap⟩), s.next + 1⟩
        none := by
  obtain ⟨hf, hlock⟩ := unlocked h
  refine hs.gain hf hlock rfl rfl rfl ((hs.top hf).relock ?_ ?_) hb fun _ _ => rfl
  · rintro k ⟨⟩
    rw [ceiling_of_unlocked hlock]
    exact ⟨hok, hend, hlow⟩
  · rw [ceiling_of_unlocked hlock]
    omega

theorem alloc_spec (hs : Inv s) (h : s.alloc l value = some s') : Inv s' ∧ Kept s s' none := by
  obtain ⟨f, rest, a, e, hin, hbump, hlen, rfl⟩ := alloc_some h
  obtain ⟨rfl, rfl, hb⟩ := bump_some hs.bounded hbump
  have hlow := Align.le_up (n := s.offset) l.align_pos
  exact hs.hold_fresh hin ⟨Align.dvd_up _ _, le_rfl, fun _ => rfl⟩ hlow (.inl (by omega)) (by omega)
    hb (write_below hlow _ _)

theorem vec_spec (hs : Inv s) (hop : (Op.vec l capacity).Sized)
    (h : s.vec l capacity = some s') : Inv s' ∧ Kept s s' none := by
  obtain ⟨f, rest, a, e, hin, hbump, rfl⟩ := vec_some h
  obtain ⟨rfl, rfl, hb⟩ := bump_some hs.bounded hbump
  rw [reserveSize_eq hop] at hb
  have hlow := Align.le_up (n := s.offset) l.align_pos
  have hok : Handle.Ok ⟨s.next, .vec, l, Align.up s.offset l.align, 0, capacity.toNat⟩ :=
    ⟨Align.dvd_up _ _, Nat.zero_le _, fun hk => by simp at hk⟩
  rw [reserveSize_eq hop]
  exact hs.hold_fresh hin hok hlow (.inl le_rfl) (by omega) hb fun _ _ => rfl

theorem empty_spec (hs : Inv s) (h : s.empty l = some s') : Inv s' ∧ Kept s s' none := by
  obtain ⟨f, rest, hin, rfl⟩ := empty_some h
  rw [alignUp_eq hs.bounded]
  have hok : Handle.Ok ⟨s.next, .span, l, Align.up s.offset l.align, 0, 0⟩ :=
    ⟨Align.dvd_up _ _, le_rfl, fun _ => rfl⟩
  exact hs.hold_fresh hin hok (Align.le_up l.align_pos) (.inr (Nat.zero_mul _)) le_rfl hs.bounded
    fun _ _ => rfl

theorem span_spec (hs : Inv s) (h : s.span l = some s') : Inv s' ∧ Kept s s' none := by
  obtain ⟨f, rest, hin, rfl⟩ := span_some h
  rw [alignUp_eq hs.bounded]
  have hb : Align.up s.offset l.align ≤ SIZE :=
    Align.up_le l.align_pos l.align_dvd_SIZE hs.bounded
  have hok : Handle.Ok ⟨s.next, .builder, l, Align.up s.offset l.align, 0, 0⟩ :=
    ⟨Align.dvd_up _ _, le_rfl, fun _ => rfl⟩
  exact hs.lock_fresh hin hok (Align.le_up l.align_pos) (by omega) hb

theorem reserve_spec (hs : Inv s) (hop : (Op.reserve l capacity).Sized)
    (h : s.reserve l capacity = some s') :
    Inv s' ∧ Kept s s' none := by
  obtain ⟨f, rest, a, e, hin, hbump, rfl⟩ := reserve_some h
  obtain ⟨rfl, rfl, hb⟩ := bump_some hs.bounded hbump
  rw [reserveSize_eq hop] at hb
  have hok : Handle.Ok ⟨s.next, .reserve, l, Align.up s.offset l.align, 0, capacity.toNat⟩ :=
    ⟨Align.dvd_up _ _, Nat.zero_le _, fun hk => by simp at hk⟩
  rw [reserveSize_eq hop]
  exact hs.lock_fresh hin hok (Align.le_up l.align_pos) rfl hb

theorem enter_spec (hs : Inv s) (result : Option Layout) :
    Inv (s.enter result) ∧ Kept s (s.enter result) none := by
  have hok : Frame.Ok ⟨s.offset, result, [], none⟩ s.offset :=
    ⟨le_rfl, fun _ hh => absurd hh List.not_mem_nil, .nil, fun _ hk => by cases hk⟩
  exact ⟨⟨hs.bounded, ⟨hok, hs.layered⟩, hs.ids, hs.fresh⟩,
    ⟨fun _ hh _ _ => hh, fun _ _ _ _ _ _ => rfl⟩⟩

def State.owner (s : State) : Option ℕ := (s.frames.head?.bind Frame.lock).map Handle.id

theorem locked {kind : Kind} (h : s.innermost (some kind) = some (f, rest)) {k : Handle}
    (hlock : f.lock = some k) :
    s.frames = f :: rest ∧ k.kind = kind ∧ s.owner = some k.id := by
  obtain ⟨hf, hl⟩ := innermost_some h
  rw [hlock] at hl
  exact ⟨hf, Option.some.inj hl, by simp [State.owner, hf, hlock]⟩

theorem Inv.relock (hs : Inv s) (hf : s.frames = f :: rest) {h h' : Handle}
    (hlock : f.lock = some h) (hid : h'.id = h.id) (hok : h'.Ok) (hoff : h'.offset = h.offset)
    (hext : h'.extent = e) (hb : e ≤ SIZE)
    (hmem : ∀ k ∈ s.handles, some k.id ≠ some h.id → ∀ b ∈ k.bytes, mem' b = s.mem b) :
    Inv ⟨e, mem', State.setLock f rest (some h'), s.next⟩ ∧
      Kept s ⟨e, mem', State.setLock f rest (some h'), s.next⟩ (some h.id) := by
  refine hs.swap hf hlock hid rfl rfl ((hs.top hf).relock ?_ ?_) hb hmem
  · rintro k ⟨⟩
    rw [ceiling_of_locked hlock]
    exact ⟨hok, hext, hoff.ge⟩
  · rw [ceiling_of_locked hlock, ← hext, ← hoff]
    exact Nat.le_add_right _ _

theorem Inv.release (hs : Inv s) (hf : s.frames = f :: rest) {h h' : Handle}
    (hlock : f.lock = some h) (hid : h'.id = h.id) (hok : h'.Ok) (hoff : h'.offset = h.offset)
    (hext : h'.extent = e) (hb : e ≤ SIZE) :
    Inv ⟨e, s.mem, State.hold f rest h', s.next⟩ ∧
      Kept s ⟨e, s.mem, State.hold f rest h', s.next⟩ (some h.id) := by
  have hle : h'.offset ≤ e := hext ▸ Nat.le_add_right _ _
  refine hs.swap hf hlock hid rfl rfl ((hs.top hf).hold hok ?_ ?_) hb fun _ _ _ _ _ => rfl
  · rw [ceiling_of_locked hlock, ← hoff]
    exact Finset.Ico_subset_Ico le_rfl hext.le
  · rw [ceiling_of_locked hlock, ← hoff]
    exact hle

theorem Inv.lock_ok (hs : Inv s) (hf : s.frames = f :: rest) {h : Handle} (hlock : f.lock = some h) :
    h.Ok ∧ h.extent = s.offset := (hs.top hf).lock h hlock

theorem builder_grow (hs : Inv s) (hf : s.frames = f :: rest) {h : Handle} (hlock : f.lock = some h)
    (hk : h.kind = .builder) (hbump : bump s.offset (n * h.layout.size) h.layout.align = some (a, e))
    {xs : List UInt8} :
    Inv ⟨e, Memory.write s.mem a xs, State.setLock f rest
        (some { h with len := h.len + n, capacity := h.capacity + n }), s.next⟩ ∧
      Kept s ⟨e, Memory.write s.mem a xs, State.setLock f rest
        (some { h with len := h.len + n, capacity := h.capacity + n }), s.next⟩ (some h.id) := by
  obtain ⟨hok, hext⟩ := hs.lock_ok hf hlock
  obtain ⟨rfl, rfl, hb⟩ := bump_some hs.bounded hbump
  have hdvd : h.layout.align ∣ s.offset := by
    rw [← hext, Handle.extent]
    exact dvd_add hok.aligned (h.layout.align_dvd.mul_left _)
  rw [Align.up_of_dvd hdvd h.layout.align_pos] at hb ⊢
  have hfull := hok.full (.inr hk)
  refine hs.relock hf hlock rfl ⟨hok.aligned, by simpa using hok.len_le, fun _ => ?_⟩ rfl ?_ hb
    fun k hkm _ => hs.below (write_below le_rfl _ _) hkm
  · exact congrArg (· + n) hfull
  · rw [← hext]
    simp only [Handle.extent, Nat.add_mul, Nat.add_assoc]

theorem push_spec (hs : Inv s) (h : s.push value = some s') : Inv s' ∧ Kept s s' s.owner := by
  obtain ⟨f, rest, k, a, e, hin, hlock, hbump, -, rfl⟩ := push_some h
  obtain ⟨hf, hk, howner⟩ := locked hin hlock
  rw [howner]
  exact builder_grow hs hf hlock hk (by rwa [Nat.one_mul])

theorem extend_spec (hs : Inv s) (h : s.extend src = some s') : Inv s' ∧ Kept s s' s.owner := by
  rcases extend_some h with ⟨-, rfl⟩ | ⟨f, rest, k, a, e, hin, hlock, hbump, rfl⟩
  · exact ⟨hs, ⟨fun _ hh _ _ => hh, fun _ _ _ _ _ _ => rfl⟩⟩
  · obtain ⟨hf, hk, howner⟩ := locked hin hlock
    rw [howner]
    exact builder_grow hs hf hlock hk (by rwa [Nat.mul_comm])

theorem pop_spec (hs : Inv s) (h : s.pop = some s') : Inv s' ∧ Kept s s' s.owner := by
  rcases pop_some h with rfl | ⟨f, rest, k, hin, hlock, hne, rfl⟩
  · exact ⟨hs, ⟨fun _ hh _ _ => hh, fun _ _ _ _ _ _ => rfl⟩⟩
  · obtain ⟨hf, hk, howner⟩ := locked hin hlock
    obtain ⟨hok, hext⟩ := hs.lock_ok hf hlock
    have hfull := hok.full (.inr hk)
    rw [howner]
    refine hs.relock hf hlock rfl
      ⟨hok.aligned, Nat.sub_le_sub_right hok.len_le 1, fun _ => congrArg (· - 1) hfull⟩ rfl ?_
      ((Nat.sub_le _ _).trans hs.bounded) fun _ _ _ _ _ => rfl
    obtain ⟨c, hc⟩ : ∃ c, k.capacity = c + 1 := ⟨k.capacity - 1, by omega⟩
    rw [← hext, Handle.extent, Handle.extent, hc]
    simp only [Nat.add_sub_cancel, Nat.add_mul, Nat.one_mul, ← Nat.add_assoc]

theorem close_spec (hs : Inv s) (h : s.close = some s') : Inv s' ∧ Kept s s' s.owner := by
  obtain ⟨f, rest, k, hin, hlock, rfl⟩ := close_some h
  obtain ⟨hf, hk, howner⟩ := locked hin hlock
  obtain ⟨hok, hext⟩ := hs.lock_ok hf hlock
  rw [howner]
  exact hs.release hf hlock rfl ⟨hok.aligned, hok.len_le, fun _ => hok.full (.inr hk)⟩ rfl hext
    hs.bounded

theorem editReserve_spec {ed : Edit} (hs : Inv s) (h : s.editReserve ed = some s') :
    Inv s' ∧ Kept s s' s.owner := by
  obtain ⟨f, rest, k, mem', k', hin, hlock, hedit, rfl⟩ := editReserve_some h
  obtain ⟨hf, hk, howner⟩ := locked hin hlock
  obtain ⟨hok, hext⟩ := hs.lock_ok hf hlock
  obtain ⟨hed, hmem⟩ := Edit.apply_spec hok hedit
  have hkm : k ∈ s.handles := Inv.top_mem hf (by simp [Frame.handles, hlock])
  have hcap := (hed.reserve hk).2
  rw [howner]
  refine hs.relock hf hlock hed.id hed.ok hed.offset ?_ hs.bounded fun _ hh hne =>
    hs.beside hkm hmem hh hne
  rw [← hext, Handle.extent, Handle.extent, hed.offset, hed.layout, hcap]

theorem freeze_spec (hs : Inv s) (h : s.freeze = some s') : Inv s' ∧ Kept s s' s.owner := by
  obtain ⟨f, rest, k, hin, hlock, rfl⟩ := freeze_some h
  obtain ⟨hf, hk, howner⟩ := locked hin hlock
  obtain ⟨hok, hext⟩ := hs.lock_ok hf hlock
  have hle : k.offset + k.len * k.layout.size ≤ s.offset := by
    rw [← hext]
    exact Nat.add_le_add_left (Nat.mul_le_mul_right _ hok.len_le) _
  rw [howner]
  exact hs.release hf hlock rfl ⟨hok.aligned, le_rfl, fun _ => rfl⟩ rfl rfl (hle.trans hs.bounded)

theorem dropReserve_spec (hs : Inv s) (h : s.dropReserve = some s') :
    Inv s' ∧ Kept s s' s.owner := by
  obtain ⟨f, rest, k, hin, hlock, rfl⟩ := dropReserve_some h
  obtain ⟨hf, hk, howner⟩ := locked hin hlock
  obtain ⟨hok, hext⟩ := hs.lock_ok hf hlock
  have hcons : f.handles = k :: f.live := by simp [Frame.handles, hlock]
  have hle : k.offset ≤ s.offset := hext ▸ Nat.le_add_right _ _
  have hin : handlesOf [f] = k :: f.live := by simp [handlesOf, hcons]
  refine hs.replace (t := [f]) hf ((hs.top hf).relock (fun _ hk => by cases hk) ?_)
    (show Layered f.saved rest from hs.below_top hf) ?_ ?_ le_rfl (hle.trans hs.bounded)
    fun _ _ _ _ _ _ => rfl
  · exact (ceiling_of_locked hlock _).le
  · have hnd := hs.top_ids hf
    rw [hcons] at hnd
    exact (List.nodup_cons.mp hnd).2
  · intro h hh
    have hmem : h ∈ k :: f.live := List.mem_cons_of_mem _ hh
    rw [hin]
    exact ⟨hs.fresh h (Inv.top_mem hf (hcons ▸ hmem)),
      .inr ⟨List.mem_map_of_mem hmem, fun _ => hmem⟩⟩

theorem scope_spec (hs : Inv s) (h : s.scope = some s') : Inv s' ∧ Kept s s' none :=
  scope_some h ▸ enter_spec hs none

theorem compact_spec (hs : Inv s) (h : s.compact l = some s') : Inv s' ∧ Kept s s' none :=
  compact_some h ▸ enter_spec hs (some l)

theorem Inv.saved_le (hs : Inv s) (hf : s.frames = f :: rest) : f.saved ≤ s.offset :=
  (hs.top hf).saved_le.trans (hs.top hf).ceiling_le

theorem leave_spec (hs : Inv s) (h : s.leave = some s') : Inv s' ∧ Kept s s' none := by
  obtain ⟨f, rest, hin, -, rfl⟩ := leave_some h
  obtain ⟨hf, _⟩ := unlocked hin
  have hhandles : s.handles = f.handles ++ handlesOf rest := by rw [State.handles, hf]; rfl
  have hids := hs.ids
  rw [hhandles, List.map_append] at hids
  have hin : ∀ k ∈ handlesOf rest, k ∈ s.handles := fun k hk =>
    hhandles ▸ List.mem_append_right _ hk
  exact ⟨⟨(hs.saved_le hf).trans hs.bounded, hs.below_top hf, (List.nodup_append.mp hids).2.1,
    fun k hk => hs.fresh k (hin k hk)⟩, ⟨fun k hk _ _ => hin k hk, fun _ _ _ _ _ _ => rfl⟩⟩

theorem slid_below {src dst len b : ℕ} (mem : Mem) (hb : b < dst) :
    (if dst ≠ src ∧ len > 0 then Memory.copyDown mem src dst len else mem) b = mem b := by
  split
  · exact Memory.copyDown_outside _ _ (.inl hb)
  · rfl

theorem slid_moved {src dst len i : ℕ} (mem : Mem) (hle : dst ≤ src) (hi : i < len) :
    (if dst ≠ src ∧ len > 0 then Memory.copyDown mem src dst len else mem) (dst + i) =
      mem (src + i) := by
  split
  · exact Memory.copyDown_moved _ hle hi
  · rename_i hstay
    have : dst = src := by
      by_contra hne
      exact hstay ⟨hne, by omega⟩
    rw [this]

theorem Fits.slide {lo hi : ℕ} {r : Handle} (hfit : Fits lo hi r) (hlo : lo ≤ SIZE)
    (hhi : hi ≤ SIZE) :
    (0 < r.capacity * r.layout.size → Align.up lo r.layout.align ≤ r.offset) ∧
      Align.up lo r.layout.align + r.capacity * r.layout.size ≤ SIZE := by
  have hdst : Align.up lo r.layout.align ≤ SIZE :=
    Align.up_le r.layout.align_pos r.layout.align_dvd_SIZE hlo
  have hsrc : 0 < r.capacity * r.layout.size →
      Align.up lo r.layout.align ≤ r.offset ∧ r.offset + r.capacity * r.layout.size ≤ hi := by
    intro hpos
    have hbytes : r.offset < r.extent := Nat.lt_add_of_pos_right hpos
    obtain ⟨hlow, hhigh⟩ := (Finset.Ico_subset_Ico_iff hbytes).mp hfit.inside
    exact ⟨Align.up_le r.layout.align_pos hfit.ok.aligned hlow, hhigh⟩
  refine ⟨fun hpos => (hsrc hpos).1, ?_⟩
  rcases Nat.eq_zero_or_pos (r.capacity * r.layout.size) with hzero | hpos
  · omega
  · have := hsrc hpos
    omega

structure Finished (s : State) (id : ℕ) (s' : State) (f : Frame) (r r' : Handle) : Prop where
  frame : ∃ rest, s.frames = f :: rest
  result : f.result = some r.layout
  mem : r ∈ f.live
  id : r.id = id
  full : r.len = r.capacity
  moved : r' = { r with offset := Align.up f.saved r.layout.align }
  held : r' ∈ s'.handles
  offset : s'.offset = r'.extent
  bytes : ∀ i < r.capacity * r.layout.size, s'.mem (r'.offset + i) = s.mem (r.offset + i)

theorem finish_spec {id : ℕ} (hs : Inv s) (h : s.finish id = some s') :
    (Inv s' ∧ Kept s s' (some id)) ∧ ∃ f r r', Finished s id s' f r r' := by
  obtain ⟨f, g, rest, r, ⟨hf, hlock⟩, hlock', hr, hrid, ⟨hres, hspan⟩, rfl⟩ := finish_some h
  have hfit := (hs.top hf).live r hr
  have hsaved := (hs.saved_le hf).trans hs.bounded
  have hfull : r.len = r.capacity := hfit.ok.full (.inl hspan)
  have hbytes : r.len * r.layout.size = r.capacity * r.layout.size := by rw [hfull]
  rw [alignUp_eq hsaved, hbytes]
  have hlow : f.saved ≤ Align.up f.saved r.layout.align := Align.le_up r.layout.align_pos
  obtain ⟨hsrc, hend⟩ := hfit.slide hsaved ((hs.top hf).ceiling_le.trans hs.bounded)
  have hlayers := hs.below_top hf
  have hg := hlayers.1
  have hceil := ceiling_of_unlocked hlock' f.saved
  have hids := hs.ids
  rw [State.handles, hf, handlesOf, List.flatMap_cons, List.map_append] at hids
  have hglive : g.handles = g.live := by simp [Frame.handles, hlock']
  have hfr : r ∈ f.handles := List.mem_append_right _ hr
  have hnew : ∀ k ∈ handlesOf (g :: rest), k.id ≠ r.id := fun k hk heq =>
    (List.nodup_append.mp hids).2.2 _ (List.mem_map_of_mem hfr) _ (List.mem_map_of_mem hk) heq.symm
  have hin_s : ∀ k ∈ g.live, k ∈ handlesOf [f, g] := fun k hk => by
    simp [handlesOf, hglive, hk]
  have hin_r : r ∈ handlesOf [f, g] := List.mem_append_left _ hfr
  have hsub : ∀ k ∈ handlesOf [f, g], k ∈ s.handles := fun k hk => by
    rw [State.handles, hf]
    simp only [handlesOf, List.flatMap_cons, List.flatMap_nil, List.append_nil] at hk ⊢
    rw [← List.append_assoc]
    exact List.mem_append_left _ hk
  refine ⟨?_, f, r, { r with offset := Align.up f.saved r.layout.align },
    ⟨_, hf⟩, hres, hr, hrid, hfull, rfl, ?_, rfl, ?_⟩
  · refine hs.replace (t := [f, g]) hf (hg.hold ⟨Align.dvd_up _ _, hfit.ok.len_le,
      hfit.ok.full⟩ ?_ ?_) hlayers.2 ?_ ?_ le_rfl hend ?_
    · rw [hceil]
      exact Finset.Ico_subset_Ico hlow le_rfl
    · rw [hceil]
      omega
    · refine List.nodup_cons.mpr ⟨fun hmem => ?_, ?_⟩
      · obtain ⟨k, hk, hkid⟩ := List.mem_map.mp hmem
        exact hnew k (List.mem_append_left _ (hglive ▸ hk)) hkid
      · have hnd := (List.nodup_append.mp hids).2.1
        rw [List.flatMap_cons, List.map_append, hglive] at hnd
        exact (List.nodup_append.mp hnd).1
    · rintro k (_ | ⟨_, hk⟩)
      · exact ⟨hs.fresh r (hsub r hin_r),
          .inr ⟨List.mem_map.mpr ⟨r, hin_r, rfl⟩, fun hne => absurd (congrArg some hrid) hne⟩⟩
      · have hk' := hin_s k hk
        exact ⟨hs.fresh k (hsub k hk'), .inr ⟨List.mem_map_of_mem hk', fun _ => hk'⟩⟩
    · intro k _ hne hk b hb
      rcases List.mem_append.mp hk with hk | hk
      · rcases List.mem_cons.mp hk with rfl | hk
        · exact absurd (congrArg some hrid) hne
        · have := (hg.live k hk).inside hb
          rw [hceil, Finset.mem_Ico] at this
          exact slid_below _ (this.2.trans_le hlow)
      · have := (hlayers.2.fits hk).inside hb
        have := hg.saved_le.trans_eq hceil
        simp only [Finset.mem_Ico] at *
        exact slid_below _ (by omega)
  · exact List.mem_append_left _ List.mem_cons_self
  · exact fun i hi => slid_moved _ (hsrc (by omega)) hi

theorem Frame.Ok.filterMap {hi : ℕ} (hf : f.Ok hi) {t : Handle → Option Handle}
    (ht : ∀ h ∈ f.live, ∀ h', t h = some h' → h.Edited h') :
    Frame.Ok { f with live := f.live.filterMap t } hi := by
  refine ⟨hf.saved_le, ?_, ?_, hf.lock⟩
  · intro h' hh'
    obtain ⟨h, hh, heq⟩ := List.mem_filterMap.mp hh'
    have hed := ht h hh h' heq
    exact ⟨hed.ok, hed.bytes_subset.trans (hf.live h hh).inside⟩
  · rw [List.pairwise_filterMap]
    refine hf.disjoint.imp_of_mem fun {a b} ha hb hab a' ha' b' hb' => ?_
    exact hab.mono (ht a ha a' ha').bytes_subset (ht b hb b' hb').bytes_subset

theorem mapLive_layered {t : Handle → Option Handle} {frames : List Frame} {hi : ℕ}
    (hl : Layered hi frames) (ht : ∀ h ∈ frames.flatMap Frame.live, ∀ h', t h = some h' → h.Edited h') :
    Layered hi (frames.map fun f => { f with live := f.live.filterMap t }) := by
  induction frames generalizing hi with
  | nil => trivial
  | cons f rest ih =>
    exact ⟨hl.1.filterMap fun h hh => ht h (List.mem_append_left _ hh),
      ih hl.2 fun h hh => ht h (List.mem_append_right _ hh)⟩

theorem filterMap_ids {t : Handle → Option Handle} {live : List Handle}
    (ht : ∀ h ∈ live, ∀ h', t h = some h' → h'.id = h.id) :
    ((live.filterMap t).map Handle.id).Sublist (live.map Handle.id) := by
  induction live with
  | nil => exact .slnil
  | cons h live ih =>
    have ih := ih fun k hk => ht k (List.mem_cons_of_mem _ hk)
    cases heq : t h with
    | none =>
      rw [List.filterMap_cons_none heq, List.map_cons]
      exact ih.cons _
    | some h' =>
      rw [List.filterMap_cons_some heq, List.map_cons, List.map_cons, ht h List.mem_cons_self h' heq]
      exact ih.cons_cons _

theorem mapLive_ids {t : Handle → Option Handle} {frames : List Frame}
    (ht : ∀ h ∈ frames.flatMap Frame.live, ∀ h', t h = some h' → h'.id = h.id) :
    ((handlesOf (frames.map fun f => { f with live := f.live.filterMap t })).map Handle.id).Sublist
      ((handlesOf frames).map Handle.id) := by
  induction frames with
  | nil => exact .slnil
  | cons f rest ih =>
    simp only [handlesOf, List.map_cons, List.flatMap_cons, List.map_append, Frame.handles] at ih ⊢
    refine ((List.Sublist.refl _).append ?_).append (ih fun h hh => ht h ?_)
    · exact filterMap_ids fun h hh => ht h (List.mem_append_left _ hh)
    · exact List.mem_append_right _ hh

theorem live_sub_handles {h : Handle} (hh : h ∈ s.frames.flatMap Frame.live) : h ∈ s.handles := by
  obtain ⟨f, hf, hh⟩ := List.mem_flatMap.mp hh
  exact List.mem_flatMap.mpr ⟨f, hf, List.mem_append_right _ hh⟩

theorem mem_mapLive {t : Handle → Option Handle} {h' : Handle}
    (hh : h' ∈ handlesOf (s.mapLive t)) :
    h' ∈ s.handles ∨ ∃ h ∈ s.frames.flatMap Frame.live, t h = some h' := by
  obtain ⟨f', hf', hh⟩ := List.mem_flatMap.mp hh
  obtain ⟨f, hf, rfl⟩ := List.mem_map.mp hf'
  rcases List.mem_append.mp hh with hh | hh
  · exact .inl (List.mem_flatMap.mpr ⟨f, hf, List.mem_append_left _ hh⟩)
  · obtain ⟨h, hlive, heq⟩ := List.mem_filterMap.mp hh
    exact .inr ⟨h, List.mem_flatMap.mpr ⟨f, hf, hlive⟩, heq⟩

theorem Inv.mapLive (hs : Inv s) {t : Handle → Option Handle} {target : Option ℕ}
    (ht : ∀ h ∈ s.frames.flatMap Frame.live, ∀ h', t h = some h' → h.Edited h')
    (hsame : ∀ h ∈ s.frames.flatMap Frame.live, ∀ h', t h = some h' → some h.id ≠ target → h' = h)
    (hmem : ∀ h ∈ s.handles, some h.id ≠ target → ∀ b ∈ h.bytes, mem' b = s.mem b) :
    Inv { s with mem := mem', frames := s.mapLive t } ∧
      Kept s { s with mem := mem', frames := s.mapLive t } target := by
  refine ⟨⟨hs.bounded, mapLive_layered hs.layered ht, ?_, ?_⟩, ?_, fun h hh hne _ => hmem h hh hne⟩
  · exact (mapLive_ids fun h hh h' heq => (ht h hh h' heq).id).nodup hs.ids
  · intro h' hh'
    rcases mem_mapLive hh' with hh' | ⟨h, hlive, heq⟩
    · exact hs.fresh h' hh'
    · exact (ht h hlive h' heq).id ▸ hs.fresh h (live_sub_handles hlive)
  · intro h' hh' _ hne
    rcases mem_mapLive hh' with hh' | ⟨h, hlive, heq⟩
    · exact hh'
    · obtain rfl := hsame h hlive h' heq ((ht h hlive h' heq).id ▸ hne)
      exact live_sub_handles hlive

theorem edit_edits {k k' : Handle} (hs : Inv s) (hk : k ∈ s.handles) (hed : k.Edited k') :
    ∀ h ∈ s.frames.flatMap Frame.live, ∀ h', some (if h.id = k.id then k' else h) = some h' →
      h.Edited h' := by
  rintro h hh _ ⟨⟩
  split
  · rename_i hid
    rwa [hs.unique (live_sub_handles hh) hk hid]
  · exact Handle.Edited.refl (hs.layered.fits (live_sub_handles hh)).ok

theorem drop_edits {id : ℕ} (hs : Inv s) :
    ∀ h ∈ s.frames.flatMap Frame.live, ∀ h', (if h.id = id then none else some h) = some h' →
      h.Edited h' := by
  intro h hh h' heq
  obtain ⟨-, heq⟩ := Option.ite_none_left_eq_some.mp heq
  obtain rfl := Option.some.inj heq
  exact Handle.Edited.refl (hs.layered.fits (live_sub_handles hh)).ok

theorem edit_spec {id : ℕ} {ed : Edit} (hs : Inv s) (h : s.edit id ed = some s') :
    Inv s' ∧ Kept s s' (some id) := by
  obtain ⟨k, mem', k', hlive, hkid, hedit, rfl⟩ := edit_some h
  have hk := live_sub_handles hlive
  obtain ⟨hed, hmem⟩ := Edit.apply_spec (hs.layered.fits hk).ok hedit
  subst hkid
  refine hs.mapLive (edit_edits hs hk hed) ?_ fun h hh hne => hs.beside hk hmem hh hne
  rintro h hh _ ⟨⟩ hne
  exact if_neg fun hid => hne (congrArg some hid)

theorem drop_spec {id : ℕ} (hs : Inv s) : Inv (s.drop id) ∧ Kept s (s.drop id) none := by
  refine hs.mapLive (drop_edits hs) ?_ fun _ _ _ _ _ => rfl
  intro h hh h' heq _
  obtain ⟨_, heq⟩ := Option.ite_none_left_eq_some.mp heq
  exact (Option.some.inj heq).symm

def Op.target (s : State) : Op → Option ℕ
  | .push _ | .extend _ | .pop | .close | .editReserve _ | .freeze | .dropReserve => s.owner
  | .edit id _ | .finish id => some id
  | _ => none

theorem step_spec {op : Op} (hs : Inv s) (hop : op.Sized) (h : s.step op = some s') :
    Inv s' ∧ Kept s s' (op.target s) := by
  cases op with
  | alloc l value => exact alloc_spec hs h
  | vec l capacity => exact vec_spec hs hop h
  | empty l => exact empty_spec hs h
  | scope => exact scope_spec hs h
  | leave => exact leave_spec hs h
  | compact l => exact compact_spec hs h
  | finish result => exact (finish_spec hs h).1
  | span l => exact span_spec hs h
  | push value => exact push_spec hs h
  | extend src => exact extend_spec hs h
  | pop => exact pop_spec hs h
  | close => exact close_spec hs h
  | reserve l capacity => exact reserve_spec hs hop h
  | editReserve ed => exact editReserve_spec hs h
  | freeze => exact freeze_spec hs h
  | dropReserve => exact dropReserve_spec hs h
  | edit id ed => exact edit_spec hs h
  | drop id =>
    obtain rfl := Option.some.inj h
    exact drop_spec hs

theorem init_inv : Inv .init :=
  ⟨Nat.zero_le _, trivial, .nil, fun _ hh => absurd hh List.not_mem_nil⟩

theorem run_inv {ops : List Op} (hs : Inv s) (hops : ∀ op ∈ ops, op.Sized)
    (h : s.run ops = some s') : Inv s' := by
  induction ops generalizing s with
  | nil => exact Option.some.inj h ▸ hs
  | cons op ops ih =>
    obtain ⟨s₁, hstep, h⟩ := Option.bind_eq_some_iff.mp h
    exact ih (step_spec hs (hops op List.mem_cons_self) hstep).1
      (fun op hop => hops op (List.mem_cons_of_mem _ hop)) h

end Ltop.Arena
