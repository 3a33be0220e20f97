import Mathlib
import Ltop.ArenaTrace

namespace Ltop.Arena

open ArenaSvg (Event logged Rising)

variable {α : Type} {s s' : State} {f f' : Frame} {rest frames : List Frame} {c c' o' n' : ℕ}
  {mem' : Mem} {label : α}

structure Placeable (h : Handle) : Prop where
  ok : h.Ok
  inside : h.offset ≤ SIZE

structure Logging (s : State) (c : ℕ) : Prop where
  room : s.offset ≤ SIZE
  below : c ≤ s.offset
  saved : ∀ f ∈ s.frames, f.saved ≤ SIZE
  held : ∀ h ∈ s.handles, Placeable h
  builder : ∀ f rest h, s.frames = f :: rest → f.lock = some h → h.kind = .builder →
    c ≤ h.offset ∧ h.extent = s.offset
  under : ∀ f ∈ s.frames.tail, ∀ h, f.lock = some h → h.kind ≠ .builder

theorem Logging.replace {t : List Frame} (hs : Logging s c) (hf : s.frames = t ++ rest) (ht : t ≠ [])
    (hsaved : f'.saved ≤ SIZE) (hheld : ∀ h ∈ f'.handles, Placeable h) (ho : o' ≤ SIZE)
    (hc : c' ≤ o')
    (hlock : ∀ h, f'.lock = some h → h.kind = .builder → c' ≤ h.offset ∧ h.extent = o') :
    Logging ⟨o', mem', f' :: rest, n'⟩ c' := by
  refine ⟨ho, hc, ?_, ?_, ?_, ?_⟩
  · rintro g (_ | ⟨_, hg⟩)
    · exact hsaved
    · exact hs.saved g (hf ▸ List.mem_append_right _ hg)
  · intro h hh
    rcases List.mem_append.mp hh with hh | hh
    · exact hheld h hh
    · refine hs.held h ?_
      rw [State.handles, hf, handlesOf, List.flatMap_append]
      exact List.mem_append_right _ hh
  · rintro g gs h ⟨⟩ hl hk
    exact hlock h hl hk
  · intro g hg h hl
    refine hs.under g ?_ h hl
    obtain ⟨a, t, rfl⟩ := List.exists_cons_of_ne_nil ht
    rw [hf, List.cons_append, List.tail_cons]
    exact List.mem_append_right _ hg

theorem Logging.top_saved (hs : Logging s c) (hf : s.frames = f :: rest) : f.saved ≤ SIZE :=
  hs.saved f (hf ▸ List.mem_cons_self)

theorem Logging.top_live (hs : Logging s c) (hf : s.frames = f :: rest) {h : Handle}
    (hh : h ∈ f.live) : Placeable h :=
  hs.held h (List.mem_flatMap.mpr ⟨f, hf ▸ List.mem_cons_self, List.mem_append_right _ hh⟩)

theorem Logging.top_lock (hs : Logging s c) (hf : s.frames = f :: rest) {h : Handle}
    (hl : f.lock = some h) : Placeable h :=
  hs.held h (List.mem_flatMap.mpr ⟨f, hf ▸ List.mem_cons_self,
    List.mem_append_left _ (by simp [hl])⟩)

theorem Logging.hold (hs : Logging s c) (hf : s.frames = f :: rest) {h : Handle} (hh : Placeable h)
    (ho : o' ≤ SIZE) (hc : c' ≤ o') : Logging ⟨o', mem', State.hold f rest h, n'⟩ c' := by
  have hsaved := hs.top_saved hf
  refine hs.replace (t := [f]) hf (List.cons_ne_nil _ _) hsaved ?_ ho hc fun k hk => nomatch hk
  rintro k (_ | ⟨_, hk⟩)
  · exact hh
  · exact hs.top_live hf hk

theorem Logging.setLock (hs : Logging s c) (hf : s.frames = f :: rest) {h : Handle}
    (hh : Placeable h) (ho : o' ≤ SIZE) (hc : c' ≤ o')
    (hlock : h.kind = .builder → c' ≤ h.offset ∧ h.extent = o') :
    Logging ⟨o', mem', State.setLock f rest (some h), n'⟩ c' := by
  have hsaved := hs.top_saved hf
  refine hs.replace (t := [f]) hf (List.cons_ne_nil _ _) hsaved ?_ ho hc ?_
  · rintro k (_ | ⟨_, hk⟩)
    · exact hh
    · exact hs.top_live hf hk
  · rintro k ⟨⟩ hk
    exact hlock hk

theorem Logging.enter (hs : Logging s c) {result : Option Layout}
    (hfree : ∀ f rest h, s.frames = f :: rest → f.lock = some h → h.kind ≠ .builder) :
    Logging (s.enter result) c := by
  refine ⟨hs.room, hs.below, ?_, ?_, ?_, ?_⟩
  · rintro g (_ | ⟨_, hg⟩)
    · exact hs.room
    · exact hs.saved g hg
  · exact hs.held
  · rintro g gs h ⟨⟩ hl
    exact nomatch hl
  · intro g hg h hl
    change g ∈ s.frames at hg
    cases hf : s.frames with
    | nil => rw [hf] at hg; exact absurd hg List.not_mem_nil
    | cons f rest =>
      rw [hf] at hg
      rcases List.mem_cons.mp hg with rfl | hg
      · exact hfree g rest h hf hl
      · exact hs.under g (by rw [hf]; exact hg) h hl

theorem Logging.pop_frame (hs : Logging s c) (hf : s.frames = f :: rest) :
    Logging ⟨f.saved, mem', rest, n'⟩ f.saved := by
  refine ⟨hs.top_saved hf, le_rfl, ?_, ?_, ?_, ?_⟩
  · exact fun g hg => hs.saved g (hf ▸ List.mem_cons_of_mem _ hg)
  · intro h hh
    refine hs.held h ?_
    rw [State.handles, hf]
    exact List.mem_append_right _ hh
  · rintro g gs h hr hl hk
    dsimp only at hr
    refine absurd hk (hs.under g ?_ h hl)
    rw [hf, List.tail_cons, hr]
    exact List.mem_cons_self
  · intro g hg h hl
    refine hs.under g ?_ h hl
    rw [hf, List.tail_cons]
    exact List.mem_of_mem_tail hg

theorem Logging.mapLive (hs : Logging s c) {g : Handle → Option Handle}
    (hg : ∀ h ∈ s.frames.flatMap Frame.live, ∀ h', g h = some h' → Placeable h') :
    Logging { s with mem := mem', frames := s.mapLive g } c := by
  refine ⟨hs.room, hs.below, ?_, ?_, ?_, ?_⟩
  · intro k hk
    obtain ⟨f, hf, rfl⟩ := List.mem_map.mp hk
    exact hs.saved f hf
  · intro h hh
    rcases mem_mapLive hh with hh | ⟨k, hk, heq⟩
    · exact hs.held h hh
    · exact hg k hk h heq
  · intro k ks h hf hl hk
    obtain ⟨f, rest, hfr, rfl, -⟩ := List.map_eq_cons_iff.mp hf
    exact hs.builder f rest h hfr hl hk
  · intro k hk h hl
    change k ∈ (s.mapLive g).tail at hk
    rw [State.mapLive, ← List.map_tail] at hk
    obtain ⟨f, hf, rfl⟩ := List.mem_map.mp hk
    exact hs.under f hf h hl

structure Traced (s' : State) (c : ℕ) (records : List (Record α)) : Prop where
  rising : Rising c (records.map Record.event)
  logging : Logging s' (logged c (records.map Record.event))
  bump : ∀ r ∈ records, r.bump = s'.offset
  below : ∀ r ∈ records, r.event.newOffset ≤ r.bump
  level : ∀ r ∈ records, r.sliding = false → r.event.newOffset = r.bump

theorem traced_nil (h : Logging s' c) : Traced s' c ([] : List (Record α)) :=
  ⟨trivial, h, fun _ hr => absurd hr List.not_mem_nil, fun _ hr => absurd hr List.not_mem_nil,
    fun _ hr => absurd hr List.not_mem_nil⟩

theorem traced_level {ev : Event α} (h : Logging s' s'.offset) (hev : ev.newOffset = s'.offset)
    (hc : ev.rises = true → c ≤ s'.offset) : Traced s' c [s'.level ev] := by
  refine ⟨⟨fun hr => hev ▸ hc hr, trivial⟩, ?_, ?_, ?_, ?_⟩
  · simp only [List.map_cons, List.map_nil, ArenaSvg.logged_cons, ArenaSvg.logged_nil]
    exact hev ▸ h
  all_goals
    intro r hr
    obtain rfl := List.mem_singleton.mp hr
  · rfl
  · exact hev.le
  · exact fun _ => hev

theorem alloc_traced {l : Layout} {value : List UInt8} (hs : Logging s c)
    (h : s.alloc l value = some s') : Traced s' c [s'.level (.alloc s'.offset label)] := by
  obtain ⟨f, rest, a, e, hin, hbump, -, rfl⟩ := alloc_some h
  obtain ⟨hf, -⟩ := unlocked hin
  obtain ⟨rfl, rfl, hb⟩ := bump_some hs.room hbump
  have hlow := Align.le_up (n := s.offset) l.align_pos
  have hbelow := hs.below
  refine traced_level (hs.hold hf ⟨⟨Align.dvd_up _ _, le_rfl, fun _ => rfl⟩, ?_⟩ hb le_rfl) rfl
    fun _ => ?_
  all_goals
    dsimp only
    omega

theorem vec_traced {l : Layout} {capacity : UInt32} (hs : Logging s c)
    (h : s.vec l capacity = some s') : Traced s' c [s'.level (.alloc s'.offset label)] := by
  obtain ⟨f, rest, a, e, hin, hbump, rfl⟩ := vec_some h
  obtain ⟨hf, -⟩ := unlocked hin
  obtain ⟨rfl, rfl, hb⟩ := bump_some hs.room hbump
  have hlow := Align.le_up (n := s.offset) l.align_pos
  have hbelow := hs.below
  refine traced_level (hs.hold hf ⟨⟨Align.dvd_up _ _, Nat.zero_le _, fun hk => by simp at hk⟩, ?_⟩ hb
    le_rfl) rfl fun _ => ?_
  all_goals
    dsimp only
    omega

theorem reserve_traced {l : Layout} {capacity : UInt32} (hs : Logging s c)
    (h : s.reserve l capacity = some s') : Traced s' c [s'.level (.alloc s'.offset label)] := by
  obtain ⟨f, rest, a, e, hin, hbump, rfl⟩ := reserve_some h
  obtain ⟨hf, -⟩ := unlocked hin
  obtain ⟨rfl, rfl, hb⟩ := bump_some hs.room hbump
  have hlow := Align.le_up (n := s.offset) l.align_pos
  have hbelow := hs.below
  refine traced_level (hs.setLock hf ⟨⟨Align.dvd_up _ _, Nat.zero_le _, fun hk => by simp at hk⟩, ?_⟩
    hb le_rfl fun hk => nomatch hk) rfl fun _ => ?_
  all_goals
    dsimp only
    omega

theorem empty_logging {l : Layout} (hs : Logging s c) (h : s.empty l = some s') : Logging s' c := by
  obtain ⟨f, rest, hin, rfl⟩ := empty_some h
  obtain ⟨hf, -⟩ := unlocked hin
  rw [alignUp_eq hs.room]
  exact hs.hold hf ⟨⟨Align.dvd_up _ _, le_rfl, fun _ => rfl⟩,
    Align.up_le l.align_pos l.align_dvd_SIZE hs.room⟩ hs.room hs.below

theorem scope_logging (hs : Logging s c) (h : s.scope = some s') : Logging s' c := by
  rw [scope_some h]
  refine hs.enter fun f rest k hf hl hk => ?_
  simp [State.scope, hf, hl, hk] at h

theorem compact_logging {l : Layout} (hs : Logging s c) (h : s.compact l = some s') :
    Logging s' c := by
  rw [compact_some h]
  refine hs.enter fun f rest k hf hl _ => ?_
  simp [State.compact, State.innermost, hf, hl] at h

theorem leave_traced (hs : Logging s c) (h : s.leave = some s') :
    Traced s' c [s'.level (.rewind s'.offset : Event α)] := by
  obtain ⟨f, rest, hin, -, rfl⟩ := leave_some h
  exact traced_level (hs.pop_frame (unlocked hin).1) rfl fun hr => nomatch hr

theorem span_logging {l : Layout} (hs : Logging s c) (h : s.span l = some s') : Logging s' c := by
  obtain ⟨f, rest, hin, rfl⟩ := span_some h
  obtain ⟨hf, -⟩ := unlocked hin
  rw [alignUp_eq hs.room]
  have hlow := hs.below.trans (Align.le_up (n := s.offset) l.align_pos)
  have hb : Align.up s.offset l.align ≤ SIZE := Align.up_le l.align_pos l.align_dvd_SIZE hs.room
  refine hs.setLock hf ⟨⟨Align.dvd_up _ _, le_rfl, fun _ => rfl⟩, hb⟩ hb hlow fun _ => ⟨hlow, ?_⟩
  simp [Handle.extent]

theorem grow_logging {n a e : ℕ} {k : Handle} (hs : Logging s c) (hf : s.frames = f :: rest)
    (hlock : f.lock = some k) (hk : k.kind = .builder)
    (hbump : bump s.offset (n * k.layout.size) k.layout.align = some (a, e)) :
    Logging ⟨e, mem', State.setLock f rest
      (some { k with len := k.len + n, capacity := k.capacity + n }), n'⟩ c := by
  obtain ⟨hok, hin⟩ := hs.top_lock hf hlock
  obtain ⟨hc, hext⟩ := hs.builder f rest k hf hlock hk
  obtain ⟨rfl, rfl, hb⟩ := bump_some hs.room hbump
  have hdvd : k.layout.align ∣ s.offset := by
    rw [← hext, Handle.extent]
    exact dvd_add hok.aligned (k.layout.align_dvd.mul_left _)
  rw [Align.up_of_dvd hdvd k.layout.align_pos] at hb ⊢
  refine hs.setLock hf ⟨⟨hok.aligned, by simpa using hok.len_le, fun _ => ?_⟩, hin⟩ hb
    (hs.below.trans (Nat.le_add_right _ _)) fun _ => ⟨hc, ?_⟩
  · exact congrArg (· + n) (hok.full (.inr hk))
  · rw [← hext]
    simp only [Handle.extent, Nat.add_mul, Nat.add_assoc]

theorem push_logging {value : List UInt8} (hs : Logging s c) (h : s.push value = some s') :
    Logging s' c := by
  obtain ⟨f, rest, k, a, e, hin, hlock, hbump, -, rfl⟩ := push_some h
  obtain ⟨hf, hk, -⟩ := locked hin hlock
  exact grow_logging hs hf hlock hk (by rwa [Nat.one_mul])

theorem extend_logging {src : List (List UInt8)} (hs : Logging s c) (h : s.extend src = some s') :
    Logging s' c := by
  rcases extend_some h with ⟨-, rfl⟩ | ⟨f, rest, k, a, e, hin, hlock, hbump, rfl⟩
  · exact hs
  · obtain ⟨hf, hk, -⟩ := locked hin hlock
    exact grow_logging hs hf hlock hk (by rwa [Nat.mul_comm])

theorem pop_logging (hs : Logging s c) (h : s.pop = some s') : Logging s' c := by
  rcases pop_some h with rfl | ⟨f, rest, k, hin, hlock, hne, rfl⟩
  · exact hs
  · obtain ⟨hf, hk, -⟩ := locked hin hlock
    obtain ⟨hok, hin⟩ := hs.top_lock hf hlock
    obtain ⟨hc, hext⟩ := hs.builder f rest k hf hlock hk
    have hfull := hok.full (.inr hk)
    obtain ⟨m, hm⟩ : ∃ m, k.capacity = m + 1 := ⟨k.capacity - 1, by omega⟩
    have hend : k.offset + m * k.layout.size = s.offset - k.layout.size := by
      rw [← hext, Handle.extent, hm]
      simp only [Nat.add_mul, Nat.one_mul, ← Nat.add_assoc, Nat.add_sub_cancel]
    have hlow : k.offset ≤ s.offset - k.layout.size := hend ▸ Nat.le_add_right _ _
    refine hs.setLock hf ⟨⟨hok.aligned, Nat.sub_le_sub_right hok.len_le 1, fun _ =>
      congrArg (· - 1) hfull⟩, hin⟩ ((Nat.sub_le _ _).trans hs.room) (hc.trans hlow)
      fun _ => ⟨hc, ?_⟩
    rw [Handle.extent]
    dsimp only
    rw [hm, Nat.add_sub_cancel, hend]

theorem close_traced (hs : Logging s c) (h : s.close = some s') :
    Traced s' c (s'.closed s label) := by
  obtain ⟨f, rest, k, hin, hlock, rfl⟩ := close_some h
  obtain ⟨hf, hk, -⟩ := locked hin hlock
  obtain ⟨hok, hin⟩ := hs.top_lock hf hlock
  have hplace : Placeable { k with kind := .span } :=
    ⟨⟨hok.aligned, hok.len_le, fun _ => hok.full (.inr hk)⟩, hin⟩
  obtain ⟨saved, result, live, lock⟩ := f
  cases hlock
  rw [State.closed, hf]
  dsimp only
  split
  · exact traced_level (hs.hold hf hplace hs.room le_rfl) rfl fun _ => hs.below
  · exact traced_nil (hs.hold hf hplace hs.room hs.below)

theorem editReserve_logging {ed : Edit} (hs : Logging s c) (h : s.editReserve ed = some s') :
    Logging s' c := by
  obtain ⟨f, rest, k, mem', k', hin, hlock, hedit, rfl⟩ := editReserve_some h
  obtain ⟨hf, hk, -⟩ := locked hin hlock
  obtain ⟨hok, hin⟩ := hs.top_lock hf hlock
  obtain ⟨hed, -⟩ := Edit.apply_spec hok hedit
  refine hs.setLock hf ⟨hed.ok, hed.offset ▸ hin⟩ hs.room hs.below fun hb => ?_
  rw [(hed.reserve hk).1] at hb
  exact nomatch hb

theorem freeze_traced (hs : Logging s c) (h : s.freeze = some s') (hroom : s'.offset ≤ SIZE) :
    Traced s' c [s'.level (.rewind s'.offset : Event α)] := by
  obtain ⟨f, rest, k, hin, hlock, rfl⟩ := freeze_some h
  obtain ⟨hf, hk, -⟩ := locked hin hlock
  obtain ⟨hok, hin⟩ := hs.top_lock hf hlock
  exact traced_level (hs.hold hf ⟨⟨hok.aligned, le_rfl, fun _ => rfl⟩, hin⟩ hroom le_rfl) rfl
    fun hr => nomatch hr

theorem dropReserve_traced (hs : Logging s c) (h : s.dropReserve = some s') :
    Traced s' c [s'.level (.rewind s'.offset : Event α)] := by
  obtain ⟨f, rest, k, hin, hlock, rfl⟩ := dropReserve_some h
  obtain ⟨hf, hk, -⟩ := locked hin hlock
  obtain ⟨-, hin⟩ := hs.top_lock hf hlock
  have hsaved := hs.top_saved hf
  refine traced_level (hs.replace (t := [f]) hf (List.cons_ne_nil _ _) hsaved ?_ hin le_rfl
    fun k hk => nomatch hk) rfl fun hr => nomatch hr
  exact fun h hh => hs.top_live hf hh

theorem edit_logging {id : ℕ} {ed : Edit} (hs : Logging s c) (h : s.edit id ed = some s') :
    Logging s' c := by
  obtain ⟨k, mem', k', hlive, -, hedit, rfl⟩ := edit_some h
  obtain ⟨hok, hin⟩ := hs.held k (live_sub_handles hlive)
  obtain ⟨hed, -⟩ := Edit.apply_spec hok hedit
  refine hs.mapLive ?_
  rintro h hh _ ⟨⟩
  split
  · exact ⟨hed.ok, hed.offset ▸ hin⟩
  · exact hs.held h (live_sub_handles hh)

theorem drop_logging {id : ℕ} (hs : Logging s c) : Logging (s.drop id) c := by
  refine show Logging ⟨s.offset, s.mem, s.mapLive _, s.next⟩ c from hs.mapLive fun h hh h' heq => ?_
  obtain ⟨-, heq⟩ := Option.ite_none_left_eq_some.mp heq
  exact Option.some.inj heq ▸ hs.held h (live_sub_handles hh)

theorem Traced.behind {ev : Event α} {records : List (Record α)}
    (h : Traced s' ev.newOffset records) (hc : ev.rises = true → c ≤ ev.newOffset)
    (hle : ev.newOffset ≤ s'.offset) : Traced s' c (s'.behind ev :: records) := by
  refine ⟨⟨hc, h.rising⟩, ?_, ?_, ?_, ?_⟩
  · simp only [List.map_cons, ArenaSvg.logged_cons]
    exact h.logging
  all_goals
    rintro r (_ | ⟨_, hr⟩)
  · rfl
  · exact h.bump r hr
  · exact hle
  · exact h.below r hr
  · exact fun hslide => nomatch hslide
  · exact h.level r hr

theorem Logging.slide {t : List Frame} (hs : Logging s c) (hf : s.frames = t ++ f :: rest)
    {moved : List Handle} (hmoved : ∀ h ∈ moved, Placeable h) (ho : o' ≤ SIZE) (hc : c' ≤ o') :
    Logging ⟨o', mem', { f with live := moved ++ f.live, lock := none } :: rest, n'⟩ c' := by
  have hmem : f ∈ s.frames := hf ▸ List.mem_append_right _ List.mem_cons_self
  have hsaved := hs.saved f hmem
  refine hs.replace (hf.trans (List.append_cons t f rest)) (List.append_ne_nil_of_right_ne_nil _
    (List.cons_ne_nil _ _)) hsaved (fun h hh => ?_) ho hc fun h hh => nomatch hh
  rcases List.mem_append.mp (show h ∈ moved ++ f.live from hh) with hh | hh
  · exact hmoved h hh
  · exact hs.held h (List.mem_flatMap.mpr ⟨f, hmem, List.mem_append_right _ hh⟩)

theorem finish_traced {id : ℕ} (hs : Logging s c) (h : s.finish id = some s')
    (hroom : s'.offset ≤ SIZE) : Traced s' c (s'.compacted s label) := by
  obtain ⟨f, g, rest, r, ⟨hf, hlock⟩, hlock', hr, hrid, ⟨hres, hspan⟩, rfl⟩ := finish_some h
  obtain ⟨hok, -⟩ := hs.top_live hf hr
  have hsaved := hs.top_saved hf
  have hlow := Align.le_up (n := f.saved) r.layout.align_pos
  rw [alignUp_eq hsaved] at hroom ⊢
  have hplace : ∀ k ∈ [{ r with offset := Align.up f.saved r.layout.align }], Placeable k := by
    intro k hk
    obtain rfl := List.mem_singleton.mp hk
    exact ⟨⟨Align.dvd_up _ _, hok.len_le, hok.full⟩,
      Align.up_le r.layout.align_pos r.layout.align_dvd_SIZE hsaved⟩
  have hend : f.saved ≤ Align.up f.saved r.layout.align + r.len * r.layout.size := by omega
  have hslid : ∀ {mem' n' c'}, c' ≤ Align.up f.saved r.layout.align + r.len * r.layout.size →
      Logging ⟨Align.up f.saved r.layout.align + r.len * r.layout.size, mem',
        State.hold g rest { r with offset := Align.up f.saved r.layout.align }, n'⟩ c' :=
    fun hc => hs.slide (t := [f]) hf hplace hroom hc
  obtain ⟨start, result, live, lock⟩ := f
  rw [State.compacted, hf]
  dsimp only [State.hold] at hslid ⊢
  refine .behind (?_ : Traced _ start _) (fun hr => nomatch hr) hend
  by_cases hpos : r.len * r.layout.size > 0
  · rw [if_pos hpos]
    exact traced_level (hslid le_rfl) rfl fun _ => hend
  · rw [if_neg hpos]
    exact traced_nil (hslid hend)

theorem op_traced {op : Op} (hs : Logging s c) (h : s.step op = some s') (hroom : s'.offset ≤ SIZE) :
    Traced s' c (s'.emitted s label op) := by
  cases op with
  | alloc l value => exact alloc_traced hs h
  | vec l capacity => exact vec_traced hs h
  | empty l => exact traced_nil (empty_logging hs h)
  | scope => exact traced_nil (scope_logging hs h)
  | leave => exact leave_traced hs h
  | compact l => exact traced_nil (compact_logging hs h)
  | finish result => exact finish_traced hs h hroom
  | span l => exact traced_nil (span_logging hs h)
  | push value => exact traced_nil (push_logging hs h)
  | extend src => exact traced_nil (extend_logging hs h)
  | pop => exact traced_nil (pop_logging hs h)
  | close => exact close_traced hs h
  | reserve l capacity => exact reserve_traced hs h
  | editReserve ed => exact traced_nil (editReserve_logging hs h)
  | freeze => exact freeze_traced hs h hroom
  | dropReserve => exact dropReserve_traced hs h
  | edit id ed => exact traced_nil (edit_logging hs h)
  | drop id => exact Option.some.inj h ▸ traced_nil (drop_logging hs)

theorem replace2_logging {id1 id2 : ℕ} {p : Pending} (hs : Logging s c)
    (h : s.replace2 id1 id2 = some (s', p)) :
    Logging s' c ∧ Placeable p.span1 ∧ Placeable p.span2 := by
  simp only [State.replace2, Option.bind_eq_bind, Option.bind_eq_some_iff, Prod.exists] at h
  obtain ⟨f, rest, hin, span1, hfind1, span2, hfind2, h⟩ := h
  obtain ⟨-, h⟩ := Option.ite_none_right_eq_some.mp h
  obtain ⟨rfl, rfl⟩ := Prod.mk.inj (Option.some.inj h)
  obtain ⟨hf, hlock⟩ := unlocked hin
  refine ⟨?_, hs.top_live hf (List.mem_of_find?_eq_some hfind1),
    hs.top_live hf (List.mem_of_find?_eq_some hfind2)⟩
  have hsaved := hs.top_saved hf
  have hheld : Logging ⟨s.offset, s.mem, { f with live := f.live.filter fun h => h.id ≠ id1 ∧
      h.id ≠ id2 } :: rest, s.next⟩ c := by
    refine hs.replace (t := [f]) hf (List.cons_ne_nil _ _) hsaved (fun h hh => ?_) hs.room hs.below
      fun k hk => nomatch hlock.symm.trans hk
    simp only [Frame.handles, hlock, Option.toList_none, List.nil_append] at hh
    exact hs.top_live hf (List.mem_filter.mp hh).1
  refine show Logging (State.enter _ none) c from hheld.enter ?_
  rintro g gs k ⟨⟩ hl
  exact nomatch hlock.symm.trans hl

structure Settles (s : State) (p : Pending) (s' : State) (round : Round) (f : Frame)
    (new1 new2 : Handle) : Prop where
  frames : ∃ sub rest, s.frames = [sub] ++ f :: rest ∧ new1 ∈ sub.live ∧ new2 ∈ sub.live ∧
    s' = ⟨round.next.offset, round.next.mem, { f with
      live := [{ new2 with offset := round.next.span2.offset },
        { new1 with offset := round.next.span1.offset }] ++ f.live
      lock := none } :: rest, s.next⟩
  kinds : new1.kind = .span ∧ new2.kind = .span
  layout : new1.layout = p.span1.layout
  layout2 : new2.layout = p.span2.layout
  start : round.next.span1.offset = p.span1.offset
  finish : round.next.span1.finish = p.span1.offset + new1.len * new1.layout.size
  dst : round.next.span2.offset = alignUp round.next.span1.finish new2.layout.align
  offset : round.next.offset = round.next.span2.finish
  inside1 : round.next.span1.finish ≤ SIZE
  inside2 : round.next.span2.finish ≤ SIZE

theorem settle_some {id1 id2 : ℕ} {p : Pending} {round : Round}
    (h : s.settle p id1 id2 = some (s', round)) :
    ∃ f new1 new2, Settles s p s' round f new1 new2 ∧ s.frames.length = p.depth ∧
      new1.id = id1 ∧ new1.id ≠ new2.id := by
  simp only [State.settle, Option.bind_eq_bind, Option.bind_eq_some_iff, Prod.exists] at h
  obtain ⟨sub, outer, hin, f, rest, hin', new1, hfind1, new2, hfind2, h⟩ := h
  obtain ⟨⟨hdepth, hids, hk1, hk2, hlayout1, hlayout2⟩, h⟩ := Option.ite_none_right_eq_some.mp h
  have hid1 : new1.id = id1 := by simpa using List.find?_some hfind1
  have hid2 : new2.id = id2 := by simpa using List.find?_some hfind2
  obtain ⟨⟨hend1, hend2⟩, h⟩ := Option.ite_none_right_eq_some.mp h
  obtain ⟨hs', rfl⟩ := Prod.mk.inj (Option.some.inj h)
  obtain ⟨hf, -⟩ := unlocked hin
  obtain ⟨rfl, hlock'⟩ := unlocked hin'
  refine ⟨f, new1, new2, ⟨⟨sub, rest, hf, List.mem_of_find?_eq_some hfind1,
    List.mem_of_find?_eq_some hfind2, ?_⟩, ⟨hk1, hk2⟩, hlayout1, hlayout2, rfl, rfl, rfl, rfl,
    hend1, hend2⟩, hdepth, hid1, hid1 ▸ hid2 ▸ hids⟩
  obtain ⟨saved, result, live, lock⟩ := f
  cases hlock'
  exact hs'.symm

theorem Settles.rises {p : Pending} {round : Round} {new1 new2 : Handle}
    (h : Settles s p s' round f new1 new2) :
    round.next.span1.offset ≤ round.next.span1.finish ∧
      round.next.span1.finish ≤ round.next.span2.finish ∧ s'.offset = round.next.span2.finish := by
  obtain ⟨sub, rest, -, -, -, rfl⟩ := h.frames
  have hlow := Align.le_up (n := round.next.span1.finish) new2.layout.align_pos
  have hdst := h.dst
  rw [alignUp_eq h.inside1] at hdst
  exact ⟨Nat.le_add_right _ _, hlow.trans (hdst ▸ Nat.le_add_right _ _), h.offset⟩

theorem Settles.logging {p : Pending} {round : Round} {new1 new2 : Handle}
    (h : Settles s p s' round f new1 new2) (hs : Logging s c) (hp : Placeable p.span1)
    (hc : c' ≤ s'.offset) : Logging s' c' := by
  obtain ⟨-, -, hoffset⟩ := h.rises
  obtain ⟨sub, rest, hf, h1, h2, rfl⟩ := h.frames
  obtain ⟨hok1, -⟩ := hs.top_live hf h1
  obtain ⟨hok2, -⟩ := hs.top_live hf h2
  have hdst := h.dst
  rw [alignUp_eq h.inside1] at hdst
  refine hs.slide hf ?_ (hoffset.trans_le h.inside2) hc
  rintro k (_ | ⟨_, _ | ⟨_, hk⟩⟩)
  · exact ⟨⟨hdst ▸ Align.dvd_up _ _, hok2.len_le, hok2.full⟩,
      (Nat.le_add_right _ _).trans h.inside2⟩
  · refine ⟨⟨?_, hok1.len_le, hok1.full⟩, (Nat.le_add_right _ _).trans h.inside1⟩
    exact h.start ▸ h.layout ▸ hp.ok.aligned
  · exact absurd hk List.not_mem_nil

theorem settle_traced {id1 id2 : ℕ} {p : Pending} {round : Round} {label1 label2 : α}
    (hs : Logging s c) (hp : Placeable p.span1) (h : s.settle p id1 id2 = some (s', round)) :
    Traced s' c (s'.rotated round label1 label2) := by
  obtain ⟨f, new1, new2, hset, -⟩ := settle_some h
  obtain ⟨hfinish1, hfinish2, hoffset⟩ := hset.rises
  have hlast : ∀ {c'}, c' ≤ s'.offset → Traced s' c' (if round.next.span2.bytes > 0 then
      [s'.level (.alloc round.next.span2.finish label2)] else []) := by
    intro c' hc
    split
    · exact traced_level (hset.logging hs hp le_rfl) hoffset.symm fun _ => hc
    · exact traced_nil (hset.logging hs hp hc)
  refine .behind (?_ : Traced s' round.next.span1.offset _) (fun hr => nomatch hr) ?_
  · split
    · exact .behind (hlast (hoffset ▸ hfinish2)) (fun _ => hfinish1) (hoffset ▸ hfinish2)
    · exact hlast (hoffset ▸ hfinish1.trans hfinish2)
  · exact hoffset ▸ hfinish1.trans hfinish2

theorem Logging.level (hs : Logging s c) (h : ¬ s.building = true) : Logging s s.offset := by
  refine ⟨hs.room, le_rfl, hs.saved, hs.held, fun f rest k hf hl hk => ?_, hs.under⟩
  obtain ⟨saved, result, live, lock⟩ := f
  cases hl
  simp [State.building, hf, hk] at h

structure Session.Logging (t : Session) (c : ℕ) : Prop where
  arena : Arena.Logging t.arena c
  pending : ∀ p ∈ t.pending, Placeable p.span1

theorem Session.step_traced {t t' : Session} {act : Act α} {records : List (Record α)}
    (ht : t.Logging c) (h : t.step act = some (t', records)) :
    Traced t'.arena c records ∧ ∀ p ∈ t'.pending, Placeable p.span1 := by
  cases act with
  | op o label =>
    rw [Session.step] at h
    split at h
    · cases h
    · obtain ⟨s, hstep, h⟩ := Option.bind_eq_some_iff.mp h
      obtain ⟨hroom, h⟩ := Option.ite_none_right_eq_some.mp h
      obtain ⟨rfl, rfl⟩ := Prod.mk.inj (Option.some.inj h)
      exact ⟨op_traced ht.arena hstep hroom, ht.pending⟩
  | replace2 id1 id2 =>
    obtain ⟨⟨s, p⟩, hopen, h⟩ := Option.bind_eq_some_iff.mp h
    obtain ⟨rfl, rfl⟩ := Prod.mk.inj (Option.some.inj h)
    obtain ⟨hlog, hp, -⟩ := replace2_logging ht.arena hopen
    exact ⟨traced_nil hlog, List.forall_mem_cons.mpr ⟨hp, ht.pending⟩⟩
  | settle label1 label2 id1 id2 =>
    rw [Session.step] at h
    cases hpending : t.pending with
    | nil => rw [hpending] at h; cases h
    | cons p pending =>
      rw [hpending] at h
      obtain ⟨⟨s, round⟩, hset, h⟩ := Option.bind_eq_some_iff.mp h
      obtain ⟨rfl, rfl⟩ := Prod.mk.inj (Option.some.inj h)
      have hall := List.forall_mem_cons.mp (hpending ▸ ht.pending)
      exact ⟨settle_traced ht.arena hall.1 hset, hall.2⟩
  | uncommitTail released =>
    rw [Session.step] at h
    split at h
    · cases h
    · rename_i hbuild
      obtain ⟨rfl, rfl⟩ := Prod.mk.inj (Option.some.inj h)
      refine ⟨?_, ht.pending⟩
      split
      · exact traced_level (ht.arena.level hbuild) rfl fun _ => ht.arena.below
      · exact traced_nil ht.arena

theorem Session.run_traced {t t' : Session} {acts : List (Act α)} {records : List (Record α)}
    (ht : t.Logging c) (h : t.run acts = some (t', records)) :
    Rising c (records.map Record.event) ∧ ∀ r ∈ records,
      r.event.newOffset ≤ r.bump ∧ (r.sliding = false → r.event.newOffset = r.bump) := by
  induction acts generalizing t c records with
  | nil =>
    obtain ⟨rfl, rfl⟩ := Prod.mk.inj (Option.some.inj h)
    exact ⟨trivial, fun r hr => absurd hr List.not_mem_nil⟩
  | cons act acts ih =>
    obtain ⟨⟨t₁, first⟩, hstep, h⟩ := Option.bind_eq_some_iff.mp h
    obtain ⟨⟨t₂, more⟩, hrun, h⟩ := Option.bind_eq_some_iff.mp h
    obtain ⟨rfl, rfl⟩ := Prod.mk.inj (Option.some.inj h)
    obtain ⟨htraced, hpending⟩ := Session.step_traced ht hstep
    obtain ⟨hrising, hmore⟩ := ih ⟨htraced.logging, hpending⟩ hrun
    refine ⟨?_, fun r hr => ?_⟩
    · rw [List.map_append]
      exact ArenaSvg.rising_append.mpr ⟨htraced.rising, hrising⟩
    · rcases List.mem_append.mp hr with hr | hr
      · exact ⟨htraced.below r hr, htraced.level r hr⟩
      · exact hmore r hr

theorem Session.init_logging : Session.init.Logging 0 :=
  ⟨⟨Nat.zero_le _, le_rfl, fun _ hf => absurd hf List.not_mem_nil,
    fun _ hh => absurd hh List.not_mem_nil, fun _ _ _ hf _ _ => (nomatch hf),
    fun _ hf => absurd hf List.not_mem_nil⟩, fun _ hp => absurd hp List.not_mem_nil⟩

def replayed (records : List (Record α)) (k : ℕ) : ArenaSvg.Replay α :=
  ArenaSvg.replay ((records.take k).map Record.event)

structure Replayed (records : List (Record α)) : Prop where
  current : ∀ k r, records[k]? = some r → (replayed records (k + 1)).current ≤ r.bump ∧
    (r.sliding = false → (replayed records (k + 1)).current = r.bump)
  ascending : ∀ k, (replayed records k).Ascending
  tidy : (∀ k, (replayed records k).Tidy) ↔ ArenaSvg.Clean (records.map Record.event)

theorem replayed_of_trace {acts : List (Act α)} {records : List (Record α)}
    (h : traceOf acts = some records) : Replayed records := by
  obtain ⟨⟨t, out⟩, hrun, hout⟩ := Option.map_eq_some_iff.mp h
  obtain rfl : records = out := hout.symm
  obtain ⟨hrising, hrecords⟩ := Session.run_traced Session.init_logging hrun
  have htake : ∀ k, replayed records k = ArenaSvg.replay ((records.map Record.event).take k) :=
    fun k => by rw [replayed, List.map_take]
  refine ⟨fun k r hr => ?_, fun k => ?_, ?_⟩
  · have hcurrent : (replayed records (k + 1)).current = r.event.newOffset := by
      rw [replayed, List.take_add_one, hr, Option.toList_some, List.map_append, List.map_singleton,
        ArenaSvg.current_eq, ArenaSvg.logged_concat]
    rw [hcurrent]
    exact hrecords r (List.mem_of_getElem? hr)
  · rw [htake]
    exact (ArenaSvg.discipline (hrising.take k)).toAscending
  · simp only [htake]
    exact ArenaSvg.tidy_iff hrising

end Ltop.Arena
