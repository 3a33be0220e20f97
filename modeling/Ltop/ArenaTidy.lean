import Mathlib
import Ltop.ArenaReplay

namespace Ltop.Arena

open ArenaSvg (Event Replay Discipline logged Rising)

variable {α : Type} {s s' : State} {f f' : Frame} {h k : Handle} {frames rest : List Frame}
  {ps : List Pending} {p p' : Replay α} {P Q : ℕ → Prop} {top top' i e n' : ℕ} {mem' : Mem}

theorem none_ne {β : Type} {b : β} {P : Prop} (h : none = some b) : P :=
  (Option.some_ne_none b h.symm).elim

theorem alloc_ne {n : ℕ} {label : α} {m : ℕ} {P : Prop} (h : Event.alloc n label = .rewind m) : P := by
  cases h

theorem rewind_falls {m : ℕ} {P : Prop} (h : (Event.rewind m : Event α).rises = true) : P := by
  cases h

theorem uncommit_ne {n m : ℕ} {P : Prop} (h : (Event.uncommit n : Event α) = .rewind m) : P := by
  cases h

theorem reserve_ne_builder : Kind.reserve ≠ Kind.builder := by decide

def State.snug (s : State) : Op → Bool
  | .alloc l _ | .vec l _ | .reserve l _ | .span l | .empty l => l.align ∣ s.offset
  | .finish _ => s.frames.head?.all fun f => f.result.all fun l => l.align ∣ f.saved
  | .freeze => s.frames.head?.all fun f => f.lock.all fun h =>
    h.len * h.layout.size = 0 ∨ h.offset + h.len * h.layout.size = s.offset
  | _ => true

namespace Session

def snug (t : Session) : Act α → Bool
  | .op o _ => t.arena.snug o
  | .replace2 id1 id2 => t.arena.frames.head?.all fun f => f.live.all fun span1 => f.live.all fun h =>
    span1.id = id1 → h.id = id1 ∨ h.id = id2 ∨ h.offset ≤ span1.offset
  | .settle _ _ id1 _ => t.pending.head?.all fun p => t.arena.frames.head?.all fun f =>
    f.live.all fun new1 =>
      new1.id = id1 → p.span2.layout.align ∣ p.span1.offset + new1.len * new1.layout.size
  | .uncommitTail _ => true

def snugRun (t : Session) : List (Act α) → Bool
  | [] => true
  | act :: acts => t.snug act && (t.step act).all fun r => r.1.snugRun acts

end Session

structure Frame.Within (P : ℕ → Prop) (top : ℕ) (f : Frame) : Prop where
  saved : P f.saved
  low : f.saved ≤ f.ceiling top
  high : f.ceiling top ≤ top
  live : ∀ h ∈ f.live, P h.offset ∧ f.saved ≤ h.offset ∧ h.offset ≤ f.ceiling top
  lock : ∀ h, f.lock = some h → P h.offset

inductive Tower (P : ℕ → Prop) : ℕ → List Frame → List Pending → Prop
  | nil (top : ℕ) : Tower P top [] []
  | frame {top : ℕ} {f : Frame} {rest : List Frame} {ps : List Pending} :
      f.Within P top → Tower P f.saved rest ps → Tower P top (f :: rest) ps
  | sub {top : ℕ} {f : Frame} {rest : List Frame} {p : Pending} {ps : List Pending} :
      f.Within P top → p.depth = rest.length + 1 → P p.span1.offset → p.span1.offset ≤ f.saved →
      Tower P p.span1.offset rest ps → Tower P top (f :: rest) (p :: ps)

structure Marked (s : State) (ps : List Pending) (p : Replay α) : Prop where
  level : s.building = false → s.offset = p.current
  locked : ∀ f rest h, s.frames = f :: rest → f.lock = some h → h.kind = .builder →
    h.offset = p.current
  tower : Tower p.Cut p.current s.frames ps

theorem Frame.Within.low_top (hf : f.Within P top) : f.saved ≤ top := hf.low.trans hf.high

theorem Frame.Within.live_top (hf : f.Within P top) (hk : k ∈ f.live) : k.offset ≤ top :=
  (hf.live k hk).2.2.trans hf.high

theorem Frame.Within.mono (hf : f.Within P top) (hle : top ≤ top') (hPQ : ∀ m ≤ top, P m → Q m) :
    f.Within Q top' := by
  have hceil : f.ceiling top ≤ f.ceiling top' := by
    unfold Frame.ceiling
    cases f.lock with
    | none => exact hle
    | some h => exact le_rfl
  refine ⟨hPQ _ hf.low_top hf.saved, hf.low.trans hceil, ?_, fun h hh => ?_, fun h hh => ?_⟩
  · cases hlock : f.lock with
    | none => exact (ceiling_of_unlocked hlock top').le
    | some h =>
      have hhigh := hf.high
      rw [ceiling_of_locked hlock] at hhigh ⊢
      exact hhigh.trans hle
  · obtain ⟨hp, hlow, hhigh⟩ := hf.live h hh
    exact ⟨hPQ _ (hf.live_top hh) hp, hlow, hhigh.trans hceil⟩
  · have hhigh := hf.high
    rw [ceiling_of_locked hh] at hhigh
    exact hPQ _ hhigh (hf.lock h hh)

theorem Frame.Within.unlocked (hf : f.Within P top) (hPQ : ∀ m ≤ top, P m → Q m)
    (hlow : f.saved ≤ top') (hlive : ∀ k ∈ f.live, k.offset ≤ top') :
    Frame.Within Q top' { f with lock := none } := by
  refine ⟨hPQ _ hf.low_top hf.saved, hlow, le_rfl, fun k hk => ?_, fun k hk => none_ne hk⟩
  obtain ⟨hp, hlow, -⟩ := hf.live k hk
  exact ⟨hPQ _ (hf.live_top hk) hp, hlow, hlive k hk⟩

theorem Frame.Within.hold (hf : f.Within P top) (hPQ : ∀ m ≤ top, P m → Q m) (hm : Q h.offset)
    (hlow : f.saved ≤ h.offset) (hlive : ∀ k ∈ f.live, k.offset ≤ top') (hh : h.offset ≤ top') :
    Frame.Within Q top' { f with live := h :: f.live, lock := none } := by
  have hrest := hf.unlocked hPQ (hlow.trans hh) hlive
  refine ⟨hrest.saved, hrest.low, le_rfl, ?_, fun k hk => none_ne hk⟩
  exact List.forall_mem_cons.mpr ⟨⟨hm, hlow, hh⟩, hrest.live⟩

theorem Frame.Within.setLock (hf : f.Within P top) (hPQ : ∀ m ≤ top, P m → Q m) (hm : Q h.offset)
    (hlow : f.saved ≤ h.offset) (hlive : ∀ k ∈ f.live, k.offset ≤ h.offset) (hh : h.offset ≤ top') :
    Frame.Within Q top' { f with lock := some h } := by
  refine ⟨hPQ _ hf.low_top hf.saved, hlow, hh, fun k hk => ?_, ?_⟩
  · obtain ⟨hp, hlow, -⟩ := hf.live k hk
    exact ⟨hPQ _ (hf.live_top hk) hp, hlow, hlive k hk⟩
  · rintro k ⟨⟩
    exact hm

theorem Frame.Within.filterMap (hf : f.Within P top) {g : Handle → Option Handle}
    (hg : ∀ h ∈ f.live, ∀ h', g h = some h' → h'.offset = h.offset) :
    Frame.Within P top { f with live := f.live.filterMap g } := by
  refine ⟨hf.saved, hf.low, hf.high, fun h' hh' => ?_, hf.lock⟩
  obtain ⟨h, hh, heq⟩ := List.mem_filterMap.mp hh'
  rw [hg h hh h' heq]
  exact hf.live h hh

namespace Tower

theorem mono (ht : Tower P top frames ps) (hle : top ≤ top') (hPQ : ∀ m ≤ top, P m → Q m) :
    Tower Q top' frames ps := by
  induction ht generalizing top' with
  | nil => exact .nil _
  | frame hf _ ih =>
    exact .frame (hf.mono hle hPQ) (ih le_rfl fun m hm => hPQ m (hm.trans hf.low_top))
  | sub hf hdepth hp hlow _ ih =>
    have hbelow := hlow.trans hf.low_top
    exact .sub (hf.mono hle hPQ) hdepth (hPQ _ hbelow hp) hlow
      (ih le_rfl fun m hm => hPQ m (hm.trans hbelow))

theorem within (ht : Tower P top (f :: rest) ps) : f.Within P top := by
  cases ht with
  | frame hf _ => exact hf
  | sub hf _ _ _ _ => exact hf

theorem swap (ht : Tower P top (f :: rest) ps) (hsaved : f'.saved = f.saved)
    (hPQ : ∀ m ≤ f.saved, P m → Q m) (hf' : f'.Within Q top') : Tower Q top' (f' :: rest) ps := by
  cases ht with
  | frame hf hrest => exact .frame hf' (hsaved ▸ hrest.mono le_rfl hPQ)
  | sub hf hdepth hp hlow hrest =>
    exact .sub hf' hdepth (hPQ _ hlow hp) (hsaved ▸ hlow)
      (hrest.mono le_rfl fun m hm => hPQ m (hm.trans hlow))

theorem depth_le {q : Pending} (ht : Tower P top frames (q :: ps)) : q.depth ≤ frames.length := by
  generalize hqs : q :: ps = qs at ht
  induction ht with
  | nil => cases hqs
  | frame _ _ ih => exact (ih hqs).trans (Nat.le_succ _)
  | sub _ hdepth _ _ _ =>
    obtain ⟨rfl, rfl⟩ := List.cons.inj hqs
    exact hdepth.le

theorem mapLive (ht : Tower P top frames ps) {g : Handle → Option Handle}
    (hg : ∀ h ∈ frames.flatMap Frame.live, ∀ h', g h = some h' → h'.offset = h.offset) :
    Tower P top (frames.map fun f => { f with live := f.live.filterMap g }) ps := by
  induction ht with
  | nil => exact .nil _
  | frame hf _ ih =>
    obtain ⟨hhead, htail⟩ := List.forall_mem_append.mp hg
    exact .frame (hf.filterMap hhead) (ih htail)
  | sub hf hdepth hp hlow _ ih =>
    obtain ⟨hhead, htail⟩ := List.forall_mem_append.mp hg
    exact .sub (hf.filterMap hhead) (by rwa [List.length_map]) hp hlow (ih htail)

theorem pop (ht : Tower P top (f :: rest) ps)
    (hexit : ps.head?.map Pending.depth ≠ some (rest.length + 1)) : Tower P f.saved rest ps := by
  cases ht with
  | frame _ hrest => exact hrest
  | sub _ hdepth _ _ _ => exact absurd (congrArg some hdepth) hexit

theorem unwind {q : Pending} (ht : Tower P top (f :: rest) (q :: ps))
    (hdepth : q.depth = rest.length + 1) :
    P q.span1.offset ∧ Tower P q.span1.offset rest ps := by
  cases ht with
  | frame _ hrest =>
    have := hrest.depth_le
    omega
  | sub _ _ hp _ hrest => exact ⟨hp, hrest⟩

end Tower

structure Fresh (s : State) : Prop where
  nodup : (s.handles.map Handle.id).Nodup
  below : ∀ id ∈ s.handles.map Handle.id, id < s.next

theorem Fresh.shrink (hs : Fresh s)
    (h : List.Subperm (s'.handles.map Handle.id) (s.handles.map Handle.id)) (hn : s.next ≤ s'.next) :
    Fresh s' := by
  obtain ⟨l, hperm, hsub⟩ := h
  exact ⟨hperm.nodup_iff.mp (hsub.nodup hs.nodup), fun id hid =>
    (hs.below id (hsub.subset (hperm.mem_iff.mpr hid))).trans_le hn⟩

theorem Fresh.gain (hs : Fresh s) (h : s'.handles.map Handle.id = s.next :: s.handles.map Handle.id)
    (hn : s'.next = s.next + 1) : Fresh s' := by
  refine ⟨?_, ?_⟩
  · rw [h, List.nodup_cons]
    exact ⟨fun hmem => Nat.lt_irrefl _ (hs.below _ hmem), hs.nodup⟩
  · rw [h, hn]
    exact List.forall_mem_cons.mpr ⟨Nat.lt_succ_self _, fun id hid =>
      Nat.lt_succ_of_lt (hs.below id hid)⟩

theorem Fresh.hold (hs : Fresh s) (hin : s.innermost none = some (f, rest)) (hid : h.id = s.next) :
    Fresh ⟨e, mem', State.hold f rest h, s.next + 1⟩ := by
  obtain ⟨hf, hlock⟩ := unlocked hin
  refine hs.gain ?_ rfl
  simp [State.handles, handlesOf, hf, State.hold, Frame.handles, hlock, hid]

theorem Fresh.setLock (hs : Fresh s) (hin : s.innermost none = some (f, rest)) (hid : h.id = s.next) :
    Fresh ⟨e, mem', State.setLock f rest (some h), s.next + 1⟩ := by
  obtain ⟨hf, hlock⟩ := unlocked hin
  refine hs.gain ?_ rfl
  simp [State.handles, handlesOf, hf, State.setLock, Frame.handles, hlock, hid]

theorem Fresh.relock (hs : Fresh s) (hf : s.frames = f :: rest) (hlock : f.lock = some k)
    (hid : h.id = k.id) : Fresh ⟨e, mem', State.setLock f rest (some h), s.next⟩ := by
  refine hs.shrink (List.Perm.subperm (.of_eq ?_)) le_rfl
  simp [State.handles, handlesOf, hf, State.setLock, Frame.handles, hlock, hid]

theorem Fresh.unlock (hs : Fresh s) (hf : s.frames = f :: rest) (hlock : f.lock = some k)
    (hid : h.id = k.id) : Fresh ⟨e, mem', State.hold f rest h, s.next⟩ := by
  refine hs.shrink (List.Perm.subperm (.of_eq ?_)) le_rfl
  simp [State.handles, handlesOf, hf, State.hold, Frame.handles, hlock, hid]

theorem Fresh.mapLive (hs : Fresh s) {g : Handle → Option Handle}
    (hg : ∀ h ∈ s.frames.flatMap Frame.live, ∀ h', g h = some h' → h'.id = h.id) :
    Fresh { s with mem := mem', frames := s.mapLive g } :=
  hs.shrink (mapLive_ids hg).subperm le_rfl

theorem Fresh.slide (hs : Fresh s) {g : Frame} (moved : List Handle)
    (hf : s.frames = f :: g :: rest) (hmoved : (moved.map Handle.id).Nodup)
    (hsub : moved.map Handle.id ⊆ f.live.map Handle.id) :
    Fresh ⟨e, mem', { g with live := moved ++ g.live, lock := none } :: rest, s.next⟩ := by
  refine hs.shrink ?_ le_rfl
  simp only [State.handles, handlesOf, hf, List.flatMap_cons, Frame.handles, List.map_append,
    Option.toList_none, List.nil_append]
  rw [List.append_assoc (List.map Handle.id moved)]
  refine List.Subperm.append ?_ (List.Sublist.subperm ?_)
  · exact (List.subperm_of_subset hmoved hsub).trans (List.sublist_append_right _ _).subperm
  · exact (List.sublist_append_right _ _).append (List.Sublist.refl _)

theorem step_fresh {op : Op} (hs : Fresh s) (hheld : ∀ h ∈ s.handles, Placeable h)
    (h : s.step op = some s') : Fresh s' := by
  cases op with
  | alloc l value =>
    obtain ⟨f, rest, a, e, hin, -, -, rfl⟩ := alloc_some h
    exact hs.hold hin rfl
  | vec l capacity =>
    obtain ⟨f, rest, a, e, hin, -, rfl⟩ := vec_some h
    exact hs.hold hin rfl
  | empty l =>
    obtain ⟨f, rest, hin, rfl⟩ := empty_some h
    exact hs.hold hin rfl
  | scope =>
    rw [scope_some h]
    exact hs.shrink (List.Subperm.refl _) le_rfl
  | leave =>
    obtain ⟨f, rest, hin, -, rfl⟩ := leave_some h
    obtain ⟨hf, -⟩ := unlocked hin
    refine hs.shrink (List.Sublist.subperm ?_) le_rfl
    simp [State.handles, handlesOf, hf]
  | compact l =>
    rw [compact_some h]
    exact hs.shrink (List.Subperm.refl _) le_rfl
  | finish id =>
    obtain ⟨f, g, rest, r, ⟨hf, -⟩, -, hr, -, -, rfl⟩ := finish_some h
    have hid : r.id ∈ f.live.map Handle.id := List.mem_map_of_mem hr
    exact hs.slide [_] hf (List.nodup_singleton r.id) (List.cons_subset.mpr ⟨hid, List.nil_subset _⟩)
  | span l =>
    obtain ⟨f, rest, hin, rfl⟩ := span_some h
    exact hs.setLock hin rfl
  | push value =>
    obtain ⟨f, rest, k, a, e, hin, hlock, -, -, rfl⟩ := push_some h
    exact hs.relock (locked hin hlock).1 hlock rfl
  | extend src =>
    rcases extend_some h with ⟨-, rfl⟩ | ⟨f, rest, k, a, e, hin, hlock, -, rfl⟩
    · exact hs
    · exact hs.relock (locked hin hlock).1 hlock rfl
  | pop =>
    rcases pop_some h with rfl | ⟨f, rest, k, hin, hlock, -, rfl⟩
    · exact hs
    · exact hs.relock (locked hin hlock).1 hlock rfl
  | close =>
    obtain ⟨f, rest, k, hin, hlock, rfl⟩ := close_some h
    exact hs.unlock (locked hin hlock).1 hlock rfl
  | reserve l capacity =>
    obtain ⟨f, rest, a, e, hin, -, rfl⟩ := reserve_some h
    exact hs.setLock hin rfl
  | editReserve ed =>
    obtain ⟨f, rest, k, mem', k', hin, hlock, hedit, rfl⟩ := editReserve_some h
    obtain ⟨hf, -, -⟩ := locked hin hlock
    have hk : k ∈ s.handles := List.mem_flatMap.mpr
      ⟨f, hf ▸ List.mem_cons_self, List.mem_append_left _ (by simp [hlock])⟩
    exact hs.relock hf hlock (Edit.apply_spec (hheld k hk).ok hedit).1.id
  | freeze =>
    obtain ⟨f, rest, k, hin, hlock, rfl⟩ := freeze_some h
    exact hs.unlock (locked hin hlock).1 hlock rfl
  | dropReserve =>
    obtain ⟨f, rest, k, hin, hlock, rfl⟩ := dropReserve_some h
    obtain ⟨hf, -, -⟩ := locked hin hlock
    refine hs.shrink (List.Sublist.subperm ?_) le_rfl
    simp [State.handles, handlesOf, hf, State.setLock, Frame.handles, hlock]
  | edit id ed =>
    obtain ⟨k, mem', k', hlive, rfl, hedit, rfl⟩ := edit_some h
    obtain ⟨hed, -⟩ := Edit.apply_spec (hheld k (live_sub_handles hlive)).ok hedit
    refine hs.mapLive fun h _ h' heq => ?_
    obtain rfl := Option.some.inj heq
    split
    · rename_i hid
      exact hed.id.trans hid.symm
    · rfl
  | drop id =>
    obtain rfl := Option.some.inj h
    refine hs.mapLive fun h _ h' heq => ?_
    obtain ⟨-, heq⟩ := Option.ite_none_left_eq_some.mp heq
    exact congrArg Handle.id (Option.some.inj heq).symm

structure Stays (s' : State) (ps : List Pending) (p : Replay α) (i : ℕ) (records : List (Record α)) :
    Prop where
  cutting : p.Cutting i (records.map Record.event)
  marked : Marked s' ps (p.runFrom i (records.map Record.event))

theorem stays_nil (h : Marked s' ps p) : Stays s' ps p i [] := ⟨trivial, h⟩

theorem Stays.cons {r : Record α} {records : List (Record α)}
    (hcut : ∀ m, r.event = .rewind m → p.Cut m)
    (h : Stays s' ps (p.step i r.event) (i + 1) records) : Stays s' ps p i (r :: records) :=
  ⟨⟨hcut, h.cutting⟩, h.marked⟩

section Ops

variable (hm : Marked s ps p) (hs : ArenaSvg.Stacked p)

include hm

theorem Marked.within (hf : s.frames = f :: rest) : f.Within p.Cut p.current := by
  have ht := hm.tower
  rw [hf] at ht
  exact ht.within

theorem Marked.bumped (hin : s.innermost none = some (f, rest)) : s.offset = p.current := by
  obtain ⟨hf, hlock⟩ := unlocked hin
  obtain ⟨saved, result, live, lock⟩ := f
  cases hlock
  exact hm.level (by simp [State.building, hf])

theorem Marked.swap (hf : s.frames = f :: rest) (hsaved : f'.saved = f.saved)
    (hcut : ∀ m ≤ f.saved, p.Cut m → p'.Cut m) (hf' : f'.Within p'.Cut p'.current)
    (hlevel : (∀ h, f'.lock = some h → h.kind ≠ .builder) → e = p'.current)
    (hlocked : ∀ h, f'.lock = some h → h.kind = .builder → h.offset = p'.current) :
    Marked ⟨e, mem', f' :: rest, n'⟩ ps p' := by
  have ht := hm.tower
  rw [hf] at ht
  refine ⟨fun hb => hlevel fun h hh hk => ?_, ?_, ht.swap hsaved hcut hf'⟩
  · obtain ⟨saved, result, live, lock⟩ := f'
    cases hh
    simp [State.building, hk] at hb
  · rintro g gs h ⟨⟩ hh hk
    exact hlocked h hh hk

include hs in
theorem Marked.hold (hin : s.innermost none = some (f, rest)) (hh : h.offset = p.current)
    (hcut : ∀ m ≤ p.current, p.Cut m → p'.Cut m) (hle : p.current ≤ e) (he : e = p'.current) :
    Marked ⟨e, mem', State.hold f rest h, n'⟩ ps p' := by
  obtain ⟨hf, hlock⟩ := unlocked hin
  have hw := hm.within hf
  have hlow := hw.low_top
  refine hm.swap hf rfl (fun m hm => hcut m (hm.trans hlow)) ?_ (fun _ => he) fun _ hk => none_ne hk
  refine hw.hold hcut (hh ▸ hcut _ le_rfl hs.cut_current) (hh ▸ hlow) (fun k hk => ?_) ?_
  · exact (hw.live_top hk).trans (hle.trans he.le)
  · exact hh ▸ hle.trans he.le

include hs in
theorem Marked.setLock (hin : s.innermost none = some (f, rest)) (hh : h.offset = p.current)
    (hcut : ∀ m ≤ p.current, p.Cut m → p'.Cut m) (hle : p.current ≤ p'.current)
    (hlevel : h.kind ≠ .builder → e = p'.current)
    (hlocked : h.kind = .builder → p'.current = p.current) :
    Marked ⟨e, mem', State.setLock f rest (some h), n'⟩ ps p' := by
  obtain ⟨hf, hlock⟩ := unlocked hin
  have hw := hm.within hf
  have hlow := hw.low_top
  refine hm.swap hf rfl (fun m hm => hcut m (hm.trans hlow)) ?_ (fun hne => hlevel (hne h rfl)) ?_
  · exact hw.setLock hcut (hh ▸ hcut _ le_rfl hs.cut_current) (hh ▸ hlow)
      (fun k hk => hh ▸ hw.live_top hk) (hh ▸ hle)
  · rintro k ⟨⟩ hk
    exact hh.trans (hlocked hk).symm

theorem Marked.relock (hf : s.frames = f :: rest) (hlock : f.lock = some k)
    (hoff : h.offset = k.offset) (hkind : h.kind = k.kind)
    (he : k.kind ≠ .builder → e = s.offset) :
    Marked ⟨e, mem', State.setLock f rest (some h), n'⟩ ps p := by
  have hw := hm.within hf
  have hceil := ceiling_of_locked hlock p.current
  have hlow := hw.low
  have hhigh := hw.high
  rw [hceil] at hlow hhigh
  refine hm.swap hf rfl (fun _ _ hp => hp) ?_ (fun hne => ?_) ?_
  · refine hw.setLock (fun _ _ hp => hp) (hoff ▸ hw.lock k hlock) (hoff ▸ hlow) (fun g hg => ?_)
      (hoff ▸ hhigh)
    exact hoff ▸ hceil ▸ (hw.live g hg).2.2
  · have hk : k.kind ≠ .builder := hkind ▸ hne h rfl
    refine (he hk).trans (hm.level ?_)
    obtain ⟨saved, result, live, lock⟩ := f
    cases hlock
    simp [State.building, hf, hk]
  · rintro g ⟨⟩ hk
    exact hoff.trans (hm.locked f rest k hf hlock (hkind ▸ hk))

theorem Marked.unlock (hf : s.frames = f :: rest) (hlock : f.lock = some k)
    (hoff : h.offset = k.offset) (hcut : ∀ m ≤ p.current, p.Cut m → p'.Cut m)
    (hle : k.offset ≤ e) (he : e = p'.current) :
    Marked ⟨e, mem', State.hold f rest h, n'⟩ ps p' := by
  have hw := hm.within hf
  have hlow := hw.low
  have hhigh := hw.high
  rw [ceiling_of_locked hlock] at hlow hhigh
  refine hm.swap hf rfl (fun m hm => hcut m (hm.trans hw.low_top)) ?_ (fun _ => he)
    fun _ hk => none_ne hk
  refine hw.hold hcut (hoff ▸ hcut _ hhigh (hw.lock k hlock)) (hoff ▸ hlow) (fun g hg => ?_)
    (hoff ▸ he ▸ hle)
  have hlive := (hw.live g hg).2.2
  rw [ceiling_of_locked hlock] at hlive
  exact hlive.trans (hle.trans he.le)

theorem Marked.enter (hs : ArenaSvg.Stacked p) {result : Option Layout} (hb : s.building = false) :
    Marked (s.enter result) ps p := by
  have ho := hm.level hb
  refine ⟨fun _ => ho, ?_, .frame ⟨ho ▸ hs.cut_current, ho.le, le_rfl, ?_, ?_⟩ ?_⟩
  · rintro g gs h ⟨⟩ hl
    exact none_ne hl
  · exact fun k hk => absurd hk List.not_mem_nil
  · exact fun k hk => none_ne hk
  · exact hm.tower.mono ho.ge fun _ _ hp => hp

theorem Marked.mapLive {g : Handle → Option Handle}
    (hg : ∀ h ∈ s.frames.flatMap Frame.live, ∀ h', g h = some h' → h'.offset = h.offset) :
    Marked { s with mem := mem', frames := s.mapLive g } ps p := by
  refine ⟨fun hb => hm.level ?_, ?_, hm.tower.mapLive hg⟩
  · revert hb
    unfold State.building State.mapLive
    cases s.frames with
    | nil => exact id
    | cons f rest =>
      obtain ⟨saved, result, live, lock⟩ := f
      cases lock <;> exact id
  · intro f rest h hf hl hk
    obtain ⟨f, rest, hfr, rfl, -⟩ := List.map_eq_cons_iff.mp hf
    exact hm.locked f rest h hfr hl hk

end Ops

theorem aligned_up {n : ℕ} {l : Layout} (hn : n ≤ SIZE) (hd : l.align ∣ n) :
    alignUp n l.align = n := by
  rw [alignUp_eq hn, Align.up_of_dvd hd l.align_pos]

theorem bump_snug {n size a : ℕ} {l : Layout} (hn : n ≤ SIZE) (hd : l.align ∣ n)
    (h : bump n size l.align = some (a, e)) : a = n ∧ n ≤ e := by
  obtain ⟨rfl, rfl, -⟩ := bump_some hn h
  rw [Align.up_of_dvd hd l.align_pos]
  exact ⟨rfl, Nat.le_add_right _ _⟩

section Emits

variable {label : α} (hm : Marked s ps p) (hs : ArenaSvg.Stacked p) (hd : ArenaSvg.Discipline p)
  (hl : Logging s p.current)

theorem cuts_alloc (hd : ArenaSvg.Discipline p) {n : ℕ} {label : α} :
    ∀ m ≤ p.current, p.Cut m → (p.step i (.alloc n label)).Cut m :=
  fun _ hm hcut => hcut.step hd fun _ => hm

include hm hs hd hl in
theorem alloc_stays {l : Layout} {value : List UInt8} (hsnug : l.align ∣ s.offset)
    (h : s.alloc l value = some s') :
    Stays s' ps p i [s'.level (.alloc s'.offset label)] := by
  obtain ⟨f, rest, a, e, hin, hbump, -, rfl⟩ := alloc_some h
  obtain ⟨rfl, hle⟩ := bump_snug hl.room hsnug hbump
  have ho := hm.bumped hin
  exact .cons (fun m hr => alloc_ne hr) (stays_nil (hm.hold hs hin ho (cuts_alloc hd)
    (ho ▸ hle) rfl))

include hm hs hd hl in
theorem vec_stays {l : Layout} {capacity : UInt32} (hsnug : l.align ∣ s.offset)
    (h : s.vec l capacity = some s') :
    Stays s' ps p i [s'.level (.alloc s'.offset label)] := by
  obtain ⟨f, rest, a, e, hin, hbump, rfl⟩ := vec_some h
  obtain ⟨rfl, hle⟩ := bump_snug hl.room hsnug hbump
  have ho := hm.bumped hin
  exact .cons (fun m hr => alloc_ne hr) (stays_nil (hm.hold hs hin ho (cuts_alloc hd)
    (ho ▸ hle) rfl))

include hm hs hd hl in
theorem reserve_stays {l : Layout} {capacity : UInt32} (hsnug : l.align ∣ s.offset)
    (h : s.reserve l capacity = some s') :
    Stays s' ps p i [s'.level (.alloc s'.offset label)] := by
  obtain ⟨f, rest, a, e, hin, hbump, rfl⟩ := reserve_some h
  obtain ⟨rfl, hle⟩ := bump_snug hl.room hsnug hbump
  have ho := hm.bumped hin
  exact .cons (fun m hr => alloc_ne hr) (stays_nil (hm.setLock hs hin ho (cuts_alloc hd)
    (ho ▸ hle) (fun _ => rfl) fun hk => absurd hk reserve_ne_builder))

include hm hs hl in
theorem empty_marked {l : Layout} (hsnug : l.align ∣ s.offset) (h : s.empty l = some s') :
    Marked s' ps p := by
  obtain ⟨f, rest, hin, rfl⟩ := empty_some h
  have ho := hm.bumped hin
  rw [aligned_up hl.room hsnug]
  exact hm.hold hs hin ho (fun _ _ hp => hp) ho.ge ho

include hm hs hl in
theorem span_marked {l : Layout} (hsnug : l.align ∣ s.offset) (h : s.span l = some s') :
    Marked s' ps p := by
  obtain ⟨f, rest, hin, rfl⟩ := span_some h
  have ho := hm.bumped hin
  rw [aligned_up hl.room hsnug]
  exact hm.setLock hs hin ho (fun _ _ hp => hp) le_rfl (fun hk => absurd rfl hk) fun _ => rfl

include hm hs in
theorem scope_marked (h : s.scope = some s') : Marked s' ps p := by
  rw [scope_some h]
  refine hm.enter hs ?_
  unfold State.scope at h
  unfold State.building
  cases hf : s.frames with
  | nil => rfl
  | cons f rest =>
    obtain ⟨saved, result, live, lock⟩ := f
    rw [hf] at h
    obtain ⟨hfree, -⟩ := Option.ite_none_right_eq_some.mp h
    cases lock with
    | none => rfl
    | some k =>
      simp only [Option.map_some, List.mem_cons, Option.some.injEq, reduceCtorEq, List.not_mem_nil,
        or_false, false_or] at hfree
      simp [hfree]

include hm hs in
theorem compact_marked {l : Layout} (h : s.compact l = some s') : Marked s' ps p := by
  rw [compact_some h]
  refine hm.enter hs ?_
  simp only [State.compact, Option.bind_eq_bind, Option.bind_eq_some_iff, Prod.exists] at h
  obtain ⟨f, rest, hin, -⟩ := h
  obtain ⟨hf, hlock⟩ := unlocked hin
  obtain ⟨saved, result, live, lock⟩ := f
  cases hlock
  simp [State.building, hf]

include hm in
theorem push_marked {value : List UInt8} (h : s.push value = some s') : Marked s' ps p := by
  obtain ⟨f, rest, k, a, e, hin, hlock, -, -, rfl⟩ := push_some h
  obtain ⟨hf, hk, -⟩ := locked hin hlock
  exact hm.relock hf hlock rfl rfl fun hne => absurd hk hne

include hm in
theorem extend_marked {src : List (List UInt8)} (h : s.extend src = some s') : Marked s' ps p := by
  rcases extend_some h with ⟨-, rfl⟩ | ⟨f, rest, k, a, e, hin, hlock, -, rfl⟩
  · exact hm
  · obtain ⟨hf, hk, -⟩ := locked hin hlock
    exact hm.relock hf hlock rfl rfl fun hne => absurd hk hne

include hm in
theorem pop_marked (h : s.pop = some s') : Marked s' ps p := by
  rcases pop_some h with rfl | ⟨f, rest, k, hin, hlock, -, rfl⟩
  · exact hm
  · obtain ⟨hf, hk, -⟩ := locked hin hlock
    exact hm.relock hf hlock rfl rfl fun hne => absurd hk hne

include hm hl in
theorem editReserve_marked {ed : Edit} (h : s.editReserve ed = some s') : Marked s' ps p := by
  obtain ⟨f, rest, k, mem', k', hin, hlock, hedit, rfl⟩ := editReserve_some h
  obtain ⟨hf, hk, -⟩ := locked hin hlock
  obtain ⟨hed, -⟩ := Edit.apply_spec (hl.top_lock hf hlock).ok hedit
  exact hm.relock hf hlock hed.offset ((hed.reserve hk).1.trans hk.symm) fun _ => rfl

include hm in
theorem edit_marked {id : ℕ} {ed : Edit} (hheld : ∀ h ∈ s.handles, Placeable h) (hfresh : Fresh s)
    (h : s.edit id ed = some s') : Marked s' ps p := by
  obtain ⟨k, mem', k', hlive, rfl, hedit, rfl⟩ := edit_some h
  have hk := live_sub_handles hlive
  obtain ⟨hed, -⟩ := Edit.apply_spec (hheld k hk).ok hedit
  refine hm.mapLive fun h hh h' heq => ?_
  obtain rfl := Option.some.inj heq
  split
  · rename_i hid
    rw [hed.offset, List.inj_on_of_nodup_map hfresh.nodup (live_sub_handles hh) hk hid]
  · rfl

include hm in
theorem drop_marked (id : ℕ) : Marked (s.drop id) ps p := by
  refine hm.mapLive fun h _ h' heq => ?_
  obtain ⟨-, heq⟩ := Option.ite_none_left_eq_some.mp heq
  exact congrArg Handle.offset (Option.some.inj heq).symm

include hm hd hl in
theorem close_stays (h : s.close = some s') : Stays s' ps p i (s'.closed s label) := by
  obtain ⟨f, rest, k, hin, hlock, rfl⟩ := close_some h
  obtain ⟨hf, hk, -⟩ := locked hin hlock
  obtain ⟨-, hext⟩ := hl.builder f rest k hf hlock hk
  have hfull := (hl.top_lock hf hlock).ok.full (.inr hk)
  have hoff := hm.locked f rest k hf hlock hk
  have hle : k.offset ≤ s.offset := hext ▸ Nat.le_add_right _ _
  have hunlock : ∀ {p' : Replay α}, (∀ m ≤ p.current, p.Cut m → p'.Cut m) →
      s.offset = p'.current →
      Marked ⟨s.offset, s.mem, State.hold f rest { k with kind := .span }, s.next⟩ ps p' :=
    fun hcut he => hm.unlock hf hlock rfl hcut hle he
  obtain ⟨saved, result, live, lock⟩ := f
  cases hlock
  rw [State.closed, hf]
  dsimp only
  split
  · exact .cons (fun m hr => alloc_ne hr) (stays_nil (hunlock (cuts_alloc hd) rfl))
  · rename_i hlen
    have hzero : k.capacity = 0 := by omega
    have hsame : s.offset = p.current := by
      rw [← hext, Handle.extent, hzero, Nat.zero_mul, Nat.add_zero, hoff]
    exact stays_nil (hunlock (fun _ _ hp => hp) hsame)

include hm hs hd in
theorem freeze_stays (hsnug : s.snug .freeze = true) (h : s.freeze = some s') :
    Stays s' ps p i [s'.level (.rewind s'.offset : Event α)] := by
  obtain ⟨f, rest, k, hin, hlock, rfl⟩ := freeze_some h
  obtain ⟨hf, hk, -⟩ := locked hin hlock
  simp only [State.snug, hf, List.head?_cons, Option.all_some, hlock, decide_eq_true_eq] at hsnug
  have hcurrent : s.offset = p.current := hm.level (by
    obtain ⟨saved, result, live, lock⟩ := f
    cases hlock
    simp [State.building, hf, hk])
  refine .cons ?_ (stays_nil (hm.unlock hf hlock rfl (fun m _ hcut => hcut.step hd fun hr => rewind_falls hr)
    (Nat.le_add_right _ _) rfl))
  rintro m ⟨⟩
  rcases hsnug with hzero | hfull
  · rw [hzero, Nat.add_zero]
    exact (hm.within hf).lock k hlock
  · rw [hfull, hcurrent]
    exact hs.cut_current

include hm hd in
theorem dropReserve_stays (h : s.dropReserve = some s') :
    Stays s' ps p i [s'.level (.rewind s'.offset : Event α)] := by
  obtain ⟨f, rest, k, hin, hlock, rfl⟩ := dropReserve_some h
  obtain ⟨hf, -, -⟩ := locked hin hlock
  have hw := hm.within hf
  have hlow := hw.low
  rw [ceiling_of_locked hlock] at hlow
  have hcuts : ∀ m ≤ p.current, p.Cut m → (p.step i (.rewind k.offset)).Cut m :=
    fun m _ hcut => hcut.step hd fun hr => rewind_falls hr
  refine .cons ?_ (stays_nil (hm.swap hf rfl (fun m hm => hcuts m (hm.trans hw.low_top)) ?_
    (fun _ => rfl) fun _ hk => none_ne hk))
  · rintro m ⟨⟩
    exact hw.lock k hlock
  · refine hw.unlocked hcuts hlow fun g hg => ?_
    have hlive := (hw.live g hg).2.2
    rwa [ceiling_of_locked hlock] at hlive

theorem Marked.landed {o : ℕ} (ht : Tower p.Cut o s.frames ps) (ho : s.offset = o) (hp : p.current = o)
    (hfree : ∀ f rest h, s.frames = f :: rest → f.lock = some h → h.kind ≠ .builder) :
    Marked s ps p := by
  refine ⟨fun _ => ho.trans hp.symm, fun f rest h hf hl hk => absurd hk (hfree f rest h hf hl), ?_⟩
  rwa [hp]

include hm hd hl in
theorem leave_stays (hexit : ps.head?.map Pending.depth ≠ some s.frames.length)
    (h : s.leave = some s') : Stays s' ps p i [s'.level (.rewind s'.offset : Event α)] := by
  obtain ⟨f, rest, hin, -, rfl⟩ := leave_some h
  obtain ⟨hf, -⟩ := unlocked hin
  have ht := hm.tower
  rw [hf] at ht hexit
  refine .cons ?_ (stays_nil (.landed ((ht.pop hexit).mono le_rfl fun m _ hcut =>
    hcut.step hd fun hr => rewind_falls hr) rfl rfl ?_))
  · rintro m ⟨⟩
    exact ht.within.saved
  · intro g gs k hg hk
    refine hl.under g ?_ k hk
    rw [hf, List.tail_cons, show rest = g :: gs from hg]
    exact List.mem_cons_self

include hm hd hl in
theorem finish_stays {id : ℕ} (hsnug : s.snug (.finish id) = true)
    (hexit : ps.head?.map Pending.depth ≠ some s.frames.length) (h : s.finish id = some s') :
    Stays s' ps p i (s'.compacted s label) := by
  obtain ⟨f, g, rest, r, ⟨hf, -⟩, -, hr, -, ⟨hres, -⟩, rfl⟩ := finish_some h
  simp only [State.snug, hf, List.head?_cons, Option.all_some, hres, decide_eq_true_eq] at hsnug
  rw [aligned_up (hl.top_saved hf) hsnug]
  have ht := hm.tower
  rw [hf] at ht hexit
  have hsaved := ht.within.saved
  have hcuts : ∀ m ≤ f.saved, p.Cut m → (p.step i (.rewind f.saved)).Cut m :=
    fun m _ hcut => hcut.step hd fun hr => rewind_falls hr
  have hbelow : Tower (p.step i (.rewind f.saved)).Cut f.saved (g :: rest) ps :=
    (ht.pop hexit).mono le_rfl hcuts
  have hd' : ArenaSvg.Discipline (p.step i (.rewind f.saved)) := hd.step fun hr => rewind_falls hr
  have hheld : ∀ {q : Replay α} {mem'}, f.saved + r.len * r.layout.size = q.current →
      (∀ m ≤ f.saved, (p.step i (.rewind f.saved)).Cut m → q.Cut m) →
      Marked ⟨f.saved + r.len * r.layout.size, mem', State.hold g rest { r with offset := f.saved },
        s.next⟩ ps q := by
    intro q mem' hq hcut
    have hw := hbelow.within
    have hgrow : f.saved ≤ f.saved + r.len * r.layout.size := Nat.le_add_right _ _
    refine .landed (hbelow.swap rfl (fun m hm => hcut m (hm.trans hw.low_top)) (hw.hold hcut ?_ ?_ ?_
      hgrow)) rfl hq.symm ?_
    · exact hcut _ le_rfl (hcuts _ le_rfl hsaved)
    · exact hw.low_top
    · exact fun k hk => (hw.live_top hk).trans hgrow
    · rintro g' gs k ⟨⟩ hk
      exact none_ne hk
  obtain ⟨start, result, live, lock⟩ := f
  rw [State.compacted, hf]
  dsimp only [State.hold] at hheld ⊢
  refine .cons (fun m hr => ?_) ?_
  · cases hr
    exact hsaved
  · by_cases hpos : r.len * r.layout.size > 0
    · rw [if_pos hpos]
      exact .cons (fun m hr => alloc_ne hr) (stays_nil (hheld rfl (cuts_alloc hd')))
    · rw [if_neg hpos]
      refine stays_nil (hheld ?_ fun _ _ hp => hp)
      rw [Nat.le_zero.mp (Nat.not_lt.mp hpos)]
      rfl

include hm hs hd hl in
theorem op_stays {op : Op} (hfresh : Fresh s) (hsnug : s.snug op = true)
    (hexit : op.exits = true → ps.head?.map Pending.depth ≠ some s.frames.length)
    (h : s.step op = some s') : Stays s' ps p i (s'.emitted s label op) := by
  cases op with
  | alloc l value => exact alloc_stays hm hs hd hl (of_decide_eq_true hsnug) h
  | vec l capacity => exact vec_stays hm hs hd hl (of_decide_eq_true hsnug) h
  | empty l => exact stays_nil (empty_marked hm hs hl (of_decide_eq_true hsnug) h)
  | scope => exact stays_nil (scope_marked hm hs h)
  | leave => exact leave_stays hm hd hl (hexit rfl) h
  | compact l => exact stays_nil (compact_marked hm hs h)
  | finish result => exact finish_stays hm hd hl hsnug (hexit rfl) h
  | span l => exact stays_nil (span_marked hm hs hl (of_decide_eq_true hsnug) h)
  | push value => exact stays_nil (push_marked hm h)
  | extend src => exact stays_nil (extend_marked hm h)
  | pop => exact stays_nil (pop_marked hm h)
  | close => exact close_stays hm hd hl h
  | reserve l capacity => exact reserve_stays hm hs hd hl (of_decide_eq_true hsnug) h
  | editReserve ed => exact stays_nil (editReserve_marked hm hl h)
  | freeze => exact freeze_stays hm hs hd hsnug h
  | dropReserve => exact dropReserve_stays hm hd h
  | edit id ed => exact stays_nil (edit_marked hm hl.held hfresh h)
  | drop id => exact Option.some.inj h ▸ stays_nil (drop_marked hm id)

end Emits

theorem replace2_marked {id1 id2 : ℕ} {q : Pending} {pending : List Pending} (hm : Marked s ps p)
    (hs : ArenaSvg.Stacked p) (hsnug : Session.snug ⟨s, pending⟩ (.replace2 id1 id2 : Act α) = true)
    (h : s.replace2 id1 id2 = some (s', q)) : Marked s' (q :: ps) p := by
  simp only [State.replace2, Option.bind_eq_bind, Option.bind_eq_some_iff, Prod.exists] at h
  obtain ⟨f, rest, hin, span1, hfind1, span2, -, h⟩ := h
  obtain ⟨-, h⟩ := Option.ite_none_right_eq_some.mp h
  obtain ⟨rfl, rfl⟩ := Prod.mk.inj (Option.some.inj h)
  obtain ⟨hf, hlock⟩ := unlocked hin
  have ho := hm.bumped hin
  have hw := hm.within hf
  have hspan1 := List.mem_of_find?_eq_some hfind1
  obtain ⟨hcut, hlow, -⟩ := hw.live span1 hspan1
  simp only [Session.snug, hf, List.head?_cons, Option.all_some, List.all_eq_true,
    decide_eq_true_eq] at hsnug
  have habove := fun k hk => hsnug span1 hspan1 k hk (by simpa using List.find?_some hfind1)
  have ht := hm.tower
  rw [hf] at ht
  refine ⟨fun _ => ho, ?_, .sub ⟨ho ▸ hs.cut_current, ho.le, le_rfl, ?_, ?_⟩ rfl hcut
    (ho ▸ hw.live_top hspan1) (ht.swap rfl (fun _ _ hp => hp) ?_)⟩
  · rintro g gs k ⟨⟩ hk
    exact none_ne hk
  · exact fun k hk => absurd hk List.not_mem_nil
  · exact fun k hk => none_ne hk
  · refine ⟨hw.saved, ?_, ?_, fun k hk => ?_, fun k hk => none_ne (hlock.symm.trans hk)⟩
    · exact hlow.trans (ceiling_of_unlocked hlock span1.offset).ge
    · exact (ceiling_of_unlocked hlock span1.offset).le
    · obtain ⟨hk, hids⟩ := List.mem_filter.mp hk
      obtain ⟨hcutk, hlowk, -⟩ := hw.live k hk
      have hbelow : k.offset ≤ span1.offset := by
        have hne : k.id ≠ id1 ∧ k.id ≠ id2 := by simpa using hids
        exact ((habove k hk).resolve_left hne.1).resolve_left hne.2
      exact ⟨hcutk, hlowk, hbelow.trans (ceiling_of_unlocked hlock span1.offset).ge⟩

theorem replace2_fresh {id1 id2 : ℕ} {q : Pending} (hs : Fresh s)
    (h : s.replace2 id1 id2 = some (s', q)) : Fresh s' := by
  simp only [State.replace2, Option.bind_eq_bind, Option.bind_eq_some_iff, Prod.exists] at h
  obtain ⟨f, rest, hin, span1, -, span2, -, h⟩ := h
  obtain ⟨-, h⟩ := Option.ite_none_right_eq_some.mp h
  obtain ⟨rfl, -⟩ := Prod.mk.inj (Option.some.inj h)
  obtain ⟨hf, hlock⟩ := unlocked hin
  refine hs.shrink (List.Sublist.subperm ?_) le_rfl
  simp only [State.handles, handlesOf, hf, List.flatMap_cons, Frame.handles, hlock,
    Option.toList_none, List.nil_append, List.map_append]
  exact ((List.filter_sublist).map _).append (List.Sublist.refl _)

theorem Settles.fresh {q : Pending} {round : Round} {new1 new2 : Handle}
    (h : Settles s q s' round f new1 new2) (hs : Fresh s) (hne : new1.id ≠ new2.id) : Fresh s' := by
  obtain ⟨sub, rest, hf, h1, h2, rfl⟩ := h.frames
  refine hs.slide [_, _] hf ?_ ?_
  · simpa using hne.symm
  · have hid1 : new1.id ∈ sub.live.map Handle.id := List.mem_map_of_mem h1
    have hid2 : new2.id ∈ sub.live.map Handle.id := List.mem_map_of_mem h2
    exact List.cons_subset.mpr ⟨hid2, List.cons_subset.mpr ⟨hid1, List.nil_subset _⟩⟩

theorem Stays.raise {r : Record α} {records : List (Record α)} {n b : ℕ} {label : α}
    (hs : ArenaSvg.Stacked p) (hd : ArenaSvg.Discipline p) (hr : r.event = .alloc n label)
    (hle : p.current ≤ n) (hzero : ¬ b > 0 → p.current = n)
    (h : ∀ (q : Replay α) j, q.current = n → (∀ m ≤ p.current, p.Cut m → q.Cut m) →
      ArenaSvg.Stacked q → ArenaSvg.Discipline q → Stays s' ps q j records) :
    Stays s' ps p i ((if b > 0 then [r] else []) ++ records) := by
  by_cases hb : b > 0
  · rw [if_pos hb]
    have hrise : r.event.rises = true → p.current ≤ r.event.newOffset := fun _ => by
      rw [hr]
      exact hle
    refine .cons (fun m hm => alloc_ne (hr.symm.trans hm)) (h _ _ ?_ (fun m hm hcut => ?_) ?_ ?_)
    · rw [ArenaSvg.step_current, hr]
      rfl
    · exact hcut.step hd fun _ => hm
    · exact hs.step hd hrise fun m hm => alloc_ne (hr.symm.trans hm)
    · exact hd.step hrise
  · rw [if_neg hb]
    exact h p i (hzero hb) (fun _ _ hp => hp) hs hd

theorem settle_stays {id1 id2 : ℕ} {q : Pending} {round : Round} {label1 label2 : α}
    (hm : Marked s (q :: ps) p) (hs : ArenaSvg.Stacked p) (hd : ArenaSvg.Discipline p)
    (hsnug : Session.snug ⟨s, q :: ps⟩ (.settle label1 label2 id1 id2 : Act α) = true)
    (h : s.settle q id1 id2 = some (s', round)) :
    Stays s' ps p i (s'.rotated round label1 label2) := by
  obtain ⟨f, new1, new2, hset, hdepth, hid1, -⟩ := settle_some h
  obtain ⟨hrise1, hrise2, hoffset⟩ := hset.rises
  obtain ⟨sub, rest, hf, h1, -, rfl⟩ := hset.frames
  have hframes : s.frames = sub :: f :: rest := hf
  simp only [Session.snug, hframes, List.head?_cons, Option.all_some, List.all_eq_true,
    decide_eq_true_eq] at hsnug
  have hdvd := hsnug new1 h1 hid1
  rw [← hset.finish, ← hset.layout2] at hdvd
  have hd2 : round.next.span2.offset = round.next.span1.finish :=
    hset.dst.trans (aligned_up hset.inside1 hdvd)
  have ht := hm.tower
  rw [hframes] at ht hdepth
  obtain ⟨hcut, hbelow⟩ := ht.unwind hdepth.symm
  rw [← hset.start] at hcut hbelow
  have hw := hbelow.within
  have hcuts : ∀ m, p.Cut m → (p.step i (.rewind round.next.span1.offset)).Cut m :=
    fun m hm => hm.step hd fun hr => rewind_falls hr
  have hback : ∀ m, (Event.rewind round.next.span1.offset : Event α) = .rewind m → p.Cut m := by
    rintro m ⟨⟩
    exact hcut
  refine .cons hback (.raise (hs.step hd (fun hr => rewind_falls hr) hback) (hd.step fun hr => rewind_falls hr)
    rfl hrise1 (fun hb => ?_) fun q₂ j hq₂ hcut₂ hs₂ hd₂ => ?_)
  · change round.next.span1.offset = round.next.span1.offset + round.next.span1.bytes
    omega
  · rw [← List.append_nil (ite _ _ _)]
    refine .raise hs₂ hd₂ rfl (hq₂ ▸ hrise2) (fun hb => ?_) fun q₃ j' hq₃ hcut₃ _ _ => stays_nil ?_
    · change _ = round.next.span2.offset + round.next.span2.bytes
      rw [hq₂, hd2]
      omega
    · have hfirst := hw.hold (h := { new1 with offset := round.next.span1.offset })
        (fun m hm hp => hcut₂ m hm (hcuts m hp)) (hcut₂ _ le_rfl (hcuts _ hcut)) hw.low_top
        (fun k hk => (hw.live_top hk).trans hrise1) hrise1
      rw [hq₂] at hcut₃
      have hsecond := hfirst.hold (h := { new2 with offset := round.next.span2.offset }) hcut₃
        (hd2 ▸ hcut₃ _ le_rfl (hq₂ ▸ hs₂.cut_current)) (hd2 ▸ hw.low_top.trans hrise1)
        (fun k hk => (hfirst.live_top hk).trans hrise2) (hd2 ▸ hrise2)
      refine .landed (hbelow.swap rfl (fun m hm hp => ?_) hsecond) hset.offset hq₃ ?_
      · have hlow := hm.trans hw.low_top
        exact hcut₃ m (hlow.trans hrise1) (hcut₂ m hlow (hcuts m hp))
      · rintro g gs k ⟨⟩ hk
        exact none_ne hk

structure Session.Tidy (t : Session) (p : Replay α) : Prop where
  logging : t.Logging p.current
  fresh : Fresh t.arena
  marked : Marked t.arena t.pending p
  stacked : ArenaSvg.Stacked p
  discipline : ArenaSvg.Discipline p

theorem Session.step_fresh {t t' : Session} {act : Act α} {records : List (Record α)} {c : ℕ}
    (ht : t.Logging c) (hfresh : Fresh t.arena) (h : t.step act = some (t', records)) :
    Fresh t'.arena := by
  cases act with
  | op o label =>
    rw [Session.step] at h
    split at h
    · cases h
    · obtain ⟨s, hstep, h⟩ := Option.bind_eq_some_iff.mp h
      obtain ⟨-, h⟩ := Option.ite_none_right_eq_some.mp h
      obtain ⟨rfl, -⟩ := Prod.mk.inj (Option.some.inj h)
      exact Arena.step_fresh hfresh ht.arena.held hstep
  | replace2 id1 id2 =>
    obtain ⟨⟨s, p⟩, hopen, h⟩ := Option.bind_eq_some_iff.mp h
    obtain ⟨rfl, -⟩ := Prod.mk.inj (Option.some.inj h)
    exact replace2_fresh hfresh hopen
  | settle label1 label2 id1 id2 =>
    rw [Session.step] at h
    cases hpending : t.pending with
    | nil => rw [hpending] at h; cases h
    | cons p pending =>
      rw [hpending] at h
      obtain ⟨⟨s, round⟩, hsettle, h⟩ := Option.bind_eq_some_iff.mp h
      obtain ⟨rfl, -⟩ := Prod.mk.inj (Option.some.inj h)
      obtain ⟨f, new1, new2, hset, -, -, hne⟩ := settle_some hsettle
      exact hset.fresh hfresh hne
  | uncommitTail released =>
    rw [Session.step] at h
    split at h
    · cases h
    · obtain ⟨rfl, -⟩ := Prod.mk.inj (Option.some.inj h)
      exact hfresh

theorem Session.step_stays {t t' : Session} {act : Act α} {records : List (Record α)}
    (ht : t.Tidy p) (hsnug : t.snug act = true) (h : t.step act = some (t', records)) :
    Stays t'.arena t'.pending p i records := by
  cases act with
  | op o label =>
    rw [Session.step] at h
    split at h
    · cases h
    · rename_i hexit
      obtain ⟨s, hstep, h⟩ := Option.bind_eq_some_iff.mp h
      obtain ⟨-, h⟩ := Option.ite_none_right_eq_some.mp h
      obtain ⟨rfl, rfl⟩ := Prod.mk.inj (Option.some.inj h)
      refine op_stays ht.marked ht.stacked ht.discipline ht.logging.arena ht.fresh hsnug ?_ hstep
      exact fun hop hdepth => hexit ⟨hop, by simpa [Session.rotating] using hdepth⟩
  | replace2 id1 id2 =>
    obtain ⟨⟨s, p⟩, hopen, h⟩ := Option.bind_eq_some_iff.mp h
    obtain ⟨rfl, rfl⟩ := Prod.mk.inj (Option.some.inj h)
    exact stays_nil (replace2_marked ht.marked ht.stacked hsnug hopen)
  | settle label1 label2 id1 id2 =>
    obtain ⟨arena, pending⟩ := t
    cases pending with
    | nil => cases h
    | cons p pending =>
      obtain ⟨⟨s, round⟩, hsettle, h⟩ := Option.bind_eq_some_iff.mp h
      obtain ⟨rfl, rfl⟩ := Prod.mk.inj (Option.some.inj h)
      exact settle_stays ht.marked ht.stacked ht.discipline hsnug hsettle
  | uncommitTail released =>
    rw [Session.step] at h
    split at h
    · cases h
    · rename_i hbuild
      obtain ⟨rfl, rfl⟩ := Prod.mk.inj (Option.some.inj h)
      have hlevel := ht.marked.level (by simpa using hbuild)
      split
      · refine .cons (fun m hr => uncommit_ne hr) (stays_nil ⟨fun _ => rfl, ?_, ?_⟩)
        · exact fun f rest h hf hl hk => (ht.marked.locked f rest h hf hl hk).trans hlevel.symm
        · exact ht.marked.tower.mono hlevel.ge fun _ _ hp => hp
      · exact stays_nil ht.marked

theorem Session.run_cutting {t t' : Session} {acts : List (Act α)} {records : List (Record α)}
    (ht : t.Tidy p) (hsnug : t.snugRun acts = true) (h : t.run acts = some (t', records)) :
    p.Cutting i (records.map Record.event) := by
  induction acts generalizing t p i records with
  | nil =>
    obtain ⟨rfl, rfl⟩ := Prod.mk.inj (Option.some.inj h)
    trivial
  | cons act acts ih =>
    obtain ⟨⟨t₁, first⟩, hstep, h⟩ := Option.bind_eq_some_iff.mp h
    obtain ⟨⟨t₂, more⟩, hrun, h⟩ := Option.bind_eq_some_iff.mp h
    obtain ⟨rfl, rfl⟩ := Prod.mk.inj (Option.some.inj h)
    rw [Session.snugRun, hstep, Option.all_some, Bool.and_eq_true] at hsnug
    obtain ⟨htraced, hpending⟩ := Session.step_traced ht.logging hstep
    have hstays := Session.step_stays (i := i) ht hsnug.1 hstep
    obtain ⟨hstacked, hdiscipline⟩ :=
      ht.stacked.runFrom ht.discipline htraced.rising hstays.cutting
    have hcurrent : (p.runFrom i (first.map Record.event)).current =
        logged p.current (first.map Record.event) := ArenaSvg.runFrom_current
    rw [List.map_append, ArenaSvg.cutting_append]
    refine ⟨hstays.cutting, ih ⟨⟨?_, hpending⟩, Session.step_fresh ht.logging ht.fresh hstep,
      hstays.marked, hstacked, hdiscipline⟩ hsnug.2 hrun⟩
    rw [hcurrent]
    exact htraced.logging

theorem Session.init_tidy : Session.init.Tidy (Replay.empty : Replay α) where
  logging := Session.init_logging
  fresh := ⟨.nil, fun _ hid => absurd hid List.not_mem_nil⟩
  marked := ⟨fun _ => rfl, fun _ _ _ hf => (nomatch hf), .nil 0⟩
  stacked := ⟨.nil, fun _ hl => absurd hl List.not_mem_nil⟩
  discipline := ⟨⟨.nil⟩, fun _ hl => absurd hl List.not_mem_nil⟩

theorem snug_tidy {acts : List (Act α)} {records : List (Record α)} (h : traceOf acts = some records)
    (hsnug : Session.init.snugRun acts = true) (k : ℕ) : (replayed records k).Tidy := by
  obtain ⟨⟨t, out⟩, hrun, hout⟩ := Option.map_eq_some_iff.mp h
  obtain rfl : records = out := hout.symm
  rw [replayed, List.map_take]
  exact ArenaSvg.cutting_tidy (Session.run_traced Session.init_logging hrun).1
    (Session.run_cutting Session.init_tidy hsnug hrun) k

def rotating : List (Act String) :=
  [.op .scope "", .op (.span byte) "", .op (.push [1]) "", .op .close "one", .op (.span byte) "",
    .op (.push [2]) "", .op (.push [2]) "", .op .close "two", .replace2 0 1,
    .op (.reserve byte 1) "sub", .op (.editReserve (.push [3])) "", .op .freeze "",
    .op (.span byte) "", .op (.push [4]) "", .op .close "sub", .settle "one" "two" 2 3,
    .op .leave ""]

def freezing : List (Act String) :=
  [.op .scope "", .op (.reserve byte 4) "buffer", .op (.editReserve (.push [7])) "", .op .freeze ""]

def compacting : List (Act String) :=
  [.op .scope "", .op (.compact byte) "", .op (.span byte) "", .op (.push [7]) "", .op .close "sub",
    .op (.finish 0) "kept", .op .leave ""]

end Ltop.Arena
