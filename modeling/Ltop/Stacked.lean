import Mathlib
import Ltop.Steps

namespace Ltop.Arena

variable {s s' : State} {f g : Frame} {rest : List Frame} {op : Op}

structure Handle.Above (a b : Handle) : Prop where
  later : b.id < a.id
  higher : a.offset < a.extent → b.bytes ⊆ Finset.Ico 0 a.offset

def Stacked (s : State) : Prop := s.handles.Pairwise Handle.Above

theorem handles_top (hf : s.frames = f :: rest) :
    s.handles = f.lock.toList ++ (f.live ++ handlesOf rest) := by
  rw [State.handles, hf, ← List.append_assoc]
  rfl

theorem handles_unlocked (hf : s.frames = f :: rest) (hlock : f.lock = none) :
    s.handles = f.live ++ handlesOf rest := by
  rw [handles_top hf, hlock]
  rfl

theorem handles_locked {h : Handle} (hf : s.frames = f :: rest) (hlock : f.lock = some h) :
    s.handles = h :: (f.live ++ handlesOf rest) := by
  rw [handles_top hf, hlock]
  rfl

theorem handlesOf_hold (f : Frame) (rest : List Frame) (h : Handle) :
    handlesOf (State.hold f rest h) = h :: (f.live ++ handlesOf rest) := rfl

theorem handlesOf_setLock (f : Frame) (rest : List Frame) (h : Handle) :
    handlesOf (State.setLock f rest (some h)) = h :: (f.live ++ handlesOf rest) := rfl

theorem Stacked.fresh (ht : Stacked s) (hs : Inv s) {k : Handle} (hid : k.id = s.next)
    (hlow : s.offset ≤ k.offset) (hh : s'.handles = k :: s.handles) : Stacked s' := by
  unfold Stacked
  rw [hh]
  refine List.pairwise_cons.mpr ⟨fun b hb => ⟨hid ▸ hs.fresh b hb, fun _ => ?_⟩, ht⟩
  exact (hs.layered.fits hb).inside.trans (Finset.Ico_subset_Ico le_rfl hlow)

theorem Stacked.put (ht : Stacked s) {pre tail : List Handle} {h h' : Handle}
    (hold : s.handles = pre ++ tail) (hin : h ∈ pre) (hh : s'.handles = h' :: tail)
    (hid : h'.id = h.id) (hlow : ∀ k ∈ tail, k.bytes ⊆ Finset.Ico 0 h'.offset) :
    Stacked s' := by
  unfold Stacked at *
  rw [hold] at ht
  rw [hh]
  obtain ⟨_, htail, hcross⟩ := List.pairwise_append.mp ht
  exact List.pairwise_cons.mpr
    ⟨fun b hb => ⟨hid ▸ (hcross h hin b hb).later, fun _ => hlow b hb⟩, htail⟩

theorem Stacked.sub (ht : Stacked s) (hh : s'.handles.Sublist s.handles) : Stacked s' :=
  List.Pairwise.sublist hh ht

theorem Inv.under_lock (hs : Inv s) (hf : s.frames = f :: rest) {h : Handle}
    (hlock : f.lock = some h) : ∀ k ∈ f.live ++ handlesOf rest,
      k.bytes ⊆ Finset.Ico 0 h.offset := by
  have hceil := ceiling_of_locked hlock s.offset
  have htop := hs.top hf
  have hsaved := htop.saved_le
  rw [hceil] at hsaved
  intro k hk
  rcases List.mem_append.mp hk with hk | hk
  · have hin := (htop.live k hk).inside
    rw [hceil] at hin
    exact hin.trans (Finset.Ico_subset_Ico (Nat.zero_le _) le_rfl)
  · exact ((hs.below_top hf).fits hk).inside.trans (Finset.Ico_subset_Ico le_rfl hsaved)

theorem Stacked.relock (ht : Stacked s) (hs : Inv s) (hf : s.frames = f :: rest) {h h' : Handle}
    (hlock : f.lock = some h) (hh : s'.handles = h' :: (f.live ++ handlesOf rest))
    (hid : h'.id = h.id) (hoff : h'.offset = h.offset) : Stacked s' := by
  have hold : s.handles = [h] ++ (f.live ++ handlesOf rest) := handles_locked hf hlock
  exact ht.put hold (List.mem_singleton_self h) hh hid (hoff ▸ hs.under_lock hf hlock)

theorem handles_mapLive {t : Handle → Option Handle} {frames : List Frame} :
    handlesOf (frames.map fun f => { f with live := f.live.filterMap t }) =
      frames.flatMap fun f => f.lock.toList ++ f.live.filterMap t := by
  rw [handlesOf, List.flatMap_map]
  rfl

theorem Handle.Above.edited {a b a' b' : Handle} (h : a.Above b) (ha : a.Edited a')
    (hb : b.Edited b') : a'.Above b' := by
  refine ⟨?_, fun hne => ?_⟩
  · rw [ha.id, hb.id]
    exact h.later
  · rw [ha.offset]
    refine hb.bytes_subset.trans (h.higher ?_)
    have hmem : a'.offset ∈ a.bytes := ha.bytes_subset (Finset.mem_Ico.mpr ⟨le_rfl, hne⟩)
    rw [ha.offset] at hmem
    exact (Finset.mem_Ico.mp hmem).2

theorem pairwise_mapLive {t : Handle → Option Handle} {frames : List Frame}
    (ht : (handlesOf frames).Pairwise Handle.Above)
    (hok : ∀ h ∈ handlesOf frames, h.Ok)
    (hed : ∀ h ∈ frames.flatMap Frame.live, ∀ h', t h = some h' → h.Edited h') :
    (handlesOf (frames.map fun f => { f with live := f.live.filterMap t })).Pairwise
      Handle.Above := by
  have hkeep : ∀ {h : Handle}, h ∈ handlesOf frames → h.Edited h := fun hh => .refl (hok _ hh)
  have hmem : ∀ {l : List Frame} {h' : Handle},
      h' ∈ handlesOf (l.map fun f => { f with live := f.live.filterMap t }) →
      (∀ h ∈ handlesOf l, h.Edited h) →
      (∀ h ∈ l.flatMap Frame.live, ∀ h', t h = some h' → h.Edited h') →
      ∃ h ∈ handlesOf l, h.Edited h' := by
    intro l h' hh hkeep hed
    rw [handles_mapLive] at hh
    obtain ⟨f, hf, hh⟩ := List.mem_flatMap.mp hh
    rcases List.mem_append.mp hh with hh | hh
    · have hin : h' ∈ handlesOf l := List.mem_flatMap.mpr ⟨f, hf, List.mem_append_left _ hh⟩
      exact ⟨h', hin, hkeep h' hin⟩
    · obtain ⟨h, hlive, heq⟩ := List.mem_filterMap.mp hh
      exact ⟨h, List.mem_flatMap.mpr ⟨f, hf, List.mem_append_right _ hlive⟩,
        hed h (List.mem_flatMap.mpr ⟨f, hf, hlive⟩) h' heq⟩
  induction frames with
  | nil => exact .nil
  | cons f rest ih =>
    obtain ⟨hf, hrest, hcross⟩ := List.pairwise_append.mp ht
    obtain ⟨-, hlive, hlock⟩ := List.pairwise_append.mp hf
    have hedlive : ∀ h ∈ f.live, ∀ h', t h = some h' → h.Edited h' := fun h hh =>
      hed h (List.mem_append_left _ hh)
    have hedrest : ∀ h ∈ rest.flatMap Frame.live, ∀ h', t h = some h' → h.Edited h' := fun h hh =>
      hed h (List.mem_append_right _ hh)
    have hkeeprest : ∀ {h : Handle}, h ∈ handlesOf rest → h.Edited h := fun hh =>
      hkeep (List.mem_append_right _ hh)
    refine List.pairwise_append.mpr ⟨List.pairwise_append.mpr ⟨?_, ?_, ?_⟩, ?_, ?_⟩
    · cases f.lock <;> simp
    · rw [List.pairwise_filterMap]
      exact hlive.imp_of_mem fun {a b} ha hb hab a' ha' b' hb' =>
        hab.edited (hedlive a ha a' ha') (hedlive b hb b' hb')
    · intro a ha b' hb'
      obtain ⟨b, hb, heq⟩ := List.mem_filterMap.mp hb'
      exact (hlock a ha b hb).edited (hkeep (List.mem_append_left _ (List.mem_append_left _ ha)))
        (hedlive b hb b' heq)
    · exact ih hrest (fun h hh => hok h (List.mem_append_right _ hh)) hedrest hkeeprest
    · intro a' ha' b' hb'
      obtain ⟨b, hb, hbed⟩ := hmem hb' (fun _ => hkeeprest) hedrest
      obtain ⟨a, ha, haed⟩ : ∃ a ∈ f.handles, a.Edited a' := by
        rcases List.mem_append.mp ha' with ha' | ha'
        · exact ⟨a', List.mem_append_left _ ha', hkeep (List.mem_append_left _
            (List.mem_append_left _ ha'))⟩
        · obtain ⟨a, ha, heq⟩ := List.mem_filterMap.mp ha'
          exact ⟨a, List.mem_append_right _ ha, hedlive a ha a' heq⟩
      exact (hcross a ha b hb).edited haed hbed

theorem Stacked.mapLive (ht : Stacked s) (hs : Inv s) {t : Handle → Option Handle}
    (hed : ∀ h ∈ s.frames.flatMap Frame.live, ∀ h', t h = some h' → h.Edited h')
    (hh : s'.frames = s.mapLive t) : Stacked s' := by
  unfold Stacked
  rw [State.handles, hh]
  exact pairwise_mapLive ht (fun h hin => (hs.layered.fits hin).ok) hed

theorem Stacked.hold_fresh (ht : Stacked s) (hs : Inv s) (h : s.innermost none = some (f, rest))
    {k : Handle} (hid : k.id = s.next) (hlow : s.offset ≤ k.offset)
    (hh : s'.frames = State.hold f rest k) : Stacked s' := by
  obtain ⟨hf, hlock⟩ := unlocked h
  refine ht.fresh hs hid hlow ?_
  rw [State.handles, hh, handlesOf_hold, handles_unlocked hf hlock]

theorem Stacked.lock_fresh (ht : Stacked s) (hs : Inv s) (h : s.innermost none = some (f, rest))
    {k : Handle} (hid : k.id = s.next) (hlow : s.offset ≤ k.offset)
    (hh : s'.frames = State.setLock f rest (some k)) : Stacked s' := by
  obtain ⟨hf, hlock⟩ := unlocked h
  refine ht.fresh hs hid hlow ?_
  rw [State.handles, hh, handlesOf_setLock, handles_unlocked hf hlock]

theorem finish_stacked {id : ℕ} (ht : Stacked s) (hs : Inv s) (h : s.finish id = some s') :
    Stacked s' := by
  obtain ⟨f, g, rest, r, ⟨hf, hlock⟩, hlock', hr, -, -, rfl⟩ := finish_some h
  have hbound := (hs.saved_le hf).trans hs.bounded
  have hlive : handlesOf (g :: rest) = g.live ++ handlesOf rest := by
    rw [handlesOf, List.flatMap_cons, Frame.handles, hlock']
    rfl
  have hold : s.handles = f.live ++ (g.live ++ handlesOf rest) := by
    rw [handles_unlocked hf hlock, hlive]
  refine ht.put hold hr rfl rfl fun k hk => ?_
  have hlow : f.saved ≤ alignUp f.saved r.layout.align := by
    rw [alignUp_eq hbound]
    exact Align.le_up r.layout.align_pos
  exact ((hs.below_top hf).fits (hlive ▸ hk)).inside.trans (Finset.Ico_subset_Ico le_rfl hlow)

theorem step_stacked (ht : Stacked s) (hs : Inv s) (h : s.step op = some s') : Stacked s' := by
  cases op with
  | alloc l value =>
    obtain ⟨f, rest, a, e, hin, hbump, -, rfl⟩ := alloc_some h
    obtain ⟨rfl, -, -⟩ := bump_some hs.bounded hbump
    exact ht.hold_fresh hs hin (by rfl) (Align.le_up l.align_pos) rfl
  | vec l capacity =>
    obtain ⟨f, rest, a, e, hin, hbump, rfl⟩ := vec_some h
    obtain ⟨rfl, -, -⟩ := bump_some hs.bounded hbump
    exact ht.hold_fresh hs hin (by rfl) (Align.le_up l.align_pos) rfl
  | empty l =>
    obtain ⟨f, rest, hin, rfl⟩ := empty_some h
    rw [alignUp_eq hs.bounded]
    exact ht.hold_fresh hs hin (by rfl) (Align.le_up l.align_pos) rfl
  | scope =>
    obtain rfl := scope_some h
    exact ht.sub (.refl _)
  | leave =>
    obtain ⟨f, rest, hin, -, rfl⟩ := leave_some h
    obtain ⟨hf, hlock⟩ := unlocked hin
    refine ht.sub ?_
    rw [handles_unlocked hf hlock]
    exact List.sublist_append_right _ _
  | compact l =>
    obtain rfl := compact_some h
    exact ht.sub (.refl _)
  | finish id => exact finish_stacked ht hs h
  | span l =>
    obtain ⟨f, rest, hin, rfl⟩ := span_some h
    rw [alignUp_eq hs.bounded]
    exact ht.lock_fresh hs hin (by rfl) (Align.le_up l.align_pos) rfl
  | push value =>
    obtain ⟨f, rest, k, a, e, hin, hlock, -, -, rfl⟩ := push_some h
    exact ht.relock hs (locked hin hlock).1 hlock rfl rfl rfl
  | extend src =>
    rcases extend_some h with ⟨-, rfl⟩ | ⟨f, rest, k, a, e, hin, hlock, -, rfl⟩
    · exact ht
    · exact ht.relock hs (locked hin hlock).1 hlock rfl rfl rfl
  | pop =>
    rcases pop_some h with rfl | ⟨f, rest, k, hin, hlock, -, rfl⟩
    · exact ht
    · exact ht.relock hs (locked hin hlock).1 hlock rfl rfl rfl
  | close =>
    obtain ⟨f, rest, k, hin, hlock, rfl⟩ := close_some h
    exact ht.relock hs (locked hin hlock).1 hlock rfl rfl rfl
  | reserve l capacity =>
    obtain ⟨f, rest, a, e, hin, hbump, rfl⟩ := reserve_some h
    obtain ⟨rfl, -, -⟩ := bump_some hs.bounded hbump
    exact ht.lock_fresh hs hin (by rfl) (Align.le_up l.align_pos) rfl
  | editReserve ed =>
    obtain ⟨f, rest, k, mem', k', hin, hlock, hedit, rfl⟩ := editReserve_some h
    obtain ⟨hf, -, -⟩ := locked hin hlock
    obtain ⟨hed, -⟩ := Edit.apply_spec (hs.lock_ok hf hlock).1 hedit
    exact ht.relock hs hf hlock rfl hed.id hed.offset
  | freeze =>
    obtain ⟨f, rest, k, hin, hlock, rfl⟩ := freeze_some h
    exact ht.relock hs (locked hin hlock).1 hlock rfl rfl rfl
  | dropReserve =>
    obtain ⟨f, rest, k, hin, hlock, rfl⟩ := dropReserve_some h
    refine ht.sub ?_
    rw [handles_locked (locked hin hlock).1 hlock]
    exact List.sublist_cons_self _ _
  | edit id ed =>
    obtain ⟨k, mem', k', hlive, hkid, hedit, rfl⟩ := edit_some h
    have hk := live_sub_handles hlive
    obtain ⟨hed, -⟩ := Edit.apply_spec (hs.layered.fits hk).ok hedit
    subst hkid
    exact ht.mapLive hs (edit_edits hs hk hed) rfl
  | drop id =>
    obtain rfl := Option.some.inj h
    exact ht.mapLive hs (drop_edits hs) rfl

theorem run_stacked {ops : List Op} (ht : Stacked s) (hs : Inv s) (hops : ∀ op ∈ ops, op.Sized)
    (h : s.run ops = some s') : Stacked s' := by
  induction ops generalizing s with
  | nil => exact Option.some.inj h ▸ ht
  | cons op ops ih =>
    obtain ⟨s₁, hstep, h⟩ := Option.bind_eq_some_iff.mp h
    exact ih (step_stacked ht hs hstep) (step_spec hs (hops op List.mem_cons_self) hstep).1
      (fun op hop => hops op (List.mem_cons_of_mem _ hop)) h

theorem Stacked.order (ht : Stacked s) {a b : Handle} (ha : a ∈ s.handles) (hb : b ∈ s.handles)
    (hid : b.id < a.id) : a.Above b := by
  have hrel : ∀ {l : List Handle}, l.Pairwise Handle.Above → a ∈ l → b ∈ l → a.Above b := by
    intro l hl hal hbl
    induction hl with
    | nil => cases hal
    | @cons h l hh _ ih =>
      rcases List.mem_cons.mp hal with rfl | ha
      · rcases List.mem_cons.mp hbl with rfl | hb
        · exact absurd hid (lt_irrefl _)
        · exact hh b hb
      · rcases List.mem_cons.mp hbl with rfl | hb
        · exact absurd ((hh a ha).later.trans hid) (lt_irrefl _)
        · exact ih ha hb
  exact hrel ht ha hb

end Ltop.Arena
