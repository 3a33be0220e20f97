import Mathlib
import Ltop.Steps

namespace Ltop.Arena

inductive Opens : Op → Op → Prop where
  | scope : Opens .scope .leave
  | compact (l : Layout) (result : ℕ) : Opens (.compact l) (.finish result)
  | span (l : Layout) : Opens (.span l) .close
  | freeze (l : Layout) (capacity : UInt32) : Opens (.reserve l capacity) .freeze
  | drop (l : Layout) (capacity : UInt32) : Opens (.reserve l capacity) .dropReserve

def Op.Flat : Op → Prop
  | .alloc .. | .vec .. | .empty _ | .push _ | .extend _ | .pop | .editReserve _ | .edit .. |
    .drop _ => True
  | _ => False

inductive Nested : List Op → Prop where
  | nil : Nested []
  | flat {op : Op} {ops : List Op} : op.Flat → Nested ops → Nested (op :: ops)
  | block {opening closing : Op} {body ops : List Op} :
      Opens opening closing → Nested body → Nested ops → Nested (opening :: (body ++ closing :: ops))

theorem Nested.append {pre post : List Op} (hpre : Nested pre) (hpost : Nested post) :
    Nested (pre ++ post) := by
  induction hpre with
  | nil => exact hpost
  | flat hop _ ih => exact .flat hop ih
  | block hopens hbody _ _ ih =>
    rw [List.cons_append, List.append_assoc, List.cons_append]
    exact .block hopens hbody ih

theorem Nested.of_flat {ops : List Op} (h : ∀ op ∈ ops, op.Flat) : Nested ops := by
  induction ops with
  | nil => exact .nil
  | cons op ops ih =>
    exact .flat (h op List.mem_cons_self) (ih fun op hop => h op (List.mem_cons_of_mem _ hop))

def byte : Layout := ⟨1, 1, by decide, by decide⟩

def word : Layout := ⟨4, 4, by decide, by decide⟩

def collect (l : Layout) (items : List (List UInt8)) : List Op :=
  .span l :: (items.map .push ++ [.close])

def assign (id : ℕ) (slots : List (ℕ × List UInt8)) : List Op :=
  slots.map fun slot => .edit id (.set slot.1 slot.2)

def nest (l : Layout) (offsets : ℕ) (buckets : ℕ) (tally : List (ℕ × List UInt8))
    (data : List (List UInt8)) (cursors : List (List UInt8))
    (fills : List ((ℕ × List UInt8) × (ℕ × List UInt8))) : List Op :=
  collect word (List.replicate (buckets + 1) [0, 0, 0, 0]) ++ (assign offsets tally ++
    (collect l data ++ .scope :: ((collect word cursors ++
      fills.flatMap fun fill => assign (offsets + 1) [fill.1] ++ assign (offsets + 2) [fill.2]) ++
        [.leave])))

theorem collect_nested (l : Layout) (items : List (List UInt8)) : Nested (collect l items) := by
  refine .block (.span l) (.of_flat fun op hop => ?_) .nil
  obtain ⟨value, _, rfl⟩ := List.mem_map.mp hop
  trivial

theorem assign_nested (id : ℕ) (slots : List (ℕ × List UInt8)) : Nested (assign id slots) := by
  refine .of_flat fun op hop => ?_
  obtain ⟨slot, _, rfl⟩ := List.mem_map.mp hop
  trivial

theorem nest_nested (l : Layout) (offsets buckets : ℕ) (tally : List (ℕ × List UInt8))
    (data cursors : List (List UInt8)) (fills : List ((ℕ × List UInt8) × (ℕ × List UInt8))) :
    Nested (nest l offsets buckets tally data cursors fills) := by
  have hfills : Nested (fills.flatMap fun fill =>
      assign (offsets + 1) [fill.1] ++ assign (offsets + 2) [fill.2]) := by
    induction fills with
    | nil => exact .nil
    | cons fill fills ih =>
      exact ((assign_nested _ _).append (assign_nested _ _)).append ih
  exact (collect_nested _ _).append ((assign_nested _ _).append ((collect_nested _ _).append
    (.block .scope ((collect_nested _ _).append hfills) .nil)))

def Frame.outline (f : Frame) : ℕ × Option Layout × Option ℕ :=
  (f.saved, f.result, f.lock.map Handle.offset)

def State.outline (s : State) : List (ℕ × Option Layout × Option ℕ) := s.frames.map Frame.outline

variable {s s₁ s₂ s' : State} {f : Frame} {rest : List Frame} {op opening closing : Op}
  {ops pre body post : List Op} {l : Layout} {capacity : UInt32} {id : ℕ}

theorem run_append : s.run (pre ++ post) = (s.run pre).bind fun s₁ => s₁.run post := by
  induction pre generalizing s with
  | nil => rfl
  | cons op pre ih =>
    change (s.step op).bind _ = ((s.step op).bind _).bind _
    cases s.step op with
    | none => rfl
    | some s₁ => exact ih

theorem run_block :
    s.run (opening :: (body ++ [closing])) = some s' ↔
      ∃ s₁, s.step opening = some s₁ ∧ ∃ s₂, s₁.run body = some s₂ ∧ s₂.step closing = some s' := by
  change (s.step opening).bind _ = some s' ↔ _
  simp only [Option.bind_eq_some_iff, run_append, State.run, Option.some.injEq, exists_eq_right]

theorem outline_top (hf : s.frames = f :: rest) :
    s.outline = (f.saved, f.result, f.lock.map Handle.offset) :: rest.map Frame.outline := by
  rw [State.outline, hf]
  rfl

theorem outline_mapLive (t : Handle → Option Handle) :
    (s.mapLive t).map Frame.outline = s.frames.map Frame.outline := by
  rw [State.mapLive, List.map_map]
  rfl

theorem held_outline {mem : Mem} {a m : ℕ} {k : Handle} (h : s.innermost none = some (f, rest)) :
    State.outline ⟨a, mem, State.hold f rest k, m⟩ = s.outline := by
  obtain ⟨hf, hlock⟩ := unlocked h
  rw [outline_top hf, hlock]
  rfl

theorem relocked_outline {mem : Mem} {a m : ℕ} {k k' : Handle} (hf : s.frames = f :: rest)
    (hlock : f.lock = some k) (hoff : k'.offset = k.offset) :
    State.outline ⟨a, mem, State.setLock f rest (some k'), m⟩ = s.outline := by
  rw [outline_top hf, hlock, Option.map_some, ← hoff]
  rfl

theorem flat_outline (hs : Inv s) (hop : op.Flat) (h : s.step op = some s') :
    s'.outline = s.outline := by
  cases op with
  | alloc l value =>
    obtain ⟨f, rest, a, e, hin, -, -, rfl⟩ := alloc_some h
    exact held_outline hin
  | vec l capacity =>
    obtain ⟨f, rest, a, e, hin, -, rfl⟩ := vec_some h
    exact held_outline hin
  | empty l =>
    obtain ⟨f, rest, hin, rfl⟩ := empty_some h
    exact held_outline hin
  | push value =>
    obtain ⟨f, rest, k, a, e, hin, hlock, -, -, rfl⟩ := push_some h
    exact relocked_outline (locked hin hlock).1 hlock rfl
  | extend src =>
    rcases extend_some h with ⟨-, rfl⟩ | ⟨f, rest, k, a, e, hin, hlock, -, rfl⟩
    · rfl
    · exact relocked_outline (locked hin hlock).1 hlock rfl
  | pop =>
    rcases pop_some h with rfl | ⟨f, rest, k, hin, hlock, -, rfl⟩
    · rfl
    · exact relocked_outline (locked hin hlock).1 hlock rfl
  | editReserve ed =>
    obtain ⟨f, rest, k, mem', k', hin, hlock, hedit, rfl⟩ := editReserve_some h
    have hf := (locked hin hlock).1
    exact relocked_outline hf hlock (Edit.apply_spec (hs.lock_ok hf hlock).1 hedit).1.offset
  | edit id ed =>
    obtain ⟨k, mem', k', -, -, -, rfl⟩ := edit_some h
    exact outline_mapLive _
  | drop id =>
    obtain rfl := Option.some.inj h
    exact outline_mapLive _
  | scope | leave | compact | finish | span | close | reserve | freeze | dropReserve => cases hop

theorem enter_outline (result : Option Layout) :
    (s.enter result).outline = (s.offset, result, none) :: s.outline := rfl

theorem scope_outline (h : s.scope = some s₁) : s₁.outline = (s.offset, none, none) :: s.outline :=
  scope_some h ▸ enter_outline none

theorem scope_block (h : s.scope = some s₁) (hbody : s₂.outline = s₁.outline)
    (hleave : s₂.leave = some s') : s'.offset = s.offset ∧ s'.outline = s.outline := by
  obtain ⟨f, rest, hin, -, rfl⟩ := leave_some hleave
  rw [outline_top (unlocked hin).1, scope_outline h] at hbody
  obtain ⟨htop, hrest⟩ := List.cons.inj hbody
  exact ⟨congrArg Prod.fst htop, hrest⟩

theorem finish_outline (h : s.finish id = some s') :
    ∃ f rest, s.frames = f :: rest ∧ s'.outline = rest.map Frame.outline := by
  obtain ⟨f, g, rest, r, ⟨hf, -⟩, hlock, -, -, -, rfl⟩ := finish_some h
  refine ⟨f, _, hf, ?_⟩
  rw [List.map_cons, Frame.outline, hlock]
  rfl

theorem compact_block (h : s.compact l = some s₁) (hbody : s₂.outline = s₁.outline)
    (hf : s₂.frames = f :: rest) :
    f.saved = s.offset ∧ f.result = some l ∧ rest.map Frame.outline = s.outline := by
  rw [outline_top hf, compact_some h, enter_outline] at hbody
  obtain ⟨htop, hrest⟩ := List.cons.inj hbody
  exact ⟨congrArg Prod.fst htop, congrArg (fun t => t.2.1) htop, hrest⟩

theorem span_outline (h : s.span l = some s₁) :
    ∃ f rest start, s.frames = f :: rest ∧ f.lock = none ∧
      s₁.outline = (f.saved, f.result, some start) :: rest.map Frame.outline := by
  obtain ⟨f, rest, hin, rfl⟩ := span_some h
  obtain ⟨hf, hlock⟩ := unlocked hin
  exact ⟨f, rest, _, hf, hlock, rfl⟩

theorem reserve_outline (hs : Inv s) (h : s.reserve l capacity = some s₁) :
    ∃ f rest, s.frames = f :: rest ∧ f.lock = none ∧
      s₁.outline =
        (f.saved, f.result, some (Align.up s.offset l.align)) :: rest.map Frame.outline := by
  obtain ⟨f, rest, a, e, hin, hbump, rfl⟩ := reserve_some h
  obtain ⟨hf, hlock⟩ := unlocked hin
  refine ⟨f, rest, hf, hlock, ?_⟩
  rw [← (bump_some hs.bounded hbump).1]
  rfl

theorem lock_block {start : ℕ} (hf : s.frames = f :: rest) (hlock : f.lock = none)
    (h : s₁.outline = (f.saved, f.result, some start) :: rest.map Frame.outline)
    (hbody : s₂.outline = s₁.outline) {g g' : Frame} {rest' : List Frame}
    (hg : s₂.frames = g :: rest') (hg' : s'.frames = g' :: rest')
    (hsame : g'.saved = g.saved ∧ g'.result = g.result ∧ g'.lock = none) :
    s'.outline = s.outline := by
  rw [outline_top hg, h] at hbody
  obtain ⟨htop, hrest⟩ := List.cons.inj hbody
  have hsaved : g.saved = f.saved := congrArg Prod.fst htop
  have hresult : g.result = f.result := congrArg (fun t => t.2.1) htop
  rw [outline_top hg', outline_top hf, hsame.1, hsame.2.1, hsame.2.2, hlock, hrest, hsaved, hresult]

theorem close_frames (h : s.close = some s') :
    ∃ f f' rest, s.frames = f :: rest ∧ s'.frames = f' :: rest ∧
      f'.saved = f.saved ∧ f'.result = f.result ∧ f'.lock = none := by
  obtain ⟨f, rest, k, hin, hlock, rfl⟩ := close_some h
  exact ⟨f, _, rest, (innermost_some hin).1, rfl, rfl, rfl, rfl⟩

theorem freeze_frames (h : s.freeze = some s') :
    ∃ f f' rest, s.frames = f :: rest ∧ s'.frames = f' :: rest ∧
      f'.saved = f.saved ∧ f'.result = f.result ∧ f'.lock = none := by
  obtain ⟨f, rest, k, hin, hlock, rfl⟩ := freeze_some h
  exact ⟨f, _, rest, (innermost_some hin).1, rfl, rfl, rfl, rfl⟩

theorem dropReserve_frames (h : s.dropReserve = some s') :
    ∃ f f' rest, s.frames = f :: rest ∧ s'.frames = f' :: rest ∧
      (f'.saved = f.saved ∧ f'.result = f.result ∧ f'.lock = none) ∧
      f.lock.map Handle.offset = some s'.offset := by
  obtain ⟨f, rest, k, hin, hlock, rfl⟩ := dropReserve_some h
  exact ⟨f, _, rest, (innermost_some hin).1, rfl, ⟨rfl, rfl, rfl⟩, by rw [hlock]; rfl⟩

theorem reserve_block (hs : Inv s) (h : s.reserve l capacity = some s₁)
    (hbody : s₂.outline = s₁.outline) (hdrop : s₂.dropReserve = some s') :
    s'.offset = Align.up s.offset l.align ∧ s'.outline = s.outline := by
  obtain ⟨f, rest, hf, hlock, hopen⟩ := reserve_outline hs h
  obtain ⟨g, g', rest', hg, hg', hsame, hoff⟩ := dropReserve_frames hdrop
  refine ⟨?_, lock_block hf hlock hopen hbody hg hg' hsame⟩
  rw [outline_top hg, hopen, hoff] at hbody
  exact Option.some.inj (congrArg (fun t => t.2.2) (List.cons.inj hbody).1)

theorem block_outline (hs : Inv s) (hopens : Opens opening closing) (h : s.step opening = some s₁)
    (hbody : s₂.outline = s₁.outline) (hclose : s₂.step closing = some s') :
    s'.outline = s.outline := by
  cases hopens with
  | scope => exact (scope_block h hbody hclose).2
  | compact l result =>
    obtain ⟨f, rest, hf, hout⟩ := finish_outline hclose
    exact hout.trans (compact_block h hbody hf).2.2
  | span l =>
    obtain ⟨f, rest, start, hf, hlock, hopen⟩ := span_outline h
    obtain ⟨g, g', rest', hg, hg', hsame⟩ := close_frames hclose
    exact lock_block hf hlock hopen hbody hg hg' hsame
  | freeze l capacity =>
    obtain ⟨f, rest, hf, hlock, hopen⟩ := reserve_outline hs h
    obtain ⟨g, g', rest', hg, hg', hsame⟩ := freeze_frames hclose
    exact lock_block hf hlock hopen hbody hg hg' hsame
  | drop l capacity => exact (reserve_block hs h hbody hclose).2

theorem nested_outline (hn : Nested ops) (hs : Inv s) (hops : ∀ op ∈ ops, op.Sized)
    (h : s.run ops = some s') : s'.outline = s.outline := by
  induction hn generalizing s s' with
  | nil => exact congrArg State.outline (Option.some.inj h).symm
  | flat hop _ ih =>
    obtain ⟨s₁, hstep, h⟩ := Option.bind_eq_some_iff.mp h
    obtain ⟨hsized, hops⟩ := List.forall_mem_cons.mp hops
    exact (ih (step_spec hs hsized hstep).1 hops h).trans (flat_outline hs hop hstep)
  | block hopens _ _ ihbody ih =>
    obtain ⟨s₁, hopen, h⟩ := Option.bind_eq_some_iff.mp h
    rw [run_append] at h
    obtain ⟨s₂, hrun, h⟩ := Option.bind_eq_some_iff.mp h
    obtain ⟨s₃, hclose, h⟩ := Option.bind_eq_some_iff.mp h
    obtain ⟨hsized, hops⟩ := List.forall_mem_cons.mp hops
    obtain ⟨hbody, hops⟩ := List.forall_mem_append.mp hops
    obtain ⟨hsized', hops⟩ := List.forall_mem_cons.mp hops
    have hs₁ := (step_spec hs hsized hopen).1
    have hs₂ := run_inv hs₁ hbody hrun
    exact (ih (step_spec hs₂ hsized' hclose).1 hops h).trans
      (block_outline hs hopens hopen (ihbody hs₁ hbody hrun) hclose)

theorem nest_outline (offsets buckets : ℕ) (tally : List (ℕ × List UInt8))
    (data cursors : List (List UInt8)) (fills : List ((ℕ × List UInt8) × (ℕ × List UInt8)))
    (hs : Inv s) (hops : ∀ op ∈ nest l offsets buckets tally data cursors fills, op.Sized)
    (h : s.run (nest l offsets buckets tally data cursors fills) = some s') :
    Inv s' ∧ s'.outline = s.outline :=
  ⟨run_inv hs hops h,
    nested_outline (nest_nested l offsets buckets tally data cursors fills) hs hops h⟩

structure Safe (s : State) : Prop where
  bounded : s.offset ≤ SIZE
  inside : ∀ h ∈ s.handles, h.bytes ⊆ Finset.Ico 0 s.offset
  aligned : ∀ h ∈ s.handles, h.layout.align ∣ h.offset
  disjoint : s.handles.Pairwise fun a b => Disjoint a.bytes b.bytes

theorem Inv.safe (hs : Inv s) : Safe s :=
  ⟨hs.bounded, fun _ hh => (hs.layered.fits hh).inside, fun _ hh => (hs.layered.fits hh).ok.aligned,
    hs.layered.apart⟩

def Compacted (s : State) (l : Layout) (id : ℕ) (s₂ s' : State) : Prop :=
  ∃ r ∈ s₂.handles, r.id = id ∧ r.layout = l ∧
    { r with offset := alignUp s.offset l.align } ∈ s'.handles ∧
    s'.offset = alignUp s.offset l.align + r.len * l.size ∧
    ∀ i < r.len * l.size, s'.mem (alignUp s.offset l.align + i) = s₂.mem (r.offset + i)

structure Discipline (ops : List Op) : Prop where
  safe : ∀ pre post s, ops = pre ++ post → State.init.run pre = some s → Safe s
  untouched : ∀ pre op post s s', ops = pre ++ op :: post → State.init.run pre = some s →
    s.step op = some s' → Kept s s' (op.target s)
  scope_restores : ∀ pre body post s s', ops = pre ++ .scope :: (body ++ .leave :: post) →
    Nested body → State.init.run pre = some s → s.run (.scope :: (body ++ [.leave])) = some s' →
    s'.offset = s.offset
  compact_moves : ∀ pre l body id post s s₂ s',
    ops = pre ++ .compact l :: (body ++ .finish id :: post) → Nested body →
    State.init.run pre = some s → s.run (.compact l :: body) = some s₂ →
    s₂.step (.finish id) = some s' → Compacted s l id s₂ s'

structure Contract (ops : List Op) : Prop extends Discipline ops where
  reserve_restores : ∀ pre l capacity body post s s',
    ops = pre ++ .reserve l capacity :: (body ++ .dropReserve :: post) → Nested body →
    State.init.run pre = some s →
    s.run (.reserve l capacity :: (body ++ [.dropReserve])) = some s' → s'.offset = s.offset

def ReservesSized (ops : List Op) : Prop :=
  ∀ pre post s, ops = pre ++ post → State.init.run pre = some s → ∀ op ∈ pre, op.Sized

def ReservesAligned (ops : List Op) : Prop :=
  ∀ pre l capacity body post s s',
    ops = pre ++ .reserve l capacity :: (body ++ .dropReserve :: post) → Nested body →
    State.init.run pre = some s →
    s.run (.reserve l capacity :: (body ++ [.dropReserve])) = some s' → l.align ∣ s.offset

theorem compacted (hs : Inv s) (hn : Nested body) (hops : ∀ op ∈ body, op.Sized)
    (h : s.run (.compact l :: body) = some s₂) (hfin : s₂.step (.finish id) = some s') :
    Compacted s l id s₂ s' := by
  obtain ⟨s₁, hopen, hrun⟩ := Option.bind_eq_some_iff.mp h
  have hs₁ := (step_spec hs (show (Op.compact l).Sized from trivial) hopen).1
  have hs₂ := run_inv hs₁ hops hrun
  obtain ⟨-, f, r, r', hres⟩ := finish_spec hs₂ hfin
  obtain ⟨rest, hf⟩ := hres.frame
  obtain ⟨hsaved, hresult, -⟩ := compact_block hopen (nested_outline hn hs₁ hops hrun) hf
  obtain rfl : r.layout = l := Option.some.inj (hres.result.symm.trans hresult)
  have hr : r ∈ s₂.handles := Inv.top_mem hf (List.mem_append_right _ hres.mem)
  have hdst : Align.up f.saved r.layout.align = alignUp s.offset r.layout.align := by
    rw [alignUp_eq hs.bounded, hsaved]
  have hmoved := hres.moved
  rw [hdst] at hmoved
  subst hmoved
  refine ⟨r, hr, hres.id, rfl, hres.held, ?_, ?_⟩
  · rw [hres.offset, Handle.extent, hres.full]
  · rw [hres.full]
    exact hres.bytes

theorem reserve_rewinds (hs : Inv s) (hn : Nested body)
    (hops : ∀ op ∈ Op.reserve l capacity :: body, op.Sized)
    (h : s.run (.reserve l capacity :: (body ++ [.dropReserve])) = some s') :
    s'.offset = Align.up s.offset l.align := by
  obtain ⟨s₁, hopen, s₂, hbody, hclose⟩ := run_block.mp h
  obtain ⟨hsized, hops⟩ := List.forall_mem_cons.mp hops
  have hs₁ := (step_spec hs hsized hopen).1
  exact (reserve_block hs hopen (nested_outline hn hs₁ hops hbody) hclose).1

theorem run_extend (hpre : State.init.run pre = some s) (h : s.run ops = some s') :
    State.init.run (pre ++ ops) = some s' := by
  rw [run_append, hpre]
  exact h

theorem ReservesSized.reached (hsized : ReservesSized (pre ++ (ops ++ post)))
    (hpre : State.init.run pre = some s) (h : s.run ops = some s') :
    Inv s ∧ ∀ op ∈ ops, op.Sized := by
  have hall := hsized (pre ++ ops) post s' (List.append_assoc _ _ _).symm (run_extend hpre h)
  obtain ⟨hleft, hright⟩ := List.forall_mem_append.mp hall
  exact ⟨run_inv init_inv hleft hpre, hright⟩

theorem split_block :
    pre ++ opening :: (body ++ closing :: post) =
      pre ++ ((opening :: (body ++ [closing])) ++ post) := by
  simp

theorem discipline (hsized : ReservesSized ops) : Discipline ops := by
  refine ⟨?_, ?_, ?_, ?_⟩
  · intro pre post s hops hrun
    exact (run_inv init_inv (hsized pre post s hops hrun) hrun).safe
  · rintro pre op post s s' rfl hrun hstep
    have hone : s.run [op] = some s' := by
      rw [State.run, hstep]
      rfl
    have hsplit : ReservesSized (pre ++ ([op] ++ post)) := hsized
    obtain ⟨hs, hop⟩ := hsplit.reached hrun hone
    exact (step_spec hs (hop op List.mem_cons_self) hstep).2
  · rintro pre body post s s' rfl hn hrun hblock
    rw [split_block] at hsized
    obtain ⟨hs, hall⟩ := hsized.reached hrun hblock
    obtain ⟨s₁, hopen, s₂, hbody, hclose⟩ := run_block.mp hblock
    have hs₁ := (step_spec hs (show Op.scope.Sized from trivial) hopen).1
    have hsmall := (List.forall_mem_append.mp (List.forall_mem_cons.mp hall).2).1
    exact (scope_block hopen (nested_outline hn hs₁ hsmall hbody) hclose).1
  · rintro pre l body id post s s₂ s' rfl hn hrun hbody hfin
    have hsplit : ReservesSized (pre ++ ((.compact l :: body) ++ .finish id :: post)) :=
      hsized
    obtain ⟨hs, hall⟩ := hsplit.reached hrun hbody
    exact compacted hs hn (List.forall_mem_cons.mp hall).2 hbody hfin

theorem Safe.holds (hs : Safe s) {h : Handle} (hh : h ∈ s.handles) :
    h.capacity * h.layout.size < 2 ^ 64 := by
  rcases Nat.eq_zero_or_pos (h.capacity * h.layout.size) with hzero | hpos
  · rw [hzero]
    norm_num
  · have hlt : h.offset < h.extent := Nat.lt_add_of_pos_right hpos
    have hle := ((Finset.Ico_subset_Ico_iff hlt).mp (hs.inside h hh)).2
    have hb := hs.bounded
    unfold SIZE at hb
    unfold Handle.extent at hle
    omega

theorem step_sized (h : s.step op = some s') (hs' : Safe s') : op.Sized := by
  cases op with
  | vec l capacity =>
    obtain ⟨f, rest, a, e, -, -, rfl⟩ := vec_some h
    exact hs'.holds (h := ⟨s.next, .vec, l, a, 0, capacity.toNat⟩) List.mem_cons_self
  | reserve l capacity =>
    obtain ⟨f, rest, a, e, -, -, rfl⟩ := reserve_some h
    exact hs'.holds (h := ⟨s.next, .reserve, l, a, 0, capacity.toNat⟩) List.mem_cons_self
  | _ => trivial

theorem Discipline.sized (hd : Discipline ops) : ReservesSized ops := by
  rintro pre post s rfl hrun op hop
  obtain ⟨before, after, rfl⟩ := List.append_of_mem hop
  rw [run_append] at hrun
  obtain ⟨s₁, hbefore, hrun⟩ := Option.bind_eq_some_iff.mp hrun
  obtain ⟨s₂, hstep, _⟩ := Option.bind_eq_some_iff.mp hrun
  have hone : s₁.run [op] = some s₂ := by
    rw [State.run, hstep]
    rfl
  have hsafe := hd.safe (before ++ [op]) (after ++ post) s₂ (by simp) (run_extend hbefore hone)
  exact step_sized hstep hsafe

theorem contract_iff (ops : List Op) :
    Contract ops ↔ ReservesSized ops ∧ ReservesAligned ops := by
  have hblock : ∀ {pre l capacity body post s s'}, ReservesSized ops →
      ops = pre ++ .reserve l capacity :: (body ++ .dropReserve :: post) → Nested body →
      State.init.run pre = some s →
      s.run (.reserve l capacity :: (body ++ [.dropReserve])) = some s' →
      s'.offset = Align.up s.offset l.align := by
    rintro pre l capacity body post s s' hsized rfl hn hrun hblock
    rw [split_block] at hsized
    obtain ⟨hs, hall⟩ := hsized.reached hrun hblock
    exact reserve_rewinds hs hn (List.forall_mem_append.mp hall).1 hblock
  constructor
  · intro hc
    refine ⟨hc.sized, fun pre l capacity body post s s' hops hn hrun hrev => ?_⟩
    have hrestored := hc.reserve_restores pre l capacity body post s s' hops hn hrun hrev
    exact (Align.up_eq_iff l.align_pos).mp ((hblock hc.sized hops hn hrun hrev).symm.trans hrestored)
  · rintro ⟨hsized, hr⟩
    refine ⟨discipline hsized, fun pre l capacity body post s s' hops hn hrun hrev => ?_⟩
    have hdvd := hr pre l capacity body post s s' hops hn hrun hrev
    rw [hblock hsized hops hn hrun hrev, Align.up_of_dvd hdvd l.align_pos]

def unfrozen : List Op := [.scope, .alloc byte [7], .reserve word 4, .dropReserve, .leave]

theorem unfrozen_not_restored : ¬ Contract unfrozen := by
  intro hc
  obtain ⟨s, hrun⟩ : ∃ s, State.init.run [.scope, .alloc byte [7]] = some s := ⟨_, rfl⟩
  have hoff : s.offset = 1 := by
    cases hrun
    decide
  obtain ⟨s', hblock⟩ : ∃ s', s.run [.reserve word 4, .dropReserve] = some s' := by
    cases hrun
    exact ⟨_, rfl⟩
  have hoff' : s'.offset = 4 := by
    cases hrun
    cases hblock
    decide
  have hrestored := hc.reserve_restores [.scope, .alloc byte [7]] word 4 [] [.leave] s s' rfl .nil
    hrun hblock
  omega

end Ltop.Arena
