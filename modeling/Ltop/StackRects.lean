import Mathlib
import Ltop.StackTrace

namespace Ltop.StackSvg

variable {p : Program} {entry name : String} {caller : Option String} {es es' : List Event}
  {s s' : Render} {base : UInt64} {i j k lo hi : ℕ} {rs rs' : List Rect} {r r' : Rect}

def Program.Calls (p : Program) (entry : String) : Option String → String → Prop
  | none, name => name = entry
  | some caller, name => name ∈ p.targets caller

inductive Walked (p : Program) (entry : String) : Option String → List Event → Prop
  | nil {caller : Option String} : Walked p entry caller []
  | loop {caller : Option String} {name : String} : Walked p entry caller [.loop name]
  | unknown {caller : Option String} {name : String} : Walked p entry caller [.unknown name]
  | append {caller : Option String} {es es' : List Event} :
    Walked p entry caller es → Walked p entry caller es' → Walked p entry caller (es ++ es')
  | inlined {caller : Option String} {es : List Event} {name : String} {frameLo frameHi : Int64} :
    Walked p entry caller es →
      Walked p entry caller (.inlinedPush name frameLo frameHi :: (es ++ [.inlinedPop]))
  | frame {caller : Option String} {es : List Event} {name : String} {size : UInt64} :
    p.Calls entry caller name → p.frames.stackByName name = some size →
      Walked p entry (some name) es →
        Walked p entry caller (.push name size :: (es ++ [.pop]))

mutual

theorem inlineTrace_walked : ∀ ic, Walked p entry caller (inlineTrace ic)
  | .mk name frameLo frameHi children => by
    rw [inlineTrace]
    split
    · exact .inlined (inlinesTrace_walked children)
    · exact inlinesTrace_walked children

theorem inlinesTrace_walked : ∀ ics, Walked p entry caller (inlinesTrace ics)
  | [] => .nil
  | ic :: ics => .append (inlineTrace_walked ic) (inlinesTrace_walked ics)

end

theorem flatMap_walked {trace : String → List Event} {ts : List String}
    (h : ∀ t ∈ ts, Walked p entry caller (trace t)) : Walked p entry caller (ts.flatMap trace) := by
  induction ts with
  | nil => exact .nil
  | cons t ts ih =>
    obtain ⟨ht, hts⟩ := List.forall_mem_cons.mp h
    exact .append ht (ih hts)

theorem trace_walked (left : ℕ) : ∀ {caller path name}, p.Calls entry caller name →
    Walked p entry caller (p.trace left path name) := by
  induction left with
  | zero => exact fun _ => .nil
  | succ left ih =>
    intro caller path name hcalls
    rw [Program.trace]
    split
    · exact .loop
    split
    · exact .unknown
    · rename_i size hsize
      rw [← List.append_assoc]
      exact .frame hcalls hsize
        (.append (inlinesTrace_walked _) (flatMap_walked fun t ht => ih ht))

def matched : List Event → List RectKind → Option (List RectKind)
  | [], opened => some opened
  | .push _ _ :: es, opened => matched es (.real :: opened)
  | .pop :: es, .real :: opened => matched es opened
  | .pop :: _, _ => none
  | .inlinedPush _ _ _ :: es, opened => matched es (.inlined :: opened)
  | .inlinedPop :: es, .inlined :: opened => matched es opened
  | .inlinedPop :: _, _ => none
  | .loop _ :: es, opened => matched es opened
  | .unknown _ :: es, opened => matched es opened

def WellBracketed (es : List Event) : Prop := matched es [] = some []

theorem Walked.matched (h : Walked p entry caller es) :
    ∀ rest opened, matched (es ++ rest) opened = matched rest opened := by
  induction h with
  | nil => exact fun _ _ => rfl
  | loop => exact fun _ _ => rfl
  | unknown => exact fun _ _ => rfl
  | append _ _ ih ih' =>
    intro rest opened
    rw [List.append_assoc, ih, ih']
  | inlined _ ih =>
    intro rest opened
    rw [List.cons_append, List.append_assoc, StackSvg.matched, ih]
    rfl
  | frame _ _ _ ih =>
    intro rest opened
    rw [List.cons_append, List.append_assoc, StackSvg.matched, ih]
    rfl

theorem Walked.wellBracketed (h : Walked p entry caller es) : WellBracketed es := by
  have hall := h.matched [] []
  rwa [List.append_nil] at hall

structure Encloses (r' r : Rect) : Prop where
  real : r'.kind = .real
  start : r'.start < r.start
  stop : r.stop < r'.stop

structure CallerOf (rs : List Rect) (r' r : Rect) : Prop where
  mem : r' ∈ rs
  encloses : Encloses r' r
  innermost : ∀ r'' ∈ rs, Encloses r'' r → r''.start ≤ r'.start

def Outermost (rs : List Rect) (r : Rect) : Prop := ∀ r' ∈ rs, ¬ Encloses r' r

def Placed (p : Program) (entry : String) (caller : Option String) (base : UInt64) (rs : List Rect)
    (r : Rect) : Prop :=
  (Outermost rs r ∧ r.offsetLo = base ∧ p.Calls entry caller r.name) ∨
    ∃ r', CallerOf rs r' r ∧ r.offsetLo = r'.offsetHi ∧ r.name ∈ p.targets r'.name

theorem Placed.mono (h : Placed p entry caller base rs r) (hsub : rs ⊆ rs')
    (hno : ∀ r' ∈ rs', Encloses r' r → r' ∈ rs) : Placed p entry caller base rs' r := by
  rcases h with ⟨houter, hbase⟩ | ⟨r', hcaller, hplace⟩
  · exact .inl ⟨fun r' hr' henc => houter r' (hno r' hr' henc) henc, hbase⟩
  · exact .inr ⟨r', ⟨hsub hcaller.mem, hcaller.encloses, fun r'' hr'' henc =>
      hcaller.innermost r'' (hno r'' hr'' henc) henc⟩, hplace⟩

structure Tower (p : Program) (entry : String) (caller : Option String) (base : UInt64) (lo : ℕ)
    (es : List Event) (rs : List Rect) : Prop where
  within : ∀ r ∈ rs, lo ≤ r.start ∧ r.start < r.stop ∧ r.stop < lo + es.length
  sized : ∀ r ∈ rs, r.kind = .real → ∃ size, p.frames.stackByName r.name = some size ∧
    r.offsetHi = r.offsetLo + size
  placed : ∀ r ∈ rs, r.kind = .real → Placed p entry caller base rs r
  drawn : ∀ k name size, es[k]? = some (.push name size) →
    ∃ r ∈ rs, r.kind = .real ∧ r.start = lo + k ∧ r.name = name

namespace Tower

theorem silent (h : ∀ name size, Event.push name size ∉ es) :
    Tower p entry caller base lo es [] := by
  refine ⟨?_, ?_, ?_, fun k name size hk => absurd (List.mem_of_getElem? hk) (h name size)⟩
  all_goals exact fun r hr => absurd hr List.not_mem_nil

theorem append (h : Tower p entry caller base lo es rs)
    (h' : Tower p entry caller base (lo + es.length) es' rs') :
    Tower p entry caller base lo (es ++ es') (rs ++ rs') := by
  constructor
  case within =>
    intro r hr
    rw [List.length_append]
    rcases List.mem_append.mp hr with hr | hr
    · have := h.within r hr
      omega
    · have := h'.within r hr
      omega
  case sized =>
    intro r hr
    rcases List.mem_append.mp hr with hr | hr
    · exact h.sized r hr
    · exact h'.sized r hr
  case placed =>
    intro r hr hreal
    rcases List.mem_append.mp hr with hr | hr
    · refine (h.placed r hr hreal).mono (List.subset_append_left _ _) fun r' hr' henc => ?_
      refine (List.mem_append.mp hr').resolve_right fun hright => ?_
      have := h.within r hr
      have := h'.within r' hright
      have := henc.start
      omega
    · refine (h'.placed r hr hreal).mono (List.subset_append_right _ _) fun r' hr' henc => ?_
      refine (List.mem_append.mp hr').resolve_left fun hleft => ?_
      have := h'.within r hr
      have := h.within r' hleft
      have := henc.stop
      omega
  case drawn =>
    intro k name size hk
    rcases Nat.lt_or_ge k es.length with hlt | hge
    · rw [List.getElem?_append_left hlt] at hk
      obtain ⟨r, hr, hrest⟩ := h.drawn k name size hk
      exact ⟨r, List.mem_append_left _ hr, hrest⟩
    · rw [List.getElem?_append_right hge] at hk
      obtain ⟨r, hr, hreal, hstart, hname⟩ := h'.drawn _ name size hk
      exact ⟨r, List.mem_append_right _ hr, hreal, by omega, hname⟩

theorem between {e e' : Event} {opened : Opened} {kind : RectKind}
    (hstart : opened.start = lo)
    (h : ∀ k name size, es[k]? = some (.push name size) →
      ∃ r ∈ rs, r.kind = .real ∧ r.start = lo + 1 + k ∧ r.name = name)
    (he : ∀ name size, e = .push name size → kind = .real ∧ opened.name = name)
    (he' : ∀ name size, e' ≠ .push name size) :
    ∀ k name size, (e :: (es ++ [e']))[k]? = some (.push name size) →
      ∃ r ∈ rs ++ [opened.close (lo + 1 + es.length) kind],
        r.kind = .real ∧ r.start = lo + k ∧ r.name = name := by
  rintro (_ | k) name size hk
  · obtain ⟨hkind, hname⟩ := he name size (Option.some.inj hk)
    exact ⟨_, List.mem_append_right _ (List.mem_singleton_self _), hkind, hstart, hname⟩
  · rw [List.getElem?_cons_succ] at hk
    rcases Nat.lt_or_ge k es.length with hlt | hge
    · rw [List.getElem?_append_left hlt] at hk
      obtain ⟨r, hr, hreal, hat, hname⟩ := h k name size hk
      exact ⟨r, List.mem_append_left _ hr, hreal, by omega, hname⟩
    · rw [List.getElem?_append_right hge] at hk
      exact absurd (List.mem_singleton.mp (List.mem_of_getElem? hk)).symm (he' name size)

theorem inlined {opened : Opened} {name : String} {frameLo frameHi : Int64}
    (h : Tower p entry caller base (lo + 1) es rs) (hstart : opened.start = lo) :
    Tower p entry caller base lo (.inlinedPush name frameLo frameHi :: (es ++ [.inlinedPop]))
      (rs ++ [opened.close (lo + 1 + es.length) .inlined]) := by
  have hlength : (Event.inlinedPush name frameLo frameHi :: (es ++ [.inlinedPop])).length =
      es.length + 2 := by rw [List.length_cons, List.length_append, List.length_singleton]
  constructor
  case within =>
    intro r hr
    rw [hlength]
    rcases List.mem_append.mp hr with hr | hr
    · have := h.within r hr
      omega
    · obtain rfl := List.mem_singleton.mp hr
      simp only [Opened.close]
      omega
  case sized =>
    intro r hr hreal
    rcases List.mem_append.mp hr with hr | hr
    · exact h.sized r hr hreal
    · obtain rfl := List.mem_singleton.mp hr
      cases hreal
  case placed =>
    intro r hr hreal
    rcases List.mem_append.mp hr with hr | hr
    · refine (h.placed r hr hreal).mono (List.subset_append_left _ _) fun r' hr' henc => ?_
      refine (List.mem_append.mp hr').resolve_right fun hright => ?_
      obtain rfl := List.mem_singleton.mp hright
      cases henc.real
    · obtain rfl := List.mem_singleton.mp hr
      cases hreal
  case drawn => exact between hstart h.drawn (fun _ _ he => by cases he) (fun _ _ he => by cases he)

theorem frame {size : UInt64} (hcalls : p.Calls entry caller name)
    (hsize : p.frames.stackByName name = some size)
    (h : Tower p entry (some name) (base + size) (lo + 1) es rs) :
    Tower p entry caller base lo (.push name size :: (es ++ [.pop]))
      (rs ++ [Opened.close ⟨lo, base, base + size, name⟩ (lo + 1 + es.length) .real]) := by
  have hlength : (Event.push name size :: (es ++ [.pop])).length = es.length + 2 := by
    rw [List.length_cons, List.length_append, List.length_singleton]
  have hencloses : ∀ r ∈ rs,
      Encloses (Opened.close ⟨lo, base, base + size, name⟩ (lo + 1 + es.length) .real) r := by
    intro r hr
    have := h.within r hr
    exact ⟨rfl, by simp only [Opened.close]; omega, by simp only [Opened.close]; omega⟩
  constructor
  case within =>
    intro r hr
    rw [hlength]
    rcases List.mem_append.mp hr with hr | hr
    · have := h.within r hr
      omega
    · obtain rfl := List.mem_singleton.mp hr
      simp only [Opened.close]
      omega
  case sized =>
    intro r hr hreal
    rcases List.mem_append.mp hr with hr | hr
    · exact h.sized r hr hreal
    · obtain rfl := List.mem_singleton.mp hr
      exact ⟨size, hsize, rfl⟩
  case placed =>
    intro r hr hreal
    rcases List.mem_append.mp hr with hr | hr
    · right
      rcases h.placed r hr hreal with ⟨houter, hbase, hcall⟩ | ⟨r', hcaller, hplace⟩
      · refine ⟨_, ⟨List.mem_append_right _ (List.mem_singleton_self _), hencloses r hr,
          fun r'' hr'' henc => ?_⟩, hbase, hcall⟩
        rcases List.mem_append.mp hr'' with hr'' | hr''
        · exact absurd henc (houter r'' hr'')
        · rw [List.mem_singleton.mp hr'']
      · refine ⟨r', ⟨List.mem_append_left _ hcaller.mem, hcaller.encloses, fun r'' hr'' henc => ?_⟩,
          hplace⟩
        rcases List.mem_append.mp hr'' with hr'' | hr''
        · exact hcaller.innermost r'' hr'' henc
        · obtain rfl := List.mem_singleton.mp hr''
          exact (hencloses r' hcaller.mem).start.le
    · obtain rfl := List.mem_singleton.mp hr
      refine .inl ⟨fun r' hr' henc => ?_, rfl, hcalls⟩
      rcases List.mem_append.mp hr' with hr' | hr'
      · exact absurd henc.start (Nat.not_lt.mpr (hencloses r' hr').start.le)
      · obtain rfl := List.mem_singleton.mp hr'
        exact absurd henc.start (Nat.lt_irrefl _)
  case drawn =>
    refine between rfl h.drawn (fun name' size' he => ?_) (fun _ _ he => by cases he)
    cases he
    exact ⟨rfl, rfl⟩

end Tower

theorem Render.run_append (s : Render) (i : ℕ) (es es' : List Event) :
    s.run i (es ++ es') = (s.run i es).run (i + es.length) es' := by
  induction es generalizing s i with
  | nil => rfl
  | cons e es ih =>
    rw [List.cons_append, Render.run, ih, Render.run, List.length_cons, Nat.add_assoc, Nat.add_comm 1]

structure Restored (s s' : Render) (rs : List Rect) : Prop where
  rects : s'.rects = s.rects ++ rs
  openReal : s'.openReal = s.openReal
  openInlined : s'.openInlined = s.openInlined
  cur : s'.cur = s.cur

theorem Restored.trans {s'' : Render} (h : Restored s s' rs) (h' : Restored s' s'' rs') :
    Restored s s'' (rs ++ rs') :=
  ⟨by rw [h'.rects, h.rects, List.append_assoc], h'.openReal.trans h.openReal,
    h'.openInlined.trans h.openInlined, h'.cur.trans h.cur⟩

theorem Restored.pop {size : UInt64} (h : Restored (s.step i (.push name size)) s' rs) :
    Restored s (s'.step j .pop)
      (rs ++ [Opened.close ⟨i, s.cur, s.cur + size, name⟩ j .real]) := by
  have hopen : s'.openReal = ⟨i, s.cur, s.cur + size, name⟩ :: s.openReal := h.openReal
  have hrects : s'.rects = s.rects ++ rs := h.rects
  have hstep : s'.step j .pop = { s' with
      rects := s'.rects ++ [Opened.close ⟨i, s.cur, s.cur + size, name⟩ j .real]
      cur := s.cur
      openReal := s.openReal } := by
    rw [Render.step, hopen]
  rw [hstep]
  refine ⟨?_, rfl, h.openInlined, rfl⟩
  dsimp only
  rw [hrects, List.append_assoc]

theorem Restored.inlinedPop {frameLo frameHi : Int64}
    (h : Restored (s.step i (.inlinedPush name frameLo frameHi)) s' rs) :
    ∃ opened : Opened, opened.start = i ∧
      Restored s (s'.step j .inlinedPop) (rs ++ [opened.close j .inlined]) := by
  obtain ⟨opened, hstart, hopen⟩ : ∃ opened : Opened, opened.start = i ∧
      s'.openInlined = opened :: s.openInlined := ⟨_, rfl, h.openInlined⟩
  have hrects : s'.rects = s.rects ++ rs := h.rects
  have hstep : s'.step j .inlinedPop = { s' with
      rects := s'.rects ++ [opened.close j .inlined]
      openInlined := s.openInlined } := by
    rw [Render.step, hopen]
  rw [hstep]
  refine ⟨opened, hstart, ?_, h.openReal, rfl, h.cur⟩
  dsimp only
  rw [hrects, List.append_assoc]

theorem Render.run_between (s : Render) {e e' : Event}
    (hlen : i + (e :: (es ++ [e'])).length ≤ 2 ^ 32) : s.run i (e :: (es ++ [e'])) =
      ((s.step i e).run (i + 1) es).step (i + 1 + es.length) e' := by
  rw [List.length_cons, List.length_append, List.length_singleton] at hlen
  have hfirst : i % 2 ^ 32 = i := Nat.mod_eq_of_lt (by omega)
  have hlast : (i + 1 + es.length) % 2 ^ 32 = i + 1 + es.length := Nat.mod_eq_of_lt (by omega)
  rw [Render.run, Render.run_append, Render.run, Render.run, hfirst, hlast]

theorem Walked.run (h : Walked p entry caller es) : ∀ s i, i + es.length ≤ 2 ^ 32 →
    ∃ rs, Restored s (s.run i es) rs ∧ Tower p entry caller s.cur i es rs := by
  induction h with
  | nil => exact fun s i _ => ⟨[], ⟨(List.append_nil _).symm, rfl, rfl, rfl⟩,
      .silent fun _ _ => List.not_mem_nil⟩
  | loop => exact fun s i _ => ⟨[], ⟨(List.append_nil _).symm, rfl, rfl, rfl⟩,
      .silent fun _ _ he => by cases List.mem_singleton.mp he⟩
  | unknown => exact fun s i _ => ⟨[], ⟨(List.append_nil _).symm, rfl, rfl, rfl⟩,
      .silent fun _ _ he => by cases List.mem_singleton.mp he⟩
  | @append caller es es' _ _ ih ih' =>
    intro s i hlen
    rw [List.length_append] at hlen
    obtain ⟨rs, hrun, htower⟩ := ih s i (by omega)
    obtain ⟨rs', hrun', htower'⟩ := ih' (s.run i es) (i + es.length) (by omega)
    rw [hrun.cur] at htower'
    rw [Render.run_append]
    exact ⟨rs ++ rs', hrun.trans hrun', htower.append htower'⟩
  | @inlined caller es name frameLo frameHi _ ih =>
    intro s i hlen
    rw [s.run_between hlen]
    rw [List.length_cons, List.length_append] at hlen
    obtain ⟨rs, hrun, htower⟩ := ih (s.step i (.inlinedPush name frameLo frameHi)) (i + 1) (by omega)
    obtain ⟨opened, hstart, hpop⟩ := hrun.inlinedPop
    exact ⟨_, hpop, htower.inlined hstart⟩
  | @frame caller es name size hcalls hsize _ ih =>
    intro s i hlen
    rw [s.run_between hlen]
    rw [List.length_cons, List.length_append] at hlen
    obtain ⟨rs, hrun, htower⟩ := ih (s.step i (.push name size)) (i + 1) (by omega)
    exact ⟨_, hrun.pop, htower.frame hcalls hsize⟩

end Ltop.StackSvg
