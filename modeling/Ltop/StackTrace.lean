import Mathlib
import Ltop.StackSvg

namespace Ltop.StackSvg

variable {p : Program} {a b c tr tr' : List Event} {w w' : Walk} {path : List String}
  {name entry : String} {fuel left depth : ℕ} {e : Event}

structure Extends (a b tr : List Event) : Prop where
  grows : a <+: b
  exact : b.length < MAX_EVENTS → b = a ++ tr

namespace Extends

theorem refl (a : List Event) : Extends a a [] := ⟨List.prefix_rfl, fun _ => (List.append_nil a).symm⟩

theorem emit (a tr : List Event) : Extends a (a ++ tr) tr := ⟨List.prefix_append a tr, fun _ => rfl⟩

theorem full (h : MAX_EVENTS ≤ a.length) : Extends a a tr :=
  ⟨List.prefix_rfl, fun hlt => absurd hlt (Nat.not_lt.mpr h)⟩

theorem trans (h : Extends a b tr) (h' : Extends b c tr') : Extends a c (tr ++ tr') := by
  refine ⟨h.grows.trans h'.grows, fun hlt => ?_⟩
  have hmid := h.exact (h'.grows.length_le.trans_lt hlt)
  rw [h'.exact hlt, hmid, List.append_assoc]

end Extends

mutual

def inlineTrace : InlinedCall → List Event
  | .mk name frameLo frameHi children =>
    if INLINED_MIN_BYTES ≤ frameHi - frameLo then
      .inlinedPush name frameLo frameHi :: (inlinesTrace children ++ [.inlinedPop])
    else inlinesTrace children

def inlinesTrace : List InlinedCall → List Event
  | [] => []
  | ic :: ics => inlineTrace ic ++ inlinesTrace ics

end

mutual

theorem emitInlined_extends : ∀ ic ev, Extends ev (emitInlined ic ev) (inlineTrace ic)
  | .mk name frameLo frameHi children, ev => by
    rw [emitInlined, inlineTrace]
    split
    case isTrue hfull => exact .full hfull
    case isFalse =>
      split
      · exact (Extends.emit ev [_]).trans ((emitChildren_extends children _).trans (.emit _ [_]))
      · exact emitChildren_extends children ev

theorem emitChildren_extends : ∀ ics ev, Extends ev (emitChildren ics ev) (inlinesTrace ics)
  | [], ev => .refl ev
  | ic :: ics, ev => (emitInlined_extends ic ev).trans (emitChildren_extends ics _)

end

def Program.trace (p : Program) : ℕ → List String → String → List Event
  | 0, _, _ => []
  | left + 1, path, name =>
    if max (p.bound name).toNat 1 ≤ path.count name then [.loop name]
    else
      match p.frames.stackByName name with
      | none => [.unknown name]
      | some size => .push name size ::
        (inlinesTrace (p.inlined name) ++
          ((p.targets name).flatMap (p.trace left (name :: path)) ++ [.pop]))

@[simp] theorem Walk.enter_onPath (w : Walk) (name : String) : (w.enter name).onPath =
    Function.update w.onPath name (some ((w.onPath name).getD 0 + 1)) := rfl

theorem max_toNat (a b : UInt32) : (max a b).toNat = max a.toNat b.toNat := by
  change (if a ≤ b then b else a).toNat = _
  split
  · rename_i hle
    exact (Nat.max_eq_right (UInt32.le_iff_toNat_le.mp hle)).symm
  · rename_i hle
    exact (Nat.max_eq_left (Nat.le_of_not_le (mt UInt32.le_iff_toNat_le.mpr hle))).symm

structure OnPath (onPath : String → Option UInt32) (path : List String) : Prop where
  count : ∀ f, onPath f = if path.count f = 0 then none else some (path.count f).toUInt32
  short : path.length ≤ MAX_DEPTH + 1

namespace OnPath

theorem count_lt (h : OnPath w.onPath path) (f : String) : path.count f < 2 ^ 32 := by
  have hle : path.count f ≤ path.length := List.count_le_length
  have hshort := h.short
  unfold MAX_DEPTH at hshort
  omega

theorem getD_eq (h : OnPath w.onPath path) (f : String) :
    (w.onPath f).getD 0 = (path.count f).toUInt32 := by
  rw [h.count f]
  split
  · rename_i hzero
    rw [hzero]
    rfl
  · rfl

theorem getD_toNat (h : OnPath w.onPath path) (f : String) :
    ((w.onPath f).getD 0).toNat = path.count f := by
  rw [h.getD_eq f]
  exact Nat.mod_eq_of_lt (h.count_lt f)

theorem eq (h : OnPath w.onPath path) (h' : OnPath w'.onPath path) : w.onPath = w'.onPath :=
  funext fun f => (h.count f).trans (h'.count f).symm

theorem enter (h : OnPath w.onPath path) (hroom : path.length ≤ MAX_DEPTH) :
    OnPath (w.enter name).onPath (name :: path) := by
  refine ⟨fun f => ?_, Nat.succ_le_succ hroom⟩
  by_cases hf : f = name
  · subst hf
    rw [Walk.enter_onPath, Function.update_self, h.getD_eq f, List.count_cons_self,
      if_neg (Nat.succ_ne_zero _)]
    exact congrArg some (UInt32.ofNat_add _ 1).symm
  · rw [Walk.enter_onPath, Function.update_of_ne hf, h.count f, List.count_cons_of_ne (Ne.symm hf)]

theorem leave (h : OnPath w.onPath (name :: path)) :
    ∃ w', w.leave name = .some w' ∧ w'.ev = w.ev ∧ OnPath w'.onPath path := by
  have hlt := h.count_lt name
  have hcount := h.count name
  rw [List.count_cons_self] at hlt hcount
  rw [if_neg (Nat.succ_ne_zero _)] at hcount
  have hsub : (path.count name + 1).toUInt32 - 1 = (path.count name).toUInt32 := by
    have hadd : (path.count name + 1).toUInt32 = (path.count name).toUInt32 + 1 :=
      UInt32.ofNat_add _ 1
    rw [hadd]
    exact UInt32.add_sub_cancel _ _
  have hzero : (path.count name).toUInt32 = 0 ↔ path.count name = 0 := by
    rw [← UInt32.toNat_inj]
    have htoNat : (path.count name).toUInt32.toNat = path.count name := Nat.mod_eq_of_lt (by omega)
    rw [htoNat]
    rfl
  unfold Walk.leave
  rw [hcount]
  refine ⟨_, rfl, rfl, fun f => ?_, (Nat.le_succ _).trans h.short⟩
  by_cases hf : f = name
  · subst hf
    dsimp only
    rw [Function.update_self, hsub]
    exact if_congr hzero rfl rfl
  · have hother := h.count f
    rw [List.count_cons_of_ne (Ne.symm hf)] at hother
    dsimp only
    rw [Function.update_of_ne hf, hother]

end OnPath

theorem foldlM_targets {f : Walk → String → Outcome Walk} {trace : String → List Event}
    (hf : ∀ w t, OnPath w.onPath path →
      ∃ w', f w t = .some w' ∧ OnPath w'.onPath path ∧ Extends w.ev w'.ev (trace t))
    (ts : List String) (w : Walk) (hw : OnPath w.onPath path) :
    ∃ w', ts.foldlM f w = .some w' ∧ OnPath w'.onPath path ∧
      Extends w.ev w'.ev (ts.flatMap trace) := by
  induction ts generalizing w with
  | nil => exact ⟨w, rfl, hw, .refl w.ev⟩
  | cons t ts ih =>
    obtain ⟨w₁, hfirst, hw₁, hext⟩ := hf w t hw
    obtain ⟨w₂, hrest, hw₂, hext'⟩ := ih w₁ hw₁
    rw [List.foldlM_cons, hfirst]
    exact ⟨w₂, hrest, hw₂, hext.trans hext'⟩

theorem Program.walkR_traces (p : Program) (left : ℕ) : ∀ {fuel name depth path w}, left < fuel →
    depth + left = MAX_DEPTH + 1 → path.length = depth → OnPath w.onPath path →
    ∃ w', p.walkR fuel name depth w = .some w' ∧ OnPath w'.onPath path ∧
      Extends w.ev w'.ev (p.trace left path name) := by
  induction left with
  | zero =>
    rintro (_ | fuel) name depth path w hfuel hdepth hpath hw
    · exact absurd hfuel (Nat.not_lt_zero 0)
    · rw [Program.walkR, if_pos (.inr (by omega))]
      exact ⟨w, rfl, hw, .refl w.ev⟩
  | succ left ih =>
    rintro (_ | fuel) name depth path w hfuel hdepth hpath hw
    · exact absurd hfuel (Nat.not_lt_zero _)
    rw [Program.walkR]
    by_cases hfull : MAX_EVENTS ≤ w.ev.length
    · rw [if_pos (.inl hfull)]
      exact ⟨w, rfl, hw, .full hfull⟩
    have hloop : max (p.bound name) 1 ≤ (w.onPath name).getD 0 ∧ 0 < (w.onPath name).getD 0 ↔
        max (p.bound name).toNat 1 ≤ path.count name := by
      rw [UInt32.le_iff_toNat_le, UInt32.lt_iff_toNat_lt, max_toNat, hw.getD_toNat]
      exact ⟨And.left, fun h => ⟨h, (le_max_right _ 1).trans h⟩⟩
    rw [if_neg (by omega), Program.trace]
    dsimp only
    by_cases hbound : max (p.bound name).toNat 1 ≤ path.count name
    · rw [if_pos (hloop.mpr hbound), if_pos hbound]
      exact ⟨_, rfl, hw, .emit ..⟩
    rw [if_neg (fun h => hbound (hloop.mp h)), if_neg hbound]
    cases hsize : p.frames.stackByName name with
    | none => exact ⟨_, rfl, hw, .emit ..⟩
    | some size =>
      have hentered : OnPath ((w.emit (.push name size)).enter name).onPath (name :: path) :=
        hw.enter (by omega)
      have htarget : ∀ v t, OnPath v.onPath (name :: path) →
          ∃ v', p.walkR fuel t (depth + 1) v = .some v' ∧ OnPath v'.onPath (name :: path) ∧
            Extends v.ev v'.ev (p.trace left (name :: path) t) := fun v t hv =>
        ih (by omega) (by omega) (congrArg Nat.succ hpath) hv
      obtain ⟨w₁, hfold, hw₁, hext⟩ := foldlM_targets htarget (p.targets name)
        ⟨_, emitChildren (p.inlined name) (w.ev ++ [.push name size])⟩ hentered
      obtain ⟨w₂, hleave, hev, hw₂⟩ := hw₁.leave
      refine ⟨w₂.emit .pop, ?_, hw₂, ?_⟩
      · have hbind : (p.targets name).foldlM (fun w t => p.walkR fuel t (depth + 1) w)
            { (w.emit (.push name size)).enter name with
              ev := emitChildren (p.inlined name) ((w.emit (.push name size)).enter name).ev } =
            .some w₁ := hfold
        dsimp only
        rw [hbind, Outcome.some_bind, hleave, Outcome.some_bind]
      · have hpop : Extends w₁.ev (w₂.emit .pop).ev [.pop] := by
          rw [← hev]
          exact .emit _ _
        exact (Extends.emit w.ev [.push name size]).trans
          ((emitChildren_extends (p.inlined name) _).trans (hext.trans hpop))

theorem Program.walk_traces (p : Program) (entry : String) :
    ∃ ev, p.walk entry = .some ev ∧
      (ev.length < MAX_EVENTS → ev = p.trace (MAX_DEPTH + 1) [] entry) := by
  have hempty : OnPath (fun _ => none) ([] : List String) := ⟨fun _ => rfl, Nat.zero_le _⟩
  have htraces : ∃ w, p.walkR (MAX_DEPTH + 2) entry 0 ⟨fun _ => none, []⟩ = .some w ∧
      OnPath w.onPath [] ∧ Extends [] w.ev (p.trace (MAX_DEPTH + 1) [] entry) :=
    p.walkR_traces (MAX_DEPTH + 1) (Nat.lt_succ_self _) (Nat.zero_add _) rfl hempty
  obtain ⟨w, hwalk, -, hext⟩ := htraces
  refine ⟨w.ev, ?_, hext.exact⟩
  rw [Program.walk, hwalk, Outcome.some_bind]

end Ltop.StackSvg
