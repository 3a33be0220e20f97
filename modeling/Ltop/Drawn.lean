import Mathlib
import Ltop.Layout
import Ltop.Traverse

namespace Ltop

open Chain

variable {os : Os} {prev : Map (Packed os)} {procs : List (ProcInfo os)}

def Drawn (procs : List (ProcInfo os)) (prev : Map (Packed os))
    (next : List (UInt32 × Packed os)) : Prop :=
  ∃ out next' layout, filterWithChildren procs prev next = some (out, next') ∧
    treeLayout out = some layout ∧ ∀ i : Fin out.length, (layout.map (·.2)).count i = 1

section Kept

variable {kept : List (Fin procs.length)} {rows : Table os procs.length}

def position (kept : List (Fin procs.length)) (rows : Table os procs.length)
    (j : Fin (kept.map rows).length) : Fin procs.length :=
  kept.get ⟨j.val, by simpa using j.isLt⟩

theorem get_position (j : Fin (kept.map rows).length) :
    (kept.map rows).get j = rows (position kept rows j) := by
  simp [position]

theorem position_mem (rows : Table os procs.length) (j : Fin (kept.map rows).length) :
    position kept rows j ∈ kept :=
  List.getElem_mem _

theorem mem_position (rows : Table os procs.length) {i : Fin procs.length} (hi : i ∈ kept) :
    ∃ j : Fin (kept.map rows).length, position kept rows j = i := by
  obtain ⟨j, hj, rfl⟩ := List.getElem_of_mem hi
  exact ⟨⟨j, by simpa using hj⟩, rfl⟩

theorem kept_distinct (hd : Distinct procs.get) (h : Filtered prev procs.get kept rows) :
    Distinct (kept.map rows).get := by
  have hnd := h.order.nodup (List.nodup_finRange _)
  intro i j hij
  simp only [get_position, h.pid] at hij
  have hpos := hd hij
  exact Fin.ext ((List.Nodup.getElem_inj_iff hnd).mp hpos)

theorem kept_parent (hd : Distinct procs.get) (h : Filtered prev procs.get kept rows)
    (i j : Fin (kept.map rows).length) :
    treeParent (kept.map rows).get j = some i ↔
      Nearest (treeParent procs.get) (Survives prev (coalesced procs.get) (treeParent procs.get))
        (position kept rows j) (position kept rows i) := by
  have hset := h.row (position kept rows j)
  have hs := (h.mem _).mp (position_mem rows j)
  rw [treeParent_eq (kept_distinct hd h), get_position, get_position, h.pid]
  by_cases hn : ∃ a, Nearest (treeParent procs.get) (Survives prev (coalesced procs.get) (treeParent procs.get))
      (position kept rows j) a
  · obtain ⟨a, ha⟩ := hn
    rw [hset.nearest hs a ha, coalesced_pid]
    constructor
    · intro he
      exact hd he ▸ ha
    · intro hni
      rw [hni.unique ha]
  · have hppid := hset.rootless hs (by simpa using hn)
    rw [hppid, coalesced_ppid, ← treeParent_eq hd]
    refine iff_of_false (fun hp => hn ?_) fun hni => hn ⟨_, hni⟩
    exact nearest_exists (above_of_parent hp) ((h.mem _).mp (position_mem rows i))

theorem kept_above (hd : Distinct procs.get) (h : Filtered prev procs.get kept rows)
    {i j : Fin (kept.map rows).length} (ha : Above (treeParent (kept.map rows).get) i j) :
    Above (treeParent procs.get) (position kept rows i) (position kept rows j) := by
  obtain ⟨m, hm⟩ := ha
  induction m generalizing j with
  | zero =>
    rw [climb_one] at hm
    exact ((kept_parent hd h i j).mp hm).above
  | succ m ih =>
    cases hp : treeParent (kept.map rows).get j with
    | none => simp [climb_of_root _ hp] at hm
    | some k =>
      rw [climb_of_parent _ hp] at hm
      exact (ih hm).trans ((kept_parent hd h k j).mp hp).above

theorem kept_rooted_iff (hd : Distinct procs.get) (h : Filtered prev procs.get kept rows) :
    (∀ j, Rooted (treeParent (kept.map rows).get) j) ↔
      ∀ i, (coalesced procs.get i).visible = true → ¬ Above (treeParent procs.get) i i := by
  constructor
  · intro hall i hv hc
    have hi : Survives prev (coalesced procs.get) (treeParent procs.get) i := .inl hv
    obtain ⟨j, rfl⟩ := mem_position rows ((h.mem i).mpr hi)
    refine not_rooted_of_closed
      (Q := fun k => Above (treeParent procs.get) (position kept rows j) (position kept rows k))
      ?_ hc (hall j)
    intro k hk
    obtain ⟨a, ha⟩ := nearest_exists hk hi
    obtain ⟨b, rfl⟩ := mem_position rows ((h.mem a).mpr ha.kept)
    refine ⟨b, (kept_parent hd h b k).mpr ha, ?_⟩
    rcases ha.below hk hi with he | hb
    · rw [he]
      exact hc
    · exact hb
  · intro hno j
    rcases rooted_or_cycle Finset.univ (fun _ p _ => Finset.mem_univ p) j with hr | ⟨c, _, _, hc⟩
    · exact hr
    · have hcycle := kept_above hd h hc
      rcases (h.mem _).mp (position_mem rows c) with hv | ⟨⟨a, ha, hv⟩, _⟩
      · exact absurd hcycle (hno _ hv)
      · exact absurd (ha.of_cycle hcycle) (hno a hv)

end Kept

theorem filterWithChildren_drawn_iff (procs : List (ProcInfo os)) (hd : Distinct procs.get)
    (prev : Map (Packed os)) (next : List (UInt32 × Packed os)) :
    Drawn procs prev next ↔
      ∀ i, Surfaces procs.get (buildPidToIdx procs.get) i → ¬ Above (treeParent procs.get) i i := by
  obtain ⟨kept, rows, next', hrun, h⟩ := filterWithChildren_filtered procs hd prev next
  obtain ⟨layout, hlayout, hnd, hmem⟩ := treeLayout_total (kept.map rows)
  have hiff := kept_rooted_iff hd h
  simp only [coalesced_visible] at hiff
  rw [← hiff]
  constructor
  · rintro ⟨out, next'', layout', hrun', hlayout', hcount⟩ j
    obtain ⟨rfl, rfl⟩ := Prod.mk.inj (Option.some.inj (hrun.symm.trans hrun'))
    obtain rfl := Option.some.inj (hlayout.symm.trans hlayout')
    rw [← hmem j]
    exact List.count_pos_iff.mp (by rw [hcount j]; omega)
  · intro hall
    refine ⟨_, _, _, hrun, hlayout, fun j => ?_⟩
    exact List.count_eq_one_of_mem hnd ((hmem j).mpr (hall j))

def cycleRows : List (ProcInfo .linux) := [procInfo 10 20 9 true [], procInfo 20 10 2 false []]

def cycleKept : List (ProcInfo .linux) := [procInfo 10 20 9 true [], procInfo 20 10 2 true []]

theorem filterWithChildren_drawn_iff_cycle :
    Drawn cycleRows .empty (placeholders cycleRows) ↔
      ∀ i, Surfaces cycleRows.get (buildPidToIdx cycleRows.get) i →
        ¬ Above (treeParent cycleRows.get) i i :=
  filterWithChildren_drawn_iff cycleRows (by decide) .empty _

theorem cycleRows_not_drawn :
    Distinct cycleRows.get ∧ ¬ Drawn cycleRows .empty (placeholders cycleRows) := by
  refine ⟨by decide, ?_⟩
  rintro ⟨out, next', layout, hrun, hlayout, hcount⟩
  have hkept : (filterWithChildren cycleRows .empty (placeholders cycleRows)).map (·.1) =
      some cycleKept := by decide
  have hempty : treeLayout cycleKept = some [] := by decide
  rw [hrun] at hkept
  obtain rfl := Option.some.inj hkept
  obtain rfl := Option.some.inj (hempty.symm.trans hlayout)
  have := hcount ⟨0, by decide⟩
  simp at this

end Ltop
