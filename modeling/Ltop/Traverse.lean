import Mathlib
import Ltop.Filter
import Ltop.Settle

namespace Ltop

open Chain

variable {os : Os} {n : ℕ}

def Survives (prev : Map (Packed os)) (t : Table os n) (parent : Fin n → Option (Fin n))
    (i : Fin n) : Prop :=
  (t i).visible = true ∨
    (∃ a, Above parent a i ∧ (t a).visible = true) ∧ childThresh prev (t i).pid ≤ (t i).cpu

structure Settled (prev : Map (Packed os)) (t : Table os n) (parent : Fin n → Option (Fin n))
    (k : Fin n) (row : ProcInfo os) : Prop where
  kept : Survives prev t parent k → row = { (t k).setVisible true with ppid := row.ppid }
  nearest : Survives prev t parent k → ∀ a, Nearest parent (Survives prev t parent) k a →
    row.ppid = (t a).pid
  rootless : Survives prev t parent k → (∀ a, ¬ Nearest parent (Survives prev t parent) k a) →
    row.ppid = (t k).ppid
  dropped : ¬ Survives prev t parent k → row = t k

def AtOrAbove (K : Fin n → Prop) (parent : Fin n → Option (Fin n)) (i l : Fin n) : Prop :=
  K i ∧ l = i ∨ ¬ K i ∧ Nearest parent K i l

structure Progress (prev : Map (Packed os)) (t : Table os n) (parent : Fin n → Option (Fin n))
    (done popped : Finset (Fin n)) (s : Visit os n) : Prop where
  settled : ∀ k ∈ done, Settled prev t parent k (s.procs k)
  fresh : ∀ k, k ∉ done → s.procs k = t k
  marked : ∀ k, s.enqueued k = true ↔ (t k).visible = true ∨ k ∈ done
  below : ∀ k ∈ done, ∃ i ∈ popped, parent k = some i
  covered : ∀ k, s.enqueued k = true ↔ k ∈ popped ∨ k ∈ s.queue.items.map (·.1)
  disjoint : ∀ k ∈ s.queue.items.map (·.1), k ∉ popped
  nodup : (s.queue.items.map (·.1)).Nodup
  last : ∀ p ∈ s.queue.items, AtOrAbove (Survives prev t parent) parent p.1 p.2
  reached : ∀ k ∈ done, ∃ a, Above parent a k ∧ (t a).visible = true
  capacity : s.queue.capacity = n

variable {prev : Map (Packed os)} {t : Table os n} {parent : Fin n → Option (Fin n)}
  {done popped : Finset (Fin n)} {s : Visit os n}

theorem Settled.same {k : Fin n} {row : ProcInfo os} (h : Settled prev t parent k row) :
    row.pid = (t k).pid ∧ (row.visible = true ↔ Survives prev t parent k) := by
  by_cases hk : Survives prev t parent k
  · rw [h.kept hk]
    refine ⟨rfl, iff_of_true ?_ hk⟩
    exact ProcInfo.visible_setVisible (t k) true
  · rw [h.dropped hk]
    refine ⟨rfl, iff_of_false ?_ hk⟩
    exact fun hv => hk (.inl hv)

theorem Progress.pid (h : Progress prev t parent done popped s) (k : Fin n) :
    (s.procs k).pid = (t k).pid := by
  by_cases hk : k ∈ done
  · exact (h.settled k hk).same.1
  · rw [h.fresh k hk]

theorem Progress.visible (h : Progress prev t parent done popped s) {k : Fin n}
    (hk : s.enqueued k = true) : (s.procs k).visible = true ↔ Survives prev t parent k := by
  by_cases hd : k ∈ done
  · exact (h.settled k hd).same.2
  · have hv := ((h.marked k).mp hk).resolve_right hd
    rw [h.fresh k hd]
    exact iff_of_true hv (.inl hv)

theorem Progress.source (h : Progress prev t parent done popped s) {i : Fin n}
    (hi : s.enqueued i = true) :
    (t i).visible = true ∨ ∃ a, Above parent a i ∧ (t a).visible = true := by
  rcases (h.marked i).mp hi with hv | hd
  · exact .inl hv
  · exact .inr (h.reached i hd)

theorem above_source {i k : Fin n} (hp : parent k = some i)
    (hi : (t i).visible = true ∨ ∃ a, Above parent a i ∧ (t a).visible = true) :
    ∃ a, Above parent a k ∧ (t a).visible = true := by
  rcases hi with hv | ⟨a, ha, hv⟩
  · exact ⟨i, above_of_parent hp, hv⟩
  · exact ⟨a, ha.step hp, hv⟩

theorem touchKid_settled {i k l : Fin n} {iVisible : Bool}
    (hlink : ∀ k i, parent k = some i → (t k).ppid = (t i).pid)
    (hp : parent k = some i) (hs : ∃ a, Above parent a k ∧ (t a).visible = true)
    (hi : iVisible = true ↔ Survives prev t parent i)
    (hl : AtOrAbove (Survives prev t parent) parent i l) :
    Settled prev t parent k (touchKid prev iVisible (t l).pid (t k)) := by
  have hlink := hlink k i hp
  have hwake : (if (t k).cpu ≥ childThresh prev (t k).pid then (t k).setVisible true else t k) =
      if (t k).visible = true ∨ childThresh prev (t k).pid ≤ (t k).cpu then (t k).setVisible true
      else t k := by
    by_cases hc : childThresh prev (t k).pid ≤ (t k).cpu
    · rw [if_pos hc, if_pos (.inr hc)]
    · rw [if_neg hc]
      split
      · rename_i hv
        have hv := hv.resolve_right hc
        rw [← hv, ProcInfo.setVisible_visible]
      · rfl
  have hkeep : Survives prev t parent k ↔
      (t k).visible = true ∨ childThresh prev (t k).pid ≤ (t k).cpu := by
    simp only [Survives, hs, true_and]
  have hnear : ∀ a, Nearest parent (Survives prev t parent) k a → a = l := by
    intro a ha
    obtain ⟨x, hx, hxa⟩ := nearest_iff.mp ha
    obtain rfl := Option.some.inj (hp.symm.trans hx)
    rcases hl with ⟨hki, rfl⟩ | ⟨hki, hnl⟩
    · rcases hxa with ⟨_, rfl⟩ | ⟨hn, _⟩
      · rfl
      · exact absurd hki hn
    · rcases hxa with ⟨hk, _⟩ | ⟨_, hna⟩
      · exact absurd hk hki
      · exact hna.unique hnl
  have hsome : ∃ a, Nearest parent (Survives prev t parent) k a := by
    obtain ⟨a, ha, hv⟩ := hs
    exact nearest_exists ha (.inl hv)
  unfold touchKid
  dsimp only
  rw [hwake]
  by_cases hk : Survives prev t parent k
  · rw [if_pos (hkeep.mp hk), ProcInfo.visible_setVisible, Bool.true_and]
    cases hiv : iVisible with
    | false =>
      refine ⟨fun _ => rfl, fun _ a ha => ?_, fun _ h => absurd hsome (by simpa using h),
        fun h => absurd hk h⟩
      rw [hnear a ha]
      rfl
    | true =>
      refine ⟨fun _ => rfl, fun _ a ha => ?_, fun _ h => absurd hsome (by simpa using h),
        fun h => absurd hk h⟩
      have hki := hi.mp hiv
      obtain rfl : l = i := by
        rcases hl with ⟨_, rfl⟩ | ⟨hn, _⟩
        · rfl
        · exact absurd hki hn
      rw [hnear a ha]
      exact hlink
  · rw [if_neg fun h => hk (hkeep.mpr h)]
    have hv : (t k).visible = false := by
      rw [← Bool.not_eq_true]
      exact fun h => hk (.inl h)
    rw [hv, Bool.false_and]
    exact ⟨fun h => absurd h hk, fun h => absurd h hk, fun h => absurd h hk, fun _ => rfl⟩

theorem AtOrAbove.child {K : Fin n → Prop} {i k l : Fin n} (hp : parent k = some i)
    (hl : AtOrAbove K parent i l) (hk : ¬ K k) : AtOrAbove K parent k l := by
  refine .inr ⟨hk, nearest_iff.mpr ⟨i, hp, ?_⟩⟩
  rcases hl with ⟨hi, rfl⟩ | hl
  · exact .inl ⟨hi, rfl⟩
  · exact .inr hl

theorem Progress.room (h : Progress prev t parent done popped s) {k : Fin n}
    (hk : s.enqueued k = false) : s.queue.items.length < s.queue.capacity := by
  have hout : k ∉ s.queue.items.map (·.1) := by
    intro hm
    simp [(h.covered k).mpr (.inr hm)] at hk
  have hcard := (List.nodup_cons.mpr ⟨hout, h.nodup⟩).length_le_card
  rw [h.capacity]
  simpa using hcard

structure Turn (prev : Map (Packed os)) (t : Table os n) (parent : Fin n → Option (Fin n))
    (popped : Finset (Fin n)) (i l : Fin n) (iVisible : Bool) : Prop where
  link : ∀ k i, parent k = some i → (t k).ppid = (t i).pid
  popped : i ∈ popped
  source : (t i).visible = true ∨ ∃ a, Above parent a i ∧ (t a).visible = true
  visible : iVisible = true ↔ Survives prev t parent i
  last : AtOrAbove (Survives prev t parent) parent i l

theorem Progress.touched {i l k : Fin n} {iVisible : Bool} (h : Progress prev t parent done popped s)
    (ht : Turn prev t parent popped i l iVisible) (hp : parent k = some i) (hk : k ∉ done) :
    (∀ j ∈ insert k done, Settled prev t parent j
        (Function.update s.procs k (touchKid prev iVisible (t l).pid (s.procs k)) j)) ∧
      (∀ j, j ∉ insert k done →
        Function.update s.procs k (touchKid prev iVisible (t l).pid (s.procs k)) j = t j) ∧
      (∀ j ∈ insert k done, ∃ i ∈ popped, parent j = some i) ∧
      (∀ j ∈ insert k done, ∃ a, Above parent a j ∧ (t a).visible = true) ∧
      AtOrAbove (Survives prev t parent) parent k
        (if (touchKid prev iVisible (t l).pid (s.procs k)).visible then k else l) := by
  have hs := above_source hp ht.source
  have hset := touchKid_settled ht.link hp hs ht.visible ht.last
  rw [← h.fresh k hk] at hset
  have hvis := hset.same.2
  refine ⟨fun j hj => ?_, fun j hj => ?_, fun j hj => ?_, fun j hj => ?_, ?_⟩
  · by_cases hjk : j = k
    · subst hjk
      rwa [Function.update_self]
    · rw [Function.update_of_ne hjk]
      exact h.settled j (Finset.mem_of_mem_insert_of_ne hj hjk)
  · rw [Finset.mem_insert, not_or] at hj
    rw [Function.update_of_ne hj.1]
    exact h.fresh j hj.2
  · rcases Finset.mem_insert.mp hj with rfl | hj
    · exact ⟨i, ht.popped, hp⟩
    · exact h.below j hj
  · rcases Finset.mem_insert.mp hj with rfl | hj
    · exact hs
    · exact h.reached j hj
  · split
    · rename_i hv
      exact .inl ⟨hvis.mp hv, rfl⟩
    · rename_i hv
      exact ht.last.child hp fun hkk => hv (hvis.mpr hkk)

theorem Progress.kid {i l k : Fin n} {iVisible : Bool} (h : Progress prev t parent done popped s)
    (ht : Turn prev t parent popped i l iVisible) (hp : parent k = some i) (hk : k ∉ done) :
    Progress prev t parent (insert k done) popped (visitKid prev iVisible l (t l).pid s k) := by
  obtain ⟨hsettled, hfresh, hbelow, hreached, hlast⟩ := h.touched ht hp hk
  unfold visitKid
  dsimp only
  cases hm : s.enqueued k with
  | true =>
    rw [if_pos rfl]
    refine ⟨hsettled, hfresh, ?_, hbelow, h.covered, h.disjoint, h.nodup, h.last, hreached,
      h.capacity⟩
    intro j
    rw [Finset.mem_insert]
    change s.enqueued j = true ↔ _
    by_cases hjk : j = k
    · subst hjk
      simp [hm]
    · rw [h.marked j]
      simp [hjk]
  | false =>
    have hroom := h.room hm
    have hout : k ∉ popped ∧ k ∉ s.queue.items.map (·.1) := by
      rw [← not_or, ← h.covered k, hm]
      simp
    rw [if_neg Bool.false_ne_true]
    have hitems := FVec.push_items hroom
      (k, if (touchKid prev iVisible (t l).pid (s.procs k)).visible then k else l)
    refine ⟨hsettled, hfresh, ?_, hbelow, ?_, ?_, ?_, ?_, hreached,
      (FVec.push_capacity _ _).trans h.capacity⟩
    · intro j
      dsimp only
      by_cases hjk : j = k
      · subst hjk
        simp
      · rw [Function.update_of_ne hjk, h.marked j, Finset.mem_insert]
        simp [hjk]
    · intro j
      simp only [hitems, List.map_append, List.map_cons, List.map_nil, List.mem_append,
        List.mem_singleton]
      by_cases hjk : j = k
      · subst hjk
        simp
      · rw [Function.update_of_ne hjk, h.covered j]
        simp [hjk]
    · intro j hj
      simp only [hitems, List.map_append, List.map_cons, List.map_nil, List.mem_append,
        List.mem_singleton] at hj
      rcases hj with hj | rfl
      · exact h.disjoint j hj
      · exact hout.1
    · simp only [hitems, List.map_append, List.map_cons, List.map_nil]
      rw [List.nodup_append]
      refine ⟨h.nodup, List.nodup_singleton k, ?_⟩
      rintro a ha b hb rfl
      rw [List.mem_singleton.mp hb] at ha
      exact hout.2 ha
    · intro p hp
      simp only [hitems, List.mem_append, List.mem_singleton] at hp
      rcases hp with hp | rfl
      · exact h.last p hp
      · exact hlast

theorem Progress.kids {i l : Fin n} {iVisible : Bool} {ks : List (Fin n)}
    (h : Progress prev t parent done popped s) (ht : Turn prev t parent popped i l iVisible)
    (hnd : ks.Nodup) (hp : ∀ k ∈ ks, parent k = some i) (hk : ∀ k ∈ ks, k ∉ done) :
    Progress prev t parent (done ∪ ks.toFinset) popped
      (ks.foldl (visitKid prev iVisible l (t l).pid) s) := by
  induction ks generalizing done s with
  | nil => simpa using h
  | cons k ks ih =>
    obtain ⟨hout, hnd⟩ := List.nodup_cons.mp hnd
    have hstep := h.kid ht (hp k (by simp)) (hk k (by simp))
    have hrest := ih hstep hnd (fun j hj => hp j (by simp [hj])) (by
      intro j hj
      rw [Finset.mem_insert, not_or]
      refine ⟨?_, hk j (by simp [hj])⟩
      rintro rfl
      exact hout hj)
    rw [List.foldl_cons]
    convert hrest using 1
    ext j
    simp

theorem Progress.pop {q : FVec (Fin n × Fin n)} {i l : Fin n}
    (h : Progress prev t parent done popped s) (hq : s.queue.items.Perm ((i, l) :: q.items))
    (hc : q.capacity = s.queue.capacity) :
    Progress prev t parent done (insert i popped) { s with queue := q } := by
  have hkeys := hq.map (·.1)
  have hnd := hkeys.nodup_iff.mp h.nodup
  rw [List.map_cons, List.nodup_cons] at hnd
  refine ⟨h.settled, h.fresh, h.marked, ?_, ?_, ?_, hnd.2, ?_, h.reached, hc.trans h.capacity⟩
  · intro k hk
    obtain ⟨j, hj, hp⟩ := h.below k hk
    exact ⟨j, Finset.mem_insert_of_mem hj, hp⟩
  · intro k
    rw [h.covered k, hkeys.mem_iff, List.map_cons, List.mem_cons, Finset.mem_insert]
    tauto
  · intro k hk
    rw [Finset.mem_insert, not_or]
    refine ⟨?_, h.disjoint k (hkeys.mem_iff.mpr (by simp only [List.map_cons]; exact .tail _ hk))⟩
    rintro rfl
    exact hnd.1 hk
  · exact fun p hp => h.last p (hq.mem_iff.mpr (.tail _ hp))

structure Frontier (prev : Map (Packed os)) (t : Table os n) (parent : Fin n → Option (Fin n))
    (done popped : Finset (Fin n)) (s : Visit os n) : Prop
    extends Progress prev t parent done popped s where
  closed : ∀ i ∈ popped, ∀ k, parent k = some i → k ∈ done

inductive AnyVisit (prev : Map (Packed os)) (parent : Fin n → Option (Fin n)) :
    Visit os n → Visit os n → Prop
  | pop {s : Visit os n} {q : FVec (Fin n × Fin n)} {i l : Fin n} {kids : List (Fin n)}
      (hq : s.queue.items.Perm ((i, l) :: q.items)) (hc : q.capacity = s.queue.capacity)
      (hnd : kids.Nodup) (hk : ∀ k, k ∈ kids ↔ parent k = some i) :
      AnyVisit prev parent s (visitKids prev { s with queue := q } i l kids)

theorem Frontier.turn {q : FVec (Fin n × Fin n)} {i l : Fin n} {kids : List (Fin n)}
    (hlink : ∀ k i, parent k = some i → (t k).ppid = (t i).pid)
    (h : Frontier prev t parent done popped s) (hq : s.queue.items.Perm ((i, l) :: q.items))
    (hc : q.capacity = s.queue.capacity) (hk : ∀ k, k ∈ kids ↔ parent k = some i) :
    i ∉ popped ∧ Progress prev t parent done (insert i popped) { s with queue := q } ∧
      Turn prev t parent (insert i popped) i l (s.procs i).visible ∧ ∀ k ∈ kids, k ∉ done := by
  have hmem : (i, l) ∈ s.queue.items := hq.mem_iff.mpr (by simp)
  have hkey : i ∈ s.queue.items.map (·.1) := List.mem_map.mpr ⟨_, hmem, rfl⟩
  have hout := h.disjoint i hkey
  have hmark := (h.covered i).mpr (.inr hkey)
  refine ⟨hout, h.toProgress.pop hq hc,
    ⟨hlink, Finset.mem_insert_self _ _, h.source hmark, h.visible hmark, h.last _ hmem⟩, ?_⟩
  intro k hk' hd
  obtain ⟨j, hj, hp⟩ := h.below k hd
  obtain rfl := Option.some.inj (((hk k).mp hk').symm.trans hp)
  exact hout hj

theorem Frontier.visit {s s' : Visit os n}
    (hlink : ∀ k i, parent k = some i → (t k).ppid = (t i).pid)
    (h : Frontier prev t parent done popped s) (hv : AnyVisit prev parent s s') :
    ∃ i, i ∉ popped ∧ ∃ done', Frontier prev t parent done' (insert i popped) s' := by
  cases hv with
  | @pop q i l kids hq hc hnd hk =>
    obtain ⟨hout, hpop, hturn, hnew⟩ := h.turn hlink hq hc hk
    have hkids := hpop.kids hturn hnd (fun k hk' => (hk k).mp hk') hnew
    refine ⟨i, hout, done ∪ kids.toFinset, ?_, ?_⟩
    · unfold visitKids
      dsimp only
      rw [h.pid l]
      exact hkids
    · intro j hj k hp
      rw [Finset.mem_union, List.mem_toFinset]
      rcases Finset.mem_insert.mp hj with rfl | hj
      · exact .inr ((hk k).mpr hp)
      · exact .inl (h.closed j hj k hp)

def remaining (s : Visit os n) : ℕ :=
  (Finset.univ.filter fun i => s.enqueued i = false).card + s.queue.items.length

theorem Progress.remaining (h : Progress prev t parent done popped s) :
    popped.card + remaining s = n := by
  have hmarked : (Finset.univ.filter fun i => s.enqueued i = true) =
      popped ∪ (s.queue.items.map (·.1)).toFinset := by
    ext i
    rw [Finset.mem_filter, Finset.mem_union, List.mem_toFinset, h.covered i]
    simp
  have hdisj : Disjoint popped (s.queue.items.map (·.1)).toFinset := by
    rw [Finset.disjoint_right]
    intro i hi
    exact h.disjoint i (List.mem_toFinset.mp hi)
  have hcard := congrArg Finset.card hmarked
  rw [Finset.card_union_of_disjoint hdisj, List.toFinset_card_of_nodup h.nodup,
    List.length_map] at hcard
  have hsplit := Finset.card_filter_add_card_filter_not (s := (Finset.univ : Finset (Fin n)))
    (fun i => s.enqueued i = true)
  rw [hcard] at hsplit
  simp only [Bool.not_eq_true, Finset.card_univ, Fintype.card_fin] at hsplit
  unfold Ltop.remaining
  omega

theorem seed_frontier (prev : Map (Packed os)) (t : Table os n) (parent : Fin n → Option (Fin n)) :
    Frontier prev t parent ∅ ∅ (seedVisit t) := by
  have hitems : (seedVisit t).queue.items =
      ((List.finRange n).filter fun i => (t i).visible).map fun i => (i, i) := by
    have hlen := List.length_filter_le (fun i => (t i).visible) (List.finRange n)
    rw [List.length_finRange] at hlen
    exact (FVec.pushAll_items (by simpa using hlen)).trans (List.nil_append _)
  have hkeys : (seedVisit t).queue.items.map (·.1) =
      (List.finRange n).filter fun i => (t i).visible := by
    rw [hitems, List.map_map]
    exact List.map_id _
  refine ⟨⟨by simp, fun k _ => rfl, ?_, by simp, ?_, by simp, ?_, ?_, by simp, ?_⟩, by simp⟩
  · intro k
    simp [seedVisit]
  · intro k
    rw [hkeys]
    simp [seedVisit]
  · rw [hkeys]
    exact (List.nodup_finRange n).filter _
  · intro p hp
    rw [hitems] at hp
    obtain ⟨i, hi, rfl⟩ := List.mem_map.mp hp
    exact .inl ⟨.inl (List.mem_filter.mp hi).2, rfl⟩
  · exact (FVec.pushAll_capacity _ _).trans rfl

theorem Frontier.complete (h : Frontier prev t parent done popped s) (he : s.queue.items = []) :
    ∀ k, Settled prev t parent k (s.procs k) := by
  have hpopped : ∀ i, s.enqueued i = true ↔ i ∈ popped := by
    intro i
    rw [h.covered i, he]
    simp
  have hdown : ∀ m k a, climb parent (m + 1) k = some a → (t a).visible = true → k ∈ done := by
    intro m
    induction m with
    | zero =>
      intro k a hk hv
      rw [climb_one] at hk
      exact h.closed a ((hpopped a).mp ((h.marked a).mpr (.inl hv))) k hk
    | succ m ih =>
      intro k a hk hv
      cases hp : parent k with
      | none => simp [climb_of_root parent hp] at hk
      | some i =>
        rw [climb_of_parent parent hp] at hk
        have hi := ih i a hk hv
        exact h.closed i ((hpopped i).mp ((h.marked i).mpr (.inr hi))) k hp
  intro k
  by_cases hk : k ∈ done
  · exact h.settled k hk
  · rw [h.fresh k hk]
    have hnone : ¬ ∃ a, Above parent a k ∧ (t a).visible = true := by
      rintro ⟨a, ⟨m, hm⟩, hv⟩
      exact hk (hdown m k a hm hv)
    have hvis : Survives prev t parent k → (t k).visible = true := by
      rintro (hv | ⟨ha, _⟩)
      · exact hv
      · exact absurd ha hnone
    refine ⟨?_, ?_, fun _ _ => rfl, fun _ => rfl⟩
    · intro hs
      rw [← hvis hs, ProcInfo.setVisible_visible]
    · rintro _ a ha
      rcases ha.kept with hv | ⟨⟨b, hb, hv⟩, _⟩
      · exact absurd ⟨a, ha.above, hv⟩ hnone
      · exact absurd ⟨b, hb.trans ha.above, hv⟩ hnone

theorem Settled.unique {k : Fin n} {r r' : ProcInfo os} (h : Settled prev t parent k r)
    (h' : Settled prev t parent k r') : r = r' := by
  by_cases hk : Survives prev t parent k
  · have hppid : r.ppid = r'.ppid := by
      by_cases hn : ∃ a, Nearest parent (Survives prev t parent) k a
      · obtain ⟨a, ha⟩ := hn
        rw [h.nearest hk a ha, h'.nearest hk a ha]
      · rw [h.rootless hk (by simpa using hn), h'.rootless hk (by simpa using hn)]
    rw [h.kept hk, h'.kept hk, hppid]
  · rw [h.dropped hk, h'.dropped hk]

theorem anyVisit_complete (hlink : ∀ k i, parent k = some i → (t k).ppid = (t i).pid)
    (hr : Relation.ReflTransGen (AnyVisit prev parent) (seedVisit t) s)
    (he : s.queue.items = []) : ∀ k, Settled prev t parent k (s.procs k) := by
  have hinv : ∃ done popped, Frontier prev t parent done popped s := by
    clear he
    induction hr with
    | refl => exact ⟨∅, ∅, seed_frontier prev t parent⟩
    | tail _ hv ih =>
      obtain ⟨done, popped, h⟩ := ih
      obtain ⟨i, _, done', h'⟩ := h.visit hlink hv
      exact ⟨done', insert i popped, h'⟩
  obtain ⟨done, popped, h⟩ := hinv
  exact h.complete he

def coalesced (procs : Table os n) : Table os n :=
  coalesceHelpers addF32 procs (buildPidToIdx procs)

theorem coalesced_link {procs : Table os n} (hd : Distinct procs) (k i : Fin n)
    (hp : treeParent procs k = some i) : (coalesced procs k).ppid = (coalesced procs i).pid := by
  rw [coalesced, (coalesceHelpers_same _ _ k).ppid, (coalesceHelpers_same _ _ i).pid]
  exact ((buildPidToIdx_get hd _ i).mp hp).symm

theorem visitStep_any {procs : Table os n} {m : Map (Fin n)} {s s' : Visit os n}
    (h : visitStep prev (buildChildren procs m) s = some s') :
    AnyVisit prev (parentOf procs m) s s' := by
  obtain ⟨⟨q, i, l⟩, hpop, rfl⟩ := Option.map_eq_some_iff.mp h
  obtain ⟨hitems, hcap⟩ := FVec.pop_eq_some hpop
  refine .pop (by rw [hitems]; exact List.perm_append_singleton _ _) hcap ?_ ?_
  · rw [buildChildren_bucket]
    exact (List.nodup_finRange n).filter _
  · intro k
    rw [buildChildren_bucket]
    simp

theorem retain_visible (next : ℕ × List (UInt32 × Packed os)) (rows : List (ProcInfo os)) :
    (FVec.retain retainStep next rows).2 = rows.filter fun p => p.visible := by
  induction rows generalizing next with
  | nil => rfl
  | cons p rows ih =>
    simp only [FVec.retain, retainStep]
    cases hv : p.visible with
    | true => simp [hv, ih]
    | false => simp [hv, ih]

theorem visits_finish (procs : List (ProcInfo os)) (hd : Distinct procs.get)
    (prev : Map (Packed os)) :
    ∃ s, Loop.run (visitStep prev (buildChildren procs.get (buildPidToIdx procs.get)))
        procs.length (seedVisit (coalesced procs.get)) = some s ∧
      ∀ k, Settled prev (coalesced procs.get) (treeParent procs.get) k (s.procs k) := by
  let Inv : Visit os procs.length → Prop := fun s =>
    ∃ done popped, Frontier prev (coalesced procs.get) (treeParent procs.get) done popped s
  have hlink := coalesced_link hd
  have hinv : ∀ s s', Inv s →
      visitStep prev (buildChildren procs.get (buildPidToIdx procs.get)) s = some s' → Inv s' := by
    rintro s s' ⟨done, popped, h⟩ hv
    obtain ⟨i, _, done', h'⟩ := h.visit hlink (visitStep_any hv)
    exact ⟨done', insert i popped, h'⟩
  have hvar : ∀ s s', Inv s →
      visitStep prev (buildChildren procs.get (buildPidToIdx procs.get)) s = some s' →
      remaining s' < remaining s := by
    rintro s s' ⟨done, popped, h⟩ hv
    obtain ⟨i, hi, done', h'⟩ := h.visit hlink (visitStep_any hv)
    have hs := h.toProgress.remaining
    have hs' := h'.toProgress.remaining
    rw [Finset.card_insert_of_notMem hi] at hs'
    omega
  have hseed := seed_frontier prev (coalesced procs.get) (treeParent procs.get)
  obtain ⟨s, hrun, ⟨done, popped, h⟩, hdone⟩ := Loop.run_total _ Inv remaining hinv hvar
    procs.length ⟨∅, ∅, hseed⟩ (by have := hseed.toProgress.remaining; simp at this; omega)
  refine ⟨s, hrun, h.complete ?_⟩
  exact FVec.pop_eq_none.mp (by simpa [visitStep] using hdone)

theorem filterWithChildren_run {procs : List (ProcInfo os)} {prev : Map (Packed os)}
    {s : Visit os procs.length} (next : List (UInt32 × Packed os))
    (hrun : Loop.run (visitStep prev (buildChildren procs.get (buildPidToIdx procs.get)))
      procs.length (seedVisit (coalesced procs.get)) = some s) :
    ∃ next', filterWithChildren procs prev next = some
      (((List.finRange procs.length).filter fun i => (s.procs i).visible).map s.procs, next') := by
  have hout : (FVec.retain retainStep (0, next) (List.ofFn s.procs)).2 =
      ((List.finRange procs.length).filter fun i => (s.procs i).visible).map s.procs := by
    rw [retain_visible, List.ofFn_eq_map, List.filter_map]
    rfl
  refine ⟨(FVec.retain retainStep (0, next) (List.ofFn s.procs)).1.2, ?_⟩
  unfold filterWithChildren
  dsimp only
  rw [← hout]
  exact congrArg _ hrun

structure Filtered (prev : Map (Packed os)) (procs : Table os n) (kept : List (Fin n))
    (rows : Table os n) : Prop where
  order : kept.Sublist (List.finRange n)
  mem : ∀ i, i ∈ kept ↔ Survives prev (coalesced procs) (treeParent procs) i
  row : ∀ i, Settled prev (coalesced procs) (treeParent procs) i (rows i)

theorem coalesced_pid (procs : Table os n) (i : Fin n) : (coalesced procs i).pid = (procs i).pid :=
  (coalesceHelpers_same _ _ i).pid

theorem coalesced_ppid (procs : Table os n) (i : Fin n) :
    (coalesced procs i).ppid = (procs i).ppid :=
  (coalesceHelpers_same _ _ i).ppid

theorem Filtered.pid {procs : Table os n} {kept : List (Fin n)} {rows : Table os n}
    (h : Filtered prev procs kept rows) (i : Fin n) : (rows i).pid = (procs i).pid :=
  (h.row i).same.1.trans (coalesced_pid procs i)

theorem Filtered.pid_mem {procs : Table os n} {kept : List (Fin n)} {rows : Table os n}
    (h : Filtered prev procs kept rows) (hd : Distinct procs) (i : Fin n) :
    (∃ row ∈ kept.map rows, row.pid = (procs i).pid) ↔
      Survives prev (coalesced procs) (treeParent procs) i := by
  rw [← h.mem i]
  constructor
  · rintro ⟨row, hrow, hpid⟩
    obtain ⟨k, hk, rfl⟩ := List.mem_map.mp hrow
    rw [h.pid] at hpid
    exact hd hpid ▸ hk
  · intro hi
    exact ⟨rows i, List.mem_map.mpr ⟨i, hi, rfl⟩, h.pid i⟩

def loadCpu (procs : Table os n) (i : Fin n) : ℚ := replayCpu addF32 procs (buildPidToIdx procs) i

def loadRss (procs : Table os n) (i : Fin n) : ℕ :=
  min (∑ k with settlesAt procs (buildPidToIdx procs) k = i, (procs k).rssKib.toNat) (2 ^ 32 - 1)

theorem coalesced_cpu (procs : Table os n) (i : Fin n) : (coalesced procs i).cpu = loadCpu procs i :=
  coalesceHelpers_cpu_replay procs _ i

theorem coalesced_visible (procs : Table os n) (i : Fin n) :
    (coalesced procs i).visible = true ↔ Surfaces procs (buildPidToIdx procs) i :=
  coalesceHelpers_visible procs _ i

theorem coalesced_rss (procs : Table os n) (i : Fin n) :
    (coalesced procs i).rssKib.toNat = loadRss procs i :=
  coalesceHelpers_rss_settled procs _ i

def Shown (prev : Map (Packed os)) (procs : Table os n) (i : Fin n) : Prop :=
  Surfaces procs (buildPidToIdx procs) i ∨
  (∃ a, Above (treeParent procs) a i ∧ Surfaces procs (buildPidToIdx procs) a) ∧
    childThresh prev (procs i).pid ≤ loadCpu procs i

theorem survives_iff_shown (prev : Map (Packed os)) (procs : Table os n) (i : Fin n) :
    Survives prev (coalesced procs) (treeParent procs) i ↔ Shown prev procs i := by
  simp only [Survives, Shown, coalesced_pid, coalesced_visible, coalesced_cpu]

theorem filterWithChildren_filtered (procs : List (ProcInfo os)) (hd : Distinct procs.get)
    (prev : Map (Packed os)) (next : List (UInt32 × Packed os)) :
    ∃ kept rows next', filterWithChildren procs prev next = some (kept.map rows, next') ∧
      Filtered prev procs.get kept rows := by
  obtain ⟨s, hrun, hset⟩ := visits_finish procs hd prev
  obtain ⟨next', hf⟩ := filterWithChildren_run next hrun
  refine ⟨_, s.procs, next', hf, List.filter_sublist, ?_, hset⟩
  intro i
  rw [List.mem_filter, ← (hset i).same.2]
  simp

theorem filterWithChildren_keeps (procs : List (ProcInfo os)) (hd : Distinct procs.get)
    (prev : Map (Packed os)) (next : List (UInt32 × Packed os)) :
    ∃ kept rows next', filterWithChildren procs prev next = some (kept.map rows, next') ∧
      Filtered prev procs.get kept rows ∧
      ∀ s, Relation.ReflTransGen (AnyVisit prev (treeParent procs.get)) (seedVisit (coalesced procs.get)) s →
        s.queue.items = [] → s.procs = rows := by
  obtain ⟨kept, rows, next', hrun, h⟩ := filterWithChildren_filtered procs hd prev next
  refine ⟨kept, rows, next', hrun, h, fun s hr he => ?_⟩
  funext k
  exact (anyVisit_complete (coalesced_link hd) hr he k).unique (h.row k)

def forkRows : List (ProcInfo .linux) :=
  [procInfo 13 11 2 false (bytes "rustc"), procInfo 10 1 6 true (bytes "zsh"),
    procInfo 11 10 0 false (bytes "sh"), procInfo 12 10 (1 / 2) false (bytes "cat")]

theorem filterWithChildren_keeps_fork :
    ∃ kept rows next', filterWithChildren forkRows .empty (placeholders forkRows) =
      some (kept.map rows, next') ∧
      Filtered .empty forkRows.get kept rows ∧
      ∀ s, Relation.ReflTransGen (AnyVisit .empty (treeParent forkRows.get))
        (seedVisit (coalesced forkRows.get)) s → s.queue.items = [] → s.procs = rows :=
  filterWithChildren_keeps forkRows (by decide) .empty _

end Ltop
