import Mathlib
import Ltop.Layout
import Ltop.Traverse

namespace Ltop

open Preorder

variable {os : Os} {n : ℕ}

namespace FVec

variable {T : Type}

def accepts (v : FVec T) : List T → List Bool
  | [] => []
  | x :: xs => (v.push x).2.isNone :: (v.push x).1.accepts xs

theorem accepts_all {v : FVec T} {xs : List T} (h : v.items.length + xs.length ≤ v.capacity) :
    ∀ b ∈ v.accepts xs, b = true := by
  induction xs generalizing v with
  | nil => simp [accepts]
  | cons x xs ih =>
    rw [List.length_cons] at h
    have hroom : v.items.length < v.capacity := by omega
    have hp := push_items hroom x
    intro b hb
    rcases List.mem_cons.mp hb with rfl | hb
    · rw [push_accepts hroom]
      rfl
    · exact ih (by rw [hp, push_capacity]; simp; omega) b hb

theorem accepts_length (v : FVec T) (xs : List T) : (v.accepts xs).length = xs.length := by
  induction xs generalizing v with
  | nil => rfl
  | cons x xs ih => simp [accepts, ih]

end FVec

def markPushes (procs : Table os n) : List Bool :=
  (FVec.new n).accepts ((List.finRange n).map fun i => (procs i).visible)

def seeds (procs : Table os n) : List (Fin n) :=
  (List.finRange n).filter fun i => (procs i).visible

def loggedSeed (procs : Table os n) : Visit os n × List (Fin n × Bool) :=
  (seedVisit procs,
    (seeds procs).zip ((FVec.new n).accepts ((seeds procs).map fun i => (i, i))))

def kidPushes (prev : Map (Packed os)) (iVisible : Bool) (lastVis : Fin n) (lastVisPid : UInt32)
    (s : Visit os n) (kid : Fin n) : List (Fin n × Bool) :=
  let k := touchKid prev iVisible lastVisPid (s.procs kid)
  let newLast := if k.visible then kid else lastVis
  if s.enqueued kid then [] else [(kid, (s.queue.push (kid, newLast)).2.isNone)]

def loggedKid (prev : Map (Packed os)) (iVisible : Bool) (lastVis : Fin n) (lastVisPid : UInt32)
    (s : Visit os n × List (Fin n × Bool)) (kid : Fin n) : Visit os n × List (Fin n × Bool) :=
  (visitKid prev iVisible lastVis lastVisPid s.1 kid,
    s.2 ++ kidPushes prev iVisible lastVis lastVisPid s.1 kid)

def loggedKids (prev : Map (Packed os)) (s : Visit os n × List (Fin n × Bool)) (i lastVis : Fin n)
    (kids : List (Fin n)) : Visit os n × List (Fin n × Bool) :=
  kids.foldl (loggedKid prev (s.1.procs i).visible lastVis (s.1.procs lastVis).pid) s

def loggedStep (prev : Map (Packed os)) (children : FNest (Fin n))
    (s : Visit os n × List (Fin n × Bool)) : Option (Visit os n × List (Fin n × Bool)) :=
  s.1.queue.pop.map fun p =>
    loggedKids prev ({ s.1 with queue := p.1 }, s.2) p.2.1 p.2.2 (children.bucket p.2.1)

theorem loggedStep_erases (prev : Map (Packed os)) (children : FNest (Fin n))
    (s : Visit os n × List (Fin n × Bool)) :
    (loggedStep prev children s).map (·.1) = visitStep prev children s.1 := by
  have hkids : ∀ (v : Bool) (l : Fin n) (pid : UInt32) (ks : List (Fin n))
      (s : Visit os n × List (Fin n × Bool)),
      (ks.foldl (loggedKid prev v l pid) s).1 = ks.foldl (visitKid prev v l pid) s.1 := by
    intro v l pid ks
    induction ks with
    | nil => exact fun _ => rfl
    | cons k ks ih => exact fun s => ih _
  rw [loggedStep, Option.map_map, visitStep]
  exact congrArg (Option.map · _) (funext fun p => hkids _ _ _ _ _)

structure Audited (s : Visit os n × List (Fin n × Bool)) : Prop where
  once : (s.2.map (·.1)).Nodup
  marked : ∀ k, k ∈ s.2.map (·.1) ↔ s.1.enqueued k = true
  accepted : ∀ e ∈ s.2, e.2 = true

variable {prev : Map (Packed os)} {t : Table os n} {parent : Fin n → Option (Fin n)}
  {done popped : Finset (Fin n)} {s : Visit os n × List (Fin n × Bool)}

theorem loggedSeed_audited (t : Table os n) : Audited (loggedSeed t) := by
  have hlen : (seeds t).length ≤ n := by
    simpa [seeds] using List.length_filter_le (fun i => (t i).visible) (List.finRange n)
  have hkeys : (loggedSeed t).2.map (·.1) = seeds t :=
    List.map_fst_zip (by rw [FVec.accepts_length, List.length_map])
  refine ⟨?_, fun k => ?_, fun e he => ?_⟩
  · rw [hkeys]
    exact (List.nodup_finRange n).filter _
  · rw [hkeys]
    simp [seeds, loggedSeed, seedVisit]
  · exact FVec.accepts_all (by simpa using hlen) _ (List.of_mem_zip he).2

theorem Audited.kid (ha : Audited s) (h : Progress prev t parent done popped s.1)
    (iVisible : Bool) (l k : Fin n) (pid : UInt32) : Audited (loggedKid prev iVisible l pid s k) := by
  cases hm : s.1.enqueued k with
  | true =>
    have hpush : kidPushes prev iVisible l pid s.1 k = [] := if_pos hm
    have hmarks : (visitKid prev iVisible l pid s.1 k).enqueued = s.1.enqueued := by
      simp [visitKid, hm]
    have hlog : (loggedKid prev iVisible l pid s k).2 = s.2 := by
      rw [loggedKid, hpush, List.append_nil]
    refine ⟨hlog ▸ ha.once, fun j => ?_, hlog ▸ ha.accepted⟩
    rw [hlog, ha.marked j, loggedKid, hmarks]
  | false =>
    have hroom := h.room hm
    obtain ⟨x, hpush⟩ : ∃ x, kidPushes prev iVisible l pid s.1 k =
        [(k, (s.1.queue.push x).2.isNone)] := ⟨_, if_neg (by simp [hm])⟩
    have hmarks : (visitKid prev iVisible l pid s.1 k).enqueued =
        Function.update s.1.enqueued k true := by
      simp [visitKid, hm]
    have hlog : (loggedKid prev iVisible l pid s k).2 = s.2 ++ [(k, true)] := by
      rw [loggedKid, hpush, FVec.push_accepts hroom]
      rfl
    have hout : k ∉ s.2.map (·.1) := by
      rw [ha.marked k, hm]
      exact Bool.false_ne_true
    refine ⟨?_, fun j => ?_, fun e he => ?_⟩
    · rw [hlog, List.map_append, List.map_singleton]
      refine List.nodup_append.mpr ⟨ha.once, List.nodup_singleton k, ?_⟩
      rintro a hk b hb rfl
      obtain rfl := List.mem_singleton.mp hb
      exact hout hk
    · rw [hlog, List.map_append, List.map_singleton, List.mem_append, ha.marked j,
        List.mem_singleton, loggedKid, hmarks]
      by_cases hjk : j = k
      · simp [hjk]
      · simp [hjk]
    · rw [hlog] at he
      rcases List.mem_append.mp he with he | he
      · exact ha.accepted e he
      · rw [List.mem_singleton.mp he]

theorem Audited.kids {i l : Fin n} {iVisible : Bool} {ks : List (Fin n)} (ha : Audited s)
    (h : Progress prev t parent done popped s.1) (ht : Turn prev t parent popped i l iVisible)
    (hnd : ks.Nodup) (hp : ∀ k ∈ ks, parent k = some i) (hk : ∀ k ∈ ks, k ∉ done) :
    Audited (ks.foldl (loggedKid prev iVisible l (t l).pid) s) := by
  induction ks generalizing done s with
  | nil => exact ha
  | cons k ks ih =>
    obtain ⟨hout, hnd⟩ := List.nodup_cons.mp hnd
    have hstep := h.kid ht (hp k (by simp)) (hk k (by simp))
    refine ih (ha.kid h iVisible l k _) hstep hnd (fun j hj => hp j (by simp [hj])) fun j hj => ?_
    rw [Finset.mem_insert, not_or]
    refine ⟨?_, hk j (by simp [hj])⟩
    rintro rfl
    exact hout hj

theorem Audited.step {procs : Table os n} {m : Map (Fin n)}
    {s' : Visit os n × List (Fin n × Bool)}
    (hlink : ∀ k i, parentOf procs m k = some i → (t k).ppid = (t i).pid) (ha : Audited s)
    (h : Frontier prev t (parentOf procs m) done popped s.1)
    (hs : loggedStep prev (buildChildren procs m) s = some s') : Audited s' := by
  obtain ⟨⟨q, i, l⟩, hpop, rfl⟩ := Option.map_eq_some_iff.mp hs
  obtain ⟨hitems, hcap⟩ := FVec.pop_eq_some hpop
  have hq : s.1.queue.items.Perm ((i, l) :: q.items) := by
    rw [hitems]
    exact List.perm_append_singleton _ _
  have hbucket := buildChildren_bucket procs m i
  have hmem : ∀ k, k ∈ (buildChildren procs m).bucket i ↔ parentOf procs m k = some i := by
    intro k
    rw [hbucket]
    simp
  obtain ⟨-, hprogress, hturn, hnew⟩ := h.turn hlink hq hcap hmem
  have hnd : ((buildChildren procs m).bucket i).Nodup := by
    rw [hbucket]
    exact (List.nodup_finRange n).filter _
  have hpopped : Audited ({ s.1 with queue := q }, s.2) := ⟨ha.once, ha.marked, ha.accepted⟩
  unfold loggedKids
  dsimp only
  rw [h.pid l]
  exact hpopped.kids hprogress hturn hnd (fun k hk => (hmem k).mp hk) hnew

theorem visits_audited (procs : List (ProcInfo os)) (hd : Distinct procs.get)
    (prev : Map (Packed os)) :
    ∃ s log, Loop.run (loggedStep prev (buildChildren procs.get (buildPidToIdx procs.get)))
        procs.length (loggedSeed (coalesced procs.get)) = some (s, log) ∧ Audited (s, log) := by
  let Inv : Visit os procs.length × List (Fin procs.length × Bool) → Prop := fun s =>
    Audited s ∧
      ∃ done popped, Frontier prev (coalesced procs.get) (treeParent procs.get) done popped s.1
  have hlink := coalesced_link hd
  have hvisit : ∀ s s', loggedStep prev (buildChildren procs.get (buildPidToIdx procs.get)) s =
      some s' → visitStep prev (buildChildren procs.get (buildPidToIdx procs.get)) s.1 =
        some s'.1 := by
    intro s s' hs
    rw [← loggedStep_erases, hs]
    rfl
  have hinv : ∀ s s', Inv s →
      loggedStep prev (buildChildren procs.get (buildPidToIdx procs.get)) s = some s' →
      Inv s' := by
    rintro s s' ⟨ha, done, popped, h⟩ hs
    obtain ⟨i, -, done', h'⟩ := h.visit hlink (visitStep_any (hvisit s s' hs))
    exact ⟨ha.step hlink h hs, done', insert i popped, h'⟩
  have hvar : ∀ s s', Inv s →
      loggedStep prev (buildChildren procs.get (buildPidToIdx procs.get)) s = some s' →
      remaining s'.1 < remaining s.1 := by
    rintro s s' ⟨-, done, popped, h⟩ hs
    obtain ⟨i, hi, done', h'⟩ := h.visit hlink (visitStep_any (hvisit s s' hs))
    have hs := h.toProgress.remaining
    have hs' := h'.toProgress.remaining
    rw [Finset.card_insert_of_notMem hi] at hs'
    omega
  have hseed := seed_frontier prev (coalesced procs.get) (treeParent procs.get)
  have hbound := hseed.toProgress.remaining
  rw [Finset.card_empty, Nat.zero_add] at hbound
  obtain ⟨⟨s, log⟩, hrun, ⟨ha, -⟩, -⟩ := Loop.run_total _ Inv (fun s => remaining s.1) hinv hvar
    procs.length ⟨loggedSeed_audited _, ∅, ∅, hseed⟩ hbound.le
  exact ⟨s, log, hrun, ha⟩

def walkPushes (children : FNest (Fin n)) (s : Walk n) : List Bool :=
  match s.1.pop with
  | none => []
  | some (stack, idx, depth, parentMask, isLast) =>
    let mask := if 0 < depth ∧ depth ≤ 32 ∧ isLast then parentMask ||| (1 <<< (depth - 1).toUInt32)
      else parentMask
    let kids := children.bucket idx
    let lastI := kids.length - 1
    (s.2.push (⟨depth, mask⟩, idx)).2.isNone :: stack.accepts
      (kids.zipIdx.reverse.map fun (kid, i) => (kid, saturatingSucc depth, mask, i == lastI))

def loggedWalk (children : FNest (Fin n)) (s : Walk n × List Bool) : Option (Walk n × List Bool) :=
  (walkStep children s.1).map fun t => (t, s.2 ++ walkPushes children s.1)

def loggedTreeWalk (children : FNest (Fin n)) (s : Walk n × List Bool) (rootIdx : Fin n) :
    Option (Walk n × List Bool) :=
  let pushed := s.1.1.clear.push (rootIdx, 0, 0, true)
  Loop.run (loggedWalk children) n ((pushed.1, s.1.2), s.2 ++ [pushed.2.isNone])

def loggedLayout (procs : List (ProcInfo os)) : Option (Walk procs.length × List Bool) :=
  let pidToIdx := buildPidToIdx procs.get
  let children := buildChildren procs.get pidToIdx
  let start : Walk procs.length := (FVec.new procs.length, FVec.new procs.length)
  let roots := (List.finRange procs.length).filter fun i =>
    (pidToIdx.get (procs.get i).ppid).isNone
  roots.foldlM (loggedTreeWalk children) (start, [])

theorem loggedWalk_erases (children : FNest (Fin n)) (s : Walk n × List Bool) :
    (loggedWalk children s).map (·.1) = walkStep children s.1 := by
  rw [loggedWalk]
  cases walkStep children s.1 with
  | none => rfl
  | some t => rfl

theorem loggedTreeWalk_erases (children : FNest (Fin n)) (s : Walk n × List Bool) (r : Fin n) :
    (loggedTreeWalk children s r).map (·.1) = treeWalk children s.1 r :=
  Loop.run_map (loggedWalk_erases children) n _

structure Walking (kids : Fin n → List (Fin n)) (s : Walk n × List Bool) : Prop where
  stack : s.1.1.capacity = n
  out : s.1.2.capacity = n
  room : ∃ l, Listing kids (some []) (s.1.1.items.reverse.map (·.1)) l ∧
    s.1.2.items.length + l.length ≤ n
  accepted : ∀ b ∈ s.2, b = true

theorem Walking.step {children : FNest (Fin n)} {kids : Fin n → List (Fin n)}
    (hkids : ∀ i : Fin n, children.bucket i = kids i) {s s' : Walk n × List Bool}
    (h : Walking kids s) (hs : loggedWalk children s = some s') : Walking kids s' := by
  obtain ⟨v, hv, rfl⟩ := Option.map_eq_some_iff.mp hs
  obtain ⟨⟨stack, idx, depth, pm, isLast⟩, hpop, rfl⟩ := Option.map_eq_some_iff.mp hv
  obtain ⟨hitems, hcap⟩ := FVec.pop_eq_some hpop
  obtain ⟨l, hl, hroom⟩ := h.room
  rw [hitems, List.reverse_append, List.reverse_singleton, List.singleton_append,
    List.map_cons] at hl
  cases hl with
  | @cons _ _ _ sub out hsub hrest =>
    rw [List.length_cons, List.length_append] at hroom
    have hsublen := hsub.length_le
    have hrestlen := hrest.length_le
    rw [List.length_map, List.length_reverse] at hrestlen
    have hout : s.1.2.items.length < s.1.2.capacity := by
      rw [h.out]
      omega
    have hfit : ∀ f : Fin n × ℕ → WorkItem n,
        stack.items.length + ((children.bucket idx).zipIdx.reverse.map f).length ≤
          stack.capacity := by
      intro f
      simp only [hkids, List.length_map, List.length_reverse, List.length_zipIdx]
      rw [hcap, h.stack]
      change (kids idx).length ≤ _ at hsublen
      omega
    refine ⟨?_, ?_, ?_, ?_⟩
    · rw [FVec.pushAll_capacity, hcap, h.stack]
    · rw [FVec.push_capacity, h.out]
    · obtain ⟨sub', hsub', hlen⟩ := hsub.relabel (some [])
      obtain ⟨m, hm, hmlen⟩ := hsub'.append hrest
      refine ⟨m, ?_, ?_⟩
      · rw [FVec.pushAll_items (hfit _), List.reverse_append, List.map_append,
          ← List.map_reverse, List.reverse_reverse, List.map_map, hkids]
        convert hm using 2
        exact List.zipIdx_map_fst 0 (kids idx)
      · rw [FVec.push_items hout, List.length_append, List.length_singleton]
        omega
    · intro b hb
      rcases List.mem_append.mp hb with hb | hb
      · exact h.accepted b hb
      · rw [walkPushes, hpop] at hb
        rcases List.mem_cons.mp hb with rfl | hb
        · rw [FVec.push_accepts hout]
          rfl
        · exact FVec.accepts_all (hfit _) b hb

theorem treeWalk_accepts {children : FNest (Fin n)} {kids : Fin n → List (Fin n)}
    (hkids : ∀ i : Fin n, children.bucket i = kids i) {s t : Walk n} {log : List Bool} {r : Fin n}
    {sub : List (List Bool × Fin n)} (hsub : Listing kids (some []) (kids r) sub)
    (hstack : s.1.capacity = n) (hcap : s.2.capacity = n)
    (hroom : s.2.items.length + (sub.length + 1) ≤ n) (ht : treeWalk children s r = some t)
    (hlog : ∀ b ∈ log, b = true) :
    ∃ log', loggedTreeWalk children (s, log) r = some (t, log') ∧ ∀ b ∈ log', b = true := by
  have hclear : s.1.clear.items.length < s.1.clear.capacity := by
    rw [FVec.clear_items, FVec.clear_capacity, hstack, List.length_nil]
    omega
  have hstart : Walking kids (((s.1.clear.push (r, 0, 0, true)).1, s.2),
      log ++ [(s.1.clear.push (r, 0, 0, true)).2.isNone]) := by
    refine ⟨by rw [FVec.push_capacity, FVec.clear_capacity, hstack], hcap, ?_, ?_⟩
    · obtain ⟨sub', hsub', hlen⟩ := hsub.relabel (some (levelFlags (some []) true))
      have hone : Listing kids (some []) [r] ((levelFlags (some []) true, r) :: (sub' ++ [])) :=
        .cons hsub' (.nil _)
      have hitems : (s.1.clear.push (r, 0, 0, true)).1.items.reverse.map (·.1) = [r] := by
        rw [FVec.push_items hclear]
        rfl
      exact ⟨_, hitems ▸ hone, by simpa [hlen] using hroom⟩
    · intro b hb
      rcases List.mem_append.mp hb with hb | hb
      · exact hlog b hb
      · rw [List.mem_singleton.mp hb, FVec.push_accepts hclear]
        rfl
  have herase := loggedTreeWalk_erases children (s, log) r
  rw [ht] at herase
  obtain ⟨⟨t', log'⟩, hrun, rfl⟩ := Option.map_eq_some_iff.mp herase
  refine ⟨log', hrun, ?_⟩
  have hend := Loop.iterate_invariant (loggedWalk children) (Walking kids)
    (fun _ _ h hs => h.step hkids hs) n hstart
  rw [(Loop.run_eq_some _ hrun).1] at hend
  exact hend.accepted

theorem roots_accept {children : FNest (Fin n)} {kids : Fin n → List (Fin n)}
    (hkids : ∀ i : Fin n, children.bucket i = kids i) {roots : List (Fin n)}
    {l : List (List Bool × Fin n)} (h : Listing kids none roots l) {s : Walk n} {log : List Bool}
    (hstack : s.1.capacity = n) (hcap : s.2.capacity = n)
    (hroom : s.2.items.length + l.length ≤ n) (hlog : ∀ b ∈ log, b = true) :
    ∃ t log', roots.foldlM (loggedTreeWalk children) (s, log) = some (t, log') ∧
      roots.foldlM (treeWalk children) s = some t ∧ ∀ b ∈ log', b = true := by
  generalize habove : (none : Option (List Bool)) = above at h
  induction h generalizing s log with
  | nil => exact ⟨s, log, rfl, rfl, hlog⟩
  | @cons above r rest sub out hsub _ _ ihrest =>
    subst habove
    rw [List.length_cons, List.length_append] at hroom
    obtain ⟨t, rows, ht, htstack, htcap, hrows, hf⟩ :=
      treeWalk_listing hkids hsub hstack hcap (by omega)
    obtain ⟨log', hlogged, hlog'⟩ :=
      treeWalk_accepts hkids hsub hstack hcap (by omega) ht hlog
    have hlen := hf.length_eq
    rw [List.length_cons] at hlen
    obtain ⟨u, log'', hu, hu', hlog''⟩ := ihrest htstack htcap
      (by rw [hrows, List.length_append]; omega) hlog' rfl
    refine ⟨u, log'', ?_, ?_, hlog''⟩
    · rw [List.foldlM_cons, hlogged]
      exact hu
    · rw [List.foldlM_cons, ht]
      exact hu'

theorem loggedLayout_accepts (procs : List (ProcInfo os)) :
    ∃ s log, loggedLayout procs = some (s, log) ∧ treeLayout procs = some s.2.items ∧
      ∀ b ∈ log, b = true := by
  have hroots : ∀ i ∈ treeRoots procs, treeParent procs.get i = none := by
    intro i hi
    simpa [treeRoots] using hi
  obtain ⟨l, hl⟩ := listing_exists (mem_treeKids procs) hroots
  have hnd := hl.nodup (mem_treeKids procs) (fun i => (List.nodup_finRange _).filter _)
    (fun i hi => ⟨i, rfl, hroots i hi⟩) ((List.nodup_finRange _).filter _)
  have hlen : l.length ≤ procs.length := by
    have := hnd.length_le_card
    simpa using this
  obtain ⟨s, log, hlogged, hrun, hlog⟩ := roots_accept
    (fun i => buildChildren_bucket procs.get (buildPidToIdx procs.get) i) hl
    (s := (FVec.new procs.length, FVec.new procs.length)) rfl rfl (by simpa using hlen)
    (List.forall_mem_nil _)
  refine ⟨s, log, hlogged, ?_, hlog⟩
  have hmap : (some s).map (fun s : Walk procs.length => s.2.items) = some s.2.items := rfl
  rw [← hmap, ← hrun]
  rfl

structure Bounded (prev : Map (Packed os)) (procs : List (ProcInfo os))
    (s : Visit os procs.length) (queued : List (Fin procs.length × Bool))
    (walked : Walk procs.length) (pushes : List Bool) : Prop where
  ends : Loop.run (visitStep prev (buildChildren procs.get (buildPidToIdx procs.get)))
    procs.length (seedVisit (coalesced procs.get)) = some s
  logged : Loop.run (loggedStep prev (buildChildren procs.get (buildPidToIdx procs.get)))
    procs.length (loggedSeed (coalesced procs.get)) = some (s, queued)
  once : (queued.map (·.1)).Nodup
  queue : ∀ e ∈ queued, e.2 = true
  marks : ∀ b ∈ markPushes (coalesced procs.get), b = true
  layout : treeLayout procs = some walked.2.items
  walks : loggedLayout procs = some (walked, pushes)
  stack : ∀ b ∈ pushes, b = true

theorem traversals_bounded (procs : List (ProcInfo os)) (hd : Distinct procs.get)
    (prev : Map (Packed os)) :
    ∃ s queued walked pushes, Bounded prev procs s queued walked pushes := by
  obtain ⟨s, queued, hrun, ha⟩ := visits_audited procs hd prev
  obtain ⟨walked, pushes, hwalks, hlayout, hpushes⟩ := loggedLayout_accepts procs
  have herase := Loop.run_map (loggedStep_erases prev
    (buildChildren procs.get (buildPidToIdx procs.get))) procs.length
    (loggedSeed (coalesced procs.get))
  rw [hrun] at herase
  exact ⟨s, queued, walked, pushes, herase.symm, hrun, ha.once, ha.accepted,
    FVec.accepts_all (by simp), hlayout, hwalks, hpushes⟩

theorem traversals_bounded_loop :
    ∃ s queued walked pushes, Bounded .empty loopRows s queued walked pushes :=
  traversals_bounded loopRows (by decide) .empty

end Ltop
