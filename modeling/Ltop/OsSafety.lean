import Mathlib
import Ltop.OsLookup

namespace Ltop.Os

def Sits (b : OsBinary) (n p q : ℕ) : Prop :=
  ∃ seen offs refs, Items b.blob n seen p q offs refs ∧ seen + offs.length ≤ b.count

structure Direct (b : OsBinary) (p q : ℕ) (tag : Tag) : Prop where
  read : readTag b.blob p = .some tag
  ty : tag.ty ≠ TYPE_OBJECT
  body : ∃ step, scalarStep tag = .some step ∧ p + step ≤ b.blob.length ∧
    Sits b tag.arity (p + step) q

variable {b : OsBinary} {n p q i : ℕ} {offs refs : List ℕ} {o : ℕ}

theorem Sits.le (h : Sits b n p q) : p ≤ q := by
  obtain ⟨seen, offs, refs, hitems, -⟩ := h
  exact hitems.le

theorem Sits.inside (h : Sits b (n + 1) p q) : q ≤ b.blob.length := by
  obtain ⟨seen, offs, refs, hitems, -⟩ := h
  exact hitems.inside (Nat.succ_pos n)

theorem Sits.head (h : Sits b (n + 1) p q) : ∃ m, Sits b 1 p m ∧ Sits b n m q := by
  obtain ⟨seen, offs, refs, hitems, hle⟩ := h
  rw [Nat.add_comm] at hitems
  obtain ⟨m, o₁, o₂, r₁, r₂, h₁, h₂, rfl, rfl⟩ := hitems.split
  rw [List.length_append] at hle
  exact ⟨m, ⟨seen, o₁, r₁, h₁, by omega⟩, ⟨seen + o₁.length, o₂, r₂, h₂, by omega⟩⟩

theorem Items.nil_eq {blob : List UInt8} {seen : ℕ} (h : Items blob 0 seen p q offs refs) :
    p = q ∧ offs = [] ∧ refs = [] := by
  cases h
  exact ⟨rfl, rfl, rfl⟩

theorem Sits.cases (h : Sits b 1 p q) :
    (∃ tag, readTag b.blob p = .some tag ∧ tag.ty = TYPE_OBJECT ∧ tag.operand < b.count ∧
      q = p + 4) ∨ ∃ tag, Direct b p q tag := by
  obtain ⟨seen, offs, refs, hitems, hle⟩ := h
  cases hitems with
  | ref htag hobj hlt h =>
    obtain ⟨rfl, -, -⟩ := h.nil_eq
    exact .inl ⟨_, htag, hobj, by omega, rfl⟩
  | item htag hstep hin hk h =>
    obtain ⟨rfl, rfl, -⟩ := h.nil_eq
    have hobj := (scalarStep_some (readTag_some htag).2.1 hstep).2.2
    simp only [List.append_nil, List.length_cons] at hle
    exact .inr ⟨_, htag, hobj, _, hstep, hin, _, _, _, hk, by omega⟩

theorem Items.object {blob : List UInt8} {seen : ℕ} (h : Items blob n seen p q offs refs)
    (ho : offs[i]? = some o) :
    ∃ m kids kidRefs tag, Items blob 1 (seen + i) o m kids kidRefs ∧
      seen + i + kids.length ≤ seen + offs.length ∧ readTag blob o = .some tag ∧
      tag.ty ≠ TYPE_OBJECT := by
  induction h generalizing i with
  | nil => simp at ho
  | ref _ _ _ _ ih => exact ih ho
  | @item n seen p m q step kids offs kidRefs refs tag htag hstep hin hk h ihk ih =>
    simp only [List.length_cons, List.length_append]
    cases i with
    | zero =>
      obtain rfl : p = o := by simpa using ho
      have hone : Items blob 1 seen p m (p :: (kids ++ [])) (kidRefs ++ []) :=
        .item htag hstep hin hk .nil
      refine ⟨m, _, _, tag, hone, ?_, htag, (scalarStep_some (readTag_some htag).2.1 hstep).2.2⟩
      simp only [List.append_nil, List.length_cons]
      omega
    | succ i =>
      rw [List.getElem?_cons_succ] at ho
      rcases Nat.lt_or_ge i kids.length with hi | hi
      · rw [List.getElem?_append_left hi] at ho
        obtain ⟨m', ks, kr, t, hitem, hle, ht⟩ := ihk ho
        rw [show seen + 1 + i = seen + (i + 1) by omega] at hitem hle
        exact ⟨m', ks, kr, t, hitem, by omega, ht⟩
      · rw [List.getElem?_append_right hi] at ho
        obtain ⟨m', ks, kr, t, hitem, hle, ht⟩ := ih ho
        rw [show seen + 1 + kids.length + (i - kids.length) = seen + (i + 1) by omega] at hitem hle
        exact ⟨m', ks, kr, t, hitem, by omega, ht⟩

theorem Accepted.object (h : Accepted b q offs refs) (ho : offs[i]? = some o) :
    ∃ m tag, Direct b o m tag := by
  obtain ⟨m, kids, kidRefs, tag, hitem, hle, htag, hty⟩ := h.items.object ho
  have hsits : Sits b 1 o m := ⟨_, kids, kidRefs, hitem, by rw [h.count]; omega⟩
  rcases hsits.cases with ⟨t, ht, hobj, -⟩ | ⟨t, hd⟩
  · cases htag.symm.trans ht
    exact absurd hobj hty
  · exact ⟨m, t, hd⟩

theorem Accepted.resolve_ref (h : Accepted b q offs refs) {tag : Tag}
    (htag : readTag b.blob p = .some tag) (hobj : tag.ty = TYPE_OBJECT)
    (hlt : tag.operand < b.count) :
    ∃ o, offs[tag.operand]? = some o ∧ b.resolve p = .some o := by
  rw [h.count] at hlt
  refine ⟨offs[tag.operand], List.getElem?_eq_getElem hlt, ?_⟩
  rw [OsBinary.resolve, htag, Outcome.some_bind, if_pos hobj, h.nthObject,
    List.getElem?_eq_getElem hlt]
  rfl

theorem resolve_direct {tag : Tag} (htag : readTag b.blob p = .some tag)
    (hobj : tag.ty ≠ TYPE_OBJECT) : b.resolve p = .some p := by
  rw [OsBinary.resolve, htag, Outcome.some_bind, if_neg hobj]
  rfl

theorem Accepted.resolve (h : Accepted b q offs refs) {m : ℕ} (hp : Sits b 1 p m) :
    ∃ d m' tag, b.resolve p = .some d ∧ Direct b d m' tag := by
  rcases hp.cases with ⟨tag, htag, hobj, hlt, -⟩ | ⟨tag, hd⟩
  · obtain ⟨o, ho, hres⟩ := h.resolve_ref htag hobj hlt
    obtain ⟨m', t, hd⟩ := h.object ho
    exact ⟨o, m', t, hres, hd⟩
  · exact ⟨p, m, tag, resolve_direct hd.read hd.ty, hd⟩

theorem Accepted.itemLen (h : Accepted b q offs refs) {m : ℕ} (hp : Sits b 1 p m) :
    b.itemLen p = .some (m - p) ∧ addU32 p (m - p) = .some m := by
  have hsmall := h.small
  have hend := hp.inside
  have hle := hp.le
  have hadd : addU32 p (m - p) = .some m := by
    rw [addU32_some (by omega), Nat.add_sub_cancel' hle]
  refine ⟨?_, hadd⟩
  rcases hp.cases with ⟨tag, htag, hobj, -, rfl⟩ | ⟨tag, hd⟩
  · rw [OsBinary.itemLen, htag, Outcome.some_bind, if_pos hobj, Nat.add_sub_cancel_left]
    rfl
  · obtain ⟨seen, o, r, hitems, -⟩ := hp
    obtain ⟨ck, -, -, j, hj, hrun⟩ := hitems.walk (r := 0) hsmall
      (tracked_none []) (fun hs => by cases hs) (Nat.zero_le _) (by simp)
    obtain ⟨fuel, hfuel⟩ : ∃ fuel, b.blob.length + 1 = fuel + 1 + j :=
      ⟨b.blob.length - j, by omega⟩
    have hwalk : walk b.blob p none = .some (m, o.length, ck) := by
      have := hrun (fuel + 1)
      simp only [List.length_nil, Nat.zero_add, Nat.add_zero] at this
      rw [walk, hfuel, this, walkLoop, if_neg (by omega)]
    rw [OsBinary.itemLen, hd.read, Outcome.some_bind, if_neg hd.ty, hwalk, Outcome.some_bind]
    exact if_pos hle

theorem slice_safe {α : Type} {xs : List α} {lo hi : ℕ} (h : lo ≤ hi) (hhi : hi ≤ xs.length) :
    (slice xs lo hi).Safe := by
  rw [slice, if_pos ⟨h, hhi⟩]
  exact Outcome.safe_some _

theorem Accepted.symbolBytes_safe (h : Accepted b q offs refs) {m : ℕ} (hp : Sits b 1 p m) :
    (b.symbolBytes p).Safe := by
  obtain ⟨d, m', tag, hres, hd⟩ := h.resolve hp
  rw [OsBinary.symbolBytes, hres, Outcome.some_bind, hd.read, Outcome.some_bind]
  dsimp only
  generalize (if tag.operand > 0 then tag.operand - 1 else 0) = trimmed
  split
  · exact Outcome.safe_none
  · split
    · exact Outcome.safe_none
    · exact slice_safe (Nat.le_add_right _ _) (by omega)

theorem Accepted.asString_safe (h : Accepted b q offs refs) {m : ℕ} (hp : Sits b 1 p m) :
    (b.asString p).Safe := by
  obtain ⟨d, m', tag, hres, hd⟩ := h.resolve hp
  rw [OsBinary.asString, hres, Outcome.some_bind, hd.read, Outcome.some_bind]
  dsimp only
  split
  · exact Outcome.safe_none
  · split
    · exact Outcome.safe_none
    · exact slice_safe (Nat.le_add_right _ _) (by omega)

theorem Accepted.asNumber_safe (h : Accepted b q offs refs) {m : ℕ} (hp : Sits b 1 p m) :
    (b.asNumber p).Safe := by
  obtain ⟨d, m', tag, hres, hd⟩ := h.resolve hp
  rw [OsBinary.asNumber, hres, Outcome.some_bind, hd.read, Outcome.some_bind]
  dsimp only
  split
  · exact Outcome.safe_none
  · split
    · exact Outcome.safe_none
    · refine (slice_safe (by omega) (by omega)).bind fun lo _ => ?_
      exact (slice_safe (by omega) (by omega)).bind fun hi _ => Outcome.safe_some _

theorem Accepted.asBool_safe (h : Accepted b q offs refs) {m : ℕ} (hp : Sits b 1 p m) :
    (b.asBool p).Safe := by
  obtain ⟨d, m', tag, hres, hd⟩ := h.resolve hp
  rw [OsBinary.asBool, hres, Outcome.some_bind, hd.read, Outcome.some_bind]
  split
  · exact Outcome.safe_none
  · exact Outcome.safe_some _

theorem Accepted.findLoop (h : Accepted b q offs refs) (key : List UInt8) {m : ℕ}
    (hp : Sits b (n * 2) p m) :
    (b.findLoop key n p).Safe ∧ ∀ v, b.findLoop key n p = .some v → ∃ m', Sits b 1 v m' := by
  induction n generalizing p with
  | zero => exact ⟨Outcome.safe_none, fun v hv => by cases hv⟩
  | succ n ih =>
    rw [Nat.add_mul, Nat.one_mul] at hp
    obtain ⟨m₁, hkey, hp⟩ := Sits.head (n := n * 2 + 1) hp
    obtain ⟨m₂, hval, hrest⟩ := hp.head
    obtain ⟨hklen, hkadd⟩ := h.itemLen hkey
    obtain ⟨hvlen, hvadd⟩ := h.itemLen hval
    obtain ⟨hsafe, hfound⟩ := ih hrest
    rw [OsBinary.findLoop, hklen, Outcome.some_bind, hkadd, Outcome.some_bind]
    dsimp only
    rw [hvlen, Outcome.some_bind, hvadd, Outcome.some_bind]
    have hatt := (h.symbolBytes_safe hkey).attempt
    cases hs : (b.symbolBytes p).attempt with
    | fault f => exact absurd hs (hatt f)
    | none => exact ⟨Outcome.safe_none, fun v hv => by cases hv⟩
    | some s =>
      rw [Outcome.some_bind]
      split
      · exact ⟨Outcome.safe_some _, fun v hv => by cases hv; exact ⟨m₂, hval⟩⟩
      · exact ⟨hsafe, hfound⟩

theorem Accepted.eachLoop (h : Accepted b q offs refs) {m : ℕ} (hp : Sits b n p m) :
    ∃ os, b.eachLoop n p = .some os ∧ ∀ o ∈ os, ∃ m', Sits b 1 o m' := by
  induction n generalizing p with
  | zero => exact ⟨[], rfl, fun _ ho => absurd ho List.not_mem_nil⟩
  | succ n ih =>
    obtain ⟨m₁, hitem, hrest⟩ := hp.head
    obtain ⟨hlen, hadd⟩ := h.itemLen hitem
    obtain ⟨os, hrun, hos⟩ := ih hrest
    refine ⟨p :: os, ?_, List.forall_mem_cons.mpr ⟨⟨m₁, hitem⟩, hos⟩⟩
    rw [OsBinary.eachLoop, hlen, Outcome.some_bind, hadd, Outcome.some_bind, hrun]
    rfl

theorem Direct.container {tag : Tag} (hd : Direct b p q tag) (hc : tag.isContainer = true) :
    Sits b (tag.operand * if tag.ty = TYPE_DICT then 2 else 1) (p + 4) q := by
  obtain ⟨step, hstep, -, hsits⟩ := hd.body
  rw [scalarStep, if_pos (.inl hc)] at hstep
  cases hstep
  rwa [Tag.arity, if_pos hc] at hsits

theorem Direct.add4 {tag : Tag} (hd : Direct b p q tag) (hsmall : b.blob.length < 2 ^ 32 - 17) :
    addU32 p 4 = .some (p + 4) := by
  have := (readTag_some hd.read).1
  exact addU32_some (by omega)

theorem Accepted.findDict (h : Accepted b q offs refs) (key : List UInt8) {m : ℕ}
    (hp : Sits b 1 p m) :
    (b.findDict p key).Safe ∧ ∀ v, b.findDict p key = .some v → ∃ m', Sits b 1 v m' := by
  obtain ⟨d, m', tag, hres, hd⟩ := h.resolve hp
  rw [OsBinary.findDict, hres, Outcome.some_bind, hd.read, Outcome.some_bind]
  split
  · exact ⟨Outcome.safe_none, fun v hv => by cases hv⟩
  · rename_i hty
    have hdict : tag.ty = TYPE_DICT := not_not.mp hty
    have hsits := hd.container (by simp [Tag.isContainer, hdict])
    rw [if_pos hdict] at hsits
    rw [hd.add4 h.small, Outcome.some_bind]
    exact h.findLoop key hsits

theorem Accepted.forEachArray (h : Accepted b q offs refs) {m : ℕ} (hp : Sits b 1 p m) :
    (b.forEachArray p).Safe ∧
      ∀ os, b.forEachArray p = .some os → ∀ o ∈ os, ∃ m', Sits b 1 o m' := by
  obtain ⟨d, m', tag, hres, hd⟩ := h.resolve hp
  rw [OsBinary.forEachArray, hres, Outcome.some_bind, hd.read, Outcome.some_bind]
  split
  · exact ⟨Outcome.safe_none, fun v hv => by cases hv⟩
  · rename_i hty
    have hkind : tag.ty = TYPE_ARRAY ∨ tag.ty = TYPE_SET := by tauto
    have hnot : tag.ty ≠ TYPE_DICT := by rcases hkind with hk | hk <;> rw [hk] <;> decide
    have hsits := hd.container (by simp only [Tag.isContainer, decide_eq_true_eq]; tauto)
    rw [if_neg hnot, Nat.mul_one] at hsits
    obtain ⟨os, hrun, hos⟩ := h.eachLoop hsits
    rw [hd.add4 h.small, Outcome.some_bind, hrun]
    exact ⟨Outcome.safe_some _, fun os' hos' => by cases hos'; exact hos⟩

inductive Reachable (b : OsBinary) : ℕ → Prop where
  | root {o : ℕ} : b.root = some o → Reachable b o
  | find {o v : ℕ} (key : List UInt8) : Reachable b o → b.findDict o key = .some v → Reachable b v
  | each {o v : ℕ} {os : List ℕ} : Reachable b o → b.forEachArray o = .some os → v ∈ os →
      Reachable b v

theorem Accepted.reachable (h : Accepted b q offs refs) (hp : Reachable b p) :
    ∃ m, Sits b 1 p m := by
  induction hp with
  | root ho =>
    unfold OsBinary.root at ho
    split at ho
    · cases ho
    · cases ho
      exact ⟨q, 0, offs, refs, h.items, by rw [h.count]; omega⟩
  | find key _ hv ih =>
    obtain ⟨m, hm⟩ := ih
    exact (h.findDict key hm).2 _ hv
  | each _ hos hv ih =>
    obtain ⟨m, hm⟩ := ih
    exact (h.forEachArray hm).2 _ hos _ hv

structure Harmless (b : OsBinary) (o : ℕ) : Prop where
  findDict : ∀ key, (b.findDict o key).Safe
  forEachArray : (b.forEachArray o).Safe
  asNumber : (b.asNumber o).Safe
  asString : (b.asString o).Safe
  asSymbol : (b.asSymbol o).Safe
  asBool : (b.asBool o).Safe

theorem Accepted.harmless (h : Accepted b q offs refs) {o : ℕ} (ho : Reachable b o) :
    Harmless b o := by
  obtain ⟨m, hm⟩ := h.reachable ho
  exact ⟨fun key => (h.findDict key hm).1, (h.forEachArray hm).1, h.asNumber_safe hm,
    h.asString_safe hm, h.symbolBytes_safe hm, h.asBool_safe hm⟩

theorem parse_hostile (blob : List UInt8) (buf : List ℕ) :
    (parse blob buf).Safe ∧
      ((∃ b, parse blob buf = .some b) ↔
        Header blob buf ∧ ∃ q offs refs, Items blob 1 0 4 q offs refs) ∧
      ∀ b, parse blob buf = .some b →
        (∀ o, Reachable b o → Harmless b o) ∧
        ∃ q offs refs, Items blob 1 0 4 q offs refs ∧ ∀ r ∈ refs, ∃ o, b.nthObject r = .some o := by
  rcases parse_spec blob buf with hnone | ⟨q, offs, refs, ckpts, stride, hhead, hsome, hacc⟩
  · rw [hnone]
    refine ⟨Outcome.safe_none, ⟨fun ⟨b, hb⟩ => (by cases hb), ?_⟩, fun b hb => (by cases hb)⟩
    rintro ⟨hhead, q, offs, refs, hitems⟩
    obtain ⟨ckpts, stride, hparse, -⟩ := parse_items hhead hitems
    cases hnone.symm.trans hparse
  · rw [hsome]
    refine ⟨Outcome.safe_some _, ⟨fun _ => ⟨hhead, q, offs, refs, hacc.items⟩, fun _ => ⟨_, rfl⟩⟩, ?_⟩
    rintro b ⟨⟩
    refine ⟨fun o ho => hacc.harmless ho, q, offs, refs, hacc.items, fun r hr => ?_⟩
    have hlt := hacc.items.refs_lt r hr
    rw [Nat.zero_add] at hlt
    exact ⟨offs[r], by rw [hacc.nthObject, List.getElem?_eq_getElem hlt]; rfl⟩

end Ltop.Os
