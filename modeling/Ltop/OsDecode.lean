import Mathlib
import Ltop.OsTree
import Ltop.OsSafety

namespace Ltop.Os

def Holds (blob : List UInt8) (p : ℕ) (bs : List UInt8) : Prop :=
  ∃ pre post, blob = pre ++ bs ++ post ∧ pre.length = p

variable {blob bs cs : List UInt8} {p q seen out : ℕ} {ns : List Node} {n : Node}

theorem Holds.le (h : Holds blob p bs) : p + bs.length ≤ blob.length := by
  obtain ⟨pre, post, rfl, rfl⟩ := h
  simp only [List.length_append]
  omega

theorem Holds.left (h : Holds blob p (bs ++ cs)) : Holds blob p bs := by
  obtain ⟨pre, post, rfl, rfl⟩ := h
  exact ⟨pre, cs ++ post, by simp, rfl⟩

theorem Holds.right (h : Holds blob p (bs ++ cs)) : Holds blob (p + bs.length) cs := by
  obtain ⟨pre, post, rfl, rfl⟩ := h
  exact ⟨pre ++ bs, post, by simp, by simp⟩

theorem Holds.slice (h : Holds blob p bs) : slice blob p (p + bs.length) = .some bs := by
  have hle := h.le
  obtain ⟨pre, post, rfl, rfl⟩ := h
  rw [Os.slice, if_pos ⟨Nat.le_add_right _ _, hle⟩, Nat.add_sub_cancel_left, List.append_assoc,
    List.drop_left, List.take_left]

theorem toLeBytes_length (n x : ℕ) : (toLeBytes n x).length = n := by
  induction n generalizing x with
  | zero => rfl
  | succ n ih => rw [toLeBytes, List.length_cons, ih]

theorem toLeBytes_add (n m x : ℕ) :
    toLeBytes (n + m) x = toLeBytes n x ++ toLeBytes m (x / 256 ^ n) := by
  induction n generalizing x with
  | zero => simp [toLeBytes]
  | succ n ih =>
    rw [Nat.add_right_comm, toLeBytes, ih, toLeBytes, Nat.div_div_eq_div_mul, Nat.pow_succ,
      Nat.mul_comm 256]
    rfl

theorem fromLeBytes_toLeBytes (n x : ℕ) : fromLeBytes (toLeBytes n x) = x % 256 ^ n := by
  induction n generalizing x with
  | zero => rw [Nat.pow_zero, Nat.mod_one]; rfl
  | succ n ih =>
    have hhead : x.toUInt8.toNat = x % 256 := rfl
    have hcons : fromLeBytes (toLeBytes (n + 1) x) =
        x.toUInt8.toNat + 256 * fromLeBytes (toLeBytes n (x / 256)) := rfl
    rw [hcons, hhead, ih, Nat.pow_succ, Nat.mul_comm _ 256, Nat.mod_mul]

def rawTag (ty operand : ℕ) (eoc : Bool) : ℕ :=
  (ty <<< 24) ||| (operand &&& 0x00ffffff) ||| if eoc then 0x80000000 else 0

theorem rawTag_eq {ty operand : ℕ} (hty : ty < 2 ^ 7) (hop : operand < 2 ^ 24) (eoc : Bool) :
    rawTag ty operand eoc = eoc.toNat * 2 ^ 31 + (ty * 2 ^ 24 + operand) := by
  have hmask : operand &&& 0x00ffffff = operand := by
    rw [show 0x00ffffff = 2 ^ 24 - 1 by norm_num, Nat.and_two_pow_sub_one_eq_mod,
      Nat.mod_eq_of_lt hop]
  have hlow : (ty <<< 24) ||| operand = ty * 2 ^ 24 + operand := by
    rw [← Nat.shiftLeft_add_eq_or_of_lt hop, Nat.shiftLeft_eq]
  rw [rawTag, hmask, hlow]
  cases eoc with
  | false => simp
  | true =>
    have hsmall : ty * 2 ^ 24 + operand < 2 ^ 31 := by omega
    rw [if_pos rfl, Nat.lor_comm, show 0x80000000 = 1 <<< 31 by decide,
      ← Nat.shiftLeft_add_eq_or_of_lt hsmall, Nat.shiftLeft_eq]
    rfl

theorem readTag_emit {ty operand : ℕ} {eoc : Bool} (hty : ty < 2 ^ 7) (hop : operand < 2 ^ 24)
    (h : Holds blob p (emitTag ty operand eoc)) : readTag blob p = .some ⟨ty, operand⟩ := by
  have hle := h.le
  have hslice := h.slice
  have hlen : (emitTag ty operand eoc).length = 4 := toLeBytes_length _ _
  rw [hlen] at hle hslice
  have hraw : fromLeBytes (emitTag ty operand eoc) = eoc.toNat * 2 ^ 31 + (ty * 2 ^ 24 + operand) := by
    rw [emitTag, fromLeBytes_toLeBytes]
    change rawTag ty operand eoc % _ = _
    rw [rawTag_eq hty hop, Nat.mod_eq_of_lt]
    cases eoc <;> simp only [Bool.toNat_true, Bool.toNat_false] <;> omega
  rw [readTag, if_neg (by omega), hslice, Outcome.some_bind, hraw]
  have hshift : (eoc.toNat * 2 ^ 31 + (ty * 2 ^ 24 + operand)) >>> 24 &&& 0x7f = ty := by
    rw [show 0x7f = 2 ^ 7 - 1 by norm_num, Nat.and_two_pow_sub_one_eq_mod, Nat.shiftRight_eq_div_pow]
    omega
  have hmask : (eoc.toNat * 2 ^ 31 + (ty * 2 ^ 24 + operand)) &&& 0x00ffffff = operand := by
    rw [show 0x00ffffff = 2 ^ 24 - 1 by norm_num, Nat.and_two_pow_sub_one_eq_mod]
    omega
  dsimp only
  rw [hshift, hmask]
  rfl

namespace Node

def ty : Node → ℕ
  | dict .. => TYPE_DICT
  | array .. => TYPE_ARRAY
  | set .. => TYPE_SET
  | number .. => TYPE_NUMBER
  | symbol .. => TYPE_SYMBOL
  | string .. => TYPE_STRING
  | data .. => TYPE_DATA
  | boolean .. => TYPE_BOOLEAN
  | object .. => TYPE_OBJECT

def eoc : Node → Bool
  | dict e _ | array e _ | set e _ | number e _ _ | symbol e _ | string e _ | data e _
  | boolean e _ | object e _ => e

def payload : Node → List UInt8
  | number _ _ value => toLeBytes 8 value.toNat
  | symbol _ name => pad (name ++ [0])
  | string _ text => pad text
  | data _ payload => pad payload
  | _ => []

def head (n : Node) : List UInt8 := emitTag n.ty n.operand n.eoc ++ n.payload

theorem encodePairs_eq (pairs : List (Node × Node)) :
    encodePairs pairs = encodeAll (pairs.flatMap fun p => [p.1, p.2]) := by
  induction pairs with
  | nil => rfl
  | cons p rest ih =>
    obtain ⟨k, v⟩ := p
    rw [encodePairs, ih, List.append_assoc]
    rfl

theorem encode_eq (n : Node) : encode n = n.head ++ encodeAll n.children := by
  cases n with
  | dict e pairs => simp [encode, head, ty, operand, eoc, payload, children, encodePairs_eq]
  | array e items => simp [encode, head, ty, operand, eoc, payload, children]
  | set e items => simp [encode, head, ty, operand, eoc, payload, children]
  | _ => simp [encode, head, ty, operand, eoc, payload, children, encodeAll]

theorem objectsPairs_eq (pairs : List (Node × Node)) :
    objectsPairs pairs = objectsAll (pairs.flatMap fun p => [p.1, p.2]) := by
  induction pairs with
  | nil => rfl
  | cons p rest ih =>
    obtain ⟨k, v⟩ := p
    rw [objectsPairs, ih, List.append_assoc]
    rfl

theorem objects_eq (h : n.isObject = false) : objects n = n :: objectsAll n.children := by
  cases n with
  | dict e pairs => simp [objects, children, objectsPairs_eq]
  | object e i => cases h
  | _ => simp [objects, children, objectsAll]

theorem ty_lt (n : Node) : n.ty < 2 ^ 7 := by
  cases n <;> norm_num [ty, TYPE_DICT, TYPE_ARRAY, TYPE_SET, TYPE_NUMBER, TYPE_SYMBOL, TYPE_STRING,
    TYPE_DATA, TYPE_BOOLEAN, TYPE_OBJECT]

def tag (n : Node) : Tag := ⟨n.ty, n.operand⟩

theorem pad_length (bs : List UInt8) : (pad bs).length = (bs.length + 3) / 4 * 4 := by
  rw [pad, List.length_append, List.length_replicate]
  omega

theorem step_eq (h : n.isObject = false) (hop : n.operand < 2 ^ 24) :
    scalarStep n.tag = .some n.head.length := by
  have hlen : (emitTag n.ty n.operand n.eoc).length = 4 := toLeBytes_length _ _
  rw [head, List.length_append, hlen]
  cases n with
  | object e i => cases h
  | symbol e name =>
    have hpad : (pad (name ++ [0])).length = (name.length + 1 + 3) / 4 * 4 := by
      rw [pad_length, List.length_append]
      rfl
    rw [payload, hpad, Nat.add_comm 4]
    exact scalarStep_bytes hop (.inl rfl)
  | string e text =>
    rw [payload, pad_length, Nat.add_comm 4]
    exact scalarStep_bytes hop (.inr (.inl rfl))
  | data e bytes =>
    rw [payload, pad_length, Nat.add_comm 4]
    exact scalarStep_bytes hop (.inr (.inr rfl))
  | number e width value =>
    rw [payload, toLeBytes_length]
    rfl
  | _ => rfl

theorem arity_eq (h : n.isObject = false) : n.tag.arity = n.children.length := by
  cases n with
  | dict e pairs =>
    change pairs.length * 2 = (pairs.flatMap fun p => [p.1, p.2]).length
    rw [List.length_flatMap]
    simp
  | object e i => cases h
  | array e items => exact Nat.mul_one _
  | set e items => exact Nat.mul_one _
  | _ => rfl

end Node

inductive Emits (blob : List UInt8) : List Node → ℕ → ℕ → ℕ → List (ℕ × Node) → Prop where
  | nil {seen p : ℕ} : Emits blob [] seen p p []
  | ref {eoc : Bool} {index seen p q : ℕ} {ns : List Node} {os : List (ℕ × Node)} :
      Holds blob p (emitTag TYPE_OBJECT index eoc) → index < seen → index < 2 ^ 24 →
      Emits blob ns seen (p + 4) q os → Emits blob (.object eoc index :: ns) seen p q os
  | node {n : Node} {seen p m q : ℕ} {ns : List Node} {ks os : List (ℕ × Node)} :
      n.isObject = false → n.operand < 2 ^ 24 → Holds blob p n.head →
      Emits blob n.children (seen + 1) (p + n.head.length) m ks →
      Emits blob ns (seen + 1 + ks.length) m q os →
      Emits blob (n :: ns) seen p q ((p, n) :: (ks ++ os))

theorem Ordered.emits (h : Ordered ns seen out) (hold : Holds blob p (Node.encodeAll ns)) :
    ∃ os, Emits blob ns seen p (p + (Node.encodeAll ns).length) os ∧
      os.map Prod.snd = Node.objectsAll ns ∧ out = seen + os.length := by
  induction h generalizing p with
  | nil => exact ⟨[], .nil, rfl, rfl⟩
  | @ref eoc index seen out ns hlt hop h ih =>
    have hhead : (Node.encode (.object eoc index)).length = 4 := toLeBytes_length _ _
    obtain ⟨os, hem, hobj, hout⟩ := ih (hhead ▸ hold.right)
    refine ⟨os, ?_, hobj, hout⟩
    rw [Node.encodeAll, List.length_append, ← Nat.add_assoc, hhead]
    exact .ref hold.left hlt hop hem
  | @node n seen mid out ns hno hop hk h ihk ih =>
    rw [Node.encodeAll, Node.encode_eq, List.append_assoc] at hold
    obtain ⟨ks, hemk, hobjk, hmid⟩ := ihk hold.right.left
    obtain ⟨os, hem, hobj, hout⟩ := ih hold.right.right
    refine ⟨(p, n) :: (ks ++ os), ?_, ?_, ?_⟩
    · rw [Node.encodeAll, Node.encode_eq, List.length_append, List.length_append, ← Nat.add_assoc,
        ← Nat.add_assoc]
      rw [show mid = seen + 1 + ks.length from hmid] at hem
      exact .node hno hop hold.left hemk hem
    · rw [List.map_cons, List.map_append, hobjk, hobj, Node.objectsAll, Node.objects_eq hno]
      rfl
    · simp only [List.length_cons, List.length_append]
      omega

namespace Emits

variable {os : List (ℕ × Node)} {a i : ℕ}

theorem readTag_head (hop : n.operand < 2 ^ 24) (hold : Holds blob p n.head) :
    readTag blob p = .some n.tag := readTag_emit n.ty_lt hop hold.left

theorem items (h : Emits blob ns seen p q os) :
    ∃ refs, Items blob ns.length seen p q (os.map Prod.fst) refs := by
  induction h with
  | nil => exact ⟨[], .nil⟩
  | @ref eoc index seen p q ns os hold hlt hop h ih =>
    obtain ⟨refs, hitems⟩ := ih
    exact ⟨_, .ref (readTag_emit (by decide) hop hold) rfl hlt hitems⟩
  | @node n seen p m q ns ks os hno hop hold hk h ihk ih =>
    obtain ⟨kidRefs, hkids⟩ := ihk
    obtain ⟨refs, hitems⟩ := ih
    refine ⟨kidRefs ++ refs, ?_⟩
    rw [← Node.arity_eq hno] at hkids
    rw [List.map_cons, List.map_append]
    refine .item (readTag_head hop hold) (Node.step_eq hno hop) hold.le hkids ?_
    rwa [List.length_map]

theorem object (h : Emits blob ns seen p q os) (ho : os[i]? = some (a, n)) :
    n.isObject = false ∧ n.operand < 2 ^ 24 ∧ Holds blob a n.head ∧
      ∃ m ks, Emits blob n.children (seen + i + 1) (a + n.head.length) m ks ∧
        i + 1 + ks.length ≤ os.length := by
  induction h generalizing i with
  | nil => simp at ho
  | ref _ _ _ _ ih => exact ih ho
  | @node n' seen p m q ns ks os hno hop hold hk h ihk ih =>
    simp only [List.length_cons, List.length_append]
    cases i with
    | zero =>
      obtain ⟨rfl, rfl⟩ : p = a ∧ n' = n := by simpa using ho
      exact ⟨hno, hop, hold, m, ks, hk, by omega⟩
    | succ i =>
      rw [List.getElem?_cons_succ] at ho
      rcases Nat.lt_or_ge i ks.length with hi | hi
      · rw [List.getElem?_append_left hi] at ho
        obtain ⟨hno', hop', hold', m', ks', hem, hle⟩ := ihk ho
        rw [show seen + 1 + i + 1 = seen + (i + 1) + 1 by omega] at hem
        exact ⟨hno', hop', hold', m', ks', hem, by omega⟩
      · rw [List.getElem?_append_right hi] at ho
        obtain ⟨hno', hop', hold', m', ks', hem, hle⟩ := ih ho
        rw [show seen + 1 + ks.length + (i - ks.length) + 1 = seen + (i + 1) + 1 by omega] at hem
        exact ⟨hno', hop', hold', m', ks', hem, by omega⟩

end Emits

def Emitted (blob : List UInt8) (count : ℕ) (ns : List Node) (p q : ℕ) : Prop :=
  ∃ seen os, Emits blob ns seen p q os ∧ seen + os.length ≤ count

def ItemOf (blob : List UInt8) (count : ℕ) (p : ℕ) (n : Node) : Prop :=
  ∃ q, Emitted blob count [n] p q

structure Body (blob : List UInt8) (count : ℕ) (p : ℕ) (n : Node) : Prop where
  direct : n.isObject = false
  small : n.operand < 2 ^ 24
  head : Holds blob p n.head
  children : ∃ q, Emitted blob count n.children (p + n.head.length) q

structure Decoding (b : OsBinary) (objs : List Node) : Prop where
  accepted : ∃ q offs refs, Accepted b q offs refs
  object : ∀ i < b.count, ∃ a n, b.nthObject i = .some a ∧ objs[i]? = some n ∧
    Body b.blob b.count a n

variable {b : OsBinary} {objs : List Node}

theorem Emitted.sits (h : Emitted b.blob b.count ns p q) : Sits b ns.length p q := by
  obtain ⟨seen, os, hem, hle⟩ := h
  obtain ⟨refs, hitems⟩ := hem.items
  exact ⟨seen, _, refs, hitems, by rwa [List.length_map]⟩

theorem Emitted.cons {count : ℕ} (h : Emitted blob count (n :: ns) p q) :
    ∃ m, Emitted blob count [n] p m ∧ Emitted blob count ns m q := by
  obtain ⟨seen, os, hem, hle⟩ := h
  cases hem with
  | @ref eoc index _ _ _ _ _ hold hlt hop h =>
    exact ⟨p + 4, ⟨seen, [], .ref hold hlt hop .nil, by simp; omega⟩, ⟨seen, os, h, hle⟩⟩
  | @node _ _ _ m _ _ ks os hno hop hold hk h =>
    simp only [List.length_cons, List.length_append] at hle
    refine ⟨m, ⟨seen, (p, n) :: (ks ++ []), .node hno hop hold hk .nil, ?_⟩,
      ⟨seen + 1 + ks.length, os, h, by omega⟩⟩
    simp only [List.length_cons, List.append_nil]
    omega

theorem Decoding.resolve (hd : Decoding b objs) (h : ItemOf b.blob b.count p n) :
    ∃ d m, b.resolve p = .some d ∧ n.resolve objs = some m ∧ Body b.blob b.count d m := by
  obtain ⟨q, seen, os, hem, hle⟩ := h
  cases hem with
  | @ref eoc index _ _ _ _ _ hold hlt hop h =>
    obtain ⟨a, m, hnth, hobj, hbody⟩ := hd.object index (by omega)
    refine ⟨a, m, ?_, hobj, hbody⟩
    rw [OsBinary.resolve, readTag_emit (by decide) hop hold, Outcome.some_bind, if_pos rfl, hnth]
  | @node _ _ _ m _ _ ks os hno hop hold hk h =>
    simp only [List.length_cons, List.length_append] at hle
    refine ⟨p, n, ?_, ?_, hno, hop, hold, m, seen + 1, ks, hk, by omega⟩
    · refine resolve_direct (Emits.readTag_head hop hold) ?_
      exact (scalarStep_some hop (Node.step_eq hno hop)).2.2
    · cases n <;> first | rfl | cases hno

theorem Body.readTag {count : ℕ} (h : Body blob count p n) : readTag blob p = .some n.tag :=
  Emits.readTag_head h.small h.head

theorem Body.payload {count : ℕ} (h : Body blob count p n) : Holds blob (p + 4) n.payload := by
  have hlen : (emitTag n.ty n.operand n.eoc).length = 4 := toLeBytes_length _ _
  exact hlen ▸ h.head.right

theorem words_value (v : UInt64) :
    (v.toNat / 256 ^ 4 % 256 ^ 4) <<< 32 ||| v.toNat % 256 ^ 4 = v.toNat := by
  have hv := v.toNat_lt
  have hlow : v.toNat % 256 ^ 4 < 2 ^ 32 := Nat.mod_lt _ (by norm_num)
  rw [← Nat.shiftLeft_add_eq_or_of_lt hlow, Nat.shiftLeft_eq]
  omega

theorem Decoding.asNumber (hd : Decoding b objs) (h : ItemOf b.blob b.count p n) :
    b.asNumber p = .ofOption (n.asNumber objs) := by
  obtain ⟨d, m, hres, hm, hbody⟩ := hd.resolve h
  rw [OsBinary.asNumber, hres, Outcome.some_bind, hbody.readTag, Outcome.some_bind, Node.asNumber, hm]
  cases m with
  | number e width v =>
    have hwords : toLeBytes 8 v.toNat =
        toLeBytes 4 v.toNat ++ toLeBytes 4 (v.toNat / 256 ^ 4) := toLeBytes_add 4 4 _
    have hpay : Holds b.blob (d + 4) (toLeBytes 4 v.toNat ++ toLeBytes 4 (v.toNat / 256 ^ 4)) :=
      hwords ▸ hbody.payload
    have hle := hpay.le
    have hlo := hpay.left.slice
    have hhi := hpay.right.slice
    simp only [List.length_append, toLeBytes_length] at hle hlo hhi
    rw [if_neg fun hne => hne rfl]
    dsimp only
    rw [if_neg (by omega), hlo, Outcome.some_bind, show d + 4 + 8 = d + 4 + 4 + 4 by rfl, hhi,
      Outcome.some_bind, fromLeBytes_toLeBytes, fromLeBytes_toLeBytes, words_value]
    rfl
  | _ => rfl

theorem Decoding.symbolBytes (hd : Decoding b objs) (h : ItemOf b.blob b.count p n) :
    b.symbolBytes p = .ofOption (n.asSymbol objs) := by
  obtain ⟨d, m, hres, hm, hbody⟩ := hd.resolve h
  rw [OsBinary.symbolBytes, hres, Outcome.some_bind, hbody.readTag, Outcome.some_bind,
    Node.asSymbol, hm]
  cases m with
  | symbol e name =>
    have hpay : Holds b.blob (d + 4) name := by
      have := hbody.payload
      rw [Node.payload, pad, List.append_assoc] at this
      exact this.left
    rw [if_neg fun hne => hne rfl]
    change (if d + 4 + (if name.length + 1 > 0 then name.length + 1 - 1 else 0) > b.blob.length
      then Outcome.none else _) = _
    rw [if_pos (Nat.succ_pos _), Nat.add_sub_cancel, if_neg (Nat.not_lt.mpr hpay.le)]
    exact hpay.slice
  | _ => rfl

theorem Decoding.asString (hd : Decoding b objs) (h : ItemOf b.blob b.count p n) :
    b.asString p = .ofOption (n.asString objs) := by
  obtain ⟨d, m, hres, hm, hbody⟩ := hd.resolve h
  rw [OsBinary.asString, hres, Outcome.some_bind, hbody.readTag, Outcome.some_bind,
    Node.asString, hm]
  cases m with
  | string e text =>
    have hpay : Holds b.blob (d + 4) text := by
      have := hbody.payload
      rw [Node.payload, pad] at this
      exact this.left
    rw [if_neg fun hne => hne rfl]
    change (if d + 4 + text.length > b.blob.length then Outcome.none else _) = _
    rw [if_neg (Nat.not_lt.mpr hpay.le)]
    exact hpay.slice
  | _ => rfl

theorem Decoding.asBool (hd : Decoding b objs) (h : ItemOf b.blob b.count p n) :
    b.asBool p = .ofOption (n.asBool objs) := by
  obtain ⟨d, m, hres, hm, hbody⟩ := hd.resolve h
  rw [OsBinary.asBool, hres, Outcome.some_bind, hbody.readTag, Outcome.some_bind, Node.asBool, hm]
  cases m with
  | boolean e value => cases value <;> rfl
  | _ => rfl

theorem Decoding.itemLen (hd : Decoding b objs) (h : Emitted b.blob b.count [n] p q) :
    b.itemLen p = .some (q - p) ∧ addU32 p (q - p) = .some q := by
  obtain ⟨_, _, _, hacc⟩ := hd.accepted
  exact hacc.itemLen h.sits

theorem Decoding.findLoop (hd : Decoding b objs) (key : List UInt8) {pairs : List (Node × Node)}
    (h : Emitted b.blob b.count (pairs.flatMap fun p => [p.1, p.2]) p q) :
    Outcome.Rel (ItemOf b.blob b.count) (b.findLoop key pairs.length p)
      ((pairs.find? fun p => p.1.asSymbol objs = some key).map Prod.snd) := by
  induction pairs generalizing p with
  | nil => exact .none
  | cons kv pairs ih =>
    obtain ⟨k, v⟩ := kv
    obtain ⟨m₁, hk, h⟩ := Emitted.cons h
    obtain ⟨m₂, hv, h⟩ := Emitted.cons h
    obtain ⟨hklen, hkadd⟩ := hd.itemLen hk
    obtain ⟨hvlen, hvadd⟩ := hd.itemLen hv
    rw [List.length_cons, OsBinary.findLoop, hklen, Outcome.some_bind, hkadd, Outcome.some_bind]
    dsimp only
    rw [hvlen, Outcome.some_bind, hvadd, Outcome.some_bind, hd.symbolBytes ⟨m₁, hk⟩,
      Outcome.attempt_ofOption, Outcome.some_bind]
    by_cases hkey : k.asSymbol objs = some key
    · rw [if_pos hkey, List.find?_cons_of_pos (by simpa using hkey)]
      exact .some ⟨m₂, hv⟩
    · rw [if_neg hkey, List.find?_cons_of_neg (by simpa using hkey)]
      exact ih h

theorem Decoding.eachLoop (hd : Decoding b objs) (h : Emitted b.blob b.count ns p q) :
    ∃ os, b.eachLoop ns.length p = .some os ∧ List.Forall₂ (ItemOf b.blob b.count) os ns := by
  induction ns generalizing p with
  | nil => exact ⟨[], rfl, .nil⟩
  | cons n ns ih =>
    obtain ⟨m, hn, h⟩ := h.cons
    obtain ⟨hlen, hadd⟩ := hd.itemLen hn
    obtain ⟨os, hrun, hos⟩ := ih h
    refine ⟨p :: os, ?_, .cons ⟨m, hn⟩ hos⟩
    rw [List.length_cons, OsBinary.eachLoop, hlen, Outcome.some_bind, hadd, Outcome.some_bind, hrun]
    rfl

theorem Decoding.add4 (hd : Decoding b objs) (h : Body b.blob b.count p n) :
    addU32 p 4 = .some (p + 4) := by
  obtain ⟨_, _, _, hacc⟩ := hd.accepted
  have hsmall := hacc.small
  have hin := (readTag_some h.readTag).1
  exact addU32_some (by omega)

theorem Decoding.findDict (hd : Decoding b objs) (h : ItemOf b.blob b.count p n)
    (key : List UInt8) :
    Outcome.Rel (ItemOf b.blob b.count) (b.findDict p key) (n.findDict objs key) := by
  obtain ⟨d, m, hres, hm, hbody⟩ := hd.resolve h
  rw [OsBinary.findDict, hres, Outcome.some_bind, hbody.readTag, Outcome.some_bind, Node.findDict, hm]
  cases m with
  | dict e pairs =>
    rw [if_neg fun hne => hne rfl, hd.add4 hbody, Outcome.some_bind]
    obtain ⟨q, hkids⟩ := hbody.children
    exact hd.findLoop key hkids
  | _ => exact .none

theorem Decoding.forEachArray (hd : Decoding b objs) (h : ItemOf b.blob b.count p n) :
    Outcome.Rel (List.Forall₂ (ItemOf b.blob b.count)) (b.forEachArray p) (n.elements objs) := by
  obtain ⟨d, m, hres, hm, hbody⟩ := hd.resolve h
  have hlist : ∀ items, m.children = items → m.head.length = 4 → (m.ty = TYPE_ARRAY ∨ m.ty = TYPE_SET) →
      m.operand = items.length →
      Outcome.Rel (List.Forall₂ (ItemOf b.blob b.count))
        (if m.tag.ty ≠ TYPE_ARRAY ∧ m.tag.ty ≠ TYPE_SET then .none
          else do b.eachLoop m.tag.operand (← addU32 d 4)) (some items) := by
    rintro items rfl hfour hty hop
    obtain ⟨q, hkids⟩ := hbody.children
    rw [hfour] at hkids
    obtain ⟨os, hrun, hos⟩ := hd.eachLoop hkids
    rw [if_neg (by change ¬ (m.ty ≠ _ ∧ m.ty ≠ _); tauto), hd.add4 hbody, Outcome.some_bind]
    change Outcome.Rel _ (b.eachLoop m.operand (d + 4)) _
    rw [hop, hrun]
    exact .some hos
  rw [OsBinary.forEachArray, hres, Outcome.some_bind, hbody.readTag, Outcome.some_bind,
    Node.elements, hm]
  cases m with
  | array e items => exact hlist items rfl rfl (.inl rfl) rfl
  | set e items => exact hlist items rfl rfl (.inr rfl) rfl
  | _ => exact .none

structure Decodes (b : OsBinary) (objs : List Node) (is : ℕ → Node → Prop) : Prop where
  findDict : ∀ p n, is p n → ∀ key, Outcome.Rel is (b.findDict p key) (n.findDict objs key)
  forEachArray : ∀ p n, is p n →
    Outcome.Rel (List.Forall₂ is) (b.forEachArray p) (n.elements objs)
  asNumber : ∀ p n, is p n → b.asNumber p = .ofOption (n.asNumber objs)
  asString : ∀ p n, is p n → b.asString p = .ofOption (n.asString objs)
  asSymbol : ∀ p n, is p n → b.asSymbol p = .ofOption (n.asSymbol objs)
  asBool : ∀ p n, is p n → b.asBool p = .ofOption (n.asBool objs)

theorem Decoding.decodes (hd : Decoding b objs) : Decodes b objs (ItemOf b.blob b.count) where
  findDict _ _ h key := hd.findDict h key
  forEachArray _ _ h := hd.forEachArray h
  asNumber _ _ h := hd.asNumber h
  asString _ _ h := hd.asString h
  asSymbol _ _ h := hd.symbolBytes h
  asBool _ _ h := hd.asBool h

structure SameResults (b b' : OsBinary) : Prop where
  findDict : ∀ o key, b.findDict o key = b'.findDict o key
  forEachArray : ∀ o, b.forEachArray o = b'.forEachArray o
  asNumber : ∀ o, b.asNumber o = b'.asNumber o
  asString : ∀ o, b.asString o = b'.asString o
  asSymbol : ∀ o, b.asSymbol o = b'.asSymbol o
  asBool : ∀ o, b.asBool o = b'.asBool o

theorem sameResults {b b' : OsBinary} (hblob : b.blob = b'.blob)
    (hnth : ∀ i, b.nthObject i = b'.nthObject i) : SameResults b b' := by
  have hres : ∀ o, b.resolve o = b'.resolve o := fun o => by
    simp only [OsBinary.resolve, hblob, hnth]
  have hlen : ∀ o, b.itemLen o = b'.itemLen o := fun o => by
    simp only [OsBinary.itemLen, hblob]
  have hsym : ∀ o, b.symbolBytes o = b'.symbolBytes o := fun o => by
    simp only [OsBinary.symbolBytes, hres, hblob]
  have hfind : ∀ key n o, b.findLoop key n o = b'.findLoop key n o := by
    intro key n
    induction n with
    | zero => exact fun _ => rfl
    | succ n ih =>
      intro o
      simp only [OsBinary.findLoop, hlen, hsym, ih]
  have heach : ∀ n o, b.eachLoop n o = b'.eachLoop n o := by
    intro n
    induction n with
    | zero => exact fun _ => rfl
    | succ n ih =>
      intro o
      simp only [OsBinary.eachLoop, hlen, ih]
  exact ⟨fun o key => by simp only [OsBinary.findDict, hres, hblob, hfind],
    fun o => by simp only [OsBinary.forEachArray, hres, hblob, heach],
    fun o => by simp only [OsBinary.asNumber, hres, hblob],
    fun o => by simp only [OsBinary.asString, hres, hblob], fun o => hsym o,
    fun o => by simp only [OsBinary.asBool, hres, hblob]⟩

theorem encode_decoding {t : Node} (ht : Ordered [t] 0 out)
    (hlen : (MAGIC ++ t.encode).length < 2 ^ 32 - 17) :
    ∃ offs : List ℕ, ∀ buf, buf ≠ [] → ∃ b, parse (MAGIC ++ t.encode) buf = .some b ∧
      b.blob = MAGIC ++ t.encode ∧ b.count = out ∧ 0 < out ∧ Decoding b t.objects ∧
      ItemOf b.blob b.count 4 t ∧ ∀ i, b.nthObject i = .ofOption offs[i]? := by
  have hall : Node.encodeAll [t] = t.encode := List.append_nil _
  have hold : Holds (MAGIC ++ t.encode) 4 (Node.encodeAll [t]) :=
    ⟨MAGIC, [], by rw [hall, List.append_nil], rfl⟩
  obtain ⟨os, hem, hobjs, hout⟩ := ht.emits hold
  rw [Nat.zero_add] at hout
  have hobjects : os.map Prod.snd = t.objects := hobjs.trans (List.append_nil _)
  have hpos : 0 < os.length := by
    cases hem with
    | ref _ hlt _ _ => omega
    | node => exact Nat.succ_pos _
  obtain ⟨refs, hitems⟩ := hem.items
  have hlong : 8 ≤ (MAGIC ++ t.encode).length := by
    have hadv := hitems.advance
    have hin := hitems.inside Nat.one_pos
    rw [List.length_map] at hadv
    omega
  refine ⟨os.map Prod.fst, fun buf hbuf => ?_⟩
  obtain ⟨ckpts, stride, hparse, hacc⟩ := parse_items ⟨hbuf, rfl, hlong, hlen⟩ hitems
  have hcount : (os.map Prod.fst).length = os.length := List.length_map _
  refine ⟨_, hparse, rfl, hcount.trans hout.symm, hout ▸ hpos, ⟨⟨_, _, _, hacc⟩, fun i hi => ?_⟩,
    ⟨_, 0, os, hem, by rw [Nat.zero_add]; exact hcount.ge⟩, hacc.nthObject⟩
  have hi' : i < os.length := hcount ▸ hi
  have hget : os[i]? = some (os[i].1, os[i].2) := List.getElem?_eq_getElem hi'
  obtain ⟨hno, hop, hhold, m, ks, hkids, hle⟩ := hem.object hget
  refine ⟨os[i].1, os[i].2, ?_, ?_, hno, hop, hhold, m, _, ks, hkids, ?_⟩
  · rw [hacc.nthObject, List.getElem?_map, hget]
    rfl
  · rw [← hobjects, List.getElem?_map, hget]
    rfl
  · change 0 + i + 1 + ks.length ≤ (os.map Prod.fst).length
    omega

theorem decode_encode (t : Node) (out : ℕ) (ht : Ordered [t] 0 out)
    (hlen : (MAGIC ++ t.encode).length < 2 ^ 32 - 17) :
    ∃ is : ℕ → Node → Prop, ∀ buf, buf ≠ [] → ∃ b, parse (MAGIC ++ t.encode) buf = .some b ∧
      (∃ o, b.root = some o ∧ is o t) ∧ Decodes b t.objects is ∧
      ∀ buf', buf' ≠ [] → ∃ b', parse (MAGIC ++ t.encode) buf' = .some b' ∧ b'.root = b.root ∧
        SameResults b b' := by
  obtain ⟨offs, hparse⟩ := encode_decoding ht hlen
  refine ⟨ItemOf (MAGIC ++ t.encode) out, fun buf hbuf => ?_⟩
  have hroot : ∀ {b : OsBinary}, b.count = out → 0 < out → b.root = some 4 := fun hc hpos =>
    if_neg (by omega)
  obtain ⟨b, hrun, hblob, hcount, hpos, hd, hitem, hnth⟩ := hparse buf hbuf
  refine ⟨b, hrun, ⟨4, hroot hcount hpos, hblob ▸ hcount ▸ hitem⟩, hblob ▸ hcount ▸ hd.decodes,
    fun buf' hbuf' => ?_⟩
  obtain ⟨b', hrun', hblob', hcount', -, -, -, hnth'⟩ := hparse buf' hbuf'
  exact ⟨b', hrun', (hroot hcount' hpos).trans (hroot hcount hpos).symm,
    sameResults (hblob.trans hblob'.symm) fun i => (hnth i).trans (hnth' i).symm⟩

def sharedKey : Node :=
  .dict false [(.symbol false [0x6b, 0x41], .number false 32 7), (.object false 1, .number true 32 11)]

theorem sharedKey_ordered : Ordered [sharedKey] 0 4 :=
  .node rfl (by decide) (.node rfl (by decide) .nil (.node rfl (by decide) .nil
    (.ref (by decide) (by decide) (.node rfl (by decide) .nil .nil)))) .nil

theorem decode_encode_sharedKey :
    ∃ b, parse (MAGIC ++ sharedKey.encode) [0] = .some b ∧ ∃ o, b.root = some o ∧
      ∃ v, b.findDict o [0x6b, 0x41] = .some v ∧ b.asNumber v = .some 7 := by
  obtain ⟨is, h⟩ := decode_encode sharedKey 4 sharedKey_ordered (by decide)
  obtain ⟨b, hb, ⟨o, ho, hroot⟩, hd, -⟩ := h [0] (by decide)
  have hspec : sharedKey.findDict sharedKey.objects [0x6b, 0x41] = some (.number false 32 7) := rfl
  obtain ⟨v, hv, his⟩ := (hspec ▸ hd.findDict o sharedKey hroot [0x6b, 0x41]).of_some
  exact ⟨b, hb, o, ho, v, hv, hd.asNumber _ _ his⟩

end Ltop.Os
