import Mathlib
import Ltop.Bytes
import Ltop.Frozen
import Ltop.OsSafety
import Ltop.Library.Numeral

namespace Ltop

namespace Agx

open Os Numeral

def MAX_TRACKED_PIDS : ℕ := 256

def OSBIN_CKPTS : ℕ := 512

structure GpuProc where
  smPct : UInt32
deriving DecidableEq

structure State where
  nGpus : UInt32
  totalMib : UInt64

structure Blob where
  bytes : List UInt8
  ckpts : List ℕ
  ckpts_length : ckpts.length = OSBIN_CKPTS

structure Accelerator where
  statistics : Option Blob
  children : Option (List (Option Blob))

inductive Walk where
  | noMaster
  | noIterator
  | services (agxs : List Accelerator)

structure Tick where
  dtNs : UInt64
  walk : Walk

def saturatingAdd (a : UInt64) (b : ℕ) : UInt64 := (min (a.toNat + b) (2 ^ 64 - 1)).toUInt64

def saturatingMul (a b : UInt64) : UInt64 := (min (a.toNat * b.toNat) (2 ^ 64 - 1)).toUInt64

def creatorDigits (n : ℕ) (any : Bool) : List UInt8 → Option UInt32
  | [] => if any then some n.toUInt32 else none
  | b :: rest =>
    if !isDigit b then if any then some n.toUInt32 else none
    else if n * 10 ≥ 2 ^ 32 then none
    else if n * 10 + digit b ≥ 2 ^ 32 then none
    else creatorDigits (n * 10 + digit b) true rest

def parseCreatorPidBytes (text : List UInt8) : Option UInt32 :=
  if !(bytes "pid ").isPrefixOf text then none else creatorDigits 0 false (text.drop 4)

def accumulate (bin : OsBinary) (total : UInt64) (item : ℕ) : Outcome UInt64 := do
  match ← (bin.findDict item (bytes "accumulatedGPUTime")).attempt with
  | none => return total
  | some acc =>
    match ← (bin.asNumber acc).attempt with
    | none => return total
    | some ns => return saturatingAdd total ns

def usageTotal (bin : OsBinary) (root : ℕ) : Outcome UInt64 := do
  match ← (bin.findDict root (bytes "AppUsage")).attempt with
  | none => return 0
  | some usage =>
    match ← (bin.forEachArray usage).attempt with
    | none => return 0
    | some items => items.foldlM (accumulate bin) 0

def readUserClientBlob (bin : OsBinary) : Outcome (UInt32 × UInt64) := do
  let root ← .ofOption bin.root
  let creator ← bin.findDict root (bytes "IOUserClientCreator")
  let creatorBytes ← bin.asString creator
  let pid ← .ofOption (parseCreatorPidBytes creatorBytes)
  return (pid, ← usageTotal bin root)

def readPerfStatsBlob (bin : OsBinary) : Outcome UInt64 := do
  let root ← .ofOption bin.root
  let used ← bin.findDict root (bytes "In use system memory")
  return (← bin.asNumber used).toUInt64 >>> 20

def decode {α : Type} (read : OsBinary → Outcome α) (fetched : Option Blob) : Outcome (Option α) := do
  match fetched with
  | none => return none
  | some buf =>
    match ← (parse buf.bytes buf.ckpts).attempt with
    | none => return none
    | some bin => (read bin).attempt

structure Walked where
  now : FVec (UInt32 × UInt64)
  totalUsedMib : UInt64

def walkChild (now : FVec (UInt32 × UInt64)) (child : Option Blob) :
    Outcome (FVec (UInt32 × UInt64)) := do
  match ← decode readUserClientBlob child with
  | none => return now
  | some row => return (now.push row).1

def walkAgx (st : Walked) (agx : Accelerator) : Outcome Walked := do
  let totalUsedMib ← match ← decode readPerfStatsBlob agx.statistics with
    | none => pure st.totalUsedMib
    | some used => pure (st.totalUsedMib + used)
  let now ← match agx.children with
    | none => pure st.now
    | some children => children.foldlM walkChild st.now
  return ⟨now, totalUsedMib⟩

def computePct (prevNs nowNs dtNs : UInt64) : UInt32 :=
  if prevNs = 0 ∨ nowNs ≤ prevNs ∨ dtNs = 0 then 0
  else
    let deltaNs := nowNs - prevNs
    (min (saturatingMul deltaNs 100 / dtNs) 100).toUInt32

def mergeNs (a b : UInt64) : UInt64 × UInt64 := (a + b, b)

def pushEntry (prev : Map UInt64) (dtNs : UInt64) (buf : FVec (UInt32 × GpuProc))
    (row : UInt32 × UInt64) : FVec (UInt32 × GpuProc) :=
  let prevNs := (prev.search row.1).getD 0
  let pct := computePct prevNs row.2 dtNs
  if pct = 0 then buf else (buf.push (row.1, ⟨pct⟩)).1

def sumPct (entries : List (UInt32 × GpuProc)) : UInt32 :=
  entries.foldl (fun sum row => sum + row.2.smPct) 0

structure Reading where
  entries : List (UInt32 × GpuProc)
  newPrev : Map UInt64
  nGpus : UInt32
  totalUtil : UInt32
  totalUsedMib : UInt64
  totalMib : UInt64

variable (state : State)

def idle : Reading := ⟨[], .empty, 0, 0, 0, state.totalMib⟩

def populate (prev : Map UInt64) (t : Tick) : Outcome Reading :=
  if state.nGpus = 0 ∨ t.dtNs = 0 then .some (idle state)
  else
    match t.walk with
    | .noMaster => .some (idle state)
    | .noIterator => .some (idle state)
    | .services agxs => do
      let walked ← agxs.foldlM walkAgx ⟨.new MAX_TRACKED_PIDS, 0⟩
      let newPrev := freezeMap walked.now.items mergeNs
      let entries := (newPrev.entries.foldl (pushEntry prev t.dtNs) (.new MAX_TRACKED_PIDS)).items
      let totalUtil := min (sumPct entries) 100
      return ⟨entries, newPrev, state.nGpus, totalUtil, walked.totalUsedMib, state.totalMib⟩

def run (prev : Map UInt64) : List Tick → Outcome (List Reading)
  | [] => .some []
  | t :: ticks => do
    let reading ← populate state prev t
    return reading :: (← run reading.newPrev ticks)

def client (child : Option Blob) : Option (UInt32 × UInt64) :=
  (decode readUserClientBlob child).getD none

structure Usage where
  pid : UInt32
  times : List ℕ
deriving DecidableEq

def creatorPid (text : List UInt8) : Option UInt32 :=
  let digits := (text.drop 4).takeWhile isDigit
  if (bytes "pid ").isPrefixOf text ∧ digits ≠ [] ∧ value digits < 2 ^ 32 then
    some (value digits).toUInt32
  else none

def timeOf (bin : OsBinary) (item : ℕ) : ℕ :=
  (bin.findDict item (bytes "accumulatedGPUTime") >>= bin.asNumber).getD 0

def timesOf (bin : OsBinary) (root : ℕ) : List ℕ :=
  ((bin.findDict root (bytes "AppUsage") >>= bin.forEachArray).getD []).map (timeOf bin)

def usageIn (bin : OsBinary) : Option Usage := do
  let root ← bin.root
  let creator ← (bin.findDict root (bytes "IOUserClientCreator")).toOption
  let text ← (bin.asString creator).toOption
  let pid ← creatorPid text
  return ⟨pid, timesOf bin root⟩

def usage (child : Option Blob) : Option Usage := do
  let buf ← child
  let bin ← (parse buf.bytes buf.ckpts).toOption
  usageIn bin

namespace Tick

variable (t : Tick)

def walks : Option (List Accelerator) :=
  if state.nGpus = 0 ∨ t.dtNs = 0 then none
  else match t.walk with
    | .services agxs => some agxs
    | _ => none

def usages : List Usage :=
  ((t.walks state).getD []).flatMap fun agx => (agx.children.getD []).filterMap usage

end Tick

def clientSum (usages : List Usage) (pid : UInt32) : ℕ :=
  ((usages.filter (·.pid = pid)).map (·.times.sum)).sum

def storedSum (usages : List Usage) (pid : UInt32) : ℕ :=
  ((usages.filter (·.pid = pid)).map fun u => min u.times.sum (2 ^ 64 - 1)).sum % 2 ^ 64

structure Accounts (rate : ℕ → ℕ → ℕ) (prev : Map UInt64) (t : Tick) (r : Reading) : Prop where
  snapshot_ascending : r.newPrev.entries.Pairwise fun a b => a.1 < b.1
  snapshot_pids : ∀ pid, pid ∈ r.newPrev.entries.map (·.1) ↔ pid ∈ (t.usages state).map (·.pid)
  snapshot_stored : ∀ pid ns, (pid, ns) ∈ r.newPrev.entries →
    ns.toNat = storedSum (t.usages state) pid
  snapshot_sum : ∀ pid ns, (pid, ns) ∈ r.newPrev.entries → clientSum (t.usages state) pid < 2 ^ 64 →
    ns.toNat = clientSum (t.usages state) pid
  ascending : r.entries.Pairwise fun a b => a.1 < b.1
  entries : ∀ pid pct, (pid, pct) ∈ r.entries ↔ ∃ was now : UInt64, (pid, was) ∈ prev.entries ∧
    (pid, now) ∈ r.newPrev.entries ∧ was ≠ 0 ∧ was < now ∧
    1 ≤ rate (now.toNat - was.toNat) t.dtNs.toNat ∧
    pct.smPct.toNat = min 100 (rate (now.toNat - was.toNat) t.dtNs.toNat)
  util : r.totalUtil.toNat = min 100 (r.entries.map (·.2.smPct.toNat)).sum
  failed : t.walks state = none → r.entries = [] ∧ r.newPrev.entries = []

inductive Follows (rate : ℕ → ℕ → ℕ) : Map UInt64 → List Tick → List Reading → Prop
  | nil (prev : Map UInt64) : Follows rate prev [] []
  | cons {prev : Map UInt64} {t : Tick} {ticks : List Tick} {r : Reading} {readings : List Reading} :
      Accounts state rate prev t r → Follows rate r.newPrev ticks readings →
      (t.walks state = none → ∀ next ∈ readings.head?, next.entries = []) →
      Follows rate prev (t :: ticks) (r :: readings)

def floorRate (delta dt : ℕ) : ℕ := 100 * delta / dt

def cappedRate (delta dt : ℕ) : ℕ := min (100 * delta) (2 ^ 64 - 1) / dt

variable {bin : OsBinary} {o : ℕ} {α : Type}

def Sound (bin : OsBinary) : Prop := ∀ o, Reachable bin o → Harmless bin o

theorem accumulate_safe (h : Sound bin) (ho : Reachable bin o) (total : UInt64) :
    (accumulate bin total o).Safe := by
  unfold accumulate
  refine ((h o ho).findDict _).attempt.bind fun acc hacc => ?_
  cases acc with
  | none => exact Outcome.safe_some _
  | some acc =>
    have hreach : Reachable bin acc := .find _ ho (Outcome.attempt_eq_some.mp hacc)
    refine (h acc hreach).asNumber.attempt.bind fun ns _ => ?_
    cases ns with
    | none => exact Outcome.safe_some _
    | some ns => exact Outcome.safe_some _

theorem usageTotal_safe (h : Sound bin) (ho : Reachable bin o) : (usageTotal bin o).Safe := by
  unfold usageTotal
  refine ((h o ho).findDict _).attempt.bind fun usage husage => ?_
  cases usage with
  | none => exact Outcome.safe_some _
  | some usage =>
    have hreach : Reachable bin usage := .find _ ho (Outcome.attempt_eq_some.mp husage)
    refine (h usage hreach).forEachArray.attempt.bind fun items hitems => ?_
    cases items with
    | none => exact Outcome.safe_some _
    | some items =>
      exact Outcome.safe_foldlM 0 fun total item hitem =>
        accumulate_safe h (.each hreach (Outcome.attempt_eq_some.mp hitems) hitem) total

theorem root_reachable (ho : Outcome.ofOption bin.root = .some o) : Reachable bin o := by
  cases hroot : bin.root with
  | none =>
    rw [hroot] at ho
    cases ho
  | some r =>
    rw [hroot] at ho
    cases ho
    exact .root hroot

theorem readUserClientBlob_safe (h : Sound bin) : (readUserClientBlob bin).Safe := by
  unfold readUserClientBlob
  refine (Outcome.safe_ofOption _).bind fun root hroot => ?_
  have hreach := root_reachable hroot
  refine ((h root hreach).findDict _).bind fun creator hcreator => ?_
  refine (h creator (.find _ hreach hcreator)).asString.bind fun text _ => ?_
  refine (Outcome.safe_ofOption _).bind fun pid _ => ?_
  exact (usageTotal_safe h hreach).bind fun total _ => Outcome.safe_some _

theorem readPerfStatsBlob_safe (h : Sound bin) : (readPerfStatsBlob bin).Safe := by
  unfold readPerfStatsBlob
  refine (Outcome.safe_ofOption _).bind fun root hroot => ?_
  have hreach := root_reachable hroot
  refine ((h root hreach).findDict _).bind fun used hused => ?_
  exact (h used (.find _ hreach hused)).asNumber.bind fun bytes _ => Outcome.safe_some _

theorem parse_sound (blob : List UInt8) (buf : List ℕ) :
    (parse blob buf).Safe ∧ ∀ bin, parse blob buf = .some bin → Sound bin := by
  rcases parse_spec blob buf with hnone | ⟨q, offs, refs, ckpts, stride, -, hsome, hacc⟩
  · rw [hnone]
    exact ⟨Outcome.safe_none, fun bin hbin => by cases hbin⟩
  · rw [hsome]
    refine ⟨Outcome.safe_some _, fun bin hbin => ?_⟩
    cases hbin
    exact fun o ho => hacc.harmless ho

theorem decode_total {read : OsBinary → Outcome α} (hread : ∀ bin, Sound bin → (read bin).Safe)
    (fetched : Option Blob) : ∃ o, decode read fetched = .some o := by
  cases fetched with
  | none => exact ⟨none, rfl⟩
  | some buf =>
    obtain ⟨hsafe, hsound⟩ := parse_sound buf.bytes buf.ckpts
    unfold decode
    dsimp only
    cases hparse : parse buf.bytes buf.ckpts with
    | fault f => exact absurd hparse (hsafe f)
    | none => exact ⟨none, rfl⟩
    | some bin => exact (hread bin (hsound bin hparse)).total

theorem client_eq (child : Option Blob) :
    decode readUserClientBlob child = .some (client child) := by
  obtain ⟨o, ho⟩ := decode_total (fun _ => readUserClientBlob_safe) child
  rw [client, ho]
  rfl

theorem walkChildren_eq (children : List (Option Blob)) (now : FVec (UInt32 × UInt64)) :
    children.foldlM walkChild now = .some (now.pushAll (children.filterMap client)) := by
  induction children generalizing now with
  | nil => rfl
  | cons child children ih =>
    rw [List.foldlM_cons, walkChild, client_eq, Outcome.some_bind]
    cases hclient : client child with
    | none =>
      rw [List.filterMap_cons_none hclient]
      exact ih now
    | some row =>
      rw [List.filterMap_cons_some hclient]
      exact ih _

theorem pushAll_append {T : Type} (v : FVec T) (xs ys : List T) :
    (v.pushAll xs).pushAll ys = v.pushAll (xs ++ ys) := by
  induction xs generalizing v with
  | nil => rfl
  | cons x xs ih => exact ih _

def rows (agxs : List Accelerator) : List (UInt32 × UInt64) :=
  agxs.flatMap fun agx => (agx.children.getD []).filterMap client

theorem walkAgx_eq (st : Walked) (agx : Accelerator) : ∃ used, walkAgx st agx =
    .some ⟨st.now.pushAll ((agx.children.getD []).filterMap client), used⟩ := by
  obtain ⟨stats, hstats⟩ := decode_total (fun _ => readPerfStatsBlob_safe) agx.statistics
  unfold walkAgx
  rw [hstats, Outcome.some_bind]
  cases agx.children with
  | none => cases stats <;> exact ⟨_, rfl⟩
  | some children =>
    have hrun := walkChildren_eq children st.now
    cases stats with
    | none =>
      refine ⟨st.totalUsedMib, ?_⟩
      simp [hrun]
    | some used =>
      refine ⟨st.totalUsedMib + used, ?_⟩
      simp [hrun]

theorem walk_eq (agxs : List Accelerator) (st : Walked) : ∃ used, agxs.foldlM walkAgx st =
    .some ⟨st.now.pushAll (rows agxs), used⟩ := by
  induction agxs generalizing st with
  | nil => exact ⟨st.totalUsedMib, rfl⟩
  | cons agx agxs ih =>
    obtain ⟨used, hstep⟩ := walkAgx_eq st agx
    obtain ⟨used', hrest⟩ := ih ⟨st.now.pushAll ((agx.children.getD []).filterMap client), used⟩
    refine ⟨used', ?_⟩
    rw [List.foldlM_cons, hstep, Outcome.some_bind, hrest, pushAll_append]
    rfl

section Client

variable {root : ℕ} {items : List ℕ}

theorem creatorDigits_eq (text : List UInt8) (n : ℕ) (any : Bool) (hn : n < 2 ^ 32) :
    creatorDigits n any text =
      if (any = true ∨ text.takeWhile isDigit ≠ []) ∧ valueFrom n (text.takeWhile isDigit) < 2 ^ 32
      then some (valueFrom n (text.takeWhile isDigit)).toUInt32 else none := by
  have hvalue : valueFrom n [] = n := rfl
  induction text generalizing n any with
  | nil =>
    rw [creatorDigits, List.takeWhile_nil, hvalue]
    simp only [hn, and_true, ne_eq, not_true_eq_false, or_false]
  | cons b rest ih =>
    cases hb : isDigit b with
    | false =>
      rw [creatorDigits, hb, List.takeWhile_cons_of_neg (by simp [hb]), hvalue]
      simp only [hn, and_true, ne_eq, not_true_eq_false, or_false, Bool.not_false, if_true]
    | true =>
      have hstep : valueFrom n (b :: rest.takeWhile isDigit) =
          valueFrom (n * 10 + digit b) (rest.takeWhile isDigit) := rfl
      have hmono := le_valueFrom (n * 10 + digit b) (rest.takeWhile isDigit)
      rw [creatorDigits, hb, List.takeWhile_cons_of_pos hb, hstep]
      simp only [Bool.not_true, Bool.false_eq_true, if_false]
      by_cases hfit : n * 10 + digit b < 2 ^ 32
      · rw [if_neg (by omega), if_neg (by omega), ih _ _ hfit rfl]
        simp
      · rw [if_pos (Nat.le_of_not_lt hfit), ite_self]
        exact (if_neg fun hlt => hfit (hmono.trans_lt hlt.2)).symm

theorem parseCreatorPidBytes_eq (text : List UInt8) :
    parseCreatorPidBytes text = creatorPid text := by
  unfold parseCreatorPidBytes creatorPid
  cases hprefix : (bytes "pid ").isPrefixOf text with
  | false => simp
  | true =>
    rw [Bool.not_true, if_neg Bool.false_ne_true, creatorDigits_eq _ 0 false (by decide)]
    simp [value]

def saturated (n : ℕ) : UInt64 := (min n (2 ^ 64 - 1)).toUInt64

theorem saturated_toNat (n : ℕ) : (saturated n).toNat = min n (2 ^ 64 - 1) :=
  Nat.mod_eq_of_lt (by omega)

theorem saturatingAdd_saturated (n k : ℕ) :
    saturatingAdd (saturated n) k = saturated (n + k) := by
  refine UInt64.toNat_inj.mp ?_
  rw [saturatingAdd, saturated_toNat, saturated_toNat]
  refine (Nat.mod_eq_of_lt (by omega)).trans ?_
  omega

theorem accumulate_eq (h : Sound bin) (ho : Reachable bin o) (n : ℕ) :
    accumulate bin (saturated n) o = .some (saturated (n + timeOf bin o)) := by
  unfold accumulate timeOf
  cases hacc : bin.findDict o (bytes "accumulatedGPUTime") with
  | fault f => exact absurd hacc ((h o ho).findDict _ f)
  | none => rfl
  | some acc =>
    rw [Outcome.some_bind, Outcome.attempt_some, Outcome.some_bind]
    dsimp only
    cases hns : bin.asNumber acc with
    | fault f => exact absurd hns ((h acc (.find _ ho hacc)).asNumber f)
    | none => rfl
    | some ns => exact congrArg Outcome.some (saturatingAdd_saturated n ns)

theorem accumulate_all (h : Sound bin) (hitems : ∀ o ∈ items, Reachable bin o) (n : ℕ) :
    items.foldlM (accumulate bin) (saturated n) =
      .some (saturated (n + (items.map (timeOf bin)).sum)) := by
  induction items generalizing n with
  | nil => rfl
  | cons item items ih =>
    obtain ⟨hitem, hrest⟩ := List.forall_mem_cons.mp hitems
    rw [List.foldlM_cons, accumulate_eq h hitem, Outcome.some_bind, ih hrest, List.map_cons,
      List.sum_cons, Nat.add_assoc]

theorem usageTotal_eq (h : Sound bin) (hroot : Reachable bin root) :
    usageTotal bin root = .some (saturated (timesOf bin root).sum) := by
  unfold usageTotal timesOf
  cases husage : bin.findDict root (bytes "AppUsage") with
  | fault f => exact absurd husage ((h root hroot).findDict _ f)
  | none => rfl
  | some list =>
    have hlist : Reachable bin list := .find _ hroot husage
    rw [Outcome.some_bind, Outcome.attempt_some, Outcome.some_bind]
    dsimp only
    cases hitems : bin.forEachArray list with
    | fault f => exact absurd hitems ((h list hlist).forEachArray f)
    | none => rfl
    | some items =>
      have hrun := accumulate_all h (fun o ho => .each hlist hitems ho) 0
      rw [Nat.zero_add] at hrun
      exact hrun

def Usage.row (u : Usage) : UInt32 × UInt64 := (u.pid, saturated u.times.sum)

theorem readUserClientBlob_eq (h : Sound bin) :
    (readUserClientBlob bin).toOption = (usageIn bin).map Usage.row := by
  unfold readUserClientBlob usageIn
  cases hroot : bin.root with
  | none => rfl
  | some root =>
    have hreach : Reachable bin root := .root hroot
    rw [Outcome.ofOption_some, Outcome.some_bind, Option.bind_eq_bind, Option.bind_some]
    cases hcreator : bin.findDict root (bytes "IOUserClientCreator") with
    | fault f => rfl
    | none => rfl
    | some creator =>
      rw [Outcome.some_bind, Outcome.toOption_some, Option.bind_eq_bind, Option.bind_some]
      cases bin.asString creator with
      | fault f => rfl
      | none => rfl
      | some text =>
        rw [Outcome.some_bind, Outcome.toOption_some, Option.bind_eq_bind, Option.bind_some,
          parseCreatorPidBytes_eq]
        cases creatorPid text with
        | none => rfl
        | some pid =>
          rw [Outcome.ofOption_some, Outcome.some_bind, usageTotal_eq h hreach]
          rfl

theorem client_usage (child : Option Blob) : client child = (usage child).map Usage.row := by
  cases child with
  | none => rfl
  | some buf =>
    obtain ⟨hsafe, hsound⟩ := parse_sound buf.bytes buf.ckpts
    have hclient : decode readUserClientBlob (some buf) = .some (client (some buf)) := client_eq _
    unfold decode at hclient
    dsimp only at hclient
    cases hparse : parse buf.bytes buf.ckpts with
    | fault f => exact absurd hparse (hsafe f)
    | none =>
      rw [hparse] at hclient
      have hnone : none = client (some buf) := by injection hclient
      rw [← hnone]
      simp [usage, hparse]
    | some bin =>
      rw [hparse] at hclient
      have hsome : (readUserClientBlob bin).toOption = client (some buf) := by
        rw [Outcome.attempt_some, Outcome.some_bind] at hclient
        dsimp only at hclient
        cases hrun : readUserClientBlob bin with
        | fault f => exact absurd hrun (readUserClientBlob_safe (hsound bin hparse) f)
        | none =>
          rw [hrun] at hclient
          injection hclient
        | some row =>
          rw [hrun] at hclient
          injection hclient
      rw [← hsome, readUserClientBlob_eq (hsound bin hparse), usage, Option.bind_eq_bind,
        Option.bind_some, hparse, Outcome.toOption_some, Option.bind_eq_bind, Option.bind_some]

theorem rows_usages (agxs : List Accelerator) :
    rows agxs =
      (agxs.flatMap fun agx => (agx.children.getD []).filterMap usage).map Usage.row := by
  have hclient : client = fun child => (usage child).map Usage.row := funext client_usage
  simp only [rows, hclient, List.map_flatMap, List.map_filterMap]

end Client

end Agx

end Ltop
