import Mathlib
import Ltop.LabelNames

namespace Ltop.Label

open Numeral PidDir

variable {n : ℕ} {t : ProcessTable} {read : List UInt8 → Option (List UInt8)}
  {rows rows' : Table .linux n} {o : Swept n} {i : Fin n} {p s p' s' name content : List UInt8}
  {names : List (List UInt8)} {pid : UInt32} {start : UInt64}

structure Claims (name : List UInt8) (pid : UInt32) (start : UInt64) : Prop where
  next : next name = some (pid, start)
  started : start ≠ NO_START

def Unlinks (t : ProcessTable) (name : List UInt8) : Prop :=
  ∃ pid start, Claims name pid start ∧ startTime t pid name ≠ some start

def Opens (t : ProcessTable) (rows : Table .linux n) (name : List UInt8) (i : Fin n) : Prop :=
  First rows i ∧ ∃ start, Claims name (rows i).pid start ∧
    startTime t (rows i).pid name = some start

def Stale (t : ProcessTable) (name : List UInt8) : Prop :=
  ∃ pid start, Names name pid start ∧ ¬ t.Live pid start

def shown (read : List UInt8 → Option (List UInt8)) (rows : Table .linux n) (name : List UInt8)
    (i : Fin n) : Table .linux n :=
  match read name with
  | none => rows
  | some content =>
    if content = [] then rows
    else Function.update rows i { rows i with display := sanitised content }

theorem find_first : (List.finRange n).find? (fun i => (rows i).pid = pid) = some i ↔
    First rows i ∧ (rows i).pid = pid := by
  rw [List.find?_eq_some_iff_append]
  constructor
  · rintro ⟨hpid, before, after, hsplit, hbefore⟩
    have hrow : (rows i).pid = pid := by simpa using hpid
    refine ⟨fun j hj => ?_, hrow⟩
    have hsorted : (before ++ i :: after).Pairwise (· < ·) := hsplit ▸ List.pairwise_lt_finRange n
    have hin : j ∈ before := by
      have hall : j ∈ before ++ i :: after := hsplit ▸ List.mem_finRange j
      rcases List.mem_append.mp hall with hin | hin
      · exact hin
      · rcases List.mem_cons.mp hin with rfl | hin
        · exact absurd hj (lt_irrefl _)
        · have hlt := (List.pairwise_cons.mp (List.pairwise_append.mp hsorted).2.1).1 j hin
          exact absurd hj hlt.asymm
    have := hbefore j hin
    rw [hrow]
    simpa using this
  · rintro ⟨hfirst, rfl⟩
    obtain ⟨before, after, hsplit⟩ := List.append_of_mem (List.mem_finRange i)
    have hsorted : (before ++ i :: after).Pairwise (· < ·) := hsplit ▸ List.pairwise_lt_finRange n
    refine ⟨by simp, before, after, hsplit, fun j hj => ?_⟩
    have hlt := (List.pairwise_append.mp hsorted).2.2 j hj i List.mem_cons_self
    simpa using hfirst j hlt

theorem line_eq (s : List UInt8) :
    line s = (s.takeWhile (· ≠ 10)).filter fun c => c ≥ 32 ∧ c ≠ 0x7f := by
  induction s with
  | nil => rfl
  | cons c s ih =>
    rw [line]
    by_cases hc : c = 10
    · rw [if_pos hc, List.takeWhile_cons_of_neg (by simpa using hc), List.filter_nil]
    · rw [if_neg hc, List.takeWhile_cons_of_pos (by simpa using hc), ih]
      by_cases hkeep : c ≥ 32 ∧ c ≠ 0x7f
      · rw [if_pos hkeep, List.filter_cons_of_pos (by simpa using hkeep)]
      · rw [if_neg hkeep, List.filter_cons_of_neg (by simpa using hkeep)]

theorem sanitised_length (content : List UInt8) : (sanitised content).length ≤ LABEL_MAX := by
  calc (sanitised content).length ≤ ((content.take LABEL_MAX).takeWhile (· ≠ 10)).length :=
        List.length_filter_le _ _
    _ ≤ (content.take LABEL_MAX).length := List.takeWhile_sublist _ |>.length_le
    _ ≤ LABEL_MAX := List.length_take_le _ _

theorem line_take (content : List UInt8) :
    (line (content.take LABEL_MAX)).take MAX_LEN = sanitised content := by
  have hline : line (content.take LABEL_MAX) = sanitised content := line_eq _
  rw [hline]
  exact List.take_of_length_le ((sanitised_length content).trans (by decide))

variable (t read) in
theorem visit_cases (o : Swept n) (name : List UInt8) :
    (¬ Unlinks t name ∧ (∀ i, ¬ Opens t o.rows name i) ∧ visit t read o name = o) ∨
    (Unlinks t name ∧ (∀ i, ¬ Opens t o.rows name i) ∧
      visit t read o name = { o with unlinked := o.unlinked ++ [name] }) ∨
    ∃ i, ¬ Unlinks t name ∧ (∀ j, Opens t o.rows name j ↔ j = i) ∧
      visit t read o name = ⟨shown read o.rows name i, o.unlinked, o.opened ++ [name]⟩ := by
  have huniq : ∀ {pid pid' start start'}, next name = some (pid, start) → Claims name pid' start' →
      pid' = pid ∧ start' = start := fun h h' => by
    obtain ⟨rfl, rfl⟩ := Prod.mk.inj (Option.some.inj (h'.next.symm.trans h))
    exact ⟨rfl, rfl⟩
  cases hnext : next name with
  | none =>
    refine .inl ⟨?_, ?_, ?_⟩
    · rintro ⟨pid, start, hclaims, -⟩
      exact absurd (hclaims.next.symm.trans hnext) (by simp)
    · rintro i ⟨-, start, hclaims, -⟩
      exact absurd (hclaims.next.symm.trans hnext) (by simp)
    · simp only [visit, hnext]
  | some entry =>
    obtain ⟨pid, start⟩ := entry
    by_cases hstart : start = NO_START
    · refine .inl ⟨?_, ?_, ?_⟩
      · rintro ⟨pid', start', hclaims, -⟩
        exact hclaims.started ((huniq hnext hclaims).2.trans hstart)
      · rintro i ⟨-, start', hclaims, -⟩
        exact hclaims.started ((huniq hnext hclaims).2.trans hstart)
      · simp only [visit, hnext, if_pos hstart]
    · by_cases htime : startTime t pid name = some start
      · have hkeep : ¬ Unlinks t name := by
          rintro ⟨pid', start', hclaims, hstale⟩
          obtain ⟨rfl, rfl⟩ := huniq hnext hclaims
          exact hstale htime
        cases hfind : (List.finRange n).find? fun i => (o.rows i).pid = pid with
        | none =>
          refine .inl ⟨hkeep, ?_, ?_⟩
          · rintro i ⟨-, start', hclaims, -⟩
            have hpid := (huniq hnext hclaims).1
            have := List.find?_eq_none.mp hfind i (List.mem_finRange i)
            simp [hpid] at this
          · simp only [visit, hnext, if_neg hstart, htime, ne_eq, not_true, if_false, hfind]
        | some i =>
          obtain ⟨hfirst, hpid⟩ := find_first.mp hfind
          refine .inr (.inr ⟨i, hkeep, fun j => ⟨?_, ?_⟩, ?_⟩)
          · rintro ⟨hj, start', hclaims, -⟩
            have hj' := find_first.mpr ⟨hj, (huniq hnext hclaims).1⟩
            exact Option.some.inj (hj'.symm.trans hfind)
          · rintro rfl
            exact ⟨hfirst, start, ⟨hpid ▸ hnext, hstart⟩, hpid ▸ htime⟩
          · simp only [visit, hnext, if_neg hstart, htime, ne_eq, not_true, if_false, hfind, shown]
            cases read name with
            | none => rfl
            | some content =>
              have htake : content.take LABEL_MAX = [] ↔ content = [] := by
                simp [List.take_eq_nil_iff, LABEL_MAX]
              simp only [htake, line_take]
              split <;> rfl
      · refine .inr (.inl ⟨⟨pid, start, ⟨hnext, hstart⟩, htime⟩, ?_, ?_⟩)
        · rintro i ⟨-, start', hclaims, hkept⟩
          obtain ⟨hrow, rfl⟩ := huniq hnext hclaims
          exact htime (hrow ▸ hkept)
        · simp only [visit, hnext, if_neg hstart, ne_eq, htime, not_false_eq_true, if_true]

theorem shown_pid (j : Fin n) : (shown read rows name i j).pid = (rows j).pid := by
  simp only [shown]
  cases read name with
  | none => rfl
  | some content =>
    dsimp only
    split
    · rfl
    · by_cases h : j = i
      · rw [h, Function.update_self]
      · rw [Function.update_of_ne h]

theorem first_congr (h : ∀ j, (rows j).pid = (rows' j).pid) : First rows i ↔ First rows' i := by
  unfold First
  simp only [h]

theorem opens_congr (h : ∀ j, (rows j).pid = (rows' j).pid) :
    Opens t rows name i ↔ Opens t rows' name i := by
  unfold Opens
  rw [first_congr h, h i]

theorem visit_pid (j : Fin n) : ((visit t read o name).rows j).pid = (o.rows j).pid := by
  rcases visit_cases t read o name with ⟨-, -, h⟩ | ⟨-, -, h⟩ | ⟨i, -, -, h⟩
  · rw [h]
  · rw [h]
  · rw [h]
    exact shown_pid j

theorem visit_unlinked (o : Swept n) (first : List UInt8) :
    name ∈ (visit t read o first).unlinked ↔ name ∈ o.unlinked ∨ name = first ∧ Unlinks t name := by
  have hiff : name = first ∧ Unlinks t name ↔ name = first ∧ Unlinks t first :=
    and_congr_right fun h => by rw [h]
  rw [hiff]
  rcases visit_cases t read o first with
    ⟨hno, -, h⟩ | ⟨hyes, -, h⟩ | ⟨i, hno, -, h⟩
  · simp [h, hno]
  · simp [h, hyes]
  · simp [h, hno]

theorem visit_opened (o : Swept n) (first : List UInt8) :
    name ∈ (visit t read o first).opened ↔
      name ∈ o.opened ∨ name = first ∧ ∃ i, Opens t o.rows name i := by
  have hiff : (name = first ∧ ∃ i, Opens t o.rows name i) ↔
      name = first ∧ ∃ i, Opens t o.rows first i := and_congr_right fun h => by rw [h]
  rw [hiff]
  rcases visit_cases t read o first with
    ⟨-, hno, h⟩ | ⟨-, hno, h⟩ | ⟨i, -, hyes, h⟩
  · simp [h, hno]
  · simp [h, hno]
  · simp [h, hyes]

theorem run_unlinked (o : Swept n) (names : List (List UInt8)) :
    name ∈ (names.foldl (visit t read) o).unlinked ↔
      name ∈ o.unlinked ∨ name ∈ names ∧ Unlinks t name := by
  induction names generalizing o with
  | nil => simp
  | cons first names ih =>
    rw [List.foldl_cons, ih, visit_unlinked, List.mem_cons, or_and_right, or_assoc]

theorem run_opened (o : Swept n) (names : List (List UInt8)) :
    name ∈ (names.foldl (visit t read) o).opened ↔
      name ∈ o.opened ∨ name ∈ names ∧ ∃ i, Opens t o.rows name i := by
  induction names generalizing o with
  | nil => simp
  | cons first names ih =>
    have hopens : ∀ i, Opens t (visit t read o first).rows name i ↔ Opens t o.rows name i :=
      fun i => opens_congr visit_pid
    rw [List.foldl_cons, ih, visit_opened, List.mem_cons, or_and_right, or_assoc]
    simp only [hopens]

structure Shows (t : ProcessTable) (read : List UInt8 → Option (List UInt8))
    (rows : Table .linux n) (i : Fin n) (name content : List UInt8) : Prop where
  opens : Opens t rows name i
  readable : read name = some content
  nonempty : content ≠ []

theorem shows_congr (h : ∀ j, (rows j).pid = (rows' j).pid) :
    Shows t read rows i name content ↔ Shows t read rows' i name content :=
  ⟨fun hs => ⟨(opens_congr h).mp hs.opens, hs.readable, hs.nonempty⟩,
    fun hs => ⟨(opens_congr h).mpr hs.opens, hs.readable, hs.nonempty⟩⟩

variable (t read) in
theorem visit_row (o : Swept n) (name : List UInt8) (i : Fin n) :
    ((∀ content, ¬ Shows t read o.rows i name content) ∧
      (visit t read o name).rows i = o.rows i) ∨
    ∃ content, Shows t read o.rows i name content ∧
      (visit t read o name).rows i = { o.rows i with display := sanitised content } := by
  rcases visit_cases t read o name with
    ⟨-, hno, h⟩ | ⟨-, hno, h⟩ | ⟨j, -, hiff, h⟩
  · exact .inl ⟨fun content hs => hno i hs.opens, by rw [h]⟩
  · exact .inl ⟨fun content hs => hno i hs.opens, by rw [h]⟩
  · rw [h]
    by_cases hij : i = j
    · subst hij
      cases hread : read name with
      | none =>
        refine .inl ⟨fun content hs => ?_, by simp only [shown, hread]⟩
        exact absurd (hs.readable.symm.trans hread) (by simp)
      | some content =>
        by_cases hempty : content = []
        · refine .inl ⟨fun content' hs => ?_, by simp only [shown, hread, if_pos hempty]⟩
          have hsame := Option.some.inj (hs.readable.symm.trans hread)
          exact hs.nonempty (hsame.trans hempty)
        · refine .inr ⟨content, ⟨(hiff i).mpr rfl, hread, hempty⟩, ?_⟩
          simp only [shown, hread, if_neg hempty, Function.update_self]
    · refine .inl ⟨fun content hs => hij ((hiff i).mp hs.opens), ?_⟩
      simp only [shown]
      cases read name with
      | none => rfl
      | some content =>
        dsimp only
        split
        · rfl
        · exact Function.update_of_ne hij _ _

variable (t read) in
theorem run_row (o : Swept n) (names : List (List UInt8)) (i : Fin n) :
    ((∀ name ∈ names, ∀ content, ¬ Shows t read o.rows i name content) ∧
      (names.foldl (visit t read) o).rows i = o.rows i) ∨
    ∃ name ∈ names, ∃ content, Shows t read o.rows i name content ∧
      (names.foldl (visit t read) o).rows i = { o.rows i with display := sanitised content } := by
  induction names generalizing o with
  | nil => exact .inl ⟨fun name hin => absurd hin List.not_mem_nil, rfl⟩
  | cons first names ih =>
    have hcongr : ∀ name content, Shows t read (visit t read o first).rows i name content ↔
        Shows t read o.rows i name content := fun name content => shows_congr visit_pid
    rw [List.foldl_cons]
    rcases ih (visit t read o first) with ⟨hno, h⟩ | ⟨name, hin, content, hs, h⟩
    · rw [h]
      rcases visit_row t read o first i with ⟨hnot, hv⟩ | ⟨content, hs, hv⟩
      · refine .inl ⟨fun name hin content hs => ?_, hv⟩
        rcases List.mem_cons.mp hin with rfl | hin
        · exact hnot content hs
        · exact hno name hin content ((hcongr name content).mpr hs)
      · exact .inr ⟨first, List.mem_cons_self, content, hs, hv⟩
    · refine .inr ⟨name, List.mem_cons_of_mem _ hin, content, (hcongr name content).mp hs, ?_⟩
      rw [h]
      rcases visit_row t read o first i with ⟨-, hv⟩ | ⟨_, -, hv⟩
      · rw [hv]
      · rw [hv]

theorem apply_eq (dir : Option (List (List UInt8))) (rows : Table .linux n) :
    apply t read dir rows = (dir.getD []).foldl (visit t read) ⟨rows, [], []⟩ := by
  cases dir <;> rfl

end Ltop.Label
