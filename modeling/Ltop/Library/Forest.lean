import Mathlib

inductive Forest (α : Type) where
  | nil
  | node (label : α) (kids rest : Forest α)
deriving DecidableEq

namespace Forest

variable {α β : Type}

def append : Forest α → Forest α → Forest α
  | nil, g => g
  | node a kids rest, g => node a kids (rest.append g)

def trees : Forest α → List (α × Forest α)
  | nil => []
  | node a kids rest => (a, kids) :: rest.trees

def labels : Forest α → List α
  | nil => []
  | node a kids rest => a :: (kids.labels ++ rest.labels)

def listing (d : ℤ) : Forest α → List (ℤ × α)
  | nil => []
  | node a kids rest => (d, a) :: (kids.listing (d + 1) ++ rest.listing d)

def contract (accept : Bool → α → Option β) (inside : Bool) : Forest α → Forest β
  | nil => nil
  | node a kids rest =>
    match accept inside a with
    | some b => node b (kids.contract accept true) (rest.contract accept inside)
    | none => (kids.contract accept inside).append (rest.contract accept inside)

@[simp] theorem append_nil (f : Forest α) : f.append nil = f := by
  induction f with
  | nil => rfl
  | node a kids rest _ ih => rw [append, ih]

theorem append_assoc (f g h : Forest α) : (f.append g).append h = f.append (g.append h) := by
  induction f with
  | nil => rfl
  | node a kids rest _ ih => rw [append, append, append, ih]

theorem labels_append (f g : Forest α) : (f.append g).labels = f.labels ++ g.labels := by
  induction f with
  | nil => rfl
  | node a kids rest _ ih =>
    rw [append, labels, labels, ih, List.cons_append, List.append_assoc]

theorem listing_labels (f : Forest α) (d : ℤ) : (f.listing d).map Prod.snd = f.labels := by
  induction f generalizing d with
  | nil => rfl
  | node a kids rest ihk ihr =>
    rw [listing, List.map_cons, List.map_append, ihk, ihr, labels]

theorem labels_contract {accept : Bool → α → Option β} {inside : Bool} {b : β} (f : Forest α)
    (h : b ∈ (f.contract accept inside).labels) :
    ∃ a ∈ f.labels, ∃ nested, accept nested a = some b := by
  induction f generalizing inside with
  | nil => cases h
  | node a kids rest ihk ihr =>
    have hkids : ∀ nested, b ∈ (kids.contract accept nested).labels →
        ∃ x ∈ (node a kids rest).labels, ∃ nested, accept nested x = some b := fun nested hb => by
      obtain ⟨x, hx, hacc⟩ := ihk hb
      exact ⟨x, List.mem_cons_of_mem _ (List.mem_append_left _ hx), hacc⟩
    have hrest : b ∈ (rest.contract accept inside).labels →
        ∃ x ∈ (node a kids rest).labels, ∃ nested, accept nested x = some b := fun hb => by
      obtain ⟨x, hx, hacc⟩ := ihr hb
      exact ⟨x, List.mem_cons_of_mem _ (List.mem_append_right _ hx), hacc⟩
    rw [contract] at h
    cases hacc : accept inside a with
    | none =>
      rw [hacc, labels_append] at h
      rcases List.mem_append.mp h with hb | hb
      · exact hkids inside hb
      · exact hrest hb
    | some c =>
      rw [hacc, labels] at h
      rcases List.mem_cons.mp h with rfl | h
      · exact ⟨a, List.mem_cons_self, inside, hacc⟩
      · rcases List.mem_append.mp h with hb | hb
        · exact hkids true hb
        · exact hrest hb

structure Frame (β : Type) where
  label : β
  kids : Forest β
  depth : ℤ
deriving DecidableEq

structure Build (β : Type) where
  stack : List (Frame β)
  out : Forest β
deriving DecidableEq

namespace Build

def attach (f : Forest β) : Build β → Build β
  | ⟨[], out⟩ => ⟨[], out.append f⟩
  | ⟨top :: stack, out⟩ => ⟨{ top with kids := top.kids.append f } :: stack, out⟩

def close (depth : ℤ) : List (Frame β) → Forest β → Forest β → Build β
  | [], done, out => ⟨[], out.append done⟩
  | top :: stack, done, out =>
    if top.depth < depth then ⟨{ top with kids := top.kids.append done } :: stack, out⟩
    else close depth stack (.node top.label (top.kids.append done) .nil) out

def settle (depth : ℤ) (s : Build β) : Build β := close depth s.stack .nil s.out

def visit (accept : Bool → α → Option β) (s : Build β) (event : ℤ × α) : Build β :=
  let s := s.settle event.1
  match accept (!s.stack.isEmpty) event.2 with
  | some b => { s with stack := ⟨b, .nil, event.1⟩ :: s.stack }
  | none => s

def Below (depth : ℤ) (s : Build β) : Prop := ∀ top ∈ s.stack.head?, top.depth < depth

variable {accept : Bool → α → Option β} {s : Build β} {d e : ℤ} {b : β}

theorem close_eq (d : ℤ) (stack : List (Frame β)) (done out : Forest β) :
    close d stack done out = settle d (attach done ⟨stack, out⟩) := by
  cases stack with
  | nil => rw [settle, attach, close, close, append_nil]
  | cons top stack => rw [settle, attach, close, close, append_nil]

theorem settle_below (h : s.Below d) : s.settle d = s := by
  obtain ⟨stack, out⟩ := s
  cases stack with
  | nil => rw [settle, close, append_nil]
  | cons top stack =>
    have htop : top.depth < d := h top rfl
    rw [settle, close, if_pos htop, append_nil]

theorem settle_cons (top : Frame β) (stack : List (Frame β)) (out : Forest β)
    (h : ¬ top.depth < d) :
    settle d ⟨top :: stack, out⟩ = settle d (attach (.node top.label top.kids .nil) ⟨stack, out⟩) := by
  rw [settle, close, if_neg h, append_nil, close_eq]

theorem attach_below (h : s.Below d) (f : Forest β) : (s.attach f).Below d := by
  obtain ⟨stack, out⟩ := s
  cases stack with
  | nil => exact fun top ht => nomatch ht
  | cons top stack =>
    intro top' ht
    cases ht
    exact h top rfl

theorem attach_open (s : Build β) (f : Forest β) : (s.attach f).stack.isEmpty = s.stack.isEmpty := by
  obtain ⟨stack, out⟩ := s
  cases stack <;> rfl

@[simp] theorem attach_nil (s : Build β) : s.attach .nil = s := by
  obtain ⟨stack, out⟩ := s
  cases stack <;> simp [attach]

theorem attach_attach (s : Build β) (f g : Forest β) :
    (s.attach f).attach g = s.attach (f.append g) := by
  obtain ⟨stack, out⟩ := s
  cases stack <;> simp [attach, append_assoc]

theorem close_settle (hde : d ≤ e) (stack : List (Frame β)) (done out : Forest β) :
    (close e stack done out).settle d = close d stack done out := by
  induction stack generalizing done with
  | nil => simp [close, settle]
  | cons top stack ih =>
    rw [close, close]
    by_cases he : top.depth < e
    · rw [if_pos he, settle, close, append_nil]
    · rw [if_neg he, if_neg (by omega), ih]

theorem settle_settle (hde : d ≤ e) (s : Build β) : (s.settle e).settle d = s.settle d :=
  close_settle hde s.stack .nil s.out

theorem settle_frame (h : s.Below d) (f : Forest β) :
    ({ s with stack := ⟨b, f, d⟩ :: s.stack } : Build β).settle d = s.attach (.node b f .nil) := by
  rw [settle_cons _ _ _ (Int.lt_irrefl d)]
  exact settle_below (attach_below h _)

theorem visit_settle (hde : d ≤ e) (s : Build β) (a : α) :
    visit accept (s.settle e) (d, a) = visit accept s (d, a) := by
  simp only [visit, settle_settle hde]

theorem foldl_settle (hde : d ≤ e) (s : Build β) (f : Forest α) :
    (((f.listing d).foldl (visit accept) (s.settle e)).settle d) =
      ((f.listing d).foldl (visit accept) s).settle d := by
  cases f with
  | nil => exact settle_settle hde s
  | node a kids rest => rw [listing, List.foldl_cons, List.foldl_cons, visit_settle hde]

theorem build_listing (f : Forest α) (h : s.Below d) :
    ((f.listing d).foldl (visit accept) s).settle d =
      s.attach (f.contract accept (!s.stack.isEmpty)) := by
  induction f generalizing s d with
  | nil => rw [listing, List.foldl_nil, settle_below h, contract, attach_nil]
  | node a kids rest ihk ihr =>
    have hup : s.Below (d + 1) := fun top ht => (h top ht).trans (Int.lt_succ d)
    rw [listing, List.foldl_cons, List.foldl_append, contract, ← foldl_settle (Int.le_add_one le_rfl)]
    cases hacc : accept (!s.stack.isEmpty) a with
    | none =>
      have hvisit : visit accept s (d, a) = s := by simp [visit, settle_below h, hacc]
      rw [hvisit, ihk hup, ihr (attach_below h _), attach_open, attach_attach]
    | some b =>
      have hvisit : visit accept s (d, a) = { s with stack := ⟨b, .nil, d⟩ :: s.stack } := by
        simp [visit, settle_below h, hacc]
      have hnew : ({ s with stack := ⟨b, .nil, d⟩ :: s.stack } : Build β).Below (d + 1) :=
        fun top ht => Option.some.inj ht ▸ Int.lt_succ d
      have hkids : ({ s with stack := ⟨b, .nil, d⟩ :: s.stack } : Build β).attach
          (kids.contract accept true) =
          { s with stack := ⟨b, kids.contract accept true, d⟩ :: s.stack } := rfl
      have hopen := ihk hnew
      rw [List.isEmpty_cons, Bool.not_false, hkids] at hopen
      rw [hvisit, hopen, ← foldl_settle le_rfl, settle_frame h, ihr (attach_below h _), attach_open,
        attach_attach]
      rfl

end Build

end Forest
