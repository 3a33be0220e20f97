import Mathlib

inductive Fault where
  | index
  | overflow
  | divide
  | spin
deriving DecidableEq

inductive Outcome (α : Type) where
  | fault (f : Fault)
  | none
  | some (a : α)
deriving DecidableEq

namespace Outcome

variable {α β : Type}

def bind (x : Outcome α) (g : α → Outcome β) : Outcome β :=
  match x with
  | .fault f => .fault f
  | .none => .none
  | .some a => g a

instance : Monad Outcome where
  pure := .some
  bind := bind

def attempt (x : Outcome α) : Outcome (Option α) :=
  match x with
  | .fault f => .fault f
  | .none => .some Option.none
  | .some a => .some (Option.some a)

def ofOption (x : Option α) : Outcome α := x.elim .none .some

def getD (x : Outcome α) (a : α) : α :=
  match x with
  | .some b => b
  | _ => a

def toOption (x : Outcome α) : Option α :=
  match x with
  | .some a => Option.some a
  | _ => Option.none

def Safe (x : Outcome α) : Prop := ∀ f, x ≠ .fault f

@[simp] theorem some_bind (a : α) (g : α → Outcome β) : (Outcome.some a >>= g) = g a := rfl
@[simp] theorem none_bind (g : α → Outcome β) : ((Outcome.none : Outcome α) >>= g) = .none := rfl
@[simp] theorem fault_bind (f : Fault) (g : α → Outcome β) :
    ((Outcome.fault f : Outcome α) >>= g) = .fault f := rfl
@[simp] theorem pure_eq (a : α) : (pure a : Outcome α) = .some a := rfl
@[simp] theorem getD_none (a : α) : getD .none a = a := rfl
@[simp] theorem toOption_some (a : α) : toOption (.some a) = Option.some a := rfl
@[simp] theorem toOption_none : toOption (.none : Outcome α) = Option.none := rfl
@[simp] theorem attempt_some (a : α) : attempt (.some a) = .some (Option.some a) := rfl
@[simp] theorem attempt_none : attempt (.none : Outcome α) = .some Option.none := rfl
@[simp] theorem ofOption_some (a : α) : ofOption (Option.some a) = .some a := rfl
@[simp] theorem ofOption_none : ofOption (Option.none : Option α) = .none := rfl

theorem bind_eq_some {x : Outcome α} {g : α → Outcome β} {b : β} :
    (x >>= g) = .some b ↔ ∃ a, x = .some a ∧ g a = .some b := by
  cases x <;> simp

@[simp] theorem safe_some (a : α) : Safe (.some a) := fun _ h => by cases h

@[simp] theorem safe_none : Safe (.none : Outcome α) := fun _ h => by cases h

theorem Safe.bind {x : Outcome α} {g : α → Outcome β} (hx : x.Safe)
    (hg : ∀ a, x = .some a → (g a).Safe) : (x >>= g).Safe := by
  cases x with
  | fault f => exact absurd rfl (hx f)
  | none => exact safe_none
  | some a => exact hg a rfl

theorem Safe.attempt {x : Outcome α} (hx : x.Safe) : x.attempt.Safe := by
  cases x with
  | fault f => exact absurd rfl (hx f)
  | none => exact safe_some _
  | some a => exact safe_some _

theorem attempt_eq_some {x : Outcome α} {a : α} :
    x.attempt = .some (Option.some a) ↔ x = .some a := by
  cases x <;> simp [Outcome.attempt]

theorem Safe.total {x : Outcome α} (hx : x.Safe) : ∃ a, x.attempt = .some a := by
  cases x with
  | fault f => exact absurd rfl (hx f)
  | none => exact ⟨Option.none, rfl⟩
  | some a => exact ⟨Option.some a, rfl⟩

theorem safe_ofOption (x : Option α) : (ofOption x).Safe := by
  cases x with
  | none => exact safe_none
  | some a => exact safe_some a

theorem safe_foldlM {f : β → α → Outcome β} {as : List α} (b : β)
    (h : ∀ b, ∀ a ∈ as, (f b a).Safe) : (as.foldlM f b).Safe := by
  induction as generalizing b with
  | nil => exact safe_some b
  | cons a as ih =>
    obtain ⟨hhead, htail⟩ := And.intro (fun b => h b a List.mem_cons_self)
      fun b x hx => h b x (List.mem_cons_of_mem a hx)
    rw [List.foldlM_cons]
    exact (hhead b).bind fun b' _ => ih b' htail

@[simp] theorem attempt_ofOption (x : Option α) : attempt (ofOption x) = .some x := by
  cases x <;> rfl

inductive Rel (R : α → β → Prop) : Outcome α → Option β → Prop where
  | none : Rel R .none Option.none
  | some {a : α} {b : β} : R a b → Rel R (.some a) (Option.some b)

theorem Rel.of_some {R : α → β → Prop} {x : Outcome α} {b : β} (h : Rel R x (Option.some b)) :
    ∃ a, x = .some a ∧ R a b := by
  cases h with
  | some hab => exact ⟨_, rfl, hab⟩

end Outcome
