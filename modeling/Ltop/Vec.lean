import Mathlib

namespace Ltop

structure FVec (T : Type) where
  capacity : ℕ
  items : List T
  fits : items.length ≤ capacity

namespace FVec

variable {T : Type}

def new (capacity : ℕ) : FVec T := ⟨capacity, [], Nat.zero_le _⟩

def push (v : FVec T) (value : T) : FVec T × Option T :=
  if h : v.items.length < v.capacity then
    (⟨v.capacity, v.items ++ [value], by simpa using h⟩, none)
  else (v, some value)

def pop (v : FVec T) : Option (FVec T × T) :=
  v.items.getLast?.map fun x =>
    (⟨v.capacity, v.items.dropLast, by have := v.fits; simp; omega⟩, x)

def clear (v : FVec T) : FVec T := ⟨v.capacity, [], Nat.zero_le _⟩

def pushAll (v : FVec T) : List T → FVec T
  | [] => v
  | x :: xs => pushAll (v.push x).1 xs

@[simp] theorem new_items (n : ℕ) : (new n : FVec T).items = [] := rfl
@[simp] theorem new_capacity (n : ℕ) : (new n : FVec T).capacity = n := rfl
@[simp] theorem clear_items (v : FVec T) : v.clear.items = [] := rfl
@[simp] theorem clear_capacity (v : FVec T) : v.clear.capacity = v.capacity := rfl

@[simp] theorem push_capacity (v : FVec T) (x : T) : (v.push x).1.capacity = v.capacity := by
  unfold push
  split <;> rfl

theorem push_items {v : FVec T} (h : v.items.length < v.capacity) (x : T) :
    (v.push x).1.items = v.items ++ [x] := by
  simp [push, h]

theorem push_accepts {v : FVec T} (h : v.items.length < v.capacity) (x : T) :
    (v.push x).2 = none := by
  simp [push, h]

@[simp] theorem pushAll_capacity (v : FVec T) (xs : List T) :
    (v.pushAll xs).capacity = v.capacity := by
  induction xs generalizing v with
  | nil => rfl
  | cons x xs ih => rw [pushAll, ih, push_capacity]

theorem pushAll_items {v : FVec T} {xs : List T} (h : v.items.length + xs.length ≤ v.capacity) :
    (v.pushAll xs).items = v.items ++ xs := by
  induction xs generalizing v with
  | nil => simp [pushAll]
  | cons x xs ih =>
    rw [List.length_cons] at h
    have hp := push_items (v := v) (by omega) x
    rw [pushAll, ih (by rw [hp, push_capacity]; simp; omega), hp]
    simp

theorem pop_eq_none {v : FVec T} : v.pop = none ↔ v.items = [] := by
  simp [pop]

theorem pop_eq_some {v w : FVec T} {x : T} (h : v.pop = some (w, x)) :
    v.items = w.items ++ [x] ∧ w.capacity = v.capacity := by
  simp only [pop, Option.map_eq_some_iff, Prod.mk.injEq] at h
  obtain ⟨a, ha, rfl, rfl⟩ := h
  exact ⟨(List.dropLast_append_getLast? _ ha).symm, rfl⟩

def retain {S : Type} (keep : S → T → S × T × Bool) : S → List T → S × List T
  | s, [] => (s, [])
  | s, x :: xs => match keep s x with
    | (s', x', true) => match retain keep s' xs with
      | (s'', ys) => (s'', x' :: ys)
    | (s', _, false) => retain keep s' xs

theorem retain_length {S : Type} (keep : S → T → S × T × Bool) (s : S) (xs : List T) :
    (retain keep s xs).2.length ≤ xs.length := by
  induction xs generalizing s with
  | nil => simp [retain]
  | cons x xs ih =>
    rw [retain]
    generalize keep s x = p
    obtain ⟨s', x', b⟩ := p
    cases b with
    | true => simpa using ih s'
    | false => exact (ih s').trans (by simp)

def retainInPlace {S : Type} (v : FVec T) (keep : S → T → S × T × Bool) (s : S) : S × FVec T :=
  ((retain keep s v.items).1,
    ⟨v.capacity, (retain keep s v.items).2, (retain_length keep s v.items).trans v.fits⟩)

end FVec

end Ltop
