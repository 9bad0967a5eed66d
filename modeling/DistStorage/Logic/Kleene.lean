import Mathlib

/-!
# Three-valued logic

The strong Kleene connectives on `Option Bool`, where `none` is the unknown
value, and their `n`-ary forms over a list of arguments. A connective has a
value as soon as its known arguments determine it, except the exclusive or,
which is unknown as soon as one argument is.

The `n`-ary forms are folds of the binary ones, so appending argument lists is
combining the results; that is the law a flattening rewrite needs. De Morgan's
law relates `all` and `any` by negating every argument.
-/

namespace Kleene

def not : Option Bool → Option Bool :=
  Option.map (! ·)

def and : Option Bool → Option Bool → Option Bool
  | some false, _ => some false
  | _, some false => some false
  | some true, some true => some true
  | _, _ => none

def or : Option Bool → Option Bool → Option Bool
  | some true, _ => some true
  | _, some true => some true
  | some false, some false => some false
  | _, _ => none

def xor : Option Bool → Option Bool → Option Bool
  | some a, some b => some (a != b)
  | _, _ => none

def all (l : List (Option Bool)) : Option Bool := l.foldr and (some true)

def any (l : List (Option Bool)) : Option Bool := l.foldr or (some false)

def parity (l : List (Option Bool)) : Option Bool := l.foldr xor (some false)

@[simp] theorem not_none : not none = none := rfl

@[simp] theorem not_some (a : Bool) : not (some a) = some (!a) := rfl

@[simp] theorem not_not (a : Option Bool) : not (not a) = a := by
  cases a <;> simp

theorem not_and (a b : Option Bool) : not (and a b) = or (not a) (not b) := by
  rcases a with _ | _ | _ <;> rcases b with _ | _ | _ <;> rfl

theorem not_or (a b : Option Bool) : not (or a b) = and (not a) (not b) := by
  rcases a with _ | _ | _ <;> rcases b with _ | _ | _ <;> rfl

theorem and_assoc (a b c : Option Bool) : and (and a b) c = and a (and b c) := by
  rcases a with _ | _ | _ <;> rcases b with _ | _ | _ <;>
    rcases c with _ | _ | _ <;> rfl

theorem or_assoc (a b c : Option Bool) : or (or a b) c = or a (or b c) := by
  rcases a with _ | _ | _ <;> rcases b with _ | _ | _ <;>
    rcases c with _ | _ | _ <;> rfl

theorem xor_assoc (a b c : Option Bool) : xor (xor a b) c = xor a (xor b c) := by
  rcases a with _ | _ | _ <;> rcases b with _ | _ | _ <;>
    rcases c with _ | _ | _ <;> rfl

@[simp] theorem true_and (a : Option Bool) : and (some true) a = a := by
  rcases a with _ | _ | _ <;> rfl

@[simp] theorem false_or (a : Option Bool) : or (some false) a = a := by
  rcases a with _ | _ | _ <;> rfl

@[simp] theorem false_xor (a : Option Bool) : xor (some false) a = a := by
  rcases a with _ | _ | _ <;> rfl

/-- A fold of an associative operation with a left unit splits an appended
list. -/
theorem foldr_append_of_assoc {α : Type*} (f : α → α → α) (e : α)
    (assoc : ∀ a b c, f (f a b) c = f a (f b c)) (unit : ∀ a, f e a = a)
    (l r : List α) :
    (l ++ r).foldr f e = f (l.foldr f e) (r.foldr f e) := by
  induction l with
  | nil => simp [unit]
  | cons a l ih => simp only [List.cons_append, List.foldr_cons, ih, assoc]

theorem all_append (l r : List (Option Bool)) : all (l ++ r) = and (all l) (all r) :=
  foldr_append_of_assoc and (some true) and_assoc true_and l r

theorem any_append (l r : List (Option Bool)) : any (l ++ r) = or (any l) (any r) :=
  foldr_append_of_assoc or (some false) or_assoc false_or l r

theorem parity_append (l r : List (Option Bool)) :
    parity (l ++ r) = xor (parity l) (parity r) :=
  foldr_append_of_assoc xor (some false) xor_assoc false_xor l r

@[simp] theorem all_cons (a : Option Bool) (l : List (Option Bool)) :
    all (a :: l) = and a (all l) := rfl

@[simp] theorem any_cons (a : Option Bool) (l : List (Option Bool)) :
    any (a :: l) = or a (any l) := rfl

@[simp] theorem parity_cons (a : Option Bool) (l : List (Option Bool)) :
    parity (a :: l) = xor a (parity l) := rfl

@[simp] theorem all_singleton (a : Option Bool) : all [a] = a := by
  rcases a with _ | _ | _ <;> rfl

theorem all_pair (a b : Option Bool) : all [a, b] = and a b := by
  rw [all_cons, all_singleton]

@[simp] theorem any_singleton (a : Option Bool) : any [a] = a := by
  rcases a with _ | _ | _ <;> rfl

@[simp] theorem parity_singleton (a : Option Bool) : parity [a] = a := by
  rcases a with _ | _ | _ <;> rfl

/-- De Morgan's law over a list. -/
theorem not_all (l : List (Option Bool)) : not (all l) = any (l.map not) := by
  induction l with
  | nil => rfl
  | cons a l ih => rw [all_cons, not_and, ih, List.map_cons, any_cons]

/-- De Morgan's law over a list, in its dual form. -/
theorem not_any (l : List (Option Bool)) : not (any l) = all (l.map not) := by
  induction l with
  | nil => rfl
  | cons a l ih => rw [any_cons, not_or, ih, List.map_cons, all_cons]

end Kleene
