import Mathlib

/-!
# Functions of any number of arguments

A function of the multiset of its arguments is flat if an argument that is
itself a value of the function may be replaced by the arguments it is a value
of. A fold of a commutative and associative operation with a neutral element is
flat. Such an operation is still one when null arguments are added to it, be it
that they make the result null (`Option.map₂`) or are skipped (`Option.merge`).
-/

namespace NAry

section Strict

variable {α : Type*} (op : α → α → α)

instance commutative_map₂ [Std.Commutative op] : Std.Commutative (Option.map₂ op) :=
  ⟨fun a b => by
    have hcomm : ∀ a b : α, op a b = op b a := Std.Commutative.comm
    cases a <;> cases b <;> simp [hcomm]⟩

instance associative_map₂ [Std.Associative op] : Std.Associative (Option.map₂ op) :=
  ⟨fun a b c => by
    have hassoc : ∀ a b c : α, op (op a b) c = op a (op b c) := Std.Associative.assoc
    cases a <;> cases b <;> cases c <;> simp [hassoc]⟩

instance lawfulIdentity_map₂ (e : α) [Std.LawfulIdentity op e] :
    Std.LawfulIdentity (Option.map₂ op) (some e) where
  left_id a := by
    have hleft : ∀ a : α, op e a = a := Std.LawfulLeftIdentity.left_id
    cases a <;> simp [hleft]
  right_id a := by
    have hright : ∀ a : α, op a e = a := Std.LawfulRightIdentity.right_id
    cases a <;> simp [hright]

end Strict

def Flat {α : Type*} (F : Multiset α → α) : Prop :=
  ∀ s t, F (F s ::ₘ t) = F (s + t)

theorem flat_fold {α : Type*} (op : α → α → α) [Std.Commutative op] [Std.Associative op]
    (e : α) [Std.LawfulIdentity op e] : Flat (Multiset.fold op e) := by
  intro s t
  have hleft : ∀ a : α, op e a = a := Std.LawfulLeftIdentity.left_id
  have hsplit := Multiset.fold_add op e e s t
  rw [hleft] at hsplit
  rw [Multiset.fold_cons_left, hsplit]

/-- Arguments that are values of the function, or are kept, may be replaced one by
one. -/
theorem Flat.flatMap {α ι : Type*} {F : Multiset α → α} (h : Flat F) {v : ι → α}
    {expand : ι → List ι} {l : List ι}
    (hexpand : ∀ i ∈ l, expand i = [i] ∨ v i = F ((expand i).map v)) :
    F ((l.flatMap expand).map v) = F (l.map v) := by
  suffices hacc : ∀ t : Multiset α,
      F (((l.flatMap expand).map v : Multiset α) + t) = F ((l.map v : Multiset α) + t) by
    simpa using hacc 0
  induction l with
  | nil => simp
  | cons i l ih =>
      intro t
      have ih := ih fun j hj => hexpand j (List.mem_cons_of_mem i hj)
      have hsplit : (((i :: l).flatMap expand).map v : Multiset α) + t =
          ((l.flatMap expand).map v : Multiset α) + (((expand i).map v : Multiset α) + t) := by
        rw [List.flatMap_cons, List.map_append, ← Multiset.coe_add]
        abel
      have hcons : ((i :: l).map v : Multiset α) + t =
          v i ::ₘ ((l.map v : Multiset α) + t) := by
        rw [List.map_cons, ← Multiset.cons_coe, Multiset.cons_add]
      rw [hsplit, ih, hcons]
      rcases hexpand i List.mem_cons_self with hi | hi
      · rw [hi, List.map_singleton, Multiset.coe_singleton, Multiset.singleton_add,
          Multiset.add_cons]
      · rw [hi, h]
        congr 1
        abel

end NAry
