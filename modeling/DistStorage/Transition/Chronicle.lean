import Mathlib

/-!
# Logs whose entries have grounds in their past

`Justified R log` says that every entry of a log stands in the relation `R` to
the entries before it. A log grows at its end, so entries that have grounds in
every extension of the log so far may be added to it.
-/

namespace Transition

/-- Every entry of the log is related to the entries before it. -/
def Justified {ε : Type*} (R : List ε → ε → Prop) (log : List ε) : Prop :=
  ∀ pre e post, log = pre ++ e :: post → R pre e

theorem justified_nil {ε : Type*} (R : List ε → ε → Prop) : Justified R [] := by
  intro pre e post h
  simp at h

theorem Justified.concat {ε : Type*} {R : List ε → ε → Prop} {log : List ε} {e : ε}
    (h : Justified R log) (he : R log e) : Justified R (log ++ [e]) := by
  intro pre e' post heq
  rcases List.eq_nil_or_concat post with rfl | ⟨init, last, rfl⟩
  · obtain ⟨rfl, hlast⟩ := List.append_inj' heq rfl
    obtain rfl := List.singleton_inj.mp hlast
    exact he
  · rw [List.concat_eq_append, ← List.cons_append, ← List.append_assoc] at heq
    exact h pre e' init (List.append_inj' heq rfl).1

/-- Entries with grounds in every extension of a log may be added to it. -/
theorem Justified.append {ε : Type*} {R : List ε → ε → Prop} {log es : List ε}
    (h : Justified R log) (hes : ∀ e ∈ es, ∀ pre, log <+: pre → R pre e) :
    Justified R (log ++ es) := by
  induction es generalizing log with
  | nil =>
      rw [List.append_nil]
      exact h
  | cons e es ih =>
      rw [← List.singleton_append, ← List.append_assoc]
      refine ih (h.concat (hes e List.mem_cons_self log List.prefix_rfl)) ?_
      intro e' he' pre hpre
      exact hes e' (List.mem_cons_of_mem e he') pre ((List.prefix_append _ _).trans hpre)

theorem Justified.of_mem {ε : Type*} {R : List ε → ε → Prop} {log : List ε} {e : ε}
    (h : Justified R log) (he : e ∈ log) :
    ∃ pre post, log = pre ++ e :: post ∧ R pre e := by
  obtain ⟨pre, post, heq⟩ := List.append_of_mem he
  exact ⟨pre, post, heq, h pre e post heq⟩

end Transition
