import Mathlib

/-!
# Computations that keep a log

A computation notes entries on its way, and ends with a value or at an undefined
step. `Ensures P Q m` says that it ends with a value of which `Q` holds and that
`P` holds of every entry that it notes.
-/

namespace Cpp

structure Logged (E α : Type) where
  log : List E
  value : Option α

namespace Logged

variable {E α β : Type}

instance : Monad (Logged E) where
  pure a := ⟨[], some a⟩
  bind m f :=
    ⟨m.log ++ m.value.elim [] fun a => (f a).log, m.value.bind fun a => (f a).value⟩

def note (e : E) : Logged E Unit := ⟨[e], some ()⟩

def ofOption (a : Option α) : Logged E α := ⟨[], a⟩

theorem value_bind (m : Logged E α) (f : α → Logged E β) :
    (m >>= f).value = m.value.bind fun a => (f a).value := rfl

theorem value_ofOption_bind_pure (o : Option α) (f : α → β) :
    (ofOption o >>= fun a => (pure (f a) : Logged E β)).value = o.map f := by
  cases o <;> rfl

theorem log_bind_of_value {m : Logged E α} {a : α} (h : m.value = some a) (f : α → Logged E β) :
    (m >>= f).log = m.log ++ (f a).log := by
  change m.log ++ m.value.elim [] (fun a => (f a).log) = _
  rw [h]
  rfl

theorem mem_log_bind {m : Logged E α} {f : α → Logged E β} {e : E} :
    e ∈ (m >>= f).log ↔ e ∈ m.log ∨ ∃ a, m.value = some a ∧ e ∈ (f a).log := by
  change e ∈ m.log ++ m.value.elim [] (fun a => (f a).log) ↔ _
  rw [List.mem_append]
  cases m.value <;> simp

theorem bind_congr_of_value {m : Logged E α} {f g : α → Logged E β}
    (h : ∀ a, m.value = some a → f a = g a) : m >>= f = m >>= g := by
  change (⟨m.log ++ m.value.elim [] fun a => (f a).log, m.value.bind fun a => (f a).value⟩ :
    Logged E β) = ⟨m.log ++ m.value.elim [] fun a => (g a).log, m.value.bind fun a => (g a).value⟩
  cases hm : m.value with
  | none => rfl
  | some a => simp only [Option.elim_some, Option.bind_some, h a hm]

theorem value_foldlM (f : α → β → Logged E α) (l : List β) (a : α) :
    (l.foldlM f a).value = l.foldlM (fun a b => (f a b).value) a := by
  induction l generalizing a with
  | nil => rfl
  | cons b l ih =>
      rw [List.foldlM_cons, List.foldlM_cons, value_bind, funext ih]
      rfl

/-- Loops whose bodies agree where `P` holds, when the bodies keep `P`. -/
theorem foldlM_congr {P : α → Prop} {f g : α → β → Logged E α} {l : List β}
    (hfg : ∀ a, P a → ∀ b ∈ l, f a b = g a b)
    (hP : ∀ a, P a → ∀ b ∈ l, ∀ a', (g a b).value = some a' → P a') {a : α} (ha : P a) :
    l.foldlM f a = l.foldlM g a := by
  induction l generalizing a with
  | nil => rfl
  | cons b l ih =>
      rw [List.foldlM_cons, List.foldlM_cons, hfg a ha b List.mem_cons_self]
      refine bind_congr_of_value fun a' ha' => ?_
      exact ih (fun a ha b' hb' => hfg a ha b' (List.mem_cons_of_mem b hb'))
        (fun a ha b' hb' => hP a ha b' (List.mem_cons_of_mem b hb'))
        (hP a ha b List.mem_cons_self a' ha')

/-- The computation has a value with `Q`, and all its entries have `P`. -/
structure Ensures (P : E → Prop) (Q : α → Prop) (m : Logged E α) : Prop where
  entries : ∀ e ∈ m.log, P e
  returns : ∃ a, m.value = some a ∧ Q a

variable {P : E → Prop} {Q : α → Prop} {R : β → Prop}

theorem Ensures.pure {a : α} (h : Q a) : Ensures P Q (Pure.pure a : Logged E α) :=
  ⟨fun _ he => absurd he List.not_mem_nil, a, rfl, h⟩

theorem Ensures.note {e : E} (h : P e) : Ensures P (fun _ => True) (note e) :=
  ⟨fun _ he => List.mem_singleton.mp he ▸ h, (), rfl, trivial⟩

theorem Ensures.ofOption {o : Option α} {a : α} (ho : o = some a) (h : Q a) :
    Ensures P Q (ofOption o : Logged E α) :=
  ⟨fun _ he => absurd he List.not_mem_nil, a, ho, h⟩

theorem Ensures.mono {Q' : α → Prop} {m : Logged E α} (h : Ensures P Q m)
    (hQ : ∀ a, Q a → Q' a) : Ensures P Q' m :=
  ⟨h.entries, h.returns.imp fun a ha => ⟨ha.1, hQ a ha.2⟩⟩

theorem Ensures.bind {m : Logged E α} {f : α → Logged E β} (hm : Ensures P Q m)
    (hf : ∀ a, Q a → Ensures P R (f a)) : Ensures P R (m >>= f) := by
  obtain ⟨a, ha, hQ⟩ := hm.returns
  obtain ⟨b, hb, hR⟩ := (hf a hQ).returns
  refine ⟨fun e he => ?_, b, ?_, hR⟩
  · rcases mem_log_bind.mp he with he | ⟨a', ha', he⟩
    · exact hm.entries e he
    · obtain rfl := Option.some.inj (ha.symm.trans ha')
      exact (hf a hQ).entries e he
  · rw [value_bind, ha]
    exact hb

/-- What follows a computation with a value decides the rest. -/
theorem ensures_bind_iff_of_value {m : Logged E α} {f : α → Logged E β} {a : α}
    (ha : m.value = some a) :
    Ensures P R (m >>= f) ↔ (∀ e ∈ m.log, P e) ∧ Ensures P R (f a) := by
  constructor
  · intro h
    refine ⟨fun e he => h.entries e (mem_log_bind.mpr (.inl he)), fun e he => ?_, ?_⟩
    · exact h.entries e (mem_log_bind.mpr (.inr ⟨a, ha, he⟩))
    · obtain ⟨b, hb, hR⟩ := h.returns
      rw [value_bind, ha] at hb
      exact ⟨b, hb, hR⟩
  · rintro ⟨hm, hf⟩
    exact Ensures.bind (Q := (· = a)) ⟨hm, a, ha, rfl⟩ fun _ h => h ▸ hf

theorem ensures_bind_pure_iff {m : Logged E α} (f : α → β) :
    Ensures P (fun _ => True) (m >>= fun a => (Pure.pure (f a) : Logged E β)) ↔
      Ensures P (fun _ => True) m := by
  constructor
  · intro h
    refine ⟨fun e he => h.entries e (mem_log_bind.mpr (.inl he)), ?_⟩
    obtain ⟨b, hb, -⟩ := h.returns
    obtain ⟨a, ha, -⟩ := Option.bind_eq_some_iff.mp hb
    exact ⟨a, ha, trivial⟩
  · exact fun h => h.bind fun _ _ => .pure trivial

end Logged

end Cpp
