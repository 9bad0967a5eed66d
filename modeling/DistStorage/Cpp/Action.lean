import Mathlib

/-!
# Actions on a state

A member function either returns a value or throws, and leaves a state behind
in both cases; where the source reads outside a container its behaviour is
undefined. An action is such a function, and actions form a monad.

A triple `Triple P m Q E` is partial correctness: from a state that meets `P`,
a returned value and its state meet `Q`, and an exception and the state it
leaves meet `E`. Undefined behaviour is not constrained.
-/

namespace Cpp

inductive Outcome (ε σ α : Type)
  | returned (a : α) (s : σ)
  | thrown (e : ε) (s : σ)
  | undefined
  deriving DecidableEq, Repr

/-- What the caller of an action sees: its value or its exception. -/
def Outcome.answer {ε σ α : Type} : Outcome ε σ α → Option (Except ε α)
  | .returned a _ => some (.ok a)
  | .thrown e _ => some (.error e)
  | .undefined => none

/-- The outcome is a returned value that passes a test. -/
def Outcome.returns {ε σ α : Type} (p : α → σ → Bool) : Outcome ε σ α → Bool
  | .returned a s => p a s
  | _ => false

theorem Outcome.exists_of_returns {ε σ α : Type} {p : α → σ → Bool} {o : Outcome ε σ α}
    (h : o.returns p = true) : ∃ a s, o = .returned a s ∧ p a s = true := by
  cases o with
  | returned a s => exact ⟨a, s, rfl, h⟩
  | thrown e s => exact absurd h (by simp [returns])
  | undefined => exact absurd h (by simp [returns])

/-- A function on states of type `σ` that may throw an `ε`. -/
def Action (ε σ α : Type) : Type := σ → Outcome ε σ α

namespace Action

variable {ε σ α β : Type}

instance : Monad (Action ε σ) where
  pure a := fun s => .returned a s
  bind m f := fun s =>
    match m s with
    | .returned a t => f a t
    | .thrown e t => .thrown e t
    | .undefined => .undefined

def throw (e : ε) : Action ε σ α := fun s => .thrown e s

def get : Action ε σ σ := fun s => .returned s s

def modify (f : σ → σ) : Action ε σ Unit := fun s => .returned () (f s)

/-- A partial read: no value means that the source reads out of range. -/
def ofOption : Option α → Action ε σ α
  | some a => fun s => .returned a s
  | none => fun _ => .undefined

/-- A value, or an exception where there is none. -/
def orThrow (e : ε) : Option α → Action ε σ α
  | some a => pure a
  | none => throw e

/-- A check that throws. -/
def require (p : Prop) [Decidable p] (e : ε) : Action ε σ Unit :=
  if p then pure () else throw e

/-- A scope whose destructors run on every way out. -/
def finallyDo (m : Action ε σ α) (cleanup : σ → σ) : Action ε σ α := fun s =>
  match m s with
  | .returned a t => .returned a (cleanup t)
  | .thrown e t => .thrown e (cleanup t)
  | .undefined => .undefined

/-- `try` with a handler that catches every exception. -/
def tryCatch (m : Action ε σ α) (handler : ε → Action ε σ α) : Action ε σ α := fun s =>
  match m s with
  | .returned a t => .returned a t
  | .thrown e t => handler e t
  | .undefined => .undefined

theorem bind_of_returned {m : Action ε σ α} {f : α → Action ε σ β} {s t : σ} {a : α}
    (h : m s = .returned a t) : (m >>= f) s = f a t := by
  change (match m s with
    | .returned a t => f a t
    | .thrown e t => .thrown e t
    | .undefined => .undefined) = f a t
  rw [h]

theorem ofOption_some_bind (a : α) (f : α → Action ε σ β) : (ofOption (some a) >>= f) = f a := rfl

theorem finallyDo_of_returned {m : Action ε σ α} {cleanup : σ → σ} {s t : σ} {a : α}
    (h : m s = .returned a t) : finallyDo m cleanup s = .returned a (cleanup t) := by
  unfold finallyDo
  rw [h]

theorem finallyDo_of_thrown {m : Action ε σ α} {cleanup : σ → σ} {s t : σ} {e : ε}
    (h : m s = .thrown e t) : finallyDo m cleanup s = .thrown e (cleanup t) := by
  unfold finallyDo
  rw [h]

theorem tryCatch_of_returned {m : Action ε σ α} {handler : ε → Action ε σ α} {s t : σ} {a : α}
    (h : m s = .returned a t) : tryCatch m handler s = .returned a t := by
  unfold tryCatch
  rw [h]

theorem tryCatch_of_thrown {m : Action ε σ α} {handler : ε → Action ε σ α} {s t : σ} {e : ε}
    (h : m s = .thrown e t) : tryCatch m handler s = handler e t := by
  unfold tryCatch
  rw [h]

theorem bind_of_thrown {m : Action ε σ α} {f : α → Action ε σ β} {s t : σ} {e : ε}
    (h : m s = .thrown e t) : (m >>= f) s = .thrown e t := by
  change (match m s with
    | .returned a t => f a t
    | .thrown e t => .thrown e t
    | .undefined => .undefined) = _
  rw [h]

theorem bind_of_undefined {m : Action ε σ α} {f : α → Action ε σ β} {s : σ}
    (h : m s = .undefined) : (m >>= f) s = .undefined := by
  change (match m s with
    | .returned a t => f a t
    | .thrown e t => .thrown e t
    | .undefined => .undefined) = _
  rw [h]

theorem require_of {p : Prop} [Decidable p] (e : ε) (h : p) (s : σ) :
    require p e s = .returned () s := by
  unfold require
  rw [if_pos h]
  rfl

theorem pure_eq_returned {a b : α} {s t : σ} :
    (pure a : Action ε σ α) s = .returned b t ↔ a = b ∧ s = t := by
  change Outcome.returned a s = .returned b t ↔ a = b ∧ s = t
  simp

theorem bind_eq_returned {m : Action ε σ α} {f : α → Action ε σ β} {s u : σ} {b : β} :
    (m >>= f) s = .returned b u ↔ ∃ a t, m s = .returned a t ∧ f a t = .returned b u := by
  change (match m s with
    | .returned a t => f a t
    | .thrown e t => .thrown e t
    | .undefined => .undefined) = .returned b u ↔ _
  cases m s <;> simp

/-- What holds of the value and the state that an action returns, if it does. -/
def After (m : Action ε σ α) (p : α → σ → Prop) (s : σ) : Prop :=
  ∃ a t, m s = .returned a t ∧ p a t

/-- An action ends in an exception that is not expected, or in undefined
behaviour. -/
def Fails (expected : ε → Prop) (m : Action ε σ α) (s : σ) : Prop :=
  match m s with
  | .returned _ _ => False
  | .thrown e _ => ¬expected e
  | .undefined => True

section Fails

variable {expected : ε → Prop} {m : Action ε σ α} {f : α → Action ε σ β}

theorem After.imp {p q : α → σ → Prop} {s : σ} (h : After m p s)
    (himp : ∀ a t, m s = .returned a t → p a t → q a t) : After m q s := by
  obtain ⟨a, t, hm, hp⟩ := h
  exact ⟨a, t, hm, himp a t hm hp⟩

theorem fails_pure (expected : ε → Prop) (a : α) (s : σ) :
    ¬Fails expected (pure a : Action ε σ α) s :=
  id

theorem fails_throw {e : ε} {s : σ} :
    Fails expected (throw e : Action ε σ α) s ↔ ¬expected e :=
  Iff.rfl

theorem fails_ofOption {o : Option α} {s : σ} :
    Fails expected (ofOption o : Action ε σ α) s ↔ o = none := by
  cases o <;> simp [Fails, ofOption]

theorem fails_bind {s : σ} : Fails expected (m >>= f) s ↔
    Fails expected m s ∨ After m (fun a t => Fails expected (f a) t) s := by
  cases hm : m s with
  | returned a t => simp [Fails, After, hm, bind_of_returned hm]
  | thrown e t => simp [Fails, After, hm, bind_of_thrown hm]
  | undefined => simp [Fails, After, hm, bind_of_undefined hm]

theorem fails_tryCatch {handler : ε → Action ε σ α} {s : σ}
    (h : ∀ e t, Fails expected (handler e) t ↔ ¬expected e) :
    Fails expected (tryCatch m handler) s ↔ Fails expected m s := by
  cases hm : m s with
  | returned a t => simp [Fails, hm, tryCatch_of_returned hm]
  | thrown e t =>
      have hhandler := h e t
      rw [Fails, tryCatch_of_thrown hm]
      rw [Fails] at hhandler ⊢
      rw [hm]
      exact hhandler
  | undefined => simp [Fails, hm, tryCatch]

theorem fails_bind_pure {g : α → β} {s : σ} :
    Fails expected (do let a ← m; pure (g a)) s ↔ Fails expected m s := by
  rw [fails_bind, or_iff_left]
  rintro ⟨a, t, -, hfails⟩
  exact fails_pure expected (g a) t hfails

theorem fails_require {p : Prop} [Decidable p] {e : ε} {s : σ} :
    Fails expected (require p e : Action ε σ Unit) s ↔ ¬p ∧ ¬expected e := by
  unfold require
  split_ifs with h
  · simp [h, fails_pure]
  · simp [h, fails_throw]

theorem Fails.imp {expected' : ε → Prop} {s : σ} (h : Fails expected m s)
    (himp : ∀ e, expected' e → expected e) : Fails expected' m s := by
  unfold Fails at h ⊢
  cases hm : m s with
  | returned a t => rw [hm] at h; exact h
  | thrown e t => rw [hm] at h; exact fun he => h (himp e he)
  | undefined => trivial

theorem not_fails_iff {s : σ} :
    ¬Fails (fun _ => False) m s ↔ ∃ a t, m s = .returned a t := by
  cases hm : m s <;> simp [Fails, hm]

/-- Where every exception is caught, only undefined behaviour is left. -/
theorem fails_catchAll {handler : ε → Action ε σ α} {s : σ}
    (h : ∀ e t, ¬Fails expected (handler e) t) :
    Fails expected (tryCatch m handler) s ↔ Fails (fun _ => True) m s := by
  cases hm : m s with
  | returned a t => simp [Fails, hm, tryCatch_of_returned hm]
  | thrown e t =>
      have hhandler := h e t
      rw [Fails] at hhandler
      simpa [Fails, hm, tryCatch_of_thrown hm] using hhandler
  | undefined => simp [Fails, hm, tryCatch]

end Fails

/-- Two states in which an action answers alike and changes nothing. -/
inductive ReadsAlike (m : Action ε σ α) (s t : σ) : Prop
  | returned (a : α) (hs : m s = .returned a s) (ht : m t = .returned a t)
  | thrown (e : ε) (hs : m s = .thrown e s) (ht : m t = .thrown e t)
  | undefined (hs : m s = .undefined) (ht : m t = .undefined)

namespace ReadsAlike

variable {m : Action ε σ α} {s t : σ}

theorem answer_eq (h : ReadsAlike m s t) : (m t).answer = (m s).answer := by
  cases h with
  | returned a hs ht => rw [hs, ht]; rfl
  | thrown e hs ht => rw [hs, ht]; rfl
  | undefined hs ht => rw [hs, ht]

theorem pure (a : α) : ReadsAlike (pure a : Action ε σ α) s t :=
  .returned a rfl rfl

theorem throw (e : ε) : ReadsAlike (Action.throw e : Action ε σ α) s t :=
  .thrown e rfl rfl

theorem ofOption (o : Option α) : ReadsAlike (Action.ofOption o : Action ε σ α) s t := by
  cases o with
  | none => exact .undefined rfl rfl
  | some a => exact .pure a

theorem orThrow (e : ε) (o : Option α) : ReadsAlike (Action.orThrow e o : Action ε σ α) s t := by
  cases o with
  | none => exact .throw e
  | some a => exact .pure a

theorem require (p : Prop) [Decidable p] (e : ε) :
    ReadsAlike (Action.require p e : Action ε σ Unit) s t := by
  unfold Action.require
  split_ifs
  · exact .returned () rfl rfl
  · exact .thrown e rfl rfl

theorem bind {f : α → Action ε σ β} (hm : ReadsAlike m s t)
    (hf : ∀ a, m s = .returned a s → ReadsAlike (f a) s t) : ReadsAlike (m >>= f) s t := by
  cases hm with
  | returned a hs ht =>
      cases hf a hs with
      | returned b hbs hbt =>
          exact .returned b ((bind_of_returned hs).trans hbs) ((bind_of_returned ht).trans hbt)
      | thrown e hbs hbt =>
          exact .thrown e ((bind_of_returned hs).trans hbs) ((bind_of_returned ht).trans hbt)
      | undefined hbs hbt =>
          exact .undefined ((bind_of_returned hs).trans hbs) ((bind_of_returned ht).trans hbt)
  | thrown e hs ht => exact .thrown e (bind_of_thrown hs) (bind_of_thrown ht)
  | undefined hs ht => exact .undefined (bind_of_undefined hs) (bind_of_undefined ht)

theorem tryCatch {handler : ε → Action ε σ α} (hm : ReadsAlike m s t)
    (hhandler : ∀ e, m s = .thrown e s → ReadsAlike (handler e) s t) :
    ReadsAlike (Action.tryCatch m handler) s t := by
  cases hm with
  | returned a hs ht => exact .returned a (tryCatch_of_returned hs) (tryCatch_of_returned ht)
  | thrown e hs ht =>
      cases hhandler e hs with
      | returned a has hat =>
          exact .returned a ((tryCatch_of_thrown hs).trans has) ((tryCatch_of_thrown ht).trans hat)
      | thrown e' hes het =>
          exact .thrown e' ((tryCatch_of_thrown hs).trans hes) ((tryCatch_of_thrown ht).trans het)
      | undefined hus hut =>
          exact .undefined ((tryCatch_of_thrown hs).trans hus) ((tryCatch_of_thrown ht).trans hut)
  | undefined hs ht =>
      refine .undefined ?_ ?_
      · rw [Action.tryCatch, hs]
      · rw [Action.tryCatch, ht]

end ReadsAlike

def Triple (P : σ → Prop) (m : Action ε σ α) (Q : α → σ → Prop) (E : ε → σ → Prop) : Prop :=
  ∀ s, P s →
    match m s with
    | .returned a t => Q a t
    | .thrown e t => E e t
    | .undefined => True

namespace Triple

variable {P P' : σ → Prop} {Q Q' : α → σ → Prop} {E E' : ε → σ → Prop} {m : Action ε σ α}

theorem returned (h : Triple P m Q E) {s t : σ} {a : α} (hs : P s)
    (hm : m s = .returned a t) : Q a t := by
  have := h s hs
  rwa [hm] at this

theorem thrown (h : Triple P m Q E) {s t : σ} {e : ε} (hs : P s)
    (hm : m s = .thrown e t) : E e t := by
  have := h s hs
  rwa [hm] at this

theorem consequence (h : Triple P m Q E) (hP : ∀ s, P' s → P s)
    (hQ : ∀ a s, Q a s → Q' a s) (hE : ∀ e s, E e s → E' e s) : Triple P' m Q' E' := by
  intro s hs
  have hm := h s (hP s hs)
  cases ho : m s with
  | returned a t => rw [ho] at hm; exact hQ a t hm
  | thrown e t => rw [ho] at hm; exact hE e t hm
  | undefined => trivial

/-- What is known of every returned value may be added to a triple. -/
theorem of_returned (h : Triple P m Q E) {p : α → Prop}
    (hp : ∀ {s t : σ} {a : α}, m s = .returned a t → p a) :
    Triple P m (fun a t => p a ∧ Q a t) E := by
  intro s hs
  have hm := h s hs
  cases ho : m s with
  | returned a t => rw [ho] at hm; exact ⟨hp ho, hm⟩
  | thrown e t => rw [ho] at hm; exact hm
  | undefined => trivial

theorem pure (a : α) (h : ∀ s, P s → Q a s) : Triple P (pure a : Action ε σ α) Q E :=
  h

theorem bind {R : β → σ → Prop} {f : α → Action ε σ β} (hm : Triple P m Q E)
    (hf : ∀ a, Triple (Q a) (f a) R E) : Triple P (m >>= f) R E := by
  intro s hs
  have h := hm s hs
  change match (match m s with
    | .returned a t => f a t
    | .thrown e t => .thrown e t
    | .undefined => .undefined) with
    | .returned b t => R b t
    | .thrown e t => E e t
    | .undefined => True
  cases ho : m s with
  | returned a t => rw [ho] at h; exact hf a t h
  | thrown e t => rw [ho] at h; exact h
  | undefined => trivial

theorem throw (e : ε) (h : ∀ s, P s → E e s) : Triple P (throw e : Action ε σ α) Q E :=
  h

/-- After a read of the state the rest is proved from that very state. -/
theorem get_bind {R : β → σ → Prop} {f : σ → Action ε σ β}
    (h : ∀ s, P s → Triple (· = s) (f s) R E) : Triple P (get >>= f) R E :=
  fun s hs => h s hs s rfl

theorem modify {Q : Unit → σ → Prop} {f : σ → σ} (h : ∀ s, P s → Q () (f s)) :
    Triple P (modify f : Action ε σ Unit) Q E :=
  h

theorem modify_bind {R : β → σ → Prop} {f : σ → σ} {m : Unit → Action ε σ β} {s : σ}
    (h : Triple (· = f s) (m ()) R E) : Triple (· = s) (Action.modify f >>= m) R E := by
  rintro t rfl
  exact h (f t) rfl

theorem ofOption_bind {R : β → σ → Prop} {o : Option α} {f : α → Action ε σ β}
    (h : ∀ a, o = some a → Triple P (f a) R E) : Triple P (ofOption o >>= f) R E := by
  cases o with
  | none => exact fun _ _ => trivial
  | some a => exact h a rfl

theorem orThrow_bind {R : β → σ → Prop} {e : ε} {o : Option α} {f : α → Action ε σ β}
    (he : ∀ s, P s → E e s) (h : ∀ a, o = some a → Triple P (f a) R E) :
    Triple P (Action.orThrow e o >>= f) R E := by
  cases o with
  | none => exact he
  | some a => exact h a rfl

theorem require_bind {R : β → σ → Prop} {p : Prop} [Decidable p] {e : ε}
    {m : Unit → Action ε σ β} (he : ∀ s, P s → E e s) (h : p → Triple P (m ()) R E) :
    Triple P (Action.require p e >>= m) R E := by
  unfold Action.require
  split_ifs with hp
  · exact h hp
  · exact he

theorem finallyDo {cleanup : σ → σ} (hm : Triple P m Q' E')
    (hQ : ∀ a s, Q' a s → Q a (cleanup s)) (hE : ∀ e s, E' e s → E e (cleanup s)) :
    Triple P (finallyDo m cleanup) Q E := by
  intro s hs
  have h := hm s hs
  unfold Action.finallyDo
  cases ho : m s with
  | returned a t => rw [ho] at h; exact hQ a t h
  | thrown e t => rw [ho] at h; exact hE e t h
  | undefined => trivial

theorem tryCatch {handler : ε → Action ε σ α} (hm : Triple P m Q E')
    (hh : ∀ e, Triple (E' e) (handler e) Q E) : Triple P (tryCatch m handler) Q E := by
  intro s hs
  have h := hm s hs
  unfold Action.tryCatch
  cases ho : m s with
  | returned a t => rw [ho] at h; exact h
  | thrown e t => rw [ho] at h; exact hh e t h
  | undefined => trivial

end Triple

end Action

end Cpp
