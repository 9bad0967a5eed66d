import Mathlib

/-!
# Evaluating an acyclic digraph

A digraph is given by the list of children of every vertex, and a value for a
vertex is computed by a `layer` from the values of its children, in order and
with repetitions. `evalFuel` is that recursion cut off at a depth, so it runs
on every digraph; on an acyclic digraph whose children all lie in a finite set
a depth above the size of that set cuts nothing off.

The cut-off is handled through ranks: a rank is a number for every vertex that
drops along every edge. A digraph with a rank is acyclic, and an acyclic
digraph with finitely many children has the rank that counts the vertices
below.
-/

namespace Digraph

def IsChild {α : Type*} (children : α → List α) (c p : α) : Prop :=
  c ∈ children p

/-- No vertex is reached from itself along edges. -/
def Acyclic {α : Type*} (children : α → List α) : Prop :=
  ∀ a, ¬ Relation.TransGen (IsChild children) a a

/-- A number for every vertex that drops along every edge. -/
def IsRank {α : Type*} (children : α → List α) (rank : α → ℕ) : Prop :=
  ∀ p, ∀ c ∈ children p, rank c < rank p

theorem IsRank.lt_of_transGen {α : Type*} {children : α → List α} {rank : α → ℕ}
    (h : IsRank children rank) {c p : α}
    (hcp : Relation.TransGen (IsChild children) c p) : rank c < rank p := by
  induction hcp with
  | single hc => exact h _ _ hc
  | tail _ hc ih => exact ih.trans (h _ _ hc)

theorem IsRank.acyclic {α : Type*} {children : α → List α} {rank : α → ℕ}
    (h : IsRank children rank) : Acyclic children :=
  fun _ hcycle => lt_irrefl _ (h.lt_of_transGen hcycle)

/-- An acyclic digraph whose children lie in a finite set has a rank bounded by
the size of that set. -/
theorem exists_rank {α : Type*} {children : α → List α} (s : Finset α)
    (hs : ∀ p, ∀ c ∈ children p, c ∈ s) (hacyclic : Acyclic children) :
    ∃ rank, IsRank children rank ∧ ∀ p, rank p ≤ s.card := by
  classical
  let below (p : α) : Finset α :=
    s.filter fun c => Relation.TransGen (IsChild children) c p
  refine ⟨fun p => (below p).card, ?_, fun p => Finset.card_filter_le _ _⟩
  intro p c hc
  apply Finset.card_lt_card
  refine Finset.ssubset_iff_subset_ne.mpr ⟨?_, ?_⟩
  · intro d hd
    rw [Finset.mem_filter] at hd ⊢
    exact ⟨hd.1, hd.2.tail hc⟩
  · intro heq
    have hmem : c ∈ below p := by
      rw [Finset.mem_filter]
      exact ⟨hs p c hc, .single hc⟩
    rw [← heq, Finset.mem_filter] at hmem
    exact hacyclic c hmem.2

/-- The value of a vertex, cut off at the given depth with the value `base`. -/
def evalFuel {α β : Type*} (children : α → List α) (layer : α → List β → β)
    (base : β) : ℕ → α → β
  | 0, _ => base
  | n + 1, a => layer a ((children a).map (evalFuel children layer base n))

/-- Any two depths above a rank of the vertex give the same value. -/
theorem evalFuel_eq_of_rank {α β : Type*} {children : α → List α}
    {layer : α → List β → β} {base : β} {rank : α → ℕ} (h : IsRank children rank) :
    ∀ {m n : ℕ} {a : α}, rank a < m → rank a < n →
      evalFuel children layer base m a = evalFuel children layer base n a
  | 0, _, _, hm, _ => absurd hm (Nat.not_lt_zero _)
  | _, 0, _, _, hn => absurd hn (Nat.not_lt_zero _)
  | m + 1, n + 1, a, hm, hn => by
      have hchildren : (children a).map (evalFuel children layer base m) =
          (children a).map (evalFuel children layer base n) := by
        apply List.map_congr_left
        intro c hc
        have hrank : rank c < rank a := h a c hc
        exact evalFuel_eq_of_rank h (by omega) (by omega)
      rw [evalFuel, evalFuel, hchildren]

/-- Above a rank of the vertex the recursion is a fixed point of the layer. -/
theorem evalFuel_eq_layer {α β : Type*} {children : α → List α}
    {layer : α → List β → β} {base : β} {rank : α → ℕ} (h : IsRank children rank)
    {n : ℕ} {a : α} (hn : rank a < n) :
    evalFuel children layer base n a =
      layer a ((children a).map (evalFuel children layer base n)) := by
  rw [evalFuel_eq_of_rank h hn (hn.trans (Nat.lt_succ_self n)), evalFuel]

/-- A map between two digraphs that keeps the children and the layers of a set of
vertices closed under children keeps their values. -/
theorem evalFuel_map {α α' β : Type*} {children : α → List α} {children' : α' → List α'}
    {layer : α → List β → β} {layer' : α' → List β → β} {base : β} {s : α → Prop}
    {f : α → α'} (hclosed : ∀ a, s a → ∀ c ∈ children a, s c)
    (hchildren : ∀ a, s a → children' (f a) = (children a).map f)
    (hlayer : ∀ a, s a → layer' (f a) = layer a) :
    ∀ {n : ℕ} {a : α}, s a →
      evalFuel children' layer' base n (f a) = evalFuel children layer base n a
  | 0, _, _ => rfl
  | n + 1, a, ha => by
      have hmap : (children a).map (evalFuel children' layer' base n ∘ f) =
          (children a).map (evalFuel children layer base n) :=
        List.map_congr_left fun c hc =>
          evalFuel_map hclosed hchildren hlayer (hclosed a ha c hc)
      rw [evalFuel, evalFuel, hchildren a ha, hlayer a ha, List.map_map, hmap]

/-- Two digraphs that agree on a set of vertices closed under children give the
vertices of that set the same values. -/
theorem evalFuel_congr {α β : Type*} {children children' : α → List α}
    {layer layer' : α → List β → β} {base : β} {s : α → Prop}
    (hclosed : ∀ a, s a → ∀ c ∈ children a, s c)
    (hchildren : ∀ a, s a → children' a = children a)
    (hlayer : ∀ a, s a → layer' a = layer a) {n : ℕ} {a : α} (ha : s a) :
    evalFuel children' layer' base n a = evalFuel children layer base n a := by
  refine evalFuel_map (f := id) hclosed (fun a ha => ?_) hlayer ha
  rw [List.map_id]
  exact hchildren a ha

end Digraph
