import DistStorage.Digraph.Traversal

/-!
# Search trees

On a digraph with cycles a depth first search still marks every vertex that is
reached, when it may call itself as often below each other as there are vertices
without a mark. A vertex is not marked with the depth of a walk fixed beforehand, but
it is one deeper than a marked parent, from which the search has come to it.

`Searching` is what holds of the marks between two children of the vertex `a`, and
`Searched` what holds once all of them have been looked at.
-/

namespace Digraph

section Tree

variable {α : Type*} (children : α → List α)

/-- Marks `g` that grow out of `f` as a search from `a` goes on. -/
structure Searching (f : α → Option ℕ) (a : α) (d : ℕ) (g : α → Option ℕ) : Prop where
  kept : ∀ v e, f v = some e → g v = some e
  start : g a = some d
  reached : ∀ v, f v = none → g v ≠ none → Relation.ReflTransGen (IsChild children) v a
  closed : ∀ v, f v = none → v ≠ a → g v ≠ none → ∀ c ∈ children v, g c ≠ none
  parent : ∀ v e, f v = none → v ≠ a → g v = some e →
    ∃ p e', g p = some e' ∧ v ∈ children p ∧ e = e' + 1

/-- Marks `g` after a search from `a` on the marks `f`. -/
structure Searched (f : α → Option ℕ) (a : α) (d : ℕ) (g : α → Option ℕ) : Prop
    extends Searching children f a d g where
  children_start : ∀ c ∈ children a, g c ≠ none

def unmarked (nodes : Finset α) (f : α → Option ℕ) : ℕ := (nodes.filter fun v => f v = none).card

variable {children} {nodes : Finset α}

theorem unmarked_le {f g : α → Option ℕ} (h : ∀ v e, f v = some e → g v = some e) :
    unmarked nodes g ≤ unmarked nodes f := by
  refine Finset.card_le_card fun v hv => ?_
  obtain ⟨hv, hnone⟩ := Finset.mem_filter.mp hv
  refine Finset.mem_filter.mpr ⟨hv, Option.eq_none_iff_forall_ne_some.mpr fun e he => ?_⟩
  rw [h v e he] at hnone
  cases hnone

variable [DecidableEq α]

theorem unmarked_update_lt {f : α → Option ℕ} {a : α} {d : ℕ} (ha : a ∈ nodes)
    (hmark : f a = none) : unmarked nodes (Function.update f a (some d)) < unmarked nodes f := by
  refine Finset.card_lt_card ((Finset.ssubset_iff_of_subset fun v hv => ?_).mpr ⟨a, ?_, ?_⟩)
  · obtain ⟨hv, hnone⟩ := Finset.mem_filter.mp hv
    have hva : v ≠ a := by
      rintro rfl
      rw [Function.update_self] at hnone
      cases hnone
    rw [Function.update_of_ne hva] at hnone
    exact Finset.mem_filter.mpr ⟨hv, hnone⟩
  · exact Finset.mem_filter.mpr ⟨ha, hmark⟩
  · rw [Finset.mem_filter, Function.update_self]
    exact fun h => Option.some_ne_none d h.2

theorem Searching.update {f : α → Option ℕ} {a : α} (d : ℕ) (hmark : f a = none) :
    Searching children f a d (Function.update f a (some d)) := by
  refine ⟨fun v e hv => ?_, Function.update_self .., fun v hnone hv => ?_,
    fun v hnone hva hv => ?_, fun v e hnone hva hv => ?_⟩
  · have hva : v ≠ a := by
      rintro rfl
      rw [hmark] at hv
      cases hv
    rwa [Function.update_of_ne hva]
  · by_cases hva : v = a
    · rw [hva]
    · rw [Function.update_of_ne hva] at hv
      exact absurd hnone hv
  · rw [Function.update_of_ne hva] at hv
    exact absurd hnone hv
  · rw [Function.update_of_ne hva, hnone] at hv
    cases hv

/-- A search from a child of `a` keeps what holds of the marks. -/
theorem Searching.searched {f g h : α → Option ℕ} {a c : α} {d : ℕ}
    (hg : Searching children f a d g) (hc : c ∈ children a)
    (hh : Searched children g c (d + 1) h) : Searching children f a d h := by
  have hkept : ∀ v, g v ≠ none → h v ≠ none := by
    intro v hv
    obtain ⟨e, he⟩ := Option.ne_none_iff_exists'.mp hv
    rw [hh.kept v e he]
    exact Option.some_ne_none e
  refine ⟨fun v e hv => hh.kept v e (hg.kept v e hv), hh.kept a d hg.start, ?_, ?_, ?_⟩
  · intro v hnone hv
    by_cases hgv : g v = none
    · exact (hh.reached v hgv hv).tail hc
    · exact hg.reached v hnone hgv
  · intro v hnone hva hv u hu
    by_cases hgv : g v = none
    · by_cases hvc : v = c
      · exact hh.children_start u (hvc ▸ hu)
      · exact hh.closed v hgv hvc hv u hu
    · exact hkept u (hg.closed v hnone hva hgv u hu)
  · intro v e hnone hva hv
    cases hgv : g v with
    | none =>
        by_cases hvc : v = c
        · rw [hvc, hh.start] at hv
          exact ⟨a, d, hh.kept a d hg.start, hvc ▸ hc, (Option.some.inj hv).symm⟩
        · exact hh.parent v e hgv hvc hv
    | some e' =>
        rw [hh.kept v e' hgv] at hv
        obtain rfl := Option.some.inj hv
        obtain ⟨p, k, hp, hchild, hk⟩ := hg.parent v e' hnone hva hgv
        exact ⟨p, k, hh.kept p k hp, hchild, hk⟩

theorem Searching.foldl {f g : α → Option ℕ} {a : α} {n d : ℕ} {l : List α}
    (hsearch : ∀ {g : α → Option ℕ} {c : α}, c ∈ children a → g c = none →
      unmarked nodes g < n → Searched children g c (d + 1) (search children n g c (d + 1)))
    (hl : ∀ c ∈ l, c ∈ children a) (hg : Searching children f a d g)
    (hn : unmarked nodes g < n) :
    Searching children f a d
        (l.foldl (fun g c => if g c = none then search children n g c (d + 1) else g) g) ∧
      (∀ v e, g v = some e →
        l.foldl (fun g c => if g c = none then search children n g c (d + 1) else g) g v = some e) ∧
      ∀ c ∈ l,
        l.foldl (fun g c => if g c = none then search children n g c (d + 1) else g) g c ≠
          none := by
  induction l generalizing g with
  | nil => exact ⟨hg, fun _ _ hv => hv, fun _ hc => absurd hc List.not_mem_nil⟩
  | cons c l ih =>
      obtain ⟨hc, hrest⟩ := List.forall_mem_cons.mp hl
      -- One child is searched, or has its mark already.
      obtain ⟨g', hstep, hg', hkept, hmarked⟩ : ∃ g',
          (if g c = none then search children n g c (d + 1) else g) = g' ∧
            Searching children f a d g' ∧ (∀ v e, g v = some e → g' v = some e) ∧
            g' c ≠ none := by
        by_cases hmark : g c = none
        · have hh := hsearch hc hmark hn
          exact ⟨_, if_pos hmark, hg.searched hc hh, hh.kept,
            hh.start ▸ Option.some_ne_none (d + 1)⟩
        · exact ⟨g, if_neg hmark, hg, fun _ _ hv => hv, hmark⟩
      rw [List.foldl_cons, hstep]
      obtain ⟨hall, hkept', hmarked'⟩ := ih hrest hg' ((unmarked_le hkept).trans_lt hn)
      refine ⟨hall, fun v e hv => hkept' v e (hkept v e hv),
        List.forall_mem_cons.mpr ⟨?_, hmarked'⟩⟩
      obtain ⟨e, he⟩ := Option.ne_none_iff_exists'.mp hmarked
      rw [hkept' c e he]
      exact Option.some_ne_none e

/-- A search that may call itself once for every vertex without a mark. -/
theorem searched_search (hnodes : ∀ p, ∀ c ∈ children p, c ∈ nodes) {n : ℕ} {f : α → Option ℕ}
    {a : α} (d : ℕ) (ha : a ∈ nodes) (hmark : f a = none) (hn : unmarked nodes f < n) :
    Searched children f a d (search children n f a d) := by
  induction n generalizing f a d with
  | zero => omega
  | succ n ih =>
      have hlt := unmarked_update_lt (d := d) ha hmark
      have hstart : Searching children f a d (Function.update f a (some d)) := .update d hmark
      obtain ⟨hall, -, hmarked⟩ := hstart.foldl
        (fun hc hnone hless => ih (d + 1) (hnodes a _ hc) hnone hless) (fun _ hc => hc)
        (by omega)
      exact ⟨hall, hmarked⟩

theorem searched_search_none (hnodes : ∀ p, ∀ c ∈ children p, c ∈ nodes) {n : ℕ} {a : α}
    (ha : a ∈ nodes) (hn : nodes.card < n) :
    Searched children (fun _ => none) a 0 (search children n (fun _ => none) a 0) :=
  searched_search hnodes 0 ha rfl ((Finset.card_filter_le _ _).trans_lt hn)

/-- A search of unmarked vertices marks those that are reached. -/
theorem Searched.ne_none_iff {g : α → Option ℕ} {a : α}
    (hg : Searched children (fun _ => none) a 0 g) (v : α) :
    g v ≠ none ↔ Relation.ReflTransGen (IsChild children) v a := by
  constructor
  · exact hg.reached v rfl
  · intro hreach
    induction hreach using Relation.ReflTransGen.head_induction_on with
    | refl =>
        rw [hg.start]
        exact Option.some_ne_none 0
    | @head v p hchild hp ih =>
        by_cases hpa : p = a
        · exact hg.children_start v (hpa ▸ hchild)
        · exact hg.closed p rfl hpa ih v hchild

omit [DecidableEq α] in
/-- Above a vertex there is one of every smaller depth. -/
theorem Searched.lt_card {g : α → Option ℕ} {a v : α} {e : ℕ}
    (hg : Searched children (fun _ => none) a 0 g) (hnodes : ∀ v, g v ≠ none → v ∈ nodes)
    (hv : g v = some e) : e < nodes.card := by
  have habove : ∀ k ≤ e, ∃ u, g u = some k := by
    induction e generalizing v with
    | zero => exact fun k hk => ⟨v, Nat.le_zero.mp hk ▸ hv⟩
    | succ e ih =>
        intro k hk
        rcases Nat.le_succ_iff.mp hk with hle | rfl
        · have hva : v ≠ a := by
            rintro rfl
            rw [hg.start] at hv
            cases hv
          obtain ⟨p, e', hp, -, he⟩ := hg.parent v _ rfl hva hv
          obtain rfl := Nat.succ.inj he
          exact ih hp k hle
        · exact ⟨v, hv⟩
  have hsubset : Finset.range (e + 1) ⊆ nodes.image fun u => (g u).getD 0 := by
    intro k hk
    obtain ⟨u, hu⟩ := habove k (Nat.lt_succ_iff.mp (Finset.mem_range.mp hk))
    refine Finset.mem_image.mpr ⟨u, hnodes u ?_, by rw [hu, Option.getD_some]⟩
    rw [hu]
    exact Option.some_ne_none k
  calc e < (Finset.range (e + 1)).card := by rw [Finset.card_range]; exact e.lt_succ_self
    _ ≤ (nodes.image fun u => (g u).getD 0).card := Finset.card_le_card hsubset
    _ ≤ nodes.card := Finset.card_image_le

end Tree

end Digraph
