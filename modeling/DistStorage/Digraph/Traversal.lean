import DistStorage.Digraph.Evaluation

/-!
# First visits of a depth first search

A depth first search marks a vertex with its depth and goes on to the children
that have no mark yet, in order. On an acyclic digraph that finds every vertex
on the first of all walks to it: `walks` lists the ends of the walks from a
vertex in the order of a search that never stops at a mark, and `search_eq`
says that the mark of a vertex is its first entry there.
-/

namespace Digraph

section Search

variable {α : Type*} [DecidableEq α] (children : α → List α)

/-- The marks after a search from `a` at depth `d`, cut off after `n` calls
below each other. -/
def search : ℕ → (α → Option ℕ) → α → ℕ → α → Option ℕ
  | 0, f, _, _ => f
  | n + 1, f, a, d =>
      (children a).foldl (fun f c => if f c = none then search n f c (d + 1) else f)
        (Function.update f a (some d))

omit [DecidableEq α] in
/-- The ends of the walks from `a`, with their depths. -/
def walks : ℕ → α → ℕ → List (α × ℕ)
  | 0, _, _ => []
  | n + 1, a, d => (a, d) :: (children a).flatMap fun c => walks n c (d + 1)

/-- The depth at the end of the first walk to a vertex. -/
def firstDepth (n : ℕ) (a v : α) : Option ℕ := (walks children n a 0).lookup v

/-- Every marked vertex that is reached from `a` has all its children marked. -/
def Closed (f : α → Option ℕ) (a : α) : Prop :=
  ∀ v, Relation.ReflTransGen (IsChild children) v a → f v ≠ none → ∀ c ∈ children v, f c ≠ none

end Search

section Walks

variable {α : Type*} {children : α → List α} {rank : α → ℕ}

theorem reflTransGen_of_mem_walks {n : ℕ} {a v : α} {d e : ℕ} (h : (v, e) ∈ walks children n a d) :
    Relation.ReflTransGen (IsChild children) v a := by
  induction n generalizing a d with
  | zero => simp [walks] at h
  | succ n ih =>
      rcases List.mem_cons.mp h with heq | hmem
      · rw [(Prod.mk.inj heq).1]
      · obtain ⟨c, hc, hmem⟩ := List.mem_flatMap.mp hmem
        exact (ih hmem).tail hc

theorem exists_mem_walks (hrank : IsRank children rank) {n : ℕ} {a v : α} (d : ℕ)
    (ha : rank a < n) (h : Relation.ReflTransGen (IsChild children) v a) :
    ∃ e, (v, e) ∈ walks children n a d := by
  induction n generalizing a d with
  | zero => omega
  | succ n ih =>
      rcases h.cases_tail with rfl | ⟨c, hvc, hc⟩
      · exact ⟨d, List.mem_cons_self⟩
      · have hlt : rank c < rank a := hrank a c hc
        obtain ⟨e, he⟩ := ih (d + 1) (by omega) hvc
        exact ⟨e, List.mem_cons_of_mem _ (List.mem_flatMap.mpr ⟨c, hc, he⟩)⟩

/-- A walk ends at the vertices that are reached. -/
theorem lookup_walks_ne_none_iff [DecidableEq α] (hrank : IsRank children rank) {n : ℕ} {a : α}
    (d : ℕ) (ha : rank a < n) (v : α) :
    (walks children n a d).lookup v ≠ none ↔ Relation.ReflTransGen (IsChild children) v a := by
  rw [← Option.isSome_iff_ne_none, List.lookup_isSome_iff]
  constructor
  · rintro ⟨⟨u, e⟩, hmem, hu⟩
    obtain rfl := eq_of_beq hu
    exact reflTransGen_of_mem_walks hmem
  · intro h
    obtain ⟨e, he⟩ := exists_mem_walks hrank d ha h
    exact ⟨(v, e), he, beq_self_eq_true v⟩

end Walks

section Correct

variable {α : Type*} [DecidableEq α] {children : α → List α} {rank : α → ℕ}

omit [DecidableEq α] in
theorem Closed.ne_none_of_reflTransGen {f : α → Option ℕ} {a v : α} (h : Closed children f a)
    (ha : f a ≠ none) (hv : Relation.ReflTransGen (IsChild children) v a) : f v ≠ none := by
  induction hv using Relation.ReflTransGen.head_induction_on with
  | refl => exact ha
  | head hc hp ih => exact h _ hp ih _ hc

/-- The mark at the start of a search leaves the marks below closed. -/
theorem Closed.update (hrank : IsRank children rank) {f : α → Option ℕ} {a c : α} {d : ℕ}
    (h : Closed children f a) (hc : c ∈ children a) :
    Closed children (Function.update f a (some d)) c := by
  intro v hv hmark u hu
  have hva : v ≠ a := by
    rintro rfl
    exact hrank.acyclic v (.tail' hv hc)
  rw [Function.update_of_ne hva] at hmark
  have hu' : f u ≠ none := h v (hv.tail hc) hmark u hu
  by_cases hua : u = a
  · rw [hua, Function.update_self]
    exact Option.some_ne_none d
  · rwa [Function.update_of_ne hua]

/-- Marking all that is below `c` leaves the marks below `a` closed. -/
theorem Closed.or_walks (hrank : IsRank children rank) {f f' : α → Option ℕ} {a c : α} {n d : ℕ}
    (h : Closed children f a) (hc : rank c < n)
    (hf' : ∀ v, f' v = (f v).or ((walks children n c d).lookup v)) : Closed children f' a := by
  intro v hv hmark u hu
  rw [hf', Ne, Option.or_eq_none_iff, not_and_or] at hmark ⊢
  rcases hmark with hmark | hmark
  · exact .inl (h v hv hmark u hu)
  · refine .inr ?_
    rw [← Ne, lookup_walks_ne_none_iff hrank d hc] at hmark ⊢
    exact hmark.head hu

theorem foldl_search_eq (hrank : IsRank children rank) {n d : ℕ} {l : List α}
    (ih : ∀ {f : α → Option ℕ} {c : α}, c ∈ l → f c = none → Closed children f c → ∀ v,
      search children n f c d v = (f v).or ((walks children n c d).lookup v))
    {f : α → Option ℕ} (hl : ∀ c ∈ l, rank c < n) (hclosed : ∀ c ∈ l, Closed children f c)
    (v : α) :
    l.foldl (fun f c => if f c = none then search children n f c d else f) f v =
      (f v).or ((l.flatMap fun c => walks children n c d).lookup v) := by
  induction l generalizing f with
  | nil => simp
  | cons c l ihl =>
      have hc : c ∈ c :: l := List.mem_cons_self
      have hstep : ∀ v, (if f c = none then search children n f c d else f) v =
          (f v).or ((walks children n c d).lookup v) := by
        intro v
        split_ifs with hmark
        · exact ih hc hmark (hclosed c hc) v
        · cases hwalk : (walks children n c d).lookup v with
          | none => rw [Option.or_none]
          | some e =>
              have hreach : Relation.ReflTransGen (IsChild children) v c := by
                rw [← lookup_walks_ne_none_iff hrank d (hl c hc), hwalk]
                exact Option.some_ne_none e
              have hv : f v ≠ none := (hclosed c hc).ne_none_of_reflTransGen hmark hreach
              obtain ⟨e', he'⟩ := Option.ne_none_iff_exists'.mp hv
              rw [he', Option.some_or]
      rw [List.foldl_cons, ihl (fun hc' => ih (List.mem_cons_of_mem c hc'))
        (fun c' hc' => hl c' (List.mem_cons_of_mem c hc'))
        (fun c' hc' => (hclosed c' (List.mem_cons_of_mem c hc')).or_walks hrank (hl c hc) hstep),
        hstep, List.flatMap_cons, List.lookup_append, Option.or_assoc]

/-- A search marks a vertex with the depth of the first walk to it, unless it
has a mark before. -/
theorem search_eq (hrank : IsRank children rank) {n : ℕ} {f : α → Option ℕ} {a : α} {d : ℕ}
    (ha : rank a < n) (hmark : f a = none) (hclosed : Closed children f a) (v : α) :
    search children n f a d v = (f v).or ((walks children n a d).lookup v) := by
  induction n generalizing f a d v with
  | zero => omega
  | succ n ih =>
      have hchildren : ∀ c ∈ children a, rank c < n := fun c hc => by
        have hlt : rank c < rank a := hrank a c hc
        omega
      rw [search, foldl_search_eq hrank
        (fun hc hmark hclosed v => ih (hchildren _ hc) hmark hclosed v) hchildren
        (fun c hc => hclosed.update hrank hc), walks]
      by_cases hva : v = a
      · rw [hva, Function.update_self, hmark, Option.some_or, List.lookup_cons_self, Option.none_or]
      · rw [Function.update_of_ne hva, List.lookup_cons, beq_false_of_ne hva]

theorem search_none (hrank : IsRank children rank) {n : ℕ} {a : α} (ha : rank a < n) (v : α) :
    search children n (fun _ => none) a 0 v = firstDepth children n a v := by
  rw [search_eq hrank ha rfl fun _ _ h => absurd rfl h, Option.none_or, firstDepth]

theorem firstDepth_ne_none_iff (hrank : IsRank children rank) {n : ℕ} {a : α} (ha : rank a < n)
    (v : α) : firstDepth children n a v ≠ none ↔ Relation.ReflTransGen (IsChild children) v a :=
  lookup_walks_ne_none_iff hrank 0 ha v

/-- The loop over the children keeps the marks that are there, when a search
does. -/
theorem foldl_search_of_mark {n : ℕ} {v : α} {d e : ℕ}
    (ih : ∀ {f : α → Option ℕ} {a : α}, f a = none → f v = some e →
      search children n f a d v = some e)
    {f : α → Option ℕ} (l : List α) (hv : f v = some e) :
    l.foldl (fun f c => if f c = none then search children n f c d else f) f v = some e := by
  induction l generalizing f with
  | nil => exact hv
  | cons c l ihl =>
      refine ihl ?_
      change (if f c = none then search children n f c d else f) v = some e
      split_ifs with hc
      · exact ih hc hv
      · exact hv

theorem search_of_mark {n : ℕ} {f : α → Option ℕ} {a v : α} {d e : ℕ} (ha : f a = none)
    (hv : f v = some e) : search children n f a d v = some e := by
  induction n generalizing f a d with
  | zero => exact hv
  | succ n ih =>
      have hva : v ≠ a := by
        rintro rfl
        rw [ha] at hv
        cases hv
      exact foldl_search_of_mark ih (children a) (by rwa [Function.update_of_ne hva])

theorem search_self {n : ℕ} {f : α → Option ℕ} {a : α} {d : ℕ} :
    search children (n + 1) f a d a = some d :=
  foldl_search_of_mark search_of_mark (children a) (Function.update_self ..)

end Correct

end Digraph
