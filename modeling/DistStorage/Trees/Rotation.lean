import Mathlib

/-!
# Rotations of trees that are held by links

A store of nodes gives every node two children and a size. It holds a tree at a
position when the links from the position run through the tree and every size is
that of the subtree. A rotation brings the child of a node on one side in the place
of the node. It keeps the in-order sequence, and a store in which the three links of
the rotation are changed, with the two sizes, holds the rotated tree.
-/

namespace BinaryTree

inductive Side
  | left
  | right
  deriving DecidableEq, Repr

def Side.other : Side → Side
  | left => right
  | right => left

@[simp] theorem Side.other_other (side : Side) : side.other.other = side := by
  cases side <;> rfl

variable {α : Type*}

def inorder : BinaryTree α → List α
  | nil => []
  | node a l r => l.inorder ++ a :: r.inorder

def join (side : Side) (a : α) (near far : BinaryTree α) : BinaryTree α :=
  match side with
  | .left => node a near far
  | .right => node a far near

theorem exists_join (side : Side) {t : BinaryTree α} (ht : t ≠ nil) :
    ∃ a near far, t = join side a near far := by
  cases t with
  | nil => exact absurd rfl ht
  | node a l r =>
      cases side with
      | left => exact ⟨a, l, r, rfl⟩
      | right => exact ⟨a, r, l, rfl⟩

theorem mem_inorder_join {s : Side} {a x : α} {near far : BinaryTree α} :
    x ∈ (join s a near far).inorder ↔ x = a ∨ x ∈ near.inorder ∨ x ∈ far.inorder := by
  cases s <;> simp only [join, inorder, List.mem_append, List.mem_cons] <;> tauto

theorem nodup_inorder_join {s : Side} {a : α} {near far : BinaryTree α} :
    (join s a near far).inorder.Nodup ↔
      (a ∉ near.inorder ∧ a ∉ far.inorder) ∧ near.inorder.Nodup ∧ far.inorder.Nodup ∧
        near.inorder.Disjoint far.inorder := by
  have hcomm := @List.disjoint_comm α near.inorder far.inorder
  cases s <;>
    simp only [join, inorder, List.nodup_append', List.nodup_cons, List.disjoint_cons_right] <;>
    tauto

theorem numNodes_join (side : Side) (a : α) (near far : BinaryTree α) :
    (join side a near far).numNodes = near.numNodes + far.numNodes + 1 := by
  cases side
  · rfl
  · simp [join, Nat.add_comm]

/-- The child on the side in the place of the root. -/
def rotate : Side → BinaryTree α → BinaryTree α
  | .left, node u (node r c b) a => node r c (node u b a)
  | .right, node u a (node r b c) => node r (node u a b) c
  | _, t => t

theorem rotate_join (side : Side) (u r : α) (a b c : BinaryTree α) :
    rotate side (join side u (join side r c b) a) = join side r c (join side u b a) := by
  cases side <;> rfl

theorem inorder_rotate (side : Side) (t : BinaryTree α) : (rotate side t).inorder = t.inorder := by
  fun_cases rotate side t <;> simp [inorder]

theorem length_inorder (t : BinaryTree α) : t.inorder.length = t.numNodes := by
  induction t with
  | nil => rfl
  | node a l r ihl ihr =>
      rw [inorder, List.length_append, List.length_cons, ihl, ihr, numNodes, Nat.add_assoc]

variable [DecidableEq α]

/-- The rotation of the subtrees at a value. -/
def rotateAt (side : Side) (u : α) : BinaryTree α → BinaryTree α
  | nil => nil
  | node a l r =>
      if a = u then rotate side (node a l r) else node a (l.rotateAt side u) (r.rotateAt side u)

theorem inorder_rotateAt (side : Side) (u : α) (t : BinaryTree α) :
    (t.rotateAt side u).inorder = t.inorder := by
  induction t with
  | nil => rfl
  | node a l r ihl ihr =>
      rw [rotateAt]
      split_ifs
      · exact inorder_rotate side _
      · rw [inorder, inorder, ihl, ihr]

theorem numNodes_rotateAt (side : Side) (u : α) (t : BinaryTree α) :
    (t.rotateAt side u).numNodes = t.numNodes := by
  rw [← length_inorder, inorder_rotateAt, length_inorder]

theorem rotateAt_of_notMem {side : Side} {u : α} {t : BinaryTree α} (hu : u ∉ t.inorder) :
    t.rotateAt side u = t := by
  induction t with
  | nil => rfl
  | node a l r ihl ihr =>
      rw [inorder, List.mem_append, List.mem_cons, not_or, not_or] at hu
      rw [rotateAt, if_neg (Ne.symm hu.2.1), ihl hu.1, ihr hu.2.2]

theorem rotateAt_join_self (side : Side) (u r : α) (a b c : BinaryTree α) :
    (join side u (join side r c b) a).rotateAt side u = join side r c (join side u b a) := by
  rw [← rotate_join]
  cases side <;> exact if_pos rfl

theorem rotateAt_join {side side' : Side} {a u : α} {near far : BinaryTree α} (ha : a ≠ u) :
    (join side' a near far).rotateAt side u =
      join side' a (near.rotateAt side u) (far.rotateAt side u) := by
  cases side' <;> exact if_neg ha

end BinaryTree

/-- Nodes with children and sizes, and the link that ends a path. -/
structure LinkedNodes (α : Type*) where
  child : α → BinaryTree.Side → α
  size : α → ℕ
  stop : α

namespace LinkedNodes

open BinaryTree

variable {α : Type*} {N N' : LinkedNodes α}

/-- The links from a position run through the tree, with the sizes of its subtrees. -/
def Holds (N : LinkedNodes α) : BinaryTree α → α → Prop
  | .nil, p => p = N.stop
  | .node a l r, p =>
      p = a ∧ a ≠ N.stop ∧ N.size a = (BinaryTree.node a l r).numNodes ∧
        N.Holds l (N.child a .left) ∧ N.Holds r (N.child a .right)

theorem holds_join {side : Side} {a p : α} {near far : BinaryTree α} :
    N.Holds (join side a near far) p ↔
      p = a ∧ a ≠ N.stop ∧ N.size a = near.numNodes + far.numNodes + 1 ∧
        N.Holds near (N.child a side) ∧ N.Holds far (N.child a side.other) := by
  rw [← numNodes_join side a]
  cases side
  · exact Iff.rfl
  · simp only [join, Holds, Side.other]
    tauto

theorem Holds.exists_join (side : Side) {t : BinaryTree α} {p : α} (h : N.Holds t p)
    (hp : p ≠ N.stop) : ∃ near far, t = join side p near far := by
  have ht : t ≠ .nil := by
    rintro rfl
    exact hp h
  obtain ⟨a, near, far, rfl⟩ := BinaryTree.exists_join side ht
  rw [(holds_join.mp h).1]
  exact ⟨near, far, rfl⟩

theorem Holds.unique {t t' : BinaryTree α} {p : α} (h : N.Holds t p) (h' : N.Holds t' p) :
    t = t' := by
  induction t generalizing t' p with
  | nil =>
      cases t' with
      | nil => rfl
      | node b l r => exact absurd (h'.1.symm.trans h) h'.2.1
  | node a l r ihl ihr =>
      cases t' with
      | nil => exact absurd (h.1.symm.trans h') h.2.1
      | node b l' r' =>
          obtain rfl := h.1
          obtain rfl := h'.1
          rw [ihl h.2.2.2.1 h'.2.2.2.1, ihr h.2.2.2.2 h'.2.2.2.2]

/-- The stores have the same node at a position. -/
def AgreeAt (N N' : LinkedNodes α) (p : α) : Prop :=
  N'.child p = N.child p ∧ N'.size p = N.size p

theorem Holds.congr (hstop : N'.stop = N.stop) {t : BinaryTree α} {p : α} (h : N.Holds t p)
    (hagree : ∀ q ∈ t.inorder, AgreeAt N N' q) : N'.Holds t p := by
  induction t generalizing p with
  | nil => exact Eq.trans h hstop.symm
  | node a l r ihl ihr =>
      obtain ⟨rfl, hp, hsize, hl, hr⟩ := h
      simp only [inorder, List.mem_append, List.mem_cons] at hagree
      obtain ⟨hchild, hsize'⟩ := hagree p (.inr (.inl rfl))
      refine ⟨rfl, hstop ▸ hp, hsize'.trans hsize, ?_, ?_⟩
      · rw [hchild]
        exact ihl hl fun q hq => hagree q (.inl hq)
      · rw [hchild]
        exact ihr hr fun q hq => hagree q (.inr (.inr hq))

theorem Holds.exists_subtree (side : Side) {t : BinaryTree α} {p q : α} (h : N.Holds t p)
    (hnodup : t.inorder.Nodup) (hq : q ∈ t.inorder) :
    ∃ near far, N.Holds (join side q near far) q ∧ (join side q near far).inorder.Nodup ∧
      ∀ x ∈ (join side q near far).inorder, x ∈ t.inorder := by
  induction t generalizing p with
  | nil => exact absurd hq List.not_mem_nil
  | node a l r ihl ihr =>
      obtain ⟨-, hnl, hnr, -⟩ := nodup_inorder_join (s := .left).mp hnodup
      rcases mem_inorder_join (s := .left).mp hq with rfl | hl | hr
      · obtain rfl := h.1
        obtain ⟨near, far, hjoin⟩ := h.exists_join side h.2.1
        exact ⟨near, far, hjoin ▸ h, hjoin ▸ hnodup, fun x hx => hjoin ▸ hx⟩
      · obtain ⟨near, far, hsub, hnd, hmem⟩ := ihl h.2.2.2.1 hnl hl
        exact ⟨near, far, hsub, hnd, fun x hx =>
          mem_inorder_join (s := .left).mpr (.inr (.inl (hmem x hx)))⟩
      · obtain ⟨near, far, hsub, hnd, hmem⟩ := ihr h.2.2.2.2 hnr hr
        exact ⟨near, far, hsub, hnd, fun x hx =>
          mem_inorder_join (s := .left).mpr (.inr (.inr (hmem x hx)))⟩

theorem Holds.mem_root {t : BinaryTree α} {p : α} (h : N.Holds t p) (hp : p ≠ N.stop) :
    p ∈ t.inorder := by
  obtain ⟨near, far, rfl⟩ := h.exists_join .left hp
  exact mem_inorder_join.mpr (.inl rfl)

theorem Holds.mem_child {t : BinaryTree α} {p q : α} {side : Side} (h : N.Holds t p)
    (hnodup : t.inorder.Nodup) (hq : q ∈ t.inorder) (hchild : N.child q side ≠ N.stop) :
    N.child q side ∈ t.inorder := by
  obtain ⟨near, far, hsub, -, hmem⟩ := h.exists_subtree side hnodup hq
  have hnear := (holds_join.mp hsub).2.2.2.1
  exact hmem _ (mem_inorder_join.mpr (.inr (.inl (hnear.mem_root hchild))))

theorem Holds.notMem_subtree {t w : BinaryTree α} {p o u : α} {side : Side} (h : N.Holds t p)
    (hnodup : t.inorder.Nodup) (ho : o ∈ t.inorder) (hou : N.child o side = u)
    (hw : N.Holds w u) : o ∉ w.inorder := by
  obtain ⟨near, far, hsub, hnd, -⟩ := h.exists_subtree side hnodup ho
  have hnear := (holds_join.mp hsub).2.2.2.1
  rw [hou] at hnear
  rw [hw.unique hnear]
  exact (nodup_inorder_join.mp hnd).1.1

theorem Holds.rotateAt_near [DecidableEq α] (hagree : N'.stop = N.stop) {side side' : Side}
    {a p u : α} {near far : BinaryTree α} (h : N.Holds (join side' a near far) p)
    (hnodup : (join side' a near far).inorder.Nodup) (hu : u ∈ near.inorder)
    (hnear : N'.Holds (near.rotateAt side u) (N'.child a side'))
    (hother : N'.child a side'.other = N.child a side'.other) (hsize : N'.size a = N.size a)
    (hfar : ∀ q ∈ far.inorder, AgreeAt N N' q) :
    N'.Holds ((join side' a near far).rotateAt side u) p := by
  obtain ⟨rfl, ha, hsizea, -, hholds⟩ := holds_join.mp h
  obtain ⟨⟨hanear, -⟩, -, -, hdisjoint⟩ := nodup_inorder_join.mp hnodup
  rw [rotateAt_join (ne_of_mem_of_not_mem hu hanear).symm, rotateAt_of_notMem (hdisjoint hu)]
  refine holds_join.mpr ⟨rfl, hagree ▸ ha, ?_, hnear, ?_⟩
  · rw [hsize, hsizea, numNodes_rotateAt]
  · rw [hother]
    exact hholds.congr hagree hfar

/-- The store after a rotation at a node, with the number of nodes that its child keeps. -/
structure Rotated (N N' : LinkedNodes α) (side : Side) (u r : α) (k : ℕ) : Prop where
  stop : N'.stop = N.stop
  up_near : N'.child u side = N.child r side.other
  up_far : N'.child u side.other = N.child u side.other
  child_near : N'.child r side = N.child r side
  child_far : N'.child r side.other = u
  size_up : N'.size u = N.size u - k - 1
  size_child : N'.size r = N.size u

section Rotate

variable {side : Side} {u r : α} {k : ℕ} (hrot : Rotated N N' side u r k)
  (hr : N.child u side = r) (hstop : r ≠ N.stop)
  (hk : ∀ c, N.Holds c (N.child r side) → k = c.numNodes)

include hrot hr hstop hk

theorem Holds.rotate_join {a b c : BinaryTree α} (h : N.Holds (join side u (join side r c b) a) u)
    (hnodup : (join side u (join side r c b) a).inorder.Nodup)
    (hframe : ∀ q ∈ (join side u (join side r c b) a).inorder, q ≠ u → q ≠ r → AgreeAt N N' q) :
    N'.Holds (join side r c (join side u b a)) r := by
  obtain ⟨-, hu, hsize, hnear, ha⟩ := holds_join.mp h
  rw [hr] at hnear
  obtain ⟨-, -, hsizer, hc, hb⟩ := holds_join.mp hnear
  obtain ⟨⟨hunear, hua⟩, hnnear, -, hdisjoint⟩ := nodup_inorder_join.mp hnodup
  obtain ⟨⟨hrc, hrb⟩, -, -, -⟩ := nodup_inorder_join.mp hnnear
  have hra : r ∉ a.inorder := fun hra => hdisjoint (mem_inorder_join.mpr (.inl rfl)) hra
  simp only [mem_inorder_join, not_or] at hunear hframe
  have hframe' : ∀ w : BinaryTree α, (∀ x ∈ w.inorder, x ∈ c.inorder ∨ x ∈ b.inorder ∨
      x ∈ a.inorder) → u ∉ w.inorder → r ∉ w.inorder → ∀ q ∈ w.inorder, AgreeAt N N' q := by
    intro w hw huw hrw q hq
    refine hframe q ?_ (ne_of_mem_of_not_mem hq huw) (ne_of_mem_of_not_mem hq hrw)
    have := hw q hq
    tauto
  refine holds_join.mpr ⟨rfl, hrot.stop ▸ hstop, ?_, ?_, holds_join.mpr ⟨?_, ?_, ?_, ?_, ?_⟩⟩
  · rw [hrot.size_child, hsize, numNodes_join, numNodes_join]
    omega
  · rw [hrot.child_near]
    exact hc.congr hrot.stop (hframe' c (fun x hx => .inl hx) hunear.2.1 hrc)
  · exact hrot.child_far
  · exact hrot.stop ▸ hu
  · rw [hrot.size_up, hsize, hk c hc, numNodes_join]
    omega
  · rw [hrot.up_near]
    exact hb.congr hrot.stop (hframe' b (fun x hx => .inr (.inl hx)) hunear.2.2 hrb)
  · rw [hrot.up_far]
    exact ha.congr hrot.stop (hframe' a (fun x hx => .inr (.inr hx)) hua hra)

theorem Holds.rotateAt_root [DecidableEq α] {t : BinaryTree α} (h : N.Holds t u)
    (hu : u ≠ N.stop) (hnodup : t.inorder.Nodup)
    (hframe : ∀ q ∈ t.inorder, q ≠ u → q ≠ r → AgreeAt N N' q) :
    N'.Holds (t.rotateAt side u) r := by
  obtain ⟨near, a, rfl⟩ := h.exists_join side hu
  have hnear := (holds_join.mp h).2.2.2.1
  rw [hr] at hnear
  obtain ⟨c, b, rfl⟩ := hnear.exists_join side hstop
  rw [rotateAt_join_self]
  exact h.rotate_join hrot hr hstop hk hnodup hframe

section Parent

variable {o : α} {side' : Side} (hou : N.child o side' = u) (hu : u ≠ N.stop)

include hou hu

omit hk in
theorem Holds.rotateAt_inner [DecidableEq α] {s : Side} {a p : α} {near far : BinaryTree α}
    (h : N.Holds (join s a near far) p) (hnodup : (join s a near far).inorder.Nodup)
    (ho : o ∈ near.inorder)
    (hframe : ∀ q ∈ (join s a near far).inorder, q ≠ u → q ≠ r → q ≠ o → AgreeAt N N' q)
    (hnear : N'.Holds (near.rotateAt side u) (N.child a s)) :
    N'.Holds ((join s a near far).rotateAt side u) p := by
  have hholds := (holds_join.mp h).2.2.2.1
  obtain ⟨⟨ha, -⟩, hnd, -, hdisjoint⟩ := nodup_inorder_join.mp hnodup
  have hunear := hou ▸ hholds.mem_child hnd ho (hou ▸ hu)
  have hrnear := hr ▸ hholds.mem_child hnd hunear (hr ▸ hstop)
  have hagree : ∀ q ∈ (join s a near far).inorder, q ∉ near.inorder → AgreeAt N N' q :=
    fun q hq hnot => hframe q hq (ne_of_mem_of_not_mem hunear hnot).symm
      (ne_of_mem_of_not_mem hrnear hnot).symm (ne_of_mem_of_not_mem ho hnot).symm
  obtain ⟨hchild, hsize⟩ := hagree a (mem_inorder_join.mpr (.inl rfl)) ha
  refine h.rotateAt_near hrot.stop hnodup hunear (hchild ▸ hnear) (by rw [hchild]) hsize ?_
  exact fun q hq => hagree q (mem_inorder_join.mpr (.inr (.inr hq))) fun hnot => hdisjoint hnot hq

theorem Holds.rotateAt_child [DecidableEq α] {t : BinaryTree α} {p : α} (h : N.Holds t p)
    (hnodup : t.inorder.Nodup) (ho : o ∈ t.inorder) (hor : N'.child o side' = r)
    (hother : N'.child o side'.other = N.child o side'.other) (hsize : N'.size o = N.size o)
    (hframe : ∀ q ∈ t.inorder, q ≠ u → q ≠ r → q ≠ o → AgreeAt N N' q) :
    N'.Holds (t.rotateAt side u) p := by
  induction t generalizing p with
  | nil => exact absurd ho List.not_mem_nil
  | node a l r' ihl ihr =>
      have hmem : ∀ {s : Side} {near far : BinaryTree α}, node a l r' = join s a near far →
          ∀ x ∈ near.inorder, x ∈ (node a l r').inorder := fun hjoin x hx =>
        hjoin ▸ mem_inorder_join.mpr (.inr (.inl hx))
      rcases mem_inorder_join (s := .left).mp ho with rfl | hl | hr'
      · obtain rfl := h.1
        obtain ⟨near, far, hjoin⟩ := h.exists_join side' h.2.1
        rw [hjoin] at h hnodup hframe ⊢
        obtain ⟨⟨honear, hofar⟩, hnd, -, hdisjoint⟩ := nodup_inorder_join.mp hnodup
        have hholds := (holds_join.mp h).2.2.2.1
        rw [hou] at hholds
        have hunear := hholds.mem_root hu
        have hrnear := hr ▸ hholds.mem_child hnd hunear (hr ▸ hstop)
        refine h.rotateAt_near hrot.stop hnodup hunear ?_ hother hsize ?_
        · rw [hor]
          refine hholds.rotateAt_root hrot hr hstop hk hu hnd fun q hq hqu hqr => ?_
          exact hframe q (mem_inorder_join.mpr (.inr (.inl hq))) hqu hqr
            (ne_of_mem_of_not_mem hq honear)
        · intro q hq
          have hnot : q ∉ near.inorder := fun hnot => hdisjoint hnot hq
          exact hframe q (mem_inorder_join.mpr (.inr (.inr hq)))
            (ne_of_mem_of_not_mem hunear hnot).symm (ne_of_mem_of_not_mem hrnear hnot).symm
            (ne_of_mem_of_not_mem hq hofar)
      · have hl' := ihl h.2.2.2.1 (nodup_inorder_join (s := .left).mp hnodup).2.1 hl
          fun q hq => hframe q (hmem (s := .left) rfl q hq)
        exact Holds.rotateAt_inner (s := .left) hrot hr hstop hou hu h hnodup hl hframe hl'
      · have hr'' := ihr h.2.2.2.2 (nodup_inorder_join (s := .right).mp hnodup).2.1 hr'
          fun q hq => hframe q (hmem (s := .right) rfl q hq)
        exact Holds.rotateAt_inner hrot hr hstop hou hu
          (show N.Holds (join .right a r' l) p from h) hnodup hr' hframe hr''

end Parent

end Rotate

end LinkedNodes
