import DistStorage.Trees.Rotation

/-!
# The dynamic index

The nodes of the index lie at positions of a storage, and a link is the position of a
node or `EMPTY`. A rotation exchanges links through two swaps with a position that is
passed by value, and derives the sizes from one count of its caller, who sets the link
of the parent to the position that is returned. It does not read the data that follows
a header.
-/

namespace DistStorage

namespace Storage

open BinaryTree (Side)

abbrev Tpos := UInt32

def EMPTY : Tpos := -1

structure IndexNodeHeader where
  left : Tpos := EMPTY
  right : Tpos := EMPTY
  elemCount : Tpos := 1
  deriving DecidableEq, Repr

def IndexNodeHeader.child (node : IndexNodeHeader) : Side → Tpos
  | .left => node.left
  | .right => node.right

def IndexNodeHeader.setChild (node : IndexNodeHeader) (side : Side) (position : Tpos) :
    IndexNodeHeader :=
  match side with
  | .left => { node with left := position }
  | .right => { node with right := position }

/-- The nodes at the positions of the storage; a pointer to a node is its position. -/
abbrev NodeStore := Tpos → IndexNodeHeader

def swapChild (nodes : NodeStore) (node : Tpos) (side : Side) (position : Tpos) :
    NodeStore × Tpos :=
  (Function.update nodes node ((nodes node).setChild side position), (nodes node).child side)

def setElemCount (nodes : NodeStore) (node count : Tpos) : NodeStore :=
  Function.update nodes node { nodes node with elemCount := count }

def rotate (side : Side) (nodes : NodeStore) (upNode upNodePos childNode childNodeCount : Tpos) :
    NodeStore × Tpos :=
  let first := swapChild nodes childNode side.other upNodePos
  let second := swapChild first.1 upNode side first.2
  let allCnt := (second.1 upNode).elemCount
  let nodes := setElemCount second.1 upNode (allCnt - childNodeCount - 1)
  (setElemCount nodes childNode allCnt, second.2)

def rotateLeft (nodes : NodeStore) (upNode upNodePos rightNode rightNodeRightCount : Tpos) :
    NodeStore × Tpos :=
  rotate .right nodes upNode upNodePos rightNode rightNodeRightCount

def rotateRight (nodes : NodeStore) (upNode upNodePos leftNode leftNodeLeftCount : Tpos) :
    NodeStore × Tpos :=
  rotate .left nodes upNode upNodePos leftNode leftNodeLeftCount

/-- A link to a node: that of the whole index, or one of a node. -/
inductive Link
  | root
  | child (node : Tpos) (side : Side)
  deriving DecidableEq, Repr

structure IndexStore where
  nodes : NodeStore
  root : Tpos

namespace IndexStore

def get (s : IndexStore) : Link → Tpos
  | .root => s.root
  | .child node side => (s.nodes node).child side

def set (s : IndexStore) : Link → Tpos → IndexStore
  | .root, position => { s with root := position }
  | .child node side, position => { s with nodes := (swapChild s.nodes node side position).1 }

def childAt (s : IndexStore) (side : Side) (link : Link) : Tpos :=
  (s.nodes (s.get link)).child side

def rotation : Side → NodeStore → Tpos → Tpos → Tpos → Tpos → NodeStore × Tpos
  | .left => rotateRight
  | .right => rotateLeft

/-- The node of a link is rotated, and the link is set to the returned position. -/
def rotateAt (s : IndexStore) (side : Side) (link : Link) (count : Tpos) : IndexStore :=
  let result := rotation side s.nodes (s.get link) (s.get link) (s.childAt side link) count
  { s with nodes := result.1 }.set link result.2

/-- The nodes with the end of the links. -/
def linked (s : IndexStore) : LinkedNodes Tpos where
  child p side := (s.nodes p).child side
  size p := (s.nodes p).elemCount.toNat
  stop := EMPTY

/-- The store holds a tree of positions: no node is shared, and every count is the size
of the subtree. -/
structure Holds (s : IndexStore) (t : BinaryTree Tpos) : Prop where
  links : s.linked.Holds t s.root
  nodup : t.inorder.Nodup

/-- The size of the subtree at a position. -/
def SubtreeSize (s : IndexStore) (position count : Tpos) : Prop :=
  ∃ t, s.linked.Holds t position ∧ count.toNat = t.numNodes

/-- The link is that of the index or of a node of the tree. -/
def LinkOn : Link → BinaryTree Tpos → Prop
  | .root, _ => True
  | .child node _, t => node ∈ t.inorder

/-- A node of the tree and its child on the side, with the size of the subtree of the
child on the same side. -/
structure Rotatable (s : IndexStore) (side : Side) (link : Link) (count : Tpos) : Prop where
  tree : ∃ t, s.Holds t ∧ LinkOn link t
  up : s.get link ≠ EMPTY
  child : s.childAt side link ≠ EMPTY
  count : s.SubtreeSize ((s.nodes (s.childAt side link)).child side) count

def Rotation (s s' : IndexStore) : Prop :=
  ∃ side link count, s.Rotatable side link count ∧ s' = s.rotateAt side link count

end IndexStore

section Nodes

@[simp] theorem child_setChild (node : IndexNodeHeader) (side : Side) (position : Tpos) :
    (node.setChild side position).child side = position := by
  cases side <;> rfl

@[simp] theorem child_other_setChild (node : IndexNodeHeader) (side : Side) (position : Tpos) :
    (node.setChild side position).child side.other = node.child side.other := by
  cases side <;> rfl

@[simp] theorem child_setChild_other (node : IndexNodeHeader) (side : Side) (position : Tpos) :
    (node.setChild side.other position).child side = node.child side := by
  cases side <;> rfl

@[simp] theorem elemCount_setChild (node : IndexNodeHeader) (side : Side) (position : Tpos) :
    (node.setChild side position).elemCount = node.elemCount := by
  cases side <;> rfl

def IndexNodeHeader.setLinkCount (node : IndexNodeHeader) (side : Side) (position count : Tpos) :
    IndexNodeHeader :=
  { node.setChild side position with elemCount := count }

@[simp] theorem child_setLinkCount (node : IndexNodeHeader) (side side' : Side)
    (position count : Tpos) : (node.setLinkCount side position count).child side' =
      (node.setChild side position).child side' := by
  cases side' <;> rfl

theorem setLinkCount_setLinkCount (node : IndexNodeHeader) (side : Side)
    (position count : Tpos) : (node.setLinkCount side position count).setLinkCount side
      (node.child side) node.elemCount = node := by
  cases side <;> rfl

theorem setChild_setChild (node : IndexNodeHeader) (side : Side) (position : Tpos) :
    (node.setChild side position).setChild side (node.child side) = node := by
  cases side <;> rfl

theorem toNat_sub_sub_one {all count : Tpos} (h : count.toNat + 1 ≤ all.toNat) :
    (all - count - 1).toNat = all.toNat - count.toNat - 1 := by
  have hrest := UInt32.toNat_sub_of_le all count (UInt32.le_iff_toNat_le.mpr (by omega))
  have hone : (1 : Tpos).toNat = 1 := rfl
  rw [UInt32.toNat_sub_of_le _ _ (UInt32.le_iff_toNat_le.mpr (by omega)), hrest, hone]

def rotatedNodes (nodes : NodeStore) (side : Side) (upNode childNode count : Tpos) : NodeStore :=
  Function.update
    (Function.update nodes upNode ((nodes upNode).setLinkCount side
      ((nodes childNode).child side.other) ((nodes upNode).elemCount - count - 1)))
    childNode ((nodes childNode).setLinkCount side.other upNode (nodes upNode).elemCount)

theorem rotate_eq (side : Side) (nodes : NodeStore) {upNode childNode : Tpos}
    (hne : childNode ≠ upNode) (count : Tpos) :
    rotate side nodes upNode upNode childNode count =
      (rotatedNodes nodes side upNode childNode count, (nodes upNode).child side) := by
  simp only [rotate, swapChild, setElemCount, rotatedNodes, Function.update_self,
    elemCount_setChild, Function.update_of_ne hne, Function.update_of_ne hne.symm]
  refine Prod.ext (funext fun p => ?_) rfl
  by_cases hchild : p = childNode
  · subst hchild
    simp only [Function.update_self]
    rfl
  · by_cases hup : p = upNode
    · subst hup
      simp only [Function.update_self, Function.update_of_ne hchild]
      rfl
    · simp only [Function.update_of_ne hchild, Function.update_of_ne hup]

end Nodes

namespace IndexStore

theorem get_set (s : IndexStore) (link : Link) (position : Tpos) :
    (s.set link position).get link = position := by
  cases link with
  | root => rfl
  | child node side =>
      rw [get, set, swapChild]
      simp

theorem set_nodes_of_ne (s : IndexStore) {link : Link} {p : Tpos}
    (hp : ∀ side, link ≠ .child p side) (position : Tpos) :
    (s.set link position).nodes p = s.nodes p := by
  cases link with
  | root => rfl
  | child node side =>
      refine Function.update_of_ne ?_ _ _
      rintro rfl
      exact hp side rfl

theorem set_nodes_congr {s s' : IndexStore} {p : Tpos} (h : s'.nodes p = s.nodes p) (link : Link)
    (position : Tpos) : (s'.set link position).nodes p = (s.set link position).nodes p := by
  cases link with
  | root => exact h
  | child node side =>
      simp only [set, swapChild, Function.update_apply]
      split_ifs with hp
      · rw [← hp, h]
      · exact h

theorem set_set (s : IndexStore) (link : Link) (position : Tpos) :
    (s.set link position).set link (s.get link) = s := by
  cases link with
  | root => rfl
  | child node side =>
      simp only [set, swapChild, get, Function.update_self, Function.update_idem,
        setChild_setChild, Function.update_eq_self]

section Step

variable {s : IndexStore} {side : Side} {link : Link} (count : Tpos)

/-- The nodes of a rotation differ, and neither has the link. -/
structure Apart (s : IndexStore) (side : Side) (link : Link) : Prop where
  child_ne : s.childAt side link ≠ s.get link
  up : ∀ side', link ≠ .child (s.get link) side'
  child : ∀ side', link ≠ .child (s.childAt side link) side'

theorem rotateAt_eq (h : s.childAt side link ≠ s.get link) :
    s.rotateAt side link count =
      IndexStore.set ⟨rotatedNodes s.nodes side (s.get link) (s.childAt side link) count, s.root⟩
        link (s.childAt side link) := by
  have hrotation : ∀ side, rotation side = rotate side := fun side => by cases side <;> rfl
  rw [rotateAt, hrotation, rotate_eq side s.nodes h]
  rfl

theorem rotateAt_root (h : s.Apart side link) :
    (s.rotateAt side link count).root = (s.set link (s.childAt side link)).root := by
  rw [rotateAt_eq count h.child_ne]
  cases link <;> rfl

theorem rotateAt_nodes_up (h : s.Apart side link) :
    (s.rotateAt side link count).nodes (s.get link) = (s.nodes (s.get link)).setLinkCount side
      ((s.nodes (s.childAt side link)).child side.other)
      ((s.nodes (s.get link)).elemCount - count - 1) := by
  rw [rotateAt_eq count h.child_ne, set_nodes_of_ne _ h.up]
  change rotatedNodes _ _ _ _ _ _ = _
  rw [rotatedNodes, Function.update_of_ne h.child_ne.symm, Function.update_self]

theorem rotateAt_nodes_child (h : s.Apart side link) :
    (s.rotateAt side link count).nodes (s.childAt side link) =
      (s.nodes (s.childAt side link)).setLinkCount side.other (s.get link)
        (s.nodes (s.get link)).elemCount := by
  rw [rotateAt_eq count h.child_ne, set_nodes_of_ne _ h.child]
  exact Function.update_self ..

/-- The other nodes are as after the link alone is set. -/
theorem rotateAt_nodes_of_ne (h : s.Apart side link) {p : Tpos} (hup : p ≠ s.get link)
    (hchild : p ≠ s.childAt side link) :
    (s.rotateAt side link count).nodes p = (s.set link (s.childAt side link)).nodes p := by
  rw [rotateAt_eq count h.child_ne]
  refine set_nodes_congr ?_ link _
  change rotatedNodes _ _ _ _ _ _ = _
  rw [rotatedNodes, Function.update_of_ne hchild, Function.update_of_ne hup]

theorem get_rotateAt (hapart : s.Apart side link) :
    (s.rotateAt side link count).get link = s.childAt side link := by
  rw [rotateAt_eq count hapart.child_ne, get_set]

theorem childAt_rotateAt (hapart : s.Apart side link) :
    (s.rotateAt side link count).childAt side.other link = s.get link := by
  rw [childAt, get_rotateAt count hapart, rotateAt_nodes_child count hapart]
  simp

end Step

section Tree

variable {s : IndexStore} {t : BinaryTree Tpos} {side : Side} {link : Link} {count : Tpos}
  (h : s.Holds t)

include h

theorem Holds.get_mem (hon : LinkOn link t) (hup : s.get link ≠ EMPTY) :
    s.get link ∈ t.inorder := by
  cases link with
  | root => exact h.links.mem_root hup
  | child node side => exact h.links.mem_child (N := s.linked) h.nodup hon hup

theorem Rotatable.on (hrot : s.Rotatable side link count) : LinkOn link t := by
  obtain ⟨t', h', hon⟩ := hrot.tree
  rwa [h.links.unique h'.links]

theorem Holds.up_mem (hrot : s.Rotatable side link count) : s.get link ∈ t.inorder :=
  h.get_mem (hrot.on h) hrot.up

theorem Holds.childAt_mem (hrot : s.Rotatable side link count) :
    s.childAt side link ∈ t.inorder :=
  h.links.mem_child (N := s.linked) h.nodup (h.up_mem hrot) hrot.child

theorem Holds.exists_shape (hrot : s.Rotatable side link count) :
    ∃ a b c, s.linked.Holds
        (.join side (s.get link) (.join side (s.childAt side link) c b) a) (s.get link) ∧
      (BinaryTree.join side (s.get link)
        (.join side (s.childAt side link) c b) a).inorder.Nodup ∧
      count.toNat = c.numNodes := by
  obtain ⟨near, a, hsub, hnodup, -⟩ := h.links.exists_subtree side h.nodup (h.up_mem hrot)
  have hnear := (LinkedNodes.holds_join.mp hsub).2.2.2.1
  obtain ⟨c, b, rfl⟩ := hnear.exists_join side hrot.child
  refine ⟨a, b, c, hsub, hnodup, ?_⟩
  obtain ⟨c', hc', hcount⟩ := hrot.count
  rw [hcount, hc'.unique (LinkedNodes.holds_join.mp hnear).2.2.2.1]

theorem Holds.notMem_subtree {w : BinaryTree Tpos} (hon : LinkOn link t)
    (hw : s.linked.Holds w (s.get link)) {p : Tpos} (hp : p ∈ w.inorder) (side' : Side) :
    link ≠ .child p side' := by
  rintro rfl
  exact h.links.notMem_subtree h.nodup hon rfl hw hp

theorem Rotatable.apart (hrot : s.Rotatable side link count) : s.Apart side link := by
  obtain ⟨a, b, c, hsub, hnodup, -⟩ := h.exists_shape hrot
  have hup := hsub.mem_root hrot.up
  have hchild := hsub.mem_child (N := s.linked) hnodup hup hrot.child
  refine ⟨fun heq => ?_, h.notMem_subtree (hrot.on h) hsub hup,
    h.notMem_subtree (hrot.on h) hsub hchild⟩
  exact (BinaryTree.nodup_inorder_join.mp hnodup).1.1
    (BinaryTree.mem_inorder_join.mpr (.inl heq.symm))

theorem Rotatable.rotated (hrot : s.Rotatable side link count) :
    LinkedNodes.Rotated s.linked (s.rotateAt side link count).linked side (s.get link)
      (s.childAt side link) count.toNat := by
  have hapart := hrot.apart h
  obtain ⟨a, b, c, hsub, -, hcount⟩ := h.exists_shape hrot
  have hsize := (LinkedNodes.holds_join.mp hsub).2.2.1
  rw [BinaryTree.numNodes_join] at hsize
  change (s.nodes (s.get link)).elemCount.toNat = _ at hsize
  have hup := rotateAt_nodes_up count hapart
  have hchild := rotateAt_nodes_child count hapart
  constructor
  · rfl
  · simp [linked, hup]
  · simp [linked, hup]
  · simp [linked, hchild]
  · simp [linked, hchild]
  · change ((s.rotateAt side link count).nodes (s.get link)).elemCount.toNat =
      (s.nodes (s.get link)).elemCount.toNat - count.toNat - 1
    rw [hup]
    change ((s.nodes (s.get link)).elemCount - count - 1).toNat = _
    exact toNat_sub_sub_one (by omega)
  · simp [linked, hchild]
    rfl

/-- Nodes without the link and off the rotation are kept. -/
theorem Rotatable.agreeAt (hrot : s.Rotatable side link count) {q : Tpos}
    (hup : q ≠ s.get link) (hchild : q ≠ s.childAt side link)
    (hlink : ∀ side', link ≠ .child q side') :
    s.linked.AgreeAt (s.rotateAt side link count).linked q := by
  have hnodes := (rotateAt_nodes_of_ne count (hrot.apart h) hup hchild).trans
    (set_nodes_of_ne s hlink _)
  exact ⟨funext fun _ => congrArg (IndexNodeHeader.child · _) hnodes,
    congrArg (fun node => node.elemCount.toNat) hnodes⟩

theorem Holds.rotateAt (hrot : s.Rotatable side link count) :
    (s.rotateAt side link count).Holds (t.rotateAt side (s.get link)) := by
  have hapart := hrot.apart h
  have hrotated := hrot.rotated h
  refine ⟨?_, by rw [BinaryTree.inorder_rotateAt]; exact h.nodup⟩
  have hk : ∀ c, s.linked.Holds c (s.linked.child (s.childAt side link) side) →
      count.toNat = c.numNodes := by
    intro c hc
    obtain ⟨c', hc', hcount⟩ := hrot.count
    rw [hcount, hc'.unique hc]
  rw [rotateAt_root _ hapart]
  have hon := hrot.on h
  cases link with
  | root =>
      refine h.links.rotateAt_root hrotated rfl hrot.child hk hrot.up h.nodup ?_
      exact fun q _ hup hchild => hrot.agreeAt h hup hchild fun _ => nofun
  | child node side' =>
      have hnode : (s.rotateAt side (.child node side') count).nodes node =
          (s.nodes node).setChild side' (s.childAt side (.child node side')) := by
        have hup : node ≠ s.get (.child node side') :=
          fun heq => hapart.up side' (congrArg (Link.child · side') heq)
        have hchild : node ≠ s.childAt side (.child node side') :=
          fun heq => hapart.child side' (congrArg (Link.child · side') heq)
        rw [rotateAt_nodes_of_ne _ hapart hup hchild]
        exact Function.update_self ..
      refine h.links.rotateAt_child hrotated rfl hrot.child hk rfl hrot.up h.nodup hon ?_ ?_ ?_ ?_
      · simp [linked, hnode]
      · simp [linked, hnode]
      · simp [linked, hnode]
      · intro q _ hup hchild hq
        refine hrot.agreeAt h hup hchild fun _ heq => hq ?_
        cases heq
        rfl

theorem Holds.rotated_subtree (hrot : s.Rotatable side link count) :
    ∃ a, s.linked.Holds a ((s.nodes (s.get link)).child side.other) ∧
      (s.rotateAt side link count).linked.Holds a
        (((s.rotateAt side link count).nodes (s.get link)).child side.other) ∧
      (s.nodes (s.get link)).elemCount.toNat =
        (s.nodes (s.childAt side link)).elemCount.toNat + a.numNodes + 1 := by
  obtain ⟨a, b, c, hsub, hnodup, hcount⟩ := h.exists_shape hrot
  obtain ⟨-, -, hsize, hnear, ha⟩ := LinkedNodes.holds_join.mp hsub
  obtain ⟨-, -, hsize', hc, -⟩ := LinkedNodes.holds_join.mp hnear
  have hk : ∀ c, s.linked.Holds c (s.linked.child (s.childAt side link) side) →
      count.toNat = c.numNodes := fun c' hc' => by rw [hcount, hc.unique hc']
  have hrotated := hsub.rotate_join (hrot.rotated h) rfl hrot.child hk hnodup
    fun q hq hup hchild => hrot.agreeAt h hup hchild (h.notMem_subtree (hrot.on h) hsub hq)
  have hback := (LinkedNodes.holds_join.mp (LinkedNodes.holds_join.mp hrotated).2.2.2.2).2.2.2.2
  rw [BinaryTree.numNodes_join] at hsize
  change (s.nodes (s.get link)).elemCount.toNat = _ at hsize
  change (s.nodes (s.childAt side link)).elemCount.toNat = _ at hsize'
  exact ⟨a, ha, hback, by omega⟩

/-- The rotation to the other side can follow. -/
theorem Holds.exists_back (hrot : s.Rotatable side link count) :
    ∃ count', (s.rotateAt side link count).Rotatable side.other link count' := by
  have hapart := hrot.apart h
  obtain ⟨a, -, hback, hsize⟩ := h.rotated_subtree hrot
  refine ⟨UInt32.ofNat a.numNodes, ⟨_, h.rotateAt hrot, ?_⟩, ?_, ?_, a, ?_, ?_⟩
  · have hon := hrot.on h
    cases link with
    | root => trivial
    | child node side' => rwa [LinkOn, BinaryTree.inorder_rotateAt]
  · rw [get_rotateAt _ hapart]
    exact hrot.child
  · rw [childAt_rotateAt _ hapart]
    exact hrot.up
  · rw [childAt_rotateAt _ hapart]
    exact hback
  · have hlt := (s.nodes (s.get link)).elemCount.toNat_lt
    exact UInt32.toNat_ofNat_of_lt' (show a.numNodes < 2 ^ 32 by omega)

/-- The count of the rotation back is what the node has on its other side. -/
theorem Holds.back_count (hrot : s.Rotatable side link count) {count' : Tpos}
    (hback : (s.rotateAt side link count).Rotatable side.other link count') :
    (s.nodes (s.get link)).elemCount - count' - 1 =
      (s.nodes (s.childAt side link)).elemCount := by
  obtain ⟨a, -, ha, hsize⟩ := h.rotated_subtree hrot
  obtain ⟨a', ha', hcount⟩ := hback.count
  rw [childAt_rotateAt count (hrot.apart h)] at ha'
  rw [ha'.unique ha] at hcount
  refine UInt32.toNat_inj.mp ?_
  rw [toNat_sub_sub_one (by omega)]
  omega

/-- The rotation to the other side restores the store. -/
theorem Holds.rotateAt_back (hrot : s.Rotatable side link count) {count' : Tpos}
    (hback : (s.rotateAt side link count).Rotatable side.other link count') :
    (s.rotateAt side link count).rotateAt side.other link count' = s := by
  have hapart := hrot.apart h
  have hapart' := hback.apart (h.rotateAt hrot)
  have hget := get_rotateAt count hapart
  have hchildAt := childAt_rotateAt count hapart
  have hup := rotateAt_nodes_up count hapart
  have hchild := rotateAt_nodes_child count hapart
  have hup' := rotateAt_nodes_up count' hapart'
  have hchild' := rotateAt_nodes_child count' hapart'
  rw [hget, hchildAt, hchild, hup] at hup' hchild'
  have hnodes : ∀ p, ((s.rotateAt side link count).rotateAt side.other link count').nodes p =
      s.nodes p := by
    intro p
    by_cases hpup : p = s.get link
    · subst hpup
      rw [hchild', Side.other_other]
      exact setLinkCount_setLinkCount ..
    · by_cases hpchild : p = s.childAt side link
      · subst hpchild
        rw [hup']
        simp only [Side.other_other, child_setLinkCount, child_setChild]
        refine Eq.trans ?_ (setLinkCount_setLinkCount _ side.other (s.get link)
          (s.nodes (s.get link)).elemCount)
        exact congrArg _ (h.back_count hrot hback)
      · rw [rotateAt_nodes_of_ne _ hapart' (hget ▸ hpchild) (hchildAt ▸ hpup), hchildAt,
          set_nodes_congr (rotateAt_nodes_of_ne _ hapart hpup hpchild), set_set]
  have hroot : ((s.rotateAt side link count).rotateAt side.other link count').root = s.root := by
    rw [rotateAt_root _ hapart', hchildAt]
    cases link with
    | root => rfl
    | child node side' => exact rotateAt_root _ hapart
  cases hs : (s.rotateAt side link count).rotateAt side.other link count' with
  | mk nodes root =>
      rw [hs] at hnodes hroot
      cases s
      exact congrArg₂ IndexStore.mk (funext hnodes) hroot

theorem Holds.rotateAt_nodes_of_notMem (hrot : s.Rotatable side link count) {p : Tpos}
    (hp : p ∉ t.inorder) : (s.rotateAt side link count).nodes p = s.nodes p := by
  have hon := hrot.on h
  rw [rotateAt_nodes_of_ne _ (hrot.apart h) (ne_of_mem_of_not_mem (h.up_mem hrot) hp).symm
    (ne_of_mem_of_not_mem (h.childAt_mem hrot) hp).symm]
  refine set_nodes_of_ne s (fun side' => ?_) _
  rintro rfl
  exact hp hon

end Tree

/-- Along every sequence of rotations the store holds a tree with the same in-order
sequence, and the rest of the store is kept. A rotation after it changes two nodes and
the link of the parent, and the rotation to the other side restores the store. -/
theorem Holds.rotations {s s' : IndexStore} {t : BinaryTree Tpos} (h : s.Holds t)
    (hrun : Relation.ReflTransGen Rotation s s') :
    (∃ t', s'.Holds t' ∧ t'.inorder = t.inorder) ∧
      (∀ p ∉ t.inorder, s'.nodes p = s.nodes p) ∧
      ∀ side link count, s'.Rotatable side link count →
        (∀ p, p ≠ s'.get link → p ≠ s'.childAt side link →
          (s'.rotateAt side link count).nodes p =
            (s'.set link (s'.childAt side link)).nodes p) ∧
        (∃ count', (s'.rotateAt side link count).Rotatable side.other link count') ∧
        ∀ count', (s'.rotateAt side link count).Rotatable side.other link count' →
          (s'.rotateAt side link count).rotateAt side.other link count' = s' := by
  have hholds : (∃ t', s'.Holds t' ∧ t'.inorder = t.inorder) ∧
      ∀ p ∉ t.inorder, s'.nodes p = s.nodes p := by
    induction hrun with
    | refl => exact ⟨⟨t, h, rfl⟩, fun _ _ => rfl⟩
    | tail _ hstep ih =>
        obtain ⟨⟨t', h', horder⟩, hkept⟩ := ih
        obtain ⟨side, link, count, hrot, rfl⟩ := hstep
        refine ⟨⟨_, h'.rotateAt hrot, (BinaryTree.inorder_rotateAt ..).trans horder⟩, ?_⟩
        intro p hp
        rw [h'.rotateAt_nodes_of_notMem hrot (horder ▸ hp), hkept p hp]
  obtain ⟨t', h', -⟩ := hholds.1
  refine ⟨hholds.1, hholds.2, fun side link count hrot => ⟨fun p hup hchild => ?_, ?_, ?_⟩⟩
  · exact rotateAt_nodes_of_ne _ (hrot.apart h') hup hchild
  · exact h'.exists_back hrot
  · exact fun count' hback => h'.rotateAt_back hrot hback

def pair : IndexStore where
  nodes p := if p = 0 then { right := 1, elemCount := 2 } else {}
  root := 0

theorem holds_pair : pair.Holds (.node 0 .nil (.node 1 .nil .nil)) :=
  ⟨⟨rfl, by decide, rfl, rfl, rfl, by decide, rfl, rfl, rfl⟩, by decide⟩

/-- The second node is rotated to the root, and back. -/
theorem Holds.rotations_sample :
    (pair.rotateAt .right .root 0).root = 1 ∧
      (∃ t', (pair.rotateAt .right .root 0).Holds t' ∧ t'.inorder = [0, 1]) ∧
      (pair.rotateAt .right .root 0).rotateAt .left .root 0 = pair := by
  have hrot : pair.Rotatable .right .root 0 :=
    ⟨⟨_, holds_pair, trivial⟩, by decide, by decide, .nil, rfl, rfl⟩
  have hrun := holds_pair.rotations (.single ⟨.right, .root, 0, hrot, rfl⟩)
  refine ⟨by decide, hrun.1, (holds_pair.rotations .refl).2.2 .right .root 0 hrot |>.2.2 0 ?_⟩
  exact ⟨⟨_, holds_pair.rotateAt hrot, trivial⟩, by decide, by decide, .nil, rfl, rfl⟩

end IndexStore

end Storage

end DistStorage
