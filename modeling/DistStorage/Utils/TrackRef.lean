import DistStorage.Cpp.Integer
import DistStorage.Transition.Defined

/-!
# Counted references

A `TrackRef` points to a `RefCountObject` and counts itself in it. When the count of an
object comes down to zero, the object is deleted, and the references that are members of
it are destroyed, the last one first; they may be the last ones to other objects. A
reference can also leave as a plain pointer and come back.

The state lists the references and the objects that exist, and the plain pointers that are
out. A reference is known by its place, and so is an object; the members of an object are
the references it owns. To touch a reference or an object that does not exist is
undefined. `unref` takes the depth to which objects may delete one another.
-/

namespace DistStorage

namespace Utils

open Cpp Transition

/-- The references and where they point, the objects and their counts, and the plain
pointers that are out. -/
structure TrackRefs (κ ω : Type) where
  cells : List κ := []
  owner : κ → Option ω := fun _ => none
  obj : κ → Option ω := fun _ => none
  objects : List ω := []
  refCount : ω → ℤ := fun _ => 0
  voidRefs : List ω := []

/-- The operations. The default constructor takes a null pointer, and a move assignment is
a copy assignment. -/
inductive RefEvent (κ ω : Type)
  | newObject (o : ω) (members : List κ)
  | construct (c : κ) (obj : Option ω)
  | copy (c ref2 : κ)
  | move (c other : κ)
  | assign (c ref2 : κ)
  | destroy (c : κ)
  | moveToVoidRef (c : κ)
  | copyVoidRef (c : κ) (voidRef : Option ω)

namespace TrackRefs

variable {κ ω : Type} [DecidableEq κ] [DecidableEq ω]

/-- An atomic `int` wraps around. -/
def fetchAdd (s : TrackRefs κ ω) (o : ω) (n : ℤ) : TrackRefs κ ω :=
  { s with refCount := Function.update s.refCount o (Int.bmod (s.refCount o + n) (2 ^ 32)) }

def incRef (s : TrackRefs κ ω) : Option ω → Option (TrackRefs κ ω)
  | none => some s
  | some o => if o ∈ s.objects then some (s.fetchAdd o 1) else none

def read (s : TrackRefs κ ω) (c : κ) : Option (Option ω) :=
  if c ∈ s.cells then some (s.obj c) else none

def write (s : TrackRefs κ ω) (c : κ) (obj : Option ω) : Option (TrackRefs κ ω) :=
  if c ∈ s.cells then some { s with obj := Function.update s.obj c obj } else none

def beginCell (s : TrackRefs κ ω) (c : κ) (obj : Option ω) : TrackRefs κ ω :=
  { s with
    cells := c :: s.cells
    owner := Function.update s.owner c none
    obj := Function.update s.obj c obj }

def endCell (s : TrackRefs κ ω) (c : κ) : TrackRefs κ ω :=
  { s with cells := s.cells.filter (· ≠ c) }

def members (s : TrackRefs κ ω) (o : ω) : List κ := s.cells.filter fun c => s.owner c = some o

def deleteWith (unref : TrackRefs κ ω → κ → Option (TrackRefs κ ω)) (s : TrackRefs κ ω) (o : ω) :
    Option (TrackRefs κ ω) :=
  ((s.members o).foldlM (fun s c => (unref s c).map fun s => s.endCell c) s).map fun s =>
    { s with objects := s.objects.erase o }

/-- `TrackRef::unref`, and the `unref` of its object. -/
def unref : ℕ → TrackRefs κ ω → κ → Option (TrackRefs κ ω)
  | 0 => fun _ _ => none
  | depth + 1 => fun s c =>
      (s.read c).bind fun obj =>
        match obj with
        | none => some s
        | some o =>
            if o ∈ s.objects then
              (if s.refCount o = 1 then deleteWith (unref depth) (s.fetchAdd o (-1)) o
                else some (s.fetchAdd o (-1))).bind fun s => s.write c none
            else none

/-- No more objects can delete one another than there are. -/
def release (s : TrackRefs κ ω) (c : κ) : Option (TrackRefs κ ω) :=
  unref (s.objects.length + 1) s c

def newObject (s : TrackRefs κ ω) (o : ω) (members : List κ) : TrackRefs κ ω :=
  { s with
    cells := members.reverse ++ s.cells
    owner := fun c => if c ∈ members then some o else s.owner c
    obj := fun c => if c ∈ members then none else s.obj c
    objects := o :: s.objects
    refCount := Function.update s.refCount o 0 }

/-- The plain pointers that are out when one comes back. -/
def takeVoidRef (s : TrackRefs κ ω) : Option ω → List ω
  | none => s.voidRefs
  | some o => s.voidRefs.erase o

def step (s : TrackRefs κ ω) : RefEvent κ ω → Option (TrackRefs κ ω)
  | .newObject o members => some (s.newObject o members)
  | .construct c obj => (s.beginCell c obj).incRef obj
  | .copy c ref2 => (s.read ref2).bind fun obj => (s.beginCell c obj).incRef obj
  | .move c other => (s.read other).bind fun obj => (s.beginCell c obj).write other none
  | .assign c ref2 =>
      (s.release c).bind fun s =>
        (s.read ref2).bind fun obj => (s.write c obj).bind fun s => s.incRef obj
  | .destroy c => (s.release c).map fun s => s.endCell c
  | .moveToVoidRef c =>
      (s.read c).bind fun obj =>
        ({ s with voidRefs := obj.toList ++ s.voidRefs } : TrackRefs κ ω).write c none
  | .copyVoidRef c voidRef =>
      some (({ s with voidRefs := s.takeVoidRef voidRef } : TrackRefs κ ω).beginCell c voidRef)

/-- A new object or reference takes a place that is free, what is read or destroyed exists,
members are destroyed with their object only, and a plain pointer comes back once. -/
def Possible (s : TrackRefs κ ω) : RefEvent κ ω → Prop
  | .newObject o members => o ∉ s.objects ∧ members.Nodup ∧ ∀ c ∈ members, c ∉ s.cells
  | .construct c obj => c ∉ s.cells ∧ ∀ o ∈ obj, o ∈ s.objects
  | .copy c other | .move c other => c ∉ s.cells ∧ other ∈ s.cells
  | .assign c ref2 => c ∈ s.cells ∧ ref2 ∈ s.cells
  | .destroy c => c ∈ s.cells ∧ s.owner c = none
  | .moveToVoidRef c => c ∈ s.cells
  | .copyVoidRef c voidRef => c ∉ s.cells ∧ ∀ o ∈ voidRef, o ∈ s.voidRefs

instance decidablePossible (s : TrackRefs κ ω) (e : RefEvent κ ω) : Decidable (s.Possible e) :=
  match e with
  | .newObject o members => inferInstanceAs
      (Decidable (o ∉ s.objects ∧ members.Nodup ∧ ∀ c ∈ members, c ∉ s.cells))
  | .construct c obj => inferInstanceAs (Decidable (c ∉ s.cells ∧ ∀ o ∈ obj, o ∈ s.objects))
  | .copy c other | .move c other => inferInstanceAs (Decidable (c ∉ s.cells ∧ other ∈ s.cells))
  | .assign c ref2 => inferInstanceAs (Decidable (c ∈ s.cells ∧ ref2 ∈ s.cells))
  | .destroy c => inferInstanceAs (Decidable (c ∈ s.cells ∧ s.owner c = none))
  | .moveToVoidRef c => inferInstanceAs (Decidable (c ∈ s.cells))
  | .copyVoidRef c voidRef => inferInstanceAs
      (Decidable (c ∉ s.cells ∧ ∀ o ∈ voidRef, o ∈ s.voidRefs))

def pointing (cells : List κ) (obj : κ → Option ω) (o : ω) : ℕ :=
  cells.countP fun c => obj c = some o

def one (obj : Option ω) (o : ω) : ℕ := if obj = some o then 1 else 0

/-- The references to an object, with those that are out as plain pointers. -/
def refs (s : TrackRefs κ ω) (o : ω) : ℕ := pointing s.cells s.obj o + s.voidRefs.count o

section Pointing

variable {cells : List κ} {obj : κ → Option ω} {c : κ} {o : ω}

omit [DecidableEq κ] in
theorem pointing_pos (hc : c ∈ cells) (hobj : obj c = some o) : 0 < pointing cells obj o :=
  List.countP_pos_iff.mpr ⟨c, hc, decide_eq_true hobj⟩

omit [DecidableEq κ] in
theorem pointing_cons : pointing (c :: cells) obj o = pointing cells obj o + one (obj c) o := by
  rw [pointing, List.countP_cons, pointing, one]
  simp only [decide_eq_true_eq]

theorem pointing_update_of_not_mem (hc : c ∉ cells) (x : Option ω) :
    pointing cells (Function.update obj c x) o = pointing cells obj o := by
  refine List.countP_congr fun c' hc' => ?_
  rw [Function.update_of_ne]
  rintro rfl
  exact hc hc'

theorem pointing_update (hcells : cells.Nodup) (hc : c ∈ cells) (obj : κ → Option ω)
    (x : Option ω) (o : ω) :
    pointing cells (Function.update obj c x) o + one (obj c) o =
      pointing cells obj o + one x o := by
  have hperm : ∀ obj : κ → Option ω, pointing cells obj o =
      pointing (cells.erase c) obj o + one (obj c) o := fun obj => by
    rw [pointing, (List.perm_cons_erase hc).countP_eq, ← pointing, pointing_cons]
  rw [hperm, hperm obj, pointing_update_of_not_mem hcells.not_mem_erase, Function.update_self]
  exact Nat.add_right_comm _ _ _

theorem pointing_filter_ne (cells : List κ) (hobj : obj c = none) (o : ω) :
    pointing (cells.filter (· ≠ c)) obj o = pointing cells obj o := by
  rw [pointing, List.countP_filter]
  refine List.countP_congr fun c' _ => ?_
  by_cases hne : c' = c
  · simp [hne, hobj]
  · simp [hne]

omit [DecidableEq κ] in
theorem pointing_le {cells' : List κ} {obj' : κ → Option ω} (hcells : cells.Nodup)
    (h : ∀ x ∈ cells, obj x = some o → x ∈ cells' ∧ obj' x = some o) :
    pointing cells obj o ≤ pointing cells' obj' o := by
  rw [pointing, pointing, List.countP_eq_length_filter, List.countP_eq_length_filter]
  refine ((hcells.filter _).subperm fun x hx => ?_).length_le
  obtain ⟨hx, hobj⟩ := List.mem_filter.mp hx
  obtain ⟨hx', hobj'⟩ := h x hx (of_decide_eq_true hobj)
  exact List.mem_filter.mpr ⟨hx', decide_eq_true hobj'⟩

theorem pointing_lt {cells' : List κ} {obj' : κ → Option ω} (hcells : cells.Nodup)
    (hcells' : cells'.Nodup)
    (h : ∀ x ∈ cells, obj x = some o → x ∈ cells' ∧ obj' x = some o) (hc : c ∈ cells')
    (hobj : obj' c = some o) (hnot : c ∈ cells → obj c ≠ some o) :
    pointing cells obj o < pointing cells' obj' o := by
  have hle : pointing cells obj o ≤ pointing cells' (Function.update obj' c none) o := by
    refine pointing_le hcells fun x hx hobj' => ?_
    have hne : x ≠ c := by
      rintro rfl
      exact hnot hx hobj'
    rw [Function.update_of_ne hne]
    exact h x hx hobj'
  have hupdate := pointing_update hcells' hc obj' none o
  rw [hobj, one, if_pos rfl, one, if_neg (Option.some_ne_none o).symm] at hupdate
  omega

end Pointing

/-- The count of every object is the number of its references, an `int` holds it, and
nothing points to what does not exist. -/
structure Counted (s : TrackRefs κ ω) : Prop where
  cells : s.cells.Nodup
  objects : s.objects.Nodup
  counted : ∀ o ∈ s.objects, s.refCount o = s.refs o
  small : ∀ o ∈ s.objects, s.refCount o ≤ intMax
  existing : ∀ o, 0 < s.refs o → o ∈ s.objects
  owned : ∀ c ∈ s.cells, ∀ o, s.owner c = some o → o ∈ s.objects

/-- What a step that follows the claims of an operation does: the counts are right after
it, an assigned reference points where the other one did, an object is deleted exactly if
it loses its last reference, and nothing points to what is deleted. -/
structure Tracked (s : TrackRefs κ ω) (e : RefEvent κ ω) (t : TrackRefs κ ω) : Prop where
  counted : ∀ o ∈ t.objects, t.refCount o = t.refs o
  assigned : ∀ c ref2, e = .assign c ref2 → t.obj c = s.obj ref2
  deleted : ∀ o ∈ s.objects, o ∉ t.objects ↔ 0 < s.refs o ∧ t.refs o = 0
  unused : ∀ o, o ∉ t.objects → t.refs o = 0

/-- The objects that go had a count, and those that stay do not come down to zero. -/
structure DeletesAtZero (s t : TrackRefs κ ω) : Prop where
  gone : ∀ o ∈ s.objects, o ∉ t.objects → 0 < s.refCount o
  stays : ∀ o ∈ s.objects, o ∈ t.objects → t.refCount o = 0 → s.refCount o = 0

section Counted

variable {s t : TrackRefs κ ω}

omit [DecidableEq κ] in
theorem Counted.refs_eq_zero (h : s.Counted) {o : ω} (ho : o ∉ s.objects) : s.refs o = 0 := by
  by_contra hne
  exact ho (h.existing o (Nat.pos_of_ne_zero hne))

omit [DecidableEq κ] in
theorem Counted.mem_objects_of_obj (h : s.Counted) {c : κ} {o : ω} (hc : c ∈ s.cells)
    (hobj : s.obj c = some o) : o ∈ s.objects :=
  h.existing o (Nat.add_pos_left (pointing_pos hc hobj) _)

omit [DecidableEq κ] in
theorem tracked_of_deletesAtZero {e : RefEvent κ ω} (hs : s.Counted) (ht : t.Counted)
    (hassigned : ∀ c ref2, e = .assign c ref2 → t.obj c = s.obj ref2)
    (hdeletes : DeletesAtZero s t) : Tracked s e t := by
  refine ⟨ht.counted, hassigned, fun o ho => ?_, fun o ho => ht.refs_eq_zero ho⟩
  have hcount := hs.counted o ho
  constructor
  · intro hgone
    have hpos := hdeletes.gone o ho hgone
    exact ⟨by omega, ht.refs_eq_zero hgone⟩
  · rintro ⟨hpos, hzero⟩ hstays
    have hcountt := ht.counted o hstays
    have := hdeletes.stays o ho hstays (by omega)
    omega

/-- The references to some objects grow by what their counts grow by. -/
structure Grows (s t : TrackRefs κ ω) (more : ω → ℕ) : Prop where
  cells : t.cells.Nodup
  objects : t.objects = s.objects
  owned : ∀ c ∈ t.cells, ∀ o, t.owner c = some o → o ∈ s.objects
  refs : ∀ o, t.refs o = s.refs o + more o
  count : ∀ o ∈ s.objects, t.refCount o = s.refCount o + more o
  fits : ∀ o, 0 < more o → o ∈ s.objects ∧ s.refCount o + more o ≤ intMax

variable {more : ω → ℕ}

omit [DecidableEq κ] in
theorem Grows.counted (hgrows : Grows s t more) (h : s.Counted) : t.Counted := by
  refine ⟨hgrows.cells, hgrows.objects ▸ h.objects, ?_, ?_, ?_, hgrows.objects ▸ hgrows.owned⟩
  · rw [hgrows.objects]
    intro o ho
    rw [hgrows.count o ho, h.counted o ho, hgrows.refs o, Nat.cast_add]
  · rw [hgrows.objects]
    intro o ho
    rw [hgrows.count o ho]
    by_cases hpos : 0 < more o
    · exact (hgrows.fits o hpos).2
    · have := h.small o ho
      omega
  · rw [hgrows.objects]
    intro o ho
    rw [hgrows.refs o] at ho
    by_cases hpos : 0 < more o
    · exact (hgrows.fits o hpos).1
    · exact h.existing o (by omega)

omit [DecidableEq κ] in
theorem Grows.deletesAtZero (hgrows : Grows s t more) (h : s.Counted) : DeletesAtZero s t := by
  refine ⟨fun o ho hgone => absurd (hgrows.objects ▸ ho) hgone, fun o ho _ hzero => ?_⟩
  have := h.counted o ho
  rw [hgrows.count o ho] at hzero
  omega

end Counted

section Operations

variable {s t : TrackRefs κ ω} {c : κ} {obj : Option ω}

theorem refs_beginCell (hc : c ∉ s.cells) (obj : Option ω) (o : ω) :
    (s.beginCell c obj).refs o = s.refs o + one obj o := by
  rw [refs, beginCell, pointing_cons, pointing_update_of_not_mem hc]
  dsimp only
  rw [Function.update_self]
  exact Nat.add_right_comm _ _ _

theorem refs_write (hcells : s.cells.Nodup) (hc : c ∈ s.cells) (obj : Option ω) (o : ω) :
    refs { s with obj := Function.update s.obj c obj } o + one (s.obj c) o =
      s.refs o + one obj o := by
  have h := pointing_update hcells hc s.obj obj o
  simp only [refs]
  omega

theorem owned_beginCell (h : s.Counted) (c : κ) (obj : Option ω) :
    ∀ c' ∈ (s.beginCell c obj).cells, ∀ o, (s.beginCell c obj).owner c' = some o →
      o ∈ s.objects := by
  intro c' hc' o howner
  rw [beginCell] at howner
  dsimp only at howner
  by_cases hne : c' = c
  · rw [hne, Function.update_self] at howner
    cases howner
  · rw [Function.update_of_ne hne] at howner
    exact h.owned c' (List.mem_of_ne_of_mem hne hc') o howner

omit [DecidableEq κ] in
theorem exists_incRef (hobj : ∀ o ∈ obj, o ∈ s.objects ∧ 0 ≤ s.refCount o ∧
    s.refCount o < intMax) : ∃ counts, s.incRef obj = some { s with refCount := counts } ∧
      ∀ o, counts o = s.refCount o + one obj o := by
  cases obj with
  | none => exact ⟨s.refCount, rfl, fun o => (add_zero _).symm⟩
  | some o =>
      obtain ⟨ho, hnonneg, hlt⟩ := hobj o rfl
      refine ⟨_, if_pos ho, fun o' => ?_⟩
      rw [one]
      by_cases hne : o' = o
      · rw [hne, Function.update_self, if_pos rfl, Nat.cast_one]
        unfold intMax at hlt
        exact Int.bmod_eq_of_le (by omega) (by omega)
      · rw [Function.update_of_ne hne, if_neg fun h => hne (Option.some.inj h).symm,
          Nat.cast_zero, add_zero]

omit [DecidableEq κ] in
theorem fits_of_lt (hobj : ∀ o ∈ obj, o ∈ s.objects ∧ s.refCount o < intMax) (o : ω)
    (hpos : 0 < one obj o) : o ∈ s.objects ∧ s.refCount o + one obj o ≤ intMax := by
  have heq : obj = some o := by
    by_contra hne
    rw [one, if_neg hne] at hpos
    omega
  rw [one, if_pos heq]
  exact ⟨(hobj o heq).1, (hobj o heq).2⟩

theorem exists_grows_construct (h : s.Counted) (hc : c ∉ s.cells)
    (hobj : ∀ o ∈ obj, o ∈ s.objects ∧ s.refCount o ≠ intMax) :
    ∃ t, (s.beginCell c obj).incRef obj = some t ∧ Grows s t (one obj) := by
  have hint : ∀ o ∈ obj, o ∈ s.objects ∧ 0 ≤ s.refCount o ∧ s.refCount o < intMax :=
    fun o ho => by
      obtain ⟨hexists, hmax⟩ := hobj o ho
      have hcount := h.counted o hexists
      exact ⟨hexists, by omega, lt_of_le_of_ne (h.small o hexists) hmax⟩
  obtain ⟨counts, ht, hcounts⟩ := exists_incRef (s := s.beginCell c obj) hint
  exact ⟨_, ht, List.nodup_cons.mpr ⟨hc, h.cells⟩, rfl, owned_beginCell h c obj,
    refs_beginCell hc obj, fun o _ => hcounts o,
    fits_of_lt fun o ho => ⟨(hint o ho).1, (hint o ho).2.2⟩⟩

omit [DecidableEq κ] in
theorem grows_of_refs_eq (hcells : t.cells.Nodup) (hobjects : t.objects = s.objects)
    (howned : ∀ c ∈ t.cells, ∀ o, t.owner c = some o → o ∈ s.objects)
    (hrefs : ∀ o, t.refs o = s.refs o) (hcount : t.refCount = s.refCount) :
    Grows s t fun _ => 0 :=
  ⟨hcells, hobjects, howned, hrefs, fun o _ => by rw [hcount, Nat.cast_zero, add_zero],
    fun _ hpos => absurd hpos (lt_irrefl 0)⟩

theorem exists_grows_move {other : κ} (h : s.Counted) (hc : c ∉ s.cells)
    (hother : other ∈ s.cells) :
    ∃ t, (s.beginCell c (s.obj other)).write other none = some t ∧ Grows s t fun _ => 0 := by
  have hcells : (s.beginCell c (s.obj other)).cells.Nodup := List.nodup_cons.mpr ⟨hc, h.cells⟩
  have hmem : other ∈ (s.beginCell c (s.obj other)).cells := List.mem_cons_of_mem c hother
  have hne : other ≠ c := ne_of_mem_of_not_mem hother hc
  have hobj : (s.beginCell c (s.obj other)).obj other = s.obj other :=
    Function.update_of_ne hne _ _
  refine ⟨_, if_pos hmem, grows_of_refs_eq hcells rfl (owned_beginCell h c (s.obj other))
    (fun o => ?_) rfl⟩
  have hwrite := refs_write hcells hmem none o
  rw [hobj, refs_beginCell hc] at hwrite
  exact Nat.add_right_cancel (hwrite.trans (Nat.add_zero _))

theorem exists_grows_moveToVoidRef (h : s.Counted) (hc : c ∈ s.cells) :
    ∃ t, write { s with voidRefs := (s.obj c).toList ++ s.voidRefs } c none = some t ∧
      Grows s t fun _ => 0 := by
  refine ⟨_, if_pos hc, grows_of_refs_eq h.cells rfl h.owned (fun o => ?_) rfl⟩
  have hwrite := refs_write h.cells hc none o
  have hcount : (s.obj c).toList.count o = one (s.obj c) o := by
    rw [one]
    cases s.obj c with
    | none => rfl
    | some o' => simp [List.count_cons, Option.some.injEq]
  simp only [refs] at hwrite
  simp only [refs, List.count_append, hcount]
  have hzero : one none o = 0 := rfl
  omega

theorem grows_copyVoidRef (h : s.Counted) (hc : c ∉ s.cells) (hobj : ∀ o ∈ obj, o ∈ s.voidRefs) :
    Grows s (beginCell { s with voidRefs := s.takeVoidRef obj } c obj) fun _ => 0 := by
  refine grows_of_refs_eq (List.nodup_cons.mpr ⟨hc, h.cells⟩) rfl (owned_beginCell h c obj)
    (fun o => ?_) rfl
  rw [refs_beginCell (s := { s with voidRefs := s.takeVoidRef obj }) hc, refs, refs, Nat.add_assoc]
  congr 1
  cases obj with
  | none => rfl
  | some o' =>
      rw [takeVoidRef, one, (List.perm_cons_erase (hobj o' rfl)).count_eq, List.count_cons]
      simp only [beq_iff_eq, Option.some.injEq]

omit [DecidableEq ω] in
theorem mem_endCell {x : κ} : x ∈ (s.endCell c).cells ↔ x ∈ s.cells ∧ x ≠ c := by
  rw [endCell, List.mem_filter, decide_eq_true_eq]

theorem Counted.endCell (h : s.Counted) (hobj : s.obj c = none) : (s.endCell c).Counted := by
  have hrefs : ∀ o, (s.endCell c).refs o = s.refs o := fun o =>
    congrArg (· + s.voidRefs.count o) (pointing_filter_ne s.cells hobj o)
  refine ⟨h.cells.filter _, h.objects, fun o ho => ?_, h.small, fun o hpos => ?_,
    fun x hx => h.owned x (mem_endCell.mp hx).1⟩
  · rw [hrefs]
    exact h.counted o ho
  · rw [hrefs] at hpos
    exact h.existing o hpos

theorem refs_newObject {o : ω} {members : List κ} (hmembers : ∀ c ∈ members, c ∉ s.cells) (o' : ω) :
    (s.newObject o members).refs o' = s.refs o' := by
  rw [refs, refs, newObject]
  dsimp only
  rw [pointing, List.countP_append]
  have hnew : members.reverse.countP (fun c => (if c ∈ members then none else s.obj c) = some o') =
      0 := by
    refine List.countP_eq_zero.mpr fun c hc => ?_
    rw [if_pos (List.mem_reverse.mp hc)]
    simp
  have hold : s.cells.countP (fun c => (if c ∈ members then none else s.obj c) = some o') =
      pointing s.cells s.obj o' := by
    refine List.countP_congr fun c hc => ?_
    rw [if_neg fun hmem => hmembers c hmem hc]
  rw [hnew, hold, Nat.zero_add]

theorem counted_newObject (h : s.Counted) {o : ω} {members : List κ} (ho : o ∉ s.objects)
    (hnodup : members.Nodup) (hmembers : ∀ c ∈ members, c ∉ s.cells) :
    (s.newObject o members).Counted := by
  have hrefs := refs_newObject (o := o) hmembers
  have hcount : ∀ o' ∈ s.objects, (s.newObject o members).refCount o' = s.refCount o' :=
    fun o' ho' => Function.update_of_ne (ne_of_mem_of_not_mem ho' ho) _ _
  have hzero : (s.newObject o members).refCount o = 0 := Function.update_self _ _ _
  refine ⟨?_, List.nodup_cons.mpr ⟨ho, h.objects⟩, ?_, ?_, ?_, ?_⟩
  · refine List.nodup_append.mpr ⟨List.nodup_reverse.mpr hnodup, h.cells, ?_⟩
    rintro c hc c' hc' rfl
    exact hmembers c (List.mem_reverse.mp hc) hc'
  · intro o' ho'
    obtain rfl | ho' := List.mem_cons.mp ho'
    · rw [hrefs, hzero, h.refs_eq_zero ho, Nat.cast_zero]
    · rw [hrefs, hcount o' ho', h.counted o' ho']
  · intro o' ho'
    obtain rfl | ho' := List.mem_cons.mp ho'
    · rw [hzero]
      decide
    · rw [hcount o' ho']
      exact h.small o' ho'
  · intro o' hpos
    rw [hrefs] at hpos
    exact List.mem_cons_of_mem o (h.existing o' hpos)
  · intro c hc o' howner
    rw [newObject] at howner
    dsimp only at howner
    split_ifs at howner with hmem
    · obtain rfl := Option.some.inj howner
      exact List.mem_cons_self
    · have hc : c ∈ s.cells := (List.mem_append.mp hc).resolve_left fun hrev =>
        hmem (List.mem_reverse.mp hrev)
      exact List.mem_cons_of_mem o (h.owned c hc o' howner)

theorem deletesAtZero_newObject {o : ω} (ho : o ∉ s.objects) (members : List κ) :
    DeletesAtZero s (s.newObject o members) := by
  refine ⟨fun o' ho' hgone => absurd (List.mem_cons_of_mem o ho') hgone, fun o' ho' _ hzero => ?_⟩
  rw [newObject] at hzero
  dsimp only at hzero
  rw [Function.update_of_ne (ne_of_mem_of_not_mem ho' ho)] at hzero
  exact hzero

end Operations

end TrackRefs

end Utils

end DistStorage
