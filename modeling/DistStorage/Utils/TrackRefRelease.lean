import DistStorage.Utils.TrackRef

/-!
# The release of a reference

A release may delete the object it was the last reference to, and with it the objects to
which the members of that one were the last references. Until an object that was released
has come back from its deletion, the reference still points to it, though it is not
counted any more: these references are on the stack of the release, and the counts are
right when they are taken to point nowhere.

The objects that a release deletes are `Doomed`: every reference to them is the one that
is released or a member of a doomed object. All other references are left as they are.
-/

namespace DistStorage

namespace Utils

namespace TrackRefs

open Cpp

variable {κ ω : Type}

/-- The objects that have no references but `c` and the members of such objects. -/
inductive Doomed (s : TrackRefs κ ω) (c : κ) : ω → Prop
  | intro {o : ω} (holder : κ → ω) (hpointed : ∃ x ∈ s.cells, s.obj x = some o)
      (hvoid : o ∉ s.voidRefs)
      (howner : ∀ x ∈ s.cells, s.obj x = some o → x ≠ c → s.owner x = some (holder x))
      (hdoomed : ∀ x ∈ s.cells, s.obj x = some o → x ≠ c → Doomed s c (holder x)) : Doomed s c o

/-- A reference outlives the release of `c`. -/
def Survives (s : TrackRefs κ ω) (c x : κ) : Prop := ∀ o, s.owner x = some o → ¬Doomed s c o

/-- A reference outlives it until the objects that are being deleted are gone. -/
def Spared (s : TrackRefs κ ω) (c : κ) (deleting : List ω) (x : κ) : Prop :=
  ∀ o, s.owner x = some o → o ∈ deleting ∨ ¬Doomed s c o

variable [DecidableEq κ] [DecidableEq ω]

/-- The references on the stack are taken to point nowhere. -/
def masked (s : TrackRefs κ ω) (stack : List κ) : TrackRefs κ ω :=
  { s with obj := fun c => if c ∈ stack then none else s.obj c }

/-- The state `s` in the middle of the release of `c₀` in the state `s₀`. -/
structure Releasing (s₀ : TrackRefs κ ω) (c₀ : κ) (deleting : List ω) (stack : List κ)
    (s : TrackRefs κ ω) : Prop where
  counted : (s.masked stack).Counted
  owner : s.owner = s₀.owner
  voidRefs : s.voidRefs = s₀.voidRefs
  initial : ∀ x ∈ s.cells, x ∈ s₀.cells
  pointed : ∀ x ∈ s.cells, ∀ o, (s.masked stack).obj x = some o → s₀.obj x = some o
  deleted : ∀ o ∈ deleting, o ∈ s.objects ∧ s.refCount o = 0
  stacked : ∀ x ∈ stack, x ∈ s.cells ∧ Spared s₀ c₀ deleting x
  kept : ∀ x ∈ s₀.cells, x ≠ c₀ → Survives s₀ c₀ x →
    x ∈ s.cells ∧ (s.masked stack).obj x = s₀.obj x
  alive : ∀ o ∈ s₀.objects, ¬Doomed s₀ c₀ o → o ∈ s.objects

/-- What goes in a part of a release had a count, and what stays comes down to zero only
while it is being deleted. -/
structure Shrinks (deleting : List ω) (s t : TrackRefs κ ω) : Prop where
  cells : ∀ x ∈ t.cells, x ∈ s.cells
  objects : t.objects.Sublist s.objects
  counts : ∀ o, t.refCount o ≤ s.refCount o
  gone : ∀ o ∈ s.objects, o ∉ t.objects → 0 < s.refCount o
  stays : ∀ o ∈ t.objects, t.refCount o = 0 → o ∈ deleting ∨ s.refCount o = 0

/-- What the release of a reference leads to. -/
structure Released (s₀ : TrackRefs κ ω) (c₀ : κ) (deleting : List ω) (stack : List κ)
    (s : TrackRefs κ ω) (c : κ) (t : TrackRefs κ ω) : Prop where
  releasing : Releasing s₀ c₀ deleting stack t
  obj : t.obj c = none
  shrinks : Shrinks deleting s t
  spared : ∀ x ∈ s.cells, Spared s₀ c₀ deleting x → x ∈ t.cells

section Release

variable {s₀ s t u : TrackRefs κ ω} {c₀ c : κ} {o : ω} {deleting : List ω} {stack : List κ}

omit [DecidableEq κ] [DecidableEq ω] in
theorem Survives.spared {x : κ} (h : Survives s₀ c₀ x) (deleting : List ω) :
    Spared s₀ c₀ deleting x := fun o howner => .inr (h o howner)

omit [DecidableEq κ] [DecidableEq ω] in
theorem Spared.cons {x : κ} (h : Spared s₀ c₀ deleting x) (o : ω) :
    Spared s₀ c₀ (o :: deleting) x :=
  fun o' howner => (h o' howner).imp_left fun ho' => List.mem_cons_of_mem o ho'

omit [DecidableEq κ] [DecidableEq ω] in
/-- What is spared is no member of a doomed object that is not yet being deleted. -/
theorem Spared.owner_ne {x : κ} (h : Spared s₀ c₀ deleting x) (hdoomed : Doomed s₀ c₀ o)
    (ho : o ∉ deleting) : s₀.owner x ≠ some o :=
  fun howner => (h o howner).elim ho fun hnot => hnot hdoomed

omit [DecidableEq κ] [DecidableEq ω] in
theorem Shrinks.refl (deleting : List ω) (s : TrackRefs κ ω) : Shrinks deleting s s :=
  ⟨fun _ hx => hx, List.Sublist.refl _, fun _ => le_refl _, fun _ ho hgone => absurd ho hgone,
    fun _ _ hzero => .inr hzero⟩

omit [DecidableEq κ] [DecidableEq ω] in
theorem Shrinks.trans (hst : Shrinks deleting s t) (htu : Shrinks deleting t u) :
    Shrinks deleting s u := by
  refine ⟨fun x hx => hst.cells x (htu.cells x hx), htu.objects.trans hst.objects,
    fun o => (htu.counts o).trans (hst.counts o), fun o ho hgone => ?_, fun o ho hzero => ?_⟩
  · by_cases hmem : o ∈ t.objects
    · exact (htu.gone o hmem hgone).trans_le (hst.counts o)
    · exact hst.gone o ho hmem
  · obtain hdeleting | hzero := htu.stays o ho hzero
    · exact .inl hdeleting
    · exact hst.stays o (htu.objects.subset ho) hzero

theorem Releasing.count_pos (h : Releasing s₀ c₀ deleting stack s) (hc : c ∈ s.cells)
    (hstack : c ∉ stack) (hobj : s.obj c = some o) : o ∈ s.objects ∧ 0 < s.refCount o := by
  have hmasked : (s.masked stack).obj c = some o := (if_neg hstack).trans hobj
  have ho := h.counted.mem_objects_of_obj hc hmasked
  have hpos : 0 < pointing (s.masked stack).cells (s.masked stack).obj o := pointing_pos hc hmasked
  have hcount := h.counted.counted o ho
  rw [refs] at hcount
  refine ⟨ho, ?_⟩
  change (s.masked stack).refCount o > 0
  omega

omit [DecidableEq ω] in
theorem masked_cons (s : TrackRefs κ ω) (stack : List κ) (c : κ) :
    (s.masked (c :: stack)).obj = Function.update (s.masked stack).obj c none := by
  funext x
  rw [masked, masked]
  dsimp only
  by_cases hx : x = c
  · rw [hx, Function.update_self, if_pos List.mem_cons_self]
  · rw [Function.update_of_ne hx]
    simp only [List.mem_cons, hx, false_or]

omit [DecidableEq κ] [DecidableEq ω] in
theorem doomed_of_not_survives (hpointed : ∃ x ∈ s₀.cells, s₀.obj x = some o)
    (hvoid : o ∉ s₀.voidRefs)
    (hall : ∀ x ∈ s₀.cells, s₀.obj x = some o → x ≠ c₀ → ¬Survives s₀ c₀ x) :
    Doomed s₀ c₀ o := by
  have howner : ∀ x ∈ s₀.cells, s₀.obj x = some o → x ≠ c₀ →
      s₀.owner x = some ((s₀.owner x).getD o) ∧ Doomed s₀ c₀ ((s₀.owner x).getD o) := by
    intro x hx hobj hne
    have hnot := hall x hx hobj hne
    simp only [Survives, not_forall, not_not] at hnot
    obtain ⟨o', howner, hdoomed⟩ := hnot
    rw [howner]
    exact ⟨rfl, hdoomed⟩
  exact .intro (fun x => (s₀.owner x).getD o) hpointed hvoid
    (fun x hx hobj hne => (howner x hx hobj hne).1) fun x hx hobj hne => (howner x hx hobj hne).2

theorem Releasing.refs_cons (h : Releasing s₀ c₀ deleting stack s) (hc : c ∈ s.cells)
    (hstack : c ∉ stack) (hobj : s.obj c = some o) (o' : ω) :
    (s.masked (c :: stack)).refs o' + one (some o) o' = (s.masked stack).refs o' := by
  have hmasked : (s.masked stack).obj c = some o := (if_neg hstack).trans hobj
  have hupdate := pointing_update h.counted.cells hc (s.masked stack).obj none o'
  have hnone : one none o' = 0 := rfl
  rw [hmasked, ← masked_cons, hnone] at hupdate
  simp only [refs]
  change pointing s.cells (s.masked (c :: stack)).obj o' + s.voidRefs.count o' + _ =
    pointing s.cells (s.masked stack).obj o' + s.voidRefs.count o'
  change pointing s.cells (s.masked (c :: stack)).obj o' + _ =
    pointing s.cells (s.masked stack).obj o' + 0 at hupdate
  omega

theorem refCount_fetchAdd_neg (h : Releasing s₀ c₀ deleting stack s) (ho : o ∈ s.objects)
    (hpos : 0 < s.refCount o) (o' : ω) :
    (s.fetchAdd o (-1)).refCount o' = s.refCount o' - one (some o) o' := by
  have hsmall : s.refCount o ≤ intMax := h.counted.small o ho
  rw [fetchAdd, one]
  dsimp only
  by_cases hne : o' = o
  · rw [hne, Function.update_self, if_pos rfl, Nat.cast_one]
    unfold intMax at hsmall
    exact Int.bmod_eq_of_le (by omega) (by omega)
  · rw [Function.update_of_ne hne, if_neg fun heq => hne (Option.some.inj heq).symm,
      Nat.cast_zero, sub_zero]

theorem Releasing.fetchAdd (h : Releasing s₀ c₀ deleting stack s) (hc : c ∈ s.cells)
    (hstack : c ∉ stack) (hspared : Spared s₀ c₀ deleting c)
    (hreleased : c ≠ c₀ → ¬Survives s₀ c₀ c) (hobj : s.obj c = some o) :
    Releasing s₀ c₀ deleting (c :: stack) (s.fetchAdd o (-1)) := by
  obtain ⟨ho, hpos⟩ := h.count_pos hc hstack hobj
  have hcount := refCount_fetchAdd_neg h ho hpos
  have hrefs := h.refs_cons hc hstack hobj
  have hcons : ((s.fetchAdd o (-1)).masked (c :: stack)).obj =
      Function.update (s.masked stack).obj c none := masked_cons s stack c
  refine ⟨⟨h.counted.cells, h.counted.objects, ?_, ?_, ?_, h.counted.owned⟩, h.owner, h.voidRefs,
    h.initial, ?_, ?_, ?_, ?_, h.alive⟩
  · intro o' ho'
    have hbefore : s.refCount o' = (s.masked stack).refs o' := h.counted.counted o' ho'
    have hmore := hrefs o'
    change (s.fetchAdd o (-1)).refCount o' = (s.masked (c :: stack)).refs o'
    rw [hcount o']
    omega
  · intro o' ho'
    have hbefore : s.refCount o' ≤ intMax := h.counted.small o' ho'
    change (s.fetchAdd o (-1)).refCount o' ≤ intMax
    rw [hcount o']
    omega
  · intro o' hpos'
    refine h.counted.existing o' ?_
    change 0 < (s.masked (c :: stack)).refs o' at hpos'
    have hmore := hrefs o'
    omega
  · intro x hx o' hx'
    rw [hcons] at hx'
    by_cases hne : x = c
    · rw [hne, Function.update_self] at hx'
      cases hx'
    · rw [Function.update_of_ne hne] at hx'
      exact h.pointed x hx o' hx'
  · intro o' ho'
    obtain ⟨hmem, hzero⟩ := h.deleted o' ho'
    refine ⟨hmem, ?_⟩
    have hne : o ≠ o' := fun heq => by
      rw [heq, hzero] at hpos
      exact absurd hpos (lt_irrefl 0)
    rw [hcount o', hzero, one, if_neg fun heq => hne (Option.some.inj heq), Nat.cast_zero, sub_zero]
  · intro x hx
    obtain rfl | hx := List.mem_cons.mp hx
    · exact ⟨hc, hspared⟩
    · exact h.stacked x hx
  · intro x hx hne hsurvives
    obtain ⟨hmem, hkept⟩ := h.kept x hx hne hsurvives
    refine ⟨hmem, ?_⟩
    rw [hcons, Function.update_of_ne, hkept]
    rintro rfl
    exact hreleased hne hsurvives

/-- An object whose last reference is released is doomed. -/
theorem Releasing.doomed (h : Releasing s₀ c₀ deleting stack s) (hc : c ∈ s.cells)
    (hstack : c ∉ stack) (hreleased : c ≠ c₀ → ¬Survives s₀ c₀ c) (hobj : s.obj c = some o)
    (hone : s.refCount o = 1) : Doomed s₀ c₀ o := by
  obtain ⟨ho, -⟩ := h.count_pos hc hstack hobj
  have hcount : s.refCount o = (s.masked stack).refs o := h.counted.counted o ho
  have hrefs := h.refs_cons hc hstack hobj o
  have hself : one (some o) o = 1 := if_pos rfl
  have hzero : (s.masked (c :: stack)).refs o = 0 := by omega
  rw [refs, Nat.add_eq_zero_iff] at hzero
  have hmasked : (s.masked stack).obj c = some o := (if_neg hstack).trans hobj
  refine doomed_of_not_survives ⟨c, h.initial c hc, h.pointed c hc o hmasked⟩ ?_ ?_
  · rw [← h.voidRefs]
    exact List.count_eq_zero.mp hzero.2
  · intro x hx hx' hne hsurvives
    obtain ⟨hmem, hkept⟩ := h.kept x hx hne hsurvives
    have hxc : x ≠ c := by
      rintro rfl
      exact hreleased hne hsurvives
    have hpoints : (s.masked (c :: stack)).obj x = some o := by
      rw [masked_cons, Function.update_of_ne hxc, hkept, hx']
    have hpos : 0 < pointing (s.masked (c :: stack)).cells (s.masked (c :: stack)).obj o :=
      pointing_pos hmem hpoints
    omega

theorem Releasing.beginDelete (h : Releasing s₀ c₀ deleting stack s) (ho : o ∈ s.objects)
    (hzero : s.refCount o = 0) : Releasing s₀ c₀ (o :: deleting) stack s := by
  refine ⟨h.counted, h.owner, h.voidRefs, h.initial, h.pointed, fun o' ho' => ?_,
    fun x hx => ⟨(h.stacked x hx).1, (h.stacked x hx).2.cons o⟩, h.kept, h.alive⟩
  obtain rfl | ho' := List.mem_cons.mp ho'
  · exact ⟨ho, hzero⟩
  · exact h.deleted o' ho'

theorem Releasing.endCell (h : Releasing s₀ c₀ deleting stack s) (hstack : c ∉ stack)
    (hobj : s.obj c = none) (hreleased : ¬Survives s₀ c₀ c) :
    Releasing s₀ c₀ deleting stack (s.endCell c) := by
  have hmasked : (s.masked stack).obj c = none := (if_neg hstack).trans hobj
  refine ⟨h.counted.endCell hmasked, h.owner, h.voidRefs, fun x hx => ?_, fun x hx => ?_, h.deleted,
    fun x hx => ?_, fun x hx hne hsurvives => ?_, h.alive⟩
  · exact h.initial x (mem_endCell.mp hx).1
  · exact h.pointed x (mem_endCell.mp hx).1
  · obtain ⟨hmem, hspared⟩ := h.stacked x hx
    exact ⟨mem_endCell.mpr ⟨hmem, ne_of_mem_of_not_mem hx hstack⟩, hspared⟩
  · obtain ⟨hmem, hkept⟩ := h.kept x hx hne hsurvives
    refine ⟨mem_endCell.mpr ⟨hmem, ?_⟩, hkept⟩
    rintro rfl
    exact hreleased hsurvives

theorem Releasing.endDelete (h : Releasing s₀ c₀ (o :: deleting) stack s)
    (hdoomed : Doomed s₀ c₀ o) (ho : o ∉ deleting)
    (hspared : ∀ x ∈ stack, Spared s₀ c₀ deleting x)
    (hmembers : ∀ x ∈ s.cells, s.owner x ≠ some o) :
    Releasing s₀ c₀ deleting stack { s with objects := s.objects.erase o } := by
  obtain ⟨hmem, hzero⟩ := h.deleted o List.mem_cons_self
  have hrefs : (s.masked stack).refs o = 0 := by
    have hcount : s.refCount o = (s.masked stack).refs o := h.counted.counted o hmem
    omega
  have hne : ∀ {o'}, o' ∈ s.objects → o' ≠ o → o' ∈ s.objects.erase o := fun ho' hne =>
    (List.mem_erase_of_ne hne).mpr ho'
  refine ⟨⟨h.counted.cells, h.counted.objects.erase o, ?_, ?_, ?_, ?_⟩, h.owner, h.voidRefs,
    h.initial, h.pointed, ?_, fun x hx => ⟨(h.stacked x hx).1, hspared x hx⟩, h.kept, ?_⟩
  · exact fun o' ho' => h.counted.counted o' (List.mem_of_mem_erase ho')
  · exact fun o' ho' => h.counted.small o' (List.mem_of_mem_erase ho')
  · intro o' hpos
    refine hne (h.counted.existing o' hpos) ?_
    rintro rfl
    exact hpos.ne' hrefs
  · intro x hx o' howner
    refine hne (h.counted.owned x hx o' howner) ?_
    rintro rfl
    exact hmembers x hx howner
  · intro o' ho'
    obtain ⟨hmem', hzero'⟩ := h.deleted o' (List.mem_cons_of_mem o ho')
    exact ⟨hne hmem' (ne_of_mem_of_not_mem ho' ho), hzero'⟩
  · intro o' ho' hnot
    refine hne (h.alive o' ho' hnot) ?_
    rintro rfl
    exact hnot hdoomed

theorem Releasing.clear (h : Releasing s₀ c₀ deleting (c :: stack) s) (hstack : c ∉ stack) :
    Releasing s₀ c₀ deleting stack { s with obj := Function.update s.obj c none } := by
  have hmasked : masked { s with obj := Function.update s.obj c none } stack =
      s.masked (c :: stack) := by
    rw [masked, masked]
    congr 1
    funext x
    dsimp only
    by_cases hx : x = c
    · rw [hx, Function.update_self, if_neg hstack, if_pos List.mem_cons_self]
    · rw [Function.update_of_ne hx]
      simp only [List.mem_cons, hx, false_or]
  refine ⟨hmasked ▸ h.counted, h.owner, h.voidRefs, h.initial, hmasked ▸ h.pointed, h.deleted,
    fun x hx => h.stacked x (List.mem_cons_of_mem c hx), hmasked ▸ h.kept, h.alive⟩

def positives (s : TrackRefs κ ω) : ℕ := s.objects.countP fun o => 0 < s.refCount o

omit [DecidableEq κ] [DecidableEq ω] in
theorem Shrinks.positives_le (h : Shrinks deleting s t) : t.positives ≤ s.positives := by
  refine le_trans (List.countP_mono_left fun o _ hpos => ?_) h.objects.countP_le
  exact decide_eq_true ((of_decide_eq_true hpos).trans_le (h.counts o))

theorem Releasing.shrinks_fetchAdd (h : Releasing s₀ c₀ deleting stack s) (ho : o ∈ s.objects)
    (hpos : 0 < s.refCount o) : Shrinks (o :: deleting) s (s.fetchAdd o (-1)) := by
  have hcount := refCount_fetchAdd_neg h ho hpos
  refine ⟨fun _ hx => hx, List.Sublist.refl _, fun o' => ?_, fun _ ho' hgone => absurd ho' hgone,
    fun o' _ hzero => ?_⟩
  · rw [hcount o']
    omega
  · by_cases hne : o' = o
    · exact .inl (hne ▸ List.mem_cons_self)
    · rw [hcount o', one, if_neg fun heq => hne (Option.some.inj heq).symm, Nat.cast_zero,
        sub_zero] at hzero
      exact .inr hzero

omit [DecidableEq κ] in
theorem Shrinks.endDelete (h : Shrinks (o :: deleting) s t) (hobjects : t.objects.Nodup)
    (hpos : 0 < s.refCount o) : Shrinks deleting s { t with objects := t.objects.erase o } := by
  refine ⟨h.cells, List.erase_sublist.trans h.objects, h.counts, fun o' ho' hgone => ?_,
    fun o' ho' hzero => ?_⟩
  · by_cases hne : o' = o
    · exact hne ▸ hpos
    · exact h.gone o' ho' fun hmem => hgone ((List.mem_erase_of_ne hne).mpr hmem)
  · obtain ⟨hne, hmem⟩ := hobjects.mem_erase_iff.mp ho'
    exact (h.stays o' hmem hzero).imp_left fun hcons => (List.mem_cons.mp hcons).resolve_left hne

/-- An object less can be deleted when the last reference to one is on the stack. -/
theorem Releasing.positives_fetchAdd_lt (h : Releasing s₀ c₀ deleting stack s)
    (ho : o ∈ s.objects) (hone : s.refCount o = 1) :
    (s.fetchAdd o (-1)).positives < s.positives := by
  have hcount := refCount_fetchAdd_neg h ho (by omega)
  have hself : (s.fetchAdd o (-1)).refCount o = 0 := by
    rw [hcount o, hone, one, if_pos rfl]
    rfl
  have hrest : (s.objects.erase o).countP (fun o' => 0 < (s.fetchAdd o (-1)).refCount o') ≤
      (s.objects.erase o).countP fun o' => 0 < s.refCount o' := by
    refine List.countP_mono_left fun o' _ hpos => decide_eq_true ?_
    have hpos := of_decide_eq_true hpos
    rw [hcount o'] at hpos
    omega
  have hperm := List.perm_cons_erase ho
  rw [positives, positives]
  change s.objects.countP (fun o' => 0 < (s.fetchAdd o (-1)).refCount o') < _
  rw [hperm.countP_eq, hperm.countP_eq, List.countP_cons, List.countP_cons, hself, hone]
  simp only [lt_irrefl, decide_false, Bool.false_eq_true, if_false, zero_lt_one, decide_true,
    if_true]
  omega

/-- The members of an object are released and end one after the other. -/
theorem exists_deleteMembers {unref : TrackRefs κ ω → κ → Option (TrackRefs κ ω)} {depth : ℕ}
    (hdoomed : Doomed s₀ c₀ o) (ho : o ∉ deleting)
    (hstack : ∀ x ∈ stack, Spared s₀ c₀ deleting x)
    (hunref : ∀ {s c}, Releasing s₀ c₀ (o :: deleting) stack s → c ∈ s.cells → c ∉ stack →
      s₀.owner c = some o → s.positives < depth →
        ∃ t, unref s c = some t ∧ Released s₀ c₀ (o :: deleting) stack s c t)
    {members : List κ} (hnodup : members.Nodup) (h : Releasing s₀ c₀ (o :: deleting) stack s)
    (hmembers : ∀ m ∈ members, m ∈ s.cells ∧ s₀.owner m = some o) (hdepth : s.positives < depth) :
    ∃ t, members.foldlM (fun s c => (unref s c).map fun s => s.endCell c) s = some t ∧
      Releasing s₀ c₀ (o :: deleting) stack t ∧ Shrinks (o :: deleting) s t ∧
      (∀ x ∈ s.cells, Spared s₀ c₀ deleting x → x ∈ t.cells) ∧ ∀ x ∈ t.cells, x ∉ members := by
  induction members generalizing s with
  | nil => exact ⟨s, rfl, h, .refl _ s, fun x hx _ => hx, fun x _ => List.not_mem_nil⟩
  | cons m members ih =>
      obtain ⟨hm, hnodup⟩ := List.nodup_cons.mp hnodup
      obtain ⟨hmem, howner⟩ := hmembers m List.mem_cons_self
      have hm' : m ∉ stack := fun hin => (hstack m hin).owner_ne hdoomed ho howner
      obtain ⟨t, ht, hreleased⟩ := hunref h hmem hm' howner hdepth
      have hend := hreleased.releasing.endCell hm' hreleased.obj fun hs => hs o howner hdoomed
      have hshrinks : Shrinks (o :: deleting) s (t.endCell m) := hreleased.shrinks.trans
        ⟨fun x hx => (mem_endCell.mp hx).1, List.Sublist.refl _, fun _ => le_refl _,
          fun _ ho' hgone => absurd ho' hgone, fun _ _ hzero => .inr hzero⟩
      have hrest : ∀ m' ∈ members, m' ∈ (t.endCell m).cells ∧ s₀.owner m' = some o := by
        intro m' hin
        obtain ⟨hmem', howner'⟩ := hmembers m' (List.mem_cons_of_mem m hin)
        have hspared : Spared s₀ c₀ (o :: deleting) m' := fun o' ho' => by
          rw [howner', Option.some.injEq] at ho'
          exact .inl (ho' ▸ List.mem_cons_self)
        have hkept := hreleased.spared m' hmem' hspared
        exact ⟨mem_endCell.mpr ⟨hkept, ne_of_mem_of_not_mem hin hm⟩, howner'⟩
      obtain ⟨u, hu, hreleasing, hshrinks', hspared, hgone⟩ :=
        ih hnodup hend hrest (hshrinks.positives_le.trans_lt hdepth)
      refine ⟨u, ?_, hreleasing, hshrinks.trans hshrinks', fun x hx hsp => ?_, fun x hx hin => ?_⟩
      · rw [List.foldlM_cons, ht]
        exact hu
      · refine hspared x (mem_endCell.mpr ⟨hreleased.spared x hx (hsp.cons o), ?_⟩) hsp
        rintro rfl
        exact hsp.owner_ne hdoomed ho howner
      · obtain rfl | hin := List.mem_cons.mp hin
        · exact (mem_endCell.mp (hshrinks'.cells x hx)).2 rfl
        · exact hgone x hx hin

theorem Releasing.exists_deleteWith {unref : TrackRefs κ ω → κ → Option (TrackRefs κ ω)}
    {depth : ℕ} (h : Releasing s₀ c₀ deleting stack s) (hc : c ∈ s.cells) (hstack : c ∉ stack)
    (hspared : Spared s₀ c₀ deleting c) (hreleased : c ≠ c₀ → ¬Survives s₀ c₀ c)
    (hobj : s.obj c = some o) (hone : s.refCount o = 1)
    (hunref : ∀ {s c'}, Releasing s₀ c₀ (o :: deleting) (c :: stack) s → c' ∈ s.cells →
      c' ∉ c :: stack → s₀.owner c' = some o → s.positives < depth →
        ∃ t, unref s c' = some t ∧ Released s₀ c₀ (o :: deleting) (c :: stack) s c' t)
    (hdepth : s.positives < depth + 1) :
    ∃ t, deleteWith unref (s.fetchAdd o (-1)) o = some t ∧
      Releasing s₀ c₀ deleting (c :: stack) t ∧ Shrinks deleting s t ∧
      ∀ x ∈ s.cells, Spared s₀ c₀ deleting x → x ∈ t.cells := by
  obtain ⟨ho, hpos⟩ := h.count_pos hc hstack hobj
  have hdoomed := h.doomed hc hstack hreleased hobj hone
  have hnot : o ∉ deleting := fun hin => by
    rw [(h.deleted o hin).2] at hpos
    exact lt_irrefl 0 hpos
  have hself : (s.fetchAdd o (-1)).refCount o = 0 := by
    rw [refCount_fetchAdd_neg h ho hpos o, hone, one, if_pos rfl]
    rfl
  have hbegin := (h.fetchAdd hc hstack hspared hreleased hobj).beginDelete ho hself
  have hstack' : ∀ x ∈ c :: stack, Spared s₀ c₀ deleting x := by
    intro x hx
    obtain rfl | hx := List.mem_cons.mp hx
    · exact hspared
    · exact (h.stacked x hx).2
  have hmem : ∀ {x}, x ∈ (s.fetchAdd o (-1)).members o ↔ x ∈ s.cells ∧ s₀.owner x = some o :=
    fun {x} => by
      rw [← h.owner, members, List.mem_filter, decide_eq_true_eq]
      rfl
  obtain ⟨t, ht, hreleasing, hshrinks, hsp, hgone⟩ := exists_deleteMembers hdoomed hnot hstack'
    hunref (h.counted.cells.filter _) hbegin (fun m hm => hmem.mp hm)
    (lt_of_lt_of_le (h.positives_fetchAdd_lt ho hone) (Nat.lt_succ_iff.mp hdepth))
  have hall := (h.shrinks_fetchAdd ho hpos).trans hshrinks
  have hended : ∀ x ∈ t.cells, t.owner x ≠ some o := fun x hx howner => by
    rw [hreleasing.owner] at howner
    exact hgone x hx (hmem.mpr ⟨hshrinks.cells x hx, howner⟩)
  exact ⟨_, congrArg (Option.map _) ht, hreleasing.endDelete hdoomed hnot hstack' hended,
    hall.endDelete hreleasing.counted.objects hpos, hsp⟩

/-- What is left of the release when the object has come back. -/
theorem released_clear (hreleasing : Releasing s₀ c₀ deleting (c :: stack) t) (hstack : c ∉ stack)
    (hshrinks : Shrinks deleting s t)
    (hsp : ∀ x ∈ s.cells, Spared s₀ c₀ deleting x → x ∈ t.cells) :
    ∃ u, t.write c none = some u ∧ Released s₀ c₀ deleting stack s c u := by
  have hcells : c ∈ t.cells := (hreleasing.stacked c List.mem_cons_self).1
  exact ⟨_, if_pos hcells, hreleasing.clear hstack, Function.update_self _ _ _,
    ⟨hshrinks.cells, hshrinks.objects, hshrinks.counts, hshrinks.gone, hshrinks.stays⟩, hsp⟩

theorem Releasing.shrinks_of_ne_one (h : Releasing s₀ c₀ deleting stack s) (ho : o ∈ s.objects)
    (hpos : 0 < s.refCount o) (hone : s.refCount o ≠ 1) :
    Shrinks deleting s (s.fetchAdd o (-1)) := by
  have hshrinks := h.shrinks_fetchAdd ho hpos
  refine ⟨hshrinks.cells, hshrinks.objects, hshrinks.counts, hshrinks.gone,
    fun o' ho' hzero => ?_⟩
  obtain hin | hzero' := hshrinks.stays o' ho' hzero
  · obtain rfl | hin := List.mem_cons.mp hin
    · rw [refCount_fetchAdd_neg h ho hpos, one, if_pos rfl, Nat.cast_one] at hzero
      exact absurd (by omega) hone
    · exact .inl hin
  · exact .inr hzero'

/-- In the middle of a release that spares the members of what it does not delete, another
reference can be released. -/
theorem exists_unref (depth : ℕ) {deleting : List ω} {stack : List κ} {s : TrackRefs κ ω} {c : κ}
    (h : Releasing s₀ c₀ deleting stack s) (hc : c ∈ s.cells) (hstack : c ∉ stack)
    (hspared : Spared s₀ c₀ deleting c) (hreleased : c ≠ c₀ → ¬Survives s₀ c₀ c)
    (hdepth : s.positives < depth) :
    ∃ t, unref depth s c = some t ∧ Released s₀ c₀ deleting stack s c t := by
  induction depth generalizing deleting stack s c with
  | zero => exact absurd hdepth (Nat.not_lt_zero _)
  | succ depth ih =>
      have hread : s.read c = some (s.obj c) := if_pos hc
      rw [unref]
      dsimp only
      rw [hread, Option.bind_some]
      cases hobj : s.obj c with
      | none =>
          exact ⟨s, rfl, h, hobj, .refl _ s, fun x hx _ => hx⟩
      | some o =>
          obtain ⟨ho, hpos⟩ := h.count_pos hc hstack hobj
          dsimp only
          rw [if_pos ho]
          by_cases hone : s.refCount o = 1
          · have hdoomed := h.doomed hc hstack hreleased hobj hone
            have hmember : ∀ {c'}, s₀.owner c' = some o → Spared s₀ c₀ (o :: deleting) c' :=
              fun howner o' ho' => by
                rw [howner, Option.some.injEq] at ho'
                exact .inl (ho' ▸ List.mem_cons_self)
            obtain ⟨t, ht, hreleasing, hshrinks, hsp⟩ := h.exists_deleteWith hc hstack
              hspared hreleased hobj hone (fun h hc hstack howner hdepth =>
                ih h hc hstack (hmember howner) (fun _ hs => hs o howner hdoomed) hdepth) hdepth
            rw [if_pos hone, ht, Option.bind_some]
            exact released_clear hreleasing hstack hshrinks hsp
          · rw [if_neg hone, Option.bind_some]
            exact released_clear (h.fetchAdd hc hstack hspared hreleased hobj) hstack
              (h.shrinks_of_ne_one ho hpos hone) fun _ hx _ => hx

end Release

section Narrows

variable {s t u : TrackRefs κ ω} {c : κ} {o : ω}

/-- What holds of every part of a release that comes back, whatever the counts are: nothing
is added, a reference is only set to null, and what is deleted has no members any more. -/
structure Narrows (s t : TrackRefs κ ω) : Prop where
  cells : ∀ x ∈ t.cells, x ∈ s.cells
  owner : t.owner = s.owner
  voidRefs : t.voidRefs = s.voidRefs
  obj : ∀ x o, t.obj x = some o → s.obj x = some o
  ended : ∀ o ∈ s.objects, o ∉ t.objects → ∀ x ∈ t.cells, t.owner x ≠ some o

omit [DecidableEq κ] [DecidableEq ω] in
theorem Narrows.refl (s : TrackRefs κ ω) : Narrows s s :=
  ⟨fun _ hx => hx, rfl, rfl, fun _ _ ho => ho, fun _ ho hgone => absurd ho hgone⟩

omit [DecidableEq κ] [DecidableEq ω] in
theorem Narrows.trans (hst : Narrows s t) (htu : Narrows t u) : Narrows s u := by
  refine ⟨fun x hx => hst.cells x (htu.cells x hx), htu.owner.trans hst.owner,
    htu.voidRefs.trans hst.voidRefs, fun x o ho => hst.obj x o (htu.obj x o ho),
    fun o ho hgone x hx => ?_⟩
  by_cases hmem : o ∈ t.objects
  · exact htu.ended o hmem hgone x hx
  · rw [htu.owner]
    exact hst.ended o ho hmem x (htu.cells x hx)

omit [DecidableEq ω] in
theorem narrows_endCell (s : TrackRefs κ ω) (c : κ) : Narrows s (s.endCell c) :=
  ⟨fun _ hx => (mem_endCell.mp hx).1, rfl, rfl, fun _ _ ho => ho, fun _ ho hgone => absurd ho hgone⟩

omit [DecidableEq ω] in
theorem narrows_write (h : s.write c none = some t) :
    Narrows s t ∧ c ∈ t.cells ∧ t.obj c = none := by
  rw [write] at h
  split_ifs at h with hc
  obtain rfl := Option.some.inj h
  refine ⟨⟨fun _ hx => hx, rfl, rfl, fun x o ho => ?_, fun _ ho hgone => absurd ho hgone⟩, hc,
    Function.update_self _ _ _⟩
  dsimp only at ho
  by_cases hx : x = c
  · rw [hx, Function.update_self] at ho
    cases ho
  · rw [Function.update_of_ne hx] at ho
    exact ho

omit [DecidableEq ω] in
theorem narrows_deleteMembers {unref : TrackRefs κ ω → κ → Option (TrackRefs κ ω)}
    (hunref : ∀ {s c t}, unref s c = some t → Narrows s t) {members : List κ}
    (h : members.foldlM (fun s c => (unref s c).map fun s => s.endCell c) s = some t) :
    Narrows s t ∧ ∀ x ∈ members, x ∉ t.cells := by
  induction members generalizing s with
  | nil =>
      obtain rfl := Option.some.inj h
      exact ⟨.refl s, fun x hx => (List.not_mem_nil hx).elim⟩
  | cons m members ih =>
      rw [List.foldlM_cons] at h
      obtain ⟨u, hu, h⟩ := Option.bind_eq_some_iff.mp h
      obtain ⟨v, hv, rfl⟩ := Option.map_eq_some_iff.mp hu
      obtain ⟨hnarrows, hmembers⟩ := ih h
      refine ⟨((hunref hv).trans (narrows_endCell v m)).trans hnarrows, fun x hx hin => ?_⟩
      obtain rfl | hx := List.mem_cons.mp hx
      · exact (mem_endCell.mp (hnarrows.cells x hin)).2 rfl
      · exact hmembers x hx hin

theorem narrows_deleteWith {unref : TrackRefs κ ω → κ → Option (TrackRefs κ ω)}
    (hunref : ∀ {s c t}, unref s c = some t → Narrows s t) (h : deleteWith unref s o = some t) :
    Narrows s t := by
  obtain ⟨u, hu, rfl⟩ := Option.map_eq_some_iff.mp h
  obtain ⟨hnarrows, hmembers⟩ := narrows_deleteMembers hunref hu
  refine ⟨hnarrows.cells, hnarrows.owner, hnarrows.voidRefs, hnarrows.obj,
    fun o' ho' hgone x hx howner => ?_⟩
  by_cases hne : o' = o
  · rw [hne, hnarrows.owner] at howner
    refine hmembers x (List.mem_filter.mpr ⟨hnarrows.cells x hx, ?_⟩) hx
    rw [howner, decide_eq_true_eq]
  · refine hnarrows.ended o' ho' (fun hmem => hgone ?_) x hx howner
    exact (List.mem_erase_of_ne hne).mpr hmem

theorem narrows_unref {depth : ℕ} (h : unref depth s c = some t) :
    Narrows s t ∧ c ∈ t.cells ∧ t.obj c = none := by
  induction depth generalizing s c t with
  | zero => cases h
  | succ depth ih =>
      obtain ⟨obj, hobj, h⟩ := Option.bind_eq_some_iff.mp h
      rw [read] at hobj
      split_ifs at hobj with hc
      obtain rfl := Option.some.inj hobj
      split at h
      · rename_i hnone
        obtain rfl := Option.some.inj h
        exact ⟨.refl s, hc, hnone⟩
      · rename_i o hsome
        have ho : o ∈ s.objects := by
          by_contra hnot
          rw [if_neg hnot] at h
          cases h
        rw [if_pos ho] at h
        obtain ⟨u, hu, hwrite⟩ := Option.bind_eq_some_iff.mp h
        obtain ⟨hnarrows, hcleared⟩ := narrows_write hwrite
        have hadd : Narrows s (s.fetchAdd o (-1)) :=
          ⟨fun _ hx => hx, rfl, rfl, fun _ _ ho => ho, fun _ ho hgone => absurd ho hgone⟩
        refine ⟨(hadd.trans ?_).trans hnarrows, hcleared⟩
        split_ifs at hu
        · exact narrows_deleteWith (fun h => (ih h).1) hu
        · obtain rfl := Option.some.inj hu
          exact .refl _

end Narrows

end TrackRefs

end Utils

end DistStorage
