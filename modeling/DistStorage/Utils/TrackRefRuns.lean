import DistStorage.Utils.TrackRefRelease

/-!
# Runs of operations on counted references

An assignment releases the reference it assigns to before it reads the other one. So it
goes wrong when the two are one reference, and when the release deletes the object that
one of the two is a member of. Where it does neither, and no count goes beyond an `int`,
the operations keep the counts right, whatever their order.
-/

namespace DistStorage

namespace Utils

namespace TrackRefs

open Cpp Transition

variable {κ ω : Type} [DecidableEq κ] [DecidableEq ω]

def empty : TrackRefs κ ω := {}

/-- The release of `c` takes a reference to the object away. -/
def LosesRef (s : TrackRefs κ ω) (c : κ) (o : ω) : Prop :=
  ∃ x ∈ s.cells, s.obj x = some o ∧ (x = c ∨ ¬s.Survives c x)

/-- An assignment to a reference that is not null is no self-assignment, and both
references outlive the release; no count is `INT_MAX` when it goes up. -/
def Safe (s : TrackRefs κ ω) : RefEvent κ ω → Prop
  | .construct _ obj => ∀ o ∈ obj, s.refCount o ≠ intMax
  | .copy _ ref2 => ∀ o ∈ s.obj ref2, s.refCount o ≠ intMax
  | .assign c ref2 =>
      (s.obj c = none ∨ c ≠ ref2 ∧ s.Survives c c ∧ s.Survives c ref2) ∧
        ∀ o ∈ s.obj ref2, s.refCount o ≠ intMax ∨ s.LosesRef c o
  | _ => True

section Steps

variable {s t u : TrackRefs κ ω} {c ref2 : κ} {e : RefEvent κ ω}

omit [DecidableEq ω] in
theorem masked_nil (s : TrackRefs κ ω) : s.masked [] = s := by
  rw [masked]
  simp only [List.not_mem_nil, if_false]

theorem Counted.releasing (h : s.Counted) (c : κ) : Releasing s c [] [] s := by
  refine ⟨?_, rfl, rfl, fun _ hx => hx, fun _ _ _ hx => ?_, fun _ ho => (List.not_mem_nil ho).elim,
    fun _ hx => (List.not_mem_nil hx).elim, fun _ hx _ _ => ⟨hx, ?_⟩, fun _ ho _ => ho⟩
  · rw [masked_nil]
    exact h
  · rw [masked_nil] at hx
    exact hx
  · rw [masked_nil]

theorem Counted.exists_release (h : s.Counted) (hc : c ∈ s.cells) (hsurvives : s.Survives c c) :
    ∃ t, s.release c = some t ∧ Released s c [] [] s c t :=
  exists_unref _ (h.releasing c) hc List.not_mem_nil (hsurvives.spared [])
    (fun hne => absurd rfl hne) (Nat.lt_succ_of_le List.countP_le_length)

theorem Released.counted (h : Released s c [] [] s c t) : t.Counted := by
  have hcounted := h.releasing.counted
  rw [masked_nil] at hcounted
  exact hcounted

theorem Released.pointed (h : Released s c [] [] s c t) {x : κ} {o : ω} (hx : x ∈ t.cells)
    (hobj : t.obj x = some o) : x ∈ s.cells ∧ s.obj x = some o := by
  refine ⟨h.releasing.initial x hx, h.releasing.pointed x hx o ?_⟩
  rw [masked_nil]
  exact hobj

omit [DecidableEq κ] [DecidableEq ω] in
/-- Another reference that outlives the release keeps its object. -/
theorem not_doomed_of_obj {x : κ} {o : ω} (hx : x ∈ s.cells) (hobj : s.obj x = some o)
    (hne : x ≠ c) (hsurvives : s.Survives c x) : ¬Doomed s c o := by
  intro hdoomed
  cases hdoomed with
  | intro holder _ _ howner hdoomed =>
      exact hsurvives (holder x) (howner x hx hobj hne) (hdoomed x hx hobj hne)

/-- A release deletes all objects that are doomed, and no other ones. -/
theorem Released.not_mem_objects_iff (h : Released s c [] [] s c t) (hs : s.Counted) {o : ω}
    (ho : o ∈ s.objects) : o ∉ t.objects ↔ Doomed s c o := by
  constructor
  · intro hgone
    by_contra hnot
    exact hgone (h.releasing.alive o ho hnot)
  · intro hdoomed
    induction hdoomed with
    | @intro o holder hpointed hvoid howner hdoomed ih =>
        intro hstays
        have hnone : t.refs o = 0 := by
          by_contra hne
          rw [refs, h.releasing.voidRefs, List.count_eq_zero_of_not_mem hvoid, Nat.add_zero] at hne
          obtain ⟨x, hx, hobj⟩ := List.countP_pos_iff.mp (Nat.pos_of_ne_zero hne)
          have hobj := of_decide_eq_true hobj
          obtain ⟨hinitial, hpointed⟩ := h.pointed hx hobj
          have hne : x ≠ c := by
            rintro rfl
            cases h.obj.symm.trans hobj
          have hheld := howner x hinitial hpointed hne
          refine ih x hinitial hpointed hne (hs.owned x hinitial _ hheld) ?_
          exact h.counted.owned x hx _ (h.releasing.owner ▸ hheld)
        have hcount := h.counted.counted o hstays
        have hzero := (h.shrinks.stays o hstays (by omega)).resolve_left List.not_mem_nil
        obtain ⟨x, hx, hobj⟩ := hpointed
        have hpos := pointing_pos hx hobj
        have hbefore := hs.counted o ho
        rw [refs] at hbefore
        omega

omit [DecidableEq κ] [DecidableEq ω] in
theorem Shrinks.deletesAtZero (h : Shrinks [] s t) : DeletesAtZero s t :=
  ⟨h.gone, fun o _ ho hzero => (h.stays o ho hzero).resolve_left List.not_mem_nil⟩

omit [DecidableEq κ] in
theorem DeletesAtZero.trans_grows {more : ω → ℕ} (hst : DeletesAtZero s t) (htu : Grows t u more)
    (ht : t.Counted) : DeletesAtZero s u := by
  refine ⟨fun o ho hgone => hst.gone o ho (htu.objects ▸ hgone), fun o ho hstays hzero => ?_⟩
  rw [htu.objects] at hstays
  exact hst.stays o ho hstays ((htu.deletesAtZero ht).stays o hstays (htu.objects ▸ hstays) hzero)

omit [DecidableEq κ] [DecidableEq ω] in
theorem not_doomed_of_obj_none (hobj : s.obj c = none) (o : ω) : ¬Doomed s c o := by
  intro hdoomed
  induction hdoomed with
  | intro holder hpointed _ _ _ ih =>
      obtain ⟨x, hx, hx'⟩ := hpointed
      refine ih x hx hx' ?_
      rintro rfl
      cases hobj.symm.trans hx'

/-- What the release before an assignment leaves for it. -/
structure Emptied (s : TrackRefs κ ω) (c ref2 : κ) (t : TrackRefs κ ω) : Prop where
  counted : t.Counted
  deletes : DeletesAtZero s t
  mem : c ∈ t.cells
  obj : t.obj c = none
  mem_ref2 : ref2 ∈ t.cells
  obj_ref2 : t.obj ref2 = s.obj ref2
  objects : ∀ o ∈ t.objects, o ∈ s.objects
  counts : ∀ o, t.refCount o ≤ s.refCount o
  less : ∀ o ∈ t.objects, s.LosesRef c o → t.refCount o < s.refCount o
  same : ∀ o ∈ t.objects, ¬s.LosesRef c o → s.refCount o ≤ t.refCount o

theorem Released.less (h : Released s c [] [] s c t) (hs : s.Counted) {o : ω} (ho : o ∈ t.objects)
    (hloses : s.LosesRef c o) : t.refCount o < s.refCount o := by
  obtain ⟨x, hx, hobj, hlost⟩ := hloses
  have hnot : x ∈ t.cells → t.obj x ≠ some o := by
    intro hx'
    obtain rfl | hdies := hlost
    · rw [h.obj]
      exact (Option.some_ne_none o).symm
    · simp only [Survives, not_forall, not_not] at hdies
      obtain ⟨o', howner, hdoomed⟩ := hdies
      have hgone := (h.not_mem_objects_iff hs (hs.owned x hx o' howner)).mpr hdoomed
      exact absurd (h.counted.owned x hx' o' (h.releasing.owner ▸ howner)) hgone
  have hlt := pointing_lt h.counted.cells hs.cells (fun _ hy hy' => h.pointed hy hy') hx hobj hnot
  have hcount := hs.counted o (h.shrinks.objects.subset ho)
  have hcount' := h.counted.counted o ho
  rw [refs] at hcount hcount'
  rw [h.releasing.voidRefs] at hcount'
  omega

theorem Released.same (h : Released s c [] [] s c t) (hs : s.Counted) {o : ω} (ho : o ∈ t.objects)
    (hkeeps : ¬s.LosesRef c o) : s.refCount o ≤ t.refCount o := by
  have hle : pointing s.cells s.obj o ≤ pointing t.cells t.obj o := by
    refine pointing_le hs.cells fun x hx hobj => ?_
    have hne : x ≠ c := fun heq => hkeeps ⟨x, hx, hobj, .inl heq⟩
    have hsurvives : s.Survives c x := by
      by_contra hdies
      exact hkeeps ⟨x, hx, hobj, .inr hdies⟩
    obtain ⟨hmem, hkept⟩ := h.releasing.kept x hx hne hsurvives
    rw [masked_nil] at hkept
    exact ⟨hmem, hkept.trans hobj⟩
  have hcount := hs.counted o (h.shrinks.objects.subset ho)
  have hcount' := h.counted.counted o ho
  rw [refs] at hcount hcount'
  rw [h.releasing.voidRefs] at hcount'
  omega

theorem exists_emptied (h : s.Counted) (hc : c ∈ s.cells) (href2 : ref2 ∈ s.cells)
    (hsafe : s.obj c = none ∨ c ≠ ref2 ∧ s.Survives c c ∧ s.Survives c ref2) :
    ∃ t, s.release c = some t ∧ Emptied s c ref2 t := by
  obtain hnone | ⟨hne, hself, hother⟩ := hsafe
  · have hkeeps : ∀ o, ¬s.LosesRef c o := by
      rintro o ⟨x, -, hobj, rfl | hdies⟩
      · cases hnone.symm.trans hobj
      · exact hdies fun o _ => not_doomed_of_obj_none hnone o
    refine ⟨s, ?_, h, ⟨fun _ ho hgone => absurd ho hgone, fun _ _ _ hzero => hzero⟩, hc, hnone,
      href2, rfl, fun _ ho => ho, fun _ => le_refl _, fun o _ hloses => absurd hloses (hkeeps o),
      fun _ _ _ => le_refl _⟩
    rw [release, unref]
    dsimp only
    rw [read, if_pos hc, hnone]
    rfl
  · obtain ⟨t, ht, hreleased⟩ := h.exists_release hc hself
    obtain ⟨hmem, hkept⟩ := hreleased.releasing.kept ref2 href2 hne.symm hother
    rw [masked_nil] at hkept
    exact ⟨t, ht, hreleased.counted, hreleased.shrinks.deletesAtZero,
      hreleased.spared c hc (hself.spared []), hreleased.obj, hmem, hkept,
      fun _ ho => hreleased.shrinks.objects.subset ho, hreleased.shrinks.counts,
      fun _ ho => hreleased.less h ho, fun _ ho => hreleased.same h ho⟩

theorem Emptied.exists_assigned (h : Emptied s c ref2 t) (hs : s.Counted)
    (hmax : ∀ o ∈ s.obj ref2, s.refCount o ≠ intMax ∨ s.LosesRef c o) :
    ∃ u, ((t.read ref2).bind fun obj => (t.write c obj).bind fun t => t.incRef obj) = some u ∧
      Grows t u (one (s.obj ref2)) ∧ u.obj c = s.obj ref2 := by
  have hread : t.read ref2 = some (s.obj ref2) := (if_pos h.mem_ref2).trans (by rw [h.obj_ref2])
  have hwrite : t.write c (s.obj ref2) = some _ := if_pos h.mem
  have hint : ∀ o ∈ s.obj ref2, o ∈ t.objects ∧ 0 ≤ t.refCount o ∧ t.refCount o < intMax := by
    intro o ho
    have hexists := h.counted.mem_objects_of_obj h.mem_ref2 (h.obj_ref2.trans ho)
    have hcount := h.counted.counted o hexists
    have hsmall := hs.small o (h.objects o hexists)
    refine ⟨hexists, by omega, ?_⟩
    obtain hmax | hloses := hmax o ho
    · exact (h.counts o).trans_lt (lt_of_le_of_ne hsmall hmax)
    · exact (h.less o hexists hloses).trans_le hsmall
  obtain ⟨counts, hinc, hcounts⟩ := exists_incRef
    (s := { t with obj := Function.update t.obj c (s.obj ref2) }) hint
  rw [hread, Option.bind_some, hwrite, Option.bind_some]
  refine ⟨_, hinc, ⟨h.counted.cells, rfl, h.counted.owned, fun o => ?_, fun o _ => hcounts o,
    fits_of_lt fun o ho => ⟨(hint o ho).1, (hint o ho).2.2⟩⟩, Function.update_self _ _ _⟩
  have hrefs := refs_write h.counted.cells h.mem (s.obj ref2) o
  rw [h.obj] at hrefs
  exact hrefs

omit [DecidableEq κ] in
theorem Grows.tracked {more : ω → ℕ} (hgrows : Grows s t more) (h : s.Counted)
    (he : ∀ c ref2, e ≠ .assign c ref2) : t.Counted ∧ Tracked s e t :=
  ⟨hgrows.counted h, tracked_of_deletesAtZero h (hgrows.counted h)
    (fun c ref2 heq => absurd heq (he c ref2)) (hgrows.deletesAtZero h)⟩

theorem assign_tracked (h : s.Counted) (hpossible : s.Possible (.assign c ref2))
    (hsafe : s.Safe (.assign c ref2)) :
    ∃ t, s.step (.assign c ref2) = some t ∧ t.Counted ∧ Tracked s (.assign c ref2) t := by
  obtain ⟨hc, href2⟩ := hpossible
  obtain ⟨t, ht, hemptied⟩ := exists_emptied h hc href2 hsafe.1
  obtain ⟨u, hu, hgrows, hobj⟩ := hemptied.exists_assigned h hsafe.2
  have hcounted := hgrows.counted hemptied.counted
  refine ⟨u, ?_, hcounted, tracked_of_deletesAtZero h hcounted ?_
    (hemptied.deletes.trans_grows hgrows hemptied.counted)⟩
  · rw [step, ht]
    exact hu
  · rintro c' ref2' heq
    obtain ⟨rfl, rfl⟩ := RefEvent.assign.inj heq
    exact hobj

theorem destroy_tracked (h : s.Counted) (hpossible : s.Possible (.destroy c)) :
    ∃ t, s.step (.destroy c) = some t ∧ t.Counted ∧ Tracked s (.destroy c) t := by
  obtain ⟨hc, howner⟩ := hpossible
  have hsurvives : s.Survives c c := fun o ho => by
    rw [howner] at ho
    cases ho
  obtain ⟨t, ht, hreleased⟩ := h.exists_release hc hsurvives
  have hcounted := hreleased.counted.endCell hreleased.obj
  have hdeletes := hreleased.shrinks.deletesAtZero
  refine ⟨t.endCell c, ?_, hcounted, tracked_of_deletesAtZero h hcounted nofun
    ⟨hdeletes.gone, hdeletes.stays⟩⟩
  rw [step, ht]
  rfl

/-- Every safe operation does what it should, and leaves the counts right. -/
theorem step_tracked (h : s.Counted) (hpossible : s.Possible e) (hsafe : s.Safe e) :
    ∃ t, s.step e = some t ∧ t.Counted ∧ Tracked s e t := by
  cases e with
  | newObject o members =>
      obtain ⟨ho, hnodup, hmembers⟩ := hpossible
      have hcounted := counted_newObject h ho hnodup hmembers
      exact ⟨_, rfl, hcounted, tracked_of_deletesAtZero h hcounted nofun
        (deletesAtZero_newObject ho members)⟩
  | construct c obj =>
      obtain ⟨hc, hobj⟩ := hpossible
      obtain ⟨t, ht, hgrows⟩ := exists_grows_construct h hc fun o ho => ⟨hobj o ho, hsafe o ho⟩
      exact ⟨t, ht, hgrows.tracked h nofun⟩
  | copy c ref2 =>
      obtain ⟨hc, href2⟩ := hpossible
      obtain ⟨t, ht, hgrows⟩ := exists_grows_construct h hc fun o ho =>
        ⟨h.mem_objects_of_obj href2 ho, hsafe o ho⟩
      have hread : s.read ref2 = some (s.obj ref2) := if_pos href2
      refine ⟨t, ?_, hgrows.tracked h nofun⟩
      rw [step, hread]
      exact ht
  | move c other =>
      obtain ⟨hc, hother⟩ := hpossible
      obtain ⟨t, ht, hgrows⟩ := exists_grows_move h hc hother
      have hread : s.read other = some (s.obj other) := if_pos hother
      refine ⟨t, ?_, hgrows.tracked h nofun⟩
      rw [step, hread]
      exact ht
  | assign c ref2 => exact assign_tracked h hpossible hsafe
  | destroy c => exact destroy_tracked h hpossible
  | moveToVoidRef c =>
      obtain ⟨t, ht, hgrows⟩ := exists_grows_moveToVoidRef h hpossible
      have hread : s.read c = some (s.obj c) := if_pos hpossible
      refine ⟨t, ?_, hgrows.tracked h nofun⟩
      rw [step, hread]
      exact ht
  | copyVoidRef c voidRef =>
      obtain ⟨hc, hvoid⟩ := hpossible
      exact ⟨_, rfl, (grows_copyVoidRef h hc hvoid).tracked h nofun⟩

omit [DecidableEq κ] in
theorem counted_empty : (empty : TrackRefs κ ω).Counted :=
  ⟨List.nodup_nil, List.nodup_nil, fun _ ho => (List.not_mem_nil ho).elim,
    fun _ ho => (List.not_mem_nil ho).elim, fun _ hpos => absurd hpos (lt_irrefl 0),
    fun _ hc => (List.not_mem_nil hc).elim⟩

omit [DecidableEq κ] in
/-- A count of `INT_MAX` that goes up becomes negative. -/
theorem refCount_neg_of_incRef {obj : Option ω} {o : ω} (h : s.incRef obj = some t)
    (hobj : obj = some o) (hmax : s.refCount o = intMax) : o ∈ t.objects ∧ t.refCount o < 0 := by
  subst hobj
  rw [incRef] at h
  split_ifs at h with ho
  obtain rfl := Option.some.inj h
  refine ⟨ho, ?_⟩
  rw [fetchAdd]
  dsimp only
  rw [Function.update_self, hmax]
  decide

omit [DecidableEq κ] in
theorem exists_counts_of_incRef {obj : Option ω} (h : s.incRef obj = some t) :
    ∃ counts, t = { s with refCount := counts } := by
  cases obj with
  | none => exact ⟨s.refCount, (Option.some.inj h).symm⟩
  | some o =>
      rw [incRef] at h
      split_ifs at h
      exact ⟨_, (Option.some.inj h).symm⟩

omit [DecidableEq κ] in
theorem Tracked.ne_intMax {obj : Option ω} {o : ω} (h : Tracked s e t)
    (hinc : u.incRef obj = some t) (hobj : obj = some o) : u.refCount o ≠ intMax := by
  intro hmax
  obtain ⟨ho, hneg⟩ := refCount_neg_of_incRef hinc hobj hmax
  have hcount := h.counted o ho
  omega

/-- An assignment that is defined: what its release leaves, and the two references in it. -/
theorem assign_eq_some (h : s.step (.assign c ref2) = some t) :
    ∃ r counts, s.release c = some r ∧ Narrows s r ∧ c ∈ r.cells ∧ r.obj c = none ∧
      ref2 ∈ r.cells ∧
      t = { r with obj := Function.update r.obj c (r.obj ref2), refCount := counts } ∧
      incRef { r with obj := Function.update r.obj c (r.obj ref2) } (r.obj ref2) = some t := by
  obtain ⟨r, hr, h⟩ := Option.bind_eq_some_iff.mp h
  obtain ⟨hnarrows, hc, hnone⟩ := narrows_unref hr
  obtain ⟨obj, hobj, h⟩ := Option.bind_eq_some_iff.mp h
  rw [read] at hobj
  split_ifs at hobj with href2
  obtain rfl := Option.some.inj hobj
  obtain ⟨w, hw, hinc⟩ := Option.bind_eq_some_iff.mp h
  rw [write, if_pos hc] at hw
  obtain rfl := Option.some.inj hw
  obtain ⟨counts, ht⟩ := exists_counts_of_incRef hinc
  exact ⟨r, counts, hr, hnarrows, hc, hnone, href2, ht, hinc⟩

theorem Tracked.not_mem_objects (h : s.Counted) (hstep : s.step (.assign c ref2) = some t)
    (htracked : Tracked s (.assign c ref2) t) {o : ω} (hdoomed : Doomed s c o) :
    o ∉ t.objects := by
  obtain ⟨r, counts, -, hnarrows, -, hnone, href2, rfl, -⟩ := assign_eq_some hstep
  dsimp only
  induction hdoomed with
  | @intro o holder hpointed hvoid howner _ ih =>
      obtain ⟨y, hy, hy'⟩ := hpointed
      refine (htracked.deleted o (h.mem_objects_of_obj hy hy')).mpr
        ⟨Nat.add_pos_left (pointing_pos hy hy') _, ?_⟩
      -- A reference of `r` to the object would be a member of a deleted one.
      have hpoints : ∀ x ∈ r.cells, r.obj x ≠ some o := by
        intro x hx hobj
        have hne : x ≠ c := by
          rintro rfl
          cases hnone.symm.trans hobj
        have hx' := hnarrows.cells x hx
        have hobj' := hnarrows.obj x o hobj
        have hheld := howner x hx' hobj' hne
        exact hnarrows.ended _ (h.owned x hx' _ hheld) (ih x hx' hobj' hne) x hx
          (hnarrows.owner ▸ hheld)
      by_contra hrefs
      rw [refs, hnarrows.voidRefs, List.count_eq_zero_of_not_mem hvoid, Nat.add_zero] at hrefs
      obtain ⟨x, hx, hobj⟩ := List.countP_pos_iff.mp (Nat.pos_of_ne_zero hrefs)
      have hobj := of_decide_eq_true hobj
      dsimp only at hobj
      by_cases hne : x = c
      · rw [hne, Function.update_self] at hobj
        exact hpoints ref2 href2 hobj
      · rw [Function.update_of_ne hne] at hobj
        exact hpoints x hx hobj

theorem safe_of_assign_tracked (h : s.Counted) (hpossible : s.Possible (.assign c ref2))
    (hstep : s.step (.assign c ref2) = some t) (htracked : Tracked s (.assign c ref2) t) :
    s.Safe (.assign c ref2) := by
  have hgone : ∀ {o}, Doomed s c o → o ∉ t.objects := htracked.not_mem_objects h hstep
  have hassigned := htracked.assigned c ref2 rfl
  obtain ⟨r, counts, hr, hnarrows, hc, hnone, href2, rfl, hinc⟩ := assign_eq_some hstep
  have hsurvives : ∀ x ∈ r.cells, s.Survives c x := fun x hx o howner hdoomed =>
    hnarrows.ended o (h.owned x (hnarrows.cells x hx) o howner) (hgone hdoomed) x hx
      (hnarrows.owner ▸ howner)
  have hfirst : s.obj c = none ∨ c ≠ ref2 ∧ s.Survives c c ∧ s.Survives c ref2 := by
    refine or_iff_not_imp_left.mpr fun hobj => ⟨?_, hsurvives c hc, hsurvives ref2 href2⟩
    rintro rfl
    dsimp only at hassigned
    rw [Function.update_self, hnone] at hassigned
    exact hobj hassigned.symm
  refine ⟨hfirst, fun o ho => ?_⟩
  obtain ⟨r', hr', hemptied⟩ := exists_emptied h hpossible.1 hpossible.2 hfirst
  obtain rfl := Option.some.inj (hr.symm.trans hr')
  have hne := htracked.ne_intMax hinc (hemptied.obj_ref2.trans ho)
  have hexists := hemptied.counted.mem_objects_of_obj href2 (hemptied.obj_ref2.trans ho)
  refine or_iff_not_imp_right.mpr fun hkeeps hmax => hne ?_
  have hsame := hemptied.same o hexists hkeeps
  exact le_antisymm (hemptied.counted.small o hexists) (hmax ▸ hsame)

theorem safe_of_tracked (h : s.Counted) (hpossible : s.Possible e) (hstep : s.step e = some t)
    (htracked : Tracked s e t) : s.Safe e := by
  cases e with
  | construct c obj =>
      intro o ho
      have hne := htracked.ne_intMax (u := s.beginCell c obj) hstep ho
      exact hne
  | copy c ref2 =>
      intro o ho
      obtain ⟨obj, hobj, hinc⟩ := Option.bind_eq_some_iff.mp hstep
      rw [read, if_pos hpossible.2] at hobj
      obtain rfl := Option.some.inj hobj
      have hne := htracked.ne_intMax hinc ho
      exact hne
  | assign c ref2 => exact safe_of_assign_tracked h hpossible hstep htracked
  | _ => exact trivial

/-- The operations of a run do what they should, each of them, exactly if they are safe:
the counts are the numbers of references, an assigned reference points where the other one
did, an object is deleted when it loses its last reference, and nothing refers to it
then. -/
theorem safe_iff_tracked {es : List (RefEvent κ ω)}
    (hpossible : AllSteps step Possible empty es) :
    AllSteps step Safe empty es ↔ ∀ pre e, pre ++ [e] <+: es →
      ∃ s t, run step empty pre = some s ∧ step s e = some t ∧ Tracked s e t := by
  refine allSteps_iff_steps (I := Counted) (fun s e h hpossible => ⟨fun hsafe => ?_, ?_⟩)
    (fun s e t h hpossible hsafe ht => ?_) counted_empty hpossible
  · obtain ⟨t, ht, -, htracked⟩ := step_tracked h hpossible hsafe
    exact ⟨t, ht, htracked⟩
  · rintro ⟨t, ht, htracked⟩
    exact safe_of_tracked h hpossible ht htracked
  · obtain ⟨t', ht', hcounted, -⟩ := step_tracked h hpossible hsafe
    obtain rfl := Option.some.inj (ht.symm.trans ht')
    exact hcounted

end Steps

/-- A reference goes on to the object that a member of its own one points to, which is kept
by another reference. -/
def nextAssignment : List (RefEvent ℕ ℕ) :=
  [.newObject 0 [10], .construct 1 (some 0), .copy 2 1, .newObject 5 [], .construct 3 (some 5),
    .assign 10 3, .destroy 3]

theorem safe_iff_tracked_nextAssignment :
    ∃ s t, run step empty nextAssignment = some s ∧ step s (.assign 1 10) = some t ∧
      Tracked s (.assign 1 10) t := by
  have hpossible : AllSteps step Possible empty (nextAssignment ++ [.assign 1 10]) := by decide
  refine (safe_iff_tracked hpossible).mp ?_ nextAssignment (.assign 1 10) (List.prefix_refl _)
  have hcount : ∀ {s : TrackRefs ℕ ℕ} {obj : Option ℕ}, (∀ o ∈ obj, s.refCount o < 5) →
      ∀ o ∈ obj, s.refCount o ≠ intMax := fun h o ho heq => by
    have := h o ho
    rw [heq] at this
    exact absurd this (by decide)
  refine ⟨trivial, fun t ht => ?_⟩
  obtain rfl := Option.some.inj ht
  refine ⟨hcount (by decide), fun t ht => ?_⟩
  obtain rfl := Option.some.inj ht
  refine ⟨hcount (by decide), fun t ht => ?_⟩
  obtain rfl := Option.some.inj ht
  refine ⟨trivial, fun t ht => ?_⟩
  obtain rfl := Option.some.inj ht
  refine ⟨hcount (by decide), fun t ht => ?_⟩
  obtain rfl := Option.some.inj ht
  refine ⟨⟨.inl rfl, fun o ho => .inl (hcount (by decide) o ho)⟩, fun t ht => ?_⟩
  obtain rfl := Option.some.inj ht
  refine ⟨trivial, fun t ht => ?_⟩
  obtain rfl := Option.some.inj ht
  refine ⟨⟨.inr ⟨by decide, fun o ho => ?_, fun o ho => ?_⟩,
    fun o ho => .inl (hcount (by decide) o ho)⟩, fun _ _ => trivial⟩
  · cases ho
  · obtain rfl := Option.some.inj ho
    exact not_doomed_of_obj (x := 2) (by decide) rfl (by decide) fun o ho => by cases ho

/-- The only reference to an object is assigned to itself. -/
def selfAssignment : List (RefEvent ℕ ℕ) :=
  [.newObject 0 [], .construct 1 (some 0), .assign 1 1]

def memberAssignment : List (RefEvent ℕ ℕ) :=
  [.newObject 0 [10], .construct 1 (some 0), .newObject 5 [], .construct 2 (some 5), .assign 10 2,
    .assign 1 10]

theorem selfAssignment_not_tracked :
    (AllSteps step Possible empty selfAssignment ∧
        ∃ s t, run step empty [.newObject 0 [], .construct 1 (some 0)] = some s ∧
          step s (.assign 1 1) = some t ∧ s.obj 1 = some 0 ∧ t.obj 1 = none ∧ t.objects = [] ∧
            ¬Tracked s (.assign 1 1) t) ∧
      AllSteps step Possible empty memberAssignment ∧ run step empty memberAssignment = none := by
  refine ⟨⟨by decide, _, _, rfl, rfl, rfl, rfl, rfl, fun h => ?_⟩, by decide, rfl⟩
  cases h.assigned 1 1 rfl

end TrackRefs

end Utils

end DistStorage
