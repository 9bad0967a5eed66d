import DistStorage.Cpp.Logged
import DistStorage.Storage.Block

/-!
# The life of a mapping

The calls on a `BlockStorage` are run here with a log of what they do with the mapping
and the descriptor, until it is destroyed. The outcomes of `munmap` and `close` belong
to the run. A reset forgets the mapping when `munmap` fails, and keeps it when it
succeeds: so a successful reset is followed by an access, or by the `munmap` of the
destructor.
-/

namespace DistStorage

namespace Storage

open Cpp

/-- A use of the mapping, of the descriptor or of the error output. -/
inductive MapOp
  | access (first last : ℕ)
  | munmap (size : ℕ) (done : Bool)
  | close (fd : ℤ) (done : Bool)
  | showSysError (callDescr : Bytes)
  deriving DecidableEq, Repr

namespace MapOp

/-- A successful `munmap`. -/
def unmaps : MapOp → Bool
  | munmap _ done => done
  | _ => false

def isMunmap : MapOp → Bool
  | munmap _ _ => true
  | _ => false

def isAccess : MapOp → Bool
  | access _ _ => true
  | _ => false

def touches (op : MapOp) : Bool := op.isMunmap || op.isAccess

end MapOp

inductive BlockCall
  | read (offset dataCount : UInt64)
  | write (offset dataCount : UInt64)
  | reset (unmapped closed : Bool)
  deriving DecidableEq, Repr

namespace BlockStorage

def readOps (elemSize : ℕ) (b : BlockStorage) (offset dataCount : ℕ) : Logged MapOp ℕ :=
  if offset > b.n then pure 0
  else
    let dataCount := if sizeT (offset + dataCount) > b.n then b.n - offset else dataCount
    if dataCount = 0 then pure 0
    else do
      Logged.note (.access (sizeT (offset * elemSize))
        (sizeT (sizeT (offset + dataCount) * elemSize)))
      pure dataCount

def writeOps (elemSize : ℕ) (b : BlockStorage) (offset dataCount : ℕ) :
    Logged MapOp (Except BlockError ℕ) :=
  if offset > b.n then pure (.ok 0)
  else
    let dataCount := if sizeT (offset + dataCount) > b.n then b.n - offset else dataCount
    if dataCount = 0 then pure (.ok 0)
    else if b.readonly then
      pure (.error
        (.runtimeError (bytes "Cannot write to a readonly BlockStorage instance.")))
    else do
      Logged.note (.access (sizeT (offset * elemSize))
        (sizeT (offset * elemSize) + sizeT (dataCount * elemSize)))
      pure (.ok dataCount)

def showFailed (done : Bool) (callDescr : Bytes) : Logged MapOp Unit :=
  if done then pure () else Logged.note (.showSysError callDescr)

def fdReset (closed : Bool) (fd : ℤ) : Logged MapOp ℤ :=
  if fd ≠ -1 then do
    Logged.note (.close fd closed)
    showFailed closed (bytes "close file descriptor")
    pure (-1)
  else pure fd

def unmapOps (elemSize : ℕ) (unmapped : Bool) (b : BlockStorage) : Logged MapOp BlockStorage :=
  if b.data.isSome then do
    Logged.note (.munmap (sizeT (b.n * elemSize)) unmapped)
    showFailed unmapped (bytes "munmap")
    pure (if unmapped then b else { b with data := none, n := 0 })
  else pure b

def closeOps (closed : Bool) (b : BlockStorage) : Logged MapOp BlockStorage := do
  let fd ← fdReset closed b.fd
  pure { b with fd := fd }

def resetOps (elemSize : ℕ) (unmapped closed : Bool) (b : BlockStorage) :
    Logged MapOp BlockStorage := do
  let b ← unmapOps elemSize unmapped b
  closeOps closed b

def callOps (elemSize : ℕ) (b : BlockStorage) : BlockCall → Logged MapOp BlockStorage
  | .read offset dataCount => do
      let _ ← readOps elemSize b offset.toNat dataCount.toNat
      pure b
  | .write offset dataCount => do
      -- an exception leaves the storage to the next call
      let _ ← writeOps elemSize b offset.toNat dataCount.toNat
      pure b
  | .reset unmapped closed => resetOps elemSize unmapped closed b

/-- The destructors of the storage and of its descriptor. -/
def destroyOps (elemSize : ℕ) (unmapped closed : Bool) (b : BlockStorage) : Logged MapOp Unit := do
  let b ← resetOps elemSize unmapped closed b
  let _ ← fdReset closed b.fd
  pure ()

def lifeOps (elemSize : ℕ) (unmapped closed : Bool) (b : BlockStorage) :
    List BlockCall → Logged MapOp Unit
  | [] => destroyOps elemSize unmapped closed b
  | call :: calls => do
      let b ← callOps elemSize b call
      lifeOps elemSize unmapped closed b calls

end BlockStorage

/-- The mapping is unmapped successfully once at most, and then neither unmapped again
nor accessed. -/
structure UnmappedOnce (log : List MapOp) : Prop where
  once : log.countP MapOp.unmaps ≤ 1
  unmapped : log.Pairwise fun op later => op.unmaps → ¬later.isMunmap
  accessed : log.Pairwise fun op later => op.unmaps → ¬later.isAccess

/-- The first reset of the calls, if there is one, fails to unmap. -/
def FirstResetFails : List BlockCall → Prop
  | [] => True
  | .read _ _ :: calls => FirstResetFails calls
  | .write _ _ :: calls => FirstResetFails calls
  | .reset unmapped _ :: _ => unmapped = false

namespace UnmappedOnce

/-- No `munmap` and no access comes after a successful `munmap`. -/
theorem iff_pairwise {log : List MapOp} :
    UnmappedOnce log ↔ log.Pairwise fun op later => op.unmaps → later.touches = false := by
  constructor
  · intro h
    refine (h.unmapped.and h.accessed).imp fun hboth hop => ?_
    rw [MapOp.touches, Bool.or_eq_false_iff]
    exact ⟨Bool.eq_false_of_not_eq_true (hboth.1 hop), Bool.eq_false_of_not_eq_true (hboth.2 hop)⟩
  · intro h
    simp only [MapOp.touches, Bool.or_eq_false_iff] at h
    refine ⟨?_, h.imp fun hboth hop => ?_, h.imp fun hboth hop => ?_⟩
    · induction h with
      | nil => exact Nat.zero_le 1
      | @cons op log hop _ ih =>
          by_cases hunmaps : op.unmaps
          · have hrest : log.countP MapOp.unmaps = 0 := by
              rw [List.countP_eq_zero]
              intro later hlater
              have := (hop later hlater hunmaps).1
              cases later <;> simp_all [MapOp.unmaps, MapOp.isMunmap]
            rw [List.countP_cons_of_pos hunmaps, hrest]
          · rwa [List.countP_cons_of_neg hunmaps]
    · rw [(hboth hop).1]
      exact Bool.false_ne_true
    · rw [(hboth hop).2]
      exact Bool.false_ne_true

theorem append_iff {before log : List MapOp} (h : ∀ op ∈ before, op.unmaps = false) :
    UnmappedOnce (before ++ log) ↔ UnmappedOnce log := by
  rw [iff_pairwise, iff_pairwise, List.pairwise_append]
  have hbefore : before.Pairwise fun op later => op.unmaps → later.touches = false :=
    List.pairwise_of_forall_mem_list fun op hop _ _ hunmaps =>
      absurd hunmaps (by rw [h op hop]; exact Bool.false_ne_true)
  refine ⟨fun hall => hall.2.1, fun hlog => ⟨hbefore, hlog, fun op hop _ _ hunmaps => ?_⟩⟩
  exact absurd hunmaps (by rw [h op hop]; exact Bool.false_ne_true)

/-- Everything is allowed before operations that leave the mapping alone. -/
theorem cons_of_quiet {op : MapOp} {log : List MapOp} (h : ∀ later ∈ log, later.touches = false) :
    UnmappedOnce (op :: log) := by
  refine iff_pairwise.mpr (List.pairwise_cons.mpr ⟨fun later hlater _ => h later hlater, ?_⟩)
  exact List.pairwise_of_forall_mem_list fun _ _ later hlater _ => h later hlater

end UnmappedOnce

namespace BlockStorage

section Erased

variable {elemSize : ℕ} {b : BlockStorage} {offset dataCount : ℕ}

theorem value_readOps {data : Bytes} {r : ℕ × Bytes}
    (h : readData data elemSize b.n offset dataCount = some r) :
    (readOps elemSize b offset dataCount).value = some r.1 := by
  simp only [readData] at h
  simp only [readOps]
  generalize (if sizeT (offset + dataCount) > b.n then b.n - offset else dataCount) = k at h ⊢
  split_ifs at h ⊢ <;> exact Option.some.inj h ▸ rfl

theorem value_writeOps {inData data : Bytes} {r : Except BlockError (ℕ × Bytes)}
    (h : writeData inData offset dataCount data elemSize b.n b.readonly = some r) :
    (writeOps elemSize b offset dataCount).value = some (r.map Prod.fst) := by
  simp only [writeData] at h
  simp only [writeOps]
  generalize (if sizeT (offset + dataCount) > b.n then b.n - offset else dataCount) = k at h ⊢
  split_ifs at h ⊢ <;> exact Option.some.inj h ▸ rfl

end Erased

section Quiet

variable (elemSize : ℕ) {b : BlockStorage}

abbrev Quiet (op : MapOp) : Prop := op.touches = false

theorem showFailed_ensures (done : Bool) (callDescr : Bytes) :
    (showFailed done callDescr).Ensures Quiet fun _ => True := by
  rw [showFailed]
  split_ifs
  · exact .pure trivial
  · exact .note rfl

theorem fdReset_ensures (closed : Bool) (fd : ℤ) :
    (fdReset closed fd).Ensures Quiet fun fd' => fd' = -1 := by
  rw [fdReset]
  split_ifs with hfd
  · have hnote : (Logged.note (.close fd closed)).Ensures Quiet fun _ => True := .note rfl
    exact hnote.bind fun _ _ => (showFailed_ensures _ _).bind fun _ _ => .pure rfl
  · exact .pure (by omega)

theorem closeOps_ensures (closed : Bool) :
    (closeOps closed b).Ensures Quiet fun b' => b'.data = b.data ∧ b'.n = b.n :=
  (fdReset_ensures closed b.fd).bind fun _ _ => .pure ⟨rfl, rfl⟩

/-- A storage without a mapping and its elements. -/
structure Forgotten (b : BlockStorage) : Prop where
  data : b.data = none
  n : b.n = 0

theorem resetOps_forgotten (unmapped closed : Bool) (h : b.Forgotten) :
    (resetOps elemSize unmapped closed b).Ensures Quiet Forgotten := by
  have hunmap : (unmapOps elemSize unmapped b).Ensures Quiet Forgotten := by
    rw [unmapOps, h.data, if_neg (by decide)]
    exact .pure h
  exact hunmap.bind fun b' hb' => (closeOps_ensures closed).mono fun b'' hb'' =>
    ⟨hb''.1.trans hb'.data, hb''.2.trans hb'.n⟩

/-- A reset of a mapped storage starts with `munmap`, and keeps the mapping when that
succeeds. -/
theorem resetOps_mapped (unmapped closed : Bool) (h : b.data.isSome) :
    ∃ ops b', (resetOps elemSize unmapped closed b).log =
        .munmap (sizeT (b.n * elemSize)) unmapped :: ops ∧ (∀ op ∈ ops, Quiet op) ∧
      (resetOps elemSize unmapped closed b).value = some b' ∧
      if unmapped then b'.data = b.data else b'.Forgotten := by
  set kept : BlockStorage := if unmapped then b else { b with data := none, n := 0 } with hkept
  have hvalue : (unmapOps elemSize unmapped b).value = some kept := by
    rw [unmapOps, if_pos h]
    cases unmapped <;> rfl
  have hlog : (unmapOps elemSize unmapped b).log =
      .munmap (sizeT (b.n * elemSize)) unmapped :: (showFailed unmapped (bytes "munmap")).log := by
    rw [unmapOps, if_pos h]
    cases unmapped <;> rfl
  obtain ⟨b', hb', hdata, hn⟩ := (closeOps_ensures (b := kept) closed).returns
  refine ⟨(showFailed unmapped (bytes "munmap")).log ++ (closeOps closed kept).log, b', ?_, ?_,
    ?_, ?_⟩
  · rw [resetOps, Logged.log_bind_of_value hvalue, hlog, List.cons_append]
  · intro op hop
    rcases List.mem_append.mp hop with hop | hop
    · exact (showFailed_ensures _ _).entries op hop
    · exact (closeOps_ensures closed).entries op hop
  · rw [resetOps, Logged.value_bind, hvalue]
    exact hb'
  · cases unmapped with
    | true => exact hdata
    | false => exact ⟨hdata, hn⟩

/-- The log of a reset of a mapped storage and what follows it. -/
theorem log_resetOps_bind {α : Type} (unmapped closed : Bool) (h : b.data.isSome)
    (f : BlockStorage → Logged MapOp α) :
    ∃ ops b', (resetOps elemSize unmapped closed b >>= f).log =
        .munmap (sizeT (b.n * elemSize)) unmapped :: (ops ++ (f b').log) ∧
      (∀ op ∈ ops, Quiet op) ∧ if unmapped then b'.data = b.data else b'.Forgotten := by
  obtain ⟨ops, b', hlog, hquiet, hvalue, hkept⟩ :=
    resetOps_mapped elemSize unmapped closed h
  exact ⟨ops, b', by rw [Logged.log_bind_of_value hvalue, hlog, List.cons_append], hquiet, hkept⟩

theorem value_resetOps (closed : Bool) (d : Disk) : ∃ b' d', b.reset d = .returned b' d' ∧
    (resetOps elemSize true closed b).value = some b' := by
  have hunmap : (unmapOps elemSize true b).value = some b := by
    rw [unmapOps]
    by_cases hdata : b.data.isSome
    · rw [if_pos hdata]
      rfl
    · rw [if_neg hdata]
      rfl
  obtain ⟨fd, hvalue, rfl⟩ := (fdReset_ensures closed b.fd).returns
  have hclose : (closeOps closed b).value = some { b with fd := -1 } := by
    rw [closeOps, Logged.value_bind, hvalue]
    rfl
  have hreset : ∃ d', b.reset d = .returned { b with fd := -1 } d' := by
    rw [reset]
    by_cases hfd : b.fd ≠ -1
    · exact ⟨_, by rw [if_pos hfd]; rfl⟩
    · exact ⟨_, by rw [if_neg hfd]; rfl⟩
  obtain ⟨d', hd'⟩ := hreset
  exact ⟨_, d', hd', by rw [resetOps, Logged.value_bind, hunmap, Option.bind_some, hclose]⟩

/-- The log leaves the calls as they are: a read and a write give the number of elements
that they give without it, and a reset that unmaps gives the same storage. -/
theorem ops_agree (b : BlockStorage) (offset dataCount : ℕ) :
    (∀ data r, readData data elemSize b.n offset dataCount = some r →
        (readOps elemSize b offset dataCount).value = some r.1) ∧
      (∀ inData data r,
        writeData inData offset dataCount data elemSize b.n b.readonly = some r →
          (writeOps elemSize b offset dataCount).value = some (r.map Prod.fst)) ∧
      ∀ closed d, ∃ b' d', b.reset d = .returned b' d' ∧
        (resetOps elemSize true closed b).value = some b' :=
  ⟨fun _ _ => value_readOps, fun _ _ _ => value_writeOps,
    fun closed d => value_resetOps elemSize closed d⟩

theorem clamp_forgotten (h : b.Forgotten) {offset dataCount : ℕ} (hcount : dataCount < 2 ^ 64)
    (hoffset : ¬offset > b.n) :
    (if sizeT (offset + dataCount) > b.n then b.n - offset else dataCount) = 0 := by
  have hn := h.n
  obtain rfl : offset = 0 := by omega
  rw [Nat.zero_add, sizeT_of_lt hcount]
  split_ifs <;> omega

/-- A copy accesses nothing of a mapping that is forgotten: it comes to its access with
elements to copy only, of which there are none. -/
theorem copy_ensures {α : Type} {offset dataCount : ℕ} (hcount : dataCount < 2 ^ 64) {none : α}
    {copy : ℕ → Logged MapOp α}
    (hcopy : ∀ k, (b.Forgotten → k = 0) → k ≠ 0 → (copy k).Ensures
      (fun op => op.unmaps = false ∧ (b.Forgotten → Quiet op)) fun _ => True) :
    (if offset > b.n then pure none
      else
        let k := if sizeT (offset + dataCount) > b.n then b.n - offset else dataCount
        if k = 0 then pure none else copy k).Ensures
      (fun op => op.unmaps = false ∧ (b.Forgotten → Quiet op)) fun _ => True := by
  by_cases hoffset : offset > b.n
  · rw [if_pos hoffset]
    exact .pure trivial
  rw [if_neg hoffset]
  have hclamp := fun h : b.Forgotten => clamp_forgotten h hcount hoffset
  generalize (if sizeT (offset + dataCount) > b.n then b.n - offset else dataCount) = k
    at hclamp ⊢
  dsimp only
  split_ifs with hzero
  · exact .pure trivial
  · exact hcopy k hclamp hzero

theorem access_ensures {α : Type} {k : ℕ} (hclamp : b.Forgotten → k = 0) (hzero : k ≠ 0)
    (first last : ℕ) (value : α) :
    (do Logged.note (.access first last); pure value : Logged MapOp α).Ensures
      (fun op => op.unmaps = false ∧ (b.Forgotten → Quiet op)) fun _ => True := by
  have hnote : (Logged.note (.access first last)).Ensures
      (fun op => op.unmaps = false ∧ (b.Forgotten → Quiet op)) fun _ => True :=
    .note ⟨rfl, fun h => absurd (hclamp h) hzero⟩
  exact hnote.bind fun _ _ => .pure trivial

theorem readOps_ensures {offset dataCount : ℕ} (hcount : dataCount < 2 ^ 64) :
    (readOps elemSize b offset dataCount).Ensures
      (fun op => op.unmaps = false ∧ (b.Forgotten → Quiet op)) fun _ => True :=
  copy_ensures hcount fun _ hclamp hzero => access_ensures hclamp hzero _ _ _

theorem writeOps_ensures {offset dataCount : ℕ} (hcount : dataCount < 2 ^ 64) :
    (writeOps elemSize b offset dataCount).Ensures
      (fun op => op.unmaps = false ∧ (b.Forgotten → Quiet op)) fun _ => True := by
  have hcopy : ∀ k, (b.Forgotten → k = 0) → k ≠ 0 →
      (if b.readonly then
        pure (.error
          (.runtimeError (bytes "Cannot write to a readonly BlockStorage instance.")))
      else do
        Logged.note (.access (sizeT (offset * elemSize))
          (sizeT (offset * elemSize) + sizeT (k * elemSize)))
        pure (.ok k) : Logged MapOp (Except BlockError ℕ)).Ensures
      (fun op => op.unmaps = false ∧ (b.Forgotten → Quiet op)) fun _ => True := by
    intro k hclamp hzero
    split_ifs
    · exact .pure trivial
    · exact access_ensures hclamp hzero _ _ _
  exact copy_ensures hcount hcopy

/-- A read or a write changes nothing of the storage, and accesses a mapping only. -/
theorem callOps_kept {call : BlockCall} (h : ∀ unmapped closed, call ≠ .reset unmapped closed) :
    (callOps elemSize b call).Ensures
      (fun op => op.unmaps = false ∧ (b.Forgotten → Quiet op)) fun b' => b' = b := by
  cases call with
  | reset unmapped closed => exact absurd rfl (h unmapped closed)
  | read offset dataCount =>
      exact (readOps_ensures elemSize dataCount.toNat_lt).bind fun _ _ => .pure rfl
  | write offset dataCount =>
      exact (writeOps_ensures elemSize dataCount.toNat_lt).bind fun _ _ => .pure rfl

end Quiet

section Life

variable (elemSize : ℕ) (unmapped closed : Bool)

/-- A forgotten mapping is left alone. -/
theorem lifeOps_forgotten {b : BlockStorage} (h : b.Forgotten) (calls : List BlockCall) :
    (lifeOps elemSize unmapped closed b calls).Ensures Quiet fun _ => True := by
  induction calls generalizing b with
  | nil =>
      exact (resetOps_forgotten elemSize unmapped closed h).bind fun b' _ =>
        (fdReset_ensures closed b'.fd).bind fun _ _ => .pure trivial
  | cons call calls ih =>
      have hcall : (callOps elemSize b call).Ensures Quiet Forgotten := by
        by_cases hreset : ∃ unmapped closed, call = .reset unmapped closed
        · obtain ⟨unmapped, closed, rfl⟩ := hreset
          exact resetOps_forgotten elemSize unmapped closed h
        · have hkept := callOps_kept elemSize (b := b)
            fun unmapped closed hcall => hreset ⟨unmapped, closed, hcall⟩
          obtain ⟨b', hvalue, rfl⟩ := hkept.returns
          exact ⟨fun op hop => (hkept.entries op hop).2 h, b', hvalue, h⟩
      exact hcall.bind fun b' hb' => ih hb'

/-- A mapped storage calls `munmap`, in a reset or in the end. -/
theorem lifeOps_touches {b : BlockStorage} (h : b.data.isSome) (calls : List BlockCall) :
    ∃ op ∈ (lifeOps elemSize unmapped closed b calls).log, op.touches = true := by
  have hreset : ∀ unmapped closed, .munmap (sizeT (b.n * elemSize)) unmapped ∈
      (resetOps elemSize unmapped closed b).log := by
    intro unmapped closed
    obtain ⟨ops, b', hlog, -⟩ := resetOps_mapped elemSize unmapped closed h
    exact hlog ▸ List.mem_cons_self
  induction calls with
  | nil => exact ⟨_, Logged.mem_log_bind.mpr (.inl (hreset unmapped closed)), rfl⟩
  | cons call calls ih =>
      by_cases hcall : ∃ unmapped closed, call = .reset unmapped closed
      · obtain ⟨unmapped', closed', rfl⟩ := hcall
        exact ⟨_, Logged.mem_log_bind.mpr (.inl (hreset unmapped' closed')), rfl⟩
      · obtain ⟨b', hvalue, rfl⟩ := (callOps_kept elemSize (b := b)
          fun unmapped closed h => hcall ⟨unmapped, closed, h⟩).returns
        obtain ⟨op, hop, htouches⟩ := ih
        exact ⟨op, Logged.mem_log_bind.mpr (.inr ⟨b', hvalue, hop⟩), htouches⟩

/-- A call other than a reset changes nothing of what comes after it. -/
theorem lifeOps_kept_iff {b : BlockStorage} {call : BlockCall}
    (hcall : ∀ unmapped closed, call ≠ .reset unmapped closed) (calls : List BlockCall) :
    UnmappedOnce (lifeOps elemSize unmapped closed b (call :: calls)).log ↔
      UnmappedOnce (lifeOps elemSize unmapped closed b calls).log := by
  have hensures := callOps_kept elemSize (b := b) hcall
  obtain ⟨b', hvalue, rfl⟩ := hensures.returns
  rw [lifeOps, Logged.log_bind_of_value hvalue]
  exact UnmappedOnce.append_iff fun op hop => (hensures.entries op hop).1

theorem destroyOps_unmappedOnce {b : BlockStorage} (h : b.data.isSome) :
    UnmappedOnce (destroyOps elemSize unmapped closed b).log := by
  obtain ⟨ops, b', hlog, hquiet, -⟩ := log_resetOps_bind elemSize unmapped closed h fun b' => do
    let _ ← fdReset closed b'.fd
    pure ()
  have hclose : (do
      let _ ← fdReset closed b'.fd
      pure () : Logged MapOp Unit).Ensures Quiet fun _ => True :=
    (fdReset_ensures closed b'.fd).bind fun _ _ => .pure trivial
  rw [destroyOps, hlog]
  refine UnmappedOnce.cons_of_quiet fun op hop => ?_
  exact (List.mem_append.mp hop).elim (hquiet op) (hclose.entries op)

/-- The mapping is unmapped once and then left alone exactly when the first reset, if
there is one before the destruction, fails to unmap it. -/
theorem lifeOps_unmappedOnce_iff {b : BlockStorage} {mapping : Mapping}
    (h : b.data = some mapping) (calls : List BlockCall) :
    UnmappedOnce (lifeOps elemSize unmapped closed b calls).log ↔ FirstResetFails calls := by
  have hmapped : b.data.isSome := by rw [h]; rfl
  induction calls with
  | nil => exact iff_of_true (destroyOps_unmappedOnce elemSize unmapped closed hmapped) trivial
  | cons call calls ih =>
      cases call with
      | read offset dataCount =>
          have hcall : ∀ unmapped closed,
              BlockCall.read offset dataCount ≠ .reset unmapped closed := fun _ _ => nofun
          exact (lifeOps_kept_iff elemSize unmapped closed hcall calls).trans ih
      | write offset dataCount =>
          have hcall : ∀ unmapped closed,
              BlockCall.write offset dataCount ≠ .reset unmapped closed := fun _ _ => nofun
          exact (lifeOps_kept_iff elemSize unmapped closed hcall calls).trans ih
      | reset unmapped' closed' =>
          obtain ⟨ops, b', hlog, hquiet, hdata⟩ := log_resetOps_bind elemSize
            unmapped' closed' hmapped fun b' => lifeOps elemSize unmapped closed b' calls
          rw [lifeOps, callOps, hlog, FirstResetFails]
          cases unmapped' with
          | false =>
              refine iff_of_true (UnmappedOnce.cons_of_quiet fun op hop => ?_) rfl
              exact (List.mem_append.mp hop).elim (hquiet op)
                ((lifeOps_forgotten elemSize unmapped closed hdata calls).entries op)
          | true =>
              refine iff_of_false (fun hall => ?_) (by decide)
              obtain ⟨op, hop, htouches⟩ :=
                lifeOps_touches elemSize unmapped closed (hdata ▸ hmapped) calls
              have hquiet' := (List.pairwise_cons.mp (UnmappedOnce.iff_pairwise.mp hall)).1 op
                (List.mem_append_right ops hop) rfl
              rw [htouches] at hquiet'
              cases hquiet'

end Life

/-- One element of eight bytes. -/
def mapped : BlockStorage := ⟨3, some ⟨bytes "index", true, 8⟩, 1, false⟩

/-- The element is not read after a reset that failed, nor is it unmapped again. -/
theorem lifeOps_unmappedOnce_sample :
    UnmappedOnce (lifeOps 8 true true mapped [.read 0 1, .reset false true, .write 0 1]).log :=
  (lifeOps_unmappedOnce_iff 8 true true rfl _).mpr rfl

/-- After a reset the element is read, and the destructor unmaps it again. -/
theorem not_unmappedOnce_reset :
    (lifeOps 8 true true mapped [.reset true true, .read 0 1]).log =
        [.munmap 8 true, .close 3 true, .access 0 8, .munmap 8 true] ∧
      ¬UnmappedOnce (lifeOps 8 true true mapped [.reset true true, .read 0 1]).log :=
  ⟨by decide, fun h => absurd h.once (by decide)⟩

end BlockStorage

end Storage

end DistStorage
