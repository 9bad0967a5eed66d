import DistStorage.ObjStore.Answered

/-!
# What a Hash answers with

A Hash is to answer with the digest, under the algorithm it asks for, of the bytes
from its position on, and to fail if there are fewer than it asks for. The loops do
so for every pattern of short reads, if the hasher has its algorithm. The hasher
that the handler makes has none.
-/

namespace DistStorage

namespace ObjStore

open Cpp Cpp.Action Posix

variable {w : World} {o : Outcomes} {p : Path} {content : Bytes}

def selected (content : Bytes) (pos : ℕ) (dataLen : ℤ) : Bytes :=
  if 0 < dataLen then (content.drop pos).take dataLen.toNat else content.drop pos

/-- The bytes that a Hash asks for are there. -/
def Available (content : Bytes) (pos : ℕ) (dataLen : ℤ) : Prop :=
  0 < dataLen → pos + dataLen ≤ content.length

section Loops

/-- A loop ends in a failure, or with the bytes in the hasher if they are all there. -/
def Absorbs (md : Bytes → Bytes) (absorbed data : Bytes) (complete : Prop)
    (outcome : Outcome Exception Disk (Option SSLHasher)) : Prop :=
  ∃ d', outcome = .returned none d' ∨
    complete ∧ outcome = .returned (some ⟨some md, some (absorbed ++ data)⟩) d'

variable {md : Bytes → Bytes} {absorbed : Bytes} {d : Disk} {pos count : ℕ}

/-- A read fails, or moves bytes from the position, and no bytes only at the end. -/
theorem read_interrupted (hcontent : d.files p = some content) :
    (w.interrupted o).calls.read ⟨.entry p, pos⟩ count d =
      .returned ((o.transfers d.transferred).map fun n =>
        ((content.drop pos).take (min count (n + 1)),
          ⟨.entry p, pos + ((content.drop pos).take (min count (n + 1))).length⟩))
        { d with transferred := d.transferred + 1 } := by
  change Outcome.returned ((o.transfers d.transferred).bind fun n =>
    d.files.read ⟨.entry p, pos⟩ (min count (n + 1))) _ = _
  cases htransfer : o.transfers d.transferred with
  | none => rfl
  | some n => simp [FileSystem.read, hcontent]

theorem take_append_drop_length (l : Bytes) (k : ℕ) :
    l.take k ++ l.drop (l.take k).length = l := by
  have hk : l.take k = l.take (l.take k).length := by
    rw [List.length_take, ← List.take_eq_take_min]
  calc l.take k ++ l.drop (l.take k).length
      = l.take (l.take k).length ++ l.drop (l.take k).length := congrArg (· ++ _) hk
    _ = l := List.take_append_drop _ l

theorem take_append_behind (l : Bytes) {k n : ℕ} (h : k ≤ n) :
    l.take k ++ (l.drop (l.take k).length).take (n - (l.take k).length) = l.take n := by
  have hsplit := take_append_drop_length (l.take n) k
  rw [List.take_take, min_eq_left h] at hsplit
  rw [← List.drop_take]
  exact hsplit

theorem hashRemaining_absorbs (rounds : ℕ) {remaining : ℕ} (hrounds : remaining < rounds)
    (hcontent : d.files p = some content) :
    Absorbs md absorbed ((content.drop pos).take remaining) (remaining ≤ content.length - pos)
      (hashRemaining (w.interrupted o) rounds ⟨.entry p, pos⟩ remaining ⟨some md, some absorbed⟩
        d) := by
  induction rounds generalizing remaining pos absorbed d with
  | zero => omega
  | succ rounds ih =>
      unfold hashRemaining
      by_cases hzero : remaining = 0
      · rw [if_pos hzero]
        refine ⟨d, .inr ⟨by omega, ?_⟩⟩
        rw [hzero, List.take_zero, List.append_nil]
        rfl
      rw [if_neg hzero, bind_of_returned (read_interrupted hcontent)]
      cases htransfer : o.transfers d.transferred with
      | none => exact ⟨_, .inl rfl⟩
      | some n =>
          simp only [Option.map_some]
          have hchunk := take_append_behind (content.drop pos)
            (show min (min remaining kChunk) (n + 1) ≤ remaining by omega)
          generalize hread : (content.drop pos).take (min (min remaining kChunk) (n + 1)) = chunk
            at hchunk
          have hlength : chunk.length ≤ content.length - pos := by
            rw [← hread, List.length_take, List.length_drop]
            exact min_le_right _ _
          split_ifs with hempty
          · exact ⟨_, .inl rfl⟩
          have hpos := List.length_pos_iff.mpr hempty
          have hput : SSLHasher.put ⟨some md, some absorbed⟩ chunk
              { d with transferred := d.transferred + 1 } =
                (.returned ⟨some md, some (absorbed ++ chunk)⟩
                  { d with transferred := d.transferred + 1 } :
                  Outcome Exception Disk SSLHasher) := rfl
          rw [bind_of_returned hput]
          obtain ⟨d', hnone | ⟨hrest, hsome⟩⟩ : Absorbs md (absorbed ++ chunk)
              ((content.drop (pos + chunk.length)).take (remaining - chunk.length))
              (remaining - chunk.length ≤ content.length - (pos + chunk.length)) _ :=
            ih (by omega) (d := { d with transferred := d.transferred + 1 }) hcontent
          · exact ⟨d', .inl hnone⟩
          · rw [List.drop_drop] at hchunk
            rw [List.append_assoc, hchunk] at hsome
            exact ⟨d', .inr ⟨by omega, hsome⟩⟩

theorem hashToEnd_absorbs (rounds : ℕ) (hrounds : content.length - pos < rounds)
    (hcontent : d.files p = some content) :
    Absorbs md absorbed (content.drop pos) True
      (hashToEnd (w.interrupted o) rounds ⟨.entry p, pos⟩ ⟨some md, some absorbed⟩ d) := by
  induction rounds generalizing pos absorbed d with
  | zero => omega
  | succ rounds ih =>
      unfold hashToEnd
      rw [bind_of_returned (read_interrupted hcontent)]
      cases htransfer : o.transfers d.transferred with
      | none => exact ⟨_, .inl rfl⟩
      | some n =>
          simp only [Option.map_some]
          have hkChunk : 0 < kChunk := by decide
          generalize hread : (content.drop pos).take (min kChunk (n + 1)) = chunk
          have hlength : chunk.length = min (min kChunk (n + 1)) (content.length - pos) := by
            rw [← hread, List.length_take, List.length_drop]
          split_ifs with hempty
          · rw [hempty, List.length_nil] at hlength
            have hend : content.drop pos = [] := List.drop_eq_nil_of_le (by omega)
            refine ⟨{ d with transferred := d.transferred + 1 }, .inr ⟨trivial, ?_⟩⟩
            rw [hend, List.append_nil]
            rfl
          have hpos := List.length_pos_iff.mpr hempty
          have hput : SSLHasher.put ⟨some md, some absorbed⟩ chunk
              { d with transferred := d.transferred + 1 } =
                (.returned ⟨some md, some (absorbed ++ chunk)⟩
                  { d with transferred := d.transferred + 1 } :
                  Outcome Exception Disk SSLHasher) := rfl
          rw [bind_of_returned hput]
          have hchunk : chunk ++ content.drop (pos + chunk.length) = content.drop pos := by
            rw [← List.drop_drop, ← hread]
            exact take_append_drop_length _ _
          obtain ⟨d', hnone | ⟨-, hsome⟩⟩ :
              Absorbs md (absorbed ++ chunk) (content.drop (pos + chunk.length)) True _ :=
            ih (by omega) (d := { d with transferred := d.transferred + 1 }) hcontent
          · exact ⟨d', .inl hnone⟩
          · rw [List.append_assoc, hchunk] at hsome
            exact ⟨d', .inr ⟨trivial, hsome⟩⟩

/-- With its algorithm in the hasher, the handler fails or answers with the digest of
the bytes that it is asked for. -/
theorem hashWith_assigned {dataLen : ℤ} (hcontent : d.files p = some content)
    (hremaining : dataLen.toNat < w.rounds) (hend : content.length - pos < w.rounds) :
    ∃ answer d', hashWith (w.interrupted o) ⟨.entry p, pos⟩ dataLen ⟨some md, none⟩ d =
        .returned answer d' ∧
      (answer = .failed ∨
        Available content pos dataLen ∧ answer = ⟨.ok, md (selected content pos dataLen)⟩) := by
  have habsorbs : Absorbs md [] (selected content pos dataLen) (Available content pos dataLen)
      (hashContent (w.interrupted o) ⟨.entry p, pos⟩ dataLen ⟨some md, some []⟩ d) := by
    unfold hashContent selected Available
    split_ifs with hlen
    · obtain ⟨d', hnone | ⟨hall, hsome⟩⟩ := hashRemaining_absorbs w.rounds hremaining hcontent
      · exact ⟨d', .inl hnone⟩
      · exact ⟨d', .inr ⟨fun _ => by omega, hsome⟩⟩
    · obtain ⟨d', hnone | ⟨-, hsome⟩⟩ := hashToEnd_absorbs w.rounds hend hcontent
      · exact ⟨d', .inl hnone⟩
      · exact ⟨d', .inr ⟨fun h => absurd h hlen, hsome⟩⟩
  have hstart : SSLHasher.start ⟨some md, none⟩ d =
      (.returned ⟨some md, some []⟩ d : Outcome Exception Disk SSLHasher) := rfl
  rw [hashWith, bind_of_returned hstart]
  obtain ⟨d', hnone | ⟨hall, hsome⟩⟩ := habsorbs
  · exact ⟨_, d', bind_of_returned hnone, .inl rfl⟩
  · exact ⟨_, d', bind_of_returned hsome, .inr ⟨hall, rfl⟩⟩

end Loops

def World.HashesRight (w : World) (o : Outcomes) (request : HashRequest) (d : Disk) : Prop :=
  ∃ answer d', handleHash (w.interrupted o) request d = .returned answer d' ∧
    (answer.result = .ok → ∃ content md, w.object d.files request.id = some content ∧
      w.digest (hashDigestName request.hashType) = some md ∧
      0 ≤ position content.length request.offset ∧
      Available content (position content.length request.offset).toNat request.dataLen ∧
      answer.content =
        md (selected content (position content.length request.offset).toNat request.dataLen)) ∧
    ∀ content, w.object d.files request.id = some content →
      ¬Available content (position content.length request.offset).toNat request.dataLen →
      answer.result = .failed

theorem hashObject_eq {σ D : Type} (env : Environment σ D) (request : HashRequest) :
    hashObject env request = (do
      match ← openAt env request.id request.offset with
      | none => pure .failed
      | some fd => do
          let hasher ← newHasher env (hashDigestName request.hashType)
          hashWith env fd request.dataLen hasher) := openAt_bind _ _ _ _

theorem failed_of_handleHash {σ D : Type} {env : Environment σ D} {request : HashRequest} {s t : σ}
    {answer : ContentResult} (h : handleHash env request s = .returned answer t) :
    answer = .failed := by
  cases hobject : hashObject env request s with
  | returned a u =>
      rw [handleHash, tryCatch_of_returned hobject] at h
      obtain ⟨rfl, rfl⟩ := Outcome.returned.inj h
      rw [hashObject_eq] at hobject
      obtain ⟨fd, v, -, hrest⟩ := bind_eq_returned.mp hobject
      cases fd with
      | none => exact (pure_eq_returned.mp hrest).1.symm
      | some fd =>
          obtain ⟨hasher, v', hnew, hwith⟩ := bind_eq_returned.mp hrest
          obtain ⟨_, _, -, hhasher⟩ := bind_eq_returned.mp hnew
          obtain rfl := (pure_eq_returned.mp hhasher).1
          cases hwith
  | thrown e u =>
      rw [handleHash, tryCatch_of_thrown hobject] at h
      exact (pure_eq_returned.mp h).1.symm
  | undefined =>
      have hundefined : handleHash env request s = .undefined := by
        rw [handleHash, Action.tryCatch, hobject]
      rw [hundefined] at h
      cases h

/-- A Hash is answered rightly exactly if it does not get to its hasher. -/
theorem hashesRight_iff (w : World) (o : Outcomes) (request : HashRequest) (d : Disk) :
    w.HashesRight o request d ↔
      ¬(Reached (w.interrupted o) request.id request.offset d ∧
        (w.digest (hashDigestName request.hashType)).isSome) := by
  have hfails := fails_handleHash (returns_interrupted w o) request d
  constructor
  · rintro ⟨answer, d', hreturned, -⟩ hreached
    exact not_fails_iff.mpr ⟨answer, d', hreturned⟩ (hfails.mpr hreached)
  · intro hunreached
    obtain ⟨answer, d', hreturned⟩ := not_fails_iff.mp (mt hfails.mp hunreached)
    have hanswer : answer = .failed := failed_of_handleHash hreturned
    subst hanswer
    exact ⟨_, d', hreturned, nofun, fun _ _ _ => rfl⟩

/-- A Hash of a byte that is there is undefined, where the digest of the byte is itself. -/
theorem hash_undefined :
    handleHash ({ sampleWorld with digest := fun _ => some id }.interrupted .full)
        ⟨bytes "x", .sha256, 0, 1⟩ sampleDisk = .undefined ∧
      ¬{ sampleWorld with digest := fun _ => some id }.HashesRight .full
        ⟨bytes "x", .sha256, 0, 1⟩ sampleDisk := by
  refine ⟨rfl, ?_⟩
  rintro ⟨answer, d, h, -⟩
  cases h

end ObjStore

end DistStorage
