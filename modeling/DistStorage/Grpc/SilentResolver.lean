import DistStorage.Grpc.Resolver

/-!
# The node resolver with its store

The resolver was given `sign_message` as a parameter. With the `sign_message` of
`AuthStore`, in whatever state the store is at each call, no attempt gets a signed
message: nothing is sent, nothing is reported, and an attempt that reserved a port is
under way until the resolver is shut down.
-/

namespace DistStorage

namespace Grpc

namespace NodeResolver

open Net Peer Proto Transition

variable {K S R : Type} {env : SigningEnv S K (Payload R)} {nodeId : Bytes}
  {s t : NodeResolver} {es fs : List (Event K S)}

/-- The events of a resolver whose store signs. -/
abbrev storeStep (env : SigningEnv S K (Payload R)) (nodeId : Bytes) :
    NodeResolver → Event K S → Option NodeResolver :=
  step (TrustStore.signMessage env) nodeId

/-- Attempts were begun, but no call was sent and nothing was reported. -/
structure Silent (s : NodeResolver) : Prop where
  outstanding_eq : s.outstanding = []
  log_eq : ∀ note ∈ s.log, note = .attempt

theorem Silent.startLocked (hs : s.Silent) (w : Surroundings K S) :
    (s.startLocked (TrustStore.signMessage env) nodeId w).Silent := by
  cases hresolving : s.resolving with
  | true => rwa [startLocked_of_resolving hresolving]
  | false =>
      have hunsent : Unsent s (s.startLocked (TrustStore.signMessage env) nodeId w) :=
        startLocked_unsent hresolving hs.outstanding_eq (not_reserves_signMessage env nodeId w)
      refine ⟨hunsent.outstanding, ?_⟩
      rw [hunsent.log]
      exact List.forall_mem_append.mpr ⟨hs.log_eq, by simp⟩

theorem Silent.inFlight_eq (hs : s.Silent) : s.inFlight = [] :=
  (List.append_eq_nil_iff.mp hs.outstanding_eq).1

theorem Silent.queued_eq (hs : s.Silent) : s.queued = [] :=
  List.map_eq_nil_iff.mp (List.append_eq_nil_iff.mp hs.outstanding_eq).2

/-- Nothing is under way that could complete. -/
theorem Silent.step_cases {e : Event K S} (hs : s.Silent)
    (hstep : storeStep env nodeId s e = some t) :
    (∃ w, t = s.startLocked (TrustStore.signMessage env) nodeId w) ∨ t = s ∨
      e = .shutdownLocked ∧ t = { s with resolving := false } := by
  cases e with
  | startLocked w => exact .inl ⟨w, (Option.some.inj hstep).symm⟩
  | requestReresolutionLocked w => exact .inl ⟨w, (Option.some.inj hstep).symm⟩
  | resetBackoffLocked => exact .inr (.inl (Option.some.inj hstep).symm)
  | shutdownLocked => exact .inr (.inr ⟨rfl, (Option.some.inj hstep).symm⟩)
  | sendDone i status =>
      obtain ⟨call, hcall, -⟩ := Option.map_eq_some_iff.mp hstep
      rw [hs.inFlight_eq] at hcall
      cases hcall
  | runSerializer =>
      obtain ⟨completion, hcompletion, -⟩ := Option.bind_eq_some_iff.mp hstep
      rw [hs.queued_eq] at hcompletion
      cases hcompletion

theorem Silent.step {e : Event K S} (hs : s.Silent) (hstep : storeStep env nodeId s e = some t) :
    t.Silent := by
  obtain ⟨w, rfl⟩ | rfl | ⟨-, rfl⟩ := hs.step_cases hstep
  · exact hs.startLocked w
  · exact hs
  · exact ⟨hs.outstanding_eq, hs.log_eq⟩

/-- While an attempt is under way, only the shutdown changes the resolver. -/
theorem Silent.step_of_resolving {e : Event K S} (hs : s.Silent) (hresolving : s.resolving = true)
    (he : e ≠ .shutdownLocked) (hstep : storeStep env nodeId s e = some t) : t = s := by
  obtain ⟨w, rfl⟩ | hsame | ⟨hshutdown, -⟩ := hs.step_cases hstep
  · exact startLocked_of_resolving hresolving w
  · exact hsame
  · exact absurd hshutdown he

theorem Silent.run_of_resolving (hs : s.Silent) (hresolving : s.resolving = true)
    (hfs : ∀ e ∈ fs, e ≠ .shutdownLocked) (hrun : run (storeStep env nodeId) s fs = some t) :
    t = s := by
  induction fs generalizing t with
  | nil => exact (Option.some.inj hrun).symm
  | cons e fs ih =>
      obtain ⟨u, hu, hrest⟩ := run_cons_eq_some.mp hrun
      obtain rfl := hs.step_of_resolving hresolving (hfs e List.mem_cons_self) hu
      exact ih (fun e' he' => hfs e' (List.mem_cons_of_mem e he')) hrest

/-- With the signatures of its store a resolver never sends a call and never reports a
result, and once an attempt has reserved its port nothing but the shutdown changes the
resolver. -/
theorem silent_of_run (hrun : run (storeStep env nodeId) new es = some s) :
    s.Silent ∧
      ∀ fs t, s.resolving = true → (∀ e ∈ fs, e ≠ .shutdownLocked) →
        run (storeStep env nodeId) s fs = some t → t = s := by
  have hsilent : s.Silent :=
    run_invariant (fun _ _ _ hs hstep => Silent.step hs hstep)
      ⟨rfl, fun _ h => absurd h List.not_mem_nil⟩ hrun
  exact ⟨hsilent, fun fs t hresolving hfs hrest =>
    hsilent.run_of_resolving hresolving hfs hrest⟩

def sampleStoreEnv : SigningEnv UInt8 UInt8 (Payload Empty) where
  publicKey := TrustStore.sampleSigningEnv.publicKey
  signature := TrustStore.sampleSigningEnv.signature
  digestVerify := TrustStore.sampleSigningEnv.digestVerify
  serialize
    | ⟨⟨recipientId⟩, some (.holePunch params), false⟩ =>
        if recipientId = [2] ∧ params = holePunchParameters 12350 then some [9] else none
    | _ => none
  parse text :=
    if text = [9] then some ⟨⟨[2]⟩, some (.holePunch (holePunchParameters 12350)), false⟩ else none
  signature_ne_nil := TrustStore.sampleSigningEnv.signature_ne_nil
  digestVerify_signature := TrustStore.sampleSigningEnv.digestVerify_signature
  parse_of_serialize := by
    intro data text h
    split at h
    · split_ifs at h with hdata
      obtain ⟨rfl, rfl⟩ := hdata
      obtain rfl := Option.some.inj h
      rfl
    · cases h

/-- The port can be reserved, and the store has a key. -/
def sampleSigner : Surroundings UInt8 UInt8 where
  ports := fun _ => ⟨5, 5, 0, 0, 0⟩
  portsAgain := fun _ => ⟨5, 5, 0, 0, 0⟩
  authStore := .configured [1] [] (some ⟨7, 3⟩)

theorem silent_of_run_sample :
    ∃ s, run (storeStep sampleStoreEnv [2]) new [.startLocked sampleSigner,
        .requestReresolutionLocked sampleSigner, .shutdownLocked, .startLocked sampleSigner] =
        some s ∧ s.resolving = true ∧ s.log = [.attempt, .attempt] ∧ s.Silent := by
  have hrun : run (storeStep sampleStoreEnv [2]) new [.startLocked sampleSigner,
      .requestReresolutionLocked sampleSigner, .shutdownLocked, .startLocked sampleSigner] =
      some _ := rfl
  exact ⟨_, hrun, by decide +kernel, by decide +kernel, (silent_of_run hrun).1⟩

end NodeResolver

end Grpc

end DistStorage
