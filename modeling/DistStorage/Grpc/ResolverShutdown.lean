import DistStorage.Grpc.Resolver

/-!
# A node resolver that is shut down

`ShutdownLocked` clears `resolving_` while a signaling call may still be under way, so
a later `StartLocked` or `RequestReresolutionLocked` begins an attempt beside that call.
If it reserves a socket, it replaces the context and the reservation of the call. Here
the methods are called in any order, and the runs in which this never happens are those
in which such an attempt gets no socket.
-/

namespace DistStorage

namespace Grpc

open Cpp Net Peer Proto Transition

namespace NodeResolver

variable {K S R : Type}

/-- The tries of the reservation that `StartLocked` makes give a valid socket. -/
def bindsSocket (w : Surroundings K S) : Bool :=
  match tcpv4BindRandomPort 12345 23456 w.ports 32 with
  | .error _ => false
  | .ok socket => socket.valid

/-- An attempt that begins while a call is not handled yet gets no socket. -/
def StartsAlone (s : NodeResolver) : Event K S → Prop
  | .startLocked w | .requestReresolutionLocked w =>
      s.resolving = false → s.outstanding ≠ [] → bindsSocket w = false
  | _ => True

instance (s : NodeResolver) : (e : Event K S) → Decidable (StartsAlone s e)
  | .startLocked w | .requestReresolutionLocked w =>
      inferInstanceAs (Decidable (s.resolving = false → s.outstanding ≠ [] →
        bindsSocket w = false))
  | .resetBackoffLocked | .shutdownLocked | .sendDone _ _ | .runSerializer => .isTrue trivial

def begins : Event K S → Bool
  | .startLocked _ | .requestReresolutionLocked _ => true
  | _ => false

/-- A call that is not handled yet is the only one, and its context and its socket are
those of the resolver. -/
structure Undisturbed (s : NodeResolver) : Prop where
  single : s.outstanding.length ≤ 1
  context : ∀ call ∈ s.outstanding, s.holePunchContext = some call.context
  reservation : ∀ call ∈ s.outstanding, s.currentPortReservation = some call.socket

def Numbered (s : NodeResolver) : Prop := ∀ call ∈ s.outstanding, call.context < s.contexts

section Steps

variable {sign : SignMessage K S R} {nodeId : Bytes} {s t : NodeResolver}

theorem Consistent.undisturbed (h : Consistent s) : Undisturbed s :=
  ⟨h.single, h.context, h.reservation⟩

theorem Undisturbed.congr (h : Undisturbed s) (houtstanding : t.outstanding = s.outstanding)
    (hcontext : t.holePunchContext = s.holePunchContext)
    (hreservation : t.currentPortReservation = s.currentPortReservation) : Undisturbed t where
  single := by
    rw [houtstanding]
    exact h.single
  context := by
    rw [houtstanding, hcontext]
    exact h.context
  reservation := by
    rw [houtstanding, hreservation]
    exact h.reservation

variable (sign nodeId s) in
theorem startLocked_of_not_binds {w : Surroundings K S} (hbinds : bindsSocket w = false) :
    (s.startLocked sign nodeId w).outstanding = s.outstanding ∧
      (s.startLocked sign nodeId w).holePunchContext = s.holePunchContext ∧
      (s.startLocked sign nodeId w).currentPortReservation = s.currentPortReservation ∧
      (s.startLocked sign nodeId w).contexts = s.contexts := by
  unfold startLocked
  split
  · exact ⟨rfl, rfl, rfl, rfl⟩
  · unfold bindsSocket at hbinds
    cases hbind : tcpv4BindRandomPort 12345 23456 w.ports 32 with
    | error e => exact ⟨rfl, rfl, rfl, rfl⟩
    | ok socket =>
        rw [hbind] at hbinds
        have hinvalid : socket.valid = false := hbinds
        simp [hinvalid, outstanding]

variable (sign nodeId) in
/-- An attempt with a socket has a context of its own, and leaves the calls that are not
handled yet where they are. -/
theorem startLocked_of_binds {w : Surroundings K S} (hresolving : s.resolving = false)
    (hbinds : bindsSocket w = true) :
    (s.startLocked sign nodeId w).holePunchContext = some s.contexts ∧
      (s.startLocked sign nodeId w).contexts = s.contexts + 1 ∧
      (s.startLocked sign nodeId w).queued = s.queued ∧
      ∃ calls, (s.startLocked sign nodeId w).inFlight = s.inFlight ++ calls ∧
        ∀ call ∈ calls, call.context = s.contexts := by
  unfold bindsSocket at hbinds
  cases hbind : tcpv4BindRandomPort 12345 23456 w.ports 32 with
  | error e =>
      rw [hbind] at hbinds
      cases hbinds
  | ok socket =>
      rw [hbind] at hbinds
      have hvalid : socket.valid = true := hbinds
      unfold startLocked
      rw [hresolving, if_neg Bool.false_ne_true]
      simp only [hbind, hvalid, if_true]
      rw [startHolePunching_of_valid rfl hvalid, sendHolePunch]
      cases hsign : sign (signRequest nodeId socket.port) w.authStore with
      | returned msg store =>
          refine ⟨rfl, rfl, rfl, _, rfl, fun call hcall => ?_⟩
          rw [List.mem_singleton.mp hcall]
      | thrown e store =>
          exact ⟨rfl, rfl, rfl, [], by simp, fun _ h => absurd h List.not_mem_nil⟩
      | undefined =>
          exact ⟨rfl, rfl, rfl, [], by simp, fun _ h => absurd h List.not_mem_nil⟩

theorem Numbered.startLocked (h : Numbered s) (w : Surroundings K S) :
    Numbered (s.startLocked sign nodeId w) := by
  intro call hcall
  cases hresolving : s.resolving with
  | true =>
      rw [startLocked_of_resolving hresolving] at hcall ⊢
      exact h call hcall
  | false =>
      cases hbinds : bindsSocket w with
      | false =>
          obtain ⟨hout, -, -, hcontexts⟩ :=
            startLocked_of_not_binds sign nodeId s hbinds
          rw [hout] at hcall
          rw [hcontexts]
          exact h call hcall
      | true =>
          obtain ⟨-, hcontexts, hqueued, calls, hflight, hfresh⟩ :=
            startLocked_of_binds sign nodeId hresolving hbinds
          rw [outstanding, hflight, hqueued, List.append_assoc, List.mem_append,
            List.mem_append] at hcall
          rw [hcontexts]
          rcases hcall with hcall | hcall | hcall
          · exact Nat.lt_succ_of_lt (h call (List.mem_append_left _ hcall))
          · rw [hfresh call hcall]
            exact Nat.lt_succ_self _
          · exact Nat.lt_succ_of_lt (h call (List.mem_append_right _ hcall))

theorem mem_outstanding_of_sendDone {i : ℕ} {status : SendStatus}
    (hstep : s.step sign nodeId (.sendDone i status) = some t) {call : SignalingCall}
    (hcall : call ∈ t.outstanding) : call ∈ s.outstanding := by
  obtain ⟨done, hdone, rfl⟩ := Option.map_eq_some_iff.mp hstep
  have hmem : done ∈ s.inFlight := List.mem_of_getElem? hdone
  simp only [outstanding, List.map_append, List.mem_append] at hcall ⊢
  rcases hcall with hcall | hcall | hcall
  · exact .inl (List.mem_of_mem_eraseIdx hcall)
  · exact .inr hcall
  · rw [List.mem_singleton.mp hcall]
    exact .inl hmem

theorem onHolePunchingDone_keeps {status : SendStatus}
    (hdone : s.onHolePunchingDone status = some t) :
    t.outstanding = s.outstanding ∧ t.contexts = s.contexts := by
  cases status with
  | ok =>
      obtain ⟨socket, -, rfl⟩ := Option.map_eq_some_iff.mp hdone
      exact ⟨rfl, rfl⟩
  | failed errorMessage =>
      obtain rfl := Option.some.inj hdone
      exact ⟨rfl, rfl⟩

theorem Numbered.step (h : Numbered s) {e : Event K S}
    (hstep : s.step sign nodeId e = some t) : Numbered t := by
  cases e with
  | startLocked w | requestReresolutionLocked w =>
      obtain rfl := Option.some.inj hstep
      exact h.startLocked w
  | resetBackoffLocked | shutdownLocked =>
      obtain rfl := Option.some.inj hstep
      exact h
  | sendDone i status =>
      intro call hcall
      have hmem := mem_outstanding_of_sendDone hstep hcall
      obtain ⟨done, -, rfl⟩ := Option.map_eq_some_iff.mp hstep
      exact h call hmem
  | runSerializer =>
      obtain ⟨completion, hhead, hdone⟩ := Option.bind_eq_some_iff.mp hstep
      obtain ⟨hout, hcontexts⟩ := onHolePunchingDone_keeps hdone
      intro call hcall
      rw [hout, outstanding, List.map_tail, List.mem_append] at hcall
      rw [hcontexts]
      refine h call (List.mem_append.mpr ?_)
      exact hcall.imp_right List.mem_of_mem_tail

theorem undisturbed_startLocked_iff (hnumbered : Numbered s) (h : Undisturbed s)
    (w : Surroundings K S) : Undisturbed (s.startLocked sign nodeId w) ↔
      (s.resolving = false → s.outstanding ≠ [] → bindsSocket w = false) := by
  cases hresolving : s.resolving with
  | true =>
      rw [startLocked_of_resolving hresolving]
      exact iff_of_true h nofun
  | false =>
      by_cases hidle : s.outstanding = []
      · refine iff_of_true ?_ fun _ hne => absurd hidle hne
        by_cases hreserves : reserves sign nodeId w = true
        · obtain ⟨call, hsent⟩ := startLocked_sent hresolving hidle hreserves
          exact hsent.consistent.undisturbed
        · have hunsent := startLocked_unsent hresolving hidle hreserves
          exact (Consistent.of_idle hunsent.outstanding).undisturbed
      · cases hbinds : bindsSocket w with
        | false =>
            obtain ⟨hout, hcontext, hreservation, -⟩ :=
              startLocked_of_not_binds sign nodeId s hbinds
            exact iff_of_true (h.congr hout hcontext hreservation) fun _ _ => rfl
        | true =>
            -- the call under way still has its old context
            obtain ⟨hcontext, -, hqueued, calls, hflight, -⟩ :=
              startLocked_of_binds sign nodeId hresolving hbinds
            obtain ⟨call, hcall⟩ := List.exists_mem_of_ne_nil _ hidle
            refine iff_of_false (fun hafter => ?_) fun hno => nomatch hno rfl hidle
            have hmem : call ∈ (s.startLocked sign nodeId w).outstanding := by
              rw [outstanding, hflight, hqueued, List.append_assoc]
              rw [outstanding, List.mem_append] at hcall
              exact List.mem_append.mpr (hcall.imp_right (List.mem_append_right _))
            have hsame := hcontext.symm.trans (hafter.context call hmem)
            have hlt := hnumbered call hcall
            rw [← Option.some.inj hsame] at hlt
            exact lt_irrefl _ hlt

variable (sign nodeId) in
theorem Undisturbed.reported (h : Undisturbed s) {call : SignalingCall} {status : SendStatus}
    {rest : List (SignalingCall × SendStatus)} (hqueued : s.queued = (call, status) :: rest) :
    ∃ t result, s.step sign nodeId .runSerializer = some t ∧ t.outstanding = [] ∧
      t.log = s.log ++ [.reported result] ∧
      (status = .ok →
        result = .addresses { reservedFd := call.socket.fd, params := .unset }) := by
  have hresolving : Consistent { s with resolving := true } :=
    ⟨h.single, fun _ _ => rfl, h.context, h.reservation⟩
  obtain ⟨t, result, hstep, -, hlog, hidle, haddresses⟩ :=
    hresolving.runSerializer sign nodeId hqueued
  refine ⟨t, result, ?_, hidle, hlog, haddresses⟩
  rw [← hstep, step, step]
  dsimp only
  rw [hqueued]
  cases status <;> rfl

theorem undisturbed_step_iff (hnumbered : Numbered s) (h : Undisturbed s) {e : Event K S}
    (hstep : s.step sign nodeId e = some t) : Undisturbed t ↔ StartsAlone s e := by
  cases e with
  | startLocked w | requestReresolutionLocked w =>
      obtain rfl := Option.some.inj hstep
      exact undisturbed_startLocked_iff hnumbered h w
  | resetBackoffLocked | shutdownLocked =>
      obtain rfl := Option.some.inj hstep
      exact iff_of_true (h.congr rfl rfl rfl) trivial
  | sendDone i status =>
      refine iff_of_true ?_ trivial
      have hresolving : Consistent { s with resolving := true } :=
        ⟨h.single, fun _ _ => rfl, h.context, h.reservation⟩
      obtain ⟨call, hcall, rfl⟩ := Option.map_eq_some_iff.mp hstep
      have hsame : NodeResolver.step sign nodeId { s with resolving := true }
          (.sendDone i status) = some _ :=
        Option.map_eq_some_iff.mpr ⟨call, hcall, rfl⟩
      obtain ⟨hout, -, -, hcontext, hreservation⟩ := hresolving.sendDone hsame
      exact h.congr hout hcontext hreservation
  | runSerializer =>
      refine iff_of_true ?_ trivial
      obtain ⟨⟨call, status⟩, hhead, -⟩ := Option.bind_eq_some_iff.mp hstep
      obtain ⟨rest, hqueued⟩ : ∃ rest, s.queued = (call, status) :: rest :=
        ⟨s.queued.tail, (List.cons_head?_tail hhead).symm⟩
      obtain ⟨t', result, hstep', hidle, -, -⟩ := h.reported sign nodeId hqueued
      obtain rfl := Option.some.inj (hstep.symm.trans hstep')
      exact (Consistent.of_idle hidle).undisturbed

theorem numbered_new : Numbered new := nofun

/-- With `ShutdownLocked` at any time, no call loses its context or its reservation exactly
if no attempt that begins beside a call gets a socket; the completions then find the
socket of their call. This is so when no attempt begins after the shutdown. -/
theorem undisturbed_iff_startsAlone (sign : SignMessage K S R) (nodeId : Bytes)
    (es : List (Event K S)) (s : NodeResolver) (hrun : run (step sign nodeId) new es = some s) :
    ((∀ pre t, pre <+: es → run (step sign nodeId) new pre = some t → Undisturbed t) ↔
      AllSteps (step sign nodeId) StartsAlone new es) ∧
    (AllSteps (step sign nodeId) StartsAlone new es → ∀ call status rest,
      s.queued = (call, status) :: rest →
        ∃ t result, s.step sign nodeId .runSerializer = some t ∧ t.outstanding = [] ∧
          t.log = s.log ++ [.reported result] ∧
          (status = .ok →
            result = .addresses { reservedFd := call.socket.fd, params := .unset })) ∧
    (∀ before after, es = before ++ .shutdownLocked :: after →
      .shutdownLocked ∉ before → (∀ e ∈ after, begins e = false) →
        AllSteps (step sign nodeId) StartsAlone new es) := by
  have hiff := allSteps_iff_invariant (I := Undisturbed) (fun s e t h => h.step (e := e))
    (fun s e t hn h hstep => undisturbed_step_iff hn h hstep) numbered_new
    consistent_new.undisturbed hrun
  refine ⟨hiff.symm, fun hall call status rest hqueued => ?_,
    fun before after hes hbefore hafter => ?_⟩
  · exact (hiff.mp hall es s List.prefix_rfl hrun).reported sign nodeId hqueued
  · subst hes
    rw [run_append, Option.bind_eq_some_iff] at hrun
    obtain ⟨t, ht, -⟩ := hrun
    refine allSteps_append.mpr ⟨?_, fun t _ => ⟨trivial, fun u _ => ?_⟩⟩
    · -- before the shutdown a call is under way only while `resolving` is set
      refine AllSteps.imp (I := Consistent) (P := fun _ e => e ≠ .shutdownLocked)
        (fun _ _ _ h he hstep => h.step he hstep) (fun s e h _ => ?_) consistent_new
        (allSteps_of_forall_mem (fun _ e he => ne_of_mem_of_not_mem he hbefore) _)
      cases e with
      | startLocked w | requestReresolutionLocked w =>
          exact fun hresolving hne => absurd (h.idle hresolving) hne
      | resetBackoffLocked | shutdownLocked | sendDone i status | runSerializer => trivial
    · refine allSteps_of_forall_mem (fun s e he => ?_) u
      have hno := hafter e he
      cases e with
      | startLocked w | requestReresolutionLocked w => cases hno
      | resetBackoffLocked | shutdownLocked | sendDone i status | runSerializer => trivial

theorem undisturbed_iff_startsAlone_sample :
    ∃ s, run (step sampleSign [2]) new [.startLocked (samplePorts 0), .shutdownLocked,
        .startLocked (samplePorts (-1)), .sendDone 0 .ok] = some s ∧
      Undisturbed s ∧ ∃ t, s.step sampleSign [2] .runSerializer = some t ∧
        t.outstanding = [] := by
  obtain ⟨s, hs⟩ : ∃ s, run (step sampleSign [2]) new [.startLocked (samplePorts 0),
      .shutdownLocked, .startLocked (samplePorts (-1)), .sendDone 0 .ok] = some s := ⟨_, rfl⟩
  obtain ⟨hiff, hreported, -⟩ := undisturbed_iff_startsAlone sampleSign [2] _ s hs
  have hall : AllSteps (step sampleSign [2]) StartsAlone new [.startLocked (samplePorts 0),
      .shutdownLocked, .startLocked (samplePorts (-1)), .sendDone 0 .ok] := by decide +kernel
  refine ⟨s, hs, hiff.mpr hall _ s List.prefix_rfl hs, ?_⟩
  obtain ⟨call, status, rest, hqueued⟩ : ∃ call status rest, s.queued = (call, status) :: rest := by
    obtain rfl := Option.some.inj hs
    exact ⟨_, _, _, rfl⟩
  obtain ⟨t, -, hstep, hidle, -, -⟩ := hreported hall call status rest hqueued
  exact ⟨t, hstep, hidle⟩

/-- An attempt beside a call replaces its context. -/
theorem restarted_not_undisturbed :
    ∃ s, run (step sampleSign [2]) new [.startLocked (samplePorts 0), .shutdownLocked,
        .startLocked (samplePorts 0)] = some s ∧ s.outstanding.length = 2 ∧ ¬Undisturbed s :=
  ⟨_, rfl, rfl, fun h => absurd h.single (by decide +kernel)⟩

end Steps

end NodeResolver

end Grpc

end DistStorage
