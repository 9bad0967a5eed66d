import DistStorage.Net.TcpV4

/-!
# What a hole punch keeps

A hole punch changes the machine only by the calls that it makes: it reads an answer,
takes a new descriptor, closes one, or moves one between variables. A condition that
each of these keeps is kept by the whole punch, whether it returns or throws.
-/

namespace DistStorage

namespace Net

open Cpp

/-- A condition on the machine that the single calls keep. -/
structure Stable (I : Machine → Prop) : Prop where
  answer : ∀ s, I s → I { s with calls := s.calls + 1 }
  allocate : ∀ s, I s → I { s with nextFd := s.nextFd + 1, opened := s.opened ++ [s.nextFd] }
  check : ∀ fd s, I s → I (s.check fd)
  setVar : ∀ v fd s, I s → I (s.setVar v fd)
  close : ∀ fd s, I s → I (s.close fd)
  polls : ∀ polls s, I s → I { s with polls := polls }

theorem Stable.reset {I : Machine → Prop} (hI : Stable I) (v : Var) (s : Machine) (hs : I s) :
    I (s.reset v) := by
  unfold Machine.reset
  split_ifs
  · exact hs
  · exact hI.setVar v (-1) _ (hI.close _ s hs)

/-- An action keeps a condition on every way out. -/
def Keeps {α : Type} (I : Machine → Prop) (m : Run α) : Prop :=
  Action.Triple I m (fun _ => I) (fun _ => I)

namespace Keeps

variable {α β : Type} {I : Machine → Prop} {m : Run α}

theorem pure (a : α) : Keeps I (pure a) :=
  Action.Triple.pure a fun _ h => h

theorem throw (e : Exception) : Keeps I (Action.throw e : Run α) :=
  Action.Triple.throw e fun _ h => h

theorem bind {f : α → Run β} (hm : Keeps I m) (hf : ∀ a, Keeps I (f a)) : Keeps I (m >>= f) :=
  Action.Triple.bind hm hf

theorem modify {g : Machine → Machine} (hg : ∀ s, I s → I (g s)) : Keeps I (Action.modify g) :=
  Action.Triple.modify hg

theorem finallyDo {cleanup : Machine → Machine} (hm : Keeps I m)
    (hcleanup : ∀ s, I s → I (cleanup s)) : Keeps I (Action.finallyDo m cleanup) :=
  Action.Triple.finallyDo hm (fun _ => hcleanup) fun _ => hcleanup

theorem require (p : Prop) [Decidable p] (e : Exception) :
    Keeps I (Action.require p e : Run Unit) := by
  unfold Action.require
  split_ifs
  · exact .pure ()
  · exact .throw e

theorem ofOption_bind {o : Option α} {f : α → Run β} (h : ∀ a, Keeps I (f a)) :
    Keeps I (Action.ofOption o >>= f) :=
  Action.Triple.ofOption_bind fun a _ => h a

theorem value (v : Var) : Keeps I (value v) :=
  fun _ h => h

end Keeps

section Calls

variable {I : Machine → Prop} (hI : Stable I)

include hI

theorem answer_keeps : Keeps I answer :=
  hI.answer

theorem allocate_keeps : Keeps I allocate :=
  hI.allocate

theorem handle_keeps (v : Var) : Keeps I (handle v) :=
  hI.setVar v (-1)

theorem handleSome_keeps (v : Var) : Keeps I (some <$> handle v) :=
  (handle_keeps hI v).bind fun _ => .pure _

theorem operate_keeps (fd : ℤ) : Keeps I (operate fd) :=
  fun s hs => hI.check fd _ (hI.answer s hs)

theorem callOn_keeps (fd : ℤ) (descr : String) :
    Keeps I (operate fd >>= ccall descr) :=
  (operate_keeps hI fd).bind fun _ => .require _ _

theorem callTwice_keeps (fd : ℤ) (descr descr' : String) : Keeps I (do
    let a ← operate fd
    ccall descr a
    let a ← operate fd
    ccall descr' a) :=
  (operate_keeps hI fd).bind fun _ => (Keeps.require _ _).bind fun _ => callOn_keeps hI fd descr'

theorem tcpv4SetBlocking_keeps (fd : ℤ) : Keeps I (tcpv4SetBlocking fd) :=
  callTwice_keeps hI fd _ _

theorem tcpv4SetTimeout_keeps (fd : ℤ) : Keeps I (tcpv4SetTimeout fd) :=
  callTwice_keeps hI fd _ _

theorem tcpv4PortReuse_keeps (fd : ℤ) : Keeps I (tcpv4PortReuse fd) :=
  callTwice_keeps hI fd _ _

theorem tcpv4NewSocket_keeps : Keeps I tcpv4NewSocket :=
  (answer_keeps hI).bind fun _ => (Keeps.require _ _).bind fun _ => allocate_keeps hI

theorem tcpv4BindPort_keeps (fd : ℤ) (addr : IPv4Addr) : Keeps I (tcpv4BindPort fd addr) :=
  (Keeps.require _ _).bind fun _ => callOn_keeps hI fd _

theorem tcpv4ConnectUnsafe_keeps (fd : ℤ) (addr : IPv4Addr) :
    Keeps I (tcpv4ConnectUnsafe fd addr) := by
  refine (Keeps.require _ _).bind fun _ => (operate_keeps hI fd).bind fun a => ?_
  split_ifs
  · exact .pure _
  · exact .pure _
  · exact .pure _
  · exact .pure _

theorem tcpv4AcceptUnsafe_keeps (fd : ℤ) : Keeps I (tcpv4AcceptUnsafe fd) := by
  refine (operate_keeps hI fd).bind fun a => ?_
  split_ifs
  · exact .pure _
  · refine (allocate_keeps hI).bind fun newFd => ?_
    exact (Keeps.modify (hI.setVar _ _)).bind fun _ => .pure _

theorem pollSockets_keeps (ms : ℤ) : Keeps I (pollSockets ms) :=
  fun s hs => hI.polls _ _ (hI.check _ _ (hI.check _ _ (hI.answer s hs)))

theorem punchOutbound_keeps (dst : IPv4Addr) (fireNewSyn : Bool) :
    Keeps I (punchOutbound dst fireNewSyn) := by
  cases fireNewSyn with
  | false => exact .pure none
  | true =>
      refine (Keeps.value _).bind fun fd => (tcpv4ConnectUnsafe_keeps hI fd dst).bind fun a => ?_
      split_ifs
      · exact handleSome_keeps hI _
      · exact .pure _

theorem acceptPeer_keeps (dst : IPv4Addr) : Keeps I (acceptPeer dst) := by
  refine (Keeps.value _).bind fun fd => (tcpv4AcceptUnsafe_keeps hI fd).bind fun o => ?_
  cases o with
  | none => exact .pure _
  | some peer =>
      simp only
      split_ifs
      · exact handleSome_keeps hI _
      · refine (handle_keeps hI _).bind fun newFd => ?_
        exact (Keeps.modify (hI.close newFd)).bind fun _ => .pure _

theorem finishConnect_keeps (src : IPv4Addr) : Keeps I (finishConnect src) := by
  refine (Keeps.value _).bind fun fd => (operate_keeps hI fd).bind fun a => ?_
  split_ifs
  · exact handleSome_keeps hI _
  · refine (tcpv4NewSocket_keeps hI).bind fun newFd => ?_
    refine (Keeps.modify (hI.reset _)).bind fun _ => ?_
    refine (Keeps.modify (hI.setVar _ newFd)).bind fun _ => ?_
    refine (tcpv4PortReuse_keeps hI newFd).bind fun _ => ?_
    exact (tcpv4BindPort_keeps hI newFd src).bind fun _ => .pure _

theorem afterPoll_keeps (settings : HolePunchParameters) (src dst : IPv4Addr) (n : ℕ)
    (connectSec : ℚ)
    (h : ∀ connectSec fireNewSyn, Keeps I (holePunchLoop settings src dst n connectSec fireNewSyn))
    (res : Answer) :
    Keeps I (if res.pollOut then do
        match ← finishConnect src with
        | some fd => pure fd
        | none => holePunchLoop settings src dst n (backoff settings connectSec) true
      else holePunchLoop settings src dst n (backoff settings connectSec) false) := by
  split_ifs
  · refine (finishConnect_keeps hI src).bind fun o => ?_
    cases o with
    | some fd => exact .pure fd
    | none => exact h _ _
  · exact h _ _

theorem holePunchLoop_keeps (settings : HolePunchParameters) (src dst : IPv4Addr) (n : ℕ)
    (connectSec : ℚ) (fireNewSyn : Bool) :
    Keeps I (holePunchLoop settings src dst n connectSec fireNewSyn) := by
  induction n generalizing connectSec fireNewSyn with
  | zero => exact .throw _
  | succ n ih =>
      have htail := afterPoll_keeps hI settings src dst n connectSec ih
      unfold holePunchLoop
      refine (punchOutbound_keeps hI dst fireNewSyn).bind fun o => ?_
      cases o with
      | some fd => exact .pure fd
      | none =>
          refine Keeps.ofOption_bind fun ms => (pollSockets_keeps hI ms).bind fun res => ?_
          by_cases hfailed : res.ret < 0
          · rw [if_pos hfailed]
            split_ifs
            · exact ih _ _
            · exact .throw _
          rw [if_neg hfailed]
          by_cases htimeout : res.ret = 0
          · rw [if_pos htimeout]
            exact ih _ _
          rw [if_neg htimeout]
          by_cases hpollIn : res.pollIn = true
          · rw [if_pos hpollIn]
            refine (acceptPeer_keeps hI dst).bind fun o => ?_
            cases o with
            | some fd => exact .pure fd
            | none => exact htail res
          · rw [if_neg hpollIn]
            refine (Keeps.pure none).bind fun o => ?_
            cases o with
            | some fd => exact .pure fd
            | none => exact htail res

theorem openConnector_keeps (settings : HolePunchParameters) :
    Keeps I (openConnector settings) := by
  have hsrc : Keeps I (getHolePunchIpv4Src settings) := by
    unfold getHolePunchIpv4Src
    split
    · exact .pure _
    · exact .throw _
  have hdst : Keeps I (getHolePunchIpv4Dst settings) := by
    unfold getHolePunchIpv4Dst
    split
    · exact .pure _
    · exact .throw _
  refine hsrc.bind fun src => hdst.bind fun dst => (Keeps.value _).bind fun fd => ?_
  refine (callOn_keeps hI fd "listening").bind fun _ => ?_
  exact (tcpv4NewSocket_keeps hI).bind fun newFd => .pure _

theorem tcpv4HolePunch_keeps (settings : HolePunchParameters) :
    Keeps I (tcpv4HolePunch settings) := by
  refine Keeps.finallyDo ?_ (hI.reset _)
  refine (openConnector_keeps hI settings).bind fun (src, dst, newFd) => ?_
  refine Keeps.finallyDo ((Keeps.modify (hI.setVar _ newFd)).bind fun _ => ?_) (hI.reset _)
  refine (handle_keeps hI _).bind fun fd => (tcpv4PortReuse_keeps hI fd).bind fun _ => ?_
  refine (Keeps.value _).bind fun fd => (tcpv4BindPort_keeps hI fd src).bind fun _ => ?_
  exact holePunchLoop_keeps hI settings src dst _ _ _

end Calls

end Net

end DistStorage
