import DistStorage.Cpp.Text
import DistStorage.Net.TcpV4

/-!
# The address of a peer

`grpc_peer_uri_to_net_ip_addr` splits the URI of a peer and leaves the rest to
`inet_pton` and `std::stoul`. What these two read is more than the whole of the two
parts: the host of a C string ends at a NUL, and a number may have blanks and a sign
before it and any text after it. `convertsRightly_iff` says for which strings that
makes a difference.
-/

namespace DistStorage

namespace Grpc

open Cpp Net

inductive Family
  | inet
  | inet6
  deriving DecidableEq, Repr

/-- `inet_pton` on C strings, with the address in network byte order. Addresses are not
empty, and have no brackets. -/
structure InetPton where
  inetPton : Family → Bytes → Option Bytes
  ne_nil : ∀ family text bin, inetPton family text = some bin → text ≠ []
  not_mem : ∀ family text bin, inetPton family text = some bin → 93 ∉ text

/-- The port of a URI. -/
def portOf (portStr : Bytes) : Option ℕ :=
  (stoul portStr).filter (· ≤ 65535)

def parseHostPortTail (rest : Bytes) : Option (Bytes × ℕ) :=
  match rfind 58 rest with
  | none => none
  | some colon =>
      if colon = 0 then none
      else (portOf (rest.drop (colon + 1))).map fun port => (rest.take colon, port)

def parseIpv6Bracketed (rest : Bytes) : Option (Bytes × ℕ) :=
  if rest.head? ≠ some 91 then none
  else
    match find 93 rest with
    | none => none
    | some closeBracket =>
        if closeBracket < 2 then none
        else if rest[closeBracket + 1]? ≠ some 58 then none
        else (portOf (rest.drop (closeBracket + 2))).map fun port =>
          ((rest.drop 1).take (closeBracket - 1), port)

/-- `grpc_peer_uri_to_net_ip_addr` with what it points to afterwards. -/
def grpcPeerUriToNetIpAddr (env : InetPton) (peer : Bytes) :
    Option IPAddr → Bool × Option IPAddr
  | none => (false, none)
  | some out =>
      if 5 < peer.length ∧ peer.take 5 = bytes "ipv4:" then
        match parseHostPortTail (peer.drop 5) with
        | none => (false, some out)
        | some (host, port) =>
            match env.inetPton .inet (cStr host) with
            | none => (false, some out)
            | some bin => (true, some (.ipv4 ⟨bin, port⟩))
      else if 5 < peer.length ∧ peer.take 5 = bytes "ipv6:" then
        match parseIpv6Bracketed (peer.drop 5) with
        | none => (false, some out)
        | some (host, port) =>
            match env.inetPton .inet6 (cStr host) with
            | none => (false, some out)
            | some bin => (true, some (.ipv6 ⟨bin, port⟩))
      else (false, some out)

def Family.uri (host portStr : Bytes) : Family → Bytes
  | .inet => bytes "ipv4:" ++ (host ++ 58 :: portStr)
  | .inet6 => bytes "ipv6:" ++ (91 :: host ++ 93 :: 58 :: portStr)

def Family.ipAddr (bin : Bytes) (port : ℕ) : Family → IPAddr
  | .inet => .ipv4 ⟨bin, port⟩
  | .inet6 => .ipv6 ⟨bin, port⟩

def IsPort (portStr : Bytes) (port : ℕ) : Prop :=
  portStr ≠ [] ∧ (∀ b ∈ portStr, isDecimal b = true) ∧ decimalValue portStr = port ∧
    port ≤ 65535

/-- The URI denotes an address: `inet_pton` accepts the host as a whole, and the rest is
a port. -/
def Denotes (env : InetPton) (peer : Bytes) (addr : IPAddr) : Prop :=
  ∃ (family : Family) (host portStr bin : Bytes) (port : ℕ),
    peer = family.uri host portStr ∧ 0 ∉ host ∧ env.inetPton family host = some bin ∧
      IsPort portStr port ∧ addr = family.ipAddr bin port

/-- The function returns true with the address that the URI denotes, and false with
nothing changed if it denotes none. -/
def ConvertsRightly (env : InetPton) (peer : Bytes) : Prop :=
  ∀ out,
    (∀ addr, Denotes env peer addr →
      grpcPeerUriToNetIpAddr env peer (some out) = (true, some addr)) ∧
    ((¬∃ addr, Denotes env peer addr) →
      grpcPeerUriToNetIpAddr env peer (some out) = (false, some out))

/-- The text of the port, or of the host up to its port, starts and ends where the
splitters look for it. -/
def Family.Splits (host portStr : Bytes) : Family → Prop
  | .inet => 58 ∉ portStr
  | .inet6 => 93 ∉ host

/-- The two library functions accept a host and a port that they do not read as a
whole: the host has a NUL, or the port is not just digits. -/
def ReadLoosely (env : InetPton) (peer : Bytes) : Prop :=
  ∃ (family : Family) (host portStr : Bytes),
    peer = family.uri host portStr ∧ family.Splits host portStr ∧
      (env.inetPton family (cStr host)).isSome ∧
      (∃ port ≤ 65535, stoul portStr = some port) ∧
      (0 ∈ host ∨ ∃ b ∈ portStr, isDecimal b = false)

section Splitting

variable {env : InetPton} {peer : Bytes}

theorem portOf_eq_some {portStr : Bytes} {port : ℕ} :
    portOf portStr = some port ↔ stoul portStr = some port ∧ port ≤ 65535 := by
  simp [portOf, Option.filter_eq_some_iff]

theorem drop_split (pre post : Bytes) (b : UInt8) :
    (pre ++ b :: post).drop (pre.length + 1) = post := by
  simp

/-- The first splitter takes the last colon. -/
theorem parseHostPortTail_eq_some {rest host : Bytes} {port : ℕ} :
    parseHostPortTail rest = some (host, port) ↔
      ∃ portStr, rest = host ++ 58 :: portStr ∧ 58 ∉ portStr ∧ host ≠ [] ∧
        portOf portStr = some port := by
  unfold parseHostPortTail
  constructor
  · intro h
    cases hfind : rfind 58 rest with
    | none => simp [hfind] at h
    | some colon =>
        obtain ⟨pre, post, rfl, hpost, rfl⟩ := exists_split_of_rfind hfind
        simp only [hfind, drop_split, List.take_left] at h
        split_ifs at h with hcolon
        obtain ⟨port', hport, heq⟩ := Option.map_eq_some_iff.mp h
        obtain ⟨rfl, rfl⟩ := Prod.mk.inj heq
        exact ⟨post, rfl, hpost, by simpa using hcolon, hport⟩
  · rintro ⟨portStr, rfl, hcolon, hne, hport⟩
    simp only [rfind_split host hcolon, drop_split, List.take_left]
    rw [if_neg (by simpa using hne), hport]
    rfl

/-- The second splitter takes the first closing bracket. -/
theorem parseIpv6Bracketed_eq_some {rest host : Bytes} {port : ℕ} :
    parseIpv6Bracketed rest = some (host, port) ↔
      ∃ portStr, rest = 91 :: host ++ 93 :: 58 :: portStr ∧ 93 ∉ host ∧ host ≠ [] ∧
        portOf portStr = some port := by
  have hparts : ∀ host post : Bytes, ((91 :: host ++ 93 :: post).drop 1).take host.length = host :=
    fun host post => by simp
  have hnext : ∀ host post : Bytes,
      (91 :: host ++ 93 :: post)[(91 :: host).length + 1]? = post.head? := by
    intro host post
    rw [List.getElem?_append_right (by omega), List.head?_eq_getElem?]
    simp
  have hport : ∀ host portStr : Bytes,
      (91 :: host ++ 93 :: 58 :: portStr).drop ((91 :: host).length + 2) = portStr := by
    intro host portStr
    rw [List.drop_append]
    simp
  unfold parseIpv6Bracketed
  constructor
  · intro h
    split_ifs at h with hopen
    obtain ⟨tail, rfl⟩ : ∃ tail, rest = 91 :: tail := by
      cases rest with
      | nil => simp at hopen
      | cons b tail => exact ⟨tail, by simpa using hopen⟩
    cases hfind : find 93 (91 :: tail) with
    | none => simp [hfind] at h
    | some closeBracket =>
        obtain ⟨pre, post, heq, hpre, rfl⟩ := exists_split_of_find hfind
        obtain ⟨host', rfl⟩ : ∃ host', pre = 91 :: host' := by
          cases pre with
          | nil => cases heq
          | cons b host' => exact ⟨host', by rw [(List.cons.inj heq).1]⟩
        rw [heq] at h hfind
        simp only [hfind, hnext] at h
        split_ifs at h with hlen hcolon
        obtain ⟨portStr, rfl⟩ : ∃ portStr, post = 58 :: portStr := by
          cases post with
          | nil => simp at hcolon
          | cons b portStr => exact ⟨portStr, by simpa using hcolon⟩
        rw [hport] at h
        obtain ⟨port', hportOf, heq'⟩ := Option.map_eq_some_iff.mp h
        obtain ⟨hhost, rfl⟩ := Prod.mk.inj heq'
        obtain rfl : host' = host := (hparts host' (58 :: portStr)).symm.trans hhost
        refine ⟨portStr, heq, (List.not_mem_of_not_mem_cons hpre), ?_, hportOf⟩
        rintro rfl
        exact hlen (by simp)
  · rintro ⟨portStr, rfl, hbracket, hne, hportOf⟩
    have hnot : (93 : UInt8) ∉ 91 :: host :=
      List.not_mem_cons_of_ne_of_not_mem (by decide) hbracket
    have hlen : ¬(91 :: host).length < 2 := by
      have := List.length_pos_iff.mpr hne
      simp
      omega
    have hhead : ¬(91 :: host ++ 93 :: 58 :: portStr).head? ≠ some 91 := by simp
    rw [if_neg hhead, find_split (58 :: portStr) hnot]
    simp only [hnext, hport]
    rw [if_neg hlen, if_neg (by simp), hportOf]
    exact congrArg (fun host => some (host, port)) (hparts host (58 :: portStr))

end Splitting

section Reading

variable {env : InetPton} {peer : Bytes} {out addr : IPAddr}

def Family.scheme : Family → Bytes
  | .inet => bytes "ipv4:"
  | .inet6 => bytes "ipv6:"

def Family.parse : Family → Bytes → Option (Bytes × ℕ)
  | .inet => parseHostPortTail
  | .inet6 => parseIpv6Bracketed

theorem Family.parse_eq_some {family : Family} {rest host : Bytes} {port : ℕ} :
    family.parse rest = some (host, port) ↔
      ∃ portStr, family.scheme ++ rest = family.uri host portStr ∧
        family.Splits host portStr ∧ host ≠ [] ∧ stoul portStr = some port ∧ port ≤ 65535 := by
  simp only [← portOf_eq_some]
  cases family with
  | inet =>
      change parseHostPortTail rest = _ ↔ ∃ portStr, bytes "ipv4:" ++ rest = bytes "ipv4:" ++ _ ∧ _
      simp only [List.append_cancel_left_eq]
      exact parseHostPortTail_eq_some
  | inet6 =>
      change parseIpv6Bracketed rest = _ ↔ ∃ portStr, bytes "ipv6:" ++ rest = bytes "ipv6:" ++ _ ∧ _
      simp only [List.append_cancel_left_eq]
      exact parseIpv6Bracketed_eq_some

theorem Family.exists_uri_eq (family : Family) (host portStr : Bytes) :
    ∃ rest, family.uri host portStr = family.scheme ++ rest := by
  cases family <;> exact ⟨_, rfl⟩

/-- The part of the function after a splitter. -/
def convert (env : InetPton) (family : Family) (out : IPAddr) :
    Option (Bytes × ℕ) → Bool × Option IPAddr
  | none => (false, some out)
  | some (host, port) =>
      match env.inetPton family (cStr host) with
      | none => (false, some out)
      | some bin => (true, some (family.ipAddr bin port))

theorem run_scheme (family : Family) (rest : Bytes) :
    grpcPeerUriToNetIpAddr env (family.scheme ++ rest) (some out) =
      convert env family out (family.parse rest) := by
  cases rest with
  | nil => cases family <;> rfl
  | cons b rest => cases family <;> rfl

theorem run_other (h : ∀ (family : Family) (rest : Bytes), peer ≠ family.scheme ++ rest) :
    grpcPeerUriToNetIpAddr env peer (some out) = (false, some out) := by
  have hne : ∀ family : Family, ¬(5 < peer.length ∧ peer.take 5 = family.scheme) := by
    rintro family ⟨-, htake⟩
    refine h family (peer.drop 5) ?_
    rw [← htake, List.take_append_drop]
  have hinet : ¬(5 < peer.length ∧ peer.take 5 = bytes "ipv4:") := hne .inet
  have hinet6 : ¬(5 < peer.length ∧ peer.take 5 = bytes "ipv6:") := hne .inet6
  rw [grpcPeerUriToNetIpAddr, if_neg hinet, if_neg hinet6]

/-- What the function reads from a URI. -/
def ReadsFrom (env : InetPton) (peer : Bytes) (family : Family) (host portStr : Bytes)
    (addr : IPAddr) : Prop :=
  peer = family.uri host portStr ∧ family.Splits host portStr ∧
    ∃ bin port, env.inetPton family (cStr host) = some bin ∧ stoul portStr = some port ∧
      port ≤ 65535 ∧ addr = family.ipAddr bin port

theorem run_of_readsFrom {family : Family} {host portStr : Bytes}
    (h : ReadsFrom env peer family host portStr addr) :
    grpcPeerUriToNetIpAddr env peer (some out) = (true, some addr) := by
  obtain ⟨rfl, hsplits, bin, port, hbin, hport, hle, rfl⟩ := h
  obtain ⟨rest, hrest⟩ := family.exists_uri_eq host portStr
  have hhost : host ≠ [] := by
    rintro rfl
    exact env.ne_nil family _ bin hbin rfl
  have hparse : family.parse rest = some (host, port) :=
    Family.parse_eq_some.mpr ⟨portStr, hrest.symm, hsplits, hhost, hport, hle⟩
  rw [hrest, run_scheme, hparse, convert, hbin]

/-- The function reads an address from the URI, or returns false and changes nothing. -/
theorem exists_readsFrom_or (env : InetPton) (peer : Bytes) (out : IPAddr) :
    (∃ family host portStr addr, ReadsFrom env peer family host portStr addr) ∨
      grpcPeerUriToNetIpAddr env peer (some out) = (false, some out) := by
  by_cases hscheme : ∃ (family : Family) (rest : Bytes), peer = family.scheme ++ rest
  · obtain ⟨family, rest, rfl⟩ := hscheme
    rw [run_scheme]
    cases hparse : family.parse rest with
    | none => exact .inr rfl
    | some parsed =>
        obtain ⟨host, port⟩ := parsed
        obtain ⟨portStr, huri, hsplits, -, hport, hle⟩ := Family.parse_eq_some.mp hparse
        cases hbin : env.inetPton family (cStr host) with
        | none =>
            refine .inr ?_
            rw [convert, hbin]
        | some bin =>
            exact .inl ⟨family, host, portStr, _, huri, hsplits, bin, port, hbin, hport, hle, rfl⟩
  · push Not at hscheme
    exact .inr (run_other hscheme)

theorem Family.uri_inj {family family' : Family} {host portStr host' portStr' : Bytes}
    (h : family.Splits host portStr) (h' : family'.Splits host' portStr')
    (heq : family.uri host portStr = family'.uri host' portStr') :
    host = host' ∧ portStr = portStr' := by
  cases family with
  | inet =>
      cases family' with
      | inet => exact rsplit_inj h h' (List.append_cancel_left heq)
      | inet6 => exact absurd (congrArg (·[3]?) heq) (by simp [uri, bytes])
  | inet6 =>
      cases family' with
      | inet => exact absurd (congrArg (·[3]?) heq) (by simp [uri, bytes])
      | inet6 =>
          have hrest := (List.cons.inj (List.append_cancel_left heq)).2
          obtain ⟨hhost, hport⟩ := split_inj h h' hrest
          exact ⟨hhost, (List.cons.inj hport).2⟩

theorem exists_readsFrom_of_denotes (h : Denotes env peer addr) :
    ∃ family host portStr, 0 ∉ host ∧ (∀ b ∈ portStr, isDecimal b = true) ∧
      ReadsFrom env peer family host portStr addr := by
  obtain ⟨family, host, portStr, bin, port, rfl, hnul, hbin, ⟨hne, hdigits, hvalue, hle⟩, rfl⟩ := h
  refine ⟨family, host, portStr, hnul, hdigits, rfl, ?_, bin, port, ?_, ?_, hle, rfl⟩
  · cases family with
    | inet =>
        intro hcolon
        exact absurd (hdigits 58 hcolon) (by decide)
    | inet6 => exact env.not_mem .inet6 host bin hbin
  · rw [cStr_of_not_mem hnul]
    exact hbin
  · rw [stoul_of_decimal hne hdigits, if_neg (by omega), hvalue]

theorem ReadsFrom.denotes {family : Family} {host portStr : Bytes}
    (h : ReadsFrom env peer family host portStr addr) (hnul : 0 ∉ host)
    (hdigits : ∀ b ∈ portStr, isDecimal b = true) : Denotes env peer addr := by
  obtain ⟨rfl, -, bin, port, hbin, hport, hle, rfl⟩ := h
  rw [cStr_of_not_mem hnul] at hbin
  have hne : portStr ≠ [] := by
    rintro rfl
    cases hport
  rw [stoul_of_decimal hne hdigits] at hport
  split_ifs at hport
  exact ⟨family, host, portStr, bin, port, rfl, hnul, hbin,
    ⟨hne, hdigits, Option.some.inj hport, hle⟩, rfl⟩

end Reading

/-- The function converts a URI rightly unless `inet_pton` and `stoul` accept a host with a
NUL or a port that is not just digits. -/
theorem convertsRightly_iff (env : InetPton) (peer : Bytes) :
    ConvertsRightly env peer ↔ ¬ReadLoosely env peer := by
  constructor
  · rintro h ⟨family, host, portStr, hpeer, hsplits, hbin, ⟨port, hle, hport⟩, hloose⟩
    obtain ⟨bin, hbin⟩ := Option.isSome_iff_exists.mp hbin
    have hreads : ReadsFrom env peer family host portStr (family.ipAddr bin port) :=
      ⟨hpeer, hsplits, bin, port, hbin, hport, hle, rfl⟩
    obtain ⟨-, hnone⟩ := h .notSet
    rw [run_of_readsFrom hreads] at hnone
    have hdenotes : ∃ addr, Denotes env peer addr := by
      by_contra hnot
      exact absurd (hnone hnot) (by simp)
    obtain ⟨addr, hdenotes⟩ := hdenotes
    obtain ⟨family', host', portStr', hnul, hdigits, hpeer', hsplits', -⟩ :=
      exists_readsFrom_of_denotes hdenotes
    obtain ⟨rfl, rfl⟩ := Family.uri_inj hsplits hsplits' (hpeer.symm.trans hpeer')
    rcases hloose with hmem | ⟨b, hb, hnot⟩
    · exact hnul hmem
    · rw [hdigits b hb] at hnot
      cases hnot
  · intro h out
    constructor
    · intro addr hdenotes
      obtain ⟨family, host, portStr, -, -, hreads⟩ := exists_readsFrom_of_denotes hdenotes
      exact run_of_readsFrom hreads
    · intro hnone
      refine (exists_readsFrom_or env peer out).resolve_left ?_
      rintro ⟨family, host, portStr, addr, hreads⟩
      refine hnone ⟨addr, hreads.denotes ?_ ?_⟩
      · intro hnul
        obtain ⟨hpeer, hsplits, bin, port, hbin, hport, hle, -⟩ := hreads
        exact h ⟨family, host, portStr, hpeer, hsplits, by rw [hbin]; rfl, ⟨port, hle, hport⟩,
          .inl hnul⟩
      · by_contra hdigits
        push Not at hdigits
        obtain ⟨b, hb, hnot⟩ := hdigits
        obtain ⟨hpeer, hsplits, bin, port, hbin, hport, hle, -⟩ := hreads
        exact h ⟨family, host, portStr, hpeer, hsplits, by rw [hbin]; rfl, ⟨port, hle, hport⟩,
          .inr ⟨b, hb, Bool.eq_false_iff.mpr hnot⟩⟩

def samplePton : InetPton where
  inetPton family text :=
    if family = .inet ∧ text = bytes "1.2.3.4" then some [1, 2, 3, 4] else none
  ne_nil := by
    rintro family text bin h rfl
    simp [bytes] at h
  not_mem := by
    intro family text bin h
    split_ifs at h with htext
    rw [htext.2]
    decide

/-- A negative number that wraps around to one is taken for a port, and so is a number
with text after it; a host is taken up to its NUL. -/
theorem uri_read_loosely :
    grpcPeerUriToNetIpAddr samplePton (bytes "ipv4:1.2.3.4:-18446744073709551615")
        (some .notSet) = (true, some (.ipv4 ⟨[1, 2, 3, 4], 1⟩)) ∧
      grpcPeerUriToNetIpAddr samplePton (bytes "ipv4:1.2.3.4:80abc") (some .notSet) =
        (true, some (.ipv4 ⟨[1, 2, 3, 4], 80⟩)) ∧
      grpcPeerUriToNetIpAddr samplePton (bytes "ipv4:1.2.3.4" ++ [0, 120] ++ bytes ":80")
        (some .notSet) = (true, some (.ipv4 ⟨[1, 2, 3, 4], 80⟩)) ∧
      ¬ConvertsRightly samplePton (bytes "ipv4:1.2.3.4:80abc") := by
  refine ⟨by decide, by decide, by decide, fun h => ?_⟩
  have hnone : ¬∃ addr, Denotes samplePton (bytes "ipv4:1.2.3.4:80abc") addr := by
    rintro ⟨addr, hdenotes⟩
    obtain ⟨family, host, portStr, -, hdigits, hpeer, hsplits, -⟩ :=
      exists_readsFrom_of_denotes hdenotes
    have hsplit : Family.inet.Splits (bytes "1.2.3.4") (bytes "80abc") := by
      change 58 ∉ bytes "80abc"
      decide
    obtain ⟨-, rfl⟩ := Family.uri_inj hsplit hsplits hpeer
    exact absurd (hdigits 97 (by decide)) (by decide)
  have hrun := (h .notSet).2 hnone
  exact absurd hrun (by decide)

end Grpc

end DistStorage
