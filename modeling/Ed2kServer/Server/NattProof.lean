import Ed2kServer.Lib.History
import Ed2kServer.Server.LugdunumNatt

namespace Ed2kServer.Server.NattProof

open Ed2kServer.Server.Login (Session canon)
open Ed2kServer.Server.LugdunumNatt (SocketAddr second)
open Ed2kServer.Slab.Record Ed2kServer.Sources.Address

def OBSERVED_UDP_FRESH : Nat := 600 * second

/-- The token that a login draws is named by it. -/
abbrev Token := Session

/-- A mac is known by what it was made of; only with the token can one be made. -/
inductive Mac
  | hmac (token : Token) (userHash : UserHash) (counter : UInt32)
  | other (n : Nat)
  deriving DecidableEq

structure Proof where
  counter : UInt32
  mac : Mac
  deriving DecidableEq

inductive Verdict
  | ok (counter : UInt32)
  | replay
  | bad
  deriving DecidableEq

def check (userHash : UserHash) (proof : Proof) (token : Option Token) (last : UInt32) : Verdict :=
  match token with
  | none => .bad
  | some token =>
    if Mac.hmac token userHash proof.counter ≠ proof.mac then .bad
    else if proof.counter ≤ last then .replay
    else .ok proof.counter

/-- A `0x9F`: only one of 36 bytes has a proof. -/
structure Keepalive where
  userHash : UserHash
  proof : Option Proof
  isObfuscated : Bool
  peer : SocketAddr

/-- What became of a `0x9F`: the session and the token of its hash when it came. -/
structure Record where
  datagram : Keepalive
  isExtensionEnabled : Bool
  session : Option Session
  token : Option Token
  verdict : Option Verdict
  isBelieved : Bool

structure ClientHandle where
  session : Session
  ip : IpAddr
  udpPort : UInt16
  deriving DecidableEq

/-- What a connection logs in with: the address of its socket and that of its handle, neither of
them an IPv4-mapped one. -/
structure LoginRequest where
  userHash : UserHash
  peer : IpAddr
  ip : IpAddr
  udpPort : UInt16
  wantsNattToken : Bool
  canon_ip : canon ip = ip

inductive Table
  | keepaliveSeen
  | udpIp
  | proofCounter
  | token
  | udpPorts
  deriving DecidableEq

/-- What a login resets, in this order, before it inserts its handle. -/
def loginResets : List Table := [.keepaliveSeen, .udpIp, .proofCounter, .token]

/-- What `end_session` removes behind the handle. -/
def endRemovals : List Table := [.udpPorts, .keepaliveSeen, .token, .proofCounter, .udpIp]

/-- How far a connection is, with the tables that it has still to write. -/
inductive Phase
  | away
  | connected
  | resetting (todo : List Table)
  | loggedIn
  | removing (todo : List Table)
  | ended
  | closed
  deriving DecidableEq

/-- How far the handing out of an endpoint is. -/
inductive Handing
  | idle
  | looked (userHash : UserHash) (client : ClientHandle)
  | gotIp (userHash : UserHash) (client : ClientHandle) (ip : IpAddr)
  | handed (userHash : UserHash) (endpoint : SocketAddr)
  deriving DecidableEq

structure State where
  now : Nat
  clients : UserHash → Option ClientHandle
  nattKeepaliveSeen : UserHash → Option Bool
  nattUdpIp : UserHash → Option IpAddr
  nattProofCounter : UserHash → Option UInt32
  nattToken : UserHash → Option Token
  nattUdpPorts : UserHash → Option (UInt16 × Nat)
  observedUdpPorts : Ipv4 → Option (UInt16 × Nat)
  connPerIp : Ipv4 → Nat
  phase : Session → Phase
  handing : Nat → Handing
  /-- The open connections. -/
  connected : List Session
  /-- The hand-outs that have begun. -/
  reading : List Nat
  /-- The tokens that some session was told. -/
  told : List Token
  /-- The UDP port that each session announced last. -/
  announced : Session → UInt16
  log : List Record

namespace State

def goTo (s : State) (p : Session) (ph : Phase) : State :=
  { s with phase := Function.update s.phase p ph }

/-- Remove the entry of a table; that of the token is set. -/
def write (s : State) (u : UserHash) (token : Option Token) : Table → State
  | .keepaliveSeen => { s with nattKeepaliveSeen := Function.update s.nattKeepaliveSeen u none }
  | .udpIp => { s with nattUdpIp := Function.update s.nattUdpIp u none }
  | .proofCounter => { s with nattProofCounter := Function.update s.nattProofCounter u none }
  | .token => { s with nattToken := Function.update s.nattToken u token }
  | .udpPorts => { s with nattUdpPorts := Function.update s.nattUdpPorts u none }

/-- A datagram from an IPv4 address shows the port that it uses. -/
def observe (s : State) (peer : SocketAddr) : State :=
  match peer.1 with
  | .v4 v => { s with
    observedUdpPorts := Function.update s.observedUdpPorts v (some (peer.2, s.now)) }
  | .v6 _ => s

def isFresh (s : State) (e : UInt16 × Nat) : Bool :=
  e.1 != 0 && decide (s.now < e.2 + OBSERVED_UDP_FRESH)

end State

def nattIp (s : State) (u : UserHash) (sessionIp : IpAddr) : IpAddr :=
  (s.nattUdpIp u).getD sessionIp

/-- The port of the client's own last keepalive, else the last one seen from the address if only
one connection comes from there, else the announced one. -/
def observedUdpPort (s : State) (u : UserHash) (ip : IpAddr) (announced : UInt16) : UInt16 :=
  match (s.nattUdpPorts u).filter s.isFresh with
  | some e => e.1
  | none =>
    match ip with
    | .v4 v =>
      if s.connPerIp v ≤ 1 then ((s.observedUdpPorts v).filter s.isFresh).elim announced Prod.fst
      else announced
    | .v6 _ => announced

def isOk : Option Verdict → Bool
  | some (.ok _) => true
  | _ => false

/-- What a keepalive for a connected client does to its handle and its tables. -/
def believe (s : State) (d : Keepalive) (h : ClientHandle) (verdict : Option Verdict) : State :=
  { s with
    nattProofCounter :=
      match verdict with
      | some (.ok n) => Function.update s.nattProofCounter d.userHash (some n)
      | _ => s.nattProofCounter
    nattUdpIp := Function.update s.nattUdpIp d.userHash
      (if canon h.ip = canon d.peer.1 then none else some (canon d.peer.1))
    clients := Function.update s.clients d.userHash
      (some { h with udpPort := if h.udpPort = 0 then d.peer.2 else h.udpPort })
    nattUdpPorts := Function.update s.nattUdpPorts d.userHash (some (d.peer.2, s.now))
    nattKeepaliveSeen := Function.update s.nattKeepaliveSeen d.userHash
      (some ((s.nattKeepaliveSeen d.userHash).getD false || d.isObfuscated)) }

/-- The verdict on a keepalive, and whether it is believed. -/
def judge (s : State) (d : Keepalive) (ext : Bool) (h : ClientHandle) : Option Verdict × Bool :=
  let sameIp := decide (canon h.ip = canon d.peer.1)
  let last := (s.nattProofCounter d.userHash).getD 0
  let verdict := d.proof.map fun proof => check d.userHash proof (s.nattToken d.userHash) last
  let tokenOk := isOk verdict
  let tokenBad := verdict.isSome && !tokenOk
  let sentObfuscated := (s.nattKeepaliveSeen d.userHash).getD false
  let plainRefused := !d.isObfuscated && sentObfuscated && !tokenOk && ext
  let accepted := !tokenBad && (sameIp || tokenOk)
  (verdict, accepted && !plainRefused)

def handleKeepalive (s : State) (d : Keepalive) (ext : Bool) : State :=
  let t : State :=
    match s.clients d.userHash with
    | none => { s with log := s.log ++ [⟨d, ext, none, s.nattToken d.userHash, none, false⟩] }
    | some h =>
      let (verdict, isBelieved) := judge s d ext h
      let t : State := if isBelieved then believe s d h verdict else s
      { t with log := s.log ++
        [⟨d, ext, some h.session, s.nattToken d.userHash, verdict, isBelieved⟩] }
  t.observe d.peer

/-- A mac under a token that no session was told cannot be made. -/
def canSend (s : State) (d : Keepalive) : Bool :=
  match d.proof with
  | some ⟨_, .hmac token _ _⟩ => decide (token ∈ s.told)
  | _ => true

inductive Event
  | tick (d : Nat)
  | connect (p : Session)
  | login (p : Session)
  | reset (p : Session)
  | insert (p : Session)
  | tell (p : Session)
  | announce (p : Session) (port : UInt16)
  | finish (p : Session)
  | remove (p : Session)
  | close (p : Session)
  | keepalive (d : Keepalive) (isExtensionEnabled : Bool)
  | query (peer : SocketAddr)
  | lookUp (k : Nat) (u : UserHash)
  | readIp (k : Nat)
  | readPort (k : Nat)

/-- A connection counts for the IPv4 address of its socket. -/
def countConnection (s : State) (ip : IpAddr) (f : Nat → Nat) : State :=
  match ip with
  | .v4 v => { s with connPerIp := Function.update s.connPerIp v (f (s.connPerIp v)) }
  | .v6 _ => s

def step (request : Session → LoginRequest) (s : State) : Event → Option State
  | .tick d => some { s with now := s.now + d }
  | .connect p =>
    match s.phase p with
    | .away =>
      some ((countConnection { s with connected := p :: s.connected } (request p).peer
        (· + 1)).goTo p .connected)
    | _ => none
  | .login p =>
    match s.phase p with
    | .connected => some (s.goTo p (.resetting loginResets))
    | _ => none
  | .reset p =>
    match s.phase p with
    | .resetting (x :: xs) =>
      some ((s.write (request p).userHash
        (if (request p).wantsNattToken then some p else none) x).goTo p (.resetting xs))
    | _ => none
  | .insert p =>
    match s.phase p with
    | .resetting [] =>
      let r := request p
      some ({ s with
        clients := Function.update s.clients r.userHash (some ⟨p, r.ip, r.udpPort⟩)
        announced := Function.update s.announced p r.udpPort }.goTo p .loggedIn)
    | _ => none
  | .tell p =>
    match s.phase p with
    | .loggedIn => some { s with told := (s.nattToken (request p).userHash).toList ++ s.told }
    | _ => none
  | .announce p port =>
    match s.phase p with
    | .loggedIn =>
      let u := (request p).userHash
      if port = 0 then some s
      else some { s with
        clients := Function.update s.clients u
          ((s.clients u).map fun h => { h with udpPort := port })
        announced := Function.update s.announced p port }
    | _ => none
  | .finish p =>
    match s.phase p with
    | .loggedIn =>
      let u := (request p).userHash
      if (s.clients u).map ClientHandle.session = some p then
        some ({ s with clients := Function.update s.clients u none }.goTo p (.removing endRemovals))
      else some (s.goTo p .ended)
    | _ => none
  | .remove p =>
    match s.phase p with
    | .removing (x :: xs) =>
      some ((s.write (request p).userHash none x).goTo p (.removing xs))
    | .removing [] => some (s.goTo p .ended)
    | _ => none
  | .close p =>
    if s.phase p = .connected ∨ s.phase p = .ended then
      some ((countConnection { s with connected := s.connected.erase p } (request p).peer
        (· - 1)).goTo p .closed)
    else none
  | .keepalive d ext => if canSend s d then some (handleKeepalive s d ext) else none
  | .query peer => some (s.observe peer)
  | .lookUp k u =>
    match s.clients u with
    | some h => some { s with
      handing := Function.update s.handing k (.looked u h)
      reading := k :: s.reading }
    | none => none
  | .readIp k =>
    match s.handing k with
    | .looked u h =>
      some { s with handing := Function.update s.handing k (.gotIp u h (nattIp s u h.ip)) }
    | _ => none
  | .readPort k =>
    match s.handing k with
    | .gotIp u h ip =>
      some { s with
        handing := Function.update s.handing k
          (.handed u (ip, observedUdpPort s u ip h.udpPort)) }
    | _ => none

def init (now : Nat) : State where
  now := now
  clients _ := none
  nattKeepaliveSeen _ := none
  nattUdpIp _ := none
  nattProofCounter _ := none
  nattToken _ := none
  nattUdpPorts _ := none
  observedUdpPorts _ := none
  connPerIp _ := 0
  phase _ := .away
  handing _ := .idle
  connected := []
  reading := []
  told := []
  announced _ := 0
  log := []

end Ed2kServer.Server.NattProof
