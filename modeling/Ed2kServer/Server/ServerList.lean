import Ed2kServer.Lib.Assoc
import Ed2kServer.Lib.LittleEndian
import Ed2kServer.Lib.Transition
import Ed2kServer.Server.Login

namespace Ed2kServer.Server.ServerList

open Ed2kServer.Lib.LittleEndian Ed2kServer.Server.Login Ed2kServer.Sources.Address

abbrev SocketAddrV4 := Ipv4 × UInt16

def PROTO_EDONKEY : UInt8 := 0xE3

def OP_SERVER_LIST_RES : UInt8 := 0xA1

def SERVER_LIST_CAP : Nat := 2048

def PENDING_CAP : Nat := 4096

/-- Times are in nanoseconds. -/
def PENDING_TTL : Nat := 600 * 1000000000

structure Config where
  thisIp : Option Ipv4
  tcpPort : UInt16
  seeds : List SocketAddrV4

def isPrivate (a : Ipv4) : Bool :=
  octet a 0 == 10 || (octet a 0 == 172 && 16 ≤ octet a 1 && octet a 1 ≤ 31) ||
    (octet a 0 == 192 && octet a 1 == 168)

def isLoopback (a : Ipv4) : Bool := octet a 0 == 127

def isUnspecified (a : Ipv4) : Bool := a == 0

def isMulticast (a : Ipv4) : Bool := 224 ≤ octet a 0 && octet a 0 ≤ 239

def isBroadcast (a : Ipv4) : Bool := a == 0xFFFFFFFF

/-- An address that no public server can have. -/
def isForbidden (a : Ipv4) : Bool :=
  isPrivate a || isLoopback a || isUnspecified a || isMulticast a || isBroadcast a

/-- The record of a server at the start of the bytes. -/
def readEntry (bytes : List UInt8) : SocketAddrV4 :=
  (UInt32.ofNat (ofLeBytes (bytes.take 4)), UInt16.ofNat (ofLeBytes ((bytes.drop 4).take 2)))

def readEntries (count : Nat) (bytes : List UInt8) : List SocketAddrV4 :=
  (List.range count).map fun i => readEntry (bytes.drop (6 * i))

def writeEntry (a : SocketAddrV4) : List UInt8 := leBytes 4 a.1.toNat ++ leBytes 2 a.2.toNat

/-- A datagram with a list of servers, of the seed path. -/
def parseServerListRes (data : List UInt8) : Option (List SocketAddrV4) :=
  if data.length < 3 then none
  else if data.getD 0 0 ≠ PROTO_EDONKEY ∨ data.getD 1 0 ≠ OP_SERVER_LIST_RES then none
  else
    let count := (data.getD 2 0).toNat
    if data.length < 3 + count * 6 then none
    else
      some ((readEntries count (data.drop 3)).filter fun a =>
        decide (0 < a.2) && !isUnspecified a.1 && !isLoopback a.1)

/-- What the seed path takes of a list: a repeat is looked for among the entries of before. -/
def mergeServerList (cfg : Config) (blocked : Ipv4 → Bool) (list : List SocketAddrV4)
    (newList : List SocketAddrV4) : List SocketAddrV4 :=
  let list := list.filter fun a => !blocked a.1
  list ++ newList.filter fun a =>
    !isForbidden a.1 && !blocked a.1 && cfg.thisIp != some a.1 && !list.contains a

/-- What the UDP socket takes of a list, until there is no more room. -/
def addUntilFull (list : List SocketAddrV4) : List SocketAddrV4 → List SocketAddrV4
  | [] => list
  | a :: newServers =>
    if SERVER_LIST_CAP ≤ list.length then list
    else addUntilFull (if list.contains a then list else list ++ [a]) newServers

/-- A list of servers at the UDP socket, with whether the sender is known as a peer or as a
client. -/
def handleServerListRes (isKnownPeer senderIsClient : Bool) (clientIps : Ipv4 → Bool)
    (payload : List UInt8) (list : List SocketAddrV4) : List SocketAddrV4 :=
  if !isKnownPeer then list
  else if senderIsClient then list
  else
    match payload with
    | [] => list
    | count :: records =>
      if records.length < count.toNat * 6 then list
      else
        let newServers := (readEntries count.toNat records).filter fun a =>
          a.2 != 0 && !isForbidden a.1 && !clientIps a.1
        addUntilFull (list.filter fun a => !clientIps a.1) newServers

/-- A seed that has proved to be a server. -/
def addSeed (isClient : Bool) (seed : SocketAddrV4) (list : List SocketAddrV4) :
    List SocketAddrV4 :=
  if isClient then list
  else if list.contains seed then list
  else list ++ [seed]

def payloadOf (servers : List SocketAddrV4) : List UInt8 :=
  UInt8.ofNat (min servers.length 255) :: servers.flatMap writeEntry

/-- The list for a client. -/
def buildTcpServerList (cfg : Config) (isVerified : SocketAddrV4 → Bool)
    (list : List SocketAddrV4) : List UInt8 :=
  payloadOf ((list.filter fun a => cfg.thisIp != some a.1 && isVerified a).take 255)

/-- The list for another server. -/
def buildServerListRes (cfg : Config) (isVerified : SocketAddrV4 → Bool)
    (list : List SocketAddrV4) : List UInt8 :=
  PROTO_EDONKEY :: OP_SERVER_LIST_RES ::
    payloadOf ((list.filter fun a =>
      !(cfg.thisIp == some a.1 && a.2 != cfg.tcpPort) && isVerified a).take 255)

/-- A registration that was probed and not yet answered. -/
structure Pending where
  port : UInt16
  challenge : UInt32
  since : Nat
  /-- Which of all the probes it is. -/
  number : Nat
  deriving DecidableEq

/-- How far the datagram is that is being handled: a registration that was checked, one of a
server that is not in the list, an answer that echoes the challenge, one that was taken. -/
inductive Phase
  | idle
  | checked (server : SocketAddrV4)
  | unlisted (server : SocketAddrV4)
  | echoed (ip : Ipv4) (p : Pending) (payload : List UInt8)
  | answered (ip : Ipv4) (p : Pending)
  deriving DecidableEq

/-- What came in and what was done, with whether the sender counted as a client. -/
inductive Happening
  | registration (ip : Ipv4) (payload : List UInt8) (isClient : Bool)
  | probe (number : Nat) (dst : SocketAddrV4) (challenge : UInt32) (time : Nat)
  | answer (number : Nat) (src : SocketAddrV4) (payload : List UInt8) (isClient : Bool)
  | listed (number : Nat) (server : SocketAddrV4)
  deriving DecidableEq

structure State where
  now : Nat
  serverList : List SocketAddrV4
  connPerIp : Ipv4 → Bool
  recentClientIps : Ipv4 → Bool
  pending : List (Ipv4 × Pending)
  phase : Phase
  probes : Nat
  log : List Happening

inductive Event
  | tick (d : Nat)
  | connect (ip : Ipv4)
  | disconnect (ip : Ipv4)
  | see (ip : Ipv4)
  | forget (ip : Ipv4)
  | login (ip : IpAddr)
  | sweepPending (ip : Ipv4)
  | clean (keep : SocketAddrV4 → Bool)
  | seedVerified (isClient : Bool) (seed : SocketAddrV4)
  | seedList (blocked : Ipv4 → Bool) (data : List UInt8)
  | udpList (isKnownPeer senderIsClient : Bool) (clientIps : Ipv4 → Bool) (payload : List UInt8)
  | register (peer : IpAddr) (payload : List UInt8)
  | lookUp
  | probe (random : UInt16)
  | confirm (peer : IpAddr) (port : UInt16) (payload : List UInt8)
  | remove
  | list

/-- Connected, or seen as a client not long ago. -/
def State.isClient (s : State) (ip : Ipv4) : Bool := s.recentClientIps ip || s.connPerIp ip

/-- The server that a registration names, when it can be one. -/
def namedServer (cfg : Config) (src : Ipv4) (payload : List UInt8) : Option SocketAddrV4 :=
  if payload.length < 6 then none
  else
    let server := readEntry payload
    if server.1 ≠ src ∨ server.2 = 0 ∨ 65531 < server.2 ∨
      !isPublishableSourceIp (.v4 server.1) ∨ cfg.thisIp = some server.1 then none
    else some server

/-- Does the payload begin with the challenge? -/
def echoes (payload : List UInt8) (challenge : UInt32) : Bool :=
  decide (4 ≤ payload.length) && UInt32.ofNat (ofLeBytes (payload.take 4)) == challenge

def challengeOf (random : UInt16) : UInt32 := 0x55AA0000 ||| random.toUInt32

namespace State

def note (cfg : Config) (s : State) (src : Ipv4) (payload : List UInt8) : State :=
  let log := s.log ++ [.registration src payload (s.isClient src)]
  match namedServer cfg src payload with
  | some server =>
    if s.isClient src then { s with log := log }
    else { s with log := log, phase := .checked server }
  | none => { s with log := log }

/-- The probe of a server that is not in the list, if none was sent to its address not long
ago. -/
def sendProbe (s : State) (server : SocketAddrV4) (random : UInt16) : State :=
  let old := s.pending.lookup server.1
  if old.any fun p => decide (s.now - p.since < PENDING_TTL) then { s with phase := .idle }
  else if PENDING_CAP ≤ s.pending.length then { s with phase := .idle }
  else
    let p := ⟨server.2, challengeOf random, s.now, s.probes⟩
    { s with
      phase := .idle
      pending := (server.1, p) :: s.pending.filter fun e => e.1 != server.1
      probes := s.probes + 1
      log := s.log ++ [.probe s.probes (server.1, server.2 + 4) p.challenge s.now] }

def readAnswer (s : State) (ip : Ipv4) (port : UInt16) (payload : List UInt8) : State :=
  match s.pending.lookup ip with
  | none => s
  | some p =>
    if echoes payload p.challenge ∧ port = p.port + 4 then
      { s with phase := .echoed ip p payload }
    else s

def takeAnswer (s : State) (ip : Ipv4) (p : Pending) (payload : List UInt8) : State :=
  { s with
    pending := s.pending.filter fun e => e.1 != ip
    log := s.log ++ [.answer p.number (ip, p.port + 4) payload (s.isClient ip)]
    phase := if s.isClient ip then .idle else .answered ip p }

def addRegistered (s : State) (ip : Ipv4) (p : Pending) : State :=
  let server := (ip, p.port)
  if s.serverList.contains server ∨ SERVER_LIST_CAP ≤ s.serverList.length then
    { s with phase := .idle }
  else
    { s with
      phase := .idle
      serverList := s.serverList ++ [server]
      log := s.log ++ [.listed p.number server] }

end State

/-- Registrations and answers are handled one after another; all else goes on meanwhile. -/
def step (cfg : Config) (s : State) : Event → Option State
  | .tick d => some { s with now := s.now + d }
  | .connect ip => some { s with connPerIp := Function.update s.connPerIp ip true }
  | .disconnect ip => some { s with connPerIp := Function.update s.connPerIp ip false }
  | .see ip => some { s with recentClientIps := Function.update s.recentClientIps ip true }
  | .forget ip => some { s with recentClientIps := Function.update s.recentClientIps ip false }
  | .login (.v4 ip) =>
    some { s with
      recentClientIps := Function.update s.recentClientIps ip true
      serverList := s.serverList.filter fun a => a.1 != ip }
  | .login (.v6 _) => some s
  | .sweepPending ip =>
    some { s with
      pending := s.pending.filter fun e => e.1 != ip || decide (s.now - e.2.since < PENDING_TTL) }
  | .clean keep => some { s with serverList := s.serverList.filter keep }
  | .seedVerified isClient seed =>
    if seed ∈ cfg.seeds then some { s with serverList := addSeed isClient seed s.serverList }
    else none
  | .seedList blocked data =>
    match parseServerListRes data with
    | some newList =>
      some { s with serverList := mergeServerList cfg blocked s.serverList newList }
    | none => some s
  | .udpList isKnownPeer senderIsClient clientIps payload =>
    some { s with
      serverList :=
        handleServerListRes isKnownPeer senderIsClient clientIps payload s.serverList }
  | .register peer payload =>
    match s.phase, canon peer with
    | .idle, .v4 src => some (s.note cfg src payload)
    | .idle, .v6 _ => some s
    | _, _ => none
  | .lookUp =>
    match s.phase with
    | .checked server =>
      some { s with
        phase := if s.serverList.contains server then .idle else .unlisted server }
    | _ => none
  | .probe random =>
    match s.phase with
    | .unlisted server => some (s.sendProbe server random)
    | _ => none
  | .confirm peer port payload =>
    match s.phase, canon peer with
    | .idle, .v4 ip => some (s.readAnswer ip port payload)
    | .idle, .v6 _ => some s
    | _, _ => none
  | .remove =>
    match s.phase with
    | .echoed ip p payload => some (s.takeAnswer ip p payload)
    | _ => none
  | .list =>
    match s.phase with
    | .answered ip p => some (s.addRegistered ip p)
    | _ => none

/-- Nothing is known yet. -/
def init (now : Nat) : State := ⟨now, [], fun _ => false, fun _ => false, [], .idle, 0, []⟩

variable {cfg : Config} {s t : State} {peer : IpAddr} {port : UInt16} {payload : List UInt8}

theorem step_register (ht : step cfg s (.register peer payload) = some t) :
    t = s ∨ ∃ src, s.phase = .idle ∧ t = s.note cfg src payload := by
  delta step at ht
  dsimp only at ht
  split at ht
  · exact .inr ⟨_, by assumption, (Option.some.inj ht).symm⟩
  · exact .inl (Option.some.inj ht).symm
  · cases ht

theorem step_confirm (ht : step cfg s (.confirm peer port payload) = some t) :
    t = s ∨ ∃ ip, s.phase = .idle ∧ t = s.readAnswer ip port payload := by
  delta step at ht
  dsimp only at ht
  split at ht
  · exact .inr ⟨_, by assumption, (Option.some.inj ht).symm⟩
  · exact .inl (Option.some.inj ht).symm
  · cases ht

theorem step_lookUp (ht : step cfg s .lookUp = some t) :
    ∃ server phase, s.phase = .checked server ∧ t = { s with phase := phase } ∧
      (phase = .idle ∨ server ∉ s.serverList ∧ phase = .unlisted server) := by
  delta step at ht
  dsimp only at ht
  split at ht
  · refine ⟨_, _, by assumption, (Option.some.inj ht).symm, ?_⟩
    split_ifs with hold
    · exact .inl rfl
    · exact .inr ⟨by simpa using hold, rfl⟩
  · cases ht

theorem step_probe {random : UInt16} (ht : step cfg s (.probe random) = some t) :
    ∃ server, s.phase = .unlisted server ∧ t = s.sendProbe server random := by
  delta step at ht
  dsimp only at ht
  split at ht
  · exact ⟨_, by assumption, (Option.some.inj ht).symm⟩
  · cases ht

theorem step_remove (ht : step cfg s .remove = some t) :
    ∃ ip p payload, s.phase = .echoed ip p payload ∧ t = s.takeAnswer ip p payload := by
  delta step at ht
  dsimp only at ht
  split at ht
  · exact ⟨_, _, _, by assumption, (Option.some.inj ht).symm⟩
  · cases ht

theorem step_list (ht : step cfg s .list = some t) :
    ∃ ip p, s.phase = .answered ip p ∧ t = s.addRegistered ip p := by
  delta step at ht
  dsimp only at ht
  split at ht
  · exact ⟨_, _, by assumption, (Option.some.inj ht).symm⟩
  · cases ht

/-- A registration only gets as far as to be checked. -/
theorem note_eq (cfg : Config) (s : State) (src : Ipv4) (payload : List UInt8) :
    ∃ phase, s.note cfg src payload = { s with
        log := s.log ++ [.registration src payload (s.isClient src)], phase := phase } ∧
      (phase = s.phase ∨ ∃ server, namedServer cfg src payload = some server ∧
        s.isClient src = false ∧ phase = .checked server) := by
  rw [State.note]
  cases hnamed : namedServer cfg src payload with
  | none => exact ⟨s.phase, rfl, .inl rfl⟩
  | some server =>
    dsimp only
    split_ifs with hclient
    · exact ⟨s.phase, rfl, .inl rfl⟩
    · exact ⟨_, rfl, .inr ⟨server, rfl, by simpa using hclient, rfl⟩⟩

theorem namedServer_eq_some {src : Ipv4} {server : SocketAddrV4}
    (hs : namedServer cfg src payload = some server) :
    readEntry payload = server ∧ 6 ≤ payload.length ∧ server.1 = src ∧ server.2 ≠ 0 ∧
      server.2 ≤ 65531 ∧ isPublishableSourceIp (.v4 server.1) ∧ cfg.thisIp ≠ some server.1 := by
  rw [namedServer] at hs
  split_ifs at hs with hlen
  dsimp only at hs
  split_ifs at hs with hbad
  obtain rfl := Option.some.inj hs
  push Not at hbad
  obtain ⟨hip, hport, hmax, hpub, hours⟩ := hbad
  exact ⟨rfl, Nat.le_of_not_lt hlen, hip, hport, UInt16.not_lt.mp hmax, by simpa using hpub, hours⟩

theorem readAnswer_eq (s : State) (ip : Ipv4) (port : UInt16) (payload : List UInt8) :
    s.readAnswer ip port payload = s ∨ ∃ p, s.pending.lookup ip = some p ∧
      echoes payload p.challenge = true ∧ port = p.port + 4 ∧
      s.readAnswer ip port payload = { s with phase := .echoed ip p payload } := by
  rw [State.readAnswer]
  cases hp : s.pending.lookup ip with
  | none => exact .inl rfl
  | some p =>
    dsimp only
    split_ifs with hecho
    · exact .inr ⟨p, rfl, hecho.1, hecho.2, rfl⟩
    · exact .inl rfl

/-- A probe is sent where none to the address is younger than its time. -/
theorem sendProbe_eq (s : State) (server : SocketAddrV4) (random : UInt16) :
    s.sendProbe server random = { s with phase := .idle } ∨
      (∀ p, s.pending.lookup server.1 = some p → PENDING_TTL ≤ s.now - p.since) ∧
      s.sendProbe server random = { s with
        phase := .idle
        pending := (server.1, ⟨server.2, challengeOf random, s.now, s.probes⟩) ::
          s.pending.filter fun e => e.1 != server.1
        probes := s.probes + 1
        log := s.log ++
          [.probe s.probes (server.1, server.2 + 4) (challengeOf random) s.now] } := by
  rw [State.sendProbe]
  dsimp only
  split_ifs with hold hmany
  · exact .inl rfl
  · exact .inl rfl
  · refine .inr ⟨fun p hp => ?_, rfl⟩
    simpa [hp] using hold

theorem addRegistered_eq (s : State) (ip : Ipv4) (p : Pending) :
    s.addRegistered ip p = { s with phase := .idle } ∨
      (ip, p.port) ∉ s.serverList ∧ s.serverList.length < SERVER_LIST_CAP ∧
      s.addRegistered ip p = { s with
        phase := .idle
        serverList := s.serverList ++ [(ip, p.port)]
        log := s.log ++ [.listed p.number (ip, p.port)] } := by
  rw [State.addRegistered]
  split_ifs with hskip
  · exact .inl rfl
  · push Not at hskip
    exact .inr ⟨by simpa using hskip.1, hskip.2, rfl⟩

end Ed2kServer.Server.ServerList
