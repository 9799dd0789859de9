import Ed2kServer.Server.KeepaliveFrame

namespace Ed2kServer.Server.Holepunch

open Ed2kServer.Server.LugdunumNatt (SocketAddr OP_NAT_CALLBACK_TCP SRVCAP_NATTRAVERSAL
  SRVFLG_HOLEPUNCH_EXT v4 body cryptSetting)
open Ed2kServer.Server.NattProof (nattIp observedUdpPort)
open Ed2kServer.Lib.LittleEndian Ed2kServer.Proto.FrameCodec Ed2kServer.Server.KeepaliveFrame
open Ed2kServer.Slab.Record Ed2kServer.Sources.Address

def OP_LOWID_HOLEPUNCH_INFO : UInt8 := 0x61

def OP_LOWID_HOLEPUNCH_FAIL : UInt8 := 0x62

def FAIL_TARGET_NOT_CONNECTED : UInt8 := 1

def FAIL_TARGET_IS_HIGHID : UInt8 := 2

def FAIL_BAD_REQUEST : UInt8 := 3

def FAIL_TARGET_NO_UDP : UInt8 := 4

def FAIL_NO_IPV4 : UInt8 := 5

structure ClientHandle where
  userHash : UserHash
  assignedId : UInt32
  ip : IpAddr
  port : UInt16
  udpPort : UInt16
  serverFlags : UInt32
  isHighId : Bool
  isAlive : Bool

inductive RetrySkip
  | coalesced
  | busy

/-- What a request reads: the tables of the proofs, of which only addresses and ports, the clients
and the settings. -/
structure State where
  natt : NattProof.State
  clients : UserHash → Option ClientHandle
  clientIdIndex : UInt32 → Option UserHash
  lugdunumNatt : Bool
  holepunchExtension : Bool
  /-- Why the pool refuses a pair, if it does. -/
  tryRetry : UserHash → UInt32 → Option RetrySkip

/-- A `0x60`, with the handle of the connection that it came from. -/
structure Request where
  userHash : UserHash
  id : UInt32
  ip : IpAddr
  port : UInt16
  udpPort : UInt16
  targetId : UInt32

abbrev Sent := UserHash × Frame

namespace State

def clientByAssignedId (s : State) (id : UInt32) : Option ClientHandle :=
  (s.clientIdIndex id).bind s.clients

def flagsOf (s : State) (u : UserHash) : UInt32 := (s.clients u).elim 0 ClientHandle.serverFlags

def extensionEnabled (s : State) : Bool := s.holepunchExtension && s.lugdunumNatt

def hasExtension (s : State) (serverFlags : UInt32) : Bool :=
  let both := SRVFLG_HOLEPUNCH_EXT ||| SRVCAP_NATTRAVERSAL
  s.extensionEnabled && serverFlags &&& both == both

def requesterAlive (s : State) (u : UserHash) : Bool := (s.clients u).any ClientHandle.isAlive

/-- The port of a `0x60` is the announced one from then on. -/
def announce (s : State) (r : Request) : State :=
  if r.udpPort = 0 then s
  else
    { s with
      clients := Function.update s.clients r.userHash
        ((s.clients r.userHash).map fun h => { h with udpPort := r.udpPort }) }

def sendFrame (s : State) (u : UserHash) (frame : Frame) : List Sent :=
  if (s.clients u).isSome then [(u, frame)] else []

def sendFail (s : State) (r : Request) (reason : UInt8) : List Sent :=
  s.sendFrame r.userHash ⟨OP_LOWID_HOLEPUNCH_FAIL, leBytes 4 r.targetId.toNat ++ [reason]⟩

/-- The same tables some time later. -/
def later (s : State) (d : Nat) : State := { s with natt := { s.natt with now := s.natt.now + d } }

end State

def sessionV4 : IpAddr → Option Ipv4
  | .v4 a => some a
  | .v6 a => Login.toIpv4Mapped a

def ownUdpEndpoint (s : State) (u : UserHash) (ip : IpAddr) : Option (Ipv4 × UInt16) :=
  ((s.natt.nattUdpPorts u).filter s.natt.isFresh).bind fun e =>
    (sessionV4 ip).map fun a => (a, e.1)

def buildInfo (ip : IpAddr) (tcpPort udpPort : UInt16) (userHash : UserHash) (role : UInt8)
    (peerId : UInt32) (peerCrypt : Option UInt8) (own : Option (Ipv4 × UInt16)) : Frame :=
  ⟨OP_LOWID_HOLEPUNCH_INFO,
    leBytes 4 ((sessionV4 ip).elim 0 UInt32.toNat) ++ leBytes 2 tcpPort.toNat ++
      leBytes 2 udpPort.toNat ++ userHash.toList ++ [role] ++ leBytes 4 peerId.toNat ++
      peerCrypt.elim [] fun c =>
        c :: own.elim [] fun e => leBytes 4 e.1.toNat ++ leBytes 2 e.2.toNat⟩

/-- A `0x61` to both sides; the lower id begins. -/
def coordinate (s : State) (r : Request) (ip : IpAddr) (t : ClientHandle) (tIp : IpAddr) :
    List Sent :=
  let tUdp := observedUdpPort s.natt t.userHash tIp t.udpPort
  let rUdp := observedUdpPort s.natt r.userHash ip r.udpPort
  let toRequester := buildInfo tIp t.port tUdp t.userHash (if r.id < r.targetId then 0 else 1)
    r.targetId (some (cryptSetting t.serverFlags)) (ownUdpEndpoint s r.userHash ip)
  let toTarget := buildInfo ip r.port rUdp r.userHash (if r.id < r.targetId then 1 else 0)
    r.id (some (cryptSetting (s.flagsOf r.userHash))) (ownUdpEndpoint s t.userHash tIp)
  s.sendFrame t.userHash toTarget ++ s.sendFrame r.userHash toRequester

/-- The frames that a request sends, and the reason of a failure. -/
def handleHolepunchRequest (s : State) (r : Request) : State × List Sent × Option UInt8 :=
  let ip := nattIp s.natt r.userHash r.ip
  let s := s.announce r
  let fail (reason : UInt8) : State × List Sent × Option UInt8 :=
    (s, s.sendFail r reason, some reason)
  if r.targetId = r.id then fail FAIL_BAD_REQUEST
  else
    match s.clientByAssignedId r.targetId with
    | none => fail FAIL_TARGET_NOT_CONNECTED
    | some t =>
      let tIp := nattIp s.natt t.userHash t.ip
      if !t.isAlive then fail FAIL_TARGET_NOT_CONNECTED
      else if t.isHighId then fail FAIL_TARGET_IS_HIGHID
      else if (sessionV4 ip).isNone || (sessionV4 tIp).isNone then fail FAIL_NO_IPV4
      else if t.udpPort = 0 then fail FAIL_TARGET_NO_UDP
      else (s, coordinate s r ip t tIp, none)

def forwardBody (req : ClientHandle) (reqAddr : SocketAddr) (targetFlags : UInt32) :
    Option (List UInt8) :=
  if req.assignedId = 0 then none
  else
    (v4 req.ip).bind fun ip =>
      body ip reqAddr.2 req.assignedId (cryptSetting req.serverFlags) (some req.userHash)
        (cryptSetting targetFlags)

/-- The wake-up of a target about the requester. -/
def wakeBody (s : State) (u : UserHash) (ip : IpAddr) (targetFlags : UInt32) :
    Option (List UInt8) :=
  (s.clients u).bind fun req =>
    let ip := nattIp s.natt u ip
    forwardBody req (ip, observedUdpPort s.natt u ip req.udpPort) targetFlags

def bridge (s : State) (r : Request) (target : ClientHandle) : List Sent :=
  if !s.lugdunumNatt || target.serverFlags &&& SRVCAP_NATTRAVERSAL == 0 ||
      s.hasExtension target.serverFlags || (s.natt.nattKeepaliveSeen target.userHash).isSome then []
  else
    ((wakeBody s r.userHash r.ip target.serverFlags).map fun body =>
      (target.userHash, (⟨OP_NAT_CALLBACK_TCP, body⟩ : Frame))).toList

inductive Ext
  | started (wake : Sent)
  | pending
  | fallback

def startExtension (s : State) (r : Request) (target : ClientHandle) : Ext :=
  match wakeBody s r.userHash r.ip target.serverFlags with
  | none => .fallback
  | some body =>
    match s.tryRetry r.userHash target.assignedId with
    | none => .started (target.userHash, ⟨OP_NAT_CALLBACK_TCP, body⟩)
    | some .coalesced => .pending
    | some .busy => .fallback

/-- A target that the punch can be coordinated with at all. -/
def target (s : State) (r : Request) : Option ClientHandle :=
  (s.clientByAssignedId r.targetId).filter fun t =>
    t.userHash != r.userHash && !t.isHighId && t.isAlive &&
      ((sessionV4 (nattIp s.natt t.userHash t.ip)).isSome &&
        (sessionV4 (nattIp s.natt r.userHash r.ip)).isSome)

/-- Today's punch, and the bridge some time after it. -/
def punch (s : State) (r : Request) (t : ClientHandle) (d : Nat) : List Sent :=
  let (s, sent, _) := handleHolepunchRequest s r
  sent ++ bridge (s.later d) r t

/-- Do both sides use the extension? -/
def isExtension (s : State) (r : Request) (t : ClientHandle) : Bool :=
  s.hasExtension (s.flagsOf r.userHash) && s.hasExtension t.serverFlags

/-- The frames that a request sends up to its first `0x61` and its `0x37`, of which the second is
sent some time after the first. -/
def request (s : State) (r : Request) (d : Nat) : List Sent :=
  match target s r with
  | none => (handleHolepunchRequest s r).2.1
  | some t =>
    if isExtension s r t then
      let s := s.announce r
      match startExtension s r t with
      | .started wake =>
        wake :: if (s.later d).requesterAlive r.userHash then
          (handleHolepunchRequest (s.later d) r).2.1 else []
      | .pending => []
      | .fallback => punch s r t d
    else punch s r t d

/-- The endpoint in a `0x37`. -/
def wakeEndpoint (payload : List UInt8) : List UInt8 × List UInt8 :=
  (payload.take 4, (payload.drop 4).take 2)

/-- The endpoint in a `0x61`, behind the TCP port. -/
def infoEndpoint (payload : List UInt8) : List UInt8 × List UInt8 :=
  (payload.take 4, (payload.drop 6).take 2)

section Layout

theorem leBytes_four_inj {a b : UInt32} (h : leBytes 4 a.toNat = leBytes 4 b.toNat) : a = b := by
  have ha : a.toNat < 256 ^ 4 := a.toNat_lt
  have hb : b.toNat < 256 ^ 4 := b.toNat_lt
  have hnat := congrArg ofLeBytes h
  rw [ofLeBytes_leBytes, ofLeBytes_leBytes, Nat.mod_eq_of_lt ha, Nat.mod_eq_of_lt hb] at hnat
  exact UInt32.toNat_inj.mp hnat

theorem leBytes_two_inj {a b : UInt16} (h : leBytes 2 a.toNat = leBytes 2 b.toNat) : a = b := by
  have ha : a.toNat < 256 ^ 2 := a.toNat_lt
  have hb : b.toNat < 256 ^ 2 := b.toNat_lt
  have hnat := congrArg ofLeBytes h
  rw [ofLeBytes_leBytes, ofLeBytes_leBytes, Nat.mod_eq_of_lt ha, Nat.mod_eq_of_lt hb] at hnat
  exact UInt16.toNat_inj.mp hnat

theorem wakeEndpoint_append (ip : Ipv4) (port : UInt16) (rest : List UInt8) :
    wakeEndpoint (leBytes 4 ip.toNat ++ leBytes 2 port.toNat ++ rest) =
      (leBytes 4 ip.toNat, leBytes 2 port.toNat) := by
  have hip : (leBytes 4 ip.toNat).length = 4 := length_leBytes 4 _
  have hport : (leBytes 2 port.toNat).length = 2 := length_leBytes 2 _
  rw [wakeEndpoint, List.append_assoc, List.take_left' hip, List.drop_left' hip,
    List.take_left' hport]

theorem infoEndpoint_append (ip : Ipv4) (tcpPort port : UInt16) (rest : List UInt8) :
    infoEndpoint (leBytes 4 ip.toNat ++ leBytes 2 tcpPort.toNat ++ leBytes 2 port.toNat ++ rest) =
      (leBytes 4 ip.toNat, leBytes 2 port.toNat) := by
  have hip : (leBytes 4 ip.toNat).length = 4 := length_leBytes 4 _
  have hhead : (leBytes 4 ip.toNat ++ leBytes 2 tcpPort.toNat).length = 6 := by
    rw [List.length_append, length_leBytes, length_leBytes]
  have hport : (leBytes 2 port.toNat).length = 2 := length_leBytes 2 _
  rw [infoEndpoint, List.append_assoc, List.drop_left' hhead, List.take_left' hport,
    List.append_assoc, List.take_left' hip]

end Layout

section Frames

variable {s : State} {r : Request}

theorem sessionV4_eq (ip : IpAddr) : sessionV4 ip = v4 ip := by
  cases ip with
  | v4 a => rfl
  | v6 a => rfl

theorem announce_natt (s : State) (r : Request) : (s.announce r).natt = s.natt := by
  rw [State.announce]
  split
  · rfl
  · rfl

/-- What the announcement of a request makes of the requester. -/
def announced (r : Request) (h : ClientHandle) : ClientHandle :=
  { h with udpPort := if r.udpPort = 0 then h.udpPort else r.udpPort }

theorem announce_clients (s : State) (r : Request) :
    (s.announce r).clients r.userHash = (s.clients r.userHash).map (announced r) := by
  rw [State.announce]
  by_cases hp : r.udpPort = 0
  · have hsame : announced r = id := by
      funext h
      rw [announced, if_pos hp, id]
    rw [if_pos hp, hsame, Option.map_id, id]
  · have hnew : announced r = fun h => { h with udpPort := r.udpPort } := by
      funext h
      rw [announced, if_neg hp]
    rw [if_neg hp, hnew]
    exact Function.update_self _ _ _

theorem mem_sendFrame {u v : UserHash} {f g : Frame} (h : (u, f) ∈ s.sendFrame v g) :
    u = v ∧ f = g := by
  rw [State.sendFrame] at h
  split at h
  · exact Prod.mk.inj (List.mem_singleton.mp h)
  · cases h

/-- A request fails, or an endpoint of the requester is found and both sides are told. -/
theorem handle_cases (s : State) (r : Request) :
    (∃ reason, handleHolepunchRequest s r =
        (s.announce r, (s.announce r).sendFail r reason, some reason)) ∨
      ∃ a t tIp, v4 (nattIp s.natt r.userHash r.ip) = some a ∧
        handleHolepunchRequest s r = (s.announce r,
          coordinate (s.announce r) r (nattIp s.natt r.userHash r.ip) t tIp, none) := by
  rw [handleHolepunchRequest]
  dsimp only
  split
  · exact Or.inl ⟨_, rfl⟩
  split
  · exact Or.inl ⟨_, rfl⟩
  split
  · exact Or.inl ⟨_, rfl⟩
  split
  · exact Or.inl ⟨_, rfl⟩
  split
  · exact Or.inl ⟨_, rfl⟩
  split
  · exact Or.inl ⟨_, rfl⟩
  rename_i hsome _
  rw [Bool.or_eq_true, not_or, sessionV4_eq] at hsome
  cases ha : v4 (nattIp s.natt r.userHash r.ip) with
  | none => exact absurd (congrArg Option.isNone ha) hsome.1
  | some a => exact Or.inr ⟨a, _, _, rfl, rfl⟩

theorem handle_announce (s : State) (r : Request) :
    (handleHolepunchRequest s r).1 = s.announce r := by
  obtain ⟨reason, h⟩ | ⟨a, t, tIp, -, h⟩ := handle_cases s r
  · rw [h]
  · rw [h]

theorem fail_ne_wake : OP_LOWID_HOLEPUNCH_FAIL ≠ OP_NAT_CALLBACK_TCP := by decide

theorem info_ne_wake : OP_LOWID_HOLEPUNCH_INFO ≠ OP_NAT_CALLBACK_TCP := by decide

/-- The handling of a request wakes nobody. -/
theorem handle_ne_wake {u : UserHash} {f : Frame}
    (h : (u, f) ∈ (handleHolepunchRequest s r).2.1) : f.opcode ≠ OP_NAT_CALLBACK_TCP := by
  obtain ⟨reason, heq⟩ | ⟨a, t, tIp, -, heq⟩ := handle_cases s r
  · rw [heq, State.sendFail] at h
    rw [(mem_sendFrame h).2]
    exact fail_ne_wake
  · rw [heq, coordinate] at h
    obtain h | h := List.mem_append.mp h
    · rw [(mem_sendFrame h).2]
      exact info_ne_wake
    · rw [(mem_sendFrame h).2]
      exact info_ne_wake

/-- The endpoint of the requester in the `0x61` of another client. -/
theorem handle_info {u : UserHash} {i : Frame} (h : (u, i) ∈ (handleHolepunchRequest s r).2.1)
    (hinfo : i.opcode = OP_LOWID_HOLEPUNCH_INFO) (hu : u ≠ r.userHash) :
    ∃ a, v4 (nattIp s.natt r.userHash r.ip) = some a ∧
      infoEndpoint i.payload = (leBytes 4 a.toNat,
        leBytes 2 (observedUdpPort s.natt r.userHash (nattIp s.natt r.userHash r.ip)
          r.udpPort).toNat) := by
  obtain ⟨reason, heq⟩ | ⟨a, t, tIp, ha, heq⟩ := handle_cases s r
  · rw [heq, State.sendFail] at h
    obtain ⟨hself, -⟩ := mem_sendFrame h
    exact absurd hself hu
  · rw [heq, coordinate] at h
    obtain h | h := List.mem_append.mp h
    · obtain ⟨-, rfl⟩ := mem_sendFrame h
      refine ⟨a, ha, ?_⟩
      rw [buildInfo, sessionV4_eq, ha, announce_natt]
      simp only [List.append_assoc, Option.elim_some]
      rw [← List.append_assoc, ← List.append_assoc]
      exact infoEndpoint_append a r.port _ _
    · exact absurd (mem_sendFrame h).1 hu

/-- Can two crypt settings meet, when the hash of one side is known? -/
def canMeet (own other : UInt8) : Bool :=
  (own &&& other &&& 1 != 0 && (own ||| other) &&& 2 != 0) || (own ||| other) &&& 4 == 0

theorem body_isSome (ip : Ipv4) (port : UInt16) (id : UInt32) (own : UInt8) (hash : UserHash)
    (other : UInt8) : (body ip port id own (some hash) other).isSome = canMeet own other := by
  rw [body, canMeet]
  cases own &&& other &&& 1 != 0 && (own ||| other) &&& 2 != 0 with
  | true => rfl
  | false =>
    by_cases hmust : (own ||| other) &&& 4 = 0
    · simp [hmust]
    · simp [hmust]

theorem wakeEndpoint_body {ip : Ipv4} {port : UInt16} {id : UInt32} {own other : UInt8}
    {hash : Option UserHash} {b : List UInt8} (h : body ip port id own hash other = some b) :
    wakeEndpoint b = (leBytes 4 ip.toNat, leBytes 2 port.toNat) := by
  rw [body] at h
  split at h
  · exact absurd h.symm (Option.some_ne_none b)
  · rw [← Option.some.inj h, List.append_assoc]
    exact wakeEndpoint_append ip port _

/-- The endpoint of the requester in a `0x37`. -/
theorem wakeBody_endpoint {u : UserHash} {ip : IpAddr} {flags : UInt32} {b : List UInt8}
    (h : wakeBody s u ip flags = some b) :
    ∃ me a, s.clients u = some me ∧ v4 me.ip = some a ∧
      wakeEndpoint b = (leBytes 4 a.toNat,
        leBytes 2 (observedUdpPort s.natt u (nattIp s.natt u ip) me.udpPort).toNat) := by
  rw [wakeBody] at h
  obtain ⟨me, hme, h⟩ := Option.bind_eq_some_iff.mp h
  rw [forwardBody] at h
  split at h
  · exact absurd h.symm (Option.some_ne_none b)
  · obtain ⟨a, ha, h⟩ := Option.bind_eq_some_iff.mp h
    exact ⟨me, a, hme, ha, wakeEndpoint_body h⟩

theorem mem_bridge {t : ClientHandle} {u : UserHash} {f : Frame} (h : (u, f) ∈ bridge s r t) :
    u = t.userHash ∧ s.hasExtension t.serverFlags = false ∧ f.opcode = OP_NAT_CALLBACK_TCP ∧
      wakeBody s r.userHash r.ip t.serverFlags = some f.payload := by
  rw [bridge] at h
  split at h
  · cases h
  rename_i hoff
  rw [Bool.or_eq_true, Bool.or_eq_true, not_or, not_or] at hoff
  rw [Option.mem_toList, Option.map_eq_some_iff] at h
  obtain ⟨b, hb, heq⟩ := h
  obtain ⟨rfl, rfl⟩ := Prod.mk.inj heq
  exact ⟨rfl, Bool.not_eq_true _ ▸ hoff.1.2, rfl, hb⟩

theorem startExtension_started {t : ClientHandle} {wake : Sent}
    (h : startExtension s r t = .started wake) :
    wake.1 = t.userHash ∧ wake.2.opcode = OP_NAT_CALLBACK_TCP ∧
      wakeBody s r.userHash r.ip t.serverFlags = some wake.2.payload := by
  rw [startExtension] at h
  split at h
  · cases h
  · rename_i b hb
    split at h
    · cases h
      exact ⟨rfl, rfl, hb⟩
    · cases h
    · cases h

theorem target_ne {t : ClientHandle} (h : target s r = some t) : t.userHash ≠ r.userHash := by
  have hfilter := (Option.filter_eq_some_iff.mp h).2
  rw [Bool.and_eq_true, Bool.and_eq_true, Bool.and_eq_true] at hfilter
  exact bne_iff_ne.mp hfilter.1.1.1

theorem later_announce_natt (s : State) (r : Request) (d : Nat) :
    ((s.announce r).later d).natt = (s.later d).natt := by
  rw [State.later, announce_natt]
  rfl

theorem announce_hasExtension (s : State) (r : Request) (flags : UInt32) :
    (s.announce r).hasExtension flags = s.hasExtension flags := by
  rw [State.announce]
  split
  · rfl
  · rfl

theorem punch_eq (s : State) (r : Request) (t : ClientHandle) (d : Nat) :
    punch s r t d = (handleHolepunchRequest s r).2.1 ++ bridge ((s.announce r).later d) r t := by
  rw [← handle_announce]
  rfl

theorem wake_of_punch {t : ClientHandle} {d : Nat} {u : UserHash} {w : Frame}
    (h : (u, w) ∈ punch s r t d) (hwake : w.opcode = OP_NAT_CALLBACK_TCP) :
    (u, w) ∈ bridge ((s.announce r).later d) r t := by
  rw [punch_eq] at h
  exact (List.mem_append.mp h).resolve_left fun h => handle_ne_wake h hwake

theorem info_of_punch {t : ClientHandle} {d : Nat} {u : UserHash} {i : Frame}
    (h : (u, i) ∈ punch s r t d) (hinfo : i.opcode = OP_LOWID_HOLEPUNCH_INFO) :
    (u, i) ∈ (handleHolepunchRequest s r).2.1 := by
  rw [punch_eq] at h
  refine (List.mem_append.mp h).resolve_right fun h => info_ne_wake ?_
  exact hinfo.symm.trans (mem_bridge h).2.2.1

/-- The endpoint in a `0x37` that is sent after the announcement, some time later. -/
theorem wake_later {d : Nat} {flags : UInt32} {b : List UInt8}
    (h : wakeBody ((s.announce r).later d) r.userHash r.ip flags = some b) :
    ∃ me a, s.clients r.userHash = some me ∧ v4 me.ip = some a ∧
      wakeEndpoint b = (leBytes 4 a.toNat, leBytes 2 (observedUdpPort (s.later d).natt r.userHash
        (nattIp s.natt r.userHash r.ip) (announced r me).udpPort).toNat) := by
  obtain ⟨me, a, hme, ha, hend⟩ := wakeBody_endpoint h
  obtain ⟨k, hk, rfl⟩ := Option.map_eq_some_iff.mp ((announce_clients s r).symm.trans hme)
  rw [later_announce_natt] at hend
  exact ⟨k, a, hk, ha, hend⟩

theorem info_later {d : Nat} {u : UserHash} {i : Frame}
    (h : (u, i) ∈ (handleHolepunchRequest ((s.announce r).later d) r).2.1)
    (hinfo : i.opcode = OP_LOWID_HOLEPUNCH_INFO) (hu : u ≠ r.userHash) :
    ∃ a, v4 (nattIp s.natt r.userHash r.ip) = some a ∧
      infoEndpoint i.payload = (leBytes 4 a.toNat, leBytes 2 (observedUdpPort (s.later d).natt
        r.userHash (nattIp s.natt r.userHash r.ip) r.udpPort).toNat) := by
  have hend := handle_info h hinfo hu
  rw [later_announce_natt] at hend
  exact hend

end Frames

/-- How long after the first frame the `0x37` is sent. -/
def wakeDelay (s : State) (r : Request) (d : Nat) : Nat :=
  if (target s r).any (isExtension s r) then 0 else d

/-- How long after the first frame the `0x61` is sent. -/
def infoDelay (s : State) (r : Request) (d : Nat) : Nat :=
  if (target s r).any (isExtension s r) then d else 0

/-- The two endpoints of the requester that one client is told in a request. -/
theorem request_endpoints {s : State} {r : Request} {d : Nat} {u : UserHash} {w i : Frame}
    (hw : (u, w) ∈ request s r d) (hwake : w.opcode = OP_NAT_CALLBACK_TCP)
    (hi : (u, i) ∈ request s r d) (hinfo : i.opcode = OP_LOWID_HOLEPUNCH_INFO) :
    ∃ me a b, s.clients r.userHash = some me ∧ v4 me.ip = some a ∧
      v4 (nattIp s.natt r.userHash r.ip) = some b ∧
      wakeEndpoint w.payload = (leBytes 4 a.toNat,
        leBytes 2 (observedUdpPort (s.later (wakeDelay s r d)).natt r.userHash
          (nattIp s.natt r.userHash r.ip) (announced r me).udpPort).toNat) ∧
      infoEndpoint i.payload = (leBytes 4 b.toNat,
        leBytes 2 (observedUdpPort (s.later (infoDelay s r d)).natt r.userHash
          (nattIp s.natt r.userHash r.ip) r.udpPort).toNat) := by
  rw [request] at hw hi
  rw [wakeDelay, infoDelay]
  cases ht : target s r with
  | none =>
    simp only [ht] at hw
    exact absurd hwake (handle_ne_wake hw)
  | some t =>
    simp only [ht] at hw hi
    rw [Option.any_some]
    by_cases hext : isExtension s r t = true
    · simp only [hext, if_true] at hw hi ⊢
      cases hstart : startExtension (s.announce r) r t with
      | started wake =>
        simp only [hstart] at hw hi
        obtain ⟨hhash, hopcode, hbody⟩ := startExtension_started hstart
        have hwake' : (u, w) = wake := by
          obtain hw | hw := List.mem_cons.mp hw
          · exact hw
          · split at hw
            · exact absurd hwake (handle_ne_wake hw)
            · cases hw
        subst hwake'
        have hinfo' : (u, i) ∈ (handleHolepunchRequest ((s.announce r).later d) r).2.1 := by
          obtain hi | hi := List.mem_cons.mp hi
          · rw [(Prod.mk.inj hi).2, hopcode] at hinfo
            exact absurd hinfo.symm info_ne_wake
          · split at hi
            · exact hi
            · cases hi
        obtain ⟨me, a, hme, ha, hwend⟩ := wake_later (d := 0) hbody
        obtain ⟨b, hb, hiend⟩ := info_later hinfo' hinfo (Eq.trans_ne hhash (target_ne ht))
        exact ⟨me, a, b, hme, ha, hb, hwend, hiend⟩
      | pending =>
        simp only [hstart] at hw
        cases hw
      | fallback =>
        simp only [hstart] at hw
        have hoff := (mem_bridge (wake_of_punch hw hwake)).2.1
        have hon : s.hasExtension t.serverFlags = true := (Bool.and_eq_true _ _ ▸ hext).2
        change ((s.announce r).announce r).hasExtension t.serverFlags = false at hoff
        rw [announce_hasExtension, announce_hasExtension, hon] at hoff
        cases hoff
    · rw [if_neg hext] at hw hi ⊢
      rw [if_neg hext]
      obtain ⟨rfl, -, -, hbody⟩ := mem_bridge (wake_of_punch hw hwake)
      obtain ⟨me, a, hme, ha, hwend⟩ := wake_later hbody
      obtain ⟨b, hb, hiend⟩ := handle_info (info_of_punch hi hinfo) hinfo (target_ne ht)
      exact ⟨me, a, b, hme, ha, hb, hwend, hiend⟩

/-- The port of a client that the server saw not long ago. -/
def seenPort (s : NattProof.State) (u : UserHash) (ip : IpAddr) : Option UInt16 :=
  match (s.nattUdpPorts u).filter s.isFresh with
  | some e => some e.1
  | none =>
    match ip with
    | .v4 v =>
      if s.connPerIp v ≤ 1 then ((s.observedUdpPorts v).filter s.isFresh).map Prod.fst else none
    | .v6 _ => none

/-- A port seen for the `0x37` and one for the `0x61`, else the port of the handle and the one told
in the `0x60`. -/
def SamePort : Option UInt16 → Option UInt16 → UInt16 → UInt16 → Prop
  | some w, some i, _, _ => w = i
  | some w, none, _, told => w = told
  | none, some i, handle, told => i = if told = 0 then handle else told
  | none, none, handle, told => told ≠ 0 ∨ handle = 0

/-- The condition on the two frames: the proven address, or that of the connection if there is none,
is that of the handle, and the ports are the same. -/
structure SameEndpoint (s : State) (r : Request) (d : Nat) (me : ClientHandle) : Prop where
  proven : ∀ a, s.natt.nattUdpIp r.userHash = some a → v4 me.ip = v4 a
  unproven : s.natt.nattUdpIp r.userHash = none → v4 me.ip = v4 r.ip
  port : SamePort
    (seenPort (s.later (wakeDelay s r d)).natt r.userHash (nattIp s.natt r.userHash r.ip))
    (seenPort (s.later (infoDelay s r d)).natt r.userHash (nattIp s.natt r.userHash r.ip))
    me.udpPort r.udpPort

/-- The condition on the search for an endpoint: the handle has an IPv4, or neither the proven
address nor, without one, that of the connection is one. -/
def FindsIpv4 (s : State) (r : Request) (me : ClientHandle) : Prop :=
  (v4 me.ip).isSome ∨ (∀ a, s.natt.nattUdpIp r.userHash = some a → v4 a = none) ∧
    (s.natt.nattUdpIp r.userHash = none → v4 r.ip = none)

theorem observedUdpPort_eq_getD (s : NattProof.State) (u : UserHash) (ip : IpAddr)
    (announced : UInt16) : observedUdpPort s u ip announced = (seenPort s u ip).getD announced := by
  rw [seenPort.eq_def]
  cases hown : (s.nattUdpPorts u).filter s.isFresh with
  | some e => exact observedUdpPort_of_own hown ip announced
  | none =>
    cases ip with
    | v6 a => exact observedUdpPort_v6 hown a announced
    | v4 a =>
      rw [observedUdpPort_v4 hown, addressPort]
      by_cases halone : s.connPerIp a ≤ 1
      · simp only [halone, if_true]
        cases (s.observedUdpPorts a).filter s.isFresh with
        | none => rfl
        | some e => rfl
      · simp only [halone, if_false, Option.getD_none]

theorem samePort_iff (w i : Option UInt16) (handle told : UInt16) :
    w.getD (if told = 0 then handle else told) = i.getD told ↔ SamePort w i handle told := by
  cases w with
  | some w =>
    cases i with
    | some i => exact Iff.rfl
    | none => exact Iff.rfl
  | none =>
    cases i with
    | some i => exact eq_comm
    | none =>
      rw [SamePort, Option.getD_none, Option.getD_none]
      by_cases htold : told = 0
      · rw [if_pos htold, htold]
        exact (or_iff_right fun h => h rfl).symm
      · rw [if_neg htold]
        exact iff_of_true rfl (Or.inl htold)

theorem v4_nattIp (s : State) (r : Request) (me : ClientHandle) :
    v4 me.ip = v4 (nattIp s.natt r.userHash r.ip) ↔
      (∀ a, s.natt.nattUdpIp r.userHash = some a → v4 me.ip = v4 a) ∧
        (s.natt.nattUdpIp r.userHash = none → v4 me.ip = v4 r.ip) := by
  rw [nattIp]
  cases s.natt.nattUdpIp r.userHash with
  | some a =>
    refine ⟨fun h => ⟨fun b hb => Option.some.inj hb ▸ h, fun hn => ?_⟩, fun h => h.1 a rfl⟩
    exact absurd hn (Option.some_ne_none a)
  | none =>
    refine ⟨fun h => ⟨fun b hb => ?_, fun _ => h⟩, fun h => h.2 rfl⟩
    exact absurd hb.symm (Option.some_ne_none b)

theorem endpoint_bytes_eq_iff (a b : Ipv4) (p q : UInt16) :
    (leBytes 4 a.toNat, leBytes 2 p.toNat) = (leBytes 4 b.toNat, leBytes 2 q.toNat) ↔
      a = b ∧ p = q := by
  rw [Prod.mk.injEq]
  refine ⟨fun h => ⟨leBytes_four_inj h.1, leBytes_two_inj h.2⟩, ?_⟩
  rintro ⟨rfl, rfl⟩
  exact ⟨rfl, rfl⟩

theorem frames_agree {s : State} {r : Request} {d : Nat} {u : UserHash} {w i : Frame}
    {me : ClientHandle} (hw : (u, w) ∈ request s r d) (hwake : w.opcode = OP_NAT_CALLBACK_TCP)
    (hi : (u, i) ∈ request s r d) (hinfo : i.opcode = OP_LOWID_HOLEPUNCH_INFO)
    (hme : s.clients r.userHash = some me) :
    wakeEndpoint w.payload = infoEndpoint i.payload ↔ SameEndpoint s r d me := by
  obtain ⟨k, a, b, hk, ha, hb, hwend, hiend⟩ := request_endpoints hw hwake hi hinfo
  obtain rfl := Option.some.inj (hk.symm.trans hme)
  have haddress : a = b ↔ v4 k.ip = v4 (nattIp s.natt r.userHash r.ip) := by
    rw [ha, hb, Option.some.injEq]
  rw [hwend, hiend, endpoint_bytes_eq_iff, haddress, v4_nattIp, observedUdpPort_eq_getD,
    observedUdpPort_eq_getD]
  rw [show (announced r k).udpPort = if r.udpPort = 0 then k.udpPort else r.udpPort from rfl,
    samePort_iff]
  exact ⟨fun h => ⟨h.1.1, h.1.2, h.2⟩, fun h => ⟨⟨h.1, h.2⟩, h.3⟩⟩

theorem forwardBody_isSome {me : ClientHandle} {flags : UInt32} (addr : SocketAddr)
    (hid : me.assignedId ≠ 0)
    (hmeet : canMeet (cryptSetting me.serverFlags) (cryptSetting flags) = true) :
    (forwardBody me addr flags).isSome = (v4 me.ip).isSome := by
  rw [forwardBody, if_neg hid]
  cases v4 me.ip with
  | none => rfl
  | some a =>
    rw [Option.bind_some, body_isSome, hmeet]
    rfl

theorem findsIpv4_iff (s : State) (r : Request) (me : ClientHandle) :
    ((v4 (nattIp s.natt r.userHash r.ip)).isSome → (v4 me.ip).isSome) ↔ FindsIpv4 s r me := by
  rw [FindsIpv4, nattIp]
  cases s.natt.nattUdpIp r.userHash with
  | some a =>
    rw [Option.getD_some, imp_iff_or_not, Option.not_isSome_iff_eq_none]
    refine or_congr_right ⟨fun h => ⟨fun b hb => Option.some.inj hb ▸ h, fun hn => ?_⟩,
      fun h => h.1 a rfl⟩
    exact absurd hn (Option.some_ne_none a)
  | none =>
    rw [Option.getD_none, imp_iff_or_not, Option.not_isSome_iff_eq_none]
    refine or_congr_right ⟨fun h => ⟨fun b hb => ?_, fun _ => h⟩, fun h => h.2 rfl⟩
    exact absurd hb.symm (Option.some_ne_none b)

/-- A `0x37` and a `0x61` to one client name the same endpoint, and the forward finds an IPv4 when
the handler does, if and only if the conditions hold. -/
theorem same_endpoint_iff (s : State) (r : Request) (d : Nat) (me : ClientHandle)
    (hme : s.clients r.userHash = some me) :
    (∀ u w i, (u, w) ∈ request s r d → w.opcode = OP_NAT_CALLBACK_TCP →
        (u, i) ∈ request s r d → i.opcode = OP_LOWID_HOLEPUNCH_INFO →
        (wakeEndpoint w.payload = infoEndpoint i.payload ↔ SameEndpoint s r d me)) ∧
      ∀ addr flags, me.assignedId ≠ 0 →
        canMeet (cryptSetting me.serverFlags) (cryptSetting flags) = true →
        (((v4 (nattIp s.natt r.userHash r.ip)).isSome → (forwardBody me addr flags).isSome) ↔
          FindsIpv4 s r me) := by
  refine ⟨fun u w i hw hwake hi hinfo => frames_agree hw hwake hi hinfo hme, ?_⟩
  intro addr flags hid hmeet
  rw [forwardBody_isSome addr hid hmeet]
  exact findsIpv4_iff s r me

/-- Two clients with the extension; the first one proved an address, or none. -/
def pair (proven : Option IpAddr) : State where
  natt := { NattProof.init 0 with
    nattUdpIp := Function.update (fun _ => none) (Vector.replicate 16 1) proven }
  clients u :=
    if u = Vector.replicate 16 1 then
      some ⟨u, 5, .v4 0x016433C6, 4662, 4672, 0x101000, false, true⟩
    else if u = Vector.replicate 16 2 then
      some ⟨u, 7, .v4 0x097100CB, 4662, 4673, 0x101000, false, true⟩
    else none
  clientIdIndex id := if id = 7 then some (Vector.replicate 16 2) else none
  lugdunumNatt := true
  holepunchExtension := true
  tryRetry _ _ := none

def fromFirst : Request := ⟨Vector.replicate 16 1, 5, .v4 0x016433C6, 4662, 4672, 7⟩

def firstHandle : ClientHandle :=
  ⟨Vector.replicate 16 1, 5, .v4 0x016433C6, 4662, 4672, 0x101000, false, true⟩

/-- The wake-up for the second client. -/
def wakeFrame : Frame := ⟨0x37, [198, 51, 100, 1, 64, 18, 5, 0, 0, 0, 0]⟩

/-- The punch of the second client, towards an address. -/
def infoFrame (ip : List UInt8) : Frame :=
  ⟨0x61, ip ++ [54, 18, 64, 18] ++ List.replicate 16 1 ++ [1, 5, 0, 0, 0, 0]⟩

theorem unproven_same :
    wakeEndpoint wakeFrame.payload = infoEndpoint (infoFrame [198, 51, 100, 1]).payload :=
  ((same_endpoint_iff (pair none) fromFirst 0 firstHandle rfl).1 (Vector.replicate 16 2) wakeFrame
    (infoFrame [198, 51, 100, 1]) (by decide) rfl (by decide) rfl).mpr
    ⟨fun a h => absurd h.symm (Option.some_ne_none a), fun _ => rfl,
      Or.inl (by decide)⟩

/-- A client that proved 5.5.5.5 from a session at 198.51.100.1 is named by both. -/
theorem proven_differs :
    ¬∀ (s : State) (r : Request) (d : Nat) (u : UserHash) (w i : Frame),
      (u, w) ∈ request s r d → w.opcode = OP_NAT_CALLBACK_TCP →
        (u, i) ∈ request s r d → i.opcode = OP_LOWID_HOLEPUNCH_INFO →
          wakeEndpoint w.payload = infoEndpoint i.payload := by
  intro h
  have hsame := h (pair (some (.v4 0x05050505))) fromFirst 0 (Vector.replicate 16 2) wakeFrame
    (infoFrame [5, 5, 5, 5]) (by decide) rfl (by decide) rfl
  exact absurd hsame (by decide)

end Ed2kServer.Server.Holepunch
