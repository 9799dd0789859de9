import Ed2kServer.Lib.LittleEndian
import Ed2kServer.Server.NattProof

namespace Ed2kServer.Server.KeepaliveFrame

open Ed2kServer.Server.LugdunumNatt (SocketAddr)
open Ed2kServer.Lib.LittleEndian Ed2kServer.Server.NattProof Ed2kServer.Slab.Record
open Ed2kServer.Sources.Address

/-- An extension coordination that waits for a keepalive. -/
abbrev Waiter := Nat

/-- What a keepalive can touch: the tables of the proofs, the activity of each connected client by
the wall clock, and the coordinations that wait for a client. -/
structure Tables where
  natt : State
  nowMs : Nat
  lastActivityMs : UserHash → Nat
  nattKeepaliveWaiters : UserHash → List Waiter
  extTimedOut : UserHash → Option Nat
  released : List Waiter

/-- The length of a payload with a proof. -/
def LEN : Nat := 36

section Handler

variable (readMac : List UInt8 → Mac)

/-- A payload of at least a user hash; only one of 36 bytes has a proof. -/
def readKeepalive (payload : List UInt8) (isObfuscated : Bool) (peer : SocketAddr) :
    Option Keepalive :=
  if payload.length < 16 then none
  else some {
    userHash := Vector.ofFn fun i => payload.getD i 0
    proof :=
      if payload.length = LEN then
        some ⟨UInt32.ofNat (ofLeBytes ((payload.drop 16).take 4)), readMac (payload.drop 20)⟩
      else none
    isObfuscated := isObfuscated
    peer := peer }

/-- `h.touch_activity()`, for any connected client of the hash. -/
def Tables.touch (s : Tables) (u : UserHash) : Tables :=
  if (s.natt.clients u).isSome then
    { s with lastActivityMs := Function.update s.lastActivityMs u s.nowMs }
  else s

def Tables.keepaliveArrived (s : Tables) (u : UserHash) : Tables :=
  { s with
    extTimedOut := Function.update s.extTimedOut u none
    nattKeepaliveWaiters := Function.update s.nattKeepaliveWaiters u []
    released := s.released ++ s.nattKeepaliveWaiters u }

/-- Is the keepalive that of the connected client? -/
def accepts (s : State) (d : Keepalive) (ext : Bool) : Bool :=
  match s.clients d.userHash with
  | some h => (judge s d ext h).2
  | none => false

def Tables.handle (s : Tables) (d : Keepalive) (ext : Bool) : Tables :=
  let t := s.touch d.userHash
  let t := if accepts s.natt d ext then t.keepaliveArrived d.userHash else t
  { t with natt := handleKeepalive s.natt d ext }

/-- The handling of a `0x9F` datagram. -/
def Tables.datagram (s : Tables) (payload : List UInt8) (isObfuscated : Bool) (peer : SocketAddr)
    (ext : Bool) : Tables :=
  match readKeepalive readMac payload isObfuscated peer with
  | some d => s.handle d ext
  | none => s

end Handler

/-- The endpoint that peers are told of a client. -/
def endpoint (s : State) (u : UserHash) (h : ClientHandle) : IpAddr × UInt16 :=
  (nattIp s u h.ip, observedUdpPort s u (nattIp s u h.ip) h.udpPort)

/-- Nothing of a client changed, and no coordination and no endpoint. -/
structure Unchanged (s t : Tables) : Prop where
  clients : t.natt.clients = s.natt.clients
  activity : t.lastActivityMs = s.lastActivityMs
  keepaliveSeen : t.natt.nattKeepaliveSeen = s.natt.nattKeepaliveSeen
  udpIp : t.natt.nattUdpIp = s.natt.nattUdpIp
  proofCounter : t.natt.nattProofCounter = s.natt.nattProofCounter
  token : t.natt.nattToken = s.natt.nattToken
  udpPorts : t.natt.nattUdpPorts = s.natt.nattUdpPorts
  waiters : t.nattKeepaliveWaiters = s.nattKeepaliveWaiters
  timedOut : t.extTimedOut = s.extTimedOut
  released : t.released = s.released
  endpoints : ∀ u h, s.natt.clients u = some h → endpoint t.natt u h = endpoint s.natt u h

/-- The port of a client without a fresh one of its own comes from its address. -/
def ReadsAddress (s : State) (u : UserHash) (h : ClientHandle) (v : Ipv4) : Prop :=
  (s.nattUdpPorts u).filter s.isFresh = none ∧ nattIp s u h.ip = .v4 v ∧ s.connPerIp v ≤ 1

/-- The port seen last from an address, or the announced one. -/
def addressPort (s : State) (v : Ipv4) (announced : UInt16) : UInt16 :=
  ((s.observedUdpPorts v).filter s.isFresh).elim announced Prod.fst

/-- The condition: no client of the hash, or one that was active in this very millisecond; and no
client whose port comes from the address of the datagram has another one. -/
structure Silent (s : Tables) (d : Keepalive) : Prop where
  activity : ∀ h, s.natt.clients d.userHash = some h →
    s.lastActivityMs d.userHash = s.nowMs
  address : ∀ v, d.peer.1 = .v4 v → ∀ u h, s.natt.clients u = some h →
    ReadsAddress s.natt u h v →
      addressPort s.natt v h.udpPort = if d.peer.2 = 0 then h.udpPort else d.peer.2

section Frame

variable {s : State} {d : Keepalive} {ext : Bool}

/-- A refused keepalive only shows a port. -/
theorem handleKeepalive_refused (h : accepts s d ext = false) :
    ∃ log, handleKeepalive s d ext = State.observe { s with log := log } d.peer := by
  rw [accepts] at h
  rw [handleKeepalive]
  cases hk : s.clients d.userHash with
  | none => exact ⟨_, rfl⟩
  | some k =>
    simp only [hk] at h
    simp only [h, Bool.false_eq_true, if_false]
    exact ⟨_, rfl⟩

theorem observe_fields (s : State) (peer : SocketAddr) :
    ∃ o, s.observe peer = { s with observedUdpPorts := o } ∧
      ∀ v, o v = if peer.1 = .v4 v then some (peer.2, s.now) else s.observedUdpPorts v := by
  obtain ⟨ip, port⟩ := peer
  cases ip with
  | v4 a =>
    refine ⟨_, rfl, fun v => ?_⟩
    by_cases hv : a = v
    · subst hv
      rw [Function.update_self, if_pos rfl]
    · rw [Function.update_of_ne (Ne.symm hv), if_neg fun h => hv (IpAddr.v4.inj h)]
  | v6 a => exact ⟨s.observedUdpPorts, rfl, fun v => (if_neg nofun).symm⟩

theorem observedUdpPort_of_own {s : State} {u : UserHash} {e : UInt16 × Nat}
    (h : (s.nattUdpPorts u).filter s.isFresh = some e) (ip : IpAddr) (announced : UInt16) :
    observedUdpPort s u ip announced = e.1 := by
  simp only [observedUdpPort, h]

theorem observedUdpPort_v4 {s : State} {u : UserHash}
    (h : (s.nattUdpPorts u).filter s.isFresh = none) (v : Ipv4) (announced : UInt16) :
    observedUdpPort s u (.v4 v) announced =
      if s.connPerIp v ≤ 1 then addressPort s v announced else announced := by
  rw [observedUdpPort, h]
  rfl

theorem observedUdpPort_v6 {s : State} {u : UserHash}
    (h : (s.nattUdpPorts u).filter s.isFresh = none) (v : Ipv6) (announced : UInt16) :
    observedUdpPort s u (.v6 v) announced = announced := by
  rw [observedUdpPort, h]

theorem observedUdpPort_of_reads {s : State} {u : UserHash} {h : ClientHandle} {v : Ipv4}
    (hv : ReadsAddress s u h v) :
    observedUdpPort s u (nattIp s u h.ip) h.udpPort = addressPort s v h.udpPort := by
  rw [hv.2.1, observedUdpPort_v4 hv.1, if_pos hv.2.2]

/-- The ports seen from addresses matter to no other client. -/
theorem observedUdpPort_of_not_reads {s : State} {u : UserHash} {h : ClientHandle}
    (hv : ∀ v, ¬ReadsAddress s u h v) (o : Ipv4 → Option (UInt16 × Nat)) :
    observedUdpPort { s with observedUdpPorts := o } u (nattIp s u h.ip) h.udpPort =
      observedUdpPort s u (nattIp s u h.ip) h.udpPort := by
  cases hown : (s.nattUdpPorts u).filter s.isFresh with
  | some e =>
    have hown' : (State.nattUdpPorts { s with observedUdpPorts := o } u).filter
        (State.isFresh { s with observedUdpPorts := o }) = some e := hown
    rw [observedUdpPort_of_own hown, observedUdpPort_of_own hown']
  | none =>
    have hown' : (State.nattUdpPorts { s with observedUdpPorts := o } u).filter
        (State.isFresh { s with observedUdpPorts := o }) = none := hown
    cases hip : nattIp s u h.ip with
    | v6 a => rw [observedUdpPort_v6 hown, observedUdpPort_v6 hown']
    | v4 a =>
      have halone : ¬s.connPerIp a ≤ 1 := fun halone => hv a ⟨hown, hip, halone⟩
      rw [observedUdpPort_v4 hown, observedUdpPort_v4 hown', if_neg halone, if_neg halone]

/-- What a client reads from the address of a datagram that just came. -/
theorem addressPort_observe {s : State} {peer : SocketAddr} {v : Ipv4} (hv : peer.1 = .v4 v)
    (announced : UInt16) :
    addressPort (s.observe peer) v announced = if peer.2 = 0 then announced else peer.2 := by
  obtain ⟨o, ho, hat⟩ := observe_fields s peer
  have hentry : (s.observe peer).observedUdpPorts v = some (peer.2, s.now) := by
    rw [ho]
    exact (hat v).trans (if_pos hv)
  have hnow : (s.observe peer).now = s.now := by rw [ho]
  have hfresh : s.now < s.now + OBSERVED_UDP_FRESH := Nat.lt_add_of_pos_right (by decide)
  rw [addressPort, hentry, Option.filter_some, State.isFresh, hnow]
  by_cases hp : peer.2 = 0
  · rw [if_pos hp, hp]
    rfl
  · simp [hp, hfresh]

theorem addressPort_observe_of_ne {s : State} {peer : SocketAddr} {v : Ipv4}
    (hv : peer.1 ≠ .v4 v) (announced : UInt16) :
    addressPort (s.observe peer) v announced = addressPort s v announced := by
  obtain ⟨o, ho, hat⟩ := observe_fields s peer
  have hentry : o v = s.observedUdpPorts v := (hat v).trans (if_neg hv)
  rw [ho]
  change ((o v).filter s.isFresh).elim announced Prod.fst = _
  rw [hentry]
  rfl

/-- The endpoint of a client after a datagram of a peer. -/
theorem endpoint_observe (s : State) (peer : SocketAddr) (u : UserHash) (h : ClientHandle) :
    endpoint (s.observe peer) u h = endpoint s u h ↔
      ∀ v, peer.1 = .v4 v → ReadsAddress s u h v →
        addressPort s v h.udpPort = if peer.2 = 0 then h.udpPort else peer.2 := by
  obtain ⟨o, ho, -⟩ := observe_fields s peer
  have hip : nattIp (s.observe peer) u h.ip = nattIp s u h.ip := by
    rw [ho]
    rfl
  have hport : endpoint (s.observe peer) u h = endpoint s u h ↔
      observedUdpPort (s.observe peer) u (nattIp s u h.ip) h.udpPort =
        observedUdpPort s u (nattIp s u h.ip) h.udpPort := by
    rw [endpoint, endpoint, hip, Prod.mk.injEq]
    exact and_iff_right rfl
  rw [hport]
  by_cases hv : ∃ v, ReadsAddress s u h v
  · obtain ⟨v, hv⟩ := hv
    have hv' : ReadsAddress (s.observe peer) u h v := by
      rw [ho]
      exact hv
    have hunique : ∀ w, ReadsAddress s u h w → w = v := fun w hw =>
      IpAddr.v4.inj (hw.2.1.symm.trans hv.2.1)
    rw [← hip, observedUdpPort_of_reads hv', hip, observedUdpPort_of_reads hv]
    by_cases hp : peer.1 = .v4 v
    · rw [addressPort_observe hp]
      refine ⟨fun heq w _ hw => ?_, fun heq => (heq v hp hv).symm⟩
      rw [hunique w hw, heq]
    · rw [addressPort_observe_of_ne hp]
      refine iff_of_true rfl fun w hw hr => absurd hw ?_
      rw [hunique w hr]
      exact hp
  · have hnone : ∀ v, ¬ReadsAddress s u h v := fun v hr => hv ⟨v, hr⟩
    rw [ho, observedUdpPort_of_not_reads hnone]
    exact iff_of_true rfl fun v _ hr => absurd hr (hnone v)

end Frame

section Refused

variable {s : Tables} {d : Keepalive} {ext : Bool}

theorem handle_refused (h : accepts s.natt d ext = false) :
    s.handle d ext = { s.touch d.userHash with natt := handleKeepalive s.natt d ext } := by
  rw [Tables.handle, h]
  rfl

/-- What a refused keepalive leaves as it was in any case. -/
theorem handle_frame (h : accepts s.natt d ext = false) :
    (s.handle d ext).natt.clients = s.natt.clients ∧
      (s.handle d ext).natt.nattKeepaliveSeen = s.natt.nattKeepaliveSeen ∧
      (s.handle d ext).natt.nattUdpIp = s.natt.nattUdpIp ∧
      (s.handle d ext).natt.nattProofCounter = s.natt.nattProofCounter ∧
      (s.handle d ext).natt.nattToken = s.natt.nattToken ∧
      (s.handle d ext).natt.nattUdpPorts = s.natt.nattUdpPorts := by
  obtain ⟨log, hlog⟩ := handleKeepalive_refused h
  obtain ⟨o, ho, -⟩ := observe_fields { s.natt with log := log } d.peer
  rw [handle_refused h, hlog, ho]
  exact ⟨rfl, rfl, rfl, rfl, rfl, rfl⟩

theorem touch_frame (s : Tables) (u : UserHash) :
    (s.touch u).nattKeepaliveWaiters = s.nattKeepaliveWaiters ∧
      (s.touch u).extTimedOut = s.extTimedOut ∧ (s.touch u).released = s.released := by
  rw [Tables.touch]
  split
  · exact ⟨rfl, rfl, rfl⟩
  · exact ⟨rfl, rfl, rfl⟩

theorem touch_activity (s : Tables) (u : UserHash) :
    (s.touch u).lastActivityMs = s.lastActivityMs ↔
      ∀ h, s.natt.clients u = some h → s.lastActivityMs u = s.nowMs := by
  rw [Tables.touch]
  cases hu : s.natt.clients u with
  | none => exact ⟨fun _ h hk => absurd hk.symm (Option.some_ne_none h), fun _ => rfl⟩
  | some k =>
    refine ⟨fun heq h _ => ?_, fun heq => ?_⟩
    · have hat : Function.update s.lastActivityMs u s.nowMs u = s.lastActivityMs u :=
        congrFun heq u
      rw [← hat, Function.update_self]
    · change Function.update s.lastActivityMs u s.nowMs = s.lastActivityMs
      rw [← heq k rfl, Function.update_eq_self]

/-- The endpoint of a client after a refused keepalive. -/
theorem endpoint_refused (hd : accepts s.natt d ext = false) (u : UserHash) (h : ClientHandle) :
    endpoint (s.handle d ext).natt u h = endpoint s.natt u h ↔
      ∀ v, d.peer.1 = .v4 v → ReadsAddress s.natt u h v →
        addressPort s.natt v h.udpPort = if d.peer.2 = 0 then h.udpPort else d.peer.2 := by
  obtain ⟨log, hlog⟩ := handleKeepalive_refused hd
  have hnatt : (s.handle d ext).natt = State.observe { s.natt with log := log } d.peer := by
    rw [handle_refused hd, hlog]
  rw [hnatt]
  exact endpoint_observe { s.natt with log := log } d.peer u h

theorem unchanged_handle (hd : accepts s.natt d ext = false) :
    Unchanged s (s.handle d ext) ↔ Silent s d := by
  obtain ⟨hclients, hseen, hudpIp, hcounter, htoken, hports⟩ := handle_frame hd
  obtain ⟨hwaiters, htimedOut, hreleased⟩ := touch_frame s d.userHash
  have hactivity : (s.handle d ext).lastActivityMs = (s.touch d.userHash).lastActivityMs := by
    rw [handle_refused hd]
  constructor
  · intro h
    refine ⟨(touch_activity s d.userHash).mp (hactivity.symm.trans h.activity), ?_⟩
    exact fun v hv u k hk => (endpoint_refused hd u k).mp (h.endpoints u k hk) v hv
  · intro h
    refine ⟨hclients, hactivity.trans ((touch_activity s d.userHash).mpr h.activity), hseen,
      hudpIp, hcounter, htoken, hports, ?_, ?_, ?_, fun u k hk => (endpoint_refused hd u k).mpr
        fun v hv hr => h.address v hv u k hk hr⟩
    · rw [handle_refused hd]
      exact hwaiters
    · rw [handle_refused hd]
      exact htimedOut
    · rw [handle_refused hd]
      exact hreleased

end Refused

/-- Is the datagram a keepalive that is accepted? -/
def isAccepted (readMac : List UInt8 → Mac) (s : Tables) (payload : List UInt8)
    (isObfuscated : Bool) (peer : SocketAddr) (ext : Bool) : Bool :=
  (readKeepalive readMac payload isObfuscated peer).any fun d => accepts s.natt d ext

/-- A datagram that is not accepted leaves all as it was if and only if it is silent. -/
theorem refused_unchanged_iff (readMac : List UInt8 → Mac) (s : Tables) (payload : List UInt8)
    (isObfuscated : Bool) (peer : SocketAddr) (ext : Bool)
    (h : isAccepted readMac s payload isObfuscated peer ext = false) :
    Unchanged s (s.datagram readMac payload isObfuscated peer ext) ↔
      ∀ d, readKeepalive readMac payload isObfuscated peer = some d → Silent s d := by
  rw [isAccepted] at h
  rw [Tables.datagram]
  cases hd : readKeepalive readMac payload isObfuscated peer with
  | none =>
    refine iff_of_true ⟨rfl, rfl, rfl, rfl, rfl, rfl, rfl, rfl, rfl, rfl, fun _ _ _ => rfl⟩ ?_
    exact fun d hk => absurd hk.symm (Option.some_ne_none d)
  | some d =>
    rw [hd, Option.any_some] at h
    rw [unchanged_handle h]
    exact ⟨fun hs k hk => Option.some.inj hk ▸ hs, fun hs => hs d rfl⟩

def noClients : Tables where
  natt := init 0
  nowMs := 60000
  lastActivityMs _ := 0
  nattKeepaliveWaiters _ := []
  extTimedOut _ := none
  released := []

theorem unknown_hash_unchanged :
    Unchanged noClients (noClients.datagram (fun _ => .other 0) (List.replicate 16 7) false
      (.v4 0xCB007109, 4672) true) :=
  (refused_unchanged_iff (fun _ => .other 0) noClients _ false _ true rfl).mpr fun _ _ =>
    ⟨fun h hh => absurd hh.symm (Option.some_ne_none h),
      fun _ _ _ h hh => absurd hh.symm (Option.some_ne_none h)⟩

/-- One client, silent for a minute. -/
def oneClient : Tables :=
  { noClients with natt := { init 0 with
    clients := Function.update (fun _ => none) (Vector.replicate 16 7)
      (some ⟨0, .v4 0xC6336401, 4662⟩) } }

/-- Sixteen bytes from another address: not accepted, but the client is active again. -/
theorem stranger_keeps_active :
    ¬∀ (readMac : List UInt8 → Mac) (s : Tables) (payload : List UInt8) (isObfuscated : Bool)
      (peer : SocketAddr) (ext : Bool),
      isAccepted readMac s payload isObfuscated peer ext = false →
        Unchanged s (s.datagram readMac payload isObfuscated peer ext) := by
  intro h
  have hactivity := (h (fun _ => .other 0) oneClient (List.replicate 16 7) false
    (.v4 0xCB007109, 4672) true (by decide)).activity
  have hat := congrFun hactivity (Vector.replicate 16 7)
  exact absurd hat (by decide)

end Ed2kServer.Server.KeepaliveFrame
