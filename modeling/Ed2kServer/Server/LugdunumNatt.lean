import Mathlib.Data.Finset.Card
import Ed2kServer.Admission.Bucket
import Ed2kServer.Lib.LittleEndian
import Ed2kServer.Proto.FrameCodec
import Ed2kServer.Server.Login

namespace Ed2kServer.Server.LugdunumNatt

open Ed2kServer.Admission.Bucket Ed2kServer.Lib.LittleEndian Ed2kServer.Proto.FrameCodec
open Ed2kServer.Server.Login Ed2kServer.Slab.Record Ed2kServer.Sources.Address

def SRVCAP_NATTRAVERSAL : UInt32 := 0x1000

def SRVFLG_HOLEPUNCH_EXT : UInt32 := 0x100000

def OP_NAT_CALLBACK_UDP : UInt8 := 0xA7

def OP_NAT_CALLBACK_TCP : UInt8 := 0x37

/-- Times are in nanoseconds. -/
def second : Nat := 1000000000

def UDP_FRESH : Nat := 20 * second

def FOREIGN_MAX_TARGETS : Nat := 60

def FOREIGN_TARGET_WINDOW : Nat := 600 * second

def FOREIGN_WAKES_PER_MIN : Nat := 6

def FOREIGN_WAKE_WINDOW : Nat := 60 * second

abbrev SocketAddr := IpAddr × UInt16

/-- One foreign requester: its allowance, and the targets that it named, with when. -/
structure ForeignSource where
  bucket : TokenBucket
  targets : List (UInt32 × Nat)
  last : Nat
  deriving DecidableEq

inductive Refused
  | disabled
  | notObfuscated
  | short
  | wrongAddress
  | unknownTarget
  | targetHighId
  | targetNotCapable
  | targetGone
  | cryptMismatch
  | foreignDisabled
  | foreignRateLimited
  | foreignTooManyTargets
  | foreignTargetLimited
  deriving DecidableEq

/-- What a request reads of the handle of its target. -/
structure ClientHandle where
  userHash : UserHash
  isHighId : Bool
  serverFlags : UInt32
  ip : IpAddr
  isAlive : Bool

/-- The last request that a client sent itself. -/
structure Seen where
  seenAt : Nat
  addr : SocketAddr
  obf : UInt32 × UInt8
  localPort : UInt16

inductive Forward
  | tcp (target : UserHash) (frame : Frame)
  | udp (addr : SocketAddr) (obf : UInt32 × UInt8) (localPort : UInt16) (packet : List UInt8)
  deriving DecidableEq

structure ForeignAnswer where
  target : UserHash
  sendTo : SocketAddr
  obf : UInt32 × UInt8
  localPort : UInt16
  requesterCrypt : UInt8
  deriving DecidableEq

/-- A datagram: its payload, its sender, the key that decoded it and the port it came in at. -/
structure Request where
  payload : List UInt8
  peer : SocketAddr
  obf : Option (UInt32 × UInt8)
  localPort : UInt16

/-- The rest of the server, as a request finds it. -/
structure View where
  lugdunumNatt : Bool
  holepunchForeign : Bool
  holepunchExtension : Bool
  clientByAssignedId : UInt32 → Option ClientHandle
  lugdunumNattSeen : UserHash → Option Seen
  /-- Has the retry pool room for this pair, and none pending? -/
  tryRetry : Vector UInt8 16 → UInt32 → Bool

structure State where
  now : Nat
  foreignSources : Ipv4 → Option ForeignSource
  foreignWakes : UserHash → Option (List Nat)
  keepaliveWaiters : UserHash → List SocketAddr

def v4 : IpAddr → Option Ipv4
  | .v4 a => some a
  | .v6 a => toIpv4Mapped a

def cryptSetting (serverFlags : UInt32) : UInt8 := ((serverFlags >>> 9) &&& 7).toUInt8

def cryptCompatible (a b : UInt8) : Bool :=
  !((a &&& 4 != 0 && b &&& 1 == 0) || (b &&& 4 != 0 && a &&& 1 == 0))

/-- What describes the peer at `ip` to a reader whose setting is `other`. -/
def body (ip : Ipv4) (port : UInt16) (id : UInt32) (own : UInt8) (hash : Option UserHash)
    (other : UInt8) : Option (List UInt8) :=
  let both := own &&& other &&& 1 != 0
  let asked := (own ||| other) &&& 2 != 0
  let withHash := both && asked && hash.isSome
  if !withHash && (own ||| other) &&& 4 != 0 then none
  else
    some (leBytes 4 ip.toNat ++ leBytes 2 port.toNat ++ leBytes 4 id.toNat ++
      match hash.filter fun _ => withHash with
      | some h => (own ||| 0x80) :: h.toList
      | none => [own])

def wakeBody (ip : Ipv4) (port : UInt16) (id : UInt32) (crypt : UInt8) : List UInt8 :=
  leBytes 4 ip.toNat ++ leBytes 2 port.toNat ++ leBytes 4 id.toNat ++ [crypt]

def extensionEnabled (v : View) : Bool := v.holepunchExtension && v.lugdunumNatt

def hasExtension (v : View) (serverFlags : UInt32) : Bool :=
  let both := SRVFLG_HOLEPUNCH_EXT ||| SRVCAP_NATTRAVERSAL
  extensionEnabled v && serverFlags &&& both == both

def foreignEnabled (v : View) : Bool := v.holepunchForeign && extensionEnabled v

/-- By UDP when the target asked for a callback itself just now, else by TCP. -/
def deliver (v : View) (now : Nat) (target : ClientHandle) (body : List UInt8) : Forward :=
  let fresh := (v.lugdunumNattSeen target.userHash).filter fun s =>
    decide (now - s.seenAt < UDP_FRESH) && v4 s.addr.1 == v4 target.ip
  match fresh with
  | some s => .udp s.addr s.obf s.localPort (0xE3 :: OP_NAT_CALLBACK_UDP :: body)
  | none => .tcp target.userHash ⟨OP_NAT_CALLBACK_TCP, body⟩

namespace Request

def targetId (r : Request) : UInt32 := UInt32.ofNat (ofLeBytes (r.payload.take 4))

def requesterCrypt (r : Request) : UInt8 := r.payload.getD 8 0 &&& 7

end Request

/-- What a request is checked for before its source is: it yields the key of its datagram and
the address of its sender. -/
def readRequest (v : View) (r : Request) : Except Refused ((UInt32 × UInt8) × Ipv4) :=
  if !v.lugdunumNatt then .error .disabled
  else if !foreignEnabled v then .error .foreignDisabled
  else
    match r.obf with
    | none => .error .notObfuscated
    | some obf =>
      if r.payload.length < 8 then .error .short
      else
        match v4 r.peer.1 with
        | none => .error .wrongAddress
        | some ip => .ok (obf, ip)

namespace ForeignSource

def new (now : Nat) : ForeignSource := ⟨.new 1 10 now, [], now⟩

/-- Nothing left to remember. -/
def idle (src : ForeignSource) (now : Nat) : Bool := FOREIGN_TARGET_WINDOW ≤ now - src.last

/-- Charge the source, and note the target that it names. -/
def check (src : ForeignSource) (targetId : UInt32) (now : Nat) : Option Refused × ForeignSource :=
  let (taken, bucket) := src.bucket.take 1 now
  let src := { src with bucket := bucket, last := now }
  if !taken then (some .foreignRateLimited, src)
  else
    let targets := src.targets.filter fun t => now - t.2 < FOREIGN_TARGET_WINDOW
    if targetId ∉ targets.map Prod.fst ∧ FOREIGN_MAX_TARGETS ≤ targets.length then
      (some .foreignTooManyTargets, { src with targets := targets })
    else
      let others := targets.filter fun t => t.1 != targetId
      (none, { src with targets := (targetId, now) :: others })

end ForeignSource

/-- The client that is to be woken, whether it has the extension, and what it is told. -/
def findTarget (v : View) (r : Request) (ip : Ipv4) :
    Except Refused (ClientHandle × Bool × List UInt8) :=
  match v.clientByAssignedId r.targetId with
  | none => .error .unknownTarget
  | some target =>
    if target.isHighId then .error .targetHighId
    else if target.serverFlags &&& SRVCAP_NATTRAVERSAL = 0 then .error .targetNotCapable
    else if !target.isAlive then .error .targetGone
    else
      let targetCrypt := cryptSetting target.serverFlags
      let extension := hasExtension v target.serverFlags
      if extension then
        if !cryptCompatible r.requesterCrypt targetCrypt then .error .cryptMismatch
        else .ok (target, extension, wakeBody ip r.peer.2 0 r.requesterCrypt)
      else
        match body ip r.peer.2 0 r.requesterCrypt none targetCrypt with
        | none => .error .cryptMismatch
        | some body => .ok (target, extension, body)

/-- Forget the wake-ups that are a minute old, and note one more if there is room for it. -/
def noteWake (wakes : List Nat) (now : Nat) : Bool × List Nat :=
  let wakes := wakes.dropWhile fun t => decide (FOREIGN_WAKE_WINDOW ≤ now - t)
  if FOREIGN_WAKES_PER_MIN ≤ wakes.length then (false, wakes) else (true, wakes ++ [now])

/-- The key of a foreign requester in the retry pool. -/
def pseudo (ip : Ipv4) (port : UInt16) : Vector UInt8 16 :=
  ⟨(leBytes 4 ip.toNat ++ leBytes 2 port.toNat ++ List.replicate 10 0xFF).toArray, by simp⟩

/-- A request from a client that is not logged in here. -/
def handleForeign (v : View) (s : State) (r : Request) :
    Except Refused (Forward × Option ForeignAnswer) × State :=
  match readRequest v r with
  | .error e => (.error e, s)
  | .ok (obf, ip) =>
    let checked := ((s.foreignSources ip).getD (.new s.now)).check r.targetId s.now
    let s := { s with foreignSources := Function.update s.foreignSources ip (some checked.2) }
    match checked.1 with
    | some e => (.error e, s)
    | none =>
      match findTarget v r ip with
      | .error e => (.error e, s)
      | .ok (target, extension, body) =>
        let noted := noteWake ((s.foreignWakes target.userHash).getD []) s.now
        let s := { s with
          foreignWakes := Function.update s.foreignWakes target.userHash (some noted.2) }
        if !noted.1 then (.error .foreignTargetLimited, s)
        else
          let forward := deliver v s.now target body
          if extension && v.tryRetry (pseudo ip r.peer.2) r.targetId then
            let waiters := s.keepaliveWaiters target.userHash ++ [r.peer]
            (.ok (forward, some ⟨target.userHash, r.peer, obf, r.localPort, r.requesterCrypt⟩),
              { s with
                keepaliveWaiters := Function.update s.keepaliveWaiters target.userHash waiters })
          else (.ok (forward, none), s)

/-- What a request is answered with: what is forwarded, and the answer that its sender is owed
once the target has spoken. -/
def handleNatCallback (v : View) (s : State) (r : Request) :
    List Forward × Option ForeignAnswer × State :=
  match handleForeign v s r with
  | (.ok (forward, answer), s) => ([forward], answer, s)
  | (.error _, s) => ([], none, s)

/-- What came of a request, and when. -/
structure Record where
  time : Nat
  view : View
  request : Request
  result : Except Refused (Forward × Option ForeignAnswer)

def recordOf (s : State) (v : View) (r : Request) : Record :=
  ⟨s.now, v, r, (handleForeign v s r).1⟩

structure History where
  state : State
  /-- The latest first. -/
  log : List Record

inductive Event
  | tick (d : Nat)
  | request (v : View) (r : Request)
  | sweepSource (ip : Ipv4)
  | sweepWakes (target : UserHash)

def step (h : History) : Event → History
  | .tick d => { h with state := { h.state with now := h.state.now + d } }
  | .request v r =>
    ⟨(handleForeign v h.state r).2, recordOf h.state v r :: h.log⟩
  | .sweepSource ip =>
    let s := h.state
    { h with state := { s with
      foreignSources := Function.update s.foreignSources ip
        ((s.foreignSources ip).filter fun src => !src.idle s.now) } }
  | .sweepWakes target =>
    let s := h.state
    { h with state := { s with
      foreignWakes := Function.update s.foreignWakes target
        ((s.foreignWakes target).filter fun wakes =>
          wakes.getLast?.any fun t => decide (s.now - t < FOREIGN_WAKE_WINDOW)) } }

/-- Nothing has been asked yet. -/
def start (now : Nat) : History :=
  ⟨⟨now, fun _ => none, fun _ => none, fun _ => []⟩, []⟩

/-- The source check or one before it refused the request. -/
def Refused.bySource : Refused → Bool
  | .disabled | .foreignDisabled | .notObfuscated | .short | .wrongAddress => true
  | .foreignRateLimited | .foreignTooManyTargets => true
  | _ => false

def passedSource {α : Type} : Except Refused α → Bool
  | .ok _ => true
  | .error e => !e.bySource

namespace Record

/-- A request from the address passed the source check. -/
def passed (e : Record) (ip : Ipv4) : Bool :=
  v4 e.request.peer.1 == some ip && passedSource e.result

/-- The client was woken. -/
def woke (e : Record) (target : UserHash) : Bool :=
  (e.view.clientByAssignedId e.request.targetId).any (fun c => c.userHash == target) &&
    e.result.isOk

end Record

variable {v : View} {s : State} {r : Request} {h : History} {ip : Ipv4}

theorem readRequest_error {e : Refused} (he : readRequest v r = .error e) :
    e.bySource = true := by
  simp only [readRequest] at he
  grind [Refused.bySource]

theorem readRequest_ok {obf : UInt32 × UInt8} (ho : readRequest v r = .ok (obf, ip)) :
    v4 r.peer.1 = some ip := by
  simp only [readRequest] at ho
  grind

theorem findTarget_error {e : Refused} (he : findTarget v r ip = .error e) :
    e.bySource = false := by
  simp only [findTarget] at he
  grind [Refused.bySource]

theorem findTarget_ok {target : ClientHandle} {extension : Bool} {body : List UInt8}
    (ho : findTarget v r ip = .ok (target, extension, body)) :
    v.clientByAssignedId r.targetId = some target := by
  simp only [findTarget] at ho
  grind

namespace ForeignSource

variable {src : ForeignSource} {targetId : UInt32} {now : Nat}

theorem check_error {e : Refused} (he : (src.check targetId now).1 = some e) :
    e.bySource = true := by
  simp only [check] at he
  grind [Refused.bySource]

theorem check_bucket : (src.check targetId now).2.bucket = (src.bucket.take 1 now).2 := by
  simp only [check]
  grind

theorem check_last : (src.check targetId now).2.last = now := by
  simp only [check]
  grind

/-- A request that passes is charged for. -/
theorem take_of_check (hc : (src.check targetId now).1 = none) :
    (src.bucket.take 1 now).1 = true := by
  simp only [check] at hc
  grind

end ForeignSource

/-- What a request does to the sources, and whether it passes their check. -/
theorem handleForeign_sources (v : View) (s : State) (r : Request) :
    (handleForeign v s r).2.foreignSources = s.foreignSources ∧
        passedSource (handleForeign v s r).1 = false ∨
      ∃ ip checked, v4 r.peer.1 = some ip ∧
        checked = ((s.foreignSources ip).getD (.new s.now)).check r.targetId s.now ∧
        (handleForeign v s r).2.foreignSources =
          Function.update s.foreignSources ip (some checked.2) ∧
        passedSource (handleForeign v s r).1 = checked.1.isNone := by
  rw [handleForeign]
  cases hread : readRequest v r with
  | error e => exact .inl ⟨rfl, by simp [passedSource, readRequest_error hread]⟩
  | ok read =>
    obtain ⟨obf, ip⟩ := read
    refine .inr ⟨ip, _, readRequest_ok hread, rfl, ?_⟩
    dsimp only
    cases hcheck : (((s.foreignSources ip).getD (.new s.now)).check r.targetId s.now).1 with
    | some e => exact ⟨rfl, by simp [passedSource, ForeignSource.check_error hcheck]⟩
    | none =>
      cases hfind : findTarget v r ip with
      | error e => exact ⟨rfl, by simp [passedSource, findTarget_error hfind]⟩
      | ok found =>
        dsimp only
        split_ifs <;> exact ⟨rfl, rfl⟩

/-- What a request does to the wake-ups, and whether it is one. -/
theorem handleForeign_wakes (v : View) (s : State) (r : Request) :
    (handleForeign v s r).2.foreignWakes = s.foreignWakes ∧
        (handleForeign v s r).1.isOk = false ∨
      ∃ target noted, v.clientByAssignedId r.targetId = some target ∧
        noted = noteWake ((s.foreignWakes target.userHash).getD []) s.now ∧
        (handleForeign v s r).2.foreignWakes =
          Function.update s.foreignWakes target.userHash (some noted.2) ∧
        (handleForeign v s r).1.isOk = noted.1 := by
  rw [handleForeign]
  cases hread : readRequest v r with
  | error e => exact .inl ⟨rfl, rfl⟩
  | ok read =>
    obtain ⟨obf, ip⟩ := read
    dsimp only
    cases hcheck : (((s.foreignSources ip).getD (.new s.now)).check r.targetId s.now).1 with
    | some e => exact .inl ⟨rfl, rfl⟩
    | none =>
      cases hfind : findTarget v r ip with
      | error e => exact .inl ⟨rfl, rfl⟩
      | ok found =>
        refine .inr ⟨found.1, _, findTarget_ok hfind, rfl, ?_⟩
        dsimp only
        split_ifs with hnoted hretry <;>
          exact ⟨rfl, by simpa [Except.isOk, Except.toBool] using hnoted⟩

theorem handleForeign_now (v : View) (s : State) (r : Request) :
    (handleForeign v s r).2.now = s.now := by
  rw [handleForeign]
  grind

/-- A refused request leaves no one to wait. -/
theorem handleForeign_waiters {e : Refused} (he : (handleForeign v s r).1 = .error e) :
    (handleForeign v s r).2.keepaliveWaiters = s.keepaliveWaiters := by
  rw [handleForeign] at he ⊢
  grind

theorem handleNatCallback_error {e : Refused} (he : (handleForeign v s r).1 = .error e) :
    handleNatCallback v s r = ([], none, (handleForeign v s r).2) := by
  rw [handleNatCallback]
  cases hres : handleForeign v s r with
  | mk result t =>
    rw [hres] at he
    dsimp only at he
    subst he
    rfl

end Ed2kServer.Server.LugdunumNatt
