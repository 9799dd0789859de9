import Ed2kServer.Server.IdentityProbe
import Ed2kServer.Server.LowId
import Ed2kServer.Text.IpAddress

namespace Ed2kServer.Server.HighId

open Ed2kServer.Lib.Transition Ed2kServer.Proto.DhHandshake Ed2kServer.Proto.Obfuscation
  Ed2kServer.Server.IdentityProbe Ed2kServer.Server.LowId Ed2kServer.Server.ObfuscatedConn
  Ed2kServer.Slab.Record Ed2kServer.Sources.Address Ed2kServer.Text.IpAddress
  Ed2kServer.Text.Lines

/-- The ids below are LowIDs. -/
def LOWID_CEILING : UInt32 := 0x01000000

def SRVCAP_SUPPORTCRYPT : UInt32 := 0x0200

def octets (a : Ipv4) : List Nat := (List.range 4).map (octet a)

def isPrivate (a : Ipv4) : Bool :=
  octet a 0 == 10 || (octet a 0 == 172 && 16 ≤ octet a 1 && octet a 1 ≤ 31) ||
    (octet a 0 == 192 && octet a 1 == 168)

def isLoopback : IpAddr → Bool
  | .v4 a => octet a 0 == 127
  | .v6 a => a.toList == List.replicate 15 0 ++ [1]

def isLinkLocal (a : Ipv4) : Bool := octet a 0 == 169 && octet a 1 == 254

def isIpv6 : IpAddr → Bool
  | .v4 _ => false
  | .v6 _ => true

/-- Is it an IPv4 address of a private network? -/
def isPrivatePeer : IpAddr → Bool
  | .v4 a => isPrivate a
  | .v6 _ => false

/-- The octets read as a little-endian number, unless that is a LowID. -/
def highIdFromIp : IpAddr → Option UInt32
  | .v4 a => (some (ofOctets (octets a))).filter (LOWID_CEILING ≤ ·)
  | .v6 _ => none

def isRoutable : IpAddr → Bool
  | .v4 a => !isLoopback (.v4 a) && !isPrivate a && !isLinkLocal a && a != 0 && a != 0xFFFFFFFF
  | .v6 _ => false

/-- The bytes 5 and 14 mark the software. -/
def sameClientHash (a b : UserHash) : Bool :=
  (List.finRange 16).all fun i => i == 5 || i == 14 || a.get i == b.get i

/-- The settings the assignment reads. -/
structure Config where
  highidDowngradeOnWrongHash : Bool
  hairpinLanClients : Bool
  thisIp : Str
  tcpPort : UInt16

/-- A login, as far as its id depends on it. -/
structure Request where
  peerIp : IpAddr
  clientPort : UInt16
  loginUserHash : Option UserHash
  clientFlags : UInt32

/-- What the assignment meets while it runs. -/
structure World where
  /-- A probe may run. -/
  probePermit : Bool
  /-- The bare connection of the reachability probe is accepted. -/
  connects : IpAddr → UInt16 → Bool
  isMarked : IpAddr → UInt16 → UserHash → Bool
  /-- Who is behind the address and port, for an obfuscated dial and for one in the clear. -/
  dial : IpAddr → UInt16 → Bool → Peer
  draws : Draws
  /-- The setting of the moment at which a LowID is drawn. -/
  lugdunumNatt : Bool

structure Assigned where
  id : UInt32
  high : Bool
  ip : IpAddr

variable (md5 : List UInt8 → Digest) (arrived : Arrivals) (resolveSeckey : Config → Digest)
  (cfg : Config) (w : World) (r : Request)

def serverPseudoUserHash (seckey : Digest) : UserHash :=
  let digest := md5 (utf8 "ed2k-server-probe-identity".toList ++ seckey.toList)
  (digest.setIfInBounds 5 0x0E).setIfInBounds 14 0x6F

def probe (ip : IpAddr) (port : UInt16) : Bool := isRoutable ip && w.connects ip port

def probeIdentity (p : Peer) (d : Draws) (expectedUserHash ourUserHash : UserHash)
    (ourId : UInt32) (ourPort : UInt16) (obfuscate : Bool) : Except String Bool :=
  (probeIdentityHash md5 arrived p d expectedUserHash ourUserHash ourId ourPort
    obfuscate).result.map fun answered => sameClientHash answered expectedUserHash

/-- The obfuscated dial failed at the handshake itself. -/
def handshakeFailed : Except String Bool → Bool
  | .ok _ => false
  | .error reason =>
    reason == "obfuscated handshake failed" ||
      reason == "peer closed during obfuscated handshake" ||
      reason == "no crypt answer before timeout"

/-- The request the allocation of a LowID sees. -/
def Request.login : Login := ⟨r.clientFlags, w.lugdunumNatt⟩

def highOrLowId (s : State) (ip : IpAddr) : Option (State × Assigned) :=
  match highIdFromIp ip with
  | some id => some (s, ⟨id, true, ip⟩)
  | none => (allocateLowIdFor s (r.login w)).map fun p => (p.1, ⟨p.2, false, ip⟩)

/-- The hash and the public address to probe for a login from the server's own network. -/
def hairpinTarget : Option (UserHash × Ipv4) :=
  if cfg.hairpinLanClients && !isLoopback r.peerIp then
    match r.loginUserHash, parseIpv4Addr (trim cfg.thisIp) with
    | some hash, some thisIp =>
      if isPrivatePeer r.peerIp && !isPrivate thisIp then some (hash, thisIp) else none
    | _, _ => none
  else none

def hairpinProbe (hash : UserHash) (thisIp : Ipv4) : Except String Bool :=
  let ourId := (highIdFromIp (.v4 thisIp)).getD 0
  let ours := serverPseudoUserHash md5 (resolveSeckey cfg)
  let supportsCrypt := r.clientFlags &&& SRVCAP_SUPPORTCRYPT != 0
  let ask := fun obfuscate => probeIdentity md5 arrived
    (w.dial (.v4 thisIp) r.clientPort obfuscate) w.draws hash ours ourId cfg.tcpPort obfuscate
  let outcome := ask supportsCrypt
  if supportsCrypt && handshakeFailed outcome then ask false else outcome

def assignClientIdFor (s : State) : Option (State × Assigned) :=
  let lowId := (allocateLowIdFor s (r.login w)).map fun p => (p.1, ⟨p.2, false, r.peerIp⟩)
  if isIpv6 r.peerIp then lowId
  else if !isPrivatePeer r.peerIp && !isLoopback r.peerIp && (highIdFromIp r.peerIp).isNone then
    lowId
  else if !w.probePermit then lowId
  else if probe w r.peerIp r.clientPort then
    if cfg.highidDowngradeOnWrongHash &&
        r.loginUserHash.any (w.isMarked r.peerIp r.clientPort) then lowId
    else highOrLowId w r s r.peerIp
  else
    match hairpinTarget cfg r with
    | some (hash, thisIp) =>
      match hairpinProbe md5 arrived resolveSeckey cfg w r hash thisIp with
      | .ok true => highOrLowId w r s (.v4 thisIp)
      | _ => lowId
    | none => lowId

/-- The hairpin probe of the address was answered by the client that logs in, as far as the
marker bytes of its hash do not count. -/
structure Verified (thisIp : Ipv4) : Prop where
  enabled : cfg.hairpinLanClients = true
  own : parseIpv4Addr (trim cfg.thisIp) = some thisIp
  answered : ∃ obfuscate hash answered, r.loginUserHash = some hash ∧
    (w.dial (.v4 thisIp) r.clientPort obfuscate).connect = .accepted ∧
    FirstHello answered (frameText (recvKey md5 w.draws hash obfuscate)
      (w.dial (.v4 thisIp) r.clientPort obfuscate).bytes) ∧
    sameClientHash answered hash = true

/-- A LowID is the allocator's, a HighID the address's. -/
inductive Assignment (s : State) (ip : IpAddr) : State × Assigned → Prop
  | low {t : State} {id : UInt32} (hid : allocateLowIdFor s (r.login w) = some (t, id)) :
    Assignment s ip (t, ⟨id, false, ip⟩)
  | high {a : Ipv4} (hip : ip = .v4 a) (hid : LOWID_CEILING ≤ ofOctets (octets a)) :
    Assignment s ip (s, ⟨ofOctets (octets a), true, ip⟩)

/-- The ways an assignment ends. -/
inductive Ended (s : State) : State × Assigned → Prop
  | unreached {t : State} {id : UInt32} (hid : allocateLowIdFor s (r.login w) = some (t, id)) :
    Ended s (t, ⟨id, false, r.peerIp⟩)
  | reached {p : State × Assigned} (hconnects : w.connects r.peerIp r.clientPort = true)
    (hassigned : Assignment w r s r.peerIp p) : Ended s p
  | hairpin {p : State × Assigned} {thisIp : Ipv4} (hverified : Verified md5 cfg w r thisIp)
    (hassigned : Assignment w r s (.v4 thisIp) p) : Ended s p

theorem highIdFromIp_eq_some {ip : IpAddr} {id : UInt32} (h : highIdFromIp ip = some id) :
    ∃ a, ip = .v4 a ∧ ofOctets (octets a) = id ∧ LOWID_CEILING ≤ id := by
  cases ip with
  | v6 a => cases h
  | v4 a =>
    rw [highIdFromIp, Option.filter_eq_some_iff] at h
    obtain ⟨hid, hceiling⟩ := h
    exact ⟨a, rfl, Option.some.inj hid, of_decide_eq_true hceiling⟩

section Ids

variable {s t : State} {l : Login} {id : UInt32}

theorem lt_ceiling_of_allocated (h : Allocated s l (t, id)) : id < LOWID_CEILING := by
  rw [UInt32.lt_iff_toNat_lt]
  change id.toNat < 0x01000000
  cases h with
  | next id ge lt first parity => omega
  | wrapped odd ge => decide
  | second even => decide

theorem lt_ceiling_of_allocate (hs : InRange s) (h : allocateLowIdFor s l = some (t, id)) :
    id < LOWID_CEILING := by
  obtain ⟨p, hp, hallocated⟩ := allocateLowIdFor_spec hs l
  obtain rfl := Option.some.inj (h.symm.trans hp)
  exact lt_ceiling_of_allocated hallocated

theorem inRange_exec (es : List Login) : ∃ s, exec step .new es = some s ∧ InRange s :=
  exec_total_along (fun _ l hs _ => step_total hs l) inv_new.range
    (along_of_forall State.new (fun _ _ => trivial))

end Ids

variable {md5 arrived resolveSeckey cfg w r}

theorem lowId_total {s : State} (hs : InRange s) :
    ∃ t id, allocateLowIdFor s (r.login w) = some (t, id) := by
  obtain ⟨⟨t, id⟩, hp, -⟩ := allocateLowIdFor_spec hs (r.login w)
  exact ⟨t, id, hp⟩

theorem highOrLowId_spec {s : State} (hs : InRange s) (ip : IpAddr) :
    ∃ p, highOrLowId w r s ip = some p ∧ Assignment w r s ip p := by
  rw [highOrLowId]
  cases hid : highIdFromIp ip with
  | some id =>
    obtain ⟨a, rfl, rfl, hceiling⟩ := highIdFromIp_eq_some hid
    exact ⟨_, rfl, .high rfl hceiling⟩
  | none =>
    obtain ⟨t, id, hp⟩ := lowId_total (r := r) (w := w) hs
    exact ⟨_, by rw [hp]; rfl, .low hp⟩

namespace Assignment

variable {s t : State} {a : Assigned} {ip : IpAddr}

theorem range (hs : InRange s) (h : Assignment w r s ip (t, a)) :
    a.high = true ↔ LOWID_CEILING ≤ a.id := by
  cases h with
  | low hid =>
    have hlt := lt_ceiling_of_allocate hs hid
    exact ⟨fun h => (by cases h), fun hle => absurd hlt (UInt32.not_lt.mpr hle)⟩
  | high hip hid => exact ⟨fun _ => hid, fun _ => rfl⟩

theorem ip_eq (h : Assignment w r s ip (t, a)) : a.ip = ip := by
  cases h <;> rfl

theorem of_high (h : Assignment w r s ip (t, a)) (hhigh : a.high = true) :
    ∃ v4, ip = .v4 v4 ∧ ofOctets (octets v4) = a.id := by
  cases h with
  | low hid => cases hhigh
  | high hip hid => exact ⟨_, hip, rfl⟩

theorem of_low (h : Assignment w r s ip (t, a)) (hhigh : a.high = false) :
    allocateLowIdFor s (r.login w) = some (t, a.id) := by
  cases h with
  | low hid => exact hid
  | high hip hid => cases hhigh

end Assignment

theorem connect_of_ok {p : Peer} {d : Draws} {expected ours hash : UserHash} {ourId : UInt32}
    {ourPort : UInt16} {obfuscate : Bool} (h : (probeIdentityHash md5 arrived p d expected ours
      ourId ourPort obfuscate).result = .ok hash) : p.connect = .accepted := by
  rw [probeIdentityHash] at h
  cases hconnect : p.connect with
  | accepted => rfl
  | refused => rw [hconnect] at h; cases h
  | unreachable => rw [hconnect] at h; cases h
  | timeout => rw [hconnect] at h; cases h

theorem probeIdentity_true {p : Peer} {d : Draws} {expected ours : UserHash} {ourId : UInt32}
    {ourPort : UInt16} {obfuscate : Bool} (h : probeIdentity md5 arrived p d expected ours
      ourId ourPort obfuscate = .ok true) :
    ∃ answered, p.connect = .accepted ∧
      FirstHello answered (frameText (recvKey md5 d expected obfuscate) p.bytes) ∧
      sameClientHash answered expected = true := by
  rw [probeIdentity] at h
  cases hresult : (probeIdentityHash md5 arrived p d expected ours ourId ourPort
      obfuscate).result with
  | error reason => rw [hresult] at h; cases h
  | ok answered =>
    rw [hresult] at h
    have hsound := probe_sound md5 arrived p d expected ours ourId ourPort obfuscate
    exact ⟨answered, connect_of_ok hresult, hsound.2 answered hresult, Except.ok.inj h⟩

theorem hairpinTarget_eq_some {hash : UserHash} {thisIp : Ipv4}
    (h : hairpinTarget cfg r = some (hash, thisIp)) :
    cfg.hairpinLanClients = true ∧ r.loginUserHash = some hash ∧
      parseIpv4Addr (trim cfg.thisIp) = some thisIp := by
  rw [hairpinTarget] at h
  split_ifs at h with henabled
  rw [Bool.and_eq_true] at henabled
  cases hhash : r.loginUserHash with
  | none => rw [hhash] at h; cases h
  | some hash' =>
    cases hown : parseIpv4Addr (trim cfg.thisIp) with
    | none => rw [hhash, hown] at h; cases h
    | some thisIp' =>
      rw [hhash, hown] at h
      simp only at h
      split_ifs at h
      obtain ⟨rfl, rfl⟩ := Prod.mk.inj (Option.some.inj h)
      exact ⟨henabled.1, rfl, rfl⟩

/-- Either dial is enough. -/
theorem verified_of_probe {hash : UserHash} {thisIp : Ipv4}
    (htarget : hairpinTarget cfg r = some (hash, thisIp))
    (h : hairpinProbe md5 arrived resolveSeckey cfg w r hash thisIp = .ok true) :
    Verified md5 cfg w r thisIp := by
  obtain ⟨henabled, hhash, hown⟩ := hairpinTarget_eq_some htarget
  rw [hairpinProbe] at h
  refine ⟨henabled, hown, ?_⟩
  split_ifs at h
  · obtain ⟨answered, hanswer⟩ := probeIdentity_true h
    exact ⟨false, hash, answered, hhash, hanswer⟩
  · obtain ⟨answered, hanswer⟩ := probeIdentity_true h
    exact ⟨_, hash, answered, hhash, hanswer⟩

variable (md5 arrived resolveSeckey cfg w r)

/-- Without a probe that went well the login gets a LowID at its own address. -/
theorem assign_cases {s : State} (hs : InRange s) :
    ∃ p, assignClientIdFor md5 arrived resolveSeckey cfg w r s = some p ∧
      Ended md5 cfg w r s p := by
  obtain ⟨t, id, hlow⟩ := lowId_total (r := r) (w := w) hs
  have hlowId : ∃ p, (allocateLowIdFor s (r.login w)).map
      (fun p => (p.1, (⟨p.2, false, r.peerIp⟩ : Assigned))) = some p ∧
      Ended md5 cfg w r s p :=
    ⟨_, by rw [hlow]; rfl, .unreached hlow⟩
  rw [assignClientIdFor]
  split_ifs with hv6 hzero hpermit hprobe hmarked
  · exact hlowId
  · exact hlowId
  · exact hlowId
  · exact hlowId
  · obtain ⟨p, hp, hassigned⟩ := highOrLowId_spec (w := w) (r := r) hs r.peerIp
    rw [probe, Bool.and_eq_true] at hprobe
    exact ⟨p, hp, .reached hprobe.2 hassigned⟩
  · cases htarget : hairpinTarget cfg r with
    | none => exact hlowId
    | some target =>
      obtain ⟨hash, thisIp⟩ := target
      simp only
      cases houtcome : hairpinProbe md5 arrived resolveSeckey cfg w r hash thisIp with
      | error reason => exact hlowId
      | ok same =>
        cases same with
        | false => exact hlowId
        | true =>
          obtain ⟨p, hp, hassigned⟩ := highOrLowId_spec (w := w) (r := r) hs (.v4 thisIp)
          exact ⟨p, hp, .hairpin (verified_of_probe htarget houtcome) hassigned⟩

/-- A HighID is the address that was probed, and a LowID comes from the allocator. -/
theorem ranges_apart (earlier : List Login) :
    ∃ s t a, exec step .new earlier = some s ∧
      assignClientIdFor md5 arrived resolveSeckey cfg w r s = some (t, a) ∧
      (a.high = true ↔ LOWID_CEILING ≤ a.id) ∧
      (a.high = true → ∃ v4, a.ip = .v4 v4 ∧ ofOctets (octets v4) = a.id ∧
        (a.ip = r.peerIp ∧ w.connects a.ip r.clientPort = true ∨ Verified md5 cfg w r v4)) ∧
      (a.high = false → allocateLowIdFor s (r.login w) = some (t, a.id) ∧
        ((∀ v4, ¬ Verified md5 cfg w r v4) → a.ip = r.peerIp)) := by
  obtain ⟨s, hrun, hs⟩ := inRange_exec earlier
  obtain ⟨⟨t, a⟩, hassign, hend⟩ := assign_cases md5 arrived resolveSeckey cfg w r hs
  refine ⟨s, t, a, hrun, hassign, ?_⟩
  cases hend with
  | unreached hid =>
    exact ⟨Assignment.range hs (.low hid), fun h => (by cases h), fun _ => ⟨hid, fun _ => rfl⟩⟩
  | reached hconnects hassigned =>
    refine ⟨hassigned.range hs, fun hhigh => ?_, fun hhigh => ?_⟩
    · obtain ⟨v4, hip, hid⟩ := hassigned.of_high hhigh
      rw [hassigned.ip_eq]
      exact ⟨v4, hip, hid, .inl ⟨rfl, hconnects⟩⟩
    · exact ⟨hassigned.of_low hhigh, fun _ => hassigned.ip_eq⟩
  | hairpin hverified hassigned =>
    refine ⟨hassigned.range hs, fun hhigh => ?_, fun hhigh => ?_⟩
    · obtain ⟨v4, hip, hid⟩ := hassigned.of_high hhigh
      obtain rfl := IpAddr.v4.inj hip
      exact ⟨_, hassigned.ip_eq, hid, .inr hverified⟩
    · exact ⟨hassigned.of_low hhigh, fun hnone => absurd hverified (hnone _)⟩

section Hairpin

variable {md5 arrived resolveSeckey cfg w r}

theorem private_of_target {hash : UserHash} {thisIp : Ipv4}
    (h : hairpinTarget cfg r = some (hash, thisIp)) :
    ∃ a, r.peerIp = .v4 a ∧ isPrivate a = true := by
  rw [hairpinTarget] at h
  split_ifs at h
  split at h
  · split_ifs at h with hprivate
    rw [Bool.and_eq_true] at hprivate
    cases hpeer : r.peerIp with
    | v4 a => exact ⟨a, rfl, by rw [hpeer] at hprivate; exact hprivate.1⟩
    | v6 a => rw [hpeer] at hprivate; cases hprivate.1
  · cases h

/-- A login from a private network is recorded under the public address once it is verified. -/
theorem assign_hairpin {s : State} {hash : UserHash} {thisIp : Ipv4}
    (hpermit : w.probePermit = true) (htarget : hairpinTarget cfg r = some (hash, thisIp))
    (houtcome : hairpinProbe md5 arrived resolveSeckey cfg w r hash thisIp = .ok true) :
    assignClientIdFor md5 arrived resolveSeckey cfg w r s = highOrLowId w r s (.v4 thisIp) := by
  obtain ⟨a, hpeer, hprivate⟩ := private_of_target htarget
  have hprobe : probe w r.peerIp r.clientPort = false := by
    rw [hpeer, probe, isRoutable, hprivate]
    simp
  rw [assignClientIdFor, hprobe, hpermit, htarget]
  simp [houtcome, hpeer, isIpv6, isPrivatePeer, hprivate]

end Hairpin

def loginHash : UserHash := Vector.replicate 16 7

/-- The hash of the login with another byte for the software. -/
def markedHash : UserHash := loginHash.setIfInBounds 5 0x4D

def sampleConfig (thisIp : Str) : Config := ⟨false, true, thisIp, 4661⟩

/-- A login from 192.168.1.5. -/
def sampleRequest : Request := ⟨.v4 0x0501A8C0, 4662, some loginHash, 0⟩

/-- Everywhere answers this hello, to a dial in the clear only. -/
def sampleWorld (hello : Hello) : World where
  probePermit := true
  connects _ _ := false
  isMarked _ _ _ := false
  dial _ _ obfuscate :=
    if obfuscate then ⟨.refused, .done, .done, [], .stalled⟩ else samplePeer hello.bytes
  draws := sampleDraws
  lugdunumNatt := false

def sampleMd5 : List UInt8 → Digest := fun _ => Vector.replicate 16 0

def sampleAssign (cfg : Config) (hello : Hello) : Option (State × Assigned) :=
  assignClientIdFor sampleMd5 (fun _ => 0) (fun _ => Vector.replicate 16 0) cfg
    (sampleWorld hello) sampleRequest .new

theorem sampleAssign_eq {cfg : Config} {hello : Hello} {thisIp : Ipv4}
    (htarget : hairpinTarget cfg sampleRequest = some (loginHash, thisIp))
    (hlen : hello.body.length + 1 ≤ MAX_SKIP)
    (hsame : sameClientHash hello.hash loginHash = true) :
    sampleAssign cfg hello = highOrLowId (sampleWorld hello) sampleRequest .new (.v4 thisIp) := by
  refine assign_hairpin rfl htarget ?_
  have hbytes : (samplePeer hello.bytes).bytes =
      saying (recvKey sampleMd5 sampleDraws loginHash false) []
        (([] : List OtherFrame).flatMap OtherFrame.bytes ++ (hello.bytes ++ [])) := by
    simp [samplePeer, saying, recvKey]
  have hresult : ∀ ours ourId, (probeIdentityHash sampleMd5 (fun _ => 0) (samplePeer hello.bytes)
      sampleDraws loginHash ours ourId cfg.tcpPort false).result = .ok hello.hash :=
    fun ours ourId => probe_answer _ _ _ _ _ rfl rfl rfl (by decide) (by decide) (by decide)
      hlen hbytes
  change probeIdentity sampleMd5 (fun _ => 0) (samplePeer hello.bytes) sampleDraws loginHash _ _
    cfg.tcpPort false = _
  rw [probeIdentity, hresult, ← hsame]
  rfl

/-- An answer whose hash is marked for other software verifies the login, and a verified login
is recorded under the public address even where that address has no HighID. -/
theorem marked_hash_verified :
    sampleAssign (sampleConfig "203.0.113.7".toList) (.answer markedHash [1, 2, 3, 4]) =
      some (.new, ⟨0x077100CB, true, .v4 0x077100CB⟩) ∧
    (∀ ip obfuscate,
      ((sampleWorld (.answer markedHash [1, 2, 3, 4])).dial ip 4662 obfuscate).connect =
        .accepted →
      ¬ FirstHello loginHash (frameText (recvKey sampleMd5 sampleDraws loginHash obfuscate)
        ((sampleWorld (.answer markedHash [1, 2, 3, 4])).dial ip 4662 obfuscate).bytes)) ∧
    sampleAssign (sampleConfig "203.0.113.0".toList) (.answer loginHash [1, 2, 3, 4]) =
      some (⟨2, 0, []⟩, ⟨1, false, .v4 0x007100CB⟩) := by
  refine ⟨?_, fun ip obfuscate haccepted hfirst => ?_, ?_⟩
  · have htarget : hairpinTarget (sampleConfig "203.0.113.7".toList) sampleRequest =
        some (loginHash, 0x077100CB) := by decide
    rw [sampleAssign_eq htarget (by decide) (by decide)]
    rfl
  · cases obfuscate with
    | true => cases haccepted
    | false =>
      have hhash := hfirst.eq_hash (List.append_nil _).symm
      exact absurd hhash (by decide)
  · have htarget : hairpinTarget (sampleConfig "203.0.113.0".toList) sampleRequest =
        some (loginHash, 0x007100CB) := by decide
    rw [sampleAssign_eq htarget (by decide) (by decide)]
    rfl

end Ed2kServer.Server.HighId
