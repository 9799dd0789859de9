import Ed2kServer.Lib.LittleEndian
import Ed2kServer.Slab.Sources
import Ed2kServer.Sources.Address
import Ed2kServer.Sources.SmartSources

namespace Ed2kServer.Sources.GetSources

open Ed2kServer.Lib.LittleEndian
open Ed2kServer.Slab.Record Ed2kServer.Slab.Store Ed2kServer.Slab.Sources
open Ed2kServer.Sources.Address Ed2kServer.Sources.SmartSources

def MAX_SOURCES_PER_REPLY : Nat := 200

def SOURCE_SCAN : Nat := 4 * MAX_SOURCES_PER_REPLY

def OP_FOUNDSOURCES : UInt8 := 0x42

def OP_FOUNDSOURCES_OBFU : UInt8 := 0x44

structure ClientHandle where
  userHash : UserHash
  assignedId : UInt32
  nattCapable : Bool
  serverFlags : UInt32
  isHighId : Bool
  ipv6Capable : Bool

def reachesLowid (c : ClientHandle) : Bool :=
  c.isHighId || c.nattCapable || c.serverFlags &&& (0x1000 ||| 0x00100000) != 0

def lowidNatt (c : ClientHandle) : Bool :=
  c.nattCapable || c.serverFlags &&& (0x1000 ||| 0x00100000) != 0

/-- The lowest bit of an owner key: a LowID source with NAT traversal. -/
def OWNER_NATT : UInt64 := 1

def IPV6_SOURCE_SENTINEL : UInt32 := 0xFFFFFFFF

structure GetSourcesRequest where
  fileHash : FileHash
  size : Option UInt64
  obfu : Bool

/-- What a source request reads of the server. -/
structure Server where
  fileSlab : FileSlab
  clients : UserHash → Option ClientHandle
  clientIpv6 : UserHash → Option Ipv6
  isWithheldOpt : FileHash → Option Str → Bool
  ipv6PublishSources : Bool
  getsourcesCacheSecs : UInt64

structure Frame where
  opcode : UInt8
  payload : List UInt8
  deriving DecidableEq

def replyOpcode (obfu : Bool) : UInt8 := if obfu then OP_FOUNDSOURCES_OBFU else OP_FOUNDSOURCES

def cryptSetting (serverFlags : UInt32) : UInt8 := ((serverFlags >>> 9) &&& 7).toUInt8

def encodeEmptySources (fileHash : FileHash) : List UInt8 := fileHash.toList ++ [0]

def ownerKey (userHash : UserHash) : UInt64 := hashU64 userHash &&& ~~~OWNER_NATT

/-- Which LowID records a requester is served. -/
inductive Reach
  | all
  | natt
  | none
  deriving DecidableEq

def Reach.of (c : ClientHandle) : Reach :=
  if c.isHighId then .all else if reachesLowid c then .natt else .none

/-- Is a LowID record of this owner key kept? -/
def Reach.keepsLow (owner : UInt64) : Reach → Bool
  | .all => true
  | .natt => owner &&& OWNER_NATT != 0
  | .none => false

/-- The length of the record at `start`: the crypt byte tells whether a user hash follows. -/
def recordLen (payload : List UInt8) (obfu : Bool) (start : Nat) : Option Nat :=
  if obfu then (payload[start + 6]?).map (fun c => if c &&& 0x80 != 0 then 23 else 7) else some 6

/-- The boundaries of the records, one for each owner, to the end of the payload. -/
def recordBounds (payload : List UInt8) (obfu : Bool) :
    Nat → List UInt64 → Option (List (Nat × Nat))
  | start, [] => if start = payload.length then some [] else none
  | start, _ :: owners => do
    let len ← recordLen payload obfu start
    if payload.length < start + len then none
    else
      let rest ← recordBounds payload obfu (start + len) owners
      return (start, start + len) :: rest

/-- The records a requester is served, and their number, of which `n` are there already. -/
def cutRecords (payload : List UInt8) (me : UInt64) (reach : Reach) :
    Nat → List (UInt64 × Nat × Nat) → List UInt8 × Nat
  | n, [] => ([], n)
  | n, (owner, a, b) :: rest =>
    let id := ofLeBytes ((payload.drop a).take 4)
    if owner &&& ~~~OWNER_NATT = me then cutRecords payload me reach n rest
    else if id < 0x01000000 && !reach.keepsLow owner then cutRecords payload me reach n rest
    else if n = MAX_SOURCES_PER_REPLY then ([], n)
    else
      let (records, m) := cutRecords payload me reach (n + 1) rest
      ((payload.drop a).take (b - a) ++ records, m)

/-- Cut a reply for one requester from a shared payload. -/
def withoutOwner (payload : List UInt8) (owners : List UInt64) (me : UInt64) (obfu : Bool)
    (reach : Reach) : List UInt8 :=
  if payload.length < 17 then payload
  else match recordBounds payload obfu 17 owners with
    | none => payload
    | some bounds =>
      let (records, n) := cutRecords payload me reach 0 (owners.zip bounds)
      payload.take 16 ++ [UInt8.ofNat n] ++ records

variable (st : Server)

def sizeMismatch (hash : FileHash) (size : Option UInt64) : Option Bool :=
  match size.filter (· ≠ 0) with
  | none => some false
  | some want => do
    let found ← recordByHash st.fileSlab hash
    return !sizesAgree (found.elim 0 (·.size)) want

/-- The sources of a connected LowID client. -/
def liveLow (s : Source) : Bool := (st.clients s.userHash).any (fun h => !h.isHighId)

/-- HighID and departed sources first, LowID after. -/
def inOrder (sources : List Source) : List Source :=
  sources.filter (fun s => !liveLow st s) ++ sources.filter (liveLow st)

def nattLow (s : Source) : Bool :=
  (st.clients s.userHash).any (fun h => !h.isHighId && lowidNatt h)

/-- The IPv6 address sent to a requester that can parse it. -/
def sourceIpv6 (v6Capable : Bool) (s : Source) : Option Ipv6 :=
  if v6Capable then
    ((st.clientIpv6 s.userHash).filter isPublishableIpv6).filter
      (fun _ => !((st.clients s.userHash).map (·.isHighId)).getD false)
  else none

/-- The id a source is sent under; `none` for a stale one without a public address. -/
def sourceId (v6 : Option Ipv6) (s : Source) : Option UInt32 :=
  let stored := if isPublishableSourceIp (ip s) then some s.ipv4 else none
  match v6, st.clients s.userHash with
  | some _, _ => some IPV6_SOURCE_SENTINEL
  | none, some handle => if !handle.isHighId then some handle.assignedId else stored
  | none, none => stored

def sourceCrypt (userHash : UserHash) : UInt8 :=
  let c := (st.clients userHash).elim 0 (fun h => cryptSetting h.serverFlags)
  if c &&& 1 != 0 then c ||| 0x80 else c

def encodeSource (obfu : Bool) (v6 : Option Ipv6) (id : UInt32) (s : Source) : List UInt8 :=
  let c := sourceCrypt st s.userHash
  leBytes 4 id.toNat ++ leBytes 2 s.port.toNat ++
    (if obfu then c :: (if c &&& 0x80 != 0 then s.userHash.toList else []) else []) ++
    v6.elim [] (·.toList)

/-- The records written so far, their number and their owners. -/
structure Entries where
  entries : List UInt8
  emitted : UInt8
  owners : List UInt64

/-- Write the records of the sources, to the cap. -/
def buildEntries (requester : ClientHandle) (obfu v6Capable : Bool) (b : Entries) :
    List Source → Entries
  | [] => b
  | s :: rest =>
    let v6 := sourceIpv6 st v6Capable s
    if v6Capable && s.userHash == requester.userHash then
      buildEntries requester obfu v6Capable b rest
    else if b.emitted.toNat = (if v6Capable then MAX_SOURCES_PER_REPLY
        else MAX_SOURCES_PER_REPLY + 1) then b
    else if v6Capable && v6.isNone && liveLow st s && !(reachesLowid requester && nattLow st s) then
      buildEntries requester obfu v6Capable b rest
    else match sourceId st v6 s with
      | none => buildEntries requester obfu v6Capable b rest
      | some id =>
        buildEntries requester obfu v6Capable
          ⟨b.entries ++ encodeSource st obfu v6 id s, b.emitted + 1,
            b.owners ++ [ownerKey s.userHash ||| if nattLow st s then OWNER_NATT else 0]⟩ rest

def v6Capable (requester : ClientHandle) : Bool :=
  st.ipv6PublishSources && requester.ipv6Capable && !requester.isHighId

/-- Is the request answered with no sources, for the filter or for the size? -/
def refused (req : GetSourcesRequest) : Option Bool := do
  let withheldName ← recordByHash st.fileSlab req.fileHash
  if st.isWithheldOpt req.fileHash (withheldName.map (·.name)) then return true
  else sizeMismatch st req.fileHash req.size

def sourcesOf (found : Option FileRecord) : List Source := found.elim [] (·.sources)

/-- The payload the requester's path builds, with the owner of each record. -/
def buildPayload (requester : ClientHandle) (req : GetSourcesRequest) :
    Option (List UInt8 × List UInt64) := do
  let found ← recordByHash st.fileSlab req.fileHash
  let sources := inOrder st ((sourcesOf found).take SOURCE_SCAN)
  let b := buildEntries st requester req.obfu (v6Capable st requester) ⟨[], 0, []⟩ sources
  return (req.fileHash.toList ++ [b.emitted] ++ b.entries, b.owners)

/-- The reply to a request, and the cache after it. -/
def handleGetSources (now : Instant) (cache : SmartSourcesCache) (requester : ClientHandle)
    (req : GetSourcesRequest) : Option (Frame × SmartSourcesCache) := do
  let opcode := replyOpcode req.obfu
  if ← refused st req then return (⟨opcode, encodeEmptySources req.fileHash⟩, cache)
  else
    let cache := cache.setTtlSecs st.getsourcesCacheSecs
    let key := (req.fileHash, req.obfu)
    let me := ownerKey requester.userHash
    let reach := Reach.of requester
    if v6Capable st requester then
      let (payload, _) ← buildPayload st requester req
      return (⟨opcode, payload⟩, cache)
    else match cache.getKind now key with
      | some e => return (⟨opcode, withoutOwner e.payload e.owners me req.obfu reach⟩, cache)
      | none =>
        let (payload, owners) ← buildPayload st requester req
        let reply := withoutOwner payload owners me req.obfu reach
        return (⟨opcode, reply⟩, cache.putKind now key payload owners)

end Ed2kServer.Sources.GetSources
