import Ed2kServer.Publish.Files

namespace Ed2kServer.Publish.OfferFiles

open Ed2kServer.Text.Chars
open Ed2kServer.Slab.Record Ed2kServer.Slab.Store Ed2kServer.Slab.MediaFields
open Ed2kServer.Slab.Codecs Ed2kServer.Sources.Address Ed2kServer.Publish.Files

def SELF_INCOMPLETE_ID : UInt32 := 0xFCFCFCFC

def SELF_INCOMPLETE_PORT : UInt16 := 0xFCFC

inductive Layer
  | l1Jargon
  | l2AgePattern
  | l3HashBlock
  | l4Extra
  | l5Poison
  deriving DecidableEq

/-- A decoy says nothing about the client that offers it. -/
def Layer.countsAgainstPublisher (l : Layer) : Bool := l != .l5Poison

inductive FilterResult
  | allow
  | block (layer : Layer)
  deriving DecidableEq

structure MediaTags where
  length : Option UInt32
  bitrate : Option UInt32
  codec : Option Str

def MediaTags.any (m : MediaTags) : Bool :=
  m.length.isSome || m.bitrate.isSome || m.codec.isSome

def MediaTags.toMedia (m : MediaTags) (codecs : CodecInner) : CodecInner × Media :=
  let (codecs, codec) := match m.codec with
    | some name => codecs.intern name
    | none => (codecs, 0)
  (codecs, Media.new (m.length.getD 0) (m.bitrate.getD 0) codec)

structure OfferedFile where
  hash : FileHash
  clientId : UInt32
  port : UInt16
  filename : Str
  size : UInt64
  media : MediaTags

/-- A connection's limits, as told to the client at login. -/
structure OfferPolicy where
  soft : UInt32

structure ClientHandle where
  userHash : UserHash
  ip : IpAddr
  port : UInt16
  offerPolicy : Option OfferPolicy
  csamAttempts : UInt32
  softLimitWarned : Bool

structure Limits where
  softLimitFiles : UInt32
  maxStringSize : UInt32

structure ContentFilterConfig where
  publisherAttemptDisconnectThreshold : UInt32
  countWindow : Nat
  banTtl : Nat

/-- What a record finds at its turn: the clocks, and the live filter settings. -/
structure Moment where
  nowSecs : UInt32
  instant : Nat
  contentFilter : ContentFilterConfig

/-- The blocked files of a user with the instants they were caught, and the last of these. -/
structure CsamRecord where
  files : List (FileHash × Nat)
  last : Nat

structure Server where
  files : FileStore
  csamFilesByUser : UserHash → Option CsamRecord
  bannedPublishers : UserHash → Option Nat
  /-- The counters in the table of clients. -/
  csamAttempts : UserHash → Option UInt32

/-- The characters of `s` that end within its first `n` bytes. -/
def takeBytes : Nat → Str → Str
  | _, [] => []
  | n, c :: s => if c.utf8Size ≤ n then c :: takeBytes (n - c.utf8Size) s else []

def capString (s : Str) (maxBytes : UInt32) : Str :=
  if maxBytes = 0 ∨ (utf8 s).length ≤ maxBytes.toNat then s else takeBytes maxBytes.toNat s

def Server.recordCsamFileForUser (s : Server) (user : UserHash) (file : FileHash) (m : Moment) :
    Server × Bool :=
  let r := (s.csamFilesByUser user).getD ⟨[], m.instant⟩
  let kept := if m.contentFilter.banTtl < m.instant - r.last then [] else r.files
  let files := if (kept.lookup file).isSome then kept else kept ++ [(file, m.instant)]
  let counted := files.countP (fun c => m.instant - c.2 ≤ m.contentFilter.countWindow)
  ({ s with csamFilesByUser := Function.update s.csamFilesByUser user (some ⟨files, m.instant⟩) },
    m.contentFilter.publisherAttemptDisconnectThreshold < UInt32.ofNat counted)

def Server.banPublisher (s : Server) (user : UserHash) (m : Moment) : Server :=
  { s with bannedPublishers := Function.update s.bannedPublishers user (some m.instant) }

def Server.updateClient (s : Server) (client : ClientHandle) : Server :=
  let attempts := (s.csamAttempts client.userHash).map (fun _ => client.csamAttempts)
  { s with csamAttempts := Function.update s.csamAttempts client.userHash attempts }

/-- A batch between two of its records. -/
structure Progress where
  server : Server
  client : ClientHandle
  accepted : UInt32
  blocked : UInt32
  overLimit : UInt32
  sourced : Nat

/-- `saturating_add` of 1. -/
def saturatingSucc (n : UInt32) : UInt32 := if n = 0xFFFFFFFF then n else n + 1

/-- A record the filter rejected at this layer; `true` when it ends the batch. -/
def blockRecord (p : Progress) (hash : FileHash) (layer : Layer) (m : Moment) : Progress × Bool :=
  if layer.countsAgainstPublisher then
    let client := { p.client with csamAttempts := saturatingSucc p.client.csamAttempts }
    let (server, ban) := p.server.recordCsamFileForUser client.userHash hash m
    if ban then
      ({ p with
        server := (server.banPublisher client.userHash m).updateClient client
        client := client
        blocked := p.blocked + 1 }, true)
    else ({ p with server := server, client := client, blocked := p.blocked + 1 }, false)
  else ({ p with blocked := p.blocked + 1 }, false)

variable (U : Unicode) (check : FileHash → Str → FilterResult) (softLimit : Nat)
  (maxString : UInt32)

/-- The source the record publishes. -/
def offeredSource (client : ClientHandle) (file : OfferedFile) : Source :=
  Source.new client.userHash client.ip client.port
    (!(file.clientId = SELF_INCOMPLETE_ID && file.port = SELF_INCOMPLETE_PORT))

def storeMedia (f : FileStore) (hash : FileHash) (media : MediaTags) : Option FileStore :=
  if media.any then do
    let slab ← mergeMedia f.fileSlab hash (media.toMedia f.codecs).2
    return { f with fileSlab := slab, codecs := (media.toMedia f.codecs).1 }
  else some f

/-- A record within the limit: indexed, and counted again. -/
def acceptRecord (p : Progress) (file : OfferedFile) (m : Moment) : Option Progress := do
  let files ← p.server.files.addFileWithSource U m.nowSecs file.hash file.size
    (capString file.filename maxString) (offeredSource p.client file)
  let files ← storeMedia files file.hash file.media
  let server := Server.updateClient { p.server with files := files } p.client
  return { p with
    server := server
    accepted := p.accepted + 1
    sourced := if 0 < softLimit then files.layerCount p.client.userHash else p.sourced }

/-- Past the limit only a refresh of a file the user sources is accepted. -/
def overSoftLimit (p : Progress) (hash : FileHash) : Option Bool :=
  if 0 < softLimit ∧ softLimit ≤ p.sourced then
    (p.server.files.alreadySources p.client.userHash hash).map (!·)
  else some false

/-- One round of the loop; `true` when the batch ends with it. -/
def offerRecord (p : Progress) (file : OfferedFile) (m : Moment) : Option (Progress × Bool) :=
  match check file.hash file.filename with
  | .block layer => some (blockRecord p file.hash layer m)
  | .allow => do
    if ← overSoftLimit softLimit p file.hash then
      return ({ p with overLimit := p.overLimit + 1 }, false)
    else
      let p ← acceptRecord U softLimit maxString p file m
      return (p, false)

def offerRecords (p : Progress) : List (OfferedFile × Moment) → Option Progress
  | [] => some p
  | (file, m) :: rest => do
    let (p, stop) ← offerRecord U check softLimit maxString p file m
    if stop then return p else offerRecords p rest

/-- The limit of this session: the one it was told, or the live one. -/
def softLimitOf (limits : Limits) (client : ClientHandle) : Nat :=
  match client.offerPolicy with
  | some policy => policy.soft.toNat
  | none => limits.softLimitFiles.toNat

def start (s : Server) (limits : Limits) (client : ClientHandle) : Progress :=
  ⟨s, client, 0, 0, 0,
    if 0 < softLimitOf limits client then s.files.layerCount client.userHash else 0⟩

/-- The server and the client after the batch, and the records accepted and blocked. -/
def handleOfferfiles (s : Server) (limits : Limits) (client : ClientHandle)
    (files : List (OfferedFile × Moment)) :
    Option (Server × ClientHandle × UInt32 × UInt32) := do
  let p ← offerRecords U check (softLimitOf limits client) limits.maxStringSize
    (start s limits client) files
  let warned := p.client.softLimitWarned || p.overLimit != 0
  return (p.server, { p.client with softLimitWarned := warned }, p.accepted, p.blocked)

end Ed2kServer.Publish.OfferFiles
