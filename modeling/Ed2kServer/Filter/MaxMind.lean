import Ed2kServer.Filter.Check
import Ed2kServer.Filter.GeoIp
import Ed2kServer.Filter.IpFilter
import Ed2kServer.Lib.BitTrie
import Ed2kServer.Lib.Metered

namespace Ed2kServer.Filter.MaxMind

open Ed2kServer.Filter.Check (fromUtf8)
open Ed2kServer.Filter.GeoIp (toU32)
open Ed2kServer.Filter.IpFilter (decimal)
open Ed2kServer.Lib.BitTrie Ed2kServer.Lib.Metered Ed2kServer.Sources.Address
open Ed2kServer.Server.Login (canon)

def metadataMarker : List UInt8 :=
  [0xAB, 0xCD, 0xEF, 77, 97, 120, 77, 105, 110, 100, 46, 99, 111, 109]

def maxDepth : Nat := 32

def decodeBudget : Nat := 20000

def tPointer : Nat := 1
def tString : Nat := 2
def tU16 : Nat := 5
def tU32 : Nat := 6
def tMap : Nat := 7
def tU64 : Nat := 9
def tU128 : Nat := 10
def tArray : Nat := 11
def tBool : Nat := 14

/-- A value's type, its size field, and where its payload starts. -/
structure Header where
  typ : Nat
  size : Nat
  payload : Nat
  deriving DecidableEq

/-- `usize::checked_add`. -/
def checkedAdd (a b : Nat) : Option Nat := if a + b < 2 ^ 64 then some (a + b) else none

/-- The number of bytes, the highest first. -/
def ofBeBytes (bytes : List UInt8) : Nat := bytes.foldl (fun n b => n * 256 + b.toNat) 0

/-- `buf.get(pos..pos.checked_add(n)?)`. -/
def slice (buf : List UInt8) (pos n : Nat) : Option (List UInt8) :=
  (checkedAdd pos n).bind fun stop =>
    if stop ≤ buf.length then some ((buf.drop pos).take n) else none

/-! The decoder over one section; the budget counts the headers it may still read. -/

section Dec

variable (buf : List UInt8)

def byte (pos : Nat) : Meter Nat := ofOption (buf[pos]?.map UInt8.toNat)

def be (pos n : Nat) : Meter Nat := ofOption ((slice buf pos n).map ofBeBytes)

/-- The size field, which may go on behind the control bytes. -/
def sizeField (sizeBits p : Nat) : Meter (Nat × Nat) :=
  if sizeBits = 29 then do return (29 + (← byte buf p), p + 1)
  else if sizeBits = 30 then do return (285 + (← be buf p 2), p + 2)
  else if sizeBits = 31 then do return (65821 + (← be buf p 3), p + 3)
  else return (sizeBits, p)

/-- The type with the position behind it; an extended one has a byte of its own. -/
def typeField (ctrl p : Nat) : Meter (Nat × Nat) :=
  if ctrl / 32 = 0 then do
    let extended ← byte buf p
    if extended + 7 < 256 then return (7 + extended, p + 1) else fail
  else return (ctrl / 32, p)

/-- The control bytes at `pos`. -/
def rawHeader (pos : Nat) : Meter Header := do
  charge
  let ctrl ← byte buf pos
  let (typ, p) ← typeField buf ctrl (pos + 1)
  if typ = tPointer then return ⟨typ, ctrl % 32, p⟩
  else
    let (size, payload) ← sizeField buf (ctrl % 32) p
    return ⟨typ, size, payload⟩

/-- What a pointer's bits at `p` lead to, and the position behind them. -/
def pointerTarget (size p : Nat) : Meter (Nat × Nat) :=
  let high := size % 8
  if size / 8 % 4 = 0 then do return (high * 256 + (← be buf p 1), p + 1)
  else if size / 8 % 4 = 1 then do return (high * 256 ^ 2 + (← be buf p 2) + 2048, p + 2)
  else if size / 8 % 4 = 2 then do return (high * 256 ^ 3 + (← be buf p 3) + 526336, p + 3)
  else do return (← be buf p 4, p + 4)

/-- The header of the value at `pos`, behind one pointer perhaps, and the position behind the
value where its header says it. -/
def header (pos : Nat) : Meter (Header × Option Nat) := do
  let h ← rawHeader buf pos
  if h.typ = tPointer then
    let (target, after) ← pointerTarget buf h.size h.payload
    let pointee ← rawHeader buf target
    if pointee.typ = tPointer then fail else return (pointee, some after)
  else if h.typ = tMap ∨ h.typ = tArray then return (h, none)
  else if h.typ = tBool then return (h, some h.payload)
  else do return (h, some (← ofOption (checkedAdd h.payload h.size)))

/-- The position behind the value at `pos`, of which so many levels may be entered. -/
def skipWithin : Nat → Nat → Meter Nat
  | 0, _ => fail
  | levels + 1, pos => do
    let (h, stop) ← header buf pos
    match stop with
    | some e => if e ≤ buf.length then return e else fail
    | none => repeated (skipWithin levels) (if h.typ = tMap then h.size * 2 else h.size) h.payload

def skip (pos depth : Nat) : Meter Nat := skipWithin buf (maxDepth + 1 - depth) pos

def string (h : Header) : Option Str :=
  if h.typ = tString then (slice buf h.payload h.size).bind fromUtf8 else none

def uint (h : Header) : Option Nat :=
  if (h.typ = tU16 ∨ h.typ = tU32 ∨ h.typ = tU64 ∨ h.typ = tU128) ∧ h.size ≤ 8 then
    (slice buf h.payload h.size).map ofBeBytes
  else none

/-- The loop over the entries of a map, from the key at `p` on. -/
def findKey (key : Str) : Nat → Nat → Meter Nat
  | 0, _ => fail
  | n + 1, p => do
    let (keyHeader, keyEnd) ← header buf p
    let k ← ofOption (string buf keyHeader)
    let valuePos ← ofOption keyEnd
    if k = key then return valuePos
    else skip buf valuePos 1 >>= findKey key n

/-- The position of the value of `key` in the map at `mapPos`. -/
def mapGetPos (mapPos : Nat) (key : Str) : Meter Nat := do
  let (m, _) ← header buf mapPos
  if m.typ = tMap then findKey buf key m.size m.payload else fail

def mapGet (mapPos : Nat) (key : Str) : Meter Header := do
  let valuePos ← mapGetPos buf mapPos key
  return (← header buf valuePos).1

def mapStr (mapPos : Nat) (key : Str) : Meter Str := do
  let h ← mapGet buf mapPos key
  ofOption (string buf h)

def mapUint (mapPos : Nat) (key : Str) : Meter Nat := do
  let h ← mapGet buf mapPos key
  ofOption (uint buf h)

end Dec

/-- An opened database. -/
structure Mmdb where
  buf : List UInt8
  nodeCount : Nat
  recordSize : Nat
  ipVersion : Nat
  dataStart : Nat
  ipv4Start : Nat
  databaseType : Str
  buildEpoch : Nat

inductive OpenError
  | markerNotFound
  | nodeCountMissing
  | recordSizeMissing
  | ipVersionMissing
  | unsupportedRecordSize (n : Nat)
  | unsupportedIpVersion (n : Nat)
  | nodeCountTooLarge
  | treePastEnd
  | treeTruncated
  deriving DecidableEq

def OpenError.message : OpenError → Str
  | markerNotFound => "not a MaxMind DB file: metadata marker not found".toList
  | nodeCountMissing => "metadata: node_count missing".toList
  | recordSizeMissing => "metadata: record_size missing".toList
  | ipVersionMissing => "metadata: ip_version missing".toList
  | unsupportedRecordSize n => "unsupported record size ".toList ++ decimal n
  | unsupportedIpVersion n => "unsupported ip_version ".toList ++ decimal n
  | nodeCountTooLarge => "node_count too large".toList
  | treePastEnd => "search tree runs past the end of the file".toList
  | treeTruncated => "search tree truncated".toList

/-- The last place where `pattern` stands; it is not empty. -/
def rposition (pattern : List UInt8) : List UInt8 → Option Nat
  | [] => none
  | b :: bytes =>
    match rposition pattern bytes with
    | some i => some (i + 1)
    | none => if pattern.isPrefixOf (b :: bytes) then some 0 else none

/-- A record of node `n`, the right one for `true`. -/
def recordAt (buf : List UInt8) (recordSize n : Nat) (right : Bool) : Option Nat :=
  (slice buf (n * recordSize / 4) (recordSize / 4)).map fun b =>
    let middle := (b.getD 3 0).toNat
    if recordSize = 24 then ofBeBytes ((b.drop (bif right then 3 else 0)).take 3)
    else if recordSize = 28 then
      bif right then middle % 16 * 256 ^ 3 + ofBeBytes ((b.drop 4).take 3)
      else middle / 16 * 256 ^ 3 + ofBeBytes (b.take 3)
    else ofBeBytes ((b.drop (bif right then 4 else 0)).take 4)

def orError {α : Type} (e : OpenError) : Option α → Except OpenError α
  | some a => .ok a
  | none => .error e

/-- The checks of what the metadata says. -/
def assemble (buf : List UInt8) (markerAt nodeCount recordSize ipVersion : Nat)
    (databaseType : Str) (buildEpoch : Nat) : Except OpenError Mmdb :=
  let dataStart := nodeCount * recordSize / 4 + 16
  if ¬(recordSize = 24 ∨ recordSize = 28 ∨ recordSize = 32) then
    .error (.unsupportedRecordSize recordSize)
  else if ¬(ipVersion = 4 ∨ ipVersion = 6) then .error (.unsupportedIpVersion ipVersion)
  else if 2 ^ 32 ≤ nodeCount then .error .nodeCountTooLarge
  else if markerAt < dataStart then .error .treePastEnd
  else
    -- the node behind 96 zero bits, where the way does not end before
    let ipv4Start := if ipVersion = 6 then descend (recordAt buf recordSize) nodeCount 0 96 0
      else some 0
    (orError .treeTruncated ipv4Start).map fun ipv4Start =>
      ⟨buf, nodeCount, recordSize, ipVersion, dataStart, ipv4Start, databaseType, buildEpoch⟩

/-- `Mmdb::from_bytes`. -/
def fromBytes (buf : List UInt8) : Except OpenError Mmdb := do
  let tail := buf.length - 128 * 1024
  let markerAt ← orError .markerNotFound ((rposition metadataMarker (buf.drop tail)).map (tail + ·))
  let metadata := buf.drop (markerAt + metadataMarker.length)
  let read := mapUint metadata 0 "node_count".toList decodeBudget
  let nodeCount ← orError .nodeCountMissing read.1
  let read := mapUint metadata 0 "record_size".toList read.2
  let recordSize ← orError .recordSizeMissing read.1
  let read := mapUint metadata 0 "ip_version".toList read.2
  let ipVersion ← orError .ipVersionMissing read.1
  let databaseType := mapStr metadata 0 "database_type".toList read.2
  let buildEpoch := mapUint metadata 0 "build_epoch".toList databaseType.2
  assemble buf markerAt nodeCount recordSize ipVersion (databaseType.1.getD [])
    (buildEpoch.1.getD 0)

structure GeoRecord where
  countryCode : Option Str
  countryName : Option Str
  asn : Option Str
  asName : Option Str
  deriving DecidableEq

def toAsciiUppercase (s : Str) : Str := s.map Char.toUpper

/-- The country, flat as in IPinfo Lite or in maps of their own as in GeoLite2. -/
def country (buf : List UInt8) (pos : Nat) : Meter (Option Str × Option Str) := do
  match ← attempt (mapStr buf pos "country_code".toList) with
  | some code =>
    return (some (toAsciiUppercase code), ← attempt (mapStr buf pos "country".toList))
  | none =>
    match ← attempt (orElse (mapGetPos buf pos "country".toList)
        (mapGetPos buf pos "registered_country".toList)) with
    | none => return (none, none)
    | some c =>
      let code ← attempt (mapStr buf c "iso_code".toList)
      let name ← attempt (mapGetPos buf c "names".toList >>= fun n => mapStr buf n "en".toList)
      return (code.map toAsciiUppercase, name)

/-- The provider; GeoLite2 has a number and an organization. -/
def provider (buf : List UInt8) (pos : Nat) : Meter (Option Str × Option Str) := do
  let asn ← attempt (mapStr buf pos "asn".toList)
  let asName ← attempt (mapStr buf pos "as_name".toList)
  if asn ≠ none then return (asn, asName)
  let number ← attempt (mapUint buf pos "autonomous_system_number".toList)
  let asName ← if asName ≠ none then pure asName
    else attempt (mapStr buf pos "autonomous_system_organization".toList)
  return (number.map fun n => "AS".toList ++ decimal n, asName)

/-- What the record at `pos` of the data section says; a code has two bytes. -/
def geoRecord (buf : List UInt8) (pos : Nat) : Meter GeoRecord := do
  let (code, name) ← country buf pos
  let (asn, asName) ← provider buf pos
  return ⟨code.filter fun c => (utf8 c).length = 2, name, asn, asName⟩

namespace Mmdb

variable (db : Mmdb)

def record (n : Nat) (right : Bool) : Option Nat := recordAt db.buf db.recordSize n right

/-- The bits of an address, how many they are, and the node to start from. -/
def start (ip : IpAddr) : Option (Nat × Nat × Nat) :=
  match canon ip with
  | .v4 a => some ((toU32 a).toNat, 32, if db.ipVersion = 6 then db.ipv4Start else 0)
  | .v6 a => if db.ipVersion = 6 then some (ofBeBytes a.toList, 128, 0) else none

/-- The offset in the data section of the record for an address. -/
def find (ip : IpAddr) : Option Nat := do
  let (bits, nbits, node) ← db.start ip
  let node ← descend db.record db.nodeCount bits nbits node
  if node ≤ db.nodeCount then none
  else if node - db.nodeCount < 16 then none else some (node - db.nodeCount - 16)

def lookup (ip : IpAddr) : Option GeoRecord :=
  (db.find ip).bind fun pos => (geoRecord (db.buf.drop db.dataStart) pos decodeBudget).1

end Mmdb

end Ed2kServer.Filter.MaxMind
