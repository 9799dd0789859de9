import Ed2kServer.Slab.Record
import Ed2kServer.Text.Lines
import Ed2kServer.Text.Utf8

namespace Ed2kServer.Filter.Loaders

open Ed2kServer.Slab.Record Ed2kServer.Text.Lines Ed2kServer.Text.Utf8

def hexValue (c : Char) : UInt8 :=
  if c.isDigit then UInt8.ofNat (c.toNat - '0'.toNat)
  else if 'a' ≤ c then UInt8.ofNat (c.toNat - 'a'.toNat + 10)
  else UInt8.ofNat (c.toNat - 'A'.toNat + 10)

/-- `hex::decode`: pairs of hex digits. -/
def hexDecode : Str → Option (List UInt8)
  | [] => some []
  | [_] => none
  | a :: b :: rest =>
    if isHexDigit a && isHexDigit b then
      (hexDecode rest).map ((hexValue a * 16 + hexValue b) :: ·)
    else none

/-- A hash of exactly 16 bytes. -/
def toHash (bytes : List UInt8) : Option FileHash :=
  if bytes.length = 16 then some (Vector.ofFn fun i => bytes.getD i 0) else none

/-- An empty line, or a comment of the list files. -/
def isSkipped (trimmed : Str) : Bool := trimmed.isEmpty || trimmed.head? == some '#'

/-- The hash the loader takes from a line of a hash list. -/
def hashOfEntry (line : Str) : Option FileHash :=
  let trimmed := trim line
  if isSkipped trimmed then none
  else (hexDecode (trim (trimmed.takeWhile (· ≠ ';')))).bind toHash

def hashesOf (content : Str) : List FileHash := (lines content).filterMap hashOfEntry

def loadHashFile (bytes : List UInt8) : List FileHash := hashesOf (fromUtf8Lossy bytes)

def loadTermsFile (bytes : List UInt8) : List Str :=
  ((lines (fromUtf8Lossy bytes)).map trim).filter (! isSkipped ·)

/-- Octets in decimal, with leading zeros or without. -/
def ipToU32 (s : Str) : Option UInt32 := do
  let parts := s.splitOn '.'
  if parts.length ≠ 4 then none
  else
    let octets ← parts.mapM (parseUnsigned 255)
    return octets.foldl (fun n octet => (n <<< 8) ||| UInt32.ofNat octet) 0

/-- The layout of `.p2p`: the range stands after the last colon. -/
def parseP2p (line : Str) : Option (UInt32 × UInt32) := do
  let range := trim (match splitLast ':' line with
    | some (_, after) => after
    | none => line)
  let (start, stop) ← splitLast '-' range
  return (← ipToU32 (trim start), ← ipToU32 (trim stop))

/-- A range line in the layout of `ipfilter.dat`, or else of `.p2p`. -/
def parseLine (line : Str) : Option (UInt32 × UInt32) :=
  let dat := do
    let (before, rest) ← splitFirst [' ', '-', ' '] line
    let stop := match splitFirst [' ', ',', ' '] rest with
      | some (stop, _) => stop
      | none => rest
    return (← ipToU32 (trim before), ← ipToU32 (trim stop))
  dat <|> parseP2p line

/-- The ranges of the IP filter, before they are sorted and merged. -/
def loadIpFilter (bytes : List UInt8) : List (UInt32 × UInt32) :=
  (((lines (fromUtf8Lossy bytes)).map trim).filter (! isSkipped ·)).filterMap parseLine

structure CountryRange where
  start : UInt32
  stop : UInt32
  code : UInt8 × UInt8
  name : Str
  deriving DecidableEq

def parseU32 (s : Str) : Option UInt32 := (parseUnsigned (2 ^ 32 - 1) s).map UInt32.ofNat

/-- A row of the country table; `upper` is the upper case of a character. -/
def countryRow (upper : Char → Str) (line : Str) : Option CountryRange :=
  match splitn 4 ',' line with
  | [start, stop, code, name] => do
    let start ← parseU32 (trim start)
    let stop ← parseU32 (trim stop)
    match utf8 ((trim code).flatMap upper) with
    | a :: b :: _ => some ⟨start, stop, (a, b), trim name⟩
    | _ => none
  | _ => none

/-- The ranges of the country table, before they are sorted. -/
def loadCsv (upper : Char → Str) (bytes : List UInt8) : List CountryRange :=
  (((lines (fromUtf8Lossy bytes)).map trim).filter (! isSkipped ·)).filterMap (countryRow upper)

end Ed2kServer.Filter.Loaders
