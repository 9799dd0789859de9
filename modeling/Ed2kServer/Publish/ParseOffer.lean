import Ed2kServer.Proto.Tags
import Ed2kServer.Publish.OfferFiles

namespace Ed2kServer.Publish.ParseOffer

open Ed2kServer.Lib.LittleEndian Ed2kServer.Text.Chars
open Ed2kServer.Slab.Record Ed2kServer.Slab.MediaFields
open Ed2kServer.Proto.Tags Ed2kServer.Publish.OfferFiles

/-- A record while its tags are read. -/
structure Draft where
  filename : Str
  sizeLo : UInt32
  sizeHi : UInt32
  media : MediaTags

def Draft.empty : Draft := ⟨[], 0, 0, ⟨none, none, none⟩⟩

/-- The old string names of the media tags are their numbers too. -/
def mediaId : TagName → Option UInt8
  | .byte b => some b
  | .str n =>
    if toAsciiLowercase n = "length".toList then some 0xD3
    else if toAsciiLowercase n = "bitrate".toList then some 0xD4
    else if toAsciiLowercase n = "codec".toList then some 0xD5
    else none

variable (U : Unicode)

def Draft.readMedia (d : Draft) (t : Tag) : Draft :=
  let m := d.media
  if mediaId t.name = some 0xD3 then
    let length := t.asU32.orElse (fun _ => t.strValue.map (parseLengthText U))
    { d with media := { m with length := length.filter (· != 0) } }
  else if mediaId t.name = some 0xD4 then
    { d with media := { m with bitrate := t.asU32.filter (· != 0) } }
  else if mediaId t.name = some 0xD5 then
    { d with media := { m with codec := t.strValue.bind (normalise U) } }
  else d

def Draft.readFile (d : Draft) (t : Tag) : Draft :=
  if t.name = .byte FT_FILENAME then { d with filename := t.strValue.getD d.filename }
  else if t.name = .byte FT_FILESIZE then
    match t.asU32, t.asU64 with
    | some v, _ => { d with sizeLo := v }
    | none, some v => { d with sizeLo := v.toUInt32, sizeHi := (v >>> 32).toUInt32 }
    | none, none => d
  else if t.name = .byte FT_FILESIZE_HI then { d with sizeHi := t.asU32.getD d.sizeHi }
  else d

def readTags (tags : List Tag) : Draft :=
  tags.foldl (fun d t => (d.readMedia U t).readFile t) .empty

theorem readTags_concat (tags : List Tag) (t : Tag) :
    readTags U (tags ++ [t]) = ((readTags U tags).readMedia U t).readFile t := by
  rw [readTags, List.foldl_append]
  rfl

def readHash (bytes : List UInt8) : FileHash := Vector.ofFn (fun i => bytes.getD i.val 0)

/-- A number of `k` bytes at position `i`. -/
def numberAt (bytes : List UInt8) (i k : Nat) : Nat := ofLeBytes ((bytes.drop i).take k)

def offeredOf (header : List UInt8) (d : Draft) : OfferedFile where
  hash := readHash header
  clientId := UInt32.ofNat (numberAt header 16 4)
  port := UInt16.ofNat (numberAt header 20 2)
  filename := d.filename
  size := (d.sizeHi.toUInt64 <<< 32) ||| d.sizeLo.toUInt64
  media := d.media

def parseRecords : Nat → List UInt8 → Except String (List OfferedFile)
  | 0, _ => .ok []
  | n + 1, slice =>
    if slice.length < 26 then .error "file_record header truncated"
    else
      let tagCount := UInt32.ofNat (numberAt slice 22 4)
      if 50 < tagCount then
        .error ("file_record tag_count " ++ toString tagCount ++ " unreasonable")
      else
        let (tags, rest) := readTagList tagCount (slice.drop 26)
        (parseRecords n rest).map (offeredOf (slice.take 26) (readTags U tags) :: ·)

def parseOfferfiles (payload : List UInt8) : Except String (List OfferedFile) :=
  if payload.length < 4 then .error "OFFERFILES too short"
  else
    let count := numberAt payload 0 4
    if 100000 < count then .error ("OFFERFILES count " ++ toString count ++ " unreasonable")
    else parseRecords U count (payload.drop 4)

end Ed2kServer.Publish.ParseOffer
