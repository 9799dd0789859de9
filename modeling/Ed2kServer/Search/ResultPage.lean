import Ed2kServer.Proto.Tags
import Ed2kServer.Publish.Files
import Ed2kServer.Search.Evaluate

namespace Ed2kServer.Search.ResultPage

open Ed2kServer.Lib.LittleEndian Ed2kServer.Lib.ByteReader Ed2kServer.Text.Chars
open Ed2kServer.Slab.Record Ed2kServer.Slab.Store Ed2kServer.Slab.MediaFields
open Ed2kServer.Slab.Codecs Ed2kServer.Sources.Address Ed2kServer.Proto.Tags
open Ed2kServer.Search.Evaluate

/-- The file types, 0 for none, in the order their extensions are tried. -/
def fileTypes : List (UInt32 × List String) :=
  [(1, AUDIO_EXT), (2, VIDEO_EXT), (3, IMAGE_EXT), (4, PROGRAM_EXT), (5, DOCUMENT_EXT),
    (6, ARCHIVE_EXT), (7, CDIMAGE_EXT), (8, ["emulecollection"])]

def ed2kFileTypeId (nameLower : Str) : UInt32 :=
  let ext := afterLastDot nameLower
  if ext = nameLower then 0
  else
    match fileTypes.find? (fun t => (t.2.map String.toList).contains ext) with
    | some (id, _) => id
    | none => 0

/-- What a result says of a connected source. -/
structure ConnectedSource where
  alive : Bool
  isHighId : Bool
  ip : IpAddr
  assignedId : UInt32

/-- What a page of results reads of the server. -/
structure Server where
  clients : UserHash → Option ConnectedSource
  mediaOfHash : FileHash → Option Media
  codecs : CodecInner

/-- The rank of a source, lower is better, with the id it is published under. -/
def sourceRank (s : Server) (src : Source) : Option (Nat × UInt32 × UInt16) := do
  let h ← s.clients src.userHash
  if !h.alive || src.port = 0 then none
  else if h.isHighId && !isPublishableSourceIp h.ip then none
  else if h.assignedId = 0 then none
  else
    let rank := (if h.isHighId then 0 else 1) + (if src.complete then 0 else 2)
    return (rank, h.assignedId, src.port)

def SCAN : Nat := 32

/-- The first of the best ranked among the first sources. -/
def searchResultSource (s : Server) (sources : List Source) : UInt32 × UInt16 :=
  let best := (sources.take SCAN).foldl (fun best src =>
    match sourceRank s src, best with
    | some r, some b => if r.1 < b.1 then some r else some b
    | some r, none => some r
    | none, b => b) none
  match best with
  | some (_, id, port) => (id, port)
  | none => (0, 0)

def mediaTags (s : Server) (hash : FileHash) : List Tag :=
  match s.mediaOfHash hash with
  | none => []
  | some m =>
    (if bitrate m ≠ 0 then [.byte 0xD4 (.uint (bitrate m))] else []) ++
      (match s.codecs.name (codec m) with
        | some c => [.byte 0xD5 (.string c)]
        | none => []) ++
      if length m ≠ 0 then [.byte 0xD3 (.uint (length m))] else []

variable (U : Unicode)

def completeSourceCount (file : FileRecord) : UInt32 :=
  UInt32.ofNat (file.sources.countP (·.complete))

/-- The tags of one result. -/
def resultTags (s : Server) (file : FileRecord) : List Tag :=
  let sizeHi := (file.size >>> 32).toUInt32
  let ftype := ed2kFileTypeId (U.lowercase file.name)
  let fileTags : List Tag :=
    [Tag.byte FT_FILENAME (TagValue.string file.name),
      Tag.byte FT_FILESIZE (TagValue.uint file.size.toUInt32)]
  let highTags : List Tag :=
    if 0 < sizeHi then [Tag.byte FT_FILESIZE_HI (TagValue.uint sizeHi)] else []
  let sourceTags : List Tag :=
    [Tag.byte FT_SOURCES (TagValue.uint (UInt32.ofNat file.sources.length)),
      Tag.byte FT_COMPLETE_SOURCES (TagValue.uint (completeSourceCount file))]
  let typeTags : List Tag :=
    if ftype ≠ 0 then [Tag.byte FT_FILETYPE (TagValue.uint ftype)] else []
  fileTags ++ highTags ++ sourceTags ++ typeTags ++ mediaTags s file.hash

def writeResult (s : Server) (file : FileRecord) : List UInt8 :=
  let (id, port) := searchResultSource s file.sources
  file.hash.toList ++ (leBytes 4 id.toNat ++ (leBytes 2 port.toNat ++
    writeTagList (resultTags U s file)))

/-- The payload of a page of results; the last byte says whether more are left. -/
def buildSearchResultPage (s : Server) (page : List FileRecord) (hasMore : Bool) : List UInt8 :=
  leBytes 4 page.length ++ (page.flatMap (writeResult U s) ++ [if hasMore then 1 else 0])

/-- A result as a client reads it. -/
structure Result where
  hash : List UInt8
  id : Nat
  port : Nat
  tags : List Tag
  deriving DecidableEq

def readTags : Reader TagError (List Tag) := fun buf => (.ok (readBack buf).1, (readBack buf).2)

def readResult : Reader TagError Result := do
  let hash ← takeBytes 16
  let id ← readNumber 4
  let port ← readNumber 2
  let tags ← readTags
  return ⟨hash, id, port, tags⟩

/-- All results of a page and what is left of it. -/
def readPage (payload : List UInt8) : List Result × List UInt8 :=
  upTo readResult (ofLeBytes (payload.take 4)) (payload.drop 4)

def resultOf (s : Server) (file : FileRecord) : Result :=
  ⟨file.hash.toList, (searchResultSource s file.sources).1.toNat,
    (searchResultSource s file.sources).2.toNat, (resultTags U s file).map Tag.normalise⟩

/-- Every result of the page is read where it was written. -/
def InStep (s : Server) (page : List FileRecord) (hasMore : Bool) : Prop :=
  readPage (buildSearchResultPage U s page hasMore) =
    (page.map (resultOf U s), [if hasMore then 1 else 0])

variable {U} {s : Server} {file : FileRecord}

theorem uint_fits (v : UInt32) : (TagValue.uint v).Fits := by
  rw [TagValue.uint]
  split
  · trivial
  · split <;> trivial

/-- The tags of a result fit when its name and the codec names do. -/
theorem resultTags_fit (hname : (utf8 file.name).length < 65536)
    (hcodecs : ∀ c ∈ s.codecs.names, (utf8 c).length < 65536) :
    ∀ t ∈ resultTags U s file, t.Fits := by
  have hmedia : ∀ t ∈ mediaTags s file.hash, t.Fits := by
    intro t ht
    rw [mediaTags] at ht
    split at ht
    · cases ht
    · rename_i m hm
      rw [List.mem_append, List.mem_append] at ht
      obtain (ht | ht) | ht := ht
      · split at ht
        · obtain rfl := List.mem_singleton.mp ht
          exact ⟨trivial, uint_fits _⟩
        · cases ht
      · split at ht
        · rename_i c hc
          obtain rfl := List.mem_singleton.mp ht
          refine ⟨trivial, hcodecs c ?_⟩
          rw [CodecInner.name] at hc
          split at hc
          · cases hc
          · exact List.mem_of_getElem? hc
        · cases ht
      · split at ht
        · obtain rfl := List.mem_singleton.mp ht
          exact ⟨trivial, uint_fits _⟩
        · cases ht
  intro t ht
  simp only [resultTags, List.mem_append, List.mem_cons, List.not_mem_nil, or_false] at ht
  obtain ((((rfl | rfl) | ht) | rfl | rfl) | ht) | ht := ht
  · exact ⟨trivial, hname⟩
  · exact ⟨trivial, uint_fits _⟩
  · split at ht
    · obtain rfl := List.mem_singleton.mp ht
      exact ⟨trivial, uint_fits _⟩
    · cases ht
  · exact ⟨trivial, uint_fits _⟩
  · exact ⟨trivial, uint_fits _⟩
  · split at ht
    · obtain rfl := List.mem_singleton.mp ht
      exact ⟨trivial, uint_fits _⟩
    · cases ht
  · exact hmedia t ht

theorem length_ite_le {p : Prop} [Decidable p] (t : Tag) :
    (if p then [t] else []).length ≤ 1 := by
  split
  · exact Nat.le_refl 1
  · exact Nat.zero_le 1

theorem mediaTags_length (s : Server) (hash : FileHash) : (mediaTags s hash).length ≤ 3 := by
  rw [mediaTags]
  cases s.mediaOfHash hash with
  | none => exact Nat.zero_le 3
  | some m =>
    have hcodec : (match s.codecs.name (codec m) with
        | some c => [Tag.byte 0xD5 (.string c)]
        | none => []).length ≤ 1 := by
      cases s.codecs.name (codec m) <;> simp
    simp only [List.length_append]
    have hrate := length_ite_le (p := bitrate m ≠ 0) (Tag.byte 0xD4 (.uint (bitrate m)))
    have hlength := length_ite_le (p := length m ≠ 0) (Tag.byte 0xD3 (.uint (length m)))
    omega

theorem resultTags_length (s : Server) (file : FileRecord) :
    (resultTags U s file).length < 2 ^ 32 := by
  have hmedia := mediaTags_length s file.hash
  have hhigh := length_ite_le (p := (0 : UInt32) < (file.size >>> 32).toUInt32)
    (Tag.byte FT_FILESIZE_HI (TagValue.uint (file.size >>> 32).toUInt32))
  have htype := length_ite_le (p := ed2kFileTypeId (U.lowercase file.name) ≠ 0)
    (Tag.byte FT_FILETYPE (TagValue.uint (ed2kFileTypeId (U.lowercase file.name))))
  simp only [resultTags, List.length_append, List.length_cons, List.length_nil]
  omega

theorem reads_result (hfits : ∀ t ∈ resultTags U s file, t.Fits) :
    Reads readResult (writeResult U s file) (resultOf U s file) := by
  have htags : Reads readTags (writeTagList (resultTags U s file))
      ((resultTags U s file).map Tag.normalise) := by
    intro rest
    have h := (tags_roundTrip_iff hfits).mpr (resultTags_length s file) rest
    rw [readTags, h]
  have hhash := reads_take TagError.underrun file.hash.toList
  rw [Vector.length_toList] at hhash
  refine reads_bind hhash (reads_bind (reads_readNumber (k := 4) (UInt32.toNat_lt _))
    (reads_bind (reads_readNumber (k := 2) (UInt16.toNat_lt _)) (reads_map htags _)))

/-- A page of results whose tags fit is never read out of step. -/
theorem inStep_of_fits {page : List FileRecord} (hlen : page.length < 2 ^ 32)
    (hfits : ∀ file ∈ page, ∀ t ∈ resultTags U s file, t.Fits) (hasMore : Bool) :
    InStep U s page hasMore := by
  rw [InStep, readPage, buildSearchResultPage, List.take_left' (length_leBytes 4 page.length),
    List.drop_left' (length_leBytes 4 page.length), ofLeBytes_leBytes, Nat.mod_eq_of_lt (by omega)]
  exact upTo_of_reads (fun file hm => reads_result (hfits file hm)) _

end Ed2kServer.Search.ResultPage
