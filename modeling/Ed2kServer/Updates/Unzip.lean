import Ed2kServer.Lib.Bytes
import Ed2kServer.Lib.Failing
import Ed2kServer.Slab.Record
import Ed2kServer.Text.Utf8

namespace Ed2kServer.Updates.Unzip

open Ed2kServer.Lib.LittleEndian Ed2kServer.Lib.Bytes Ed2kServer.Lib.Failing
open Ed2kServer.Slab.Record
open Ed2kServer.Text.Utf8

/-- Why an archive is refused; `panicked` is a slice out of bounds. -/
inductive UnzipError
  | tooShort (len : Nat)
  | noEndRecord
  | noDirectory
  | isDirectory (name : Str)
  | noLocalHeader (offset : Nat)
  | endsEarly (name : Str) (compSize : Nat)
  | inflateFailed (name reason : Str)
  | unsupported (name : Str) (method : Nat)
  | wrongSize (name : Str) (got expected : Nat)
  | pastEnd
  | panicked
  deriving DecidableEq

def EOCD_SIG : List UInt8 := [0x50, 0x4b, 0x05, 0x06]

def CD_SIG : List UInt8 := [0x50, 0x4b, 0x01, 0x02]

def LFH_SIG : List UInt8 := [0x50, 0x4b, 0x03, 0x04]

def slice (b : List UInt8) (lo hi : Nat) : Except UnzipError (List UInt8) :=
  if lo ≤ hi ∧ hi ≤ b.length then .ok ((b.drop lo).take (hi - lo)) else .error .panicked

def readLe (w : Nat) (b : List UInt8) (at' : Nat) : Except UnzipError Nat :=
  if at' + w ≤ b.length then .ok (ofLeBytes ((b.drop at').take w)) else .error .pastEnd

def u16le (b : List UInt8) (at' : Nat) : Except UnzipError Nat := readLe 2 b at'

def u32le (b : List UInt8) (at' : Nat) : Except UnzipError Nat := readLe 4 b at'

/-- The last position, down to `searchFrom`, where an end record may begin. -/
def findEocd (archive : List UInt8) (searchFrom : Nat) : Nat → Except UnzipError Nat
  | 0 => do
    if (← slice archive 0 4) = EOCD_SIG then return 0
    if 0 = searchFrom then throw .noEndRecord
    throw .panicked
  | i + 1 => do
    if (← slice archive (i + 1) (i + 5)) = EOCD_SIG then return i + 1
    if i + 1 = searchFrom then throw .noEndRecord
    findEocd archive searchFrom i

/-- The first entry of the central directory. -/
structure Entry where
  method : Nat
  compSize : Nat
  uncompSize : Nat
  nameLen : Nat
  lfhOffset : Nat

def readEntry (archive : List UInt8) (cdOffset : Nat) : Except UnzipError Entry := do
  if archive.length < cdOffset + 46 then throw .noDirectory
  if (← slice archive cdOffset (cdOffset + 4)) ≠ CD_SIG then throw .noDirectory
  let method ← u16le archive (cdOffset + 10)
  let compSize ← u32le archive (cdOffset + 20)
  let uncompSize ← u32le archive (cdOffset + 24)
  let nameLen ← u16le archive (cdOffset + 28)
  let _ ← u16le archive (cdOffset + 30)
  let _ ← u16le archive (cdOffset + 32)
  let lfhOffset ← u32le archive (cdOffset + 42)
  return ⟨method, compSize, uncompSize, nameLen, lfhOffset⟩

def entryName (archive : List UInt8) (cdOffset nameLen : Nat) : Str :=
  fromUtf8Lossy (if cdOffset + 46 + nameLen ≤ archive.length then
    (archive.drop (cdOffset + 46)).take nameLen else [])

/-- The packed bytes behind the local header. -/
def readData (archive : List UInt8) (name : Str) (e : Entry) : Except UnzipError (List UInt8) := do
  if archive.length < e.lfhOffset + 30 then throw (.noLocalHeader e.lfhOffset)
  if (← slice archive e.lfhOffset (e.lfhOffset + 4)) ≠ LFH_SIG then
    throw (.noLocalHeader e.lfhOffset)
  let lNameLen ← u16le archive (e.lfhOffset + 26)
  let lExtraLen ← u16le archive (e.lfhOffset + 28)
  let dataStart := e.lfhOffset + 30 + lNameLen + lExtraLen
  let dataEnd := dataStart + e.compSize
  if archive.length < dataEnd then throw (.endsEarly name e.compSize)
  slice archive dataStart dataEnd

variable (inflate : List UInt8 → Except Str (List UInt8))

def unpack (name : Str) (method : Nat) (data : List UInt8) : Except UnzipError (List UInt8) :=
  match method with
  | 0 => .ok data
  | 8 => (inflate data).mapError (.inflateFailed name)
  | m => .error (.unsupported name m)

def unzipFirstFile (archive : List UInt8) : Except UnzipError (List UInt8) := do
  if archive.length < 22 then throw (.tooShort archive.length)
  let eocd ← findEocd archive (archive.length - (22 + 65535)) (archive.length - 22)
  let cdOffset ← u32le archive (eocd + 16)
  let e ← readEntry archive cdOffset
  let name := entryName archive cdOffset e.nameLen
  if name.getLast? = some '/' then throw (.isDirectory name)
  let data ← readData archive name e
  let out ← unpack inflate name e.method data
  if e.uncompSize ≠ 0 ∧ out.length ≠ e.uncompSize then
    throw (.wrongSize name out.length e.uncompSize)
  return out

/-- The numbers of an archive that nothing reads. -/
structure Unread where
  versionMade : Nat
  versionNeeded : Nat
  flags : Nat
  time : Nat
  date : Nat
  crc : Nat
  localComp : Nat
  localUncomp : Nat
  disk : Nat
  internal : Nat
  external : Nat
  entries : Nat
  cdSize : Nat

/-- What an archive is made of. Its first entry in the directory is the file; further entries may
stand in `middle` and `others`. -/
structure Parts where
  unread : Unread
  front : List UInt8
  localName : List UInt8
  localExtra : List UInt8
  data : List UInt8
  middle : List UInt8
  method : Nat
  uncompSize : Nat
  name : List UInt8
  extraLen : Nat
  commentLen : Nat
  others : List UInt8
  comment : List UInt8

namespace Parts

variable (a : Parts)

def localFields : List (Nat × Nat) :=
  [(2, a.unread.versionNeeded), (2, a.unread.flags), (2, a.method), (2, a.unread.time),
    (2, a.unread.date), (4, a.unread.crc), (4, a.unread.localComp), (4, a.unread.localUncomp),
    (2, a.localName.length), (2, a.localExtra.length)]

def body : List UInt8 :=
  LFH_SIG ++ (fields a.localFields ++ (a.localName ++ (a.localExtra ++ a.data)))

def cdOffset : Nat := a.front.length + a.body.length + a.middle.length

def centralFields : List (Nat × Nat) :=
  [(2, a.unread.versionMade), (2, a.unread.versionNeeded), (2, a.unread.flags), (2, a.method),
    (2, a.unread.time), (2, a.unread.date), (4, a.unread.crc), (4, a.data.length),
    (4, a.uncompSize), (2, a.name.length), (2, a.extraLen), (2, a.commentLen),
    (2, a.unread.disk), (2, a.unread.internal), (4, a.unread.external), (4, a.front.length)]

def directory : List UInt8 := CD_SIG ++ (fields a.centralFields ++ (a.name ++ a.others))

def endFields : List (Nat × Nat) :=
  [(2, a.unread.disk), (2, a.unread.disk), (2, a.unread.entries), (2, a.unread.entries),
    (4, a.unread.cdSize), (4, a.cdOffset), (2, a.comment.length)]

def endRecord : List UInt8 := EOCD_SIG ++ (fields a.endFields ++ a.comment)

def bytes : List UInt8 := a.front ++ (a.body ++ (a.middle ++ (a.directory ++ a.endRecord)))

end Parts

/-- An archive of a file: the lengths fit their fields, and no further end record begins within the
end record. -/
structure Archive extends Parts where
  content : List UInt8
  unpacks : unpack inflate (fromUtf8Lossy name) method data = .ok content
  methodFits : method < 2 ^ 16
  localNameFits : localName.length < 2 ^ 16
  localExtraFits : localExtra.length < 2 ^ 16
  nameFits : name.length < 2 ^ 16
  commentFits : comment.length < 2 ^ 16
  dataFits : data.length < 2 ^ 32
  offsetFits : toParts.cdOffset < 2 ^ 32
  sizeFits : uncompSize < 2 ^ 32
  size : uncompSize = 0 ∨ uncompSize = content.length
  isFile : (fromUtf8Lossy name).getLast? ≠ some '/'
  lastRecord : ∀ k, 0 < k → k ≤ comment.length → (toParts.endRecord.drop k).take 4 ≠ EOCD_SIG

section Reading

variable {b bytes : List UInt8} {lo pos w n : Nat}

end Reading

section Layout

variable (a : Parts)

theorem length_bytes :
    a.bytes.length = a.cdOffset + a.directory.length + a.endRecord.length := by
  simp only [Parts.bytes, Parts.cdOffset, List.length_append]
  omega

end Layout

section RoundTrip

variable {inflate} (a : Archive inflate)

/-- A stored file of two bytes with an archive comment, behind a front that is no part of it. -/
def stored : Archive inflate where
  unread := ⟨20, 20, 0, 0, 0, 0, 0, 0, 0, 0, 0, 1, 47⟩
  front := [0x50, 0x4b, 0x05, 0x06]
  localName := [0x61]
  localExtra := []
  data := [0x68, 0x69]
  middle := []
  method := 0
  uncompSize := 2
  name := [0x61]
  extraLen := 0
  commentLen := 0
  others := []
  comment := [0x50]
  content := [0x68, 0x69]
  unpacks := rfl
  methodFits := by decide
  localNameFits := by decide
  localExtraFits := by decide
  nameFits := by decide
  commentFits := by decide
  dataFits := by decide
  offsetFits := by decide
  sizeFits := by decide
  size := .inr rfl
  isFile := by decide
  lastRecord := by
    intro k hk hle
    obtain rfl : k = 1 := Nat.le_antisymm hle hk
    decide

end RoundTrip

section Bounds

variable {inflate} {archive : List UInt8}

theorem slice_avoids {b : List UInt8} {lo hi : Nat} (hlo : lo ≤ hi) (hhi : hi ≤ b.length) :
    Avoids .panicked (slice b lo hi) := by
  rw [slice, if_pos ⟨hlo, hhi⟩]
  exact avoids_ok _

theorem readLe_avoids (w : Nat) (b : List UInt8) (pos : Nat) :
    Avoids .panicked (readLe w b pos) := by
  rw [readLe]
  split
  · exact avoids_ok _
  · exact avoids_error fun h => by cases h

/-- Down from any position that leaves room for a signature, the search stops in bounds. -/
theorem findEocd_avoids {searchFrom : Nat} (i : Nat) (hfrom : searchFrom ≤ i)
    (hlen : i + 4 ≤ archive.length) : Avoids .panicked (findEocd archive searchFrom i) := by
  induction i with
  | zero =>
    refine avoids_bind (slice_avoids (Nat.zero_le 4) hlen) fun sig _ => ?_
    obtain rfl : searchFrom = 0 := Nat.le_zero.mp hfrom
    split
    · exact avoids_ok 0
    · exact avoids_error fun h => by cases h
  | succ i ih =>
    refine avoids_bind (slice_avoids (by omega) hlen) fun sig _ => ?_
    split
    · exact avoids_ok (i + 1)
    · refine avoids_guard (by decide) fun hne => ?_
      exact ih (by omega) (by omega)

theorem readEntry_avoids (archive : List UInt8) (cdOffset : Nat) :
    Avoids .panicked (readEntry archive cdOffset) := by
  rw [readEntry]
  refine avoids_guard (by decide) fun hlen => ?_
  refine avoids_bind (slice_avoids (by omega) (by omega)) fun sig _ => ?_
  refine avoids_guard (by decide) fun _ => ?_
  refine avoids_bind (readLe_avoids 2 archive _) fun method _ => ?_
  refine avoids_bind (readLe_avoids 4 archive _) fun compSize _ => ?_
  refine avoids_bind (readLe_avoids 4 archive _) fun uncompSize _ => ?_
  refine avoids_bind (readLe_avoids 2 archive _) fun nameLen _ => ?_
  refine avoids_bind (readLe_avoids 2 archive _) fun _ _ => ?_
  refine avoids_bind (readLe_avoids 2 archive _) fun _ _ => ?_
  exact avoids_bind (readLe_avoids 4 archive _) fun lfhOffset _ => avoids_ok _

theorem readData_avoids (archive : List UInt8) (name : Str) (e : Entry) :
    Avoids .panicked (readData archive name e) := by
  rw [readData]
  refine avoids_guard (fun h => by cases h) fun hlen => ?_
  refine avoids_bind (slice_avoids (by omega) (by omega)) fun sig _ => ?_
  refine avoids_guard (fun h => by cases h) fun _ => ?_
  refine avoids_bind (readLe_avoids 2 archive _) fun lNameLen _ => ?_
  refine avoids_bind (readLe_avoids 2 archive _) fun lExtraLen _ => ?_
  refine avoids_guard (fun h => by cases h) fun hfits => ?_
  exact slice_avoids (by omega) (by omega)

theorem unpack_avoids (name : Str) (method : Nat) (data : List UInt8) :
    Avoids .panicked (unpack inflate name method data) := by
  unfold unpack
  split
  · exact avoids_ok data
  · cases inflate data with
    | ok out => exact avoids_ok out
    | error e => exact avoids_error fun h => by cases h
  · exact avoids_error fun h => by cases h

/-- Whatever the bytes are, no slice of them is taken out of bounds. -/
theorem unzip_avoids_panicked (archive : List UInt8) :
    Avoids .panicked (unzipFirstFile inflate archive) := by
  rw [unzipFirstFile]
  refine avoids_guard (fun h => by cases h) fun hlen => ?_
  refine avoids_bind (findEocd_avoids _ (by omega) (by omega)) fun eocd _ => ?_
  refine avoids_bind (readLe_avoids 4 archive _) fun cdOffset _ => ?_
  refine avoids_bind (readEntry_avoids archive cdOffset) fun e _ => ?_
  refine avoids_guard (fun h => by cases h) fun _ => ?_
  refine avoids_bind (readData_avoids archive _ e) fun data _ => ?_
  refine avoids_bind (unpack_avoids _ e.method data) fun out _ => ?_
  exact avoids_guard (fun h => by cases h) fun _ => avoids_ok out

end Bounds

end Ed2kServer.Updates.Unzip
