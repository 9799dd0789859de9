import Ed2kServer.Lib.ByteReader
import Ed2kServer.Text.Utf8

namespace Ed2kServer.Proto.Tags

open Ed2kServer.Lib.LittleEndian Ed2kServer.Lib.ByteReader Ed2kServer.Text.Utf8

def FT_FILENAME : UInt8 := 0x01
def FT_FILESIZE : UInt8 := 0x02
def FT_FILETYPE : UInt8 := 0x03
def FT_SOURCES : UInt8 := 0x15
def FT_COMPLETE_SOURCES : UInt8 := 0x30
def FT_FILESIZE_HI : UInt8 := 0x3A

inductive TagError
  | underrun
  | unsupportedType (t : UInt8)
  deriving DecidableEq

inductive TagName
  | byte (b : UInt8)
  | str (s : Str)
  deriving DecidableEq

/-- A float is its 32 bits. -/
inductive TagValue
  | string (s : Str)
  | u8 (v : UInt8)
  | u16 (v : UInt16)
  | u32 (v : UInt32)
  | u64 (v : UInt64)
  | float (bits : UInt32)
  | bool (v : Bool)
  | blob (bytes : List UInt8)
  | hash16 (h : Vector UInt8 16)
  deriving DecidableEq

structure Tag where
  name : TagName
  value : TagValue
  deriving DecidableEq

/-- An integer in the narrowest type that holds it. -/
def TagValue.uint (v : UInt32) : TagValue :=
  if v ≤ 0xFF then .u8 v.toUInt8 else if v ≤ 0xFFFF then .u16 v.toUInt16 else .u32 v

def Tag.byte (name : UInt8) (value : TagValue) : Tag := ⟨.byte name, value⟩

def Tag.strValue (t : Tag) : Option Str :=
  match t.value with
  | .string s => some s
  | _ => none

def Tag.asU32 (t : Tag) : Option UInt32 :=
  match t.value with
  | .u32 v => some v
  | .u16 v => some v.toUInt32
  | .u8 v => some v.toUInt32
  | _ => none

def Tag.asU64 (t : Tag) : Option UInt64 :=
  match t.value with
  | .u64 v => some v
  | .u32 v => some v.toUInt64
  | _ => none

def TYPE_HASH : UInt8 := 0x01
def TYPE_STRING : UInt8 := 0x02
def TYPE_UINT32 : UInt8 := 0x03
def TYPE_FLOAT : UInt8 := 0x04
def TYPE_BOOL : UInt8 := 0x05
def TYPE_BLOB : UInt8 := 0x07
def TYPE_UINT16 : UInt8 := 0x08
def TYPE_UINT8 : UInt8 := 0x09
def TYPE_UINT64 : UInt8 := 0x0B
def TYPE_STR1_BASE : UInt8 := 0x10
def TYPE_NEWTAG_BIT : UInt8 := 0x80

def takeBytes (n : Nat) : Reader TagError (List UInt8) := take .underrun n

def readNumber (k : Nat) : Reader TagError Nat := number .underrun k

/-- An old-format name of one byte is the compact name. -/
def readName (hasShortName : Bool) : Reader TagError TagName :=
  if hasShortName then do
    let n ← readNumber 1
    return .byte (UInt8.ofNat n)
  else do
    let nl ← readNumber 2
    let bytes ← takeBytes nl
    return if nl = 1 then .byte (bytes.headD 0) else .str (fromUtf8Lossy bytes)

def readValue (realType : UInt8) : Reader TagError TagValue :=
  if realType = TYPE_STRING then do
    let len ← readNumber 2
    let bytes ← takeBytes len
    return .string (fromUtf8Lossy bytes)
  else if realType = TYPE_UINT32 then do
    let v ← readNumber 4
    return .u32 (UInt32.ofNat v)
  else if realType = TYPE_UINT16 then do
    let v ← readNumber 2
    return .u16 (UInt16.ofNat v)
  else if realType = TYPE_UINT8 then do
    let v ← readNumber 1
    return .u8 (UInt8.ofNat v)
  else if realType = TYPE_UINT64 then do
    let v ← readNumber 8
    return .u64 (UInt64.ofNat v)
  else if realType = TYPE_FLOAT then do
    let v ← readNumber 4
    return .float (UInt32.ofNat v)
  else if realType = TYPE_BOOL then do
    let v ← readNumber 1
    return .bool (v != 0)
  else if realType = TYPE_BLOB then do
    let len ← readNumber 4
    let bytes ← takeBytes len
    return .blob bytes
  else if TYPE_STR1_BASE + 1 ≤ realType ∧ realType ≤ TYPE_STR1_BASE + 16 then do
    let bytes ← takeBytes (realType - TYPE_STR1_BASE).toNat
    return .string (fromUtf8Lossy bytes)
  else if realType = TYPE_HASH then do
    let bytes ← takeBytes 16
    return .blob bytes
  -- BOOLARRAY: a count of bits, and the bytes that hold them
  else if realType = 0x06 then do
    let bits ← readNumber 2
    let bytes ← takeBytes ((bits + 7) / 8)
    return .blob bytes
  -- BSOB
  else if realType = 0x0A then do
    let len ← readNumber 1
    let bytes ← takeBytes len
    return .blob bytes
  else fail (.unsupportedType realType)

def readTag : Reader TagError Tag := do
  let typeByte ← readNumber 1
  let typeByte := UInt8.ofNat typeByte
  let name ← readName (typeByte &&& TYPE_NEWTAG_BIT != 0)
  let value ← readValue (typeByte &&& ~~~TYPE_NEWTAG_BIT)
  return ⟨name, value⟩

/-- Up to `count` tags; the first one that cannot be read ends the list. -/
def readTagList (count : UInt32) (buf : List UInt8) : List Tag × List UInt8 :=
  upTo readTag count.toNat buf

/-- Short strings under a compact name carry their length in the type. -/
def isInline (name : TagName) (s : Str) : Bool :=
  match name with
  | .byte _ => 1 ≤ (utf8 s).length && (utf8 s).length ≤ 16
  | .str _ => false

def typeMarker (name : TagName) : TagValue → UInt8
  | .string s =>
    if isInline name s then TYPE_STR1_BASE + UInt8.ofNat (utf8 s).length else TYPE_STRING
  | .u32 _ => TYPE_UINT32
  | .u16 _ => TYPE_UINT16
  | .u8 _ => TYPE_UINT8
  | .u64 _ => TYPE_UINT64
  | .float _ => TYPE_FLOAT
  | .bool _ => TYPE_BOOL
  | .blob _ => TYPE_BLOB
  | .hash16 _ => TYPE_HASH

def typeBase : TagName → UInt8
  | .byte _ => TYPE_NEWTAG_BIT
  | .str _ => 0

def writeName : TagName → List UInt8
  | .byte b => [b]
  | .str s => leBytes 2 (utf8 s).length ++ utf8 s

def writeValue (name : TagName) : TagValue → List UInt8
  | .string s => if isInline name s then utf8 s else leBytes 2 (utf8 s).length ++ utf8 s
  | .u32 v => leBytes 4 v.toNat
  | .u16 v => leBytes 2 v.toNat
  | .u8 v => leBytes 1 v.toNat
  | .u64 v => leBytes 8 v.toNat
  | .float bits => leBytes 4 bits.toNat
  | .bool v => [if v then 1 else 0]
  | .blob bytes => leBytes 4 bytes.length ++ bytes
  | .hash16 h => h.toList

/-- The lengths are cut to their fields, the bytes are not. -/
def writeTag (t : Tag) : List UInt8 :=
  (typeBase t.name ||| typeMarker t.name t.value) :: (writeName t.name ++ writeValue t.name t.value)

def writeTagList (tags : List Tag) : List UInt8 :=
  leBytes 4 tags.length ++ tags.flatMap writeTag

/-- Reading back what `write_tag_list` wrote, in front of anything else. -/
def readBack (buf : List UInt8) : List Tag × List UInt8 :=
  readTagList (UInt32.ofNat (ofLeBytes (buf.take 4))) (buf.drop 4)

def TagName.normalise : TagName → TagName
  | .byte b => .byte b
  | .str s => if (utf8 s).length = 1 then .byte ((utf8 s).headD 0) else .str s

def TagValue.normalise : TagValue → TagValue
  | .hash16 h => .blob h.toList
  | v => v

def Tag.normalise (t : Tag) : Tag := ⟨t.name.normalise, t.value.normalise⟩

def TagName.Fits : TagName → Prop
  | .byte _ => True
  | .str s => (utf8 s).length < 65536

def TagValue.Fits : TagValue → Prop
  | .string s => (utf8 s).length < 65536
  | .blob bytes => bytes.length < 2 ^ 32
  | _ => True

/-- Strings, names and blobs fit their length fields. -/
structure Tag.Fits (t : Tag) : Prop where
  name : t.name.Fits
  value : t.value.Fits

/-- What was written is read back, up to the normal form, and nothing more is consumed. -/
def RoundTrips (tags : List Tag) : Prop :=
  ∀ rest, readBack (writeTagList tags ++ rest) = (tags.map Tag.normalise, rest)

theorem reads_readNumber {k n : Nat} (hn : n < 256 ^ k) : Reads (readNumber k) (leBytes k n) n :=
  reads_number TagError.underrun hn

theorem leBytes_one (b : UInt8) : leBytes 1 b.toNat = [b] := by
  have hb := b.toNat_lt
  rw [leBytes, leBytes, Nat.mod_eq_of_lt hb, UInt8.ofNat_toNat]

theorem reads_byte (b : UInt8) : Reads (readNumber 1) [b] b.toNat := by
  have h := reads_readNumber (k := 1) (n := b.toNat) b.toNat_lt
  rwa [leBytes_one] at h

/-- A length and the bytes it counts. -/
theorem reads_counted {α : Type} {k : Nat} {bytes : List UInt8} (hn : bytes.length < 256 ^ k)
    (f : List UInt8 → α) :
    Reads (do let len ← readNumber k; let bytes ← takeBytes len; return f bytes)
      (leBytes k bytes.length ++ bytes) (f bytes) :=
  reads_bind (reads_readNumber hn) (reads_map (reads_take TagError.underrun bytes) f)

theorem reads_name {name : TagName} (h : name.Fits) :
    Reads (readName (typeBase name &&& TYPE_NEWTAG_BIT != 0)) (writeName name) name.normalise := by
  cases name with
  | byte b =>
    have hb := reads_map (reads_byte b) (fun n => TagName.byte (UInt8.ofNat n))
    have htype : (typeBase (.byte b) &&& TYPE_NEWTAG_BIT != 0) = true :=
      show (TYPE_NEWTAG_BIT &&& TYPE_NEWTAG_BIT != 0) = true by decide
    rw [UInt8.ofNat_toNat] at hb
    rw [htype, readName, if_pos rfl]
    exact hb
  | str s =>
    have hs := reads_bind (reads_readNumber (k := 2) h)
      (f := fun nl => takeBytes nl >>= fun bytes =>
        pure (if nl = 1 then TagName.byte (bytes.headD 0) else .str (fromUtf8Lossy bytes)))
      (reads_map (reads_take TagError.underrun (utf8 s)) _)
    have htype : (typeBase (.str s) &&& TYPE_NEWTAG_BIT != 0) = false :=
      show (0 &&& TYPE_NEWTAG_BIT != 0) = false by decide
    rw [fromUtf8Lossy_utf8] at hs
    rw [htype, readName, if_neg Bool.false_ne_true]
    exact hs

theorem typeMarker_lt (name : TagName) (value : TagValue) : typeMarker name value < 0x80 := by
  cases value with
  | string s =>
    rw [typeMarker]
    split
    · rename_i h
      cases name with
      | str n => cases h
      | byte b =>
        have hlen : (utf8 s).length ≤ 16 := by
          simp only [isInline, Bool.and_eq_true, decide_eq_true_eq] at h
          exact h.2
        rw [UInt8.lt_iff_toNat_lt, UInt8.toNat_add, UInt8.toNat_ofNat', TYPE_STR1_BASE]
        simp
        omega
    · decide
  | u8 v => exact (by decide : TYPE_UINT8 < 0x80)
  | u16 v => exact (by decide : TYPE_UINT16 < 0x80)
  | u32 v => exact (by decide : TYPE_UINT32 < 0x80)
  | u64 v => exact (by decide : TYPE_UINT64 < 0x80)
  | float bits => exact (by decide : TYPE_FLOAT < 0x80)
  | bool v => exact (by decide : TYPE_BOOL < 0x80)
  | blob bytes => exact (by decide : TYPE_BLOB < 0x80)
  | hash16 h => exact (by decide : TYPE_HASH < 0x80)

/-- The top bit says how the name is written, the other seven are the type. -/
theorem typeByte_split (name : TagName) {marker : UInt8} (h : marker < 0x80) :
    ((typeBase name ||| marker) &&& TYPE_NEWTAG_BIT) = typeBase name &&& TYPE_NEWTAG_BIT ∧
      (typeBase name ||| marker) &&& ~~~TYPE_NEWTAG_BIT = marker := by
  have hshort : ∀ n < 0x80, ((TYPE_NEWTAG_BIT ||| UInt8.ofNat n) &&& TYPE_NEWTAG_BIT) =
      TYPE_NEWTAG_BIT &&& TYPE_NEWTAG_BIT ∧
        (TYPE_NEWTAG_BIT ||| UInt8.ofNat n) &&& ~~~TYPE_NEWTAG_BIT = UInt8.ofNat n := by
    decide
  have hlong : ∀ n < 0x80, ((0 ||| UInt8.ofNat n) &&& TYPE_NEWTAG_BIT) = 0 &&& TYPE_NEWTAG_BIT ∧
      (0 ||| UInt8.ofNat n) &&& ~~~TYPE_NEWTAG_BIT = UInt8.ofNat n := by
    decide
  have hlt := UInt8.lt_iff_toNat_lt.mp h
  rw [← UInt8.ofNat_toNat (x := marker)]
  cases name with
  | byte b => exact hshort _ hlt
  | str s => exact hlong _ hlt

theorem reads_inline_bytes {bytes : List UInt8} (hpos : 1 ≤ bytes.length)
    (hlen : bytes.length ≤ 16) :
    Reads (readValue (TYPE_STR1_BASE + UInt8.ofNat bytes.length)) bytes
      (.string (fromUtf8Lossy bytes)) := by
  set t := TYPE_STR1_BASE + UInt8.ofNat bytes.length with ht
  have hval : t.toNat = 16 + bytes.length := by
    rw [ht, UInt8.toNat_add, UInt8.toNat_ofNat', TYPE_STR1_BASE]
    simp
    omega
  have hne : ∀ m : UInt8, m.toNat ≤ 16 → t ≠ m := by
    intro m hm he
    rw [← he, hval] at hm
    omega
  have hrange : TYPE_STR1_BASE + 1 ≤ t ∧ t ≤ TYPE_STR1_BASE + 16 := by
    have hlo : (TYPE_STR1_BASE + 1).toNat = 17 := rfl
    have hhi : (TYPE_STR1_BASE + 16).toNat = 32 := rfl
    rw [UInt8.le_iff_toNat_le, UInt8.le_iff_toNat_le, hlo, hhi, hval]
    omega
  have hsub : (t - TYPE_STR1_BASE).toNat = bytes.length := by
    have hle : TYPE_STR1_BASE ≤ t := by
      rw [UInt8.le_iff_toNat_le, hval]
      exact Nat.le_add_right _ _
    have hbase : TYPE_STR1_BASE.toNat = 16 := rfl
    rw [UInt8.toNat_sub_of_le _ _ hle, hval, hbase, Nat.add_sub_cancel_left]
  have hread := reads_map (reads_take TagError.underrun bytes)
    (fun bytes => TagValue.string (fromUtf8Lossy bytes))
  rw [readValue, if_neg (hne _ (by decide)), if_neg (hne _ (by decide)),
    if_neg (hne _ (by decide)), if_neg (hne _ (by decide)), if_neg (hne _ (by decide)),
    if_neg (hne _ (by decide)), if_neg (hne _ (by decide)), if_neg (hne _ (by decide)),
    if_pos hrange, hsub]
  exact hread

theorem reads_inline {s : Str} (hpos : 1 ≤ (utf8 s).length) (hlen : (utf8 s).length ≤ 16) :
    Reads (readValue (TYPE_STR1_BASE + UInt8.ofNat (utf8 s).length)) (utf8 s) (.string s) := by
  have h := reads_inline_bytes hpos hlen
  rwa [fromUtf8Lossy_utf8] at h

theorem reads_value (name : TagName) {value : TagValue} (h : value.Fits) :
    Reads (readValue (typeMarker name value)) (writeValue name value) value.normalise := by
  cases value with
  | string s =>
    rw [typeMarker, writeValue]
    by_cases hi : isInline name s = true
    · rw [if_pos hi, if_pos hi]
      cases name with
      | str n => cases hi
      | byte b =>
        simp only [isInline, Bool.and_eq_true, decide_eq_true_eq] at hi
        exact reads_inline hi.1 hi.2
    · rw [if_neg hi, if_neg hi]
      have hs := reads_counted (k := 2) h (fun bytes => TagValue.string (fromUtf8Lossy bytes))
      rw [fromUtf8Lossy_utf8] at hs
      exact hs
  | u8 v =>
    have hv := reads_map (reads_byte v) (fun n => TagValue.u8 (UInt8.ofNat n))
    rw [UInt8.ofNat_toNat, ← leBytes_one] at hv
    exact hv
  | u16 v =>
    have hv := reads_map (reads_readNumber (k := 2) v.toNat_lt)
      (fun n => TagValue.u16 (UInt16.ofNat n))
    rw [UInt16.ofNat_toNat] at hv
    exact hv
  | u32 v =>
    have hv := reads_map (reads_readNumber (k := 4) v.toNat_lt)
      (fun n => TagValue.u32 (UInt32.ofNat n))
    rw [UInt32.ofNat_toNat] at hv
    exact hv
  | u64 v =>
    have hv := reads_map (reads_readNumber (k := 8) v.toNat_lt)
      (fun n => TagValue.u64 (UInt64.ofNat n))
    rw [UInt64.ofNat_toNat] at hv
    exact hv
  | float bits =>
    have hv := reads_map (reads_readNumber (k := 4) bits.toNat_lt)
      (fun n => TagValue.float (UInt32.ofNat n))
    rw [UInt32.ofNat_toNat] at hv
    exact hv
  | bool v =>
    have hv := reads_map (reads_byte (if v then 1 else 0)) (fun n => TagValue.bool (n != 0))
    cases v <;> exact hv
  | blob bytes => exact reads_counted (k := 4) h TagValue.blob
  | hash16 hash =>
    have hv := reads_map (reads_take TagError.underrun hash.toList) TagValue.blob
    rw [Vector.length_toList] at hv
    exact hv

theorem reads_tag {t : Tag} (h : t.Fits) : Reads readTag (writeTag t) t.normalise := by
  obtain ⟨htop, hlow⟩ := typeByte_split t.name (typeMarker_lt t.name t.value)
  have hname := reads_name h.name
  have hvalue := reads_value t.name h.value
  have hbody := reads_bind hname
    (f := fun name => readValue (typeMarker t.name t.value) >>= fun value =>
      pure (Tag.mk name value))
    (reads_map hvalue (fun value => Tag.mk t.name.normalise value))
  have hread := reads_bind (reads_byte (typeBase t.name ||| typeMarker t.name t.value))
    (f := fun b => readName (UInt8.ofNat b &&& TYPE_NEWTAG_BIT != 0) >>= fun name =>
      readValue (UInt8.ofNat b &&& ~~~TYPE_NEWTAG_BIT) >>= fun value => pure (Tag.mk name value))
    (by rw [UInt8.ofNat_toNat, htop, hlow]; exact hbody)
  exact hread

theorem readBack_writeTagList (tags : List Tag) (rest : List UInt8) :
    readBack (writeTagList tags ++ rest) =
      readTagList (UInt32.ofNat tags.length) (tags.flatMap writeTag ++ rest) := by
  have htake : (writeTagList tags ++ rest).take 4 = leBytes 4 tags.length := by
    rw [writeTagList, List.append_assoc, List.take_left' (length_leBytes 4 tags.length)]
  have hdrop : (writeTagList tags ++ rest).drop 4 = tags.flatMap writeTag ++ rest := by
    rw [writeTagList, List.append_assoc, List.drop_left' (length_leBytes 4 tags.length)]
  rw [readBack, htake, hdrop, ofLeBytes_leBytes]
  congr 1
  apply UInt32.toNat_inj.mp
  rw [UInt32.toNat_ofNat', UInt32.toNat_ofNat']
  omega

/-- A list that fits round trips exactly when its count fits too. -/
theorem tags_roundTrip_iff {tags : List Tag} (h : ∀ t ∈ tags, t.Fits) :
    RoundTrips tags ↔ tags.length < 2 ^ 32 := by
  constructor
  · intro hr
    by_contra hlen
    have hread := congrArg Prod.fst ((readBack_writeTagList tags []).symm.trans (hr []))
    have hle := length_upTo_le readTag (UInt32.ofNat tags.length).toNat
      (tags.flatMap writeTag ++ [])
    rw [readTagList] at hread
    rw [hread, List.length_map] at hle
    have hlt := (UInt32.ofNat tags.length).toNat_lt
    omega
  · intro hlen rest
    rw [readBack_writeTagList, readTagList, UInt32.toNat_ofNat', Nat.mod_eq_of_lt hlen]
    exact upTo_of_reads (fun t ht => reads_tag (h t ht)) rest

end Ed2kServer.Proto.Tags
