import Ed2kServer.Proto.WireTags

namespace Ed2kServer.Server.OptionTags

open Ed2kServer.Lib.LittleEndian Ed2kServer.Lib.ByteReader Ed2kServer.Text.Utf8
open Ed2kServer.Proto.Tags Ed2kServer.Proto.WireTags

/-- `slice::get(n..)`. -/
def getFrom (n : Nat) (buf : List UInt8) : Option (List UInt8) :=
  if n ≤ buf.length then some (buf.drop n) else none

def skipName (shortName : Bool) (rest : List UInt8) : Option (List UInt8) :=
  if shortName then getFrom 1 rest
  else if rest.length < 2 then none
  else getFrom (2 + ofLeBytes (rest.take 2)) rest

/-- How many bytes a value of this type takes in front of `rest`. -/
def valueLen (ttype : UInt8) (rest : List UInt8) : Option Nat :=
  if ttype = 0x02 then if rest.length < 2 then none else some (2 + ofLeBytes (rest.take 2))
  else if ttype = 0x03 then some 4
  else if ttype = 0x04 then some 4
  else if ttype = 0x08 then some 4
  else if ttype = 0x09 then some 1
  else if ttype = 0x0A then some 2
  else if ttype = 0x0B then some 8
  else if 0x11 ≤ ttype ∧ ttype ≤ 0x20 then some (ttype - 0x10).toNat
  else none

def skipValue (ttype : UInt8) (rest : List UInt8) : Option (List UInt8) := do
  let len ← valueLen ttype rest
  getFrom len rest

def skipOneTag : List UInt8 → Option (List UInt8)
  | [] => none
  | typeByte :: rest => do
    let rest ← skipName (typeByte &&& 0x80 != 0) rest
    skipValue (typeByte &&& 0x7F) rest

def skipTags : Nat → List UInt8 → Option (List UInt8)
  | 0, rest => some rest
  | count + 1, rest => do
    let rest ← skipOneTag rest
    skipTags count rest

/-- The search tree after the options of a 0x90 search. -/
def stripSearchreq3Tags (payload : List UInt8) : Option (List UInt8) :=
  if payload.length < 4 then none
  else
    let count := ofLeBytes (payload.take 4)
    if 16 < count then none else skipTags count (payload.drop 4)

/-- The tag in front is no two-byte integer, and no blob of another length than one. -/
def skipsAlike : List UInt8 → Bool
  | [] => true
  | typeByte :: rest =>
    let ttype := typeByte &&& 0x7F
    ttype != 0x08 &&
      (ttype != 0x0A || (skipName (typeByte &&& 0x80 != 0) rest).any (·.head? == some 1))

/-- The types of value that `skip_one_tag` and the tag writer both know. -/
def bothKnow : TagValue → Bool
  | .string _ | .u8 _ | .u16 _ | .u32 _ | .u64 _ | .float _ => true
  | .bool _ | .blob _ | .hash16 _ => false

def isU16 : TagValue → Bool
  | .u16 _ => true
  | _ => false

variable {n : Nat} {buf rest : List UInt8}

theorem getFrom_append (bytes rest : List UInt8) :
    getFrom bytes.length (bytes ++ rest) = some rest := by
  rw [getFrom, if_pos (by simp), List.drop_left]

theorem getFrom_eq_some {r : List UInt8} (h : getFrom n buf = some r) :
    ∃ bytes, bytes.length = n ∧ buf = bytes ++ r := by
  rw [getFrom] at h
  split_ifs at h with hn
  obtain rfl := Option.some.inj h
  exact ⟨buf.take n, List.length_take_of_le hn, (List.take_append_drop n buf).symm⟩

theorem take_counted (bytes rest : List UInt8) (fits : bytes.length < 256 ^ 2) :
    ofLeBytes ((leBytes 2 bytes.length ++ bytes ++ rest).take 2) = bytes.length := by
  rw [List.append_assoc, List.take_left' (length_leBytes 2 _), ofLeBytes_leBytes,
    Nat.mod_eq_of_lt fits]

theorem getFrom_counted (bytes rest : List UInt8) :
    getFrom (2 + bytes.length) (leBytes 2 bytes.length ++ bytes ++ rest) = some rest := by
  have h := getFrom_append (leBytes 2 bytes.length ++ bytes) rest
  rwa [List.length_append, length_leBytes] at h

/-- A length of two bytes, and as many bytes as it says. -/
theorem counted_of_length {bytes : List UInt8}
    (h : bytes.length = 2 + ofLeBytes ((bytes ++ rest).take 2)) :
    ∃ body, body.length < 256 ^ 2 ∧ bytes = leBytes 2 body.length ++ body := by
  have htwo : (bytes.take 2).length = 2 := List.length_take_of_le (by omega)
  rw [List.take_append_of_le_length (by omega)] at h
  have hlt := ofLeBytes_lt (bytes.take 2)
  have hback := leBytes_ofLeBytes (bytes.take 2)
  rw [htwo] at hlt hback
  have hdrop : (bytes.drop 2).length = ofLeBytes (bytes.take 2) := by
    rw [List.length_drop]
    omega
  exact ⟨bytes.drop 2, by rwa [hdrop], by rw [hdrop, hback, List.take_append_drop]⟩

theorem skipName_bytes (w : WireName) (rest : List UInt8) :
    skipName (w.newTagBit != 0) (w.bytes ++ rest) = some rest := by
  cases w with
  | short b => exact getFrom_append [b] rest
  | long bytes fits =>
    have hlong : ((WireName.long bytes fits).newTagBit != 0) = false := rfl
    have hshort : ¬(leBytes 2 bytes.length ++ bytes ++ rest).length < 2 := by
      simp
      omega
    rw [skipName, hlong, if_neg Bool.false_ne_true, WireName.bytes, if_neg hshort,
      take_counted bytes rest fits, getFrom_counted]

theorem skipName_eq_some {shortName : Bool} (h : skipName shortName buf = some rest) :
    ∃ w : WireName, (w.newTagBit != 0) = shortName ∧ buf = w.bytes ++ rest := by
  rw [skipName] at h
  split_ifs at h with hs hlen
  · obtain ⟨bytes, hone, rfl⟩ := getFrom_eq_some h
    obtain ⟨b, rfl⟩ := List.length_eq_one_iff.mp hone
    exact ⟨.short b, by rw [hs]; rfl, rfl⟩
  · obtain ⟨bytes, hbytes, rfl⟩ := getFrom_eq_some h
    obtain ⟨body, fits, rfl⟩ := counted_of_length hbytes
    rw [Bool.not_eq_true] at hs
    exact ⟨.long body fits, by rw [hs]; rfl, rfl⟩

theorem skipOneTag_bytes (w : WireTag) (rest : List UInt8) :
    skipOneTag (w.bytes ++ rest) = skipValue w.value.type (w.value.bytes ++ rest) := by
  obtain ⟨htop, hlow⟩ := Proto.WireTags.typeByte_split w.name (type_lt w.value)
  have hcut : (~~~TYPE_NEWTAG_BIT : UInt8) = 0x7F := by decide
  rw [hcut] at hlow
  have hbit : ((w.name.newTagBit ||| w.value.type) &&& 0x80 != 0) = (w.name.newTagBit != 0) := htop
  rw [WireTag.bytes, List.cons_append, skipOneTag, hbit, List.append_assoc, skipName_bytes, hlow]
  rfl

theorem skipsAlike_bytes (w : WireTag) (rest : List UInt8) :
    skipsAlike (w.bytes ++ rest) = true ↔ w.value.type ≠ 0x08 ∧
      (w.value.type = 0x0A → (w.value.bytes ++ rest).head? = some 1) := by
  obtain ⟨htop, hlow⟩ := Proto.WireTags.typeByte_split w.name (type_lt w.value)
  have hcut : (~~~TYPE_NEWTAG_BIT : UInt8) = 0x7F := by decide
  rw [hcut] at hlow
  have hbit : ((w.name.newTagBit ||| w.value.type) &&& 0x80 != 0) = (w.name.newTagBit != 0) := htop
  rw [WireTag.bytes, List.cons_append, skipsAlike, hbit, List.append_assoc, skipName_bytes, hlow]
  simp [imp_iff_not_or]

/-- What the tag reader knows how to read is skipped exactly, but for the two types that the
skipper gives another length. -/
theorem skipsAlike_of_skipValue {v : WireValue}
    (h : skipValue v.type (v.bytes ++ rest) = some rest) :
    v.type ≠ 0x08 ∧ (v.type = 0x0A → (v.bytes ++ rest).head? = some 1) := by
  cases v with
  | u16 v =>
    obtain ⟨bytes, hfour, hbuf⟩ := getFrom_eq_some (n := 4) h
    have hlen := congrArg List.length (List.append_cancel_right hbuf)
    rw [WireValue.bytes, length_leBytes, hfour] at hlen
    cases hlen
  | bsob bytes fits =>
    obtain ⟨bytes', htwo, hbuf⟩ := getFrom_eq_some (n := 2) h
    have hlen := congrArg List.length (List.append_cancel_right hbuf)
    rw [WireValue.bytes, List.length_append, length_leBytes, htwo] at hlen
    have hone : bytes.length = 1 := by omega
    refine ⟨(by decide : (0x0A : UInt8) ≠ 0x08), fun _ => ?_⟩
    rw [WireValue.bytes, hone]
    rfl
  | short bytes fits =>
    have htype := short_type_toNat fits
    constructor
    · intro h8
      rw [WireValue.type] at h8
      rw [h8] at htype
      simp at htype
      omega
    · intro hA
      rw [WireValue.type] at hA
      rw [hA] at htype
      simp at htype
      omega
  | string | u32 | u8 | u64 | float | bool | blob | hash | boolArray =>
    all_goals exact ⟨by simp only [WireValue.type]; decide, fun h => by cases h⟩

theorem reads_numberOf {k : Nat} {bytes : List UInt8} (h : bytes.length = k) :
    Reads (readNumber k) bytes (ofLeBytes bytes) := by
  have hread := reads_map (reads_take TagError.underrun bytes) ofLeBytes
  rwa [h] at hread

/-- What is skipped can be read, but for the same two types. -/
theorem readValue_of_skipValue {t : UInt8} (h : skipValue t buf = some rest) (h16 : t ≠ 0x08)
    (hblob : t = 0x0A → buf.head? = some 1) : ∃ v, readValue t buf = (.ok v, rest) := by
  obtain ⟨len, hlen, hget⟩ := Option.bind_eq_some_iff.mp h
  obtain ⟨bytes, hbytes, rfl⟩ := getFrom_eq_some hget
  rw [valueLen] at hlen
  split_ifs at hlen with h2 hshort h3 h4 h9 hA hB hinline <;>
    obtain rfl := Option.some.inj hlen
  · obtain ⟨body, fits, rfl⟩ := counted_of_length hbytes
    rw [h2]
    exact ⟨_, reads_counted (k := 2) fits (fun bytes => TagValue.string (fromUtf8Lossy bytes)) rest⟩
  · rw [h3]
    exact ⟨_, reads_map (reads_numberOf hbytes) (fun n => TagValue.u32 (UInt32.ofNat n)) rest⟩
  · rw [h4]
    exact ⟨_, reads_map (reads_numberOf hbytes) (fun n => TagValue.float (UInt32.ofNat n)) rest⟩
  · rw [h9]
    exact ⟨_, reads_map (reads_numberOf hbytes) (fun n => TagValue.u8 (UInt8.ofNat n)) rest⟩
  · obtain ⟨b, c, rfl⟩ := List.length_eq_two.mp hbytes
    obtain rfl := Option.some.inj (hblob hA)
    have hread := reads_counted (k := 1) (show [c].length < 256 from Nat.one_lt_ofNat) TagValue.blob
    rw [hA]
    exact ⟨_, hread rest⟩
  · rw [hB]
    exact ⟨_, reads_map (reads_numberOf hbytes) (fun n => TagValue.u64 (UInt64.ofNat n)) rest⟩
  · obtain ⟨hlo, hhi⟩ := hinline
    have hlo' := UInt8.le_iff_toNat_le.mp hlo
    have hhi' := UInt8.le_iff_toNat_le.mp hhi
    have h17 : (0x11 : UInt8).toNat = 17 := rfl
    have h32 : (0x20 : UInt8).toNat = 32 := rfl
    have h16' : (0x10 : UInt8).toNat = 16 := rfl
    rw [UInt8.toNat_sub_of_le _ _ (UInt8.le_iff_toNat_le.mpr (by omega))] at hbytes
    have htype : TYPE_STR1_BASE + UInt8.ofNat bytes.length = t := by
      apply UInt8.toNat_inj.mp
      rw [short_type_toNat (by omega)]
      omega
    rw [← htype]
    exact ⟨_, reads_inline_bytes (by omega) (by omega) rest⟩

theorem skipOneTag_eq_some (h : skipOneTag buf = some rest) :
    ∃ (typeByte : UInt8) (w : WireName) (after : List UInt8),
      (w.newTagBit != 0) = (typeByte &&& 0x80 != 0) ∧ buf = typeByte :: (w.bytes ++ after) ∧
      skipValue (typeByte &&& 0x7F) after = some rest := by
  cases buf with
  | nil => cases h
  | cons typeByte tail =>
    obtain ⟨after, hname, hvalue⟩ := Option.bind_eq_some_iff.mp h
    obtain ⟨w, hbit, rfl⟩ := skipName_eq_some hname
    exact ⟨typeByte, w, after, hbit, rfl, hvalue⟩

/-- A tag that is skipped is read with the same end, but for the same two types. -/
theorem readTag_iff_skipsAlike (h : skipOneTag buf = some rest) :
    (∃ t, readTag buf = (.ok t, rest)) ↔ skipsAlike buf = true := by
  constructor
  · rintro ⟨t, ht⟩
    obtain ⟨w, -, rfl⟩ := readTag_eq_ok ht
    rw [skipOneTag_bytes] at h
    exact (skipsAlike_bytes w rest).mpr (skipsAlike_of_skipValue h)
  · intro halike
    obtain ⟨typeByte, w, after, hbit, rfl, hvalue⟩ := skipOneTag_eq_some h
    have hname := skipName_bytes w after
    rw [hbit] at hname
    simp only [skipsAlike, hname, Option.any_some, Bool.and_eq_true, Bool.or_eq_true, bne_iff_ne,
      beq_iff_eq] at halike
    obtain ⟨v, hv⟩ := readValue_of_skipValue hvalue halike.1 fun hA =>
      halike.2.resolve_left (absurd hA)
    obtain ⟨wv, htype, -, rfl⟩ := readValue_eq_ok hv
    have hbytes : (⟨w, wv⟩ : WireTag).bytes = typeByte :: (w.bytes ++ wv.bytes) := by
      rw [WireTag.bytes, htype]
      exact congrArg (· :: _) (typeByte_join typeByte hbit)
    have hread := reads_wireTag ⟨w, wv⟩ rest
    rw [hbytes, List.cons_append, List.append_assoc] at hread
    exact ⟨_, hread⟩

theorem valueLen_inline {bytes : List UInt8} (fits : 1 ≤ bytes.length ∧ bytes.length ≤ 16)
    (rest : List UInt8) :
    valueLen (TYPE_STR1_BASE + UInt8.ofNat bytes.length) rest = some bytes.length := by
  set t := TYPE_STR1_BASE + UInt8.ofNat bytes.length with ht
  have hval : t.toNat = 16 + bytes.length := short_type_toNat fits
  have hne : ∀ m : UInt8, m.toNat ≤ 16 → t ≠ m := by
    intro m hm he
    rw [← he, hval] at hm
    omega
  have h17 : (0x11 : UInt8).toNat = 17 := rfl
  have h32 : (0x20 : UInt8).toNat = 32 := rfl
  have h16 : (0x10 : UInt8).toNat = 16 := rfl
  have hrange : 0x11 ≤ t ∧ t ≤ 0x20 := by
    rw [UInt8.le_iff_toNat_le, UInt8.le_iff_toNat_le, h17, h32, hval]
    omega
  have hlen : (t - 0x10).toNat = bytes.length := by
    rw [UInt8.toNat_sub_of_le _ _ (UInt8.le_iff_toNat_le.mpr (by omega)), hval, h16,
      Nat.add_sub_cancel_left]
  rw [valueLen, if_neg (hne _ (by decide)), if_neg (hne _ (by decide)), if_neg (hne _ (by decide)),
    if_neg (hne _ (by decide)), if_neg (hne _ (by decide)), if_neg (hne _ (by decide)),
    if_neg (hne _ (by decide)), if_pos hrange, hlen]

/-- A written tag of a type both know is skipped exactly when it is no two-byte integer. -/
theorem skipOneTag_writeTag_iff {t : Tag} (hfits : t.Fits) (hknow : bothKnow t.value = true)
    (rest : List UInt8) :
    skipOneTag (writeTag t ++ rest) = some rest ↔ isU16 t.value = false := by
  obtain ⟨w, htag, hbytes⟩ := readTag_eq_ok (reads_tag hfits rest)
  have hvalue : w.value.value = t.value.normalise := congrArg Tag.value htag
  rw [hbytes, skipOneTag_bytes]
  constructor
  · intro h
    have hne := (skipsAlike_of_skipValue h).1
    cases hv : t.value with
    | u16 v =>
      rw [hv] at hvalue
      cases hw : w.value <;> rw [hw] at hvalue hne <;>
        first | exact absurd rfl hne | cases hvalue
    | _ => rfl
  · intro h16
    cases hw : w.value with
    | string bytes fits =>
      have hshort : ¬(leBytes 2 bytes.length ++ bytes ++ rest).length < 2 := by
        simp
        omega
      have hlen : valueLen 0x02 (leBytes 2 bytes.length ++ bytes ++ rest) =
          some (2 + bytes.length) := by
        rw [valueLen, if_pos rfl, if_neg hshort, take_counted bytes rest fits]
      change (valueLen 0x02 (leBytes 2 bytes.length ++ bytes ++ rest)).bind
        (fun len => getFrom len (leBytes 2 bytes.length ++ bytes ++ rest)) = some rest
      rw [hlen]
      exact getFrom_counted bytes rest
    | u32 v => exact getFrom_append (leBytes 4 v.toNat) rest
    | float bits => exact getFrom_append (leBytes 4 bits.toNat) rest
    | u8 v => exact getFrom_append (leBytes 1 v.toNat) rest
    | u64 v => exact getFrom_append (leBytes 8 v.toNat) rest
    | short bytes fits =>
      exact Option.bind_eq_some_iff.mpr ⟨_, valueLen_inline fits _, getFrom_append bytes rest⟩
    | u16 v =>
      rw [hw] at hvalue
      cases hv : t.value <;> simp_all [isU16, TagValue.normalise, WireValue.value]
    | bool | blob | hash | boolArray | bsob => all_goals
      rw [hw] at hvalue
      cases hv : t.value <;> simp_all [bothKnow, TagValue.normalise, WireValue.value]

theorem skipTags_written {tags : List Tag} (hfits : ∀ t ∈ tags, t.Fits ∧ bothKnow t.value = true)
    (h16 : ∀ t ∈ tags, isU16 t.value = false) (tree : List UInt8) :
    skipTags tags.length (tags.flatMap writeTag ++ tree) = some tree := by
  induction tags with
  | nil => rfl
  | cons t tags ih =>
    obtain ⟨⟨ht, hknow⟩, hfits⟩ := List.forall_mem_cons.mp hfits
    obtain ⟨ht16, h16⟩ := List.forall_mem_cons.mp h16
    have hskip := (skipOneTag_writeTag_iff ht hknow (tags.flatMap writeTag ++ tree)).mpr ht16
    rw [List.length_cons, skipTags, List.flatMap_cons, List.append_assoc, hskip]
    exact ih hfits h16

theorem strip_written {tags : List Tag} (hcount : tags.length ≤ 16)
    (hfits : ∀ t ∈ tags, t.Fits ∧ bothKnow t.value = true)
    (h16 : ∀ t ∈ tags, isU16 t.value = false) (tree : List UInt8) :
    stripSearchreq3Tags (writeTagList tags ++ tree) = some tree := by
  have htake : (writeTagList tags ++ tree).take 4 = leBytes 4 tags.length := by
    rw [writeTagList, List.append_assoc, List.take_left' (length_leBytes 4 tags.length)]
  have hdrop : (writeTagList tags ++ tree).drop 4 = tags.flatMap writeTag ++ tree := by
    rw [writeTagList, List.append_assoc, List.drop_left' (length_leBytes 4 tags.length)]
  have hlong : ¬(writeTagList tags ++ tree).length < 4 := by
    rw [writeTagList, List.length_append, List.length_append, length_leBytes]
    omega
  have hsmall : tags.length % 256 ^ 4 = tags.length := Nat.mod_eq_of_lt (by omega)
  rw [stripSearchreq3Tags, if_neg hlong, htake, hdrop, ofLeBytes_leBytes, hsmall,
    if_neg (by omega)]
  exact skipTags_written hfits h16 tree

/-- The skipper and the tag reader end a tag alike but for a two-byte integer and for a blob of
another length than one; options without a two-byte integer leave the tree as it was. -/
theorem skip_agrees_iff (buf : List UInt8) (tags : List Tag) :
    (∀ rest, skipOneTag buf = some rest →
      ((∃ t, readTag buf = (.ok t, rest)) ↔ skipsAlike buf = true)) ∧
    (tags.length ≤ 16 → (∀ t ∈ tags, t.Fits ∧ bothKnow t.value = true) →
      ((∀ t ∈ tags, ∀ rest, skipOneTag (writeTag t ++ rest) = some rest) ↔
        ∀ t ∈ tags, isU16 t.value = false) ∧
      ((∀ t ∈ tags, isU16 t.value = false) →
        ∀ tree, stripSearchreq3Tags (writeTagList tags ++ tree) = some tree)) := by
  refine ⟨fun _ => readTag_iff_skipsAlike, fun hcount hfits => ⟨⟨?_, ?_⟩, ?_⟩⟩
  · intro h t ht
    exact (skipOneTag_writeTag_iff (hfits t ht).1 (hfits t ht).2 []).mp (h t ht [])
  · intro h t ht rest
    exact (skipOneTag_writeTag_iff (hfits t ht).1 (hfits t ht).2 rest).mpr (h t ht)
  · exact strip_written hcount hfits

/-- The type of a file, as clients send it. -/
def fileType : Tag := .byte FT_FILETYPE (.string "Video".toList)

theorem fileType_stripped : stripSearchreq3Tags (writeTagList [fileType] ++ [1, 0, 0]) =
    some [1, 0, 0] := by
  refine ((skip_agrees_iff [] [fileType]).2 (by decide) ?_).2 ?_ _
  · intro t ht
    rw [List.mem_singleton.mp ht]
    exact ⟨⟨trivial, (by decide : (utf8 "Video".toList).length < 65536)⟩, rfl⟩
  · intro t ht
    rw [List.mem_singleton.mp ht]
    rfl

/-- A count of sources in two bytes takes two bytes of the tree with it. -/
theorem u16_eats_tree :
    ¬((∀ buf rest, skipOneTag buf = some rest → ∃ t, readTag buf = (.ok t, rest)) ∧
      ∀ tags : List Tag, tags.length ≤ 16 → (∀ t ∈ tags, t.Fits ∧ bothKnow t.value = true) →
        ∀ tree, stripSearchreq3Tags (writeTagList tags ++ tree) = some tree) := by
  rintro ⟨-, h⟩
  have hstrip := h [.byte FT_SOURCES (.u16 300)] (by decide) ?_ [1, 1, 0, 97]
  · revert hstrip
    decide
  · intro t ht
    rw [List.mem_singleton.mp ht]
    exact ⟨⟨trivial, trivial⟩, rfl⟩

end Ed2kServer.Server.OptionTags
