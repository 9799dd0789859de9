import Ed2kServer.Proto.WireTags
import Ed2kServer.Publish.ParseOffer

namespace Ed2kServer.Publish.OfferRecords

open Ed2kServer.Lib.LittleEndian Ed2kServer.Lib.ByteReader Ed2kServer.Text.Chars
open Ed2kServer.Slab.Record Ed2kServer.Slab.MediaFields
open Ed2kServer.Proto.Tags Ed2kServer.Proto.WireTags Ed2kServer.Publish.OfferFiles
open Ed2kServer.Publish.ParseOffer

/-- The tag count of the record header at the front of `slice`. -/
def tagCountAt (slice : List UInt8) : UInt32 := UInt32.ofNat (numberAt slice 22 4)

/-- What `read_tag_list` makes of the record there, and the bytes where it stops. -/
def tagsAt (slice : List UInt8) : List Tag × List UInt8 :=
  readTagList (tagCountAt slice) (slice.drop 26)

def recordAt (U : Unicode) (slice : List UInt8) : OfferedFile :=
  offeredOf (slice.take 26) (readTags U (tagsAt slice).1)

/-- Where the loop of `parse_offerfiles` reads a record header. -/
def headersFrom : Nat → List UInt8 → List (List UInt8)
  | 0, _ => []
  | n + 1, slice =>
    if slice.length < 26 then []
    else if 50 < tagCountAt slice then [slice]
    else slice :: headersFrom n (tagsAt slice).2

def announced (payload : List UInt8) : Nat := numberAt payload 0 4

def headers (payload : List UInt8) : List (List UInt8) :=
  if payload.length < 4 then []
  else if 100000 < announced payload then []
  else headersFrom (announced payload) (payload.drop 4)

/-- No record is read behind one whose tag list came back short. -/
def InStep (payload : List UInt8) : Prop :=
  ∀ slice ∈ (headers payload).dropLast, (tagsAt slice).1.length = (tagCountAt slice).toNat

/-- The header is followed by as many tags as it counts, each in a supported form. -/
def StandsWhole (slice : List UInt8) : Prop :=
  ∃ ws : List WireTag, ws.length = (tagCountAt slice).toNat ∧
    ∃ rest, slice.drop 26 = ws.flatMap WireTag.bytes ++ rest

/-- At each record read: it is the last announced, or it is refused for its tag count, or its
tags stand there whole, or too little for a header is left where the tag reader stops. -/
def Whole (payload : List UInt8) : Prop :=
  ∀ i slice, (headers payload)[i]? = some slice → i + 1 = announced payload ∨
    50 < tagCountAt slice ∨ StandsWhole slice ∨ (tagsAt slice).2.length < 26

theorem standsWhole_iff (slice : List UInt8) :
    StandsWhole slice ↔ (tagsAt slice).1.length = (tagCountAt slice).toNat :=
  (readTagList_full_iff _ _).symm

theorem headersFrom_eq_nil_iff (n : Nat) (slice : List UInt8) :
    headersFrom n slice = [] ↔ n = 0 ∨ slice.length < 26 := by
  cases n with
  | zero => simp [headersFrom]
  | succ n =>
    rw [headersFrom]
    split_ifs <;> simp_all

theorem inStep_from_iff (n : Nat) (slice : List UInt8) :
    (∀ s ∈ (headersFrom n slice).dropLast, (tagsAt s).1.length = (tagCountAt s).toNat) ↔
      ∀ i s, (headersFrom n slice)[i]? = some s → i + 1 = n ∨ 50 < tagCountAt s ∨
        StandsWhole s ∨ (tagsAt s).2.length < 26 := by
  induction n generalizing slice with
  | zero => simp [headersFrom]
  | succ n ih =>
    rw [headersFrom]
    split_ifs with hshort hmany
    · simp
    · simp [List.getElem?_cons, hmany]
    · have hi := ih (tagsAt slice).2
      have hnil := headersFrom_eq_nil_iff n (tagsAt slice).2
      cases hh : headersFrom n (tagsAt slice).2 with
      | nil =>
        rw [hh] at hnil
        have hlast := hnil.mp rfl
        simp only [List.dropLast_singleton, List.not_mem_nil, false_implies, implies_true,
          true_iff]
        intro i s hs
        cases i with
        | zero =>
          obtain rfl : slice = s := by simpa using hs
          exact hlast.imp (by omega) (fun h => Or.inr (Or.inr h))
        | succ i => simp at hs
      | cons s hs =>
        rw [hh] at hi hnil
        have hmore : ¬ (n = 0 ∨ (tagsAt slice).2.length < 26) := fun h => by simpa using hnil.mpr h
        rw [List.dropLast_cons_cons, List.forall_mem_cons, hi, ← standsWhole_iff]
        constructor
        · rintro ⟨hw, hrest⟩ i t ht
          cases i with
          | zero =>
            obtain rfl : slice = t := by simpa using ht
            exact Or.inr (Or.inr (Or.inl hw))
          | succ i => exact (hrest i t (by simpa using ht)).imp_left (by omega)
        · intro h
          refine ⟨?_, fun i t ht => (h (i + 1) t (by simpa using ht)).imp_left (by omega)⟩
          rcases h 0 slice (by simp) with h0 | h0 | h0 | h0
          · exact absurd (Or.inl (by omega)) hmore
          · exact absurd h0 hmany
          · exact h0
          · exact absurd (Or.inr h0) hmore

theorem inStep_iff_whole (payload : List UInt8) : InStep payload ↔ Whole payload := by
  rw [InStep, Whole, headers]
  split_ifs
  · simp
  · simp
  · exact inStep_from_iff _ _

/-- The files returned are the records at the headers read, as many as announced. -/
theorem parseRecords_eq_ok {U : Unicode} {n : Nat} {slice : List UInt8}
    {files : List OfferedFile} (h : parseRecords U n slice = .ok files) :
    files = (headersFrom n slice).map (recordAt U) ∧ files.length = n := by
  induction n generalizing slice files with
  | zero =>
    cases h
    exact ⟨rfl, rfl⟩
  | succ n ih =>
    rw [parseRecords] at h
    rw [headersFrom]
    split_ifs with hshort hmany
    · rw [if_pos hshort] at h
      cases h
    · rw [if_neg hshort] at h
      simp only [tagCountAt] at hmany
      rw [if_pos hmany] at h
      cases h
    · rw [if_neg hshort] at h
      simp only [tagCountAt] at hmany
      rw [if_neg hmany] at h
      change (parseRecords U n (tagsAt slice).2).map (recordAt U slice :: ·) = .ok files at h
      cases hr : parseRecords U n (tagsAt slice).2 with
      | error e => rw [hr] at h; cases h
      | ok rest =>
        rw [hr] at h
        cases h
        obtain ⟨hrest, hlen⟩ := ih hr
        exact ⟨by rw [List.map_cons, ← hrest], by rw [List.length_cons, hlen]⟩

/-- The last value that a list of tags gives. -/
def lastOf {α : Type} (f : Tag → Option α) (tags : List Tag) : Option α :=
  tags.reverse.findSome? f

def fileName? (t : Tag) : Option Str :=
  if t.name = .byte FT_FILENAME then t.strValue else none

/-- The low word of the size that a tag gives: any number under FT_FILESIZE. -/
def sizeLow? (t : Tag) : Option UInt32 :=
  if t.name = .byte FT_FILESIZE then t.asU32.orElse (fun _ => t.asU64.map UInt64.toUInt32)
  else none

/-- The high word: a 64-bit number under FT_FILESIZE, a smaller one under FT_FILESIZE_HI. -/
def sizeHigh? (t : Tag) : Option UInt32 :=
  if t.name = .byte FT_FILESIZE then
    if t.asU32.isSome then none else t.asU64.map (fun v : UInt64 => (v >>> 32).toUInt32)
  else if t.name = .byte FT_FILESIZE_HI then t.asU32
  else none

def denotedSize (tags : List Tag) : Nat :=
  ((lastOf sizeHigh? tags).getD 0).toNat * 2 ^ 32 + ((lastOf sizeLow? tags).getD 0).toNat

/-- A well-formed record: at most 50 tags, each in a supported form. -/
structure WireRecord where
  hash : FileHash
  clientId : UInt32
  port : UInt16
  tags : List WireTag
  few : tags.length ≤ 50

def WireRecord.header (r : WireRecord) : List UInt8 :=
  r.hash.toList ++ (leBytes 4 r.clientId.toNat ++ (leBytes 2 r.port.toNat ++
    leBytes 4 r.tags.length))

def WireRecord.bytes (r : WireRecord) : List UInt8 :=
  r.header ++ r.tags.flatMap WireTag.bytes

def encode (rs : List WireRecord) : List UInt8 :=
  leBytes 4 rs.length ++ rs.flatMap WireRecord.bytes

structure Describes (r : WireRecord) (f : OfferedFile) : Prop where
  hash : f.hash = r.hash
  clientId : f.clientId = r.clientId
  port : f.port = r.port
  filename : f.filename = (lastOf fileName? (r.tags.map WireTag.tag)).getD []
  size : f.size.toNat = denotedSize (r.tags.map WireTag.tag)

section LastOf

variable {α : Type} (f : Tag → Option α)

theorem lastOf_concat (tags : List Tag) (t : Tag) :
    lastOf f (tags ++ [t]) = (f t).or (lastOf f tags) := by
  rw [lastOf, List.reverse_append, List.reverse_singleton, List.singleton_append,
    List.findSome?_cons]
  cases f t <;> rfl

theorem lastOf_eq_getLast? (tags : List Tag) : lastOf f tags = (tags.filterMap f).getLast? := by
  rw [lastOf, List.getLast?_eq_head?_reverse, ← List.filterMap_reverse, List.head?_filterMap]

/-- When the tags that give a value agree, their order is of no matter. -/
theorem lastOf_perm {tags tags' : List Tag} (h : tags.Perm tags')
    (hone : ∀ a ∈ tags.filterMap f, ∀ b ∈ tags.filterMap f, a = b) :
    lastOf f tags' = lastOf f tags := by
  rw [lastOf_eq_getLast?, lastOf_eq_getLast?]
  have hp := h.filterMap f
  cases hl : (tags.filterMap f).getLast? with
  | none =>
    rw [List.getLast?_eq_none_iff] at hl
    rw [hl] at hp
    rw [List.nil_perm.mp hp]
    rfl
  | some a =>
    have ha := List.mem_of_getLast? hl
    cases hl' : (tags'.filterMap f).getLast? with
    | none =>
      rw [List.getLast?_eq_none_iff] at hl'
      rw [hl'] at hp
      rw [List.perm_nil.mp hp] at ha
      cases ha
    | some b => rw [hone a ha b (hp.mem_iff.mpr (List.mem_of_getLast? hl'))]

end LastOf

theorem denotedSize_perm {tags tags' : List Tag} (h : tags.Perm tags')
    (hlow : ∀ a ∈ tags.filterMap sizeLow?, ∀ b ∈ tags.filterMap sizeLow?, a = b)
    (hhigh : ∀ a ∈ tags.filterMap sizeHigh?, ∀ b ∈ tags.filterMap sizeHigh?, a = b) :
    denotedSize tags' = denotedSize tags := by
  rw [denotedSize, denotedSize, lastOf_perm sizeLow? h hlow, lastOf_perm sizeHigh? h hhigh]

section ReadTags

variable (U : Unicode)

theorem readMedia_fields (d : Draft) (t : Tag) : (d.readMedia U t).filename = d.filename ∧
    (d.readMedia U t).sizeLo = d.sizeLo ∧ (d.readMedia U t).sizeHi = d.sizeHi := by
  rw [Draft.readMedia]
  split_ifs <;> exact ⟨rfl, rfl, rfl⟩

theorem readFile_fields (d : Draft) (t : Tag) :
    (d.readFile t).filename = (fileName? t).getD d.filename ∧
      (d.readFile t).sizeLo = (sizeLow? t).getD d.sizeLo ∧
      (d.readFile t).sizeHi = (sizeHigh? t).getD d.sizeHi := by
  have h12 : FT_FILENAME ≠ FT_FILESIZE := by decide
  have h13 : FT_FILENAME ≠ FT_FILESIZE_HI := by decide
  have h23 : FT_FILESIZE ≠ FT_FILESIZE_HI := by decide
  rw [Draft.readFile, fileName?, sizeLow?, sizeHigh?]
  by_cases h1 : t.name = .byte FT_FILENAME
  · simp [h1, h12, h13]
  · by_cases h2 : t.name = .byte FT_FILESIZE
    · cases t.asU32 with
      | some v => simp [h2, h12.symm]
      | none => cases t.asU64 <;> simp [h2, h12.symm]
    · by_cases h3 : t.name = .byte FT_FILESIZE_HI <;> simp [h1, h2, h3, h13.symm, h23.symm]

/-- What the tags of a record give is what their last values are. -/
theorem readTags_fields (tags : List Tag) :
    (readTags U tags).filename = (lastOf fileName? tags).getD [] ∧
      (readTags U tags).sizeLo = (lastOf sizeLow? tags).getD 0 ∧
      (readTags U tags).sizeHi = (lastOf sizeHigh? tags).getD 0 := by
  induction tags using List.reverseRecOn with
  | nil => exact ⟨rfl, rfl, rfl⟩
  | append_singleton tags t ih =>
    obtain ⟨hname, hlo, hhi⟩ := ih
    obtain ⟨mname, mlo, mhi⟩ := readMedia_fields U (readTags U tags) t
    obtain ⟨fname, flo, fhi⟩ := readFile_fields ((readTags U tags).readMedia U t) t
    rw [readTags_concat, fname, flo, fhi, mname, mlo, mhi, hname, hlo, hhi, lastOf_concat, lastOf_concat,
      lastOf_concat, Option.getD_or, Option.getD_or, Option.getD_or]
    exact ⟨rfl, rfl, rfl⟩

end ReadTags

theorem joinWords_toNat (hi lo : UInt32) :
    ((hi.toUInt64 <<< 32) ||| lo.toUInt64).toNat = hi.toNat * 2 ^ 32 + lo.toNat := by
  have hhi := hi.toNat_lt
  have hlo := lo.toNat_lt
  have hshift : (hi.toUInt64 <<< 32).toNat = hi.toNat <<< 32 := by
    rw [UInt64.toNat_shiftLeft, UInt32.toNat_toUInt64, Nat.shiftLeft_eq]
    have h32 : (32 : UInt64).toNat % 64 = 32 := rfl
    rw [h32, Nat.shiftLeft_eq, Nat.mod_eq_of_lt (by omega)]
  rw [UInt64.toNat_or, hshift, UInt32.toNat_toUInt64, ← Nat.shiftLeft_add_eq_or_of_lt hlo,
    Nat.shiftLeft_eq]

theorem numberAt_append {a b c : List UInt8} {i k : Nat} (ha : a.length = i) (hb : b.length = k) :
    numberAt (a ++ (b ++ c)) i k = ofLeBytes b := by
  rw [numberAt, List.drop_left' ha, List.take_left' hb]

section Record

variable (r : WireRecord) (rest : List UInt8)

theorem header_length : r.header.length = 26 := by
  simp [WireRecord.header]

theorem tagCount_record : (tagCountAt (r.bytes ++ rest)).toNat = r.tags.length := by
  have hfew := r.few
  have hnum : numberAt (r.bytes ++ rest) 22 4 = ofLeBytes (leBytes 4 r.tags.length) := by
    have hsplit : r.bytes ++ rest = (r.hash.toList ++ (leBytes 4 r.clientId.toNat ++
        leBytes 2 r.port.toNat)) ++ (leBytes 4 r.tags.length ++
          (r.tags.flatMap WireTag.bytes ++ rest)) := by
      simp [WireRecord.bytes, WireRecord.header]
    rw [hsplit, numberAt_append (by simp) (by simp)]
  rw [tagCountAt, hnum, ofLeBytes_leBytes, UInt32.toNat_ofNat']
  omega

theorem tags_record :
    tagsAt (r.bytes ++ rest) = (r.tags.map WireTag.tag, rest) := by
  rw [tagsAt, readTagList, tagCount_record, WireRecord.bytes, List.append_assoc,
    List.drop_left' (header_length r)]
  exact upTo_of_reads (fun w _ => reads_wireTag w) rest

theorem describes_record (U : Unicode) : Describes r (recordAt U (r.bytes ++ rest)) := by
  have htake : (r.bytes ++ rest).take 26 = r.header := by
    rw [WireRecord.bytes, List.append_assoc, List.take_left' (header_length r)]
  obtain ⟨hname, hlo, hhi⟩ := readTags_fields U (r.tags.map WireTag.tag)
  rw [recordAt, tags_record, htake]
  constructor
  · apply Vector.ext
    intro i hi
    have hget : r.header.getD i 0 = r.hash[i] := by
      rw [WireRecord.header, List.getD_append _ _ _ _ (by simpa using hi),
        List.getD_eq_getElem _ _ (by simpa using hi), Vector.getElem_toList]
    rw [offeredOf, readHash, Vector.getElem_ofFn, hget]
  · have hnum : numberAt r.header 16 4 = ofLeBytes (leBytes 4 r.clientId.toNat) :=
      numberAt_append (by simp) (by simp)
    have hlt : r.clientId.toNat < 256 ^ 4 := r.clientId.toNat_lt
    rw [offeredOf, hnum, ofLeBytes_leBytes, Nat.mod_eq_of_lt hlt, UInt32.ofNat_toNat]
  · have hsplit : r.header = (r.hash.toList ++ leBytes 4 r.clientId.toNat) ++
        (leBytes 2 r.port.toNat ++ leBytes 4 r.tags.length) := by
      simp [WireRecord.header]
    have hnum : numberAt r.header 20 2 = ofLeBytes (leBytes 2 r.port.toNat) := by
      rw [hsplit, numberAt_append (by simp) (by simp)]
    have hlt : r.port.toNat < 256 ^ 2 := r.port.toNat_lt
    rw [offeredOf, hnum, ofLeBytes_leBytes, Nat.mod_eq_of_lt hlt, UInt16.ofNat_toNat]
  · exact hname
  · rw [offeredOf, joinWords_toNat, hlo, hhi, denotedSize]

end Record

theorem parseRecords_records (U : Unicode) (rs : List WireRecord) (rest : List UInt8) :
    ∃ files, parseRecords U rs.length (rs.flatMap WireRecord.bytes ++ rest) = .ok files ∧
      List.Forall₂ Describes rs files := by
  induction rs with
  | nil => exact ⟨[], rfl, .nil⟩
  | cons r rs ih =>
    obtain ⟨files, hfiles, hall⟩ := ih
    rw [List.flatMap_cons, List.append_assoc]
    set behind := rs.flatMap WireRecord.bytes ++ rest
    refine ⟨recordAt U (r.bytes ++ behind) :: files, ?_, .cons (describes_record r behind U) hall⟩
    have hlen : ¬ (r.bytes ++ behind).length < 26 := by
      rw [WireRecord.bytes, List.append_assoc, List.length_append, header_length]
      omega
    have hmany : ¬ 50 < UInt32.ofNat (numberAt (r.bytes ++ behind) 22 4) := by
      have h := tagCount_record r behind
      have hfew := r.few
      rw [UInt32.lt_iff_toNat_lt, ← tagCountAt, h]
      exact not_lt.mpr hfew
    rw [List.length_cons, parseRecords, if_neg hlen]
    simp only [if_neg hmany]
    change (parseRecords U rs.length (tagsAt (r.bytes ++ behind)).2).map
      (recordAt U (r.bytes ++ behind) :: ·) = _
    rw [tags_record, hfiles]
    rfl

theorem announced_encode (rs : List WireRecord) (rest : List UInt8) :
    numberAt (encode rs ++ rest) 0 4 = rs.length % 256 ^ 4 := by
  have h := numberAt_append (i := 0) (a := []) (b := leBytes 4 rs.length)
    (c := rs.flatMap WireRecord.bytes ++ rest) rfl (length_leBytes 4 _)
  rw [List.nil_append, ← List.append_assoc, ← encode] at h
  rw [h, ofLeBytes_leBytes]

theorem drop_encode (rs : List WireRecord) (rest : List UInt8) :
    (encode rs ++ rest).drop 4 = rs.flatMap WireRecord.bytes ++ rest := by
  rw [encode, List.append_assoc, List.drop_left' (length_leBytes 4 _)]

/-- One file for each record, with what the record says. -/
def ReturnsAll (U : Unicode) (rs : List WireRecord) (rest : List UInt8) : Prop :=
  ∃ files, parseOfferfiles U (encode rs ++ rest) = .ok files ∧ List.Forall₂ Describes rs files

theorem returnsAll_iff (U : Unicode) (rs : List WireRecord) (rest : List UInt8) :
    ReturnsAll U rs rest ↔ rs.length ≤ 100000 := by
  have hlen : ¬ (encode rs ++ rest).length < 4 := by
    rw [encode, List.append_assoc, List.length_append, length_leBytes]
    omega
  rw [ReturnsAll, parseOfferfiles, if_neg hlen]
  simp only [announced_encode, drop_encode]
  constructor
  · rintro ⟨files, hparse, hall⟩
    by_contra hmany
    split at hparse
    · cases hparse
    · rename_i hcount
      have hl := (parseRecords_eq_ok hparse).2
      have hl' := hall.length_eq
      omega
  · intro h
    have hmod : rs.length % 256 ^ 4 = rs.length := Nat.mod_eq_of_lt (by omega)
    rw [hmod, if_neg (by omega)]
    exact parseRecords_records U rs rest

/-- A record stands behind a short tag list exactly when a list other than the last announced is
cut short with a header's length left; well-formed records come back one for one up to the limit
on their number; and the size they give does not depend on the order of their tags. -/
theorem parseOfferfiles_inStep_iff (U : Unicode) :
    (∀ payload, InStep payload ↔ Whole payload) ∧
      (∀ rs rest, ReturnsAll U rs rest ↔ rs.length ≤ 100000) ∧
      ∀ tags tags' : List Tag, tags.Perm tags' →
        (∀ a ∈ tags.filterMap sizeLow?, ∀ b ∈ tags.filterMap sizeLow?, a = b) →
        (∀ a ∈ tags.filterMap sizeHigh?, ∀ b ∈ tags.filterMap sizeHigh?, a = b) →
        denotedSize tags' = denotedSize tags :=
  ⟨inStep_iff_whole, fun rs rest => returnsAll_iff U rs rest,
    fun _ _ h hlow hhigh => denotedSize_perm h hlow hhigh⟩

/-- 5 GiB, with the high word in front of the low one and behind it. -/
theorem parseOfferfiles_inStep_iff_swapped :
    denotedSize [.byte FT_FILESIZE_HI (.u32 1), .byte FT_FILESIZE (.u32 0x40000000)] =
      denotedSize [.byte FT_FILESIZE (.u32 0x40000000), .byte FT_FILESIZE_HI (.u32 1)] := by
  set tags : List Tag := [.byte FT_FILESIZE (.u32 0x40000000), .byte FT_FILESIZE_HI (.u32 1)]
  have hlow : tags.filterMap sizeLow? = [0x40000000] := by decide
  have hhigh : tags.filterMap sizeHigh? = [1] := by decide
  exact (parseOfferfiles_inStep_iff basicLatin).2.2 tags _ (.swap ..) (by simp [hlow])
    (by simp [hhigh])

/-- A record with one tag of the unsupported type 0x0C, and 26 bytes of its value. -/
def shortList : List UInt8 :=
  [2, 0, 0, 0] ++ List.replicate 16 1 ++ [0, 0, 0, 0, 0, 0] ++ [1, 0, 0, 0] ++ [0x8C, 0x01] ++
    List.replicate 16 0xAA ++ List.replicate 10 0

/-- The bytes of the value are returned as a second record. -/
theorem not_inStep_shortList : ¬ InStep shortList ∧
    ∃ files, parseOfferfiles basicLatin shortList = .ok files ∧
      files.map (·.hash.toList) = [List.replicate 16 1, List.replicate 16 0xAA] := by
  have hheaders : headers shortList = [shortList.drop 4, shortList.drop 32] := by decide
  constructor
  · intro h
    have hfull := h (shortList.drop 4) (by rw [hheaders]; exact List.mem_singleton.mpr rfl)
    exact absurd hfull (by decide)
  · have hlen : ¬ shortList.length < 4 := by decide
    have hcount : numberAt shortList 0 4 = 2 := by decide
    have hfew : ¬ 100000 < 2 := by decide
    rw [parseOfferfiles, if_neg hlen]
    simp only [hcount, if_neg hfew]
    have hok : (parseRecords basicLatin 2 (shortList.drop 4)).isOk = true := by decide
    cases hp : parseRecords basicLatin 2 (shortList.drop 4) with
    | error e => rw [hp] at hok; cases hok
    | ok files =>
      refine ⟨files, rfl, ?_⟩
      obtain ⟨rfl, -⟩ := parseRecords_eq_ok hp
      decide

end Ed2kServer.Publish.OfferRecords
