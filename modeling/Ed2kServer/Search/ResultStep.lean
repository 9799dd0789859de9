import Ed2kServer.Search.ResultPage

namespace Ed2kServer.Search.ResultStep

open Ed2kServer.Lib.LittleEndian Ed2kServer.Lib.ByteReader
open Ed2kServer.Text.Chars Ed2kServer.Text.Utf8
open Ed2kServer.Slab.Record Ed2kServer.Slab.Codecs Ed2kServer.Proto.Tags
open Ed2kServer.Search.ResultPage

variable {U : Unicode} {s : Server} {file : FileRecord}

theorem length_lossyFrom_le (n : Nat) (bytes : List UInt8) :
    (lossyFrom n bytes).length ≤ bytes.length := by
  induction n generalizing bytes with
  | zero => exact Nat.zero_le _
  | succ n ih =>
    rw [lossyFrom]
    split
    · exact Nat.zero_le _
    · rename_i hne
      have hpos := List.length_pos_of_ne_nil hne
      have hdrop : ∀ k, 0 < k → (lossyFrom n (bytes.drop k)).length + 1 ≤ bytes.length := by
        intro k hk
        have h := ih (bytes.drop k)
        rw [List.length_drop] at h
        omega
      split
      · rename_i c hc
        exact hdrop _ c.utf8Size_pos
      · exact hdrop _ (invalidLength_le hne).2

theorem utf8_length_le (name : Str) : (utf8 name).length ≤ 4 * name.length := by
  induction name with
  | nil => exact Nat.le_refl 0
  | cons c name ih =>
    have hc := c.utf8Size_le_four
    rw [utf8, List.flatMap_cons, List.length_append, String.length_utf8EncodeChar]
    rw [utf8] at ih
    simp only [List.length_cons]
    omega

/-- What the first `k` bytes of a string are read as is hardly longer than `k`. -/
theorem lossyFrom_take_le (name : Str) (n k : Nat) :
    (utf8 (lossyFrom n ((utf8 name).take k))).length ≤ k + 12 := by
  induction name generalizing n k with
  | nil =>
    have hnil : (utf8 []).take k = [] := List.take_nil
    rw [hnil]
    cases n <;> exact Nat.zero_le _
  | cons c name ih =>
    have hsplit : utf8 (c :: name) = String.utf8EncodeChar c ++ utf8 name := List.flatMap_cons
    have hlen := String.length_utf8EncodeChar c
    by_cases hk : c.utf8Size ≤ k
    · cases n with
      | zero => exact Nat.zero_le _
      | succ n =>
        have hne : (String.utf8EncodeChar c ++ (utf8 name).take (k - c.utf8Size)) ≠ [] := by simp
        rw [hsplit, List.take_append, List.take_of_length_le (by omega), hlen, lossyFrom,
          if_neg hne, decodeChar_encode]
        simp only [← hlen, List.drop_left]
        have h := ih n (k - (String.utf8EncodeChar c).length)
        rw [utf8, List.flatMap_cons, List.length_append]
        rw [utf8] at h
        omega
    · have hc := c.utf8Size_le_four
      have hbytes := length_lossyFrom_le n ((utf8 (c :: name)).take k)
      have htake := List.length_take_le k (utf8 (c :: name))
      have h := utf8_length_le (lossyFrom n ((utf8 (c :: name)).take k))
      omega

/-- A string of more than 65535 bytes is not read back from as many as its length field says. -/
theorem cut_ne {name : Str} (h : 65536 ≤ (utf8 name).length) :
    fromUtf8Lossy ((utf8 name).take ((utf8 name).length % 65536)) ≠ name := by
  intro he
  have hle := lossyFrom_take_le name ((utf8 name).take ((utf8 name).length % 65536)).length
    ((utf8 name).length % 65536)
  rw [fromUtf8Lossy] at he
  rw [he] at hle
  omega

/-- The tag of a name that does not fit is read up to where its length field says. -/
theorem readTag_cut {name : Str} (h : 65536 ≤ (utf8 name).length) (rest : List UInt8) :
    readTag (writeTag (Tag.byte FT_FILENAME (.string name)) ++ rest) =
      (.ok (Tag.byte FT_FILENAME
          (.string (fromUtf8Lossy ((utf8 name).take ((utf8 name).length % 65536))))),
        (utf8 name).drop ((utf8 name).length % 65536) ++ rest) := by
  set k := (utf8 name).length % 65536 with hk
  have hlt : k < 256 ^ 2 := Nat.mod_lt _ (by decide)
  have hlen : ((utf8 name).take k).length = k := List.length_take_of_le (by omega)
  have hlong : isInline (.byte FT_FILENAME) name = false := by
    simp only [isInline, Bool.and_eq_false_iff, decide_eq_false_iff_not]
    right
    omega
  have hvalue : Reads (readValue TYPE_STRING) (leBytes 2 k ++ (utf8 name).take k)
      (.string (fromUtf8Lossy ((utf8 name).take k))) := by
    have hfits : ((utf8 name).take k).length < 256 ^ 2 := by
      rw [hlen]
      exact hlt
    have hread := reads_counted hfits
      (fun bytes => TagValue.string (fromUtf8Lossy bytes))
    rwa [hlen] at hread
  have hname : Reads (readName true) [FT_FILENAME] (.byte FT_FILENAME) :=
    reads_map (reads_byte FT_FILENAME) (fun n => TagName.byte (UInt8.ofNat n))
  have hread : Reads readTag ([0x82] ++ ([FT_FILENAME] ++ (leBytes 2 k ++ (utf8 name).take k)))
      (Tag.byte FT_FILENAME (.string (fromUtf8Lossy ((utf8 name).take k)))) :=
    reads_bind (reads_byte 0x82) (reads_bind hname (reads_map hvalue _))
  have hwrite : writeTag (Tag.byte FT_FILENAME (.string name)) ++ rest =
      ([0x82] ++ ([FT_FILENAME] ++ (leBytes 2 k ++ (utf8 name).take k))) ++
        ((utf8 name).drop k ++ rest) := by
    have hbytes : writeTag (Tag.byte FT_FILENAME (.string name)) =
        0x82 :: FT_FILENAME :: (leBytes 2 (utf8 name).length ++ utf8 name) := by
      simp only [writeTag, Tag.byte, typeMarker, writeName, writeValue, hlong,
        Bool.false_eq_true, if_false]
      rfl
    have hcut : leBytes 2 k = leBytes 2 (utf8 name).length := leBytes_mod 2 _
    rw [hbytes, hcut]
    simp only [List.cons_append, List.nil_append, List.append_assoc, List.cons.injEq, true_and,
      List.append_cancel_left_eq]
    rw [← List.append_assoc, List.take_append_drop]
  rw [hwrite, hread]

theorem resultTags_cons (s : Server) (file : FileRecord) :
    ∃ more, resultTags U s file = Tag.byte FT_FILENAME (.string file.name) :: more := by
  simp only [resultTags, List.cons_append, List.append_assoc]
  exact ⟨_, rfl⟩

theorem readTags_cut (h : 65536 ≤ (utf8 file.name).length) (rest : List UInt8) :
    ∃ tags left, readTags (writeTagList (resultTags U s file) ++ rest) = (.ok tags, left) ∧
      tags ≠ (resultTags U s file).map Tag.normalise := by
  obtain ⟨more, hmore⟩ := resultTags_cons (U := U) s file
  have hcount : (UInt32.ofNat (resultTags U s file).length).toNat = more.length + 1 := by
    rw [UInt32.toNat_ofNat', Nat.mod_eq_of_lt (resultTags_length s file), hmore,
      List.length_cons]
  have hback := readBack_writeTagList (resultTags U s file) rest
  rw [readTagList, hcount, hmore, List.flatMap_cons, List.append_assoc, upTo, readTag_cut h]
    at hback
  rw [readTags, hmore, hback]
  refine ⟨_, _, rfl, fun he => ?_⟩
  have hhead := congrArg List.head? he
  simp only [List.map_cons, List.head?_cons, Option.some.injEq, Tag.byte, Tag.normalise,
    Tag.mk.injEq, TagValue.normalise, TagValue.string.injEq] at hhead
  exact cut_ne h hhead.2

/-- A result whose name does not fit is read as another one. -/
theorem readResult_cut (h : 65536 ≤ (utf8 file.name).length) (rest : List UInt8) :
    ∃ r left, readResult (writeResult U s file ++ rest) = (.ok r, left) ∧
      r ≠ resultOf U s file := by
  obtain ⟨tags, left, hread, hne⟩ := readTags_cut (U := U) (s := s) h rest
  refine ⟨⟨file.hash.toList, (searchResultSource s file.sources).1.toNat,
    (searchResultSource s file.sources).2.toNat, tags⟩, left, ?_, fun he => ?_⟩
  · have hhash := reads_take TagError.underrun file.hash.toList
    rw [Vector.length_toList] at hhash
    have hid := reads_readNumber (k := 4) (UInt32.toNat_lt (searchResultSource s file.sources).1)
    have hport := reads_readNumber (k := 2) (UInt16.toNat_lt (searchResultSource s file.sources).2)
    simp only [readResult, writeResult, List.append_assoc]
    rw [takeBytes, bind_of_reads hhash, bind_of_reads hid, bind_of_reads hport, bind_of_ok hread]
    rfl
  · exact hne (Result.mk.inj he).2.2.2

theorem inStep_names {page : List FileRecord} (rest : List UInt8)
    (h : upTo readResult page.length (page.flatMap (writeResult U s) ++ rest) =
      (page.map (resultOf U s), rest)) (hcodecs : ∀ c ∈ s.codecs.names, (utf8 c).length < 65536) :
    ∀ file ∈ page, (utf8 file.name).length < 65536 := by
  induction page with
  | nil => exact fun file hm => absurd hm List.not_mem_nil
  | cons file page ih =>
    rw [List.length_cons, List.flatMap_cons, List.append_assoc, upTo, List.map_cons] at h
    by_cases hlen : (utf8 file.name).length < 65536
    · have hread := reads_result (resultTags_fit (U := U) hlen hcodecs)
      rw [hread] at h
      obtain ⟨htags, hrest⟩ := Prod.mk.inj h
      have hpage := ih (Prod.ext (List.cons.inj htags).2 hrest)
      exact List.forall_mem_cons.mpr ⟨hlen, hpage⟩
    · obtain ⟨r, left, hread, hne⟩ := readResult_cut (U := U) (s := s) (Nat.le_of_not_lt hlen)
        (page.flatMap (writeResult U s) ++ rest)
      rw [hread] at h
      exact absurd (List.cons.inj (Prod.mk.inj h).1).1 hne

/-- A page is read in step exactly when every name on it fits. -/
theorem inStep_iff {page : List FileRecord} (hlen : page.length < 2 ^ 32)
    (hcodecs : ∀ c ∈ s.codecs.names, (utf8 c).length < 65536) (hasMore : Bool) :
    InStep U s page hasMore ↔ ∀ file ∈ page, (utf8 file.name).length < 65536 := by
  constructor
  · intro h
    rw [InStep, readPage, buildSearchResultPage, List.take_left' (length_leBytes 4 page.length),
      List.drop_left' (length_leBytes 4 page.length), ofLeBytes_leBytes,
      Nat.mod_eq_of_lt (by omega)] at h
    exact inStep_names _ h hcodecs
  · intro h
    exact inStep_of_fits hlen (fun file hm => resultTags_fit (h file hm) hcodecs) hasMore

end Ed2kServer.Search.ResultStep
