import Ed2kServer.Publish.StoredNames

namespace Ed2kServer.Search.ResultRuns

open Ed2kServer.Lib.Transition Ed2kServer.Text.Chars Ed2kServer.Text.Utf8
open Ed2kServer.Keyword.Index
open Ed2kServer.Slab.Record Ed2kServer.Slab.Store Ed2kServer.Slab.StoreSpec
open Ed2kServer.Slab.MediaFields Ed2kServer.Slab.Codecs Ed2kServer.Sources.Address
open Ed2kServer.Proto.Tags Ed2kServer.Proto.WireTags
open Ed2kServer.Publish.Files Ed2kServer.Publish.OfferFiles Ed2kServer.Publish.RefusedOffer
open Ed2kServer.Publish.OfferRecords Ed2kServer.Publish.StoredNames
open Ed2kServer.Search.ResultPage Ed2kServer.Search.ResultStep

/-- The server before its first client. -/
def boot (quarantineSecs : UInt32) (subtokens : Bool) : Publish.OfferFiles.Server :=
  ⟨⟨.new quarantineSecs, .withSubtokens subtokens, fun _ => none, .empty⟩, fun _ => none,
    fun _ => none, fun _ => none⟩

/-- What a page of results reads of the server. -/
def pageView (s : Publish.OfferFiles.Server) (clients : UserHash → Option ConnectedSource) :
    ResultPage.Server where
  clients := clients
  mediaOfHash hash := (mediaOfHash s.files.fileSlab hash).join
  codecs := s.files.codecs

def SEARCH_PAGE_HARD_MAX : Nat := 2000

def searchPageSize (maxSearchResults : UInt32) : Nat :=
  max 1 (min maxSearchResults.toNat SEARCH_PAGE_HARD_MAX)

/-- A record that was live at some point of the run; a page may be built from it later. -/
def Seen (U : Unicode) (s : Publish.OfferFiles.Server) (es : List Event) (file : FileRecord) : Prop :=
  ∃ pre t id, pre <+: es ∧ exec (step U) s pre = some t ∧ t.files.fileSlab.get id = some file

/-- The length of the name fits its field. -/
def Short (name : Str) : Prop := (utf8 name).length < 65536

variable {U : Unicode} {P : Str → Prop} {s t : Publish.OfferFiles.Server}
  {es : List Event}

theorem inv_boot (P : Str → Prop) (quarantineSecs : UInt32) (subtokens : Bool) :
    Inv P (boot quarantineSecs subtokens).files :=
  ⟨fun _ _ hr => absurd hr List.not_mem_nil, fun _ hc => absurd hc List.not_mem_nil⟩

theorem inv_run (hs : Inv P s.files) (hes : ∀ e ∈ es, StoresIn U P e)
    (hrun : exec (step U) s es = some t) : Inv P t.files := by
  have hstep : ∀ s e t, Inv P s.files → StoresIn U P e → step U s e = some t → Inv P t.files :=
    fun _ _ _ h he ht => inv_step h he ht
  exact exec_invariant_along hstep hs (along_of_forall s hes) hrun

theorem seen_name (hs : Inv P s.files) (hes : ∀ e ∈ es, StoresIn U P e) {file : FileRecord}
    (h : Seen U s es file) : P file.name := by
  obtain ⟨pre, t, id, hpre, hrun, hget⟩ := h
  exact (inv_run hs (fun e he => hes e (hpre.subset he)) hrun).names.get hget

theorem short_of_length {c : Str} (h : c.length ≤ CodecTable.MAX_LEN) : Short c := by
  have hmax : CodecTable.MAX_LEN = 19 := rfl
  have hbytes := utf8_length_le c
  rw [Short]
  omega

/-- The codec names of a running server fit whatever was offered. -/
theorem codecs_short {quarantineSecs : UInt32} {subtokens : Bool}
    (hrun : exec (step U) (boot quarantineSecs subtokens) es = some t) :
    ∀ c ∈ t.files.codecs.names, Short c := by
  have hall : ∀ e : Event, StoresIn U (fun _ => True) e := by
    intro e
    cases e with
    | record => exact fun _ _ => trivial
    | takeUserFiles | dropSource | evict | purgeIds => exact trivial
  have hinv := inv_run (P := fun _ => True) (inv_boot _ quarantineSecs subtokens)
    (fun e _ => hall e) hrun
  exact fun c hc => short_of_length (hinv.codecs c hc)

theorem resultTags_fit_iff {view : ResultPage.Server} (hcodecs : ∀ c ∈ view.codecs.names, Short c)
    (file : FileRecord) : (∀ t ∈ resultTags U view file, t.Fits) ↔ Short file.name := by
  constructor
  · intro h
    obtain ⟨more, hmore⟩ := resultTags_cons (U := U) view file
    rw [hmore] at h
    exact (h _ List.mem_cons_self).value
  · exact fun h => resultTags_fit h hcodecs

theorem searchPageSize_lt (maxSearchResults : UInt32) :
    searchPageSize maxSearchResults < 2 ^ 32 := by
  have hmax : SEARCH_PAGE_HARD_MAX = 2000 := rfl
  rw [searchPageSize]
  omega

/-- A list of tags that fit round trips exactly when its count fits too. Of any running server, the
tags of a page fit, and the page is read in step, exactly when the names on it fit; and so it is for
every page while each name is short enough when it is stored. -/
theorem pages_in_step (U : Unicode) :
    (∀ tags : List Tag, (∀ t ∈ tags, t.Fits) → (RoundTrips tags ↔ tags.length < 2 ^ 32)) ∧
      ∀ quarantineSecs subtokens es s,
        exec (step U) (boot quarantineSecs subtokens) es = some s →
        ∀ clients maxSearchResults (page : List FileRecord) hasMore,
          page.length ≤ searchPageSize maxSearchResults →
          ((∀ file ∈ page, ∀ t ∈ resultTags U (pageView s clients) file, t.Fits) ↔
              ∀ file ∈ page, Short file.name) ∧
            (ResultPage.InStep U (pageView s clients) page hasMore ↔ ∀ file ∈ page, Short file.name) ∧
            ((∀ e ∈ es, StoresIn U Short e) →
              (∀ file ∈ page, Seen U (boot quarantineSecs subtokens) es file) →
              (∀ file ∈ page, ∀ t ∈ resultTags U (pageView s clients) file, t.Fits) ∧
                ResultPage.InStep U (pageView s clients) page hasMore) := by
  refine ⟨fun tags => tags_roundTrip_iff, ?_⟩
  intro quarantineSecs subtokens es s hrun clients maxSearchResults page hasMore hlen
  have hcodecs : ∀ c ∈ (pageView s clients).codecs.names, Short c := codecs_short hrun
  have hfit : (∀ file ∈ page, ∀ t ∈ resultTags U (pageView s clients) file, t.Fits) ↔
      ∀ file ∈ page, Short file.name :=
    forall₂_congr (fun file _ => resultTags_fit_iff hcodecs file)
  have hcount : page.length < 2 ^ 32 :=
    Nat.lt_of_le_of_lt hlen (searchPageSize_lt maxSearchResults)
  have hstep := inStep_iff (U := U) hcount hcodecs hasMore
  refine ⟨hfit, hstep, fun hes hseen => ?_⟩
  have hnames : ∀ file ∈ page, Short file.name := fun file hm =>
    seen_name (inv_boot _ quarantineSecs subtokens) hes (hseen file hm)
  exact ⟨hfit.mpr hnames, hstep.mpr hnames⟩

theorem storeMedia_get {f g : FileStore} (h : SlabInv f.fileSlab) {hash : FileHash}
    {media : MediaTags} (hstore : storeMedia f hash media = some g) :
    g.fileSlab.get = f.fileSlab.get := by
  rw [storeMedia] at hstore
  split at hstore
  · obtain ⟨slab, hm, -, hget, -⟩ := mergeMedia_spec h hash (media.toMedia f.codecs).2
    rw [hm] at hstore
    obtain rfl := Option.some.inj hstore
    exact hget
  · obtain rfl := Option.some.inj hstore
    rfl

/-- A record with a file name alone, given by its bytes. -/
def named (bytes : List UInt8) (fits : bytes.length < 256 ^ 2) : WireRecord :=
  ⟨Vector.replicate 16 1, 0, 0, [⟨.short FT_FILENAME, .string bytes fits⟩],
    Nat.le_of_ble_eq_true rfl⟩

theorem offered_named (U : Unicode) (bytes : List UInt8) (fits : bytes.length < 256 ^ 2) :
    ∃ file, Publish.StoredNames.offered U (encode [named bytes fits]) 0 = some file ∧
      file.filename = fromUtf8Lossy bytes := by
  obtain ⟨files, hparse, hall⟩ := (returnsAll_iff U [named bytes fits] []).mpr (by simp)
  rw [List.append_nil] at hparse
  cases hall with
  | cons hfile hrest =>
    cases hrest
    refine ⟨_, ?_, hfile.filename⟩
    rw [Publish.StoredNames.offered, hparse]
    rfl

/-- The event of a record that nothing refuses. -/
def offer (maxString : UInt32) (payload : List UInt8) : Event :=
  let moment : Moment := ⟨0, 0, ⟨3, 86400, 86400⟩⟩
  let client : ClientHandle := ⟨Vector.replicate 16 7, .v4 0x01020304, 4662, none, 0, false⟩
  .record (fun _ _ => .allow) 0 maxString ⟨boot SLOT_QUARANTINE_SECS false, client, 0, 0, 0, 0⟩
    payload 0 moment

/-- The first record offered is stored under its name. -/
theorem first_stored (U : Unicode) (maxString : UInt32) {payload : List UInt8} {file : OfferedFile}
    (h : Publish.StoredNames.offered U payload 0 = some file) :
    ∃ s id r, exec (step U) (boot SLOT_QUARANTINE_SECS false) [offer maxString payload] = some s ∧
      s.files.fileSlab.get id = some r ∧ r.name = capString file.filename maxString := by
  set client : ClientHandle := ⟨Vector.replicate 16 7, .v4 0x01020304, 4662, none, 0, false⟩
    with hclient
  set name := capString file.filename maxString with hname
  have hroom : Room (FileSlab.new SLOT_QUARANTINE_SECS) 0 file.hash :=
    Or.inl (Nat.pow_pos (by decide))
  obtain ⟨slab, id, new, hins, hinv, ⟨-, -, q, hq, -⟩ | ⟨rfl, -, -, hget, -⟩⟩ :=
    searchOrInsert_spec (slabInv_new SLOT_QUARANTINE_SECS)
      (r := .new file.hash file.size name [offeredSource client file]) rfl hroom
  · cases hq
  · have hadd : ∃ g, (boot SLOT_QUARANTINE_SECS false).files.addFileWithSource U 0 file.hash
        file.size name (offeredSource client file) = some g ∧ g.fileSlab = slab := by
      have hinsert : (boot SLOT_QUARANTINE_SECS false).files.fileSlab.getOrInsert 0 file.hash
          file.size name (offeredSource client file) = some (slab, id, true) := hins
      rw [FileStore.addFileWithSource, hinsert]
      exact ⟨_, rfl, rfl⟩
    obtain ⟨f, hadd, rfl⟩ := hadd
    obtain ⟨g, hstore, -⟩ := Publish.SoftLimit.storeMedia_total hinv file.hash file.media
    have hrecord : g.fileSlab.get id =
        some (.new file.hash file.size name [offeredSource client file]) := by
      rw [storeMedia_get hinv hstore, hget, Function.update_self]
    refine ⟨Server.updateClient { boot SLOT_QUARANTINE_SECS false with files := g } client, id, _,
      ?_, hrecord, rfl⟩
    have hstep : step U (boot SLOT_QUARANTINE_SECS false) (offer maxString payload) =
        some (Server.updateClient { boot SLOT_QUARANTINE_SECS false with files := g } client) := by
      simp only [step, offer, h, offerRecord, overSoftLimit, Nat.lt_irrefl, false_and, if_false,
        acceptRecord, ← hclient, ← hname, hadd, hstore, Option.bind_eq_bind, Option.bind_some,
        Option.pure_def, Option.map_some, Bool.false_eq_true]
    rw [exec_cons, hstep]
    rfl

/-- 65535 bytes that are not UTF-8, each read as a character of three bytes. -/
def invalidName : List UInt8 := List.replicate 65535 0xFF

theorem invalidName_fits : invalidName.length < 256 ^ 2 := by
  rw [invalidName, List.length_replicate]
  decide

theorem lossy_invalidName : ¬ Short (fromUtf8Lossy invalidName) := by
  have hlen : ∀ n, (utf8 (List.replicate n '\uFFFD')).length = 3 * n := by
    intro n
    induction n with
    | zero => rfl
    | succ n ih =>
      have hsize : ('\uFFFD').utf8Size = 3 := by decide
      rw [utf8] at ih
      rw [List.replicate_succ, utf8, List.flatMap_cons, List.length_append,
        String.length_utf8EncodeChar, ih, hsize]
      omega
  have hname : fromUtf8Lossy invalidName = List.replicate 65535 '\uFFFD' :=
    fromUtf8Lossy_replicate 65535
  rw [Short, hname, hlen]
  decide

/-- With no cap, a name of 65535 bytes that are not UTF-8 is stored three times as long, and a page
with it is read out of step. -/
theorem invalid_name_out_of_step : ∃ s file,
    exec (step basicLatin) (boot SLOT_QUARANTINE_SECS false)
        [offer 0 (encode [named invalidName invalidName_fits])] = some s ∧
      (∃ id, s.files.fileSlab.get id = some file) ∧
      (¬ ∀ t ∈ resultTags basicLatin (pageView s fun _ => none) file, t.Fits) ∧
      ¬ ResultPage.InStep basicLatin (pageView s fun _ => none) [file] false := by
  obtain ⟨offered, hoffered, hname⟩ := offered_named basicLatin invalidName invalidName_fits
  obtain ⟨s, id, file, hrun, hget, hstored⟩ := first_stored basicLatin 0 hoffered
  have hcodecs : ∀ c ∈ (pageView s fun _ => none).codecs.names, Short c := codecs_short hrun
  have hlong : ¬ Short file.name := by
    rw [hstored, capString, if_pos (Or.inl rfl), hname]
    exact lossy_invalidName
  refine ⟨s, file, hrun, ⟨id, hget⟩, ?_, ?_⟩
  · rwa [resultTags_fit_iff hcodecs]
  · rw [inStep_iff (Nat.one_lt_two_pow (by decide)) hcodecs]
    exact fun h => hlong (h file (List.mem_singleton.mpr rfl))

theorem ascii_name_in_step : ∃ s file,
    exec (step basicLatin) (boot SLOT_QUARANTINE_SECS false)
        [offer 250 (encode [named (utf8 "a.avi".toList) (by decide)])] = some s ∧
      (∃ id, s.files.fileSlab.get id = some file) ∧
      ResultPage.InStep basicLatin (pageView s fun _ => none) [file] false := by
  have hfits : (utf8 "a.avi".toList).length < 256 ^ 2 := by decide
  obtain ⟨offered, hoffered, hname⟩ := offered_named basicLatin (utf8 "a.avi".toList) hfits
  obtain ⟨s, id, file, hrun, hget, -⟩ := first_stored basicLatin 250 hoffered
  refine ⟨s, file, hrun, ⟨id, hget⟩, ?_⟩
  have hshort : Short (capString offered.filename 250) := by
    rw [hname, fromUtf8Lossy_utf8]
    exact (by decide : (utf8 (capString "a.avi".toList 250)).length < 65536)
  have hstores : ∀ e ∈ [offer 250 (encode [named (utf8 "a.avi".toList) hfits])],
      StoresIn basicLatin Short e := by
    intro e he
    rw [List.mem_singleton.mp he]
    intro file hfile
    rw [Option.some.inj (hfile.symm.trans hoffered)]
    exact hshort
  have hseen : ∀ f ∈ [file], Seen basicLatin (boot SLOT_QUARANTINE_SECS false)
      [offer 250 (encode [named (utf8 "a.avi".toList) hfits])] f := by
    intro f hf
    rw [List.mem_singleton.mp hf]
    exact ⟨_, s, id, List.prefix_rfl, hrun, hget⟩
  exact (((pages_in_step basicLatin).2 _ _ _ s hrun (fun _ => none) 200 [file] false
    (Nat.le_max_left 1 _)).2.2 hstores hseen).2

end Ed2kServer.Search.ResultRuns
