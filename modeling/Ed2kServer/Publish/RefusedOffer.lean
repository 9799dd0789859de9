import Ed2kServer.Publish.SoftLimit

namespace Ed2kServer.Publish.RefusedOffer

open Ed2kServer.Text.Chars Ed2kServer.Keyword.Index
open Ed2kServer.Slab.Record Ed2kServer.Slab.Shard Ed2kServer.Slab.Store Ed2kServer.Slab.Sources
open Ed2kServer.Slab.MediaFields Ed2kServer.Slab.Codecs Ed2kServer.Slab.StoreSpec
open Ed2kServer.Sources.Address
open Ed2kServer.Publish.Files Ed2kServer.Publish.OfferFiles Ed2kServer.Publish.SoftLimit

/-- The media fields of a file, if any were offered. -/
def mediaOfHash (s : FileSlab) (hash : FileHash) : Option (Option Media) := do
  match ← (s.shards (shardOfHash hash)).find hash with
  | none => return none
  | some idx => return (s.shards (shardOfHash hash)).media idx

/-- The record of the hash, its media fields and the user's files are what they were. -/
structure Untouched (s t : Server) (hash : FileHash) (user : UserHash) : Prop where
  id : t.files.fileSlab.idOf hash = s.files.fileSlab.idOf hash
  record : ∀ id, t.files.fileSlab.get id = s.files.fileSlab.get id
  media : mediaOfHash t.files.fileSlab hash = mediaOfHash s.files.fileSlab hash
  userFiles : t.files.userFiles user = s.files.userFiles user

/-- The live record of the hash, of another size than the file's, with a source. -/
structure Disagrees (s : Server) (file : OfferedFile) (id : FileId) (r : FileRecord) : Prop where
  found : s.files.fileSlab.idOf file.hash = some (some id)
  live : s.files.fileSlab.get id = some r
  size : sizesAgree r.size file.size = false
  sourced : r.sources ≠ []

/-- Each field that `other` gives is one that `m` has. -/
def NothingNew (m other : Media) : Prop :=
  (length other = 0 ∨ length m ≠ 0) ∧ (bitrate other = 0 ∨ bitrate m ≠ 0) ∧
    (codec other = 0 ∨ codec m ≠ 0)

/-- The media fields that a record would have stored. -/
def offeredMedia (s : Server) (file : OfferedFile) : Media :=
  (file.media.toMedia s.files.codecs).2

def storedMedia (s : Server) (file : OfferedFile) : Media :=
  ((mediaOfHash s.files.fileSlab file.hash).bind (·)).getD 0

theorem zero_fields : length 0 = 0 ∧ bitrate 0 = 0 ∧ codec 0 = 0 := by decide

theorem nothingNew_zero (m : Media) : NothingNew m 0 :=
  ⟨Or.inl zero_fields.1, Or.inl zero_fields.2.1, Or.inl zero_fields.2.2⟩

theorem merged_eq_iff (m other : Media) : Media.merged m other = m ↔ NothingNew m other := by
  obtain ⟨hl, hr, hc⟩ := merged_fields m other
  constructor
  · intro h
    rw [h] at hl hr hc
    refine ⟨?_, ?_, ?_⟩
    · by_cases h0 : length m = 0
      · rw [if_neg (not_not.mpr h0)] at hl
        exact Or.inl (hl.symm.trans h0)
      · exact Or.inr h0
    · by_cases h0 : bitrate m = 0
      · rw [if_neg (not_not.mpr h0)] at hr
        exact Or.inl (hr.symm.trans h0)
      · exact Or.inr h0
    · by_cases h0 : codec m = 0
      · rw [if_neg (not_not.mpr h0)] at hc
        exact Or.inl (hc.symm.trans h0)
      · exact Or.inr h0
  · rintro ⟨nl, nr, nc⟩
    refine media_ext (hl.trans ?_) (hr.trans ?_) (hc.trans ?_)
    · split
      · rfl
      · rename_i h0
        rw [nl.resolve_right h0, not_not.mp h0]
    · split
      · rfl
      · rename_i h0
        rw [nr.resolve_right h0, not_not.mp h0]
    · split
      · rfl
      · rename_i h0
        rw [nc.resolve_right h0, not_not.mp h0]

/-- A word with no entry gains nothing only from no fields. -/
theorem nothingNew_zero_left {other : Media} (h : NothingNew 0 other) : other = 0 := by
  obtain ⟨zl, zr, zc⟩ := zero_fields
  exact media_ext ((h.1.resolve_right (not_not.mpr zl)).trans zl.symm)
    ((h.2.1.resolve_right (not_not.mpr zr)).trans zr.symm)
    ((h.2.2.resolve_right (not_not.mpr zc)).trans zc.symm)

variable {U : Unicode} {check : FileHash → Str → FilterResult} {softLimit : Nat}
  {maxString : UInt32} {p : Progress} {file : OfferedFile} {m : Moment}

theorem findOf_idOf {s : FileSlab} {hash : FileHash} {id : FileId}
    (h : s.idOf hash = some (some id)) :
    ∃ idx, (s.shards (shardOfHash hash)).find hash = some (some idx) ∧
      id = makeId (shardOfHash hash) idx := by
  obtain ⟨found, hfind, hfound⟩ := Option.bind_eq_some_iff.mp h
  obtain ⟨idx, rfl, rfl⟩ := Option.map_eq_some_iff.mp (Option.some.inj hfound)
  exact ⟨idx, hfind, rfl⟩

/-- A publish of another size leaves the store as it is. -/
theorem addFileWithSource_refused {s : Server} {id : FileId} {r : FileRecord}
    (h : Disagrees s file id r) (now : UInt32) (name : Str) (src : Source) :
    s.files.addFileWithSource U now file.hash file.size name src = some s.files := by
  obtain ⟨idx, hfind, rfl⟩ := findOf_idOf h.found
  have hget : s.files.fileSlab.getOrInsert now file.hash file.size name src =
      some (s.files.fileSlab, makeId (shardOfHash file.hash) idx, false) := by
    have hhash : (FileRecord.new file.hash file.size name [src]).hash = file.hash := rfl
    rw [FileSlab.getOrInsert, FileSlab.searchOrInsert]
    simp only [hhash, hfind, Option.bind_eq_bind, Option.bind_some, Option.pure_def]
  have hmerge : addOrRefreshSourceSized s.files.fileSlab file.hash file.size src name =
      some (s.files.fileSlab, .sizeMismatch r.size) := by
    rw [addOrRefreshSourceSized, h.found, Option.bind_eq_bind, Option.bind_some]
    simp only [mergeSource, h.live, h.size, Option.pure_def]
    rw [if_pos (by simpa using h.sourced)]
  rw [FileStore.addFileWithSource, hget, Option.bind_eq_bind, Option.bind_some]
  simp only [Bool.false_eq_true, if_false, hmerge, Option.bind_eq_bind, Option.bind_some,
    Option.pure_def]

theorem findFrom_media (sh : SlabShard) (media : UInt32 → Option Media) (hash : FileHash)
    (fuel : Nat) (cur : UInt32) :
    ({ sh with media := media } : SlabShard).findFrom hash fuel cur =
      sh.findFrom hash fuel cur := by
  induction fuel generalizing cur with
  | zero => rfl
  | succ fuel ih => simp only [SlabShard.findFrom, ih]

theorem find_media (sh : SlabShard) (media : UInt32 → Option Media) (hash : FileHash) :
    ({ sh with media := media } : SlabShard).find hash = sh.find hash := by
  simp only [SlabShard.find, findFrom_media]

theorem setMedia_self (s : FileSlab) (hash : FileHash) (media : UInt32 → Option Media) :
    ((setMedia s (shardOfHash hash) media).shards (shardOfHash hash)).find hash =
      (s.shards (shardOfHash hash)).find hash := by
  rw [setMedia]
  simp only [Function.update_self, find_media]

theorem setMedia_get (s : FileSlab) (no : Fin SLAB_SHARDS) (media : UInt32 → Option Media)
    (id : FileId) : (setMedia s no media).get id = s.get id := by
  rw [FileSlab.get, FileSlab.get, setMedia]
  by_cases hno : idShard id = no
  · subst hno
    simp only [Function.update_self]
  · simp only [Function.update_of_ne hno]

/-- The media tags of a found record are merged into its entry. -/
theorem storeMedia_found {f : FileStore} {hash : FileHash} {idx : UInt32} (media : MediaTags)
    (hfind : (f.fileSlab.shards (shardOfHash hash)).find hash = some (some idx)) :
    ∃ g, storeMedia f hash media = some g ∧ g.userFiles = f.userFiles ∧
      g.fileSlab.idOf hash = f.fileSlab.idOf hash ∧ g.fileSlab.get = f.fileSlab.get ∧
      mediaOfHash g.fileSlab hash = some
        (if (media.toMedia f.codecs).2 = 0 then (f.fileSlab.shards (shardOfHash hash)).media idx
        else some (Media.merged
          (((f.fileSlab.shards (shardOfHash hash)).media idx).getD 0)
          (media.toMedia f.codecs).2)) := by
  have hold : mediaOfHash f.fileSlab hash =
      some ((f.fileSlab.shards (shardOfHash hash)).media idx) := by
    simp only [mediaOfHash, hfind, Option.bind_eq_bind, Option.bind_some, Option.pure_def]
  by_cases hany : media.any = true
  · by_cases h0 : (media.toMedia f.codecs).2 = 0
    · refine ⟨{ f with codecs := (media.toMedia f.codecs).1 }, ?_, rfl, rfl, rfl, ?_⟩
      · rw [storeMedia, if_pos hany, mergeMedia, if_pos h0]
        rfl
      · rw [if_pos h0]
        exact hold
    · set slab := setMedia f.fileSlab (shardOfHash hash)
        (Function.update (f.fileSlab.shards (shardOfHash hash)).media idx (some (Media.merged
          (((f.fileSlab.shards (shardOfHash hash)).media idx).getD 0)
          (media.toMedia f.codecs).2))) with hslab
      refine ⟨{ f with fileSlab := slab, codecs := (media.toMedia f.codecs).1 }, ?_, rfl, ?_, ?_,
        ?_⟩
      · rw [storeMedia, if_pos hany, mergeMedia, if_neg h0, hfind]
        rfl
      · rw [FileSlab.idOf, FileSlab.idOf, setMedia_self]
      · funext id
        exact setMedia_get _ _ _ _
      · rw [if_neg h0, mediaOfHash, setMedia_self, hfind]
        simp only [Option.bind_eq_bind, Option.bind_some, Option.pure_def, hslab, setMedia,
          Function.update_self]
  · have h0 : (media.toMedia f.codecs).2 = 0 := by
      obtain ⟨hl, hr, hc⟩ : media.length = none ∧ media.bitrate = none ∧ media.codec = none := by
        simpa [MediaTags.any, and_assoc] using hany
      rw [MediaTags.toMedia, hl, hr, hc]
      change Media.new 0 0 0 = 0
      decide
    refine ⟨f, by rw [storeMedia, if_neg hany], rfl, rfl, rfl, ?_⟩
    rw [if_pos h0]
    exact hold

/-- An accepted record of another size changes the media fields alone, by what is new in them. -/
theorem acceptRecord_refused {id : FileId} {r : FileRecord} (h : Disagrees p.server file id r)
    (U : Unicode) (softLimit : Nat) (maxString : UInt32) (m : Moment) :
    ∃ q, acceptRecord U softLimit maxString p file m = some q ∧
      (Untouched p.server q.server file.hash p.client.userHash ↔
        NothingNew (storedMedia p.server file) (offeredMedia p.server file)) := by
  obtain ⟨idx, hfind, rfl⟩ := findOf_idOf h.found
  obtain ⟨g, hg, huser, hid, hget, hmedia⟩ := storeMedia_found file.media hfind
  have hold : mediaOfHash p.server.files.fileSlab file.hash =
      some ((p.server.files.fileSlab.shards (shardOfHash file.hash)).media idx) := by
    simp only [mediaOfHash, hfind, Option.bind_eq_bind, Option.bind_some, Option.pure_def]
  have hadd := addFileWithSource_refused h (U := U) m.nowSecs (capString file.filename maxString)
    (offeredSource p.client file)
  obtain ⟨q, hq, hfiles⟩ : ∃ q, acceptRecord U softLimit maxString p file m = some q ∧
      q.server.files = g := by
    rw [acceptRecord, hadd, Option.bind_eq_bind, Option.bind_some, hg]
    exact ⟨_, rfl, rfl⟩
  refine ⟨q, hq, ?_⟩
  set e := (p.server.files.fileSlab.shards (shardOfHash file.hash)).media idx with he
  have hstored : storedMedia p.server file = e.getD 0 := by
    rw [storedMedia, hold, Option.bind_some]
  have hsame : mediaOfHash g.fileSlab file.hash = mediaOfHash p.server.files.fileSlab file.hash ↔
      NothingNew (e.getD 0) (offeredMedia p.server file) := by
    rw [hmedia, hold, Option.some.injEq]
    change (if offeredMedia p.server file = 0 then e
      else some (Media.merged (e.getD 0) (offeredMedia p.server file))) = e ↔ _
    by_cases h0 : offeredMedia p.server file = 0
    · rw [if_pos h0, h0]
      exact ⟨fun _ => nothingNew_zero _, fun _ => rfl⟩
    · rw [if_neg h0]
      cases e with
      | none =>
        refine ⟨fun hn => ?_, fun hn => absurd (nothingNew_zero_left hn) h0⟩
        cases hn
      | some e => rw [Option.some.injEq, Option.getD_some, merged_eq_iff]
  rw [hstored, ← hsame]
  constructor
  · exact fun hu => hfiles ▸ hu.media
  · exact fun hu => ⟨by rw [hfiles, hid], fun id => by rw [hfiles, hget], by rw [hfiles, hu],
      by rw [hfiles, huser]⟩

theorem untouched_of_files {s t : Server} (h : t.files = s.files) (hash : FileHash)
    (user : UserHash) : Untouched s t hash user :=
  ⟨by rw [h], fun id => by rw [h], by rw [h], by rw [h]⟩

theorem overSoftLimit_total {id : FileId} {r : FileRecord} (h : Disagrees p.server file id r)
    (softLimit : Nat) : ∃ b, overSoftLimit softLimit p file.hash = some b := by
  rw [overSoftLimit]
  split
  · rw [FileStore.alreadySources, h.found]
    exact ⟨_, rfl⟩
  · exact ⟨false, rfl⟩

/-- A record whose size disagrees is one for which nothing changes exactly when it is blocked, or
past the soft limit, or has no media field to give that the stored record lacks. -/
theorem offerRecord_refused {id : FileId} {r : FileRecord} (h : Disagrees p.server file id r)
    (U : Unicode) (check : FileHash → Str → FilterResult) (softLimit : Nat) (maxString : UInt32)
    (m : Moment) :
    ∃ q stop, offerRecord U check softLimit maxString p file m = some (q, stop) ∧
      (Untouched p.server q.server file.hash p.client.userHash ↔
        check file.hash file.filename ≠ .allow ∨
        overSoftLimit softLimit p file.hash = some true ∨
        NothingNew (storedMedia p.server file) (offeredMedia p.server file)) := by
  rw [offerRecord]
  cases hc : check file.hash file.filename with
  | block layer =>
    refine ⟨_, _, rfl, iff_of_true ?_ (Or.inl (by simp))⟩
    exact untouched_of_files (blockRecord_frame p file.hash layer m).1 _ _
  | allow =>
    obtain ⟨refused, hover⟩ := overSoftLimit_total h softLimit
    simp only [hover, Option.bind_eq_bind, Option.bind_some]
    cases refused with
    | true => exact ⟨_, _, rfl, iff_of_true (untouched_of_files rfl _ _) (Or.inr (Or.inl rfl))⟩
    | false =>
      obtain ⟨q, hq, hiff⟩ := acceptRecord_refused h U softLimit maxString m
      refine ⟨q, false, by simp [hq], ?_⟩
      rw [hiff]
      simp

theorem handleOfferfiles_refused {s : Server} {id : FileId} {r : FileRecord}
    (h : Disagrees s file id r) (U : Unicode) (check : FileHash → Str → FilterResult)
    (limits : Limits) (client : ClientHandle) (m : Moment) :
    ∃ t client' accepted blocked, handleOfferfiles U check s limits client [(file, m)] =
      some (t, client', accepted, blocked) ∧
      (Untouched s t file.hash client.userHash ↔
        check file.hash file.filename ≠ .allow ∨
        overSoftLimit (softLimitOf limits client) (start s limits client) file.hash =
          some true ∨
        NothingNew (storedMedia s file) (offeredMedia s file)) := by
  obtain ⟨q, stop, hq, hiff⟩ := offerRecord_refused (p := start s limits client) h U check
    (softLimitOf limits client) limits.maxStringSize m
  obtain ⟨client', accepted, blocked, hrun⟩ : ∃ client' accepted blocked,
      handleOfferfiles U check s limits client [(file, m)] =
        some (q.server, client', accepted, blocked) := by
    rw [handleOfferfiles]
    simp only [offerRecords, hq, Option.bind_eq_bind, Option.bind_some, Option.pure_def]
    cases stop <;> exact ⟨_, _, _, rfl⟩
  exact ⟨q.server, client', accepted, blocked, hrun, hiff⟩

/-- A record of another size leaves the live record, its media fields and the offering user's files
as they were, exactly when it is blocked, or past the soft limit, or gives no media field that the
record lacks: in its round of any batch, and in a batch of its own. -/
theorem handleOfferfiles_sizeMismatch_iff (U : Unicode)
    (check : FileHash → Str → FilterResult) (maxString : UInt32) (file : OfferedFile) (m : Moment)
    (id : FileId) (r : FileRecord) :
    (∀ softLimit p, Disagrees p.server file id r →
      ∃ q stop, offerRecord U check softLimit maxString p file m = some (q, stop) ∧
        (Untouched p.server q.server file.hash p.client.userHash ↔
          check file.hash file.filename ≠ .allow ∨
          overSoftLimit softLimit p file.hash = some true ∨
          NothingNew (storedMedia p.server file) (offeredMedia p.server file))) ∧
    ∀ s limits client, Disagrees s file id r →
      ∃ t client' accepted blocked, handleOfferfiles U check s limits client [(file, m)] =
        some (t, client', accepted, blocked) ∧
        (Untouched s t file.hash client.userHash ↔
          check file.hash file.filename ≠ .allow ∨
          overSoftLimit (softLimitOf limits client) (start s limits client) file.hash =
            some true ∨
          NothingNew (storedMedia s file) (offeredMedia s file)) :=
  ⟨fun softLimit _ h => offerRecord_refused h U check softLimit maxString m,
    fun _ limits client h => handleOfferfiles_refused h U check limits client m⟩

/-- A file of 100 bytes without media fields, and an offer of 200 bytes with a bitrate. -/
def stored : FileRecord :=
  .new (Vector.replicate 16 1) 100 "film.avi".toList [⟨Vector.replicate 16 7, 5, 4662, true⟩]

def offered : OfferedFile :=
  ⟨Vector.replicate 16 1, 0, 0, "film.avi".toList, 200, ⟨none, some 128, none⟩⟩

def offerer : ClientHandle :=
  ⟨Vector.replicate 16 8, .v4 6, 4662, none, 0, false⟩

def oneFile (slab : FileSlab) : Server :=
  ⟨⟨slab, .withSubtokens false, fun _ => none, .empty⟩, fun _ => none, fun _ => none,
    fun _ => none⟩

theorem stored_slab : ∃ slab id, SlabInv slab ∧
    slab.get = Function.update (fun _ => none) id (some stored) ∧
      mediaOfHash slab stored.hash = some none := by
  obtain ⟨slab, id, hrun, hinv, hget⟩ :=
    new_searchOrInsert SLOT_QUARANTINE_SECS 0 (r := stored) rfl
  have hmedia : ((FileSlab.new SLOT_QUARANTINE_SECS).searchOrInsert 0 stored).map
      (fun x => mediaOfHash x.1 stored.hash) = some (some none) := by
    decide
  rw [hrun, Option.map_some, Option.some.injEq] at hmedia
  exact ⟨slab, id, hinv, hget, hmedia⟩

theorem stored_disagrees {slab : FileSlab} {id : FileId} (hinv : SlabInv slab)
    (hget : slab.get = Function.update (fun _ => none) id (some stored)) :
    Disagrees (oneFile slab) offered id stored := by
  have hlive : slab.get id = some stored := by rw [hget, Function.update_self]
  obtain ⟨found, hid, hspec⟩ := idOf_spec hinv stored.hash
  rw [(hspec id).mpr ⟨stored, hlive, rfl⟩] at hid
  exact ⟨hid, hlive, by decide, by decide⟩

def now : Moment := ⟨0, 0, ⟨3, 86400, 86400⟩⟩

/-- Without media tags the refused offer changes nothing. -/
theorem handleOfferfiles_sizeMismatch_noMedia : ∃ slab id,
    Disagrees (oneFile slab) { offered with media := ⟨none, none, none⟩ } id stored ∧
    ∃ t client' accepted blocked, handleOfferfiles basicLatin (fun _ _ => .allow) (oneFile slab)
      ⟨0, 0⟩ offerer [({ offered with media := ⟨none, none, none⟩ }, now)] =
        some (t, client', accepted, blocked) ∧
      Untouched (oneFile slab) t offered.hash offerer.userHash := by
  obtain ⟨slab, id, hinv, hget, -⟩ := stored_slab
  have hd := stored_disagrees hinv hget
  have hd' : Disagrees (oneFile slab) { offered with media := ⟨none, none, none⟩ } id stored :=
    ⟨hd.found, hd.live, hd.size, hd.sourced⟩
  obtain ⟨t, client', accepted, blocked, hrun, hiff⟩ := (handleOfferfiles_sizeMismatch_iff
    basicLatin (fun _ _ => .allow) 0 { offered with media := ⟨none, none, none⟩ } now id
      stored).2 (oneFile slab) ⟨0, 0⟩ offerer hd'
  exact ⟨slab, id, hd', t, client', accepted, blocked, hrun,
    hiff.mpr (Or.inr (Or.inr (nothingNew_zero _)))⟩

/-- The offer is refused for its size, and its bitrate is stored for the file. -/
theorem sizeMismatch_stores_bitrate : ∃ slab id, Disagrees (oneFile slab) offered id stored ∧
    ∃ t client' accepted blocked, handleOfferfiles basicLatin (fun _ _ => .allow) (oneFile slab)
      ⟨0, 0⟩ offerer [(offered, now)] = some (t, client', accepted, blocked) ∧
      ¬ Untouched (oneFile slab) t offered.hash offerer.userHash := by
  obtain ⟨slab, id, hinv, hget, hmedia⟩ := stored_slab
  have hd := stored_disagrees hinv hget
  obtain ⟨t, client', accepted, blocked, hrun, hiff⟩ := handleOfferfiles_refused hd basicLatin
    (fun _ _ => .allow) ⟨0, 0⟩ offerer now
  refine ⟨slab, id, hd, t, client', accepted, blocked, hrun, fun hu => ?_⟩
  have hstored : storedMedia (oneFile slab) offered = 0 := by
    rw [storedMedia]
    change ((mediaOfHash slab stored.hash).bind (·)).getD 0 = 0
    rw [hmedia]
    rfl
  rcases hiff.mp hu with h | h | h
  · exact h rfl
  · have hoff : ¬ (0 < softLimitOf ⟨0, 0⟩ offerer ∧
        softLimitOf ⟨0, 0⟩ offerer ≤ (start (oneFile slab) ⟨0, 0⟩ offerer).sourced) :=
      fun ho => absurd ho.1 (by decide)
    rw [overSoftLimit, if_neg hoff] at h
    cases h
  · change NothingNew (storedMedia (oneFile slab) offered) (Media.new 0 128 0) at h
    rw [hstored] at h
    exact absurd (nothingNew_zero_left h) (by decide)

end Ed2kServer.Publish.RefusedOffer
