import Ed2kServer.Publish.Departure
import Ed2kServer.Publish.OfferRecords
import Ed2kServer.Publish.RefusedOffer
import Ed2kServer.Search.ResultStep
import Ed2kServer.Slab.FreeQueue

namespace Ed2kServer.Publish.StoredNames

open Ed2kServer.Lib.Transition Ed2kServer.Text.Chars
open Ed2kServer.Slab.Record Ed2kServer.Slab.Shard Ed2kServer.Slab.Chains
open Ed2kServer.Slab.FreeQueue Ed2kServer.Slab.Store Ed2kServer.Slab.Sources
open Ed2kServer.Slab.MediaFields Ed2kServer.Slab.Codecs
open Ed2kServer.Proto.Tags Ed2kServer.Publish.Files Ed2kServer.Publish.OfferFiles
open Ed2kServer.Publish.ParseOffer Ed2kServer.Publish.OfferRecords
open Ed2kServer.Publish.SoftLimit Ed2kServer.Publish.Departure

/-- Every slot that has a name has one in `P`. -/
def Named (P : Str → Prop) (records : List FileRecord) : Prop :=
  ∀ r ∈ records, ∀ name, r.fname = some name → P name

section Shard

variable {P : Str → Prop} {records : List FileRecord} {sh sh' : SlabShard} {i : UInt32}
  {r : FileRecord}

theorem Named.set (h : Named P records) (k : Nat) (hr : ∀ name, r.fname = some name → P name) :
    Named P (records.set k r) := by
  intro q hq name hname
  obtain hq | rfl := List.mem_or_eq_of_mem_set hq
  · exact h q hq name hname
  · exact hr name hname

theorem Named.pushAndLink (h : Named P sh.records) (hr : ∀ name, r.fname = some name → P name)
    (hpush : sh.pushAndLink r = some (sh', i)) : Named P sh'.records := by
  obtain ⟨hrecords, -⟩ := pushAndLink_same hpush
  intro q hq name hname
  rw [hrecords, List.mem_append, List.mem_singleton] at hq
  obtain hq | rfl := hq
  · exact h q hq name hname
  · exact hr name hname

theorem Named.insertRecord (h : Named P sh.records) (hr : ∀ name, r.fname = some name → P name)
    {now quarantine : UInt32} (hins : sh.insertRecord r now quarantine = some (sh', i)) :
    Named P sh'.records := by
  rw [SlabShard.insertRecord] at hins
  split at hins
  · split at hins
    · obtain ⟨old, -, hins⟩ := Option.bind_eq_some_iff.mp hins
      obtain ⟨next, -, hins⟩ := Option.bind_eq_some_iff.mp hins
      obtain ⟨linked, hlink, hins⟩ := Option.bind_eq_some_iff.mp hins
      obtain ⟨rfl, -⟩ := Prod.mk.inj (Option.some.inj hins)
      rw [(link_same hlink).records]
      exact h.set _ hr
    · exact h.pushAndLink hr hins
  · exact h.pushAndLink hr hins

theorem Named.tombstone (h : Named P sh.records) {now : UInt32} {cond : FileRecord → Bool}
    {name : Option Str} (ht : sh.tombstone now i cond = some (sh', name)) :
    Named P sh'.records := by
  rw [SlabShard.tombstone] at ht
  split at ht
  · obtain ⟨rfl, -⟩ := Prod.mk.inj (Option.some.inj ht)
    exact h
  · split at ht
    · obtain ⟨unlinked, hu, ht⟩ := Option.bind_eq_some_iff.mp ht
      obtain ⟨rfl, -⟩ := Prod.mk.inj (Option.some.inj ht)
      rw [← (unlink_same hu).records] at h
      exact h.set _ (fun name hn => by cases hn)
    · obtain ⟨rfl, -⟩ := Prod.mk.inj (Option.some.inj ht)
      exact h

end Shard

/-- Of every shard. -/
def AllNamed (P : Str → Prop) (s : FileSlab) : Prop := ∀ no, Named P (s.shards no).records

section Slab

variable {P : Str → Prop} {s t : FileSlab} {id : FileId} {r : FileRecord}

theorem AllNamed.get (h : AllNamed P s) (hr : s.get id = some r) : P r.name := by
  rw [FileSlab.get, Option.filter_eq_some_iff] at hr
  obtain ⟨name, hname⟩ := Option.isSome_iff_exists.mp hr.2
  rw [FileRecord.name, hname]
  exact h _ r (List.mem_of_getElem? hr.1) name hname

theorem AllNamed.update (h : AllNamed P s) {no : Fin SLAB_SHARDS} {sh : SlabShard}
    (hsh : Named P sh.records) (live quarantineSecs : UInt32) :
    AllNamed P ⟨Function.update s.shards no sh, live, quarantineSecs⟩ := by
  intro k
  by_cases hk : k = no
  · subst hk
    simpa using hsh
  · simpa [hk] using h k

theorem AllNamed.searchOrInsert (h : AllNamed P s)
    (hr : ∀ name, r.fname = some name → P name) {now : UInt32} {new : Bool}
    (hins : s.searchOrInsert now r = some (t, id, new)) : AllNamed P t := by
  obtain ⟨found, -, hins⟩ := Option.bind_eq_some_iff.mp hins
  cases found with
  | some idx =>
    obtain ⟨rfl, -⟩ := Prod.mk.inj (Option.some.inj hins)
    exact h
  | none =>
    obtain ⟨⟨sh, idx⟩, hsh, hins⟩ := Option.bind_eq_some_iff.mp hins
    obtain ⟨rfl, -⟩ := Prod.mk.inj (Option.some.inj hins)
    exact h.update ((h _).insertRecord hr hsh) _ _

theorem AllNamed.tombstoneWhere (h : AllNamed P s) {now : UInt32} {cond : FileRecord → Bool}
    {name : Option Str} (ht : s.tombstoneWhere now id cond = some (t, name)) : AllNamed P t := by
  obtain ⟨⟨sh, found⟩, hsh, ht⟩ := Option.bind_eq_some_iff.mp ht
  cases found with
  | none =>
    obtain ⟨rfl, -⟩ := Prod.mk.inj (Option.some.inj ht)
    exact h
  | some n =>
    obtain ⟨rfl, -⟩ := Prod.mk.inj (Option.some.inj ht)
    exact h.update ((h _).tombstone hsh) _ _

/-- A live record keeps its name when its other fields change. -/
theorem AllNamed.setRecord (h : AllNamed P s) (hr : s.get id = some r) {r' : FileRecord}
    (hname : r'.fname = r.fname) : AllNamed P (setRecord s id r') := by
  refine h.update ((h _).set _ (fun name hn => ?_)) _ _
  rw [hname] at hn
  have hp := h.get hr
  rwa [FileRecord.name, hn] at hp

theorem AllNamed.setMedia (h : AllNamed P s) (no : Fin SLAB_SHARDS)
    (media : UInt32 → Option Media) : AllNamed P (setMedia s no media) := by
  have hno : Named P ({ s.shards no with media := media } : SlabShard).records := h no
  exact h.update hno _ _

theorem AllNamed.mergeSource (h : AllNamed P s) (id : FileId) (size : UInt64) (src : Source)
    (publishedAs : Str) : AllNamed P (mergeSource s id size src publishedAs).1 := by
  rw [Slab.Sources.mergeSource]
  split
  · exact h
  · split
    · exact h
    · rename_i r hr _
      dsimp only
      exact h.setRecord hr rfl

theorem AllNamed.removeUserSource (h : AllNamed P s) (id : FileId) (user : UserHash) :
    AllNamed P (removeUserSource s id user).1 := by
  rw [Slab.Sources.removeUserSource]
  split
  · exact h
  · rename_i r hr
    dsimp only
    exact h.setRecord hr rfl

theorem AllNamed.mergeMedia (h : AllNamed P s) {hash : FileHash} {m : Media}
    (hm : mergeMedia s hash m = some t) : AllNamed P t := by
  rw [Publish.Files.mergeMedia] at hm
  split at hm
  · obtain rfl := Option.some.inj hm
    exact h
  · obtain ⟨found, -, hm⟩ := Option.bind_eq_some_iff.mp hm
    cases found with
    | none =>
      obtain rfl := Option.some.inj hm
      exact h
    | some idx =>
      obtain rfl := Option.some.inj hm
      exact h.setMedia _ _

end Slab

/-- All stored names are in `P`, and the codec names are as short as the table keeps them. -/
structure Inv (P : Str → Prop) (f : FileStore) : Prop where
  names : AllNamed P f.fileSlab
  codecs : ∀ c ∈ f.codecs.names, c.length ≤ CodecTable.MAX_LEN

section FileStore

variable {U : Unicode} {P : Str → Prop} {f g : FileStore}

theorem Inv.congr (h : Inv P f) (hslab : AllNamed P g.fileSlab) (hcodecs : g.codecs = f.codecs) :
    Inv P g := ⟨hslab, hcodecs ▸ h.codecs⟩

theorem Inv.addFileWithSource (h : Inv P f) {now : UInt32} {hash : FileHash} {size : UInt64}
    {name : Str} {src : Source} (hname : P name)
    (hadd : f.addFileWithSource U now hash size name src = some g) : Inv P g := by
  obtain ⟨⟨slab, id, new⟩, hget, hadd⟩ := Option.bind_eq_some_iff.mp hadd
  have hnew : ∀ n, (FileRecord.new hash size name [src]).fname = some n → P n := by
    intro n hn
    rwa [← Option.some.inj hn]
  have hslab := h.names.searchOrInsert hnew hget
  cases new with
  | true =>
    obtain rfl := Option.some.inj hadd
    exact h.congr hslab rfl
  | false =>
    obtain ⟨⟨slab', result⟩, hmerge, hadd⟩ := Option.bind_eq_some_iff.mp hadd
    have hslab' : AllNamed P slab' := by
      obtain ⟨found, -, hmerge⟩ := Option.bind_eq_some_iff.mp hmerge
      cases found with
      | none =>
        obtain ⟨rfl, -⟩ := Prod.mk.inj (Option.some.inj hmerge)
        exact hslab
      | some i =>
        have hm := hslab.mergeSource i size src name
        rwa [Option.some.inj hmerge] at hm
    cases result with
    | merged _ =>
      obtain rfl := Option.some.inj hadd
      exact h.congr hslab' rfl
    | sizeMismatch _ =>
      obtain rfl := Option.some.inj hadd
      exact h.congr hslab' rfl
    | unknown =>
      obtain rfl := Option.some.inj hadd
      exact h.congr hslab' rfl

theorem names_intern {t : CodecInner} {name : Str}
    (h : ∀ c ∈ t.names, c.length ≤ CodecTable.MAX_LEN) (hname : name.length ≤ CodecTable.MAX_LEN) :
    ∀ c ∈ (t.intern name).1.names, c.length ≤ CodecTable.MAX_LEN := by
  rw [CodecInner.intern]
  split
  · exact h
  · split
    · exact h
    · intro c hc
      obtain hc | hc := List.mem_append.mp hc
      · exact h c hc
      · rwa [List.mem_singleton.mp hc]

theorem Inv.storeMedia (h : Inv P f) {hash : FileHash} {media : MediaTags}
    (hcodec : ∀ c, media.codec = some c → c.length ≤ CodecTable.MAX_LEN)
    (hstore : storeMedia f hash media = some g) : Inv P g := by
  rw [OfferFiles.storeMedia] at hstore
  split at hstore
  · obtain ⟨slab, hm, hstore⟩ := Option.bind_eq_some_iff.mp hstore
    obtain rfl := Option.some.inj hstore
    refine ⟨h.names.mergeMedia hm, ?_⟩
    change ∀ c ∈ (media.toMedia f.codecs).1.names, _
    rw [MediaTags.toMedia]
    cases hc : media.codec with
    | none => exact h.codecs
    | some c => exact names_intern h.codecs (hcodec c hc)
  · obtain rfl := Option.some.inj hstore
    exact h

theorem Inv.evictWhere (h : Inv P f) {now : UInt32} {id : FileId} {cond : FileRecord → Bool}
    {gone : Bool} (he : evictWhere U f now id cond = some (g, gone)) : Inv P g := by
  obtain ⟨⟨slab, name⟩, ht, he⟩ := Option.bind_eq_some_iff.mp he
  have hslab := h.names.tombstoneWhere ht
  cases name with
  | none =>
    obtain ⟨rfl, -⟩ := Prod.mk.inj (Option.some.inj he)
    exact h.congr hslab rfl
  | some n =>
    obtain ⟨rfl, -⟩ := Prod.mk.inj (Option.some.inj he)
    exact h.congr hslab rfl

theorem Inv.dropSource (h : Inv P f) {user : UserHash} {id : FileId} {now : UInt32}
    (hd : dropSource U f user id now = some g) : Inv P g := by
  have hslab := h.names.removeUserSource id user
  rw [Departure.dropSource] at hd
  cases hr : removeUserSource f.fileSlab id user with
  | mk slab sourceless =>
    rw [hr] at hd hslab
    have hleft : Inv P { f with fileSlab := slab } := h.congr hslab rfl
    cases sourceless with
    | true =>
      obtain ⟨⟨evicted, gone⟩, he, hd⟩ := Option.bind_eq_some_iff.mp hd
      obtain rfl := Option.some.inj hd
      exact hleft.evictWhere he
    | false =>
      obtain rfl := Option.some.inj hd
      exact hleft

end FileStore

/-- The record at place `i` of an OFFERFILES payload. -/
def offered (U : Unicode) (payload : List UInt8) (i : Nat) : Option OfferedFile :=
  match parseOfferfiles U payload with
  | .ok files => files[i]?
  | .error _ => none

/-- The records of a batch are taken one at a time, and anything may come between two of them. -/
inductive Event
  | record (check : FileHash → Str → FilterResult) (softLimit : Nat) (maxString : UInt32)
      (p : Progress) (payload : List UInt8) (i : Nat) (m : Moment)
  | takeUserFiles (user : UserHash)
  | dropSource (user : UserHash) (id : FileId) (now : UInt32)
  | evict (now : UInt32) (id : FileId) (cond : FileRecord → Bool)
  | purgeIds (ids : List FileId)

section Run

variable (U : Unicode)

/-- `none` is a panic or a walk that does not end. -/
def step (s : Server) : Event → Option Server
  | .record check softLimit maxString p payload i m =>
    match offered U payload i with
    | none => some s
    | some file =>
      (offerRecord U check softLimit maxString { p with server := s } file m).map (·.1.server)
  | .takeUserFiles user =>
    some { s with files := { s.files with
      userFiles := Function.update s.files.userFiles user none } }
  | .dropSource user id now =>
    (dropSource U s.files user id now).map fun files => { s with files := files }
  | .evict now id cond =>
    (evictWhere U s.files now id cond).map fun r => { s with files := r.1 }
  | .purgeIds ids => some { s with files := purgeIdsFromUserFiles s.files ids }

/-- The name a record would be stored under is in `P`. -/
def StoresIn (P : Str → Prop) : Event → Prop
  | .record _ _ maxString _ payload i _ =>
    ∀ file, offered U payload i = some file → P (capString file.filename maxString)
  | .takeUserFiles _ | .dropSource _ _ _ | .evict _ _ _ | .purgeIds _ => True

variable {U} {P : Str → Prop} {s t : Server}

theorem readTags_codec (tags : List Tag) : ∀ c, (readTags U tags).media.codec = some c →
    c.length ≤ CodecTable.MAX_LEN := by
  induction tags using List.reverseRecOn with
  | nil => exact fun c hc => by cases hc
  | append_singleton tags t ih =>
    have hfile : ∀ d : Draft, (d.readFile t).media = d.media := by
      intro d
      rw [Draft.readFile]
      split_ifs
      · rfl
      · split <;> rfl
      · rfl
      · rfl
    rw [readTags_concat, hfile, Draft.readMedia]
    split_ifs
    · exact ih
    · exact ih
    · intro c hc
      obtain ⟨raw, -, hraw⟩ := Option.bind_eq_some_iff.mp hc
      rw [normalise] at hraw
      split at hraw
      · cases hraw
      · rw [← Option.some.inj hraw]
        exact List.length_take_le _ _
    · exact ih

/-- A codec name read from the wire is short. -/
theorem offered_codec {payload : List UInt8} {i : Nat} {file : OfferedFile}
    (h : offered U payload i = some file) :
    ∀ c, file.media.codec = some c → c.length ≤ CodecTable.MAX_LEN := by
  rw [offered] at h
  split at h
  · rename_i files hparse
    rw [parseOfferfiles] at hparse
    split at hparse
    · cases hparse
    · dsimp only at hparse
      split at hparse
      · cases hparse
      · obtain ⟨hfiles, -⟩ := parseRecords_eq_ok hparse
        rw [hfiles] at h
        obtain ⟨slice, -, rfl⟩ := List.mem_map.mp (List.mem_of_getElem? h)
        exact readTags_codec _
  · cases h

theorem Inv.offerRecord {check : FileHash → Str → FilterResult} {softLimit : Nat}
    {maxString : UInt32} {p q : Progress} {file : OfferedFile} {m : Moment} {stop : Bool}
    (h : Inv P p.server.files) (hname : P (capString file.filename maxString))
    (hcodec : ∀ c, file.media.codec = some c → c.length ≤ CodecTable.MAX_LEN)
    (ho : offerRecord U check softLimit maxString p file m = some (q, stop)) :
    Inv P q.server.files := by
  obtain ⟨layer, -, he⟩ | ⟨-, rfl⟩ | ⟨-, hacc⟩ := offerRecord_cases ho
  · obtain ⟨hfiles, -⟩ := blockRecord_frame p file.hash layer m
    rw [← he] at hfiles
    rw [hfiles]
    exact h
  · exact h
  · obtain ⟨files, hadd, hacc⟩ := Option.bind_eq_some_iff.mp hacc
    obtain ⟨stored, hmedia, hacc⟩ := Option.bind_eq_some_iff.mp hacc
    obtain rfl := Option.some.inj hacc
    exact (h.addFileWithSource hname hadd).storeMedia hcodec hmedia

theorem inv_step {e : Event} (h : Inv P s.files) (he : StoresIn U P e)
    (hstep : step U s e = some t) : Inv P t.files := by
  cases e with
  | record check softLimit maxString p payload i m =>
    rw [step] at hstep
    split at hstep
    · obtain rfl := Option.some.inj hstep
      exact h
    · rename_i file hfile
      obtain ⟨⟨q, stop⟩, ho, rfl⟩ := Option.map_eq_some_iff.mp hstep
      have hp : Inv P ({ p with server := s } : Progress).server.files := h
      exact hp.offerRecord (he file hfile) (offered_codec hfile) ho
  | takeUserFiles user =>
    obtain rfl := Option.some.inj hstep
    exact h.congr h.names rfl
  | dropSource user id now =>
    obtain ⟨files, hd, rfl⟩ := Option.map_eq_some_iff.mp hstep
    exact h.dropSource hd
  | evict now id cond =>
    obtain ⟨⟨files, gone⟩, he, rfl⟩ := Option.map_eq_some_iff.mp hstep
    exact h.evictWhere he
  | purgeIds ids =>
    obtain rfl := Option.some.inj hstep
    rw [purgeIdsFromUserFiles]
    split
    · exact h
    · exact h.congr h.names rfl

end Run

end Ed2kServer.Publish.StoredNames
