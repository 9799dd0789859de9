import Ed2kServer.Keyword.FileStep
import Ed2kServer.Slab.Codecs
import Ed2kServer.Slab.Sources
import Ed2kServer.Sources.Address

namespace Ed2kServer.Publish.Files

open Ed2kServer.Text.Chars Ed2kServer.Keyword.Index Ed2kServer.Keyword.FileStep
open Ed2kServer.Slab.Record Ed2kServer.Slab.Shard Ed2kServer.Slab.Chains
open Ed2kServer.Slab.Invariant Ed2kServer.Slab.ShardSpec
open Ed2kServer.Slab.Store Ed2kServer.Slab.StoreSpec Ed2kServer.Slab.Sources
open Ed2kServer.Slab.MediaFields Ed2kServer.Slab.Codecs Ed2kServer.Sources.Address

/-- `Source::new`. -/
def Source.new (userHash : UserHash) (ip : IpAddr) (port : UInt16) (complete : Bool) : Source :=
  match ip with
  | .v4 a => ⟨userHash, a, port, complete⟩
  | .v6 _ => ⟨userHash, 0, port, complete⟩

def addOrRefreshSourceSized (s : FileSlab) (hash : FileHash) (size : UInt64) (src : Source)
    (publishedAs : Str) : Option (FileSlab × SizedMerge) := do
  match ← s.idOf hash with
  | none => return (s, .unknown)
  | some id => return mergeSource s id size src publishedAs

def setMedia (s : FileSlab) (no : Fin SLAB_SHARDS) (media : UInt32 → Option Media) : FileSlab :=
  { s with shards := Function.update s.shards no { s.shards no with media := media } }

def mergeMedia (s : FileSlab) (hash : FileHash) (m : Media) : Option FileSlab :=
  if m = 0 then some s
  else do
    match ← (s.shards (shardOfHash hash)).find hash with
    | none => return s
    | some idx =>
      let media := (s.shards (shardOfHash hash)).media
      return setMedia s (shardOfHash hash)
        (Function.update media idx (some (Media.merged ((media idx).getD 0) m)))

/-- What a publish changes: the slab, the keyword index, the files each user is a source of and
the codec names. -/
structure FileStore where
  fileSlab : FileSlab
  keywordIndex : KeywordIndex
  userFiles : UserHash → Option (Finset FileId)
  codecs : CodecInner

def FileStore.userFilesInsert (f : FileStore) (user : UserHash) (id : FileId) : FileStore :=
  { f with userFiles :=
      Function.update f.userFiles user (some (insert id ((f.userFiles user).getD ∅))) }

variable (U : Unicode)

/-- A known file gets the source, if the sizes agree; a new one is indexed too. -/
def FileStore.addFileWithSource (f : FileStore) (now : UInt32) (hash : FileHash) (size : UInt64)
    (name : Str) (src : Source) : Option FileStore := do
  let (slab, fileId, newlyAdded) ← f.fileSlab.getOrInsert now hash size name src
  if newlyAdded then
    let indexed := { f with
      fileSlab := slab
      keywordIndex := f.keywordIndex.addFile U fileId name }
    return indexed.userFilesInsert src.userHash fileId
  else
    let (slab, result) ← addOrRefreshSourceSized slab hash size src name
    let stored := { f with fileSlab := slab }
    match result with
    | .merged _ => return stored.userFilesInsert src.userHash fileId
    | .sizeMismatch _ | .unknown => return stored

/-- The number of files this user is a source of. -/
def FileStore.layerCount (f : FileStore) (user : UserHash) : Nat :=
  (f.userFiles user).elim 0 Finset.card

/-- Does this user already source the file of this hash? -/
def FileStore.alreadySources (f : FileStore) (user : UserHash) (hash : FileHash) :
    Option Bool := do
  match ← f.fileSlab.idOf hash with
  | none => return false
  | some id => return (f.userFiles user).any (id ∈ ·)

variable {U} {f g : FileStore} {s : FileSlab}

@[simp] theorem userFilesInsert_slab (f : FileStore) (user : UserHash) (id : FileId) :
    (f.userFilesInsert user id).fileSlab = f.fileSlab := rfl

@[simp] theorem userFilesInsert_index (f : FileStore) (user : UserHash) (id : FileId) :
    (f.userFilesInsert user id).keywordIndex = f.keywordIndex := rfl

theorem layerCount_insert (f : FileStore) (user : UserHash) (id : FileId) :
    (f.userFilesInsert user id).layerCount user ≤ f.layerCount user + 1 := by
  cases hu : f.userFiles user <;>
    simp [FileStore.layerCount, FileStore.userFilesInsert, hu, Finset.card_insert_le]

theorem layerCount_insert_of_mem {user : UserHash} {id : FileId} {ids : Finset FileId}
    (hu : f.userFiles user = some ids) (hm : id ∈ ids) :
    (f.userFilesInsert user id).layerCount user = f.layerCount user := by
  simp [FileStore.layerCount, FileStore.userFilesInsert, hu, Finset.insert_eq_of_mem hm]

/-- A user sources the live record of a hash when its id is among the user's files. -/
theorem alreadySources_iff (h : SlabInv f.fileSlab) (user : UserHash) (hash : FileHash) :
    f.alreadySources user hash = some true ↔
      ∃ id r, f.fileSlab.get id = some r ∧ r.hash = hash ∧ id ∈ (f.userFiles user).getD ∅ := by
  obtain ⟨found, hid, hspec⟩ := idOf_spec h hash
  rw [FileStore.alreadySources, hid, Option.bind_eq_bind, Option.bind_some]
  have hany : ∀ id, (f.userFiles user).any (id ∈ ·) = true ↔ id ∈ (f.userFiles user).getD ∅ := by
    intro id
    cases f.userFiles user <;> simp
  cases found with
  | none =>
    refine ⟨fun he => absurd (Option.some.inj he) Bool.false_ne_true, ?_⟩
    rintro ⟨id, r, hr, hh, -⟩
    cases (hspec id).mpr ⟨r, hr, hh⟩
  | some id =>
    rw [Option.pure_def, Option.some.injEq, hany]
    constructor
    · intro hm
      obtain ⟨r, hr, hh⟩ := (hspec id).mp rfl
      exact ⟨id, r, hr, hh, hm⟩
    · rintro ⟨id', r, hr, hh, hm⟩
      obtain rfl := Option.some.inj ((hspec id').mpr ⟨r, hr, hh⟩)
      exact hm

/-- A publish leaves the user's files as they were, or inserts the id it published under. -/
theorem addFileWithSource_userFiles {now : UInt32} {hash : FileHash} {size : UInt64} {name : Str}
    {src : Source} (h : f.addFileWithSource U now hash size name src = some g) :
    g.userFiles = f.userFiles ∨ ∃ slab id new,
      f.fileSlab.getOrInsert now hash size name src = some (slab, id, new) ∧
        g.userFiles = (f.userFilesInsert src.userHash id).userFiles := by
  obtain ⟨⟨slab, id, new⟩, hget, h⟩ := Option.bind_eq_some_iff.mp h
  cases new with
  | true =>
    obtain rfl := Option.some.inj h
    exact Or.inr ⟨slab, id, true, hget, rfl⟩
  | false =>
    obtain ⟨⟨slab', result⟩, -, h⟩ := Option.bind_eq_some_iff.mp h
    cases result with
    | merged storedName =>
      obtain rfl := Option.some.inj h
      exact Or.inr ⟨slab, id, false, hget, rfl⟩
    | sizeMismatch stored =>
      obtain rfl := Option.some.inj h
      exact Or.inl rfl
    | unknown =>
      obtain rfl := Option.some.inj h
      exact Or.inl rfl

/-- A known hash is published under the id it has. -/
theorem getOrInsert_of_idOf {slab : FileSlab} {now : UInt32} {hash : FileHash} {size : UInt64}
    {name : Str} {src : Source} {id id' : FileId} {new : Bool}
    (hid : s.idOf hash = some (some id))
    (h : s.getOrInsert now hash size name src = some (slab, id', new)) : id' = id := by
  obtain ⟨found, hfind, hfound⟩ := Option.bind_eq_some_iff.mp hid
  obtain ⟨idx, rfl, rfl⟩ := Option.map_eq_some_iff.mp (Option.some.inj hfound)
  rw [FileSlab.getOrInsert, FileSlab.searchOrInsert] at h
  have hhash : (FileRecord.new hash size name [src]).hash = hash := rfl
  simp only [hhash, hfind, Option.bind_eq_bind, Option.bind_some, Option.pure_def,
    Option.some.injEq, Prod.mk.injEq] at h
  exact h.2.1.symm

theorem layerCount_addFileWithSource {now : UInt32} {hash : FileHash} {size : UInt64} {name : Str}
    {src : Source} (h : f.addFileWithSource U now hash size name src = some g) :
    g.layerCount src.userHash ≤ f.layerCount src.userHash + 1 := by
  obtain he | ⟨slab, id, new, -, he⟩ := addFileWithSource_userFiles h
  · simp [FileStore.layerCount, he]
  · have hg : g.layerCount src.userHash =
        (f.userFilesInsert src.userHash id).layerCount src.userHash := by
      rw [FileStore.layerCount, FileStore.layerCount, he]
    rw [hg]
    exact layerCount_insert f src.userHash id

theorem layerCount_of_alreadySources {now : UInt32} {hash : FileHash} {size : UInt64} {name : Str}
    {src : Source} (hs : f.alreadySources src.userHash hash = some true)
    (h : f.addFileWithSource U now hash size name src = some g) :
    g.layerCount src.userHash = f.layerCount src.userHash := by
  obtain ⟨found, hid, hm⟩ := Option.bind_eq_some_iff.mp hs
  cases found with
  | none => cases Option.some.inj hm
  | some id =>
    obtain he | ⟨slab, id', new, hget, he⟩ := addFileWithSource_userFiles h
    · rw [FileStore.layerCount, FileStore.layerCount, he]
    · obtain rfl := getOrInsert_of_idOf hid hget
      obtain ⟨ids, hu, hmem⟩ := (Option.any_eq_true _ _).mp (Option.some.inj hm)
      have hg : g.layerCount src.userHash =
          (f.userFilesInsert src.userHash id').layerCount src.userHash := by
        rw [FileStore.layerCount, FileStore.layerCount, he]
      rw [hg]
      exact layerCount_insert_of_mem hu (by simpa using hmem)

/-- The number of slots of each shard. -/
def slots (s : FileSlab) (no : Fin SLAB_SHARDS) : Nat := (s.shards no).records.length

theorem slots_setRecord (s : FileSlab) (id : FileId) (r : FileRecord) :
    slots (setRecord s id r) = slots s := by
  funext no
  by_cases hno : no = idShard id
  · subst hno
    simp [slots, setRecord]
  · simp [slots, setRecord, hno]

/-- What a merge of a source does to the record of the id. -/
theorem mergeSource_spec (h : SlabInv s) (id : FileId) (size : UInt64) (src : Source)
    (publishedAs : Str) :
    ∃ s' result, mergeSource s id size src publishedAs = (s', result) ∧ SlabInv s' ∧
      slots s' = slots s ∧
      ((result = .unknown ∧ s' = s ∧ s.get id = none) ∨
        ∃ r, s.get id = some r ∧
          ((result = .sizeMismatch r.size ∧ s' = s) ∨
            ∃ storedName size', result = .merged storedName ∧ s'.get = Function.update s.get id
              (some { r with size := size', sources := refreshSource src r.sources }))) := by
  rw [mergeSource]
  cases hr : s.get id with
  | none => exact ⟨s, .unknown, rfl, h, rfl, Or.inl ⟨rfl, rfl, rfl⟩⟩
  | some r =>
    dsimp only
    split
    · exact ⟨s, _, rfl, h, rfl, Or.inr ⟨r, rfl, Or.inl ⟨rfl, rfl⟩⟩⟩
    · set r' : FileRecord := { r with
        size := if !sizesAgree r.size size || r.size < size then size else r.size
        sources := refreshSource src r.sources } with hr'
      have halive : r'.alive = true := (get_eq_some.mp hr).2
      obtain ⟨hinv, hget⟩ := setRecord_spec h hr (rfl : r'.hash = r.hash) halive
      exact ⟨_, _, rfl, hinv, slots_setRecord s id _, Or.inr ⟨r, rfl, Or.inr ⟨_, _, rfl, hget⟩⟩⟩

theorem addOrRefreshSourceSized_total (h : SlabInv s) (hash : FileHash) (size : UInt64)
    (src : Source) (publishedAs : Str) :
    ∃ s' result, addOrRefreshSourceSized s hash size src publishedAs = some (s', result) ∧
      SlabInv s' ∧ slots s' = slots s := by
  obtain ⟨found, hid, -⟩ := idOf_spec h hash
  rw [addOrRefreshSourceSized, hid]
  cases found with
  | none => exact ⟨s, .unknown, rfl, h, rfl⟩
  | some id =>
    obtain ⟨s', result, hm, hinv, hslots, -⟩ := mergeSource_spec h id size src publishedAs
    exact ⟨s', result, congrArg some hm, hinv, hslots⟩

theorem shardInv_media {no : Fin SLAB_SHARDS} {sh : SlabShard} (h : ShardInv no sh)
    (media : UInt32 → Option Media) : ShardInv no { sh with media := media } :=
  ⟨⟨h.shape.next_length, h.shape.mask, h.shape.room⟩, h.linked, h.home, h.unique, h.free_nodup,
    h.mem_free⟩

theorem setMedia_spec (h : SlabInv s) (no : Fin SLAB_SHARDS) (media : UInt32 → Option Media) :
    SlabInv (setMedia s no media) ∧ (setMedia s no media).get = s.get ∧
      slots (setMedia s no media) = slots s := by
  have hrec : ∀ k, ((setMedia s no media).shards k).records = (s.shards k).records := by
    intro k
    by_cases hk : k = no
    · subst hk
      simp [setMedia]
    · simp [setMedia, hk]
  refine ⟨⟨fun k => ?_, fun k => ?_, ?_⟩, ?_, ?_⟩
  · by_cases hk : k = no
    · subst hk
      simpa [setMedia] using shardInv_media (h.shard k) media
    · simpa [setMedia, hk] using h.shard k
  · rw [hrec]
    exact h.room k
  · simp only [liveNumber, hrec]
    exact h.live
  · funext id
    rw [FileSlab.get, FileSlab.get, hrec]
  · funext k
    rw [slots, slots, hrec]

theorem mergeMedia_spec (h : SlabInv s) (hash : FileHash) (m : Media) :
    ∃ s', mergeMedia s hash m = some s' ∧ SlabInv s' ∧ s'.get = s.get ∧ slots s' = slots s := by
  obtain ⟨found, hfind, -⟩ := find_spec (h.shard (shardOfHash hash)) hash
  rw [mergeMedia, hfind]
  split
  · exact ⟨s, rfl, h, rfl, rfl⟩
  · cases found with
    | none => exact ⟨s, rfl, h, rfl, rfl⟩
    | some idx => exact ⟨_, rfl, setMedia_spec h _ _⟩

theorem getOrInsert_total (h : SlabInv s) {now : UInt32} {hash : FileHash}
    (hroom : Room s now hash) (size : UInt64) (name : Str) (src : Source) :
    ∃ s' id new, s.getOrInsert now hash size name src = some (s', id, new) ∧ SlabInv s' ∧
      ∀ no, slots s' no ≤ slots s no + 1 := by
  obtain ⟨s', id, new, hget, hinv, ⟨-, rfl, -⟩ | ⟨-, -, -, -, -, hslot, hother⟩⟩ :=
    searchOrInsert_spec h (r := .new hash size name [src]) rfl hroom
  · exact ⟨s', id, new, hget, hinv, fun no => Nat.le_succ _⟩
  · refine ⟨s', id, new, hget, hinv, fun no => ?_⟩
    by_cases hno : no = shardOfHash hash
    · subst hno
      cases hslot with
      | reused freedAt rest hf age hfree hlen => exact hlen.le.trans (Nat.le_succ _)
      | fresh he hyoung hfree hlen => exact hlen.le
    · rw [slots, hother no hno]
      exact Nat.le_succ _

/-- With a slot left in every shard, a publish returns. -/
theorem addFileWithSource_total (h : SlabInv f.fileSlab) {now : UInt32} {hash : FileHash}
    (hroom : Room f.fileSlab now hash) (size : UInt64) (name : Str) (src : Source) :
    ∃ g, f.addFileWithSource U now hash size name src = some g ∧ SlabInv g.fileSlab ∧
      ∀ no, slots g.fileSlab no ≤ slots f.fileSlab no + 1 := by
  obtain ⟨s₁, id, new, hget, hinv, hslots⟩ :=
    getOrInsert_total h hroom size name src
  rw [FileStore.addFileWithSource, hget, Option.bind_eq_bind, Option.bind_some]
  cases new with
  | true => exact ⟨_, rfl, hinv, hslots⟩
  | false =>
    obtain ⟨s₂, result, hadd, hinv₂, hslots₂⟩ :=
      addOrRefreshSourceSized_total hinv hash size src name
    dsimp only
    rw [if_neg Bool.false_ne_true, hadd, Option.bind_eq_bind, Option.bind_some]
    cases result <;> exact ⟨_, rfl, hinv₂, fun no => hslots₂ ▸ hslots no⟩

end Ed2kServer.Publish.Files
