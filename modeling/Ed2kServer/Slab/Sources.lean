import Ed2kServer.Slab.StoreSpec

namespace Ed2kServer.Slab.Sources

open Ed2kServer.Slab.Record Ed2kServer.Slab.Shard Ed2kServer.Slab.Chains
open Ed2kServer.Slab.Invariant
open Ed2kServer.Slab.ShardSpec Ed2kServer.Slab.Store Ed2kServer.Slab.StoreSpec

def PARTSIZE : UInt64 := 9728000

/-- Is `lo` what a client guesses for a file of size `hi` from its part hashes alone? -/
def isPartEstimate (lo hi : UInt64) : Bool :=
  PARTSIZE ≤ lo && lo % PARTSIZE == 0 && lo == hi / PARTSIZE * PARTSIZE

/-- 0 is unknown and agrees with anything, and so does a size cut to 32 bits. -/
def sizesAgree (a b : UInt64) : Bool :=
  let lo := min a b
  let hi := max a b
  a == 0 || b == 0 || a == b ||
    (lo ≤ 0xFFFFFFFF && 0xFFFFFFFF < hi && hi &&& 0xFFFFFFFF == lo) || isPartEstimate lo hi

/-- `with_record_by_hash`: the live record of a hash, under one lock. -/
def recordByHash (s : FileSlab) (hash : FileHash) : Option (Option FileRecord) := do
  let sh := s.shards (shardOfHash hash)
  let found ← sh.find hash
  return found.bind (fun idx => (sh.records[idx.toNat]?).filter (·.alive))

/-- Replace the record of a slot. -/
def setRecord (s : FileSlab) (id : FileId) (r : FileRecord) : FileSlab :=
  let sh := s.shards (idShard id)
  let records := sh.records.set (idIndex id).toNat r
  { s with shards := Function.update s.shards (idShard id) { sh with records := records } }

/-- The first entry of this user is refreshed, or a new one appended. -/
def refreshSource (src : Source) : List Source → List Source
  | [] => [src]
  | s :: rest =>
    if s.userHash = src.userHash then { s with complete := src.complete } :: rest
    else s :: refreshSource src rest

inductive SizedMerge
  /-- With the stored name when the publisher used another. -/
  | merged (storedName : Option Str)
  | sizeMismatch (stored : UInt64)
  | unknown
  deriving DecidableEq

/-- The second half of `add_or_refresh_source_sized`, under the write lock of the id's shard. -/
def mergeSource (s : FileSlab) (id : FileId) (size : UInt64) (src : Source) (publishedAs : Str) :
    FileSlab × SizedMerge :=
  match s.get id with
  | none => (s, .unknown)
  | some r =>
    if !sizesAgree r.size size && r.sources ≠ [] then (s, .sizeMismatch r.size)
    else
      let newSize := if !sizesAgree r.size size || r.size < size then size else r.size
      (setRecord s id { r with size := newSize, sources := refreshSource src r.sources },
        .merged (if r.name = publishedAs then none else some r.name))

/-- `true` when the file is now without a source. -/
def removeUserSource (s : FileSlab) (id : FileId) (userHash : UserHash) : FileSlab × Bool :=
  match s.get id with
  | none => (s, false)
  | some r =>
    let sources := r.sources.filter (·.userHash ≠ userHash)
    (setRecord s id { r with sources := sources }, sources = [])

variable {s : FileSlab}

theorem recordByHash_spec (h : SlabInv s) (hash : FileHash) :
    ∃ o, recordByHash s hash = some o ∧
      ∀ r, o = some r ↔ ∃ id, s.get id = some r ∧ r.hash = hash := by
  obtain ⟨found, hfound, hspec⟩ := find_spec (h.shard (shardOfHash hash)) hash
  refine ⟨found.bind (fun i =>
    ((s.shards (shardOfHash hash)).records[i.toNat]?).filter (·.alive)),
    by simp [recordByHash, hfound], fun r => ?_⟩
  rw [Option.bind_eq_some_iff]
  constructor
  · rintro ⟨i, hi, hr⟩
    obtain ⟨q, hq, hh⟩ := (hspec i).mp hi
    have hlive : LiveAt (s.shards (shardOfHash hash)) i r := Option.filter_eq_some_iff.mp hr
    obtain rfl : q = r := Option.some.inj (hq.1.symm.trans hlive.1)
    exact ⟨makeId (shardOfHash hash) i,
      (get_makeId (Nat.lt_of_lt_of_le (LiveAt.lt hq) (h.room _))).mpr hq, hh⟩
  · rintro ⟨id, hr, rfl⟩
    have hlive := get_eq_some.mp hr
    rw [← (h.shard _).home _ r hlive] at hlive
    exact ⟨idIndex id, (hspec _).mpr ⟨r, hlive, rfl⟩, Option.filter_eq_some_iff.mpr hlive⟩

theorem shardInv_set {no : Fin SLAB_SHARDS} {sh : SlabShard} {i : UInt32} {r r' : FileRecord}
    (h : ShardInv no sh) (hr : LiveAt sh i r) (hhash : r'.hash = r.hash)
    (halive : r'.alive = true) :
    let sh' : SlabShard := { sh with records := sh.records.set i.toNat r' }
    ShardInv no sh' ∧ ∀ j q, LiveAt sh' j q ↔ if j = i then q = r' else LiveAt sh j q := by
  intro sh'
  have hi : i.toNat < sh.records.length := LiveAt.lt hr
  have hrec : ∀ j : UInt32, sh'.records[j.toNat]? =
      if j = i then some r' else sh.records[j.toNat]? := by
    intro j
    by_cases hj : j = i
    · subst hj
      simp [sh', hi]
    · have hne : i.toNat ≠ j.toNat := fun he => hj (UInt32.toNat_inj.mp he.symm)
      simp [sh', hj, hne]
  have hlive : ∀ j q, LiveAt sh' j q ↔ if j = i then q = r' else LiveAt sh j q := by
    intro j q
    rw [LiveAt, hrec]
    by_cases hj : j = i
    · simp only [hj, if_true, Option.some.injEq]
      exact ⟨fun hq => hq.1.symm, fun hq => ⟨hq.symm, hq ▸ halive⟩⟩
    · simp only [hj, if_false, LiveAt]
  have halive' : ∀ j, Alive sh' j ↔ Alive sh j := by
    intro j
    simp only [Alive, hlive]
    by_cases hj : j = i
    · subst hj
      simp only [if_true]
      exact ⟨fun _ => ⟨r, hr⟩, fun _ => ⟨r', rfl⟩⟩
    · simp only [hj, if_false]
  have hbucket : ∀ b j, InBucket sh' b j ↔ InBucket sh b j := by
    intro b j
    simp only [InBucket, hrec]
    by_cases hj : j = i
    · subst hj
      simp [hr.1, hhash, sh']
    · simp [hj, sh']
  have hhome : ∀ j q, LiveAt sh' j q → ∃ q', LiveAt sh j q' ∧ q'.hash = q.hash := by
    intro j q hq
    rw [hlive] at hq
    by_cases hj : j = i
    · rw [if_pos hj] at hq
      exact ⟨r, hj ▸ hr, by rw [hq, hhash]⟩
    · rw [if_neg hj] at hq
      exact ⟨q, hq, rfl⟩
  refine ⟨⟨⟨?_, h.shape.mask, ?_⟩, ?_, ?_, ?_, h.free_nodup, ?_⟩, hlive⟩
  · simpa [sh'] using h.shape.next_length
  · simpa [sh'] using h.shape.room
  · intro b head hb
    obtain ⟨l, hl, hm⟩ := h.linked b head hb
    exact ⟨l, hl, fun j => by rw [hm, halive', hbucket]⟩
  · intro j q hq
    obtain ⟨q', hq', hh⟩ := hhome j q hq
    rw [← hh]
    exact h.home j q' hq'
  · intro j k q p hq hp hqp
    obtain ⟨q', hq', hh⟩ := hhome j q hq
    obtain ⟨p', hp', hh'⟩ := hhome k p hp
    exact h.unique j k q' p' hq' hp' (by rw [hh, hh', hqp])
  · intro j
    rw [h.mem_free, halive']
    simp [sh']

/-- A live record may be replaced in place by one of the same hash. -/
theorem setRecord_spec (h : SlabInv s) {id : FileId} {r r' : FileRecord} (hr : s.get id = some r)
    (hhash : r'.hash = r.hash) (halive : r'.alive = true) :
    SlabInv (setRecord s id r') ∧
      (setRecord s id r').get = Function.update s.get id (some r') := by
  have hlive := get_eq_some.mp hr
  obtain ⟨hinv, hspec⟩ := shardInv_set (h.shard (idShard id)) hlive hhash halive
  have hi : (idIndex id).toNat < 2 ^ 26 := by
    rw [idIndex_toNat]
    exact Nat.mod_lt _ (by decide)
  refine ⟨⟨fun no => ?_, fun no => ?_, ?_⟩, ?_⟩
  · by_cases hno : no = idShard id
    · subst hno
      simpa [setRecord] using hinv
    · simpa [setRecord, hno] using h.shard no
  · by_cases hno : no = idShard id
    · subst hno
      simpa [setRecord] using h.room (idShard id)
    · simpa [setRecord, hno] using h.room no
  · have hnum : liveNumber (setRecord s id r') = liveNumber s := by
      set sh' : SlabShard := { s.shards (idShard id) with
        records := (s.shards (idShard id)).records.set (idIndex id).toNat r' } with hsh'
      have hsum := sum_update s.shards (idShard id) sh'
        (fun sh => sh.records.countP FileRecord.alive)
      have hd := dead_length (h.shard (idShard id))
      have hd' := dead_length hinv
      have hlen : sh'.records.length = (s.shards (idShard id)).records.length := by simp [hsh']
      have hfree : sh'.free = (s.shards (idShard id)).free := rfl
      have hset : liveNumber (setRecord s id r') =
          ∑ k, (Function.update s.shards (idShard id) sh' k).records.countP FileRecord.alive := rfl
      rw [hfree, hlen] at hd'
      rw [hset, liveNumber]
      omega
    rw [hnum]
    exact h.live
  · have hget : (setRecord s id r').get =
        Function.update s.get (makeId (idShard id) (idIndex id)) (some r') :=
      get_update hi (fun j hj q => by rw [hspec, if_neg hj])
        (fun q => by rw [hspec, if_pos rfl]; simp [eq_comm])
    rwa [makeId_idShard_idIndex] at hget

end Ed2kServer.Slab.Sources
