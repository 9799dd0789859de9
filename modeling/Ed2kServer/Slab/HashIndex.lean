import Ed2kServer.Lib.Transition
import Ed2kServer.Slab.StoreSpec

namespace Ed2kServer.Slab.HashIndex

open Ed2kServer.Lib.Transition
open Ed2kServer.Slab.Record Ed2kServer.Slab.Shard Ed2kServer.Slab.ShardSpec Ed2kServer.Slab.Store
open Ed2kServer.Slab.StoreSpec

/-- A call on the slab, with the clock value it read. -/
inductive Event
  | getOrInsert (now : UInt32) (hash : FileHash) (size : UInt64) (name : Str) (source : Source)
  | insertSourceless (now : UInt32) (hash : FileHash) (size : UInt64) (name : Str)
  | tombstone (now : UInt32) (id : FileId)
  | tombstoneIfSourceless (now : UInt32) (id : FileId)

/-- `none` is a panic or a walk that does not end. -/
def step (s : FileSlab) : Event → Option FileSlab
  | .getOrInsert now hash size name source =>
    (s.getOrInsert now hash size name source).map Prod.fst
  | .insertSourceless now hash size name => (s.insertSourceless now hash size name).map Prod.fst
  | .tombstone now id => (s.tombstone now id).map Prod.fst
  | .tombstoneIfSourceless now id => (s.tombstoneIfSourceless now id).map Prod.fst

/-- The step does not make a shard grow past the slots an id can name. -/
def HasRoom (s : FileSlab) : Event → Prop
  | .getOrInsert now hash _ _ _ | .insertSourceless now hash _ _ => Room s now hash
  | .tombstone _ _ | .tombstoneIfSourceless _ _ => True

theorem step_spec {s : FileSlab} (h : SlabInv s) {e : Event} (hr : HasRoom s e) :
    ∃ t, step s e = some t ∧ SlabInv t ∧
      ∀ no, (t.shards no).records.length ≤ (s.shards no).records.length + 1 := by
  have hins : ∀ (now : UInt32) (r : FileRecord), r.alive = true → Room s now r.hash →
      ∃ t id new, s.searchOrInsert now r = some (t, id, new) ∧ SlabInv t ∧
        ∀ no, (t.shards no).records.length ≤ (s.shards no).records.length + 1 := by
    intro now r ha hroom
    obtain ⟨t, id, new, hrun, ht, hout⟩ := searchOrInsert_spec h ha hroom
    refine ⟨t, id, new, hrun, ht, fun no => ?_⟩
    rcases hout with ⟨-, rfl, -⟩ | ⟨-, -, -, -, -, hslot, hother⟩
    · exact Nat.le_succ _
    · by_cases hno : no = shardOfHash r.hash
      · subst hno
        cases hslot with
        | reused f rest hf age hfree hl => omega
        | fresh he hold hfree hl => omega
      · rw [hother no hno]
        exact Nat.le_succ _
  have htomb : ∀ (now : UInt32) (id : FileId) (cond : FileRecord → Bool),
      ∃ t o, s.tombstoneWhere now id cond = some (t, o) ∧ SlabInv t ∧
        ∀ no, (t.shards no).records.length ≤ (s.shards no).records.length + 1 := by
    intro now id cond
    obtain ⟨t, o, hrun, ht, hout⟩ := tombstoneWhere_spec h now id cond
    refine ⟨t, o, hrun, ht, fun no => ?_⟩
    rcases hout with ⟨-, rfl, -⟩ | ⟨r, -, -, -, -, -, hlen, hother⟩
    · exact Nat.le_succ _
    · by_cases hno : no = idShard id
      · subst hno
        omega
      · rw [hother no hno]
        exact Nat.le_succ _
  cases e with
  | getOrInsert now hash size name source =>
    obtain ⟨t, id, new, hrun, ht⟩ := hins now (.new hash size name [source]) rfl hr
    exact ⟨t, by simp [step, FileSlab.getOrInsert, hrun], ht⟩
  | insertSourceless now hash size name =>
    obtain ⟨t, id, new, hrun, ht⟩ := hins now (.new hash size name []) rfl hr
    exact ⟨t, by simp [step, FileSlab.insertSourceless, hrun], ht⟩
  | tombstone now id =>
    obtain ⟨t, o, hrun, ht⟩ := htomb now id (fun _ => true)
    exact ⟨t, by simp [step, FileSlab.tombstone, hrun], ht⟩
  | tombstoneIfSourceless now id =>
    obtain ⟨t, o, hrun, ht⟩ := htomb now id (·.sources.isEmpty)
    exact ⟨t, by simp [step, FileSlab.tombstoneIfSourceless, hrun], ht⟩

/-- A run of at most `2 ^ 26` calls cannot fill a shard. -/
theorem along_of_length {s : FileSlab} (h : SlabInv s) {es : List Event}
    (hlen : ∀ no, (s.shards no).records.length + es.length ≤ 2 ^ 26) :
    Along step HasRoom s es := by
  induction es generalizing s with
  | nil => trivial
  | cons e es ih =>
    simp only [List.length_cons] at hlen
    have hr : HasRoom s e := by
      have hlt : ∀ no, (s.shards no).records.length < 2 ^ 26 := fun no => by
        have hno := hlen no
        omega
      cases e with
      | getOrInsert now hash size name source => exact Or.inl (hlt _)
      | insertSourceless now hash size name => exact Or.inl (hlt _)
      | tombstone now id => trivial
      | tombstoneIfSourceless now id => trivial
    refine ⟨hr, fun t ht => ?_⟩
    obtain ⟨u, hu, hi, hl⟩ := step_spec h hr
    obtain rfl : u = t := Option.some.inj (hu.symm.trans ht)
    refine ih hi (fun no => ?_)
    have h1 := hl no
    have h2 := hlen no
    omega

/-- Every run of calls returns; the chains, the free queue and the live count agree with the
records, and a hash and the id of its live record determine each other. -/
theorem hash_index_invariant {quarantine : UInt32} {es : List Event}
    (hc : Along step HasRoom (.new quarantine) es) :
    ∃ s, exec step (.new quarantine) es = some s ∧ SlabInv s ∧
      (∀ hash, ∃ found, s.idOf hash = some found ∧
        ∀ id, found = some id ↔ s.hashOf id = some hash) ∧
      (∀ id hash, s.hashOf id = some hash → s.idOf hash = some (some id)) ∧
      s.liveCount = liveNumber s % 2 ^ 32 := by
  obtain ⟨s, hrun, hinv⟩ := exec_total_along (fun s e hs hr => by
    obtain ⟨t, ht, hi, -⟩ := step_spec hs hr
    exact ⟨t, ht, hi⟩) (slabInv_new quarantine) hc
  have hid : ∀ hash, ∃ found, s.idOf hash = some found ∧
      ∀ id, found = some id ↔ s.hashOf id = some hash := by
    intro hash
    obtain ⟨o, ho, hm⟩ := idOf_spec hinv hash
    refine ⟨o, ho, fun id => (hm id).trans ?_⟩
    rw [FileSlab.hashOf, Option.map_eq_some_iff]
  refine ⟨s, hrun, hinv, hid, fun id hash h => ?_, ?_⟩
  · obtain ⟨found, hf, hm⟩ := hid hash
    rw [hf, (hm id).mpr h]
  · rw [FileSlab.liveCount, hinv.live, UInt32.toNat_ofNat']

/-- A slot freed, quarantined and taken again under another hash. -/
def reuse : List Event :=
  [.insertSourceless 0 (.replicate 16 64) 9 [], .tombstone 1 0,
    .insertSourceless 62 (.replicate 16 0) 7 []]

theorem reuse_invariant :
    ∃ s, exec step (.new SLOT_QUARANTINE_SECS) reuse = some s ∧ SlabInv s ∧
      (∀ hash, ∃ found, s.idOf hash = some found ∧
        ∀ id, found = some id ↔ s.hashOf id = some hash) ∧
      (∀ id hash, s.hashOf id = some hash → s.idOf hash = some (some id)) ∧
      s.liveCount = liveNumber s % 2 ^ 32 :=
  hash_index_invariant (along_of_length (slabInv_new _) (fun _ => by
    simp [FileSlab.new, SlabShard.new, reuse]))

end Ed2kServer.Slab.HashIndex
