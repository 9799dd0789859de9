import Ed2kServer.Slab.Shard

namespace Ed2kServer.Slab.Store

open Ed2kServer.Slab.Record Ed2kServer.Slab.Shard

structure FileSlab where
  shards : Fin SLAB_SHARDS → SlabShard
  live : UInt32
  quarantineSecs : UInt32

def SLOT_QUARANTINE_SECS : UInt32 := 60

def FileSlab.new (quarantineSecs : UInt32) : FileSlab := ⟨fun _ => .new, 0, quarantineSecs⟩

/-- `none` outside: the walk of a chain panics or does not end. -/
def FileSlab.idOf (s : FileSlab) (hash : FileHash) : Option (Option FileId) := do
  let found ← (s.shards (shardOfHash hash)).find hash
  return found.map (makeId (shardOfHash hash))

def FileSlab.get (s : FileSlab) (id : FileId) : Option FileRecord :=
  ((s.shards (idShard id)).records[(idIndex id).toNat]?).filter (·.alive)

def FileSlab.hashOf (s : FileSlab) (id : FileId) : Option FileHash := (s.get id).map (·.hash)

def FileSlab.liveCount (s : FileSlab) : Nat := s.live.toNat

/-- The search and the insertion under one write lock; `true` when the record is new. -/
def FileSlab.searchOrInsert (s : FileSlab) (now : UInt32) (r : FileRecord) :
    Option (FileSlab × FileId × Bool) := do
  let no := shardOfHash r.hash
  match ← (s.shards no).find r.hash with
  | some idx => return (s, makeId no idx, false)
  | none =>
    let (sh, idx) ← (s.shards no).insertRecord r now s.quarantineSecs
    return ({ s with shards := Function.update s.shards no sh, live := s.live + 1 },
      makeId no idx, true)

def FileSlab.getOrInsert (s : FileSlab) (now : UInt32) (hash : FileHash) (size : UInt64)
    (name : Str) (firstSource : Source) : Option (FileSlab × FileId × Bool) :=
  s.searchOrInsert now (.new hash size name [firstSource])

def FileSlab.insertSourceless (s : FileSlab) (now : UInt32) (hash : FileHash) (size : UInt64)
    (name : Str) : Option (FileSlab × FileId) :=
  (s.searchOrInsert now (.new hash size name [])).map (fun p => (p.1, p.2.1))

def FileSlab.tombstoneWhere (s : FileSlab) (now : UInt32) (id : FileId)
    (cond : FileRecord → Bool) : Option (FileSlab × Option Str) := do
  let no := idShard id
  let (sh, name) ← (s.shards no).tombstone now (idIndex id) cond
  match name with
  | none => return (s, none)
  | some name =>
    return ({ s with shards := Function.update s.shards no sh, live := s.live - 1 }, some name)

def FileSlab.tombstone (s : FileSlab) (now : UInt32) (id : FileId) : Option (FileSlab × Bool) :=
  (s.tombstoneWhere now id (fun _ => true)).map (fun p => (p.1, p.2.isSome))

def FileSlab.tombstoneIfSourceless (s : FileSlab) (now : UInt32) (id : FileId) :
    Option (FileSlab × Option Str) := s.tombstoneWhere now id (·.sources.isEmpty)

end Ed2kServer.Slab.Store
