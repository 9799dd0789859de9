import Ed2kServer.Slab.Record

namespace Ed2kServer.Slab.Shard

open Ed2kServer.Slab.Record

/-- Records with an intrusive hash index: the bucket heads, and for each slot the next slot of
its bucket. -/
structure SlabShard where
  records : List FileRecord
  next : List UInt32
  buckets : List UInt32
  bucketMask : UInt32
  /-- Dead slots awaiting reuse and when they were freed, the oldest first. -/
  free : List (UInt32 × UInt32)
  media : UInt32 → Option Media

def SLAB_SHARD_INIT_BUCKETS : Nat := 64

def SlabShard.new : SlabShard where
  records := []
  next := []
  buckets := List.replicate SLAB_SHARD_INIT_BUCKETS NIL
  bucketMask := UInt32.ofNat (SLAB_SHARD_INIT_BUCKETS - 1)
  free := []
  media := fun _ => none

/-- A checked write into an array of links; `none` is the panic of a bad index. -/
def store (links : List UInt32) (i : Nat) (v : UInt32) : Option (List UInt32) :=
  if i < links.length then some (links.set i v) else none

def SlabShard.link (sh : SlabShard) (index : UInt32) : Option SlabShard := do
  let r ← sh.records[index.toNat]?
  let b := bucketOf (hashU64 r.hash) sh.bucketMask
  let head ← sh.buckets[b]?
  let next ← store sh.next index.toNat head
  return { sh with next := next, buckets := sh.buckets.set b index }

/-- The walk of `unlink` along bucket `b`; `none` when a step is out of range or `fuel` ends. -/
def SlabShard.unlinkFrom (sh : SlabShard) (b : Nat) (index : UInt32) :
    Nat → UInt32 → UInt32 → Option SlabShard
  | 0, _, _ => none
  | fuel + 1, prev, cur =>
    if cur = NIL then some sh
    else do
      let after ← sh.next[cur.toNat]?
      if cur = index then
        if prev = NIL then
          let buckets ← store sh.buckets b after
          let next ← store sh.next cur.toNat NIL
          return { sh with buckets := buckets, next := next }
        else
          let next ← store sh.next prev.toNat after
          let next ← store next cur.toNat NIL
          return { sh with next := next }
      else sh.unlinkFrom b index fuel cur after

def SlabShard.unlink (sh : SlabShard) (index : UInt32) (hash : FileHash) : Option SlabShard := do
  let b := bucketOf (hashU64 hash) sh.bucketMask
  let head ← sh.buckets[b]?
  sh.unlinkFrom b index (sh.next.length + 1) NIL head

/-- Chain the live records of the `n` slots from `i` on, clear the links of the others. -/
def SlabShard.relink (i : Nat) : Nat → SlabShard → Option SlabShard
  | 0, sh => some sh
  | n + 1, sh => do
    let r ← sh.records[i]?
    if r.alive then
      let sh ← sh.link (UInt32.ofNat i)
      SlabShard.relink (i + 1) n sh
    else
      let next ← store sh.next i NIL
      SlabShard.relink (i + 1) n { sh with next := next }

def SlabShard.growBuckets (sh : SlabShard) : Option SlabShard :=
  let newLen := max (sh.buckets.length * 2) SLAB_SHARD_INIT_BUCKETS
  SlabShard.relink 0 sh.records.length
    { sh with
      buckets := List.replicate newLen NIL
      bucketMask := UInt32.ofNat (newLen - 1) }

def SlabShard.findFrom (sh : SlabShard) (hash : FileHash) : Nat → UInt32 → Option (Option UInt32)
  | 0, _ => none
  | fuel + 1, cur =>
    if cur = NIL then some none
    else do
      let r ← sh.records[cur.toNat]?
      if r.alive && r.hash == hash then return some cur
      else
        let after ← sh.next[cur.toNat]?
        sh.findFrom hash fuel after

/-- The slot of the live record with this hash, by its bucket's chain. -/
def SlabShard.find (sh : SlabShard) (hash : FileHash) : Option (Option UInt32) := do
  let head ← sh.buckets[bucketOf (hashU64 hash) sh.bucketMask]?
  sh.findFrom hash (sh.next.length + 1) head

def SlabShard.pushAndLink (sh : SlabShard) (r : FileRecord) : Option (SlabShard × UInt32) := do
  let index := UInt32.ofNat sh.records.length
  let pushed := { sh with records := sh.records ++ [r], next := sh.next ++ [NIL] }
  -- growing chains the new record along with the others
  if pushed.buckets.length < pushed.records.length then
    let grown ← pushed.growBuckets
    return (grown, index)
  else
    let linked ← pushed.link index
    return (linked, index)

/-- The oldest dead slot is reused once its age, a wrapping difference, reaches the quarantine. -/
def SlabShard.insertRecord (sh : SlabShard) (r : FileRecord) (now quarantine : UInt32) :
    Option (SlabShard × UInt32) :=
  match sh.free with
  | (idx, freedAt) :: free =>
    if quarantine ≤ now - freedAt then do
      let _ ← sh.records[idx.toNat]?
      let next ← store sh.next idx.toNat NIL
      let reused := { sh with
        records := sh.records.set idx.toNat r
        next := next
        free := free
        media := Function.update sh.media idx none }
      let linked ← reused.link idx
      return (linked, idx)
    else sh.pushAndLink r
  | [] => sh.pushAndLink r

/-- Mark a slot dead and queue it, if it is alive and meets `cond`; the second result is the
name it had. -/
def SlabShard.tombstone (sh : SlabShard) (now : UInt32) (idx : UInt32)
    (cond : FileRecord → Bool) : Option (SlabShard × Option Str) :=
  match sh.records[idx.toNat]? with
  | none => some (sh, none)
  | some r =>
    if r.alive && cond r then do
      let sh ← sh.unlink idx r.hash
      return ({ sh with
        media := Function.update sh.media idx none
        records := sh.records.set idx.toNat { r with fname := none, sources := [] }
        free := sh.free ++ [(idx, now)] }, r.fname)
    else some (sh, none)

end Ed2kServer.Slab.Shard
