import Ed2kServer.Basic

namespace Ed2kServer.Slab.Record

abbrev FileHash := Vector UInt8 16

abbrev UserHash := Vector UInt8 16

/-- One user who offers a file; an IPv6 address is stored as 0. -/
structure Source where
  userHash : UserHash
  ipv4 : UInt32
  port : UInt16
  complete : Bool
  deriving DecidableEq

/-- A slot of the slab; without a name it is a tombstone. -/
structure FileRecord where
  hash : FileHash
  size : UInt64
  fname : Option Str
  sources : List Source
  deriving DecidableEq

def FileRecord.new (hash : FileHash) (size : UInt64) (name : Str) (sources : List Source) :
    FileRecord := ⟨hash, size, some name, sources⟩

def FileRecord.name (r : FileRecord) : Str := r.fname.getD []

def FileRecord.alive (r : FileRecord) : Bool := r.fname.isSome

/-- Length, bitrate and codec packed in one word. -/
abbrev Media := UInt64

def SLAB_SHARDS : Nat := 64

instance : NeZero SLAB_SHARDS := ⟨by decide⟩

def SLAB_INDEX_BITS : UInt32 := 26

def SLAB_INDEX_MASK : UInt32 := (1 <<< SLAB_INDEX_BITS) - 1

theorem idShard_lt (id : FileId) : (id >>> SLAB_INDEX_BITS).toNat < SLAB_SHARDS := by
  have h := id.toNat_lt
  simp only [SLAB_INDEX_BITS, SLAB_SHARDS, UInt32.toNat_shiftRight, UInt32.reduceToNat,
    Nat.reduceMod, Nat.shiftRight_eq_div_pow]
  omega

def idShard (id : FileId) : Fin SLAB_SHARDS := ⟨_, idShard_lt id⟩

def idIndex (id : FileId) : UInt32 := id &&& SLAB_INDEX_MASK

def makeId (shard : Fin SLAB_SHARDS) (index : UInt32) : FileId :=
  (UInt32.ofNat shard.val <<< SLAB_INDEX_BITS) ||| (index &&& SLAB_INDEX_MASK)

/-- The end of a chain. -/
def NIL : UInt32 := 0xFFFFFFFF

/-- The first eight bytes of a hash, little-endian. -/
def hashU64 (hash : FileHash) : UInt64 :=
  ((hash.toList.take 8).reverse).foldl (fun h b => (h <<< 8) ||| b.toUInt64) 0

def shardOfHash (hash : FileHash) : Fin SLAB_SHARDS :=
  ⟨(hashU64 hash).toNat % SLAB_SHARDS, Nat.mod_lt _ (by decide)⟩

def bucketOf (h : UInt64) (mask : UInt32) : Nat := ((h >>> 6).toUInt32 &&& mask).toNat

theorem bucketOf_le (h : UInt64) (mask : UInt32) : bucketOf h mask ≤ mask.toNat := by
  rw [bucketOf, UInt32.toNat_and]
  exact Nat.and_le_right

theorem idIndex_toNat (id : FileId) : (idIndex id).toNat = id.toNat % 2 ^ 26 := by
  rw [idIndex, UInt32.toNat_and]
  exact Nat.and_two_pow_sub_one_eq_mod id.toNat 26

theorem makeId_toNat (shard : Fin SLAB_SHARDS) (index : UInt32) :
    (makeId shard index).toNat = shard.val * 2 ^ 26 + index.toNat % 2 ^ 26 := by
  have hs : shard.val < 64 := shard.isLt
  have hindex : (index &&& SLAB_INDEX_MASK).toNat = index.toNat % 2 ^ 26 := idIndex_toNat index
  have hshift : (UInt32.ofNat shard.val <<< SLAB_INDEX_BITS).toNat = shard.val * 2 ^ 26 := by
    rw [UInt32.toNat_shiftLeft, Nat.shiftLeft_eq, UInt32.toNat_ofNat']
    have hb : SLAB_INDEX_BITS.toNat % 32 = 26 := rfl
    rw [hb]
    omega
  rw [makeId, UInt32.toNat_or, hindex, hshift, Nat.mul_comm,
    ← Nat.two_pow_add_eq_or_of_lt (Nat.mod_lt _ (Nat.two_pow_pos 26))]

theorem idShard_toNat (id : FileId) : (idShard id).val = id.toNat / 2 ^ 26 := by
  simp only [idShard, SLAB_INDEX_BITS, UInt32.toNat_shiftRight, UInt32.reduceToNat,
    Nat.reduceMod, Nat.shiftRight_eq_div_pow]

@[simp] theorem idShard_makeId (shard : Fin SLAB_SHARDS) (index : UInt32) :
    idShard (makeId shard index) = shard := by
  have hs : shard.val < 64 := shard.isLt
  apply Fin.ext
  rw [idShard_toNat, makeId_toNat]
  omega

theorem idIndex_makeId (shard : Fin SLAB_SHARDS) {index : UInt32} (h : index.toNat < 2 ^ 26) :
    idIndex (makeId shard index) = index := by
  apply UInt32.toNat_inj.mp
  rw [idIndex_toNat, makeId_toNat]
  omega

theorem makeId_idShard_idIndex (id : FileId) : makeId (idShard id) (idIndex id) = id := by
  apply UInt32.toNat_inj.mp
  rw [makeId_toNat, idShard_toNat, idIndex_toNat]
  omega

end Ed2kServer.Slab.Record
