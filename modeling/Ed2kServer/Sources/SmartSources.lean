import Ed2kServer.Slab.Record

namespace Ed2kServer.Sources.SmartSources

open Ed2kServer.Slab.Record

/-- Nanoseconds of the monotonic clock. -/
abbrev Instant := Nat

def MAX_ENTRIES : Nat := 200000

def DEFAULT_TTL_SECS : UInt64 := 120

/-- A file hash and the kind of the reply, with crypt options or without. -/
abbrev Key := FileHash × Bool

/-- An encoded reply with every source, and whose record each is. -/
structure CacheEntry where
  payload : List UInt8
  owners : List UInt64
  inserted : Instant

structure SmartSourcesCache where
  map : List (Key × CacheEntry)
  ttlSecs : UInt64

def SmartSourcesCache.new : SmartSourcesCache := ⟨[], DEFAULT_TTL_SECS⟩

namespace SmartSourcesCache

def ttl (c : SmartSourcesCache) : Nat := max c.ttlSecs.toNat 1 * 10 ^ 9

def setTtlSecs (c : SmartSourcesCache) (secs : UInt64) : SmartSourcesCache :=
  { c with ttlSecs := min (max secs 1) 600 }

def isFresh (c : SmartSourcesCache) (now : Instant) (e : CacheEntry) : Bool :=
  now - e.inserted < c.ttl

/-- The fresh entry of a key. -/
def getKind (c : SmartSourcesCache) (now : Instant) (key : Key) : Option CacheEntry :=
  (c.map.lookup key).filter (c.isFresh now)

/-- Where the map is full of fresh entries the new one is not stored. -/
def putKind (c : SmartSourcesCache) (now : Instant) (key : Key) (payload : List UInt8)
    (owners : List UInt64) : SmartSourcesCache :=
  let insert := fun (m : List (Key × CacheEntry)) =>
    (key, ⟨payload, owners, now⟩) :: m.filter (·.1 ≠ key)
  if MAX_ENTRIES ≤ c.map.length ∧ c.map.lookup key = none then
    let swept := c.map.filter (fun kv => c.isFresh now kv.2)
    { c with map := if MAX_ENTRIES ≤ swept.length then swept else insert swept }
  else { c with map := insert c.map }

def sweepExpired (c : SmartSourcesCache) (now : Instant) : SmartSourcesCache :=
  { c with map := c.map.filter (fun kv => c.isFresh now kv.2) }

variable {c : SmartSourcesCache} {now : Instant} {key : Key} {P : Key × CacheEntry → Prop}

@[simp] theorem map_setTtlSecs (secs : UInt64) : (c.setTtlSecs secs).map = c.map := rfl

theorem mem_of_getKind {e : CacheEntry} (h : c.getKind now key = some e) : (key, e) ∈ c.map := by
  obtain ⟨hl, -⟩ := Option.filter_eq_some_iff.mp h
  obtain ⟨before, after, hm, -⟩ := List.lookup_eq_some_iff.mp hl
  rw [hm]
  exact List.mem_append_right _ List.mem_cons_self

/-- Storing an entry keeps what holds of all entries, if it holds of the new one. -/
theorem forall_putKind {payload : List UInt8} {owners : List UInt64}
    (h : ∀ kv ∈ c.map, P kv) (hnew : P (key, ⟨payload, owners, now⟩)) :
    ∀ kv ∈ (c.putKind now key payload owners).map, P kv := by
  have hinsert : ∀ m : List (Key × CacheEntry), (∀ kv ∈ m, P kv) →
      ∀ kv ∈ (key, ⟨payload, owners, now⟩) :: m.filter (·.1 ≠ key), P kv := fun m hm =>
    List.forall_mem_cons.mpr ⟨hnew, fun kv hkv => hm kv (List.mem_filter.mp hkv).1⟩
  have hswept : ∀ kv ∈ c.map.filter (fun kv => c.isFresh now kv.2), P kv :=
    fun kv hkv => h kv (List.mem_filter.mp hkv).1
  rw [putKind]
  split
  · simp only
    split
    · exact hswept
    · exact hinsert _ hswept
  · exact hinsert _ h

theorem forall_sweepExpired (h : ∀ kv ∈ c.map, P kv) :
    ∀ kv ∈ (c.sweepExpired now).map, P kv :=
  fun kv hkv => h kv (List.mem_filter.mp hkv).1

end SmartSourcesCache

end Ed2kServer.Sources.SmartSources
