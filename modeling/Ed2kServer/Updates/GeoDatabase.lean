import Ed2kServer.Filter.MaxMindFile
import Ed2kServer.Text.IpAddress
import Ed2kServer.Updates.Validate

namespace Ed2kServer.Updates.GeoDatabase

open Ed2kServer.Slab.Record Ed2kServer.Sources.Address Ed2kServer.Text.IpAddress
open Ed2kServer.Filter.MaxMind Ed2kServer.Updates.Validate

/-- The well-known addresses, of which one must have a country. -/
def probes : List Str :=
  ["8.8.8.8".toList, "1.1.1.1".toList, "82.48.45.246".toList, "2001:4860:4860::8888".toList]

example : ∀ probe ∈ probes, (parseIpAddr probe).isSome = true := by decide

def resolves (db : Mmdb) (probe : Str) : Bool :=
  ((parseIpAddr probe).bind db.lookup).any (·.countryCode.isSome)

/-- The reader of databases that `validate` uses. -/
def readMmdb (bytes : List UInt8) : Except Str (Nat × Bool) :=
  ((fromBytes bytes).mapError OpenError.message).map fun db =>
    (db.nodeCount, probes.any (resolves db))

/-- The tree knows a country for the address. -/
def Knows (d : Database) (ip : IpAddr) : Prop :=
  ∃ bits p v, d.bits ip = some bits ∧ (p, v) ∈ d.trie.networks ∧ p <+: bits ∧
    v.geo.countryCode.isSome = true

variable {d : Database} {db : Mmdb} {probe : Str}

theorem resolves_iff (h : OpensAs d db) :
    resolves db probe = true ↔ ∃ ip, parseIpAddr probe = some ip ∧ Knows d ip := by
  rw [resolves, Option.any_eq_true]
  constructor
  · rintro ⟨r, hr, hcode⟩
    obtain ⟨ip, hip, hlookup⟩ := Option.bind_eq_some_iff.mp hr
    obtain ⟨bits, p, v, hbits, hmem, hprefix, rfl⟩ := (lookup_iff h ip r).mp hlookup
    exact ⟨ip, hip, bits, p, v, hbits, hmem, hprefix, hcode⟩
  · rintro ⟨ip, hip, bits, p, v, hbits, hmem, hprefix, hcode⟩
    refine ⟨v.geo, ?_, hcode⟩
    rw [hip, Option.bind_some]
    exact (lookup_iff h ip v.geo).mpr ⟨bits, p, v, hbits, hmem, hprefix, rfl⟩

theorem readMmdb_ok {bytes : List UInt8} (h : fromBytes bytes = .ok db) :
    readMmdb bytes = .ok (db.nodeCount, probes.any (resolves db)) := by
  rw [readMmdb, h]
  rfl

theorem validate_mmdb (layer2 : Str → Except Str Nat) (mmdb : List UInt8 → Except Str (Nat × Bool))
    {bytes : List UInt8} {nodes n : Nat} {known : Bool} (h : mmdb bytes = .ok (nodes, known)) :
    validate ⟨layer2, mmdb⟩ .geoipMmdb bytes = .ok n ↔ n = nodes ∧ known = true := by
  rw [validate, if_pos rfl]
  simp only [h]
  cases known with
  | false => simp
  | true => simp [eq_comm]

/-- A database that keeps to its format is taken, with its nodes for the number of entries, exactly
when its tree knows a country for one of the well-known addresses. -/
theorem validate_database (layer2 : Str → Except Str Nat) (d : Database) (n : Nat) :
    validate ⟨layer2, readMmdb⟩ .geoipMmdb d.bytes = .ok n ↔
      n = d.nodes.length ∧ ∃ probe ∈ probes, ∃ ip, parseIpAddr probe = some ip ∧ Knows d ip := by
  obtain ⟨db, hopen, hdb⟩ := fromBytes_eq d
  have hcount : db.nodeCount = d.nodes.length := hdb.2.1
  have hany : probes.any (resolves db) = true ↔
      ∃ probe ∈ probes, ∃ ip, parseIpAddr probe = some ip ∧ Knows d ip := by
    rw [List.any_eq_true]
    exact exists_congr fun probe => and_congr_right fun _ => resolves_iff hdb
  have hread := readMmdb_ok hopen
  rw [validate_mmdb layer2 readMmdb hread, hcount, hany]

end Ed2kServer.Updates.GeoDatabase
