import Ed2kServer.Filter.MaxMindDecode

namespace Ed2kServer.Filter.MaxMind

open Ed2kServer.Filter.GeoIp (toU32)
open Ed2kServer.Lib.BitTrie Ed2kServer.Lib.Bytes Ed2kServer.Lib.Metered
open Ed2kServer.Sources.Address
open Ed2kServer.Server.Login (canon)

/-- A node's two records in the layout of a record size. -/
def writeNode (recordSize : Nat) (node : Nat × Nat) : List UInt8 :=
  if recordSize = 24 then beBytes 3 node.1 ++ beBytes 3 node.2
  else if recordSize = 28 then
    beBytes 3 node.1 ++ UInt8.ofNat (node.1 / 256 ^ 3 * 16 + node.2 / 256 ^ 3) :: beBytes 3 node.2
  else beBytes 4 node.1 ++ beBytes 4 node.2

def recordOf (nodes : List (Nat × Nat)) (n : Nat) (right : Bool) : Option Nat :=
  nodes[n]?.map fun node => bif right then node.2 else node.1

/-- A value of the data section, behind the 16 bytes that end the tree. -/
def HoldsAt (data : List UInt8) (off : Nat) (v : Value) : Prop :=
  16 ≤ off ∧ ∃ inline e, EncodedAt data inline v (off - 16) e

/-- A file as its format has it: the tree, 16 zero bytes, the data section, the marker and the
metadata; the numbers bound what the reader decodes. -/
structure Database where
  recordSize : Nat
  ipVersion : Nat
  nodes : List (Nat × Nat)
  data : List UInt8
  metadata : List UInt8
  description : Value
  trie : Trie Value
  recordSize_eq : recordSize = 24 ∨ recordSize = 28 ∨ recordSize = 32
  ipVersion_eq : ipVersion = 4 ∨ ipVersion = 6
  nodes_lt : nodes.length < 2 ^ 32
  record_lt : ∀ node ∈ nodes, node.1 < 2 ^ recordSize ∧ node.2 < 2 ^ recordSize
  tree : Represents (recordOf nodes) nodes.length (HoldsAt data) 0 trie
  small : ∀ n ∈ trie.networks, n.2.size < 1000 ∧ n.2.depth ≤ maxDepth
  encoded : ∃ inline e, EncodedAt metadata inline description 0 e
  described : description.size < 1000 ∧ description.depth ≤ maxDepth
  nodeCount_eq : description.getUint "node_count".toList = some nodes.length
  describedSize : description.getUint "record_size".toList = some recordSize
  describedVersion : description.getUint "ip_version".toList = some ipVersion
  marker_last : rposition metadataMarker (metadataMarker ++ metadata) = some 0
  metadata_le : metadataMarker.length + metadata.length ≤ 128 * 1024
  length_lt : nodes.length * recordSize / 4 + 16 + data.length + metadataMarker.length +
    metadata.length < 2 ^ 63

namespace Database

variable (d : Database)

def treeBytes : List UInt8 := d.nodes.flatMap (writeNode d.recordSize)

def bytes : List UInt8 :=
  d.treeBytes ++ List.replicate 16 0 ++ d.data ++ (metadataMarker ++ d.metadata)

/-- The way to an address in the tree; IPv4 is behind 96 zero bits where there is IPv6. -/
def bits (ip : IpAddr) : Option (List Bool) :=
  match canon ip with
  | .v4 a =>
    some ((if d.ipVersion = 6 then List.replicate 96 false else []) ++ bitsOf 32 (toU32 a).toNat)
  | .v6 a => if d.ipVersion = 6 then some (bitsOf 128 (ofBeBytes a.toList)) else none

end Database

section Nodes

variable {recordSize : Nat} {nodes : List (Nat × Nat)} {rest : List UInt8} {n : Nat}

theorem length_writeNode (hsize : recordSize = 24 ∨ recordSize = 28 ∨ recordSize = 32)
    (node : Nat × Nat) : (writeNode recordSize node).length = recordSize / 4 := by
  obtain rfl | rfl | rfl := hsize
  · simp [writeNode]
  · simp [writeNode]
  · simp [writeNode]

theorem length_nodes (hsize : recordSize = 24 ∨ recordSize = 28 ∨ recordSize = 32)
    (nodes : List (Nat × Nat)) :
    (nodes.flatMap (writeNode recordSize)).length = nodes.length * recordSize / 4 := by
  have hmul : (nodes.flatMap (writeNode recordSize)).length = nodes.length * (recordSize / 4) := by
    induction nodes with
    | nil => simp
    | cons node nodes ih =>
      rw [List.flatMap_cons, List.length_append, ih, length_writeNode hsize, List.length_cons]
      ring
  rw [hmul]
  obtain rfl | rfl | rfl := hsize <;> omega

theorem standsAt_node (rest : List UInt8)
    (hsize : recordSize = 24 ∨ recordSize = 28 ∨ recordSize = 32)
    (hn : n < nodes.length) :
    StandsAt (nodes.flatMap (writeNode recordSize) ++ rest) (writeNode recordSize nodes[n])
      (n * recordSize / 4) := by
  refine ⟨(nodes.take n).flatMap (writeNode recordSize),
    (nodes.drop (n + 1)).flatMap (writeNode recordSize) ++ rest, ?_, ?_⟩
  · have hsplit := congrArg (List.flatMap (writeNode recordSize))
      (List.take_append_drop n nodes).symm
    rw [List.flatMap_append, List.drop_eq_getElem_cons hn, List.flatMap_cons] at hsplit
    rw [hsplit]
    simp only [List.append_assoc]
  · rw [length_nodes hsize, List.length_take, Nat.min_eq_left hn.le]

/-- Two halves of three or four bytes. -/
theorem read_halves (k : Nat) (node : Nat × Nat) (right : Bool)
    (hlt : node.1 < 256 ^ k ∧ node.2 < 256 ^ k) :
    ofBeBytes (((beBytes k node.1 ++ beBytes k node.2).drop (bif right then k else 0)).take k) =
      bif right then node.2 else node.1 := by
  cases right with
  | false =>
    rw [cond_false, cond_false, List.drop_zero, List.take_left' (length_beBytes k _),
      ofBeBytes_beBytes, Nat.mod_eq_of_lt hlt.1]
  | true =>
    rw [cond_true, cond_true, List.drop_left' (length_beBytes k _),
      List.take_of_length_le (length_beBytes k _).le, ofBeBytes_beBytes, Nat.mod_eq_of_lt hlt.2]

/-- The byte in the middle holds the high bits of both. -/
theorem read_shared (node : Nat × Nat) (right : Bool)
    (hlt : node.1 < 2 ^ 28 ∧ node.2 < 2 ^ 28) {bytes : List UInt8}
    (hbytes : bytes = beBytes 3 node.1 ++
      UInt8.ofNat (node.1 / 256 ^ 3 * 16 + node.2 / 256 ^ 3) :: beBytes 3 node.2) :
    (bif right then (bytes.getD 3 0).toNat % 16 * 256 ^ 3 + ofBeBytes ((bytes.drop 4).take 3)
      else (bytes.getD 3 0).toNat / 16 * 256 ^ 3 + ofBeBytes (bytes.take 3)) =
      bif right then node.2 else node.1 := by
  have hmiddle : (bytes.getD 3 0).toNat = node.1 / 256 ^ 3 * 16 + node.2 / 256 ^ 3 := by
    have hget : bytes.getD 3 0 = UInt8.ofNat (node.1 / 256 ^ 3 * 16 + node.2 / 256 ^ 3) := by
      rw [hbytes, List.getD_append_right _ _ _ _ (length_beBytes 3 _).le, length_beBytes]
      rfl
    rw [hget, UInt8.toNat_ofNat']
    omega
  rw [hmiddle]
  cases right with
  | false =>
    rw [cond_false, cond_false, hbytes, List.take_left' (length_beBytes 3 _), ofBeBytes_beBytes]
    omega
  | true =>
    have hdrop : (bytes.drop 4).take 3 = beBytes 3 node.2 := by
      rw [hbytes, List.append_cons, List.drop_left' (by simp),
        List.take_of_length_le (length_beBytes 3 _).le]
    rw [cond_true, cond_true, hdrop, ofBeBytes_beBytes]
    omega

theorem recordAt_eq (hsize : recordSize = 24 ∨ recordSize = 28 ∨ recordSize = 32)
    (hlt : ∀ node ∈ nodes, node.1 < 2 ^ recordSize ∧ node.2 < 2 ^ recordSize)
    (hbuf : (nodes.flatMap (writeNode recordSize) ++ rest).length < 2 ^ 64) (hn : n < nodes.length)
    (right : Bool) :
    recordAt (nodes.flatMap (writeNode recordSize) ++ rest) recordSize n right =
      recordOf nodes n right := by
  have hslice := slice_eq hbuf (standsAt_node rest hsize hn)
  rw [length_writeNode hsize] at hslice
  obtain ⟨hleft, hright⟩ := hlt nodes[n] (List.getElem_mem hn)
  rw [recordAt, hslice, recordOf, List.getElem?_eq_getElem hn, Option.map_some, Option.map_some]
  refine congrArg some ?_
  obtain rfl | rfl | rfl := hsize
  · exact read_halves 3 nodes[n] right ⟨hleft, hright⟩
  · exact read_shared nodes[n] right ⟨hleft, hright⟩ rfl
  · exact read_halves 4 nodes[n] right ⟨hleft, hright⟩

end Nodes

section Opening

theorem rposition_append (pattern : List UInt8) {front rest : List UInt8} {i : Nat}
    (h : rposition pattern rest = some i) :
    rposition pattern (front ++ rest) = some (front.length + i) := by
  induction front with
  | nil => rw [List.nil_append, h, List.length_nil, Nat.zero_add]
  | cons b front ih =>
    rw [List.cons_append, rposition, ih, List.length_cons]
    simp only
    congr 1
    omega

theorem orError_some_bind {α β : Type} (e : OpenError) (a : α) (f : α → Except OpenError β) :
    (orError e (some a) >>= f) = f a := rfl

theorem encodedAt_append {buf more : List UInt8} {inline : Bool} {v : Value} {pos e : Nat}
    (h : EncodedAt buf inline v pos e) : EncodedAt (buf ++ more) inline v pos e := by
  have hmono : ∀ {bytes pos}, StandsAt buf bytes pos → StandsAt (buf ++ more) bytes pos := by
    rintro bytes pos ⟨front, back, rfl, hpos⟩
    exact ⟨front, back ++ more, by simp only [List.append_assoc], hpos⟩
  induction h with
  | scalar hpos hlt hplain hsize hstands => exact .scalar hpos hlt hplain hsize (hmono hstands)
  | bool hstands => exact .bool (hmono hstands)
  | container place inline hcontainer hsize hstands hplace hitems ih =>
    exact .container place inline hcontainer hsize (hmono hstands) hplace ih
  | pointer hfits hstands hinline ih => exact .pointer hfits (hmono hstands) ih

variable (d : Database)

theorem length_front : (d.treeBytes ++ List.replicate 16 0 ++ d.data).length =
    d.nodes.length * d.recordSize / 4 + 16 + d.data.length := by
  rw [List.length_append, List.length_append, Database.treeBytes,
    length_nodes d.recordSize_eq, List.length_replicate]

theorem length_bytes : d.bytes.length = d.nodes.length * d.recordSize / 4 + 16 + d.data.length +
    metadataMarker.length + d.metadata.length := by
  rw [Database.bytes, List.length_append, length_front, List.length_append]
  omega

/-- The marker is found, and the metadata behind it. -/
theorem marker_found :
    (rposition metadataMarker (d.bytes.drop (d.bytes.length - 128 * 1024))).map
        (d.bytes.length - 128 * 1024 + ·) =
      some (d.treeBytes ++ List.replicate 16 0 ++ d.data).length ∧
    d.bytes.drop ((d.treeBytes ++ List.replicate 16 0 ++ d.data).length +
      metadataMarker.length) = d.metadata := by
  have hlen := length_bytes d
  have hfront := length_front d
  have hle := d.metadata_le
  refine ⟨?_, ?_⟩
  · rw [Database.bytes] at hlen ⊢
    rw [List.drop_append_of_le_length (by omega), rposition_append _ d.marker_last,
      Option.map_some, List.length_drop]
    refine congrArg some ?_
    omega
  · rw [Database.bytes, ← List.append_assoc]
    exact List.drop_left' List.length_append

theorem record_tree : Represents (recordAt d.bytes d.recordSize) d.nodes.length (HoldsAt d.data) 0
    d.trie := by
  refine represents_congr (fun n hn bit => ?_) d.tree
  have hlen := length_bytes d
  have hlt := d.length_lt
  rw [Database.bytes, Database.treeBytes, List.append_assoc, List.append_assoc] at hlen ⊢
  exact (recordAt_eq d.recordSize_eq d.record_lt (by omega) hn bit).symm

/-- What the file itself says is what the reader goes by. -/
def OpensAs (db : Mmdb) : Prop :=
  db.buf = d.bytes ∧ db.nodeCount = d.nodes.length ∧ db.recordSize = d.recordSize ∧
    db.ipVersion = d.ipVersion ∧ db.dataStart = d.nodes.length * d.recordSize / 4 + 16 ∧
    (d.ipVersion = 6 →
      ∃ rest, Represents (recordAt d.bytes d.recordSize) d.nodes.length (HoldsAt d.data)
          db.ipv4Start rest ∧
        ∀ more, d.trie.find (List.replicate 96 false ++ more) = rest.find more)

theorem assemble_eq (databaseType : Str) (buildEpoch : Nat) :
    ∃ db, assemble d.bytes (d.treeBytes ++ List.replicate 16 0 ++ d.data).length d.nodes.length
      d.recordSize d.ipVersion databaseType buildEpoch = .ok db ∧ OpensAs d db := by
  have hfront := length_front d
  have hnodes := d.nodes_lt
  rw [assemble, if_neg (not_not.mpr d.recordSize_eq), if_neg (not_not.mpr d.ipVersion_eq),
    if_neg (by omega), if_neg (by omega)]
  by_cases hversion : d.ipVersion = 6
  · obtain ⟨m, rest, hm, hrest, hfind⟩ := descend_represents 0 96 (record_tree d)
    rw [bitsOf_zero] at hfind
    rw [if_pos hversion, hm]
    exact ⟨_, rfl, rfl, rfl, rfl, rfl, rfl, fun _ => ⟨rest, hrest, hfind⟩⟩
  · rw [if_neg hversion]
    exact ⟨_, rfl, rfl, rfl, rfl, rfl, rfl, fun h => absurd h hversion⟩

theorem fromBytes_eq : ∃ db, fromBytes d.bytes = .ok db ∧ OpensAs d db := by
  obtain ⟨hmarker, hmetadata⟩ := marker_found d
  obtain ⟨inline, e, hencoded⟩ := d.encoded
  obtain ⟨hsize, hdepth⟩ := d.described
  have hbuf : d.metadata.length < 2 ^ 64 := by
    have := d.length_lt
    omega
  have huint := gives_mapUint hbuf hencoded hdepth
  obtain ⟨b₁, h₁, hb₁⟩ := huint "node_count".toList decodeBudget (by rw [decodeBudget]; omega)
  rw [decodeBudget] at hb₁
  obtain ⟨b₂, h₂, hb₂⟩ := huint "record_size".toList b₁ (by omega)
  obtain ⟨b₃, h₃, -⟩ := huint "ip_version".toList b₂ (by omega)
  rw [d.nodeCount_eq] at h₁
  rw [d.describedSize] at h₂
  rw [d.describedVersion] at h₃
  rw [fromBytes, hmarker, orError_some_bind, hmetadata]
  dsimp only
  rw [h₁, orError_some_bind, h₂, orError_some_bind, h₃, orError_some_bind]
  exact assemble_eq d _ _

end Opening

section Lookup

variable {d : Database} {db : Mmdb}

/-- Where the walk starts, with the part of the trie below. -/
theorem start_eq (h : OpensAs d db) (ip : IpAddr) :
    (db.start ip = none ∧ d.bits ip = none) ∨
      ∃ low nbits node front rest, db.start ip = some (low, nbits, node) ∧
        d.bits ip = some (front ++ bitsOf nbits low) ∧
        Represents (recordAt d.bytes d.recordSize) d.nodes.length (HoldsAt d.data) node rest ∧
        ∀ more, d.trie.find (front ++ more) = rest.find more := by
  obtain ⟨-, -, -, hversion, -, hipv4⟩ := h
  have hroot : ∀ more, d.trie.find ([] ++ more) = d.trie.find more := fun _ => rfl
  rw [Mmdb.start, Database.bits, hversion]
  cases canon ip with
  | v4 a =>
    by_cases hsix : d.ipVersion = 6
    · obtain ⟨rest, hrest, hfind⟩ := hipv4 hsix
      exact Or.inr ⟨_, _, _, List.replicate 96 false, rest, rfl, by simp only [if_pos hsix],
        by rw [if_pos hsix]; exact hrest, hfind⟩
    · exact Or.inr ⟨_, _, _, [], d.trie, rfl, by simp only [if_neg hsix],
        by rw [if_neg hsix]; exact record_tree d, hroot⟩
  | v6 a =>
    by_cases hsix : d.ipVersion = 6
    · exact Or.inr ⟨_, _, _, [], d.trie, if_pos hsix, if_pos hsix, record_tree d, hroot⟩
    · exact Or.inl ⟨if_neg hsix, if_neg hsix⟩

theorem find_eq (h : OpensAs d db) (ip : IpAddr) :
    (db.find ip = none ∧ (d.bits ip).bind d.trie.find = none) ∨
      ∃ pos v, db.find ip = some pos ∧ (d.bits ip).bind d.trie.find = some v ∧
        HoldsAt d.data (pos + 16) v := by
  rw [Mmdb.find]
  obtain ⟨hstart, hbits⟩ | ⟨low, nbits, node, front, rest, hstart, hbits, hrep, hfind⟩ :=
    start_eq h ip
  · rw [hstart, hbits]
    exact Or.inl ⟨rfl, rfl⟩
  obtain ⟨hbuf, hcount, hsize, -⟩ := h
  have hrecord : db.record = recordAt d.bytes d.recordSize := by
    funext n right
    rw [Mmdb.record, hbuf, hsize]
  obtain ⟨m, below, hm, hbelow, hdown⟩ := descend_represents low nbits hrep
  have hwhole : (d.bits ip).bind d.trie.find = below.find [] := by
    rw [hbits, Option.bind_some, hfind, ← hdown [], List.append_nil]
  rw [hwhole, hstart, hrecord, hcount]
  simp only [Option.bind_eq_bind, Option.bind_some, hm]
  obtain ⟨hle, hnone⟩ | ⟨off, v, hoff, rfl, hholds, hsome⟩ := find_of_represents hbelow
  · exact Or.inl ⟨if_pos hle, hnone⟩
  · have hback : d.nodes.length + off - d.nodes.length = off := Nat.add_sub_cancel_left _ _
    have hsixteen : off - 16 + 16 = off := Nat.sub_add_cancel hholds.1
    refine Or.inr ⟨off - 16, v, ?_, hsome, by rwa [hsixteen]⟩
    rw [if_neg (by omega), hback, if_neg (Nat.not_lt.mpr hholds.1)]

theorem lookup_eq (h : OpensAs d db) (ip : IpAddr) :
    db.lookup ip = ((d.bits ip).bind d.trie.find).map Value.geo := by
  rw [Mmdb.lookup]
  obtain ⟨hfind, hnone⟩ | ⟨pos, v, hfind, hsome, -, inline, e, hencoded⟩ := find_eq h ip
  · rw [hfind, hnone]
    rfl
  rw [hfind, hsome, Option.bind_some, Option.map_some]
  obtain ⟨hbuf, -, -, -, hstart, -⟩ := h
  have hdata : db.buf.drop db.dataStart = d.data ++ (metadataMarker ++ d.metadata) := by
    rw [hbuf, hstart, Database.bytes, List.append_assoc]
    refine List.drop_left' ?_
    rw [List.length_append, Database.treeBytes, length_nodes d.recordSize_eq,
      List.length_replicate]
  have hlt : (d.data ++ (metadataMarker ++ d.metadata)).length < 2 ^ 64 := by
    have := d.length_lt
    rw [List.length_append, List.length_append]
    omega
  obtain ⟨bits, -, hbits⟩ := Option.bind_eq_some_iff.mp hsome
  obtain ⟨p, hmem, -⟩ := Trie.find_eq_some_iff.mp hbits
  obtain ⟨hsize, hdepth⟩ := d.small (p, v) hmem
  simp only at hsize hdepth
  rw [Nat.add_sub_cancel] at hencoded
  obtain ⟨left, hleft, -⟩ := gives_geoRecord hlt (encodedAt_append hencoded) hdepth decodeBudget
    (by rw [decodeBudget]; omega)
  rw [hdata, hleft]

/-- An address is found if and only if it lies in a network of the tree. -/
theorem lookup_iff (h : OpensAs d db) (ip : IpAddr) (r : GeoRecord) : db.lookup ip = some r ↔
    ∃ bits p v, d.bits ip = some bits ∧ (p, v) ∈ d.trie.networks ∧ p <+: bits ∧ r = v.geo := by
  rw [lookup_eq h, Option.map_eq_some_iff]
  constructor
  · rintro ⟨v, hv, rfl⟩
    obtain ⟨bits, hbits, hfind⟩ := Option.bind_eq_some_iff.mp hv
    obtain ⟨p, hp, hprefix⟩ := Trie.find_eq_some_iff.mp hfind
    exact ⟨bits, p, v, hbits, hp, hprefix, rfl⟩
  · rintro ⟨bits, p, v, hbits, hp, hprefix, rfl⟩
    refine ⟨v, ?_, rfl⟩
    rw [hbits, Option.bind_some]
    exact Trie.find_eq_some_iff.mpr ⟨p, hp, hprefix⟩

end Lookup

/-- A country code for the lower half of the IPv4 addresses. -/
def halfRecord : Value := .map [("country_code".toList, .text "it".toList)]

def halfDescription : Value :=
  .map [("node_count".toList, .scalar tU32 [1]), ("record_size".toList, .scalar tU16 [24]),
    ("ip_version".toList, .scalar tU16 [4])]

/-- A map's control bytes with its texts and numbers behind them. -/
def writeFlat (count : Nat) (scalars : List (Nat × List UInt8)) : List UInt8 :=
  control tMap count ++ scalars.flatMap fun s => control s.1 s.2.length ++ s.2

def halfData : List UInt8 :=
  writeFlat 1 [(tString, utf8 "country_code".toList), (tString, utf8 "it".toList)]

def halfMetadata : List UInt8 :=
  writeFlat 3 [(tString, utf8 "node_count".toList), (tU32, [1]),
    (tString, utf8 "record_size".toList), (tU16, [24]), (tString, utf8 "ip_version".toList),
    (tU16, [4])]

theorem encodedAt_scalar {buf payload : List UInt8} {typ pos : Nat}
    (h : (0 < typ ∧ typ < 256 ∧ typ ∉ [tPointer, tMap, tArray, tBool]) ∧
      payload.length < sizeLimit ∧ pos ≤ buf.length ∧
      (control typ payload.length ++ payload) <+: buf.drop pos) :
    EncodedAt buf true (.scalar typ payload) pos
      (pos + (control typ payload.length ++ payload).length) := by
  obtain ⟨⟨hpos, hlt, hplain⟩, hsize, hle, back, hback⟩ := h
  refine .scalar hpos hlt hplain hsize ⟨buf.take pos, back, ?_, List.length_take_of_le hle⟩
  rw [List.append_assoc, hback, List.take_append_drop]

theorem encoded_halfRecord : EncodedAt halfData true halfRecord 0 17 := by
  refine .container (fun i => [1, 14, 17].getD i 0) (fun _ => true) rfl (by decide)
    ⟨[], _, rfl, rfl⟩ rfl fun i hi => ?_
  obtain rfl | rfl : i = 0 ∨ i = 1 := by
    change i < 2 at hi
    omega
  · exact encodedAt_scalar (by decide)
  · exact encodedAt_scalar (by decide)

theorem encoded_halfDescription : EncodedAt halfMetadata true halfDescription 0 41 := by
  refine .container (fun i => [1, 12, 14, 26, 28, 39, 41].getD i 0) (fun _ => true) rfl
    (by decide) ⟨[], _, rfl, rfl⟩ rfl fun i hi => ?_
  obtain rfl | rfl | rfl | rfl | rfl | rfl : i = 0 ∨ i = 1 ∨ i = 2 ∨ i = 3 ∨ i = 4 ∨ i = 5 := by
    change i < 6 at hi
    omega
  all_goals exact encodedAt_scalar (by decide)

def half : Database where
  recordSize := 24
  ipVersion := 4
  nodes := [(17, 1)]
  data := halfData
  metadata := halfMetadata
  description := halfDescription
  trie := .node (.leaf halfRecord) .empty
  recordSize_eq := by decide
  ipVersion_eq := by decide
  nodes_lt := by decide
  record_lt := by decide
  tree := .node (fun bit => bif bit then 1 else 17) (by decide)
    (fun bit => by cases bit <;> rfl)
    (.leaf 16 (by decide) ⟨le_refl _, true, 17, encoded_halfRecord⟩) .empty
  small := by
    intro n hn
    obtain rfl := List.mem_singleton.mp hn
    decide
  encoded := ⟨true, 41, encoded_halfDescription⟩
  described := by decide
  nodeCount_eq := by decide
  describedSize := by decide
  describedVersion := by decide
  marker_last := by decide
  metadata_le := by decide
  length_lt := by decide

end Ed2kServer.Filter.MaxMind
