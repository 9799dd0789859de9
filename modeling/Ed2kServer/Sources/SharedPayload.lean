import Ed2kServer.Sources.Records

namespace Ed2kServer.Sources.SharedPayload

open Ed2kServer.Lib.LittleEndian
open Ed2kServer.Slab.Record Ed2kServer.Slab.Sources
open Ed2kServer.Sources.GetSources Ed2kServer.Sources.Records

variable (st : Server)

/-- A connected LowID source, or one with a public address. -/
def publishable (s : Source) : Bool := (sourceId st none s).isSome

/-- The record of a source without IPv6. -/
def classicRecord (obfu : Bool) (s : Source) : List UInt8 :=
  (sourceId st none s).elim [] (encodeSource st obfu none · s)

def owner (s : Source) : UInt64 :=
  ownerKey s.userHash ||| if nattLow st s then OWNER_NATT else 0

def owned (obfu : Bool) (s : Source) : Owned := (owner st s, classicRecord st obfu s)

/-- Can a requester of this reach use the source under a LowID? -/
def reachesLow (s : Source) : Reach → Bool
  | .all => true
  | .natt => nattLow st s
  | .none => false

/-- Can a requester of this reach use the source? Only ids below 2^24 are LowIDs. -/
def reachAllows (reach : Reach) (s : Source) : Bool :=
  (sourceId st none s).any (fun id => 0x01000000 ≤ id) || reachesLow st s reach

def usable (requester : ClientHandle) (s : Source) : Bool :=
  reachAllows st (Reach.of requester) s && s.userHash ≠ requester.userHash

/-- The sources that can be sent to anybody, in the order they are sent. -/
def candidates (sources : List Source) : List Source :=
  (inOrder st sources).filter (publishable st)

/-- What a reply built for one requester alone holds. -/
def personalSources (requester : ClientHandle) (sources : List Source) : List Source :=
  ((candidates st sources).filter (usable st requester)).take MAX_SOURCES_PER_REPLY

def encodeReply (obfu : Bool) (hash : FileHash) (ss : List Source) : List UInt8 :=
  hash.toList ++ [UInt8.ofNat ss.length] ++ ss.flatMap (classicRecord st obfu)

/-- What a reply cut from the shared payload holds. -/
def sharedSources (requester : ClientHandle) (sources : List Source) : List Source :=
  (((candidates st sources).take (MAX_SOURCES_PER_REPLY + 1)).filter (usable st requester)).take
    MAX_SOURCES_PER_REPLY

variable {st} {obfu : Bool}

theorem flatten_map_owned (ss : List Source) :
    flatten (ss.map (owned st obfu)) = ss.flatMap (classicRecord st obfu) := by
  rw [flatten, List.map_map, List.flatMap]
  rfl

theorem isRecord_classic {s : Source} (h : publishable st s = true) :
    IsRecord obfu (classicRecord st obfu s) := by
  obtain ⟨id, hid⟩ := Option.isSome_iff_exists.mp h
  rw [classicRecord, hid, Option.elim_some, encodeSource, IsRecord]
  cases obfu with
  | false => simp
  | true =>
    refine ⟨sourceCrypt st s.userHash, ?_, ?_⟩
    · rw [List.append_assoc, List.append_assoc, List.getElem?_append_right (by simp),
        List.getElem?_append_right (by simp)]
      simp
    · by_cases hc : sourceCrypt st s.userHash &&& 0x80 = 0 <;> simp [hc]

theorem or_and (a b c : UInt64) : (a ||| b) &&& c = a &&& c ||| b &&& c :=
  UInt64.toBitVec_inj.mp BitVec.and_or_distrib_right

theorem owner_key (s : Source) : owner st s &&& ~~~OWNER_NATT = ownerKey s.userHash := by
  rw [owner, ownerKey, or_and, UInt64.and_assoc, UInt64.and_self]
  cases nattLow st s <;> simp

theorem owner_natt (s : Source) : (owner st s &&& OWNER_NATT != 0) = nattLow st s := by
  rw [owner, ownerKey, or_and, UInt64.and_assoc, UInt64.not_and_self]
  cases nattLow st s <;> simp [OWNER_NATT]

/-- The cut tests on the bytes what the requester can use. -/
theorem served_owned {requester : ClientHandle} {s : Source} (h : publishable st s = true)
    (hkey : ownerKey s.userHash = ownerKey requester.userHash →
      s.userHash = requester.userHash) :
    served (ownerKey requester.userHash) (Reach.of requester) (owned st obfu s) =
      usable st requester s := by
  obtain ⟨id, hid⟩ := Option.isSome_iff_exists.mp h
  have hbytes : ofLeBytes ((classicRecord st obfu s).take 4) = id.toNat := by
    rw [classicRecord, hid, Option.elim_some, encodeSource, List.append_assoc, List.append_assoc,
      List.take_left' (length_leBytes 4 _), ofLeBytes_leBytes]
    exact Nat.mod_eq_of_lt id.toNat_lt
  have howner : (owner st s &&& ~~~OWNER_NATT ≠ ownerKey requester.userHash) ↔
      s.userHash ≠ requester.userHash := by
    rw [owner_key]
    exact not_congr ⟨hkey, congrArg ownerKey⟩
  have hlow : (id.toNat < 0x01000000) ↔ ¬ (0x01000000 : UInt32) ≤ id := by
    rw [UInt32.le_iff_toNat_le, Nat.not_le]
    rfl
  have hkeeps : (Reach.of requester).keepsLow (owner st s) =
      reachesLow st s (Reach.of requester) := by
    cases Reach.of requester with
    | all => rfl
    | none => rfl
    | natt => exact owner_natt s
  rw [served, usable, reachAllows, owned, hbytes, hkeeps, hid]
  simp only [howner, hlow, Option.any_some]
  rw [Bool.and_comm]
  by_cases hid : (0x01000000 : UInt32) ≤ id <;> simp [hid]

variable (st) in
theorem buildEntries_classic (obfu : Bool) (requester : ClientHandle) (b : Entries) (ss : List Source)
    (hb : b.emitted.toNat ≤ MAX_SOURCES_PER_REPLY + 1) :
    let kept := (ss.filter (publishable st)).take (MAX_SOURCES_PER_REPLY + 1 - b.emitted.toNat)
    buildEntries st requester obfu false b ss =
      ⟨b.entries ++ kept.flatMap (classicRecord st obfu), b.emitted + UInt8.ofNat kept.length,
        b.owners ++ kept.map (owner st)⟩ := by
  induction ss generalizing b with
  | nil => simp [buildEntries]
  | cons s ss ih =>
    have hv6 : sourceIpv6 st false s = none := rfl
    simp only [buildEntries, hv6, Bool.false_and, Bool.false_eq_true, if_false]
    by_cases hfull : b.emitted.toNat = MAX_SOURCES_PER_REPLY + 1
    · simp [hfull]
    · rw [if_neg hfull]
      cases hid : sourceId st none s with
      | none =>
        rw [List.filter_cons_of_neg (by simp [publishable, hid])]
        exact ih b hb
      | some id =>
        have hpub : publishable st s = true := by rw [publishable, hid, Option.isSome_some]
        have hrecord : encodeSource st obfu none id s = classicRecord st obfu s := by
          rw [classicRecord, hid, Option.elim_some]
        have hnext : (b.emitted + 1).toNat = b.emitted.toNat + 1 := by
          rw [UInt8.toNat_add]
          have hmax : MAX_SOURCES_PER_REPLY = 200 := rfl
          have hone : (1 : UInt8).toNat = 1 := rfl
          omega
        obtain ⟨k, hk⟩ : ∃ k, MAX_SOURCES_PER_REPLY + 1 - b.emitted.toNat = k + 1 :=
          ⟨MAX_SOURCES_PER_REPLY - b.emitted.toNat, by omega⟩
        have hk' : MAX_SOURCES_PER_REPLY + 1 - (b.emitted + 1).toNat = k := by omega
        have hlater := ih ⟨b.entries ++ encodeSource st obfu none id s, b.emitted + 1,
          b.owners ++ [owner st s]⟩ (by simp only; omega)
        simp only [hk'] at hlater
        rw [List.filter_cons_of_pos hpub, hk, List.take_succ_cons]
        refine hlater.trans ?_
        rw [hrecord, List.flatMap_cons, List.map_cons, List.length_cons, List.append_assoc,
          List.append_assoc, List.singleton_append, UInt8.ofNat_add, UInt8.add_assoc,
          UInt8.add_comm 1]
        rfl

variable (st) in
/-- The payload all requesters share, and the owners of its records. -/
def sharedPayload (obfu : Bool) (hash : FileHash) (sources : List Source) :
    List UInt8 × List UInt64 :=
  let kept := (candidates st sources).take (MAX_SOURCES_PER_REPLY + 1)
  (encodeReply st obfu hash kept, kept.map (owner st))

theorem buildPayload_classic {requester : ClientHandle} {req : GetSourcesRequest}
    (hv6 : v6Capable st requester = false) : buildPayload st requester req =
      (recordByHash st.fileSlab req.fileHash).map (fun found =>
        sharedPayload st req.obfu req.fileHash ((sourcesOf found).take SOURCE_SCAN)) := by
  rw [buildPayload, hv6]
  cases recordByHash st.fileSlab req.fileHash with
  | none => rfl
  | some found =>
    have hbuild := buildEntries_classic st req.obfu requester ⟨[], 0, []⟩
      (inOrder st ((sourcesOf found).take SOURCE_SCAN)) (Nat.zero_le _)
    have hzero : (0 : UInt8).toNat = 0 := rfl
    simp only [hzero, Nat.sub_zero, List.nil_append, UInt8.zero_add] at hbuild
    simp [hbuild, sharedPayload, encodeReply, candidates]

variable (st) in
theorem withoutOwner_shared (obfu : Bool) (hash : FileHash) {requester : ClientHandle}
    {sources : List Source}
    (hkeys : ∀ s ∈ sources, ownerKey s.userHash = ownerKey requester.userHash →
      s.userHash = requester.userHash) :
    withoutOwner (sharedPayload st obfu hash sources).1 (sharedPayload st obfu hash sources).2
        (ownerKey requester.userHash) obfu (Reach.of requester) =
      encodeReply st obfu hash (sharedSources st requester sources) := by
  set kept := (candidates st sources).take (MAX_SOURCES_PER_REPLY + 1) with hkept
  have hpub : ∀ s ∈ kept, publishable st s = true := fun s hs =>
    (List.mem_filter.mp (List.mem_of_mem_take hs)).2
  have hmem : ∀ s ∈ kept, s ∈ sources := fun s hs => by
    have hord := (List.mem_filter.mp (List.mem_of_mem_take hs)).1
    rcases List.mem_append.mp hord with hm | hm <;> exact (List.mem_filter.mp hm).1
  have hrecords : ∀ r ∈ kept.map (owned st obfu), IsRecord obfu r.2 := by
    intro r hr
    obtain ⟨s, hs, rfl⟩ := List.mem_map.mp hr
    exact isRecord_classic (hpub s hs)
  have hcut := withoutOwner_flatten (ownerKey requester.userHash) (Reach.of requester)
    (hash.length_toList) (UInt8.ofNat kept.length) hrecords
  have howners : (kept.map (owned st obfu)).map (·.1) = kept.map (owner st) := by
    rw [List.map_map]
    rfl
  have hfilter : (kept.map (owned st obfu)).filter
      (served (ownerKey requester.userHash) (Reach.of requester)) =
        (kept.filter (usable st requester)).map (owned st obfu) := by
    rw [List.filter_map]
    exact congrArg _ (List.filter_congr fun s hs => served_owned (hpub s hs) (hkeys s (hmem s hs)))
  simp only [howners, flatten_map_owned, hfilter, ← List.map_take, List.length_map] at hcut
  exact hcut

end Ed2kServer.Sources.SharedPayload
