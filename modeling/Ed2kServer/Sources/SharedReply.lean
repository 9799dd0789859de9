import Ed2kServer.Lib.Transition
import Ed2kServer.Sources.SharedPayload

namespace Ed2kServer.Sources.SharedReply

open Ed2kServer.Lib.LittleEndian Ed2kServer.Lib.Transition
open Ed2kServer.Slab.Record Ed2kServer.Slab.Store Ed2kServer.Slab.StoreSpec
open Ed2kServer.Slab.Sources Ed2kServer.Sources.SmartSources
open Ed2kServer.Sources.GetSources Ed2kServer.Sources.SharedPayload

section Cut

variable {α : Type} {p : α → Bool}

theorem filter_take_append (l : List α) (m : Nat) :
    l.filter p = (l.take m).filter p ++ (l.drop m).filter p := by
  rw [← List.filter_append, List.take_append_drop]

/-- A cut before filtering shows unless enough is left before it or nothing comes after. -/
theorem length_cut_iff (l : List α) (m n : Nat) :
    (((l.take m).filter p).take n).length = ((l.filter p).take n).length ↔
      n ≤ (l.take m).countP p ∨ ∀ a ∈ l.drop m, p a = false := by
  have hnil : (∀ a ∈ l.drop m, p a = false) ↔ ((l.drop m).filter p).length = 0 := by
    rw [List.length_eq_zero_iff, List.filter_eq_nil_iff]
    simp
  rw [hnil, filter_take_append l m, List.length_take, List.length_take, List.length_append,
    List.countP_eq_length_filter]
  omega

theorem cut_eq {l : List α} {m n : Nat}
    (h : n ≤ (l.take m).countP p ∨ ∀ a ∈ l.drop m, p a = false) :
    ((l.take m).filter p).take n = (l.filter p).take n := by
  rw [filter_take_append l m]
  rcases h with h | h
  · rw [List.countP_eq_length_filter] at h
    rw [List.take_append_of_le_length h]
  · have hnil : (l.drop m).filter p = [] := List.filter_eq_nil_iff.mpr (by simpa using h)
    rw [hnil, List.append_nil]

end Cut

variable (st : Server)

/-- Among the first 201 sources there are 200 for the requester, or none comes after them. -/
def Fits (requester : ClientHandle) (sources : List Source) : Prop :=
  MAX_SOURCES_PER_REPLY ≤
      ((candidates st sources).take (MAX_SOURCES_PER_REPLY + 1)).countP (usable st requester) ∨
    ∀ s ∈ (candidates st sources).drop (MAX_SOURCES_PER_REPLY + 1), usable st requester s = false

/-- The reply built for one requester alone. -/
def personalReply (requester : ClientHandle) (req : GetSourcesRequest)
    (found : Option FileRecord) : Frame :=
  ⟨replyOpcode req.obfu,
    if refused st req = some true then encodeEmptySources req.fileHash
    else encodeReply st req.obfu req.fileHash (personalSources st requester (sourcesOf found))⟩

inductive Event
  | request (now : Instant) (requester : ClientHandle) (req : GetSourcesRequest)
  | sweep (now : Instant)

def step (c : SmartSourcesCache) : Event → Option SmartSourcesCache
  | .request now requester req => (handleGetSources st now c requester req).map (·.2)
  | .sweep now => some (c.sweepExpired now)

/-- An entry is the payload that would be built now. -/
def EntrySound (kv : Key × CacheEntry) : Prop :=
  ∃ found, recordByHash st.fileSlab kv.1.1 = some found ∧
    let shared := sharedPayload st kv.1.2 kv.1.1 ((sourcesOf found).take SOURCE_SCAN)
    kv.2.payload = shared.1 ∧ kv.2.owners = shared.2

variable {st} {obfu : Bool}

theorem encodeReply_eq_iff {hash : FileHash} {requester : ClientHandle} {sources : List Source} :
    encodeReply st obfu hash (sharedSources st requester sources) =
        encodeReply st obfu hash (personalSources st requester sources) ↔
      Fits st requester sources := by
  constructor
  · intro h
    refine (length_cut_iff _ _ _).mp ?_
    rw [encodeReply, encodeReply, List.append_assoc, List.append_assoc] at h
    have hcount := (List.cons.inj (List.append_cancel_left h)).1
    have hbyte : ∀ {n : Nat}, n ≤ MAX_SOURCES_PER_REPLY → (UInt8.ofNat n).toNat = n := by
      intro n hn
      have hmax : MAX_SOURCES_PER_REPLY = 200 := rfl
      rw [UInt8.toNat_ofNat']
      omega
    have hnat := congrArg UInt8.toNat hcount
    rwa [sharedSources, personalSources, hbyte (List.length_take_le _ _),
      hbyte (List.length_take_le _ _)] at hnat
  · intro h
    have hsame : sharedSources st requester sources = personalSources st requester sources :=
      cut_eq h
    rw [hsame]

/-- A HighID requester loses at most its own record to the cut. -/
theorem fits_of_highId {requester : ClientHandle} {sources : List Source}
    (hhigh : requester.isHighId = true) (hnodup : (sources.map (·.userHash)).Nodup) :
    Fits st requester sources := by
  have huse : ∀ s, usable st requester s = decide (s.userHash ≠ requester.userHash) := by
    intro s
    simp [usable, reachAllows, Reach.of, hhigh, reachesLow]
  have hperm : (inOrder st sources).Perm sources :=
    List.perm_append_comm.trans (List.filter_append_perm _ _)
  have hcand : ((candidates st sources).map (·.userHash)).Nodup :=
    ((hperm.map _).nodup_iff.mpr hnodup).sublist (List.filter_sublist.map _)
  set first := (candidates st sources).take (MAX_SOURCES_PER_REPLY + 1) with hfirst
  have hown : first.countP (fun s => ¬ usable st requester s = true) ≤ 1 := by
    have hone := List.nodup_iff_count_le_one.mp (hcand.sublist ((List.take_sublist
      (MAX_SOURCES_PER_REPLY + 1) _).map _)) requester.userHash
    rw [← hfirst, List.count, List.countP_map] at hone
    refine le_trans (le_of_eq (List.countP_congr fun s _ => ?_)) hone
    simp [huse]
  have hsplit := List.length_eq_countP_add_countP (usable st requester) (l := first)
  by_cases hlen : (candidates st sources).length ≤ MAX_SOURCES_PER_REPLY + 1
  · right
    rw [List.drop_eq_nil_of_le hlen]
    exact List.forall_mem_nil _
  · left
    have hfull : first.length = MAX_SOURCES_PER_REPLY + 1 := by
      rw [hfirst, List.length_take]
      omega
    rw [← hfirst]
    omega

theorem refused_total {req : GetSourcesRequest} {found : Option FileRecord}
    (h : recordByHash st.fileSlab req.fileHash = some found) : ∃ b, refused st req = some b := by
  rw [refused, h]
  by_cases hw : st.isWithheldOpt req.fileHash (found.map (·.name)) = true
  · exact ⟨true, by simp [hw]⟩
  · rw [sizeMismatch]
    cases req.size.filter (· ≠ 0) with
    | none => exact ⟨false, by simp [hw]⟩
    | some want => exact ⟨!sizesAgree (found.elim 0 (·.size)) want, by simp [hw, h]⟩

/-- From the cache or built afresh, the reply is cut from the same payload. -/
theorem handleGetSources_reply (now : Instant) {c : SmartSourcesCache} {requester : ClientHandle}
    {req : GetSourcesRequest} {found : Option FileRecord} (hc : ∀ kv ∈ c.map, EntrySound st kv)
    (hfound : recordByHash st.fileSlab req.fileHash = some found)
    (hkeys : ∀ s ∈ sourcesOf found, ownerKey s.userHash = ownerKey requester.userHash →
      s.userHash = requester.userHash)
    (hv6 : v6Capable st requester = false) :
    ∃ c', handleGetSources st now c requester req = some (⟨replyOpcode req.obfu,
      if refused st req = some true then encodeEmptySources req.fileHash
      else encodeReply st req.obfu req.fileHash
        (sharedSources st requester ((sourcesOf found).take SOURCE_SCAN))⟩, c') := by
  obtain ⟨b, hb⟩ := refused_total hfound
  rw [handleGetSources, hb]
  cases b with
  | true => exact ⟨c, rfl⟩
  | false =>
    have hcut := withoutOwner_shared st req.obfu req.fileHash
      (fun s hs => hkeys s (List.mem_of_mem_take (i := SOURCE_SCAN) hs))
    simp only [Option.bind_eq_bind, Option.bind_some, Bool.false_eq_true, if_false, hv6,
      Option.some.injEq]
    cases hget : (c.setTtlSecs st.getsourcesCacheSecs).getKind now (req.fileHash, req.obfu) with
    | some e =>
      have hmem := SmartSourcesCache.mem_of_getKind hget
      rw [SmartSourcesCache.map_setTtlSecs] at hmem
      obtain ⟨found', hfound', hpay, hown⟩ := hc _ hmem
      obtain rfl : found = found' := Option.some.inj (hfound.symm.trans hfound')
      simp only at hpay hown
      rw [← hcut, ← hpay, ← hown]
      exact ⟨_, rfl⟩
    | none =>
      rw [buildPayload_classic hv6, hfound, ← hcut]
      exact ⟨_, rfl⟩

theorem handleGetSources_sound {now : Instant} {c c' : SmartSourcesCache}
    {requester : ClientHandle} {req : GetSourcesRequest} {reply : Frame}
    (hc : ∀ kv ∈ c.map, EntrySound st kv)
    (h : handleGetSources st now c requester req = some (reply, c')) :
    ∀ kv ∈ c'.map, EntrySound st kv := by
  rw [handleGetSources] at h
  cases hb : refused st req with
  | none => simp [hb] at h
  | some b =>
    cases b with
    | true =>
      obtain ⟨-, rfl⟩ : _ ∧ c = c' := by simpa [hb] using h
      exact hc
    | false =>
      simp only [hb, Option.bind_eq_bind, Option.bind_some, Bool.false_eq_true, if_false] at h
      cases hv6 : v6Capable st requester with
      | true =>
        rw [hv6, if_pos rfl] at h
        obtain ⟨p, -, hp⟩ := Option.bind_eq_some_iff.mp h
        obtain ⟨-, rfl⟩ : _ ∧ c.setTtlSecs st.getsourcesCacheSecs = c' := by simpa using hp
        exact hc
      | false =>
        rw [hv6, if_neg Bool.false_ne_true] at h
        cases hget : (c.setTtlSecs st.getsourcesCacheSecs).getKind now
            (req.fileHash, req.obfu) with
        | some e =>
          rw [hget] at h
          obtain ⟨-, rfl⟩ : _ ∧ c.setTtlSecs st.getsourcesCacheSecs = c' := by simpa using h
          exact hc
        | none =>
          rw [hget, buildPayload_classic hv6] at h
          obtain ⟨p, hp, hput⟩ := Option.bind_eq_some_iff.mp h
          obtain ⟨found, hfound, rfl⟩ := Option.map_eq_some_iff.mp hp
          obtain ⟨-, rfl⟩ : _ ∧ (c.setTtlSecs st.getsourcesCacheSecs).putKind now
            (req.fileHash, req.obfu) _ _ = c' := by simpa using hput
          exact SmartSourcesCache.forall_putKind hc ⟨found, hfound, rfl, rfl⟩

theorem step_sound {c c' : SmartSourcesCache} {e : Event} (hc : ∀ kv ∈ c.map, EntrySound st kv)
    (h : step st c e = some c') : ∀ kv ∈ c'.map, EntrySound st kv := by
  cases e with
  | request now requester req =>
    obtain ⟨⟨reply, c''⟩, hrun, rfl⟩ := Option.map_eq_some_iff.mp h
    exact handleGetSources_sound hc hrun
  | sweep now =>
    cases h
    exact SmartSourcesCache.forall_sweepExpired hc

/-- After any requests, a reply without IPv6 is the personal one exactly when the request is
refused or the first 201 sources serve the requester in full. -/
theorem reply_personal_iff {es : List Event} {c : SmartSourcesCache}
    (hrun : exec (step st) .new es = some c) (now : Instant) {requester : ClientHandle}
    {req : GetSourcesRequest} {found : Option FileRecord}
    (hfound : recordByHash st.fileSlab req.fileHash = some found)
    (hscan : (sourcesOf found).length ≤ SOURCE_SCAN)
    (hkeys : ∀ s ∈ sourcesOf found, ownerKey s.userHash = ownerKey requester.userHash →
      s.userHash = requester.userHash)
    (hclassic : v6Capable st requester = false) :
    ∃ reply c', handleGetSources st now c requester req = some (reply, c') ∧
      (reply = personalReply st requester req found ↔
        refused st req = some true ∨ Fits st requester (sourcesOf found)) := by
  have hc := exec_invariant (fun _ _ _ hs h => step_sound hs h)
    (List.forall_mem_nil (EntrySound st)) hrun
  obtain ⟨c', hreply⟩ := handleGetSources_reply now hc hfound hkeys hclassic
  refine ⟨_, c', hreply, ?_⟩
  rw [personalReply, Frame.mk.injEq, List.take_of_length_le hscan]
  by_cases hr : refused st req = some true
  · simp [hr]
  · simp [hr, encodeReply_eq_iff]

/-- The users of a crowded file are numbered; the last one has NAT traversal, and none is HighID. -/
def crowdedUser (i : Nat) : UserHash :=
  #v[0, UInt8.ofNat (i % 256), UInt8.ofNat (i / 256), 0, 0, 0, 0, 0, 0, 0, 0, 0, 0, 0, 0, 0]

def crowdedFile : FileRecord :=
  .new (.replicate 16 0) 700 [] ((List.range 202).map (fun i => ⟨crowdedUser i, 0, 4662, true⟩))

def lowClient (i : Nat) (natt : Bool) : ClientHandle :=
  ⟨crowdedUser i, UInt32.ofNat i + 1, natt, 0, false, false⟩

def crowdedServer : Server where
  fileSlab := ((FileSlab.new SLOT_QUARANTINE_SECS).searchOrInsert 0 crowdedFile).elim
    (.new SLOT_QUARANTINE_SECS) (·.1)
  clients := fun h => some (lowClient ((h.get 1).toNat + 256 * (h.get 2).toNat)
    (201 ≤ (h.get 1).toNat + 256 * (h.get 2).toNat))
  clientIpv6 := fun _ => none
  isWithheldOpt := fun _ _ => false
  ipv6PublishSources := true
  getsourcesCacheSecs := DEFAULT_TTL_SECS

def crowdedRequest : GetSourcesRequest := ⟨crowdedFile.hash, none, false⟩

theorem crowded_found :
    recordByHash crowdedServer.fileSlab crowdedRequest.fileHash = some (some crowdedFile) := by
  obtain ⟨s, id, hrun, hs, hs'⟩ :=
    new_searchOrInsert SLOT_QUARANTINE_SECS 0 (r := crowdedFile) rfl
  have hget : s.get id = some crowdedFile := by rw [hs', Function.update_self]
  have hslab : crowdedServer.fileSlab = s := by simp [crowdedServer, hrun]
  obtain ⟨o, ho, hspec⟩ := recordByHash_spec hs crowdedFile.hash
  rw [hslab, crowdedRequest, ho, (hspec crowdedFile).mpr ⟨id, hget, rfl⟩]

theorem crowded_keys :
    ((crowdedFile.sources.map (·.userHash) ++ [crowdedUser 300]).map ownerKey).Nodup :=
  have hrising : List.IsChain (· < ·) (((crowdedFile.sources.map (·.userHash) ++
      [crowdedUser 300]).map ownerKey).map UInt64.toNat) := by decide +kernel
  List.Nodup.of_map UInt64.toNat ((List.isChain_iff_pairwise.mp hrising).imp Nat.ne_of_lt)

theorem crowded_keys_requester : ∀ s ∈ crowdedFile.sources,
    ownerKey s.userHash = ownerKey (crowdedUser 300) → s.userHash = crowdedUser 300 := by
  decide +kernel

theorem crowded_personal_iff :
    ∃ reply c', handleGetSources crowdedServer 0 .new (lowClient 300 false) crowdedRequest =
        some (reply, c') ∧
      (reply = personalReply crowdedServer (lowClient 300 false) crowdedRequest (some crowdedFile) ↔
        refused crowdedServer crowdedRequest = some true ∨
          Fits crowdedServer (lowClient 300 false) (sourcesOf (some crowdedFile))) :=
  reply_personal_iff (exec_nil _ _) 0 crowded_found (by decide +kernel)
    crowded_keys_requester rfl

/-- The stock LowID sources in front hide the one source that a NAT-T requester can use. -/
theorem stock_sources_hide_natt :
    recordByHash crowdedServer.fileSlab crowdedRequest.fileHash = some (some crowdedFile) ∧
      ((crowdedFile.sources.map (·.userHash) ++ [(lowClient 300 true).userHash]).map
        ownerKey).Nodup ∧
      (handleGetSources crowdedServer 0 .new (lowClient 300 true) crowdedRequest).map (·.1) =
        some ⟨OP_FOUNDSOURCES, encodeEmptySources crowdedFile.hash⟩ ∧
      (personalReply crowdedServer (lowClient 300 true) crowdedRequest (some crowdedFile)).payload =
        crowdedFile.hash.toList ++ [1] ++ leBytes 4 202 ++ leBytes 2 4662 := by
  have hrefused : refused crowdedServer crowdedRequest = some false := by
    rw [refused, crowded_found]
    rfl
  have hshared : sharedSources crowdedServer (lowClient 300 true) crowdedFile.sources = [] := by
    decide
  have hpersonal : personalSources crowdedServer (lowClient 300 true) crowdedFile.sources =
      [⟨crowdedUser 201, 0, 4662, true⟩] := by
    decide
  have hempty : ∀ kv ∈ SmartSourcesCache.new.map, EntrySound crowdedServer kv :=
    List.forall_mem_nil _
  obtain ⟨c', hreply⟩ : ∃ c', handleGetSources crowdedServer 0 .new (lowClient 300 true)
      crowdedRequest = some (_, c') :=
    handleGetSources_reply 0 hempty crowded_found crowded_keys_requester rfl
  have htake : (sourcesOf (some crowdedFile)).take SOURCE_SCAN = crowdedFile.sources :=
    List.take_of_length_le (by decide +kernel)
  rw [htake, hrefused, hshared] at hreply
  refine ⟨crowded_found, crowded_keys, ?_, ?_⟩
  · rw [hreply]
    rfl
  · rw [personalReply, hrefused, if_neg (by decide)]
    simp only [sourcesOf, Option.elim_some, hpersonal]
    decide

end Ed2kServer.Sources.SharedReply
