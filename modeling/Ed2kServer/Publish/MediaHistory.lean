import Ed2kServer.Publish.RefusedOffer
import Ed2kServer.Slab.CodecIndex
import Ed2kServer.Slab.HashIndex
import Ed2kServer.Slab.MediaSlots

namespace Ed2kServer.Publish.MediaHistory

open Ed2kServer.Text.Chars Ed2kServer.Lib.Transition Ed2kServer.Slab
open Ed2kServer.Slab.Record Ed2kServer.Slab.Shard Ed2kServer.Slab.ShardSpec
open Ed2kServer.Slab.Store Ed2kServer.Slab.StoreSpec Ed2kServer.Slab.Sources
open Ed2kServer.Slab.MediaFields Ed2kServer.Slab.Codecs Ed2kServer.Slab.CodecIndex
open Ed2kServer.Slab.MediaSlots
open Ed2kServer.Publish.Files Ed2kServer.Publish.OfferFiles Ed2kServer.Publish.RefusedOffer

/-- The media fields of one offer, 0 for those it does not give. -/
structure Offer where
  length : UInt32
  bitrate : UInt32
  codec : UInt8

def Offer.toMedia (o : Offer) : Media := Media.new o.length o.bitrate o.codec

structure State where
  slab : FileSlab
  codecs : CodecMaps
  /-- What the file of a hash was offered with since its record was created, the latest last. -/
  offered : FileHash → List Offer

def State.new (quarantineSecs : UInt32) : State := ⟨.new quarantineSecs, .empty, fun _ => []⟩

inductive Event
  | call (e : HashIndex.Event)
  | source (hash : FileHash) (size : UInt64) (src : Source) (publishedAs : Str)
  | leave (id : FileId) (userHash : UserHash)
  /-- With the codec string as the client wrote it. -/
  | offer (hash : FileHash) (length bitrate : Option UInt32) (codec : Option Str)

/-- The hash a call makes a record for when there is none. -/
def insertedHash : HashIndex.Event → Option FileHash
  | .getOrInsert _ hash _ _ _ | .insertSourceless _ hash _ _ => some hash
  | .tombstone _ _ | .tombstoneIfSourceless _ _ => none

/-- A new record has been offered with nothing. -/
def offeredAfter (s : State) (e : HashIndex.Event) : FileHash → List Offer :=
  match insertedHash e with
  | some hash =>
    if s.slab.idOf hash = some none then Function.update s.offered hash [] else s.offered
  | none => s.offered

def toOffer (codecs : CodecMaps) (m : MediaTags) : CodecMaps × Offer :=
  match m.codec with
  | some name =>
    let (codecs, codec) := codecs.intern name
    (codecs, ⟨m.length.getD 0, m.bitrate.getD 0, codec⟩)
  | none => (codecs, ⟨m.length.getD 0, m.bitrate.getD 0, 0⟩)

variable (U : Unicode)

/-- `none` is a panic or a walk that does not end. -/
def step (s : State) : Event → Option State
  | .call e => do
    let slab ← HashIndex.step s.slab e
    return { s with slab := slab, offered := offeredAfter s e }
  | .source hash size src publishedAs => do
    let (slab, _) ← addOrRefreshSourceSized s.slab hash size src publishedAs
    return { s with slab := slab }
  | .leave id userHash => some { s with slab := (removeUserSource s.slab id userHash).1 }
  | .offer hash length bitrate codec =>
    let media : MediaTags := ⟨length, bitrate, codec.bind (normalise U)⟩
    if media.any then do
      let (codecs, o) := toOffer s.codecs media
      let slab ← mergeMedia s.slab hash o.toMedia
      return ⟨slab, codecs, Function.update s.offered hash (s.offered hash ++ [o])⟩
    else some s

def HasRoom (s : State) : Event → Prop
  | .call e => HashIndex.HasRoom s.slab e
  | .source _ _ _ _ | .leave _ _ | .offer _ _ _ _ => True

def saturated (most x : UInt32) : UInt32 := if x ≤ most then x else most

/-- The first value that is not 0. -/
def first {α : Type} [DecidableEq α] [OfNat α 0] (values : List α) : α :=
  (values.find? (· ≠ 0)).getD 0

/-- Each field is the first one offered, none above the most it can hold. -/
structure Holds (m : Media) (offers : List Offer) : Prop where
  length : length m = first (offers.map fun o => saturated LEN_MAX.toUInt32 o.length)
  bitrate : bitrate m = first (offers.map fun o => saturated RATE_MAX.toUInt32 o.bitrate)
  codec : codec m = first (offers.map Offer.codec)

structure Inv (s : State) : Prop where
  slab : SlabInv s.slab
  dead : NoneDead s.slab
  holds : ∀ id r, s.slab.get id = some r → Holds ((mediaAt s.slab id).getD 0) (s.offered r.hash)
  codecs : ∃ a, s.codecs.Refines a

variable {U} {s : State} {slab : FileSlab} {id : FileId} {r : FileRecord}

theorem first_concat {α : Type} [DecidableEq α] [OfNat α 0] (values : List α) (x : α) :
    first (values ++ [x]) = if first values ≠ 0 then first values else x := by
  rw [first, first, List.find?_append]
  cases hfind : values.find? (· ≠ 0) with
  | none =>
    by_cases hx : x = 0 <;> simp [hx]
  | some y =>
    have hy := List.find?_some hfind
    have hy' : y ≠ 0 := of_decide_eq_true hy
    simp [hy']

theorem saturated_le {most : UInt64} (hmost : most.toUInt32.toUInt64 = most) (x : UInt32) :
    (if x.toUInt64 ≤ most then x.toUInt64 else most) =
        (saturated most.toUInt32 x).toUInt64 ∧
      (saturated most.toUInt32 x).toNat ≤ most.toNat ∧
      saturated most.toUInt32 (saturated most.toUInt32 x) = saturated most.toUInt32 x := by
  have hnat : most.toUInt32.toNat = most.toNat := by
    rw [← UInt32.toNat_toUInt64, hmost]
  have hle : x.toUInt64 ≤ most ↔ x ≤ most.toUInt32 := by
    rw [UInt64.le_iff_toNat_le, UInt32.le_iff_toNat_le, UInt32.toNat_toUInt64, hnat]
  by_cases h : x ≤ most.toUInt32
  · have hself : saturated most.toUInt32 x = x := if_pos h
    rw [if_pos (hle.mpr h), hself, hself]
    exact ⟨rfl, hnat ▸ UInt32.le_iff_toNat_le.mp h, rfl⟩
  · have hmax : saturated most.toUInt32 x = most.toUInt32 := if_neg h
    rw [if_neg (mt hle.mp h), hmax]
    exact ⟨hmost.symm, hnat.le, if_pos (UInt32.le_refl _)⟩

/-- Each field is kept, up to the most it can hold. -/
theorem new_fields (l b : UInt32) (c : UInt8) :
    length (Media.new l b c) = saturated LEN_MAX.toUInt32 l ∧
      bitrate (Media.new l b c) = saturated RATE_MAX.toUInt32 b ∧
      codec (Media.new l b c) = c := by
  have hlmost : LEN_MAX.toUInt32.toUInt64 = LEN_MAX := by decide
  have hbmost : RATE_MAX.toUInt32.toUInt64 = RATE_MAX := by decide
  have hnew : ∀ l b, Media.new l b c =
      (saturated LEN_MAX.toUInt32 l).toUInt64 |||
        ((saturated RATE_MAX.toUInt32 b).toUInt64 <<< LEN_BITS) |||
        (c.toUInt64 <<< (LEN_BITS + RATE_BITS)) := by
    intro l b
    rw [← (saturated_le hlmost l).1, ← (saturated_le hbmost b).1]
    rfl
  obtain ⟨-, hl, hlself⟩ := saturated_le hlmost l
  obtain ⟨-, hb, hbself⟩ := saturated_le hbmost b
  have hlen : LEN_MAX.toNat = 2 ^ 27 - 1 := by decide
  have hrate : RATE_MAX.toNat = 2 ^ 29 - 1 := by decide
  have hword := new_toNat c (l := saturated LEN_MAX.toUInt32 l) (r := saturated RATE_MAX.toUInt32 b)
    (by omega) (by omega)
  rw [hnew, hlself, hbself, ← hnew] at hword
  refine ⟨UInt32.toNat_inj.mp ?_, UInt32.toNat_inj.mp ?_, UInt8.toNat_inj.mp ?_⟩
  · rw [length_toNat, hword]
    omega
  · rw [bitrate_toNat, hword]
    omega
  · rw [codec_toNat, hword]
    omega

theorem holds_zero : Holds 0 [] := ⟨by decide, by decide, by decide⟩

theorem Holds.merged {m : Media} {offers : List Offer} (h : Holds m offers) (o : Offer) :
    Holds (Media.merged m o.toMedia) (offers ++ [o]) := by
  obtain ⟨hlength, hbitrate, hcodec⟩ := merged_fields m o.toMedia
  obtain ⟨hl, hb, hc⟩ := new_fields o.length o.bitrate o.codec
  refine ⟨?_, ?_, ?_⟩
  · rw [hlength, List.map_append, List.map_singleton, first_concat, ← h.length]
    exact congrArg _ hl
  · rw [hbitrate, List.map_append, List.map_singleton, first_concat, ← h.bitrate]
    exact congrArg _ hb
  · rw [hcodec, List.map_append, List.map_singleton, first_concat, ← h.codec]
    exact congrArg _ hc

theorem mediaOfHash_live (h : SlabInv slab) (hr : slab.get id = some r) :
    mediaOfHash slab r.hash = some (mediaAt slab id) := by
  obtain ⟨o, ho, hspec⟩ := find_spec (h.shard (shardOfHash r.hash)) r.hash
  have hlive := get_eq_some.mp hr
  have hno := (h.shard _).home _ r hlive
  have hfound : o = some (idIndex id) := (hspec _).mpr ⟨r, hno ▸ hlive, rfl⟩
  rw [mediaOfHash, ho, hfound, mediaAt, hno]
  rfl

theorem unique_hash (h : SlabInv slab) {id' : FileId} {r' : FileRecord} (hr : slab.get id = some r)
    (hr' : slab.get id' = some r') (hhash : r.hash = r'.hash) : id = id' := by
  obtain ⟨o, -, hspec⟩ := idOf_spec h r'.hash
  have hid := (hspec id).mpr ⟨r, hr, hhash⟩
  have hid' := (hspec id').mpr ⟨r', hr', rfl⟩
  exact Option.some.inj (hid.symm.trans hid')

theorem inv_new (quarantineSecs : UInt32) : Inv (.new quarantineSecs) where
  slab := slabInv_new quarantineSecs
  dead _ _ := rfl
  holds id r hr := by cases hr
  codecs := ⟨.empty, refines_empty⟩

/-- A record that is created has been offered with nothing yet. -/
theorem inserted_inv (h : Inv s) {now : UInt32} (ha : r.alive = true)
    (hroom : Room s.slab now r.hash) :
    ∃ s' id new, s.slab.searchOrInsert now r = some (s', id, new) ∧
      Inv { s with
        slab := s'
        offered :=
          if s.slab.idOf r.hash = some none then Function.update s.offered r.hash []
          else s.offered } := by
  obtain ⟨s', id, new, hrun, hinv, hcase⟩ := searchOrInsert_media h.slab h.dead ha hroom
  refine ⟨s', id, new, hrun, ?_⟩
  rcases hcase with ⟨rfl, hfound⟩ | ⟨hnone, hfree, hget, hmedia⟩
  · rw [if_neg hfound]
    exact h
  · rw [if_pos hnone]
    refine ⟨hinv, fun j hj => ?_, fun j q hq => ?_, h.codecs⟩
    · rw [hmedia]
      refine h.dead j ?_
      by_cases hjd : j = id
      · rwa [hjd]
      · rwa [hget, Function.update_of_ne hjd] at hj
    · rw [hmedia]
      by_cases hjd : j = id
      · rw [hget, hjd, Function.update_self] at hq
        obtain rfl := Option.some.inj hq
        change Holds _ (Function.update s.offered r.hash [] r.hash)
        rw [hjd, h.dead id hfree, Function.update_self]
        exact holds_zero
      · have hne : q.hash ≠ r.hash := by
          intro heq
          have hnew : s'.get id = some r := by rw [hget, Function.update_self]
          exact hjd (unique_hash hinv hq hnew heq)
        rw [hget, Function.update_of_ne hjd] at hq
        change Holds _ (Function.update s.offered r.hash [] q.hash)
        rw [Function.update_of_ne hne]
        exact h.holds j q hq

theorem tombstoned_inv (h : Inv s) (now : UInt32) (id : FileId) (cond : FileRecord → Bool) :
    ∃ s' name, s.slab.tombstoneWhere now id cond = some (s', name) ∧
      Inv { s with slab := s' } := by
  obtain ⟨s', name, hrun, hinv, hcase⟩ := tombstoneWhere_media h.slab now id cond
  refine ⟨s', name, hrun, ?_⟩
  rcases hcase with rfl | ⟨hget, hmedia⟩
  · exact h
  · refine ⟨hinv, fun j hj => ?_, fun j q hq => ?_, h.codecs⟩
    · rw [hmedia]
      by_cases hjd : j = id
      · rw [hjd, Function.update_self]
      · rw [hget, Function.update_of_ne hjd] at hj
        rw [Function.update_of_ne hjd]
        exact h.dead j hj
    · rw [hmedia]
      by_cases hjd : j = id
      · rw [hget, hjd, Function.update_self] at hq
        cases hq
      · rw [hget, Function.update_of_ne hjd] at hq
        rw [Function.update_of_ne hjd]
        exact h.holds j q hq

/-- The entry of a record stays when the record is replaced by one of its hash. -/
theorem replaced_inv (h : Inv s) {r' : FileRecord} (hr : s.slab.get id = some r)
    (hhash : r'.hash = r.hash) (halive : r'.alive = true) :
    Inv { s with slab := setRecord s.slab id r' } := by
  obtain ⟨hinv, hget⟩ := setRecord_spec h.slab hr hhash halive
  have hmedia : mediaAt (setRecord s.slab id r') = mediaAt s.slab := by
    funext j
    change (Function.update s.slab.shards (idShard id) _ (idShard j)).media (idIndex j) = _
    by_cases hno : idShard j = idShard id
    · rw [hno, Function.update_self, mediaAt, hno]
    · rw [Function.update_of_ne hno]
      rfl
  refine ⟨hinv, fun j hj => ?_, fun j q hq => ?_, h.codecs⟩
  · rw [hmedia]
    refine h.dead j ?_
    by_cases hjd : j = id
    · rw [hget, hjd, Function.update_self] at hj
      cases hj
    · rwa [hget, Function.update_of_ne hjd] at hj
  · rw [hmedia]
    by_cases hjd : j = id
    · rw [hget, hjd, Function.update_self] at hq
      obtain rfl := Option.some.inj hq
      rw [hhash, hjd]
      exact h.holds id r hr
    · rw [hget, Function.update_of_ne hjd] at hq
      exact h.holds j q hq

theorem merged_zero (m : Media) : Media.merged m 0 = m :=
  (merged_eq_iff m 0).mpr (nothingNew_zero m)

/-- The entry of the slot a hash is found at, and no other, takes in the offer. -/
theorem mergeMedia_mediaAt (h : SlabInv slab) {hash : FileHash} {idx : UInt32} {m : Media}
    (hm : m ≠ 0) (hfind : (slab.shards (shardOfHash hash)).find hash = some (some idx)) :
    ∃ slab' id r, mergeMedia slab hash m = some slab' ∧ SlabInv slab' ∧ slab'.get = slab.get ∧
      slab.get id = some r ∧ r.hash = hash ∧
      mediaAt slab' = Function.update (mediaAt slab) id
        (some (Media.merged ((mediaAt slab id).getD 0) m)) := by
  obtain ⟨o, ho, hspec⟩ := find_spec (h.shard (shardOfHash hash)) hash
  obtain rfl := Option.some.inj (hfind.symm.trans ho)
  obtain ⟨r, hlive, hhash⟩ := (hspec idx).mp rfl
  have hidx : idx.toNat < 2 ^ 26 := Nat.lt_of_lt_of_le (LiveAt.lt hlive) (h.room _)
  have hentry : mediaAt slab (makeId (shardOfHash hash) idx) =
      (slab.shards (shardOfHash hash)).media idx := by
    rw [mediaAt, idShard_makeId, idIndex_makeId _ hidx]
  have hmerge : mergeMedia slab hash m = some (setMedia slab (shardOfHash hash)
      (Function.update (slab.shards (shardOfHash hash)).media idx
        (some (Media.merged (((slab.shards (shardOfHash hash)).media idx).getD 0) m)))) := by
    rw [mergeMedia, if_neg hm, hfind]
    rfl
  obtain ⟨hinv, hget, -⟩ := setMedia_spec h (shardOfHash hash)
    (Function.update (slab.shards (shardOfHash hash)).media idx
      (some (Media.merged (((slab.shards (shardOfHash hash)).media idx).getD 0) m)))
  refine ⟨_, makeId (shardOfHash hash) idx, r, hmerge, hinv, hget, (get_makeId hidx).mpr hlive,
    hhash, ?_⟩
  rw [hentry]
  exact mediaAt_update hidx rfl

theorem offered_inv (h : Inv s) (hash : FileHash) (o : Offer) {codecs : CodecMaps}
    (hcodecs : ∃ a, codecs.Refines a) :
    ∃ slab, mergeMedia s.slab hash o.toMedia = some slab ∧
      Inv ⟨slab, codecs, Function.update s.offered hash (s.offered hash ++ [o])⟩ := by
  obtain ⟨found, hfind, hspec⟩ := find_spec (h.slab.shard (shardOfHash hash)) hash
  by_cases hm : o.toMedia = 0
  · refine ⟨s.slab, if_pos hm, h.slab, h.dead, fun j q hq => ?_, hcodecs⟩
    change Holds _ (Function.update s.offered hash _ q.hash)
    have hmerged := (h.holds j q hq).merged o
    rw [hm, merged_zero] at hmerged
    by_cases hqh : q.hash = hash
    · subst hqh
      rwa [Function.update_self]
    · rw [Function.update_of_ne hqh]
      exact h.holds j q hq
  · cases found with
    | none =>
      refine ⟨s.slab, ?_, h.slab, h.dead, fun j q hq => ?_, hcodecs⟩
      · rw [mergeMedia, if_neg hm, hfind]
        rfl
      · change Holds _ (Function.update s.offered hash _ q.hash)
        have hne : q.hash ≠ hash := by
          rintro rfl
          have hlive := get_eq_some.mp hq
          rw [← (h.slab.shard _).home _ q hlive] at hlive
          cases (hspec _).mpr ⟨q, hlive, rfl⟩
        rw [Function.update_of_ne hne]
        exact h.holds j q hq
    | some idx =>
      obtain ⟨slab, id, r, hmerge, hinv, hget, hr, rfl, hmedia⟩ :=
        mergeMedia_mediaAt h.slab hm hfind
      refine ⟨slab, hmerge, hinv, fun j hj => ?_, fun j q hq => ?_, hcodecs⟩
      · rw [hget] at hj
        have hne : j ≠ id := by
          rintro rfl
          cases hj.symm.trans hr
        rw [hmedia, Function.update_of_ne hne]
        exact h.dead j hj
      · rw [hget] at hq
        change Holds _ (Function.update s.offered r.hash _ q.hash)
        by_cases hjd : j = id
        · subst hjd
          obtain rfl := Option.some.inj (hr.symm.trans hq)
          rw [hmedia, Function.update_self, Function.update_self]
          exact (h.holds j r hr).merged o
        · have hne : q.hash ≠ r.hash := fun heq => hjd (unique_hash h.slab hq hr heq)
          rw [hmedia, Function.update_of_ne hjd, Function.update_of_ne hne]
          exact h.holds j q hq

theorem toOffer_refines {codecs : CodecMaps} (h : ∃ a, codecs.Refines a) (m : MediaTags) :
    ∃ a, (toOffer codecs m).1.Refines a := by
  obtain ⟨a, ha⟩ := h
  rw [toOffer]
  split
  · exact ⟨_, (intern_refines ha _).1⟩
  · exact ⟨a, ha⟩

theorem removeUserSource_inv (h : Inv s) (id : FileId) (userHash : UserHash) :
    Inv { s with slab := (removeUserSource s.slab id userHash).1 } := by
  rw [removeUserSource]
  cases hr : s.slab.get id with
  | none => exact h
  | some r => exact replaced_inv h hr rfl (get_eq_some.mp hr).2

theorem mergeSource_inv (h : Inv s) (id : FileId) (size : UInt64) (src : Source)
    (publishedAs : Str) :
    Inv { s with slab := (mergeSource s.slab id size src publishedAs).1 } := by
  rw [mergeSource]
  cases hr : s.slab.get id with
  | none => exact h
  | some r =>
    dsimp only
    split
    · exact h
    · exact replaced_inv h hr rfl (get_eq_some.mp hr).2

theorem addOrRefreshSourceSized_inv (h : Inv s) (hash : FileHash) (size : UInt64) (src : Source)
    (publishedAs : Str) :
    ∃ x, addOrRefreshSourceSized s.slab hash size src publishedAs = some x ∧
      Inv { s with slab := x.1 } := by
  obtain ⟨found, hid, -⟩ := idOf_spec h.slab hash
  rw [addOrRefreshSourceSized, hid]
  cases found with
  | none => exact ⟨(s.slab, .unknown), rfl, h⟩
  | some id => exact ⟨_, rfl, mergeSource_inv h id size src publishedAs⟩

/-- Every step with room returns, and keeps the invariant. -/
theorem step_total (U : Unicode) (h : Inv s) {e : Event} (hroom : HasRoom s e) :
    ∃ t, step U s e = some t ∧ Inv t := by
  cases e with
  | call e =>
    cases e with
    | getOrInsert now hash size name source =>
      obtain ⟨slab, id, new, hrun, hinv⟩ :=
        inserted_inv h (r := .new hash size name [source]) rfl hroom
      exact ⟨_, by simp [step, HashIndex.step, FileSlab.getOrInsert, hrun]; rfl, hinv⟩
    | insertSourceless now hash size name =>
      obtain ⟨slab, id, new, hrun, hinv⟩ := inserted_inv h (r := .new hash size name []) rfl hroom
      exact ⟨_, by simp [step, HashIndex.step, FileSlab.insertSourceless, hrun]; rfl, hinv⟩
    | tombstone now id =>
      obtain ⟨slab, name, hrun, hinv⟩ := tombstoned_inv h now id fun _ => true
      exact ⟨_, by simp [step, HashIndex.step, FileSlab.tombstone, hrun]; rfl, hinv⟩
    | tombstoneIfSourceless now id =>
      obtain ⟨slab, name, hrun, hinv⟩ := tombstoned_inv h now id (·.sources.isEmpty)
      exact ⟨_, by simp [step, HashIndex.step, FileSlab.tombstoneIfSourceless, hrun]; rfl, hinv⟩
  | source hash size src publishedAs =>
    obtain ⟨x, hrun, hinv⟩ := addOrRefreshSourceSized_inv h hash size src publishedAs
    exact ⟨_, by simp [step, hrun], hinv⟩
  | leave id userHash => exact ⟨_, rfl, removeUserSource_inv h id userHash⟩
  | offer hash length bitrate codec =>
    set media : MediaTags := ⟨length, bitrate, codec.bind (normalise U)⟩
    obtain ⟨slab, hrun, hinv⟩ := offered_inv h hash (toOffer s.codecs media).2
      (toOffer_refines h.codecs media)
    by_cases hany : media.any = true
    · refine ⟨_, ?_, hinv⟩
      rw [step, if_pos hany]
      exact congrArg (Option.bind · _) hrun
    · exact ⟨s, by rw [step, if_neg hany], h⟩

/-- Only an offer of a codec string that can be stored touches the table. -/
theorem step_codecs {e : Event} {t : State} (h : step U s e = some t) :
    t.codecs = s.codecs ∨ ∃ hash length bitrate raw n,
      e = .offer hash length bitrate (some raw) ∧ normalise U raw = some n ∧
        t.codecs = (s.codecs.intern n).1 := by
  cases e with
  | call e =>
    obtain ⟨slab, -, h⟩ := Option.bind_eq_some_iff.mp h
    obtain rfl := Option.some.inj h
    exact .inl rfl
  | source hash size src publishedAs =>
    obtain ⟨x, -, h⟩ := Option.bind_eq_some_iff.mp h
    obtain rfl := Option.some.inj h
    exact .inl rfl
  | leave id userHash =>
    obtain rfl := Option.some.inj h
    exact .inl rfl
  | offer hash length bitrate codec =>
    rw [step] at h
    split_ifs at h
    · obtain ⟨slab, -, h⟩ := Option.bind_eq_some_iff.mp h
      obtain rfl := Option.some.inj h
      cases hn : codec.bind (normalise U) with
      | none => exact .inl rfl
      | some n =>
        obtain ⟨raw, rfl, hraw⟩ := Option.bind_eq_some_iff.mp hn
        exact .inr ⟨hash, length, bitrate, raw, n, rfl, hraw, rfl⟩
    · obtain rfl := Option.some.inj h
      exact .inl rfl

/-- An index once given stays. -/
theorem run_index {es : List Event} {t : State} (hrun : exec (step U) s es = some t) {n : Str}
    {i : UInt8} (hn : s.codecs.index n = some i) : t.codecs.index n = some i := by
  have hkeep : ∀ (s : State) e t, s.codecs.index n = some i → step U s e = some t →
      t.codecs.index n = some i := by
    intro s e t hs ht
    rcases step_codecs ht with heq | ⟨-, -, -, -, m, -, -, heq⟩
    · rwa [heq]
    · rw [heq]
      exact intern_index m hs
  exact exec_invariant hkeep hn hrun

/-- Every stored name is the stored form of a codec string that was offered. -/
theorem run_names {es : List Event} {t : State} (hrun : exec (step U) s es = some t) {n : Str}
    (hn : n ∈ t.codecs.names) :
    n ∈ s.codecs.names ∨ ∃ hash length bitrate raw,
      Event.offer hash length bitrate (some raw) ∈ es ∧ normalise U raw = some n := by
  induction es generalizing s with
  | nil =>
    obtain rfl := Option.some.inj hrun
    exact .inl hn
  | cons e es ih =>
    obtain ⟨u, hu, hrun⟩ := exec_cons_eq_some.mp hrun
    rcases ih hrun with hmem | ⟨hash, length, bitrate, raw, hmem, hraw⟩
    · rcases step_codecs hu with heq | ⟨hash, length, bitrate, raw, m, rfl, hraw, heq⟩
      · exact .inl (heq ▸ hmem)
      · rw [heq] at hmem
        rcases mem_intern _ m hmem with hmem | rfl
        · exact .inl hmem
        · exact .inr ⟨hash, length, bitrate, raw, List.mem_cons_self, hraw⟩
    · exact .inr ⟨hash, length, bitrate, raw, List.mem_cons_of_mem _ hmem, hraw⟩

theorem lookup_iff (hU : SpaceOnly U) {t : CodecMaps} {a : CodecInner} (ht : t.Refines a)
    {n raw : Str} {i : UInt8} (hn : t.name i = some n) (hraw : normalise U raw = some n) :
    t.lookup U n = some i ↔ ¬CutAtSpace U raw := by
  rw [← normalise_self_iff hU hraw, CodecMaps.lookup]
  constructor
  · intro h
    obtain ⟨m, hm, hi⟩ := Option.bind_eq_some_iff.mp h
    have hname := (index_eq_some_iff ht).mp hi
    rw [hm, Option.some.inj (hname.symm.trans hn)]
  · intro h
    rw [h, Option.bind_some, (index_eq_some_iff ht).mpr hn]

/-- Every run returns; the table's map and names are inverse to each other, hold at most 255 names
and keep the index of each; a name is found again unless it was cut behind a space; and the fields
of a live record are the first ones it was offered. -/
theorem media_round_trip (U : Unicode) (hU : SpaceOnly U) (quarantineSecs : UInt32)
    (es : List Event) (hroom : Along (step U) HasRoom (.new quarantineSecs) es) :
    ∃ s, exec (step U) (.new quarantineSecs) es = some s ∧
      (∀ n i, s.codecs.index n = some i ↔ s.codecs.name i = some n) ∧
      s.codecs.names.length ≤ 255 ∧
      (∀ pre t, pre <+: es → exec (step U) (.new quarantineSecs) pre = some t →
        ∀ n i, t.codecs.index n = some i → s.codecs.index n = some i) ∧
      (∀ n i raw, s.codecs.name i = some n → normalise U raw = some n →
        (s.codecs.lookup U n = some i ↔ ¬CutAtSpace U raw)) ∧
      ((∀ hash length bitrate raw, Event.offer hash length bitrate (some raw) ∈ es →
          ¬CutAtSpace U raw) →
        ∀ n i, s.codecs.name i = some n → s.codecs.lookup U n = some i) ∧
      ∀ id r, s.slab.get id = some r →
        mediaOfHash s.slab r.hash = some (mediaAt s.slab id) ∧
          Holds ((mediaAt s.slab id).getD 0) (s.offered r.hash) := by
  have htotal : ∀ s e, Inv s → HasRoom s e → ∃ t, step U s e = some t ∧ Inv t :=
    fun s e h hroom => step_total U h hroom
  obtain ⟨s, hrun, hinv⟩ := exec_total_along htotal (inv_new quarantineSecs) hroom
  obtain ⟨a, ha⟩ := hinv.codecs
  refine ⟨s, hrun, fun n i => index_eq_some_iff ha, ?_, ?_,
    fun n i raw hn hraw => lookup_iff hU ha hn hraw, fun hcut n i hn => ?_, fun id r hr =>
    ⟨mediaOfHash_live hinv.slab hr, hinv.holds id r hr⟩⟩
  · rw [ha.1]
    exact a.short
  · rintro pre t ⟨post, rfl⟩ ht n i hn
    rw [exec_append, ht, Option.bind_some] at hrun
    exact run_index hrun hn
  · have hmem : n ∈ s.codecs.names := by
      rw [CodecMaps.name] at hn
      split_ifs at hn
      exact List.mem_of_getElem? hn
    rcases run_names hrun hmem with hnil | ⟨hash, length, bitrate, raw, hoffer, hraw⟩
    · cases hnil
    · exact (lookup_iff hU ha hn hraw).mpr (hcut hash length bitrate raw hoffer)


theorem basicLatin_spaceOnly : SpaceOnly basicLatin := by
  intro c hlo hhi
  refine decide_eq_false fun hmem => ?_
  fin_cases hmem <;> exact absurd hlo (by decide)

/-- A file that is offered twice. -/
def offeredTwice : List Event :=
  [.call (.insertSourceless 0 (.replicate 16 1) 9 []),
    .offer (.replicate 16 1) none (some 1200) none,
    .offer (.replicate 16 1) (some 5400) (some 999) (some "H264".toList)]

theorem offeredTwice_round_trip :
    SpaceOnly basicLatin ∧ Along (step basicLatin) HasRoom (.new 60) offeredTwice ∧
      ∃ s, exec (step basicLatin) (.new 60) offeredTwice = some s ∧
        s.codecs.names.length ≤ 255 := by
  have hroom : Along (step basicLatin) HasRoom (.new 60) offeredTwice :=
    ⟨.inl (by decide), fun _ _ => ⟨trivial, fun _ _ => ⟨trivial, fun _ _ => trivial⟩⟩⟩
  obtain ⟨s, hrun, -, hlen, -⟩ :=
    media_round_trip basicLatin basicLatin_spaceOnly 60 offeredTwice hroom
  exact ⟨basicLatin_spaceOnly, hroom, s, hrun, hlen⟩

/-- The name is cut behind its last space, and a search for it looks for the name without. -/
theorem name_not_found :
    ∃ s, exec (step basicLatin) (.new 60)
        [.offer (.replicate 16 1) none none (some "Dolby Digital Plus 5.1".toList)] = some s ∧
      s.codecs.name 1 = some "dolby digital plus ".toList ∧
      s.codecs.lookup basicLatin "dolby digital plus ".toList = none := by
  obtain ⟨s, hs, -⟩ := step_total basicLatin (inv_new 60)
    (e := .offer (.replicate 16 1) none none (some "Dolby Digital Plus 5.1".toList)) trivial
  refine ⟨s, exec_cons_eq_some.mpr ⟨s, hs, rfl⟩, ?_⟩
  rw [step, if_pos (by decide)] at hs
  obtain ⟨slab, -, hs⟩ := Option.bind_eq_some_iff.mp hs
  obtain rfl := Option.some.inj hs
  have hnormal : normalise basicLatin "Dolby Digital Plus 5.1".toList =
      some "dolby digital plus ".toList := by decide
  have hname : (toOffer .empty ⟨none, none, some "dolby digital plus ".toList⟩).1.name 1 =
      some "dolby digital plus ".toList := by decide
  have hlookup : (toOffer .empty ⟨none, none, some "dolby digital plus ".toList⟩).1.lookup
      basicLatin "dolby digital plus ".toList = none := by decide
  rw [← hnormal] at hname hlookup
  exact ⟨hname, hlookup⟩

end Ed2kServer.Publish.MediaHistory
