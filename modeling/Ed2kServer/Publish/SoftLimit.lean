import Ed2kServer.Lib.Transition
import Ed2kServer.Publish.OfferFiles

namespace Ed2kServer.Publish.SoftLimit

open Ed2kServer.Lib.Transition Ed2kServer.Text.Chars Ed2kServer.Keyword.Index
open Ed2kServer.Slab.Record Ed2kServer.Slab.Store Ed2kServer.Slab.StoreSpec
open Ed2kServer.Slab.MediaFields Ed2kServer.Slab.Codecs Ed2kServer.Sources.Address
open Ed2kServer.Publish.Files Ed2kServer.Publish.OfferFiles

variable {U : Unicode} {check : FileHash → Str → FilterResult} {softLimit : Nat}
  {maxString : UInt32} {p q : Progress} {file : OfferedFile} {m : Moment} {stop : Bool}

theorem blockRecord_frame (p : Progress) (hash : FileHash) (layer : Layer) (m : Moment) :
    (blockRecord p hash layer m).1.server.files = p.server.files ∧
      (blockRecord p hash layer m).1.client.userHash = p.client.userHash ∧
      (blockRecord p hash layer m).1.overLimit = p.overLimit ∧
      (blockRecord p hash layer m).1.sourced = p.sourced := by
  rw [blockRecord]
  split
  · dsimp only
    split <;> exact ⟨rfl, rfl, rfl, rfl⟩
  · exact ⟨rfl, rfl, rfl, rfl⟩

theorem storeMedia_userFiles {f g : FileStore} {hash : FileHash} {media : MediaTags}
    (h : storeMedia f hash media = some g) : g.userFiles = f.userFiles := by
  rw [storeMedia] at h
  split at h
  · obtain ⟨slab, -, h⟩ := Option.bind_eq_some_iff.mp h
    obtain rfl := Option.some.inj h
    rfl
  · obtain rfl := Option.some.inj h
    rfl

/-- What one round of the loop can do. -/
theorem offerRecord_cases
    (h : offerRecord U check softLimit maxString p file m = some (q, stop)) :
    (∃ layer, check file.hash file.filename = .block layer ∧
        (q, stop) = blockRecord p file.hash layer m) ∨
      (overSoftLimit softLimit p file.hash = some true ∧
        q = { p with overLimit := p.overLimit + 1 }) ∨
      (overSoftLimit softLimit p file.hash = some false ∧
        acceptRecord U softLimit maxString p file m = some q) := by
  rw [offerRecord] at h
  cases hc : check file.hash file.filename with
  | block layer =>
    rw [hc] at h
    exact Or.inl ⟨layer, rfl, (Option.some.inj h).symm⟩
  | allow =>
    rw [hc] at h
    obtain ⟨refused, hr, h⟩ := Option.bind_eq_some_iff.mp h
    cases refused with
    | true =>
      obtain ⟨rfl, -⟩ := Prod.mk.inj (Option.some.inj h)
      exact Or.inr (Or.inl ⟨hr, rfl⟩)
    | false =>
      obtain ⟨p', hp', h⟩ := Option.bind_eq_some_iff.mp h
      obtain ⟨rfl, -⟩ := Prod.mk.inj (Option.some.inj h)
      exact Or.inr (Or.inr ⟨hr, hp'⟩)

theorem acceptRecord_spec (h : acceptRecord U softLimit maxString p file m = some q) :
    ∃ files, p.server.files.addFileWithSource U m.nowSecs file.hash file.size
        (capString file.filename maxString) (offeredSource p.client file) = some files ∧
      q.server.files.userFiles = files.userFiles ∧ q.client = p.client ∧
      q.overLimit = p.overLimit ∧ q.blocked = p.blocked ∧
      (0 < softLimit → q.sourced = q.server.files.layerCount p.client.userHash) := by
  obtain ⟨files, hadd, h⟩ := Option.bind_eq_some_iff.mp h
  obtain ⟨stored, hmedia, h⟩ := Option.bind_eq_some_iff.mp h
  obtain rfl := Option.some.inj h
  exact ⟨files, hadd, storeMedia_userFiles hmedia, rfl, rfl, rfl, fun hl => if_pos hl⟩

/-- A record that is skipped or blocked changes no file; one the user already sources is never
skipped. -/
theorem offerRecord_skips
    (h : offerRecord U check softLimit maxString p file m = some (q, stop)) :
    (q.overLimit ≠ p.overLimit ∨ q.blocked ≠ p.blocked →
        q.server.files = p.server.files) ∧
      (p.server.files.alreadySources p.client.userHash file.hash = some true →
        q.overLimit = p.overLimit) := by
  obtain ⟨layer, -, he⟩ | ⟨hover, rfl⟩ | ⟨-, hacc⟩ := offerRecord_cases h
  · obtain ⟨hfiles, -, hover, -⟩ := blockRecord_frame p file.hash layer m
    rw [← he] at hfiles hover
    exact ⟨fun _ => hfiles, fun _ => hover⟩
  · refine ⟨fun _ => rfl, fun hs => ?_⟩
    rw [overSoftLimit] at hover
    split at hover
    · rw [hs] at hover
      cases hover
    · cases hover
  · obtain ⟨-, -, -, -, hover, hblocked, -⟩ := acceptRecord_spec hacc
    refine ⟨fun hne => ?_, fun _ => hover⟩
    obtain hne | hne := hne
    · exact absurd hover hne
    · exact absurd hblocked hne

/-- The number re-read is the user's, and within the limit or what it was. -/
structure Within (user : UserHash) (bound : Nat) (p : Progress) : Prop where
  owner : p.client.userHash = user
  sourced : p.sourced = p.server.files.layerCount user
  bounded : p.server.files.layerCount user ≤ bound

theorem layerCount_congr {f g : FileStore} (h : f.userFiles = g.userFiles) (user : UserHash) :
    f.layerCount user = g.layerCount user := by
  rw [FileStore.layerCount, FileStore.layerCount, h]

theorem offeredSource_userHash (client : ClientHandle) (file : OfferedFile) :
    (offeredSource client file).userHash = client.userHash := by
  rw [offeredSource]
  cases client.ip <;> rfl

theorem within_offerRecord {user : UserHash} {bound : Nat} (hpos : 0 < softLimit)
    (hb : softLimit ≤ bound) (hp : Within user bound p)
    (h : offerRecord U check softLimit maxString p file m = some (q, stop)) :
    Within user bound q := by
  obtain ⟨hu, hs, hc⟩ := hp
  obtain ⟨layer, -, he⟩ | ⟨-, rfl⟩ | ⟨hover, hacc⟩ := offerRecord_cases h
  · obtain ⟨hfiles, huser, -, hsourced⟩ := blockRecord_frame p file.hash layer m
    rw [← he] at hfiles huser hsourced
    exact ⟨huser.trans hu, by rw [hsourced, hs, hfiles], by rwa [hfiles]⟩
  · exact ⟨hu, hs, hc⟩
  · obtain ⟨files, hadd, hfiles, hclient, -, -, hsourced⟩ := acceptRecord_spec hacc
    have hsrc : (offeredSource p.client file).userHash = user :=
      (offeredSource_userHash p.client file).trans hu
    refine ⟨by rw [hclient, hu], by rw [hsourced hpos, hu], ?_⟩
    rw [layerCount_congr hfiles]
    by_cases hroom : p.sourced < softLimit
    · have hone := layerCount_addFileWithSource hadd
      rw [hsrc, ← hs] at hone
      exact hone.trans (Nat.le_trans hroom hb)
    · rw [overSoftLimit, if_pos ⟨hpos, Nat.le_of_not_lt hroom⟩] at hover
      obtain ⟨known, hknown, hnot⟩ := Option.map_eq_some_iff.mp hover
      obtain rfl : known = true := by simpa using hnot
      rw [hu] at hknown
      have hsame := layerCount_of_alreadySources (hsrc ▸ hknown) hadd
      rw [hsrc] at hsame
      exact hsame.trans_le hc

theorem within_offerRecords {user : UserHash} {bound : Nat} (hpos : 0 < softLimit)
    (hb : softLimit ≤ bound) (files : List (OfferedFile × Moment)) (hp : Within user bound p)
    (h : offerRecords U check softLimit maxString p files = some q) : Within user bound q := by
  induction files generalizing p with
  | nil =>
    obtain rfl := Option.some.inj h
    exact hp
  | cons record rest ih =>
    obtain ⟨⟨p', stop⟩, hrec, h⟩ := Option.bind_eq_some_iff.mp h
    have hp' : Within user bound p' := within_offerRecord hpos hb hp hrec
    cases stop with
    | true =>
      obtain rfl := Option.some.inj h
      exact hp'
    | false => exact ih hp' h

/-- A batch as it reaches the server. -/
structure Batch where
  limits : Limits
  client : ClientHandle
  files : List (OfferedFile × Moment)

variable (U check) in
def runBatch (s : Server) (b : Batch) : Option Server :=
  (handleOfferfiles U check s b.limits b.client b.files).map Prod.fst

theorem layerCount_runBatch {s t : Server} {b : Batch} (hpos : 0 < softLimitOf b.limits b.client)
    (h : runBatch U check s b = some t) :
    t.files.layerCount b.client.userHash ≤
      max (softLimitOf b.limits b.client) (s.files.layerCount b.client.userHash) := by
  obtain ⟨out, hout, rfl⟩ := Option.map_eq_some_iff.mp h
  obtain ⟨q, hq, hout⟩ := Option.bind_eq_some_iff.mp hout
  obtain rfl := Option.some.inj hout
  have hstart : Within b.client.userHash
      (max (softLimitOf b.limits b.client) (s.files.layerCount b.client.userHash))
      (start s b.limits b.client) :=
    ⟨rfl, if_pos hpos, Nat.le_max_right _ _⟩
  exact (within_offerRecords hpos (Nat.le_max_left _ _) b.files hstart hq).bounded

/-- Over any sequence of batches of a user, from any state: each keeps the user's files within its
limit or what there was, a skipped or blocked record changes no file, and a file the user already
sources is never over the limit. -/
theorem soft_limit_holds {user : UserHash} {s t : Server} {batches : List Batch}
    (hb : ∀ b ∈ batches, b.client.userHash = user ∧ 0 < softLimitOf b.limits b.client)
    (hrun : exec (runBatch U check) s batches = some t) :
    (∀ pre b post s₁ s₂, batches = pre ++ b :: post → exec (runBatch U check) s pre = some s₁ →
        runBatch U check s₁ b = some s₂ → s₂.files.layerCount user ≤
          max (softLimitOf b.limits b.client) (s₁.files.layerCount user)) ∧
      (∀ limit, (∀ b ∈ batches, softLimitOf b.limits b.client ≤ limit) →
        t.files.layerCount user ≤ max limit (s.files.layerCount user)) ∧
      ∀ b ∈ batches, ∀ p file m q stop,
        offerRecord U check (softLimitOf b.limits b.client) b.limits.maxStringSize p file m =
          some (q, stop) →
        (q.overLimit ≠ p.overLimit ∨ q.blocked ≠ p.blocked →
          q.server.files = p.server.files) ∧
        (p.server.files.alreadySources p.client.userHash file.hash = some true →
          q.overLimit = p.overLimit) := by
  refine ⟨?_, ?_, fun b _ p file m q stop h => offerRecord_skips h⟩
  · rintro pre b post s₁ s₂ rfl - hstep
    obtain ⟨rfl, hpos⟩ := hb b (by simp)
    exact layerCount_runBatch hpos hstep
  · intro limit hlimit
    have hstep : ∀ s' b t', s'.files.layerCount user ≤ max limit (s.files.layerCount user) →
        b ∈ batches → runBatch U check s' b = some t' →
        t'.files.layerCount user ≤ max limit (s.files.layerCount user) := by
      intro s' b t' hs' hmem hstep
      obtain ⟨rfl, hpos⟩ := hb b hmem
      exact (layerCount_runBatch hpos hstep).trans (max_le (le_max_of_le_left (hlimit b hmem)) hs')
    exact exec_invariant_along hstep (Nat.le_max_right _ _) (along_of_forall s (fun b hm => hm)) hrun

theorem storeMedia_total {f : FileStore} (h : SlabInv f.fileSlab) (hash : FileHash)
    (media : MediaTags) : ∃ g, storeMedia f hash media = some g ∧ SlabInv g.fileSlab ∧
      slots g.fileSlab = slots f.fileSlab := by
  rw [storeMedia]
  split
  · obtain ⟨slab, hm, hinv, -, hslots⟩ := mergeMedia_spec h hash (media.toMedia f.codecs).2
    refine ⟨{ f with fileSlab := slab, codecs := (media.toMedia f.codecs).1 }, ?_, hinv, hslots⟩
    rw [hm]
    rfl
  · exact ⟨f, rfl, h, rfl⟩

/-- The slab is in order and every shard has `n` slots left. -/
structure Roomy (n : Nat) (s : Server) : Prop where
  inv : SlabInv s.files.fileSlab
  free : ∀ no, slots s.files.fileSlab no + n ≤ 2 ^ 26

theorem roomy_congr {n : Nat} {s t : Server} (h : Roomy (n + 1) s) (hf : t.files = s.files) :
    Roomy n t := by
  refine ⟨hf ▸ h.inv, fun no => ?_⟩
  have hno := h.free no
  rw [hf]
  omega

theorem alreadySources_total {f : FileStore} (h : SlabInv f.fileSlab) (user : UserHash)
    (hash : FileHash) : ∃ b, f.alreadySources user hash = some b := by
  obtain ⟨found, hid, -⟩ := idOf_spec h hash
  rw [FileStore.alreadySources, hid]
  cases found <;> exact ⟨_, rfl⟩

variable (U softLimit maxString) in
theorem acceptRecord_total {n : Nat} (h : Roomy (n + 1) p.server) (file : OfferedFile)
    (m : Moment) : ∃ q, acceptRecord U softLimit maxString p file m = some q ∧
      Roomy n q.server := by
  have hroom : Room p.server.files.fileSlab m.nowSecs file.hash :=
    Or.inl (lt_of_lt_of_le (Nat.lt_add_of_pos_right n.succ_pos) (h.free _))
  obtain ⟨f₁, hadd, hinv₁, hslots₁⟩ := addFileWithSource_total (U := U) h.inv hroom file.size
    (capString file.filename maxString) (offeredSource p.client file)
  obtain ⟨f₂, hmedia, hinv₂, hslots₂⟩ := storeMedia_total hinv₁ file.hash file.media
  rw [acceptRecord, hadd, Option.bind_eq_bind, Option.bind_some, hmedia]
  refine ⟨_, rfl, hinv₂, fun no => ?_⟩
  have hone := hslots₁ no
  have hfree := h.free no
  change slots f₂.fileSlab no + n ≤ 2 ^ 26
  rw [hslots₂]
  omega

variable (U check softLimit maxString) in
theorem offerRecord_total {n : Nat} (h : Roomy (n + 1) p.server) (file : OfferedFile)
    (m : Moment) : ∃ q stop, offerRecord U check softLimit maxString p file m = some (q, stop) ∧
      Roomy n q.server := by
  rw [offerRecord]
  cases check file.hash file.filename with
  | block layer =>
    exact ⟨_, _, rfl, roomy_congr h (blockRecord_frame p file.hash layer m).1⟩
  | allow =>
    obtain ⟨refused, hr⟩ : ∃ b, overSoftLimit softLimit p file.hash = some b := by
      obtain ⟨known, hk⟩ := alreadySources_total h.inv p.client.userHash file.hash
      rw [overSoftLimit, hk]
      split <;> exact ⟨_, rfl⟩
    rw [hr]
    cases refused with
    | true => exact ⟨_, _, rfl, roomy_congr h rfl⟩
    | false =>
      obtain ⟨q, hq, hroomy⟩ := acceptRecord_total U softLimit maxString h file m
      exact ⟨q, false, by simp [hq], hroomy⟩

variable (U check softLimit maxString) in
theorem offerRecords_total (files : List (OfferedFile × Moment))
    (h : Roomy files.length p.server) :
    ∃ q, offerRecords U check softLimit maxString p files = some q ∧
      SlabInv q.server.files.fileSlab := by
  induction files generalizing p with
  | nil => exact ⟨p, rfl, h.inv⟩
  | cons record rest ih =>
    obtain ⟨q, stop, hq, hroomy⟩ :=
      offerRecord_total U check softLimit maxString h record.1 record.2
    rw [offerRecords, hq, Option.bind_eq_bind, Option.bind_some]
    cases stop with
    | true => exact ⟨q, rfl, hroomy.inv⟩
    | false => exact ih hroomy

variable (U check) in
/-- A batch returns, unless a shard may run out of slots an id can name. -/
theorem runBatch_total {s : Server} {b : Batch} (h : Roomy b.files.length s) :
    ∃ t, runBatch U check s b = some t ∧ SlabInv t.files.fileSlab := by
  obtain ⟨q, hq, hinv⟩ := offerRecords_total U check (softLimitOf b.limits b.client)
    b.limits.maxStringSize (p := start s b.limits b.client) b.files h
  exact ⟨q.server, by simp [runBatch, handleOfferfiles, hq], hinv⟩

def noFiles : Server :=
  ⟨⟨.new SLOT_QUARANTINE_SECS, .withSubtokens false, fun _ => none, .empty⟩, fun _ => none,
    fun _ => none, fun _ => none⟩

/-- Two new files of a user who may have one. -/
def twoOffers : Batch :=
  let media : MediaTags := ⟨none, none, none⟩
  let moment : Moment := ⟨0, 0, ⟨3, 86400, 86400⟩⟩
  ⟨⟨1, 0⟩, ⟨Vector.replicate 16 7, .v4 0x01020304, 4662, none, 0, false⟩,
    [(⟨Vector.replicate 16 1, 0, 0, "first film.avi".toList, 5, media⟩, moment),
      (⟨Vector.replicate 16 2, 0, 0, "second film.avi".toList, 6, media⟩, moment)]⟩

theorem twoOffers_within : ∃ t,
    exec (runBatch basicLatin (fun _ _ => .allow)) noFiles [twoOffers] = some t ∧
      t.files.layerCount twoOffers.client.userHash ≤ 1 := by
  have hroomy : Roomy twoOffers.files.length noFiles :=
    ⟨slabInv_new SLOT_QUARANTINE_SECS, fun no => show 0 + 2 ≤ 2 ^ 26 by decide⟩
  obtain ⟨t, ht, -⟩ := runBatch_total basicLatin (fun _ _ => .allow) hroomy
  have hrun : exec (runBatch basicLatin (fun _ _ => .allow)) noFiles [twoOffers] = some t := by
    simp [exec_cons, ht]
  have hb : ∀ b ∈ [twoOffers], b.client.userHash = twoOffers.client.userHash ∧
      0 < softLimitOf b.limits b.client := by
    intro b hm
    obtain rfl := List.mem_singleton.mp hm
    exact ⟨rfl, by decide⟩
  refine ⟨t, hrun, (soft_limit_holds hb hrun).2.1 1 (fun b hm => ?_)⟩
  obtain rfl := List.mem_singleton.mp hm
  decide

end Ed2kServer.Publish.SoftLimit
