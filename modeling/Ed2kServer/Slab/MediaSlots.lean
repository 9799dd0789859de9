import Ed2kServer.Slab.StoreSpec

namespace Ed2kServer.Slab.MediaSlots

open Ed2kServer.Slab.Record Ed2kServer.Slab.Shard Ed2kServer.Slab.ShardSpec Ed2kServer.Slab.Store
open Ed2kServer.Slab.StoreSpec

/-- What the side table holds for the slot of an id. -/
def mediaAt (s : FileSlab) (id : FileId) : Option Media :=
  (s.shards (idShard id)).media (idIndex id)

variable {sh sh' : SlabShard} {i idx now quarantine : UInt32} {r : FileRecord}

theorem link_media (h : sh.link i = some sh') : sh'.media = sh.media := by
  obtain ⟨r, -, h⟩ := Option.bind_eq_some_iff.mp h
  obtain ⟨head, -, h⟩ := Option.bind_eq_some_iff.mp h
  obtain ⟨next, -, h⟩ := Option.bind_eq_some_iff.mp h
  rw [← Option.some.inj h]

theorem relink_media {k n : Nat} (h : SlabShard.relink k n sh = some sh') :
    sh'.media = sh.media := by
  induction n generalizing k sh with
  | zero => rw [← Option.some.inj h]
  | succ n ih =>
    obtain ⟨r, -, h⟩ := Option.bind_eq_some_iff.mp h
    split_ifs at h
    · obtain ⟨linked, hlink, h⟩ := Option.bind_eq_some_iff.mp h
      rw [ih h, link_media hlink]
    · obtain ⟨next, -, h⟩ := Option.bind_eq_some_iff.mp h
      have hrest := ih h
      exact hrest

theorem pushAndLink_media (h : sh.pushAndLink r = some (sh', idx)) : sh'.media = sh.media := by
  rw [SlabShard.pushAndLink] at h
  split_ifs at h
  · obtain ⟨grown, hgrow, h⟩ := Option.bind_eq_some_iff.mp h
    obtain ⟨rfl, -⟩ := Prod.mk.inj (Option.some.inj h)
    have hrest := relink_media hgrow
    exact hrest
  · obtain ⟨linked, hlink, h⟩ := Option.bind_eq_some_iff.mp h
    obtain ⟨rfl, -⟩ := Prod.mk.inj (Option.some.inj h)
    have hrest := link_media hlink
    exact hrest

/-- A slot that is taken again loses its entry. -/
theorem insertRecord_media (h : sh.insertRecord r now quarantine = some (sh', idx)) :
    sh'.media = sh.media ∨ sh'.media = Function.update sh.media idx none := by
  rw [SlabShard.insertRecord] at h
  split at h
  · split_ifs at h
    · obtain ⟨old, -, h⟩ := Option.bind_eq_some_iff.mp h
      obtain ⟨next, -, h⟩ := Option.bind_eq_some_iff.mp h
      obtain ⟨linked, hlink, h⟩ := Option.bind_eq_some_iff.mp h
      obtain ⟨rfl, rfl⟩ := Prod.mk.inj (Option.some.inj h)
      exact .inr (link_media hlink)
    · exact .inl (pushAndLink_media h)
  · exact .inl (pushAndLink_media h)

theorem unlinkFrom_media {b fuel : Nat} {prev cur : UInt32}
    (h : sh.unlinkFrom b i fuel prev cur = some sh') : sh'.media = sh.media := by
  induction fuel generalizing prev cur with
  | zero => cases h
  | succ fuel ih =>
    rw [SlabShard.unlinkFrom] at h
    split_ifs at h
    · rw [← Option.some.inj h]
    · obtain ⟨after, -, h⟩ := Option.bind_eq_some_iff.mp h
      obtain ⟨buckets, -, h⟩ := Option.bind_eq_some_iff.mp h
      obtain ⟨next, -, h⟩ := Option.bind_eq_some_iff.mp h
      rw [← Option.some.inj h]
    · obtain ⟨after, -, h⟩ := Option.bind_eq_some_iff.mp h
      obtain ⟨next, -, h⟩ := Option.bind_eq_some_iff.mp h
      obtain ⟨next', -, h⟩ := Option.bind_eq_some_iff.mp h
      rw [← Option.some.inj h]
    · obtain ⟨after, -, h⟩ := Option.bind_eq_some_iff.mp h
      exact ih h

/-- A dead slot keeps no entry. -/
theorem tombstone_media {cond : FileRecord → Bool} {name : Option Str}
    (h : sh.tombstone now idx cond = some (sh', name)) :
    name = none ∨ sh'.media = Function.update sh.media idx none := by
  rw [SlabShard.tombstone] at h
  split at h
  · exact .inl (Prod.mk.inj (Option.some.inj h)).2.symm
  · split_ifs at h
    · obtain ⟨unlinked, hunlink, h⟩ := Option.bind_eq_some_iff.mp h
      obtain ⟨rfl, -⟩ := Prod.mk.inj (Option.some.inj h)
      obtain ⟨head, -, hunlink⟩ := Option.bind_eq_some_iff.mp hunlink
      refine .inr ?_
      rw [← unlinkFrom_media hunlink]
    · exact .inl (Prod.mk.inj (Option.some.inj h)).2.symm

theorem mediaAt_update {s : FileSlab} {no : Fin SLAB_SHARDS} {v : Option Media} {live : UInt32}
    (hi : i.toNat < 2 ^ 26) (hmedia : sh.media = Function.update (s.shards no).media i v) :
    mediaAt ⟨Function.update s.shards no sh, live, s.quarantineSecs⟩ =
      Function.update (mediaAt s) (makeId no i) v := by
  funext id
  change (Function.update s.shards no sh (idShard id)).media (idIndex id) = _
  by_cases hno : idShard id = no
  · subst hno
    by_cases hid : idIndex id = i
    · have heq : id = makeId (idShard id) i := by rw [← hid, makeId_idShard_idIndex]
      rw [Function.update_self, hmedia, hid, Function.update_self, ← heq, Function.update_self]
    · have hne : id ≠ makeId (idShard id) i := fun heq => hid (by rw [heq, idIndex_makeId _ hi])
      rw [Function.update_self, hmedia, Function.update_of_ne hid, Function.update_of_ne hne]
      rfl
  · have hne : id ≠ makeId no i := fun heq => hno (by rw [heq, idShard_makeId])
    rw [Function.update_of_ne hno, Function.update_of_ne hne]
    rfl

variable {s : FileSlab}

/-- Only live records have entries. -/
def NoneDead (s : FileSlab) : Prop := ∀ id, s.get id = none → mediaAt s id = none

/-- A new record has no entry, whatever its slot held before. -/
theorem searchOrInsert_media (h : SlabInv s) (hdead : NoneDead s) (ha : r.alive = true)
    (hroom : Room s now r.hash) :
    ∃ s' id new, s.searchOrInsert now r = some (s', id, new) ∧ SlabInv s' ∧
      ((s' = s ∧ s.idOf r.hash ≠ some none) ∨
        (s.idOf r.hash = some none ∧ s.get id = none ∧
          s'.get = Function.update s.get id (some r) ∧ mediaAt s' = mediaAt s)) := by
  obtain ⟨s', id, new, hrun, hinv, hcase⟩ := searchOrInsert_spec h ha hroom
  refine ⟨s', id, new, hrun, hinv, ?_⟩
  obtain ⟨o, hid, hspec⟩ := idOf_spec h r.hash
  rcases hcase with ⟨-, rfl, q, hq, hqh⟩ | ⟨rfl, hnone, hfree, hget, hshard, -, -⟩
  · refine .inl ⟨rfl, fun hidn => ?_⟩
    rw [hid] at hidn
    exact absurd ((hspec id).mpr ⟨q, hq, hqh⟩) (by rw [Option.some.inj hidn]; exact nofun)
  · have hidnone : s.idOf r.hash = some none := by
      rw [hid]
      cases o with
      | none => rfl
      | some j =>
        obtain ⟨q, hq, hqh⟩ := (hspec j).mp rfl
        exact absurd hqh (hnone j q hq)
    refine .inr ⟨hidnone, hfree, hget, ?_⟩
    obtain ⟨found, hfind, hrest⟩ := Option.bind_eq_some_iff.mp hrun
    cases found with
    | some idx => cases hrest
    | none =>
      obtain ⟨⟨sh, idx⟩, hins, hrest⟩ := Option.bind_eq_some_iff.mp hrest
      obtain ⟨rfl, hpair⟩ := Prod.mk.inj (Option.some.inj hrest)
      obtain ⟨rfl, -⟩ := Prod.mk.inj hpair
      funext j
      change (Function.update s.shards (shardOfHash r.hash) sh (idShard j)).media (idIndex j) =
        (s.shards (idShard j)).media (idIndex j)
      by_cases hno : idShard j = shardOfHash r.hash
      · rw [hno, Function.update_self]
        rcases insertRecord_media hins with hm | hm
        · rw [hm]
        · by_cases hj : idIndex j = idx
          · have hself : mediaAt s j = none := by
              refine hdead j ?_
              rwa [← makeId_idShard_idIndex j, hno, hj]
            rw [mediaAt, hno] at hself
            rw [hm, hself, hj, Function.update_self]
          · rw [hm, Function.update_of_ne hj]
      · rw [Function.update_of_ne hno]

theorem tombstoneWhere_media (h : SlabInv s) (now : UInt32) (id : FileId)
    (cond : FileRecord → Bool) :
    ∃ s' o, s.tombstoneWhere now id cond = some (s', o) ∧ SlabInv s' ∧
      (s' = s ∨ (s'.get = Function.update s.get id none ∧
        mediaAt s' = Function.update (mediaAt s) id none)) := by
  obtain ⟨s', o, hrun, hinv, hcase⟩ := tombstoneWhere_spec h now id cond
  refine ⟨s', o, hrun, hinv, ?_⟩
  rcases hcase with ⟨-, rfl, -⟩ | ⟨r, hr, -, rfl, hget, -, -, -⟩
  · exact .inl rfl
  · refine .inr ⟨hget, ?_⟩
    obtain ⟨⟨sh, name⟩, htomb, hrest⟩ := Option.bind_eq_some_iff.mp hrun
    obtain ⟨fname, hname⟩ := Option.isSome_iff_exists.mp (Option.filter_eq_some_iff.mp hr).2
    have hi : (idIndex id).toNat < 2 ^ 26 := by
      rw [idIndex_toNat]
      exact Nat.mod_lt _ (by decide)
    cases name with
    | none =>
      have hnone := (Prod.mk.inj (Option.some.inj hrest)).2
      rw [hname] at hnone
      cases hnone
    | some old =>
      obtain ⟨rfl, -⟩ := Prod.mk.inj (Option.some.inj hrest)
      have hmedia := (tombstone_media htomb).resolve_left nofun
      refine (mediaAt_update hi hmedia).trans ?_
      rw [makeId_idShard_idIndex]

end Ed2kServer.Slab.MediaSlots
