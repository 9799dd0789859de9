import Ed2kServer.Slab.ShardSpec

namespace Ed2kServer.Slab.FreeQueue

open Ed2kServer.Slab.Record Ed2kServer.Slab.Shard Ed2kServer.Slab.Chains
open Ed2kServer.Slab.Invariant Ed2kServer.Slab.ShardSpec

variable {sh sh' : SlabShard} {i : UInt32}

theorem link_same (h : sh.link i = some sh') : SameRecords sh sh' := by
  simp only [SlabShard.link, Option.bind_eq_bind, Option.bind_eq_some_iff, Option.pure_def,
    Option.some.injEq] at h
  obtain ⟨r, -, head, -, next, -, rfl⟩ := h
  exact ⟨rfl, rfl, rfl⟩

theorem unlinkFrom_same {b fuel : Nat} {prev cur : UInt32}
    (h : sh.unlinkFrom b i fuel prev cur = some sh') : SameRecords sh sh' := by
  induction fuel generalizing prev cur with
  | zero => cases h
  | succ fuel ih =>
    rw [SlabShard.unlinkFrom] at h
    split at h
    · cases h
      exact ⟨rfl, rfl, rfl⟩
    · obtain ⟨after, -, h⟩ := Option.bind_eq_some_iff.mp h
      split at h
      · split at h
        · obtain ⟨buckets, -, h⟩ := Option.bind_eq_some_iff.mp h
          obtain ⟨next, -, h⟩ := Option.bind_eq_some_iff.mp h
          cases h
          exact ⟨rfl, rfl, rfl⟩
        · obtain ⟨next, -, h⟩ := Option.bind_eq_some_iff.mp h
          obtain ⟨next, -, h⟩ := Option.bind_eq_some_iff.mp h
          cases h
          exact ⟨rfl, rfl, rfl⟩
      · exact ih h

theorem unlink_same {hash : FileHash} (h : sh.unlink i hash = some sh') : SameRecords sh sh' := by
  obtain ⟨head, -, h⟩ := Option.bind_eq_some_iff.mp h
  exact unlinkFrom_same h

theorem relink_same {k n : Nat} (h : SlabShard.relink k n sh = some sh') :
    SameRecords sh sh' := by
  induction n generalizing k sh with
  | zero =>
    cases h
    exact ⟨rfl, rfl, rfl⟩
  | succ n ih =>
    obtain ⟨r, -, h⟩ := Option.bind_eq_some_iff.mp h
    split at h
    · obtain ⟨linked, hl, h⟩ := Option.bind_eq_some_iff.mp h
      exact (link_same hl).trans (ih h)
    · obtain ⟨next, -, h⟩ := Option.bind_eq_some_iff.mp h
      have hs := ih h
      exact ⟨hs.records, hs.free, hs.media⟩

/-- The slots that wait for reuse are different, and all dead. -/
structure Queue (sh : SlabShard) : Prop where
  nodup : (sh.free.map Prod.fst).Nodup
  lt : ∀ i ∈ sh.free.map Prod.fst, i.toNat < sh.records.length
  dead : ∀ i ∈ sh.free.map Prod.fst, ¬ Alive sh i

theorem queue_new : Queue .new := ⟨List.nodup_nil, by simp [SlabShard.new], by simp [SlabShard.new]⟩

theorem pushAndLink_same {r : FileRecord} (h : sh.pushAndLink r = some (sh', i)) :
    sh'.records = sh.records ++ [r] ∧ sh'.free = sh.free := by
  rw [SlabShard.pushAndLink] at h
  split at h
  · obtain ⟨grown, hg, h⟩ := Option.bind_eq_some_iff.mp h
    cases h
    have hs := relink_same hg
    exact ⟨hs.records, hs.free⟩
  · obtain ⟨linked, hl, h⟩ := Option.bind_eq_some_iff.mp h
    cases h
    have hs := link_same hl
    exact ⟨hs.records, hs.free⟩

/-- An insertion took the oldest dead slot, or left the queue and every slot alone. -/
inductive Taken (sh : SlabShard) (now quarantine : UInt32) (sh' : SlabShard) : Prop
  | oldest (i freedAt : UInt32) (rest : List (UInt32 × UInt32)) (h : sh.free = (i, freedAt) :: rest)
    (age : quarantine ≤ now - freedAt) (free : sh'.free = rest)
    (alive : ∀ j, Alive sh' j ↔ j = i ∨ Alive sh j)
  | fresh (young : ¬ Reusable sh now quarantine) (free : sh'.free = sh.free)
    (alive : ∀ j, j.toNat < sh.records.length → (Alive sh' j ↔ Alive sh j))

theorem insertRecord_taken (hq : Queue sh) {r : FileRecord} (ha : r.alive = true)
    {now quarantine : UInt32} (h : sh.insertRecord r now quarantine = some (sh', i)) :
    Queue sh' ∧ Taken sh now quarantine sh' := by
  have hpush : ¬ Reusable sh now quarantine → sh.pushAndLink r = some (sh', i) →
      Queue sh' ∧ Taken sh now quarantine sh' := by
    intro hnr h
    obtain ⟨hr, hf⟩ := pushAndLink_same h
    have halive : ∀ j, j.toNat < sh.records.length → (Alive sh' j ↔ Alive sh j) := by
      intro j hj
      simp only [Alive, LiveAt, hr, List.getElem?_append_left hj]
    refine ⟨⟨by rw [hf]; exact hq.nodup, fun j hj => ?_, fun j hj => ?_⟩, .fresh hnr hf halive⟩
    · rw [hf] at hj
      rw [hr, List.length_append]
      exact Nat.lt_add_right _ (hq.lt j hj)
    · rw [hf] at hj
      rw [halive j (hq.lt j hj)]
      exact hq.dead j hj
  rw [SlabShard.insertRecord] at h
  cases hf : sh.free with
  | nil =>
    rw [hf] at h
    have hempty : ¬ Reusable sh now quarantine := by
      rintro ⟨_, _, _, hr, _⟩
      rw [hf] at hr
      cases hr
    exact hpush hempty h
  | cons e rest =>
    obtain ⟨k, freedAt⟩ := e
    rw [hf] at h
    by_cases hage : quarantine ≤ now - freedAt
    · simp only [if_pos hage] at h
      obtain ⟨old, -, h⟩ := Option.bind_eq_some_iff.mp h
      obtain ⟨next, -, h⟩ := Option.bind_eq_some_iff.mp h
      obtain ⟨linked, hl, h⟩ := Option.bind_eq_some_iff.mp h
      cases h
      have hs := link_same hl
      have hnd := hq.nodup
      rw [hf, List.map_cons, List.nodup_cons] at hnd
      have hlt : i.toNat < sh.records.length := hq.lt i (by simp [hf])
      have halive : ∀ j, Alive sh' j ↔ j = i ∨ Alive sh j := by
        intro j
        rw [alive_of_same hs]
        by_cases hj : j = i
        · subst hj
          simp [Alive, LiveAt, hlt, ha]
        · have hne : i.toNat ≠ j.toNat := fun he => hj (UInt32.toNat_inj.mp he).symm
          simp [Alive, LiveAt, List.getElem?_set_ne hne, hj]
      have hfree : sh'.free = rest := hs.free
      have hrest : ∀ j ∈ rest.map Prod.fst, j ∈ sh.free.map Prod.fst := by
        intro j hj
        rw [hf, List.map_cons]
        exact List.mem_cons_of_mem _ hj
      refine ⟨⟨by rw [hfree]; exact hnd.2, fun j hj => ?_, fun j hj => ?_⟩,
        .oldest i freedAt rest hf hage hfree halive⟩
      · rw [hfree] at hj
        rw [hs.records, List.length_set]
        exact hq.lt j (hrest j hj)
      · rw [hfree] at hj
        rw [halive, not_or]
        exact ⟨fun he => hnd.1 (he ▸ hj), hq.dead j (hrest j hj)⟩
    · simp only [if_neg hage] at h
      have hyoung : ¬ Reusable sh now quarantine := by
        rintro ⟨j, g, rest', hr, hjage⟩
        rw [hf] at hr
        cases hr
        exact hage hjage
      exact hpush hyoung h

theorem tombstone_queue (hq : Queue sh) {now : UInt32} {cond : FileRecord → Bool}
    {name : Option Str} (h : sh.tombstone now i cond = some (sh', name)) :
    Queue sh' ∧ ((name = none ∧ sh' = sh) ∨
      (name.isSome = true ∧ Alive sh i ∧ sh'.free = sh.free ++ [(i, now)] ∧
        ∀ j, Alive sh' j ↔ j ≠ i ∧ Alive sh j)) := by
  rw [SlabShard.tombstone] at h
  cases hr : sh.records[i.toNat]? with
  | none =>
    rw [hr] at h
    cases h
    exact ⟨hq, Or.inl ⟨rfl, rfl⟩⟩
  | some r =>
    simp only [hr] at h
    split at h
    · rename_i hc
      obtain ⟨unlinked, hu, h⟩ := Option.bind_eq_some_iff.mp h
      have hs := unlink_same hu
      have hra : r.alive = true := (Bool.and_eq_true_iff.mp hc).1
      have hai : Alive sh i := ⟨r, hr, hra⟩
      have hlt := (List.getElem?_eq_some_iff.mp hr).1
      simp only [Option.pure_def, Option.some.injEq, Prod.mk.injEq] at h
      obtain ⟨rfl, rfl⟩ := h
      have hfree : unlinked.free ++ [(i, now)] = sh.free ++ [(i, now)] := by rw [hs.free]
      set dead : FileRecord := { r with fname := none, sources := [] } with hdead
      have halive : ∀ j, Alive { unlinked with
          media := Function.update unlinked.media i none
          records := unlinked.records.set i.toNat dead
          free := unlinked.free ++ [(i, now)] } j ↔ j ≠ i ∧ Alive sh j := by
        intro j
        by_cases hj : j = i
        · subst hj
          simp [Alive, LiveAt, hs.records, hlt, hdead, FileRecord.alive]
        · have hne : i.toNat ≠ j.toNat := fun he => hj (UInt32.toNat_inj.mp he).symm
          simp [Alive, LiveAt, hs.records, List.getElem?_set_ne hne, hj]
      refine ⟨⟨?_, fun j hj => ?_, fun j hj => ?_⟩, Or.inr ⟨hra, hai, hfree, halive⟩⟩
      · simp only [hfree, List.map_append, List.map_singleton]
        exact List.nodup_append.mpr ⟨hq.nodup, List.nodup_singleton i, fun a ha b hb he =>
          hq.dead a ha (by rw [he, List.mem_singleton.mp hb]; exact hai)⟩
      · simp only [hfree, List.map_append, List.map_singleton, List.mem_append,
          List.mem_singleton] at hj
        simp only [List.length_set, hs.records]
        rcases hj with hj | rfl
        · exact hq.lt j hj
        · exact hlt
      · simp only [hfree, List.map_append, List.map_singleton, List.mem_append,
          List.mem_singleton] at hj
        rw [halive]
        rcases hj with hj | rfl
        · exact fun ha => hq.dead j hj ha.2
        · exact fun ha => ha.1 rfl
    · cases h
      exact ⟨hq, Or.inl ⟨rfl, rfl⟩⟩

end Ed2kServer.Slab.FreeQueue
