import Ed2kServer.Slab.Chains

namespace Ed2kServer.Slab.Invariant

open Ed2kServer.Lib.Intrusive Ed2kServer.Slab.Record Ed2kServer.Slab.Shard
open Ed2kServer.Slab.Chains

def LiveAt (sh : SlabShard) (i : UInt32) (r : FileRecord) : Prop :=
  sh.records[i.toNat]? = some r ∧ r.alive = true

def Alive (sh : SlabShard) (i : UInt32) : Prop := ∃ r, LiveAt sh i r

/-- The joint invariant of a shard's records, chains and free queue. -/
structure ShardInv (no : Fin SLAB_SHARDS) (sh : SlabShard) : Prop where
  shape : Shape sh
  linked : Linked sh (Alive sh)
  home : ∀ i r, LiveAt sh i r → shardOfHash r.hash = no
  unique : ∀ i j r s, LiveAt sh i r → LiveAt sh j s → r.hash = s.hash → i = j
  free_nodup : (sh.free.map Prod.fst).Nodup
  mem_free : ∀ i, i ∈ sh.free.map Prod.fst ↔ i.toNat < sh.records.length ∧ ¬ Alive sh i

variable {sh : SlabShard} {P : UInt32 → Prop} {i : UInt32}

theorem LiveAt.unique {r s : FileRecord} (hr : LiveAt sh i r) (hs : LiveAt sh i s) : r = s :=
  Option.some.inj (hr.1.symm.trans hs.1)

theorem liveAt_of_same {sh' : SlabShard} (h : SameRecords sh sh') (r : FileRecord) :
    LiveAt sh' i r ↔ LiveAt sh i r := by
  rw [LiveAt, LiveAt, h.records]

theorem alive_of_same {sh' : SlabShard} (h : SameRecords sh sh') : Alive sh' i ↔ Alive sh i := by
  simp only [Alive, liveAt_of_same h]

/-- A link off every chain may be anything. -/
theorem linked_set_next (h : Linked sh P) (hi : ¬ P i) (v : UInt32) :
    Linked { sh with next := sh.next.set i.toNat v } P := by
  intro b head hb
  obtain ⟨l, hl, hm⟩ := h b head hb
  exact ⟨l, hl.set_of_notMem (fun hil => hi ((hm i).mp hil).1), hm⟩

theorem relink_spec (sh : SlabShard) (k n : Nat) (hs : Shape sh) (hkn : k + n = sh.records.length)
    (hl : Linked sh (fun j => Alive sh j ∧ j.toNat < k)) :
    ∃ sh', SlabShard.relink k n sh = some sh' ∧ Shape sh' ∧ SameRecords sh sh' ∧
      Linked sh' (Alive sh') := by
  induction n generalizing sh k with
  | zero =>
    refine ⟨sh, rfl, hs, ⟨rfl, rfl, rfl⟩, hl.congr (fun j => ?_)⟩
    refine ⟨And.left, fun ha => ⟨ha, ?_⟩⟩
    obtain ⟨r, hr, -⟩ := ha
    have hlt := (List.getElem?_eq_some_iff.mp hr).1
    omega
  | succ n ih =>
    have hk : k < sh.records.length := by omega
    have hroom := hs.room
    have hki : (UInt32.ofNat k).toNat = k := by
      rw [UInt32.toNat_ofNat']
      omega
    obtain ⟨r, hr⟩ : ∃ r, sh.records[k]? = some r := ⟨_, List.getElem?_eq_getElem hk⟩
    have hri : sh.records[(UInt32.ofNat k).toNat]? = some r := by rw [hki, hr]
    have hnot : ¬ (Alive sh (UInt32.ofNat k) ∧ (UInt32.ofNat k).toNat < k) := by
      rw [hki]
      exact fun h => Nat.lt_irrefl k h.2
    have heq : ∀ j : UInt32, j.toNat = k → j = UInt32.ofNat k := fun j hj =>
      UInt32.toNat_inj.mp (hj.trans hki.symm)
    rw [SlabShard.relink]
    simp only [hr, Option.bind_eq_bind, Option.bind_some]
    by_cases ha : r.alive = true
    · rw [if_pos ha]
      obtain ⟨sh', hlink, hs', hsame, hl'⟩ := link_spec hs hl hnot hri
      obtain ⟨sh'', hrun, hs'', hsame', hl''⟩ := ih sh' (k + 1) hs' (by
        rw [hsame.records]
        omega) (hl'.congr (fun j => by
          rw [alive_of_same hsame]
          constructor
          · rintro (⟨hj, hlt⟩ | rfl)
            · exact ⟨hj, by omega⟩
            · exact ⟨⟨r, hri, ha⟩, by omega⟩
          · rintro ⟨hj, hlt⟩
            rcases Nat.lt_or_eq_of_le (Nat.le_of_lt_succ hlt) with h | h
            · exact Or.inl ⟨hj, h⟩
            · exact Or.inr (heq j h)))
      exact ⟨sh'', by rw [hlink]; exact hrun, hs'', hsame.trans hsame', hl''⟩
    · rw [if_neg ha, store_of_lt (by rw [hs.next_length]; exact hk)]
      have hdead : ¬ Alive sh (UInt32.ofNat k) := by
        rintro ⟨s, hsr, hsa⟩
        rw [Option.some.inj (hri.symm.trans hsr)] at ha
        exact ha hsa
      have hl' := linked_set_next hl hnot NIL
      rw [hki] at hl'
      have hl'' := hl'.congr (Q := fun j => Alive sh j ∧ j.toNat < k + 1) (fun j => by
        refine and_congr_right (fun hj => ⟨fun h => by omega, fun h => ?_⟩)
        rcases Nat.lt_or_eq_of_le (Nat.le_of_lt_succ h) with h | h
        · exact h
        · exact absurd (heq j h ▸ hj) hdead)
      obtain ⟨sh', hrun, hs', hsame, hl3⟩ := ih { sh with next := sh.next.set k NIL } (k + 1)
        ⟨by simpa using hs.next_length, hs.mask, hs.room⟩ (by simp; omega) hl''
      exact ⟨sh', hrun, hs', ⟨hsame.records, hsame.free, hsame.media⟩, hl3⟩

theorem growBuckets_spec (hn : sh.next.length = sh.records.length)
    (hroom : sh.records.length ≤ 2 ^ 30) (hb : sh.buckets.length ≤ 2 ^ 30) :
    ∃ sh', sh.growBuckets = some sh' ∧ Shape sh' ∧ SameRecords sh sh' ∧
      Linked sh' (Alive sh') := by
  set newLen := max (sh.buckets.length * 2) SLAB_SHARD_INIT_BUCKETS with hnew
  have hpos : 64 ≤ newLen := Nat.le_max_right _ _
  have hle : newLen ≤ 2 ^ 31 := by
    rw [hnew]
    exact Nat.max_le.mpr ⟨by omega, by decide⟩
  set cleared : SlabShard := { sh with
    buckets := List.replicate newLen NIL
    bucketMask := UInt32.ofNat (newLen - 1) } with hcleared
  have hempty : Linked cleared (fun j => Alive cleared j ∧ j.toNat < 0) := by
    intro b head hb
    obtain rfl : head = NIL := (List.mem_replicate.mp (List.mem_of_getElem? hb)).2
    exact ⟨[], rfl, by simp⟩
  have hshape : Shape cleared := by
    refine ⟨hn, ?_, hroom⟩
    simp only [hcleared, List.length_replicate, UInt32.toNat_ofNat']
    omega
  obtain ⟨sh', hrun, hs', hsame, hl⟩ := relink_spec cleared 0 sh.records.length hshape
    (Nat.zero_add _) hempty
  exact ⟨sh', hrun, hs', ⟨hsame.records, hsame.free, hsame.media⟩, hl⟩

end Ed2kServer.Slab.Invariant
