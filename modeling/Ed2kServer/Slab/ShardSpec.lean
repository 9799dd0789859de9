import Ed2kServer.Slab.Invariant

namespace Ed2kServer.Slab.ShardSpec

open Ed2kServer.Lib.Intrusive Ed2kServer.Slab.Record Ed2kServer.Slab.Shard
open Ed2kServer.Slab.Chains Ed2kServer.Slab.Invariant

variable {no : Fin SLAB_SHARDS} {sh : SlabShard} {i : UInt32}

theorem findFrom_spec {cur : UInt32} {l : List UInt32} (hch : Chain slots sh.next cur l)
    (hlive : ∀ j ∈ l, Alive sh j) (hash : FileHash) (fuel : Nat) (hf : l.length < fuel) :
    ∃ o, sh.findFrom hash fuel cur = some o ∧
      (∀ j, o = some j → ∃ r, LiveAt sh j r ∧ r.hash = hash) ∧
      (o = none → ∀ j ∈ l, ∀ r, LiveAt sh j r → r.hash ≠ hash) := by
  induction l generalizing cur fuel with
  | nil =>
    obtain ⟨fuel, rfl⟩ := Nat.exists_eq_add_of_le' (show 1 ≤ fuel by omega)
    obtain rfl : cur = NIL := hch
    exact ⟨none, by simp [SlabShard.findFrom], by simp, by simp⟩
  | cons j l ih =>
    obtain ⟨fuel, rfl⟩ := Nat.exists_eq_add_of_le' (show 1 ≤ fuel by omega)
    obtain ⟨rfl, hne, n, hn, hl⟩ := hch
    change sh.next[cur.toNat]? = some n at hn
    obtain ⟨r, hr, ha⟩ := hlive cur (by simp)
    have hnil : cur ≠ NIL := hne
    rw [SlabShard.findFrom, if_neg hnil]
    simp only [hr, hn, ha, Option.bind_eq_bind, Option.bind_some, Bool.true_and, beq_iff_eq]
    by_cases hh : r.hash = hash
    · rw [if_pos hh]
      refine ⟨some cur, rfl, fun j hj => ?_, by simp⟩
      obtain rfl : cur = j := Option.some.inj hj
      exact ⟨r, ⟨hr, ha⟩, hh⟩
    · rw [if_neg hh]
      obtain ⟨o, ho, hsome, hnone⟩ := ih hl (fun j hj => hlive j (List.mem_cons_of_mem _ hj))
        fuel (by simp at hf; omega)
      refine ⟨o, ho, hsome, fun h j hj s hs => ?_⟩
      rcases List.mem_cons.mp hj with rfl | hj
      · rw [← hs.unique ⟨hr, ha⟩] at hh
        exact hh
      · exact hnone h j hj s hs

/-- A lookup returns, with the slot of the live record of that hash if there is one. -/
theorem find_spec (h : ShardInv no sh) (hash : FileHash) :
    ∃ o, sh.find hash = some o ∧ ∀ j, o = some j ↔ ∃ r, LiveAt sh j r ∧ r.hash = hash := by
  obtain ⟨head, hhead⟩ : ∃ head, sh.buckets[bucketOf (hashU64 hash) sh.bucketMask]? = some head :=
    ⟨_, List.getElem?_eq_getElem (h.shape.bucket_lt hash)⟩
  obtain ⟨l, hch, hm⟩ := h.linked _ head hhead
  obtain ⟨o, ho, hsome, hnone⟩ := findFrom_spec hch (fun j hj => ((hm j).mp hj).1) hash
    (sh.next.length + 1) (Nat.lt_succ_of_le hch.length_le)
  refine ⟨o, by simp [SlabShard.find, hhead, ho], fun j => ⟨hsome j, ?_⟩⟩
  rintro ⟨r, hr, rfl⟩
  cases o with
  | none => exact absurd rfl (hnone rfl j ((hm j).mpr ⟨⟨r, hr⟩, r, hr.1, rfl⟩) r hr)
  | some k =>
    obtain ⟨s, hs, hsr⟩ := hsome k rfl
    rw [h.unique k j s r hs hr hsr]

/-- The live records after a new one has been put into slot `i`. -/
structure Inserted (sh : SlabShard) (r : FileRecord) (sh' : SlabShard) (i : UInt32) : Prop where
  dead : ¬ Alive sh i
  live : ∀ j s, LiveAt sh' j s ↔ (j = i ∧ s = r) ∨ LiveAt sh j s
  lt : i.toNat < sh'.records.length

theorem Inserted.alive_iff {r : FileRecord} {sh' : SlabShard} (h : Inserted sh r sh' i)
    (j : UInt32) : Alive sh' j ↔ j = i ∨ Alive sh j := by
  simp only [Alive, h.live]
  constructor
  · rintro ⟨s, ⟨rfl, -⟩ | hs⟩
    · exact Or.inl rfl
    · exact Or.inr ⟨s, hs⟩
  · rintro (rfl | ⟨s, hs⟩)
    · exact ⟨r, Or.inl ⟨rfl, rfl⟩⟩
    · exact ⟨s, Or.inr hs⟩

theorem inv_of_inserted {r : FileRecord} {sh' : SlabShard} (h : ShardInv no sh)
    (hi : Inserted sh r sh' i) (hhome : shardOfHash r.hash = no)
    (hnew : ∀ j s, LiveAt sh j s → s.hash ≠ r.hash) (hs : Shape sh')
    (hl : Linked sh' (Alive sh')) (hnd : (sh'.free.map Prod.fst).Nodup)
    (hfree : ∀ j, j ∈ sh'.free.map Prod.fst ↔
      j.toNat < sh'.records.length ∧ j ≠ i ∧ ¬ Alive sh j) : ShardInv no sh' where
  shape := hs
  linked := hl
  home j s hj := by
    rcases (hi.live j s).mp hj with ⟨-, rfl⟩ | hj
    · exact hhome
    · exact h.home j s hj
  unique j k s t hj hk he := by
    rcases (hi.live j s).mp hj with ⟨rfl, rfl⟩ | hj
    · rcases (hi.live k t).mp hk with ⟨rfl, rfl⟩ | hk
      · rfl
      · exact absurd he.symm (hnew k t hk)
    · rcases (hi.live k t).mp hk with ⟨rfl, rfl⟩ | hk
      · exact absurd he (hnew j s hj)
      · exact h.unique j k s t hj hk he
  free_nodup := hnd
  mem_free j := by rw [hfree, hi.alive_iff, not_or]

/-- The record of a slot off every chain may be anything. -/
theorem linked_set_record {P : UInt32 → Prop} (h : Linked sh P) (hi : ¬ P i) (r : FileRecord) :
    Linked { sh with records := sh.records.set i.toNat r } P := by
  intro b head hb
  obtain ⟨l, hl, hm⟩ := h b head hb
  refine ⟨l, hl, fun j => ?_⟩
  rw [hm]
  refine and_congr_right (fun hj => ?_)
  have hji : i.toNat ≠ j.toNat := fun he => hi (UInt32.toNat_inj.mp he ▸ hj)
  simp only [InBucket, List.getElem?_set_ne hji]

theorem pushAndLink_spec (h : ShardInv no sh) {r : FileRecord} (ha : r.alive = true)
    (hhome : shardOfHash r.hash = no) (hnew : ∀ j s, LiveAt sh j s → s.hash ≠ r.hash)
    (hroom : sh.records.length < 2 ^ 30) :
    ∃ sh', sh.pushAndLink r = some (sh', UInt32.ofNat sh.records.length) ∧ ShardInv no sh' ∧
      Inserted sh r sh' (UInt32.ofNat sh.records.length) ∧ sh'.free = sh.free ∧
      sh'.records.length = sh.records.length + 1 := by
  set k := UInt32.ofNat sh.records.length with hk
  have hkn : k.toNat = sh.records.length := by
    rw [hk, UInt32.toNat_ofNat']
    omega
  set pushed : SlabShard := { sh with records := sh.records ++ [r], next := sh.next ++ [NIL] }
    with hpushed
  have hlive : ∀ j s, LiveAt pushed j s ↔ (j = k ∧ s = r) ∨ LiveAt sh j s := by
    intro j s
    simp only [LiveAt, hpushed]
    rcases Nat.lt_trichotomy j.toNat sh.records.length with hj | hj | hj
    · rw [List.getElem?_append_left hj]
      have hjk : j ≠ k := fun he => by rw [he, hkn] at hj; omega
      simp [hjk]
    · obtain rfl : j = k := UInt32.toNat_inj.mp (hj.trans hkn.symm)
      rw [hj, List.getElem?_concat_length, List.getElem?_eq_none (Nat.le_refl _)]
      simp only [Option.some.injEq, true_and, reduceCtorEq, false_and, or_false]
      exact ⟨fun hs => hs.1.symm, fun hs => ⟨hs.symm, hs ▸ ha⟩⟩
    · have hjk : j ≠ k := fun he => by rw [he, hkn] at hj; omega
      rw [List.getElem?_eq_none (by simp; omega), List.getElem?_eq_none (by omega)]
      simp [hjk]
  have hdead : ¬ Alive sh k := by
    rintro ⟨s, hs, -⟩
    have hlt := (List.getElem?_eq_some_iff.mp hs).1
    omega
  have hshape : Shape pushed := by
    refine ⟨by simp [hpushed, h.shape.next_length], h.shape.mask, ?_⟩
    simp only [hpushed, List.length_append, List.length_singleton]
    omega
  have hfree : ∀ j, j ∈ sh.free.map Prod.fst ↔
      j.toNat < sh.records.length + 1 ∧ j ≠ k ∧ ¬ Alive sh j := by
    intro j
    rw [h.mem_free]
    have hjk : j = k ↔ j.toNat = sh.records.length := by rw [← UInt32.toNat_inj, hkn]
    rw [ne_eq, hjk]
    constructor
    · exact fun hj => ⟨by omega, by omega, hj.2⟩
    · exact fun hj => ⟨by omega, hj.2.2⟩
  have hfinish : ∀ sh', SameRecords pushed sh' → Shape sh' → Linked sh' (Alive sh') →
      ShardInv no sh' ∧ Inserted sh r sh' k ∧ sh'.free = sh.free ∧
        sh'.records.length = sh.records.length + 1 := by
    intro sh' hsame hs' hl'
    have hlen : sh'.records.length = sh.records.length + 1 := by
      rw [hsame.records]
      simp [hpushed]
    have hins : Inserted sh r sh' k :=
      ⟨hdead, fun j s => by rw [liveAt_of_same hsame, hlive], by omega⟩
    refine ⟨inv_of_inserted h hins hhome hnew hs' hl' ?_ ?_, hins, hsame.free, hlen⟩
    · rw [hsame.free]
      exact h.free_nodup
    · rw [hsame.free, hlen]
      exact hfree
  have hpush : Linked pushed (Alive sh) := by
    intro b head hb
    obtain ⟨l, hl, hm⟩ := h.linked b head hb
    refine ⟨l, hl.append_one, fun j => ?_⟩
    rw [hm]
    refine and_congr_right (fun hj => ?_)
    obtain ⟨s, hs, -⟩ := hj
    simp only [InBucket, hpushed,
      List.getElem?_append_left (List.getElem?_eq_some_iff.mp hs).1]
  have hrk : pushed.records[k.toNat]? = some r := by
    rw [hkn]
    simp [hpushed]
  by_cases hgrow : pushed.buckets.length < pushed.records.length
  · obtain ⟨sh', hrun, hs', hsame, hl'⟩ := growBuckets_spec hshape.next_length hshape.room
      (Nat.le_trans (Nat.le_of_lt hgrow) hshape.room)
    refine ⟨sh', ?_, hfinish sh' hsame hs' hl'⟩
    rw [SlabShard.pushAndLink, ← hpushed, if_pos hgrow, hrun]
    rfl
  · obtain ⟨sh', hrun, hs', hsame, hl'⟩ := link_spec hshape hpush hdead hrk
    have hl'' : Linked sh' (Alive sh') := hl'.congr (fun j => by
      rw [alive_of_same hsame]
      simp only [Alive, hlive]
      constructor
      · rintro (⟨s, hs⟩ | rfl)
        · exact ⟨s, Or.inr hs⟩
        · exact ⟨r, Or.inl ⟨rfl, rfl⟩⟩
      · rintro ⟨s, ⟨rfl, -⟩ | hs⟩
        · exact Or.inr rfl
        · exact Or.inl ⟨s, hs⟩)
    refine ⟨sh', ?_, hfinish sh' hsame hs' hl''⟩
    rw [SlabShard.pushAndLink, ← hpushed, if_neg hgrow, ← hk, hrun]
    rfl

/-- The oldest dead slot has reached the quarantine's age. -/
def Reusable (sh : SlabShard) (now quarantine : UInt32) : Prop :=
  ∃ i freedAt rest, sh.free = (i, freedAt) :: rest ∧ quarantine ≤ now - freedAt

/-- Where a new record went: the oldest dead slot, old enough, or one of its own. -/
inductive Slot (sh : SlabShard) (now quarantine : UInt32) (sh' : SlabShard) (i : UInt32) : Prop
  | reused (freedAt : UInt32) (rest : List (UInt32 × UInt32)) (h : sh.free = (i, freedAt) :: rest)
    (age : quarantine ≤ now - freedAt) (free : sh'.free = rest)
    (length : sh'.records.length = sh.records.length)
  | fresh (h : i = UInt32.ofNat sh.records.length) (young : ¬ Reusable sh now quarantine)
    (free : sh'.free = sh.free) (length : sh'.records.length = sh.records.length + 1)

theorem insertRecord_spec (h : ShardInv no sh) {r : FileRecord} (ha : r.alive = true)
    (hhome : shardOfHash r.hash = no) (hnew : ∀ j s, LiveAt sh j s → s.hash ≠ r.hash)
    {now quarantine : UInt32}
    (hroom : sh.records.length < 2 ^ 30 ∨ Reusable sh now quarantine) :
    ∃ sh' i, sh.insertRecord r now quarantine = some (sh', i) ∧ ShardInv no sh' ∧
      Inserted sh r sh' i ∧ Slot sh now quarantine sh' i := by
  have hpush : ¬ Reusable sh now quarantine → ∃ sh' i, sh.pushAndLink r = some (sh', i) ∧
      ShardInv no sh' ∧ Inserted sh r sh' i ∧ Slot sh now quarantine sh' i := by
    intro hnr
    obtain ⟨sh', hrun, hinv, hins, hfree, hlen⟩ :=
      pushAndLink_spec h ha hhome hnew (hroom.resolve_right hnr)
    exact ⟨sh', _, hrun, hinv, hins, .fresh rfl hnr hfree hlen⟩
  rw [SlabShard.insertRecord]
  cases hf : sh.free with
  | nil =>
    have hempty : ¬ Reusable sh now quarantine := by
      rintro ⟨_, _, _, hr, _⟩
      rw [hf] at hr
      cases hr
    exact hpush hempty
  | cons e rest =>
    obtain ⟨i, f⟩ := e
    by_cases hage : quarantine ≤ now - f
    · simp only [if_pos hage]
      have hfree := h.mem_free
      have hnd := h.free_nodup
      rw [hf, List.map_cons, List.nodup_cons] at hnd
      obtain ⟨hlt, hdead⟩ := (hfree i).mp (by simp [hf])
      obtain ⟨d, hd⟩ : ∃ d, sh.records[i.toNat]? = some d := ⟨_, List.getElem?_eq_getElem hlt⟩
      set reused : SlabShard := { sh with
        records := sh.records.set i.toNat r
        next := sh.next.set i.toNat NIL
        free := rest
        media := Function.update sh.media i none } with hreused
      have hshape : Shape reused :=
        ⟨by simpa [hreused] using h.shape.next_length, h.shape.mask,
          by simpa [hreused] using h.shape.room⟩
      have hl : Linked reused (Alive sh) :=
        linked_set_record (linked_set_next h.linked hdead NIL) hdead r
      have hri : reused.records[i.toNat]? = some r := by simp [hreused, hlt]
      obtain ⟨sh', hrun, hs', hsame, hl'⟩ := link_spec hshape hl hdead hri
      have hlive : ∀ j s, LiveAt sh' j s ↔ (j = i ∧ s = r) ∨ LiveAt sh j s := by
        intro j s
        rw [liveAt_of_same hsame]
        by_cases hj : j = i
        · subst hj
          have hns : ¬ LiveAt sh j s := fun hs => hdead ⟨s, hs⟩
          simp only [LiveAt] at hns ⊢
          rw [hri]
          simp only [Option.some.injEq, true_and, hns, or_false]
          exact ⟨fun hs => hs.1.symm, fun hs => ⟨hs.symm, hs ▸ ha⟩⟩
        · have hne : i.toNat ≠ j.toNat := fun he => hj (UInt32.toNat_inj.mp he).symm
          simp [LiveAt, hreused, List.getElem?_set_ne hne, hj]
      have hlen : sh'.records.length = sh.records.length := by
        rw [hsame.records]
        simp [hreused]
      have hins : Inserted sh r sh' i := ⟨hdead, hlive, by rwa [hlen]⟩
      refine ⟨sh', i, ?_, inv_of_inserted h hins hhome hnew hs' (hl'.congr (fun j => ?_)) ?_ ?_,
        hins, .reused f rest hf hage hsame.free hlen⟩
      · simp [hd, store_of_lt (h.shape.slot_lt hd), ← hreused, hrun]
      · rw [hins.alive_iff, or_comm]
      · rw [hsame.free]
        exact hnd.2
      · intro j
        have hj := hfree j
        rw [hf, List.map_cons, List.mem_cons] at hj
        rw [hsame.free, hlen]
        constructor
        · intro hm
          have hji : j ≠ i := fun he => hnd.1 (he ▸ hm)
          exact ⟨(hj.mp (Or.inr hm)).1, hji, (hj.mp (Or.inr hm)).2⟩
        · rintro ⟨hjl, hji, hjd⟩
          exact (hj.mpr ⟨hjl, hjd⟩).resolve_left hji
    · simp only [if_neg hage]
      have hyoung : ¬ Reusable sh now quarantine := by
        rintro ⟨j, g, rest', hr, hjage⟩
        rw [hf] at hr
        cases hr
        exact hage hjage
      exact hpush hyoung

/-- The live records after slot `i` has been marked dead. -/
structure Tombstoned (sh : SlabShard) (now : UInt32) (sh' : SlabShard) (i : UInt32)
    (r : FileRecord) : Prop where
  was : LiveAt sh i r
  live : ∀ j s, LiveAt sh' j s ↔ j ≠ i ∧ LiveAt sh j s
  free : sh'.free = sh.free ++ [(i, now)]
  length : sh'.records.length = sh.records.length

theorem tombstone_spec (h : ShardInv no sh) (now i : UInt32) (cond : FileRecord → Bool) :
    ∃ sh' o, sh.tombstone now i cond = some (sh', o) ∧ ShardInv no sh' ∧
      ((o = none ∧ sh' = sh ∧ ∀ r, LiveAt sh i r → cond r = false) ∨
        ∃ r, Tombstoned sh now sh' i r ∧ cond r = true ∧ o = r.fname) := by
  rw [SlabShard.tombstone]
  cases hr : sh.records[i.toNat]? with
  | none =>
    refine ⟨sh, none, rfl, h, Or.inl ⟨rfl, rfl, fun r hlive => ?_⟩⟩
    rw [LiveAt, hr] at hlive
    cases hlive.1
  | some r =>
    by_cases hc : (r.alive && cond r) = true
    · obtain ⟨ha, hcond⟩ := Bool.and_eq_true_iff.mp hc
      have hwas : LiveAt sh i r := ⟨hr, ha⟩
      obtain ⟨sh', hrun, hs', hsame, hl'⟩ := unlink_spec h.shape h.linked ⟨r, hwas⟩ hr
      set dead : FileRecord := { r with fname := none, sources := [] } with hdead
      set out : SlabShard := { sh' with
        media := Function.update sh'.media i none
        records := sh'.records.set i.toNat dead
        free := sh'.free ++ [(i, now)] } with hout
      have hlive : ∀ j s, LiveAt out j s ↔ j ≠ i ∧ LiveAt sh j s := by
        intro j s
        by_cases hj : j = i
        · subst hj
          have hlt := (List.getElem?_eq_some_iff.mp hr).1
          simp only [LiveAt, hout, hsame.records, List.getElem?_set_self hlt]
          simp only [Option.some.injEq, ne_eq, not_true_eq_false, false_and, iff_false]
          rintro ⟨rfl, hs⟩
          cases hs
        · have hne : i.toNat ≠ j.toNat := fun he => hj (UInt32.toNat_inj.mp he).symm
          simp [LiveAt, hout, hsame.records, List.getElem?_set_ne hne, hj]
      have hlen : out.records.length = sh.records.length := by simp [hout, hsame.records]
      have hfree : out.free = sh.free ++ [(i, now)] := by simp [hout, hsame.free]
      have hal : ∀ j, Alive out j ↔ Alive sh j ∧ j ≠ i := by
        intro j
        simp only [Alive, hlive, exists_and_left, and_comm]
      have hif : i ∉ sh.free.map Prod.fst := fun hm => ((h.mem_free i).mp hm).2 ⟨r, hwas⟩
      refine ⟨out, r.fname, by simp [hc, hrun, hout, hdead], ⟨?_, ?_, ?_, ?_, ?_, ?_⟩,
        Or.inr ⟨r, ⟨hwas, hlive, hfree, hlen⟩, hcond, rfl⟩⟩
      · exact ⟨by simpa [hout] using hs'.next_length, hs'.mask, by simpa [hout] using hs'.room⟩
      · refine (linked_set_record hl' (fun hi => hi.2 rfl) dead).congr (fun j => ?_)
        rw [hal]
      · exact fun j s hj => h.home j s ((hlive j s).mp hj).2
      · exact fun j k s t hj hk =>
          h.unique j k s t ((hlive j s).mp hj).2 ((hlive k t).mp hk).2
      · rw [hfree, List.map_append, List.map_singleton]
        exact List.nodup_append.mpr ⟨h.free_nodup, List.nodup_singleton i, by
          intro a ha b hb
          rw [List.mem_singleton.mp hb]
          rintro rfl
          exact hif ha⟩
      · intro j
        rw [hfree, hlen, hal, List.map_append, List.mem_append, h.mem_free, List.map_singleton,
          List.mem_singleton]
        have hlt := (List.getElem?_eq_some_iff.mp hr).1
        by_cases hj : j = i
        · subst hj
          simp [hlt]
        · simp [hj]
    · refine ⟨sh, none, by simp [hc], h, Or.inl ⟨rfl, rfl, fun s hs => ?_⟩⟩
      obtain rfl : r = s := Option.some.inj (hr.symm.trans hs.1)
      simpa [hs.2] using hc

end Ed2kServer.Slab.ShardSpec
