import Ed2kServer.Slab.ShardSpec
import Ed2kServer.Slab.Store

namespace Ed2kServer.Slab.StoreSpec

open Ed2kServer.Slab.Record Ed2kServer.Slab.Shard Ed2kServer.Slab.Chains
open Ed2kServer.Slab.Invariant Ed2kServer.Slab.ShardSpec Ed2kServer.Slab.Store

/-- The live records of a slab. -/
def liveNumber (s : FileSlab) : Nat := ∑ no, (s.shards no).records.countP FileRecord.alive

/-- Every shard keeps its invariant, and its slots have distinct ids. -/
structure SlabInv (s : FileSlab) : Prop where
  shard : ∀ no, ShardInv no (s.shards no)
  room : ∀ no, (s.shards no).records.length ≤ 2 ^ 26
  live : s.live = UInt32.ofNat (liveNumber s)

variable {s : FileSlab} {id : FileId} {r : FileRecord}

theorem get_eq_some : s.get id = some r ↔ LiveAt (s.shards (idShard id)) (idIndex id) r := by
  rw [FileSlab.get, Option.filter_eq_some_iff, LiveAt]

/-- The free queue accounts for every dead slot. -/
theorem dead_length {no : Fin SLAB_SHARDS} {sh : SlabShard} (h : ShardInv no sh) :
    sh.records.countP FileRecord.alive + sh.free.length = sh.records.length := by
  set alive : Nat → Bool := fun k => (sh.records[k]?).any FileRecord.alive with halive
  have hmap : sh.records.map FileRecord.alive = (List.range sh.records.length).map alive := by
    refine List.ext_getElem (by simp) (fun k h₁ h₂ => ?_)
    simp at h₁
    simp [halive, h₁]
  have hcount : sh.records.countP FileRecord.alive =
      (List.range sh.records.length).countP alive := by
    have hc := congrArg (List.countP id) hmap
    rwa [List.countP_map, List.countP_map] at hc
  have hdead : ∀ i : UInt32, Alive sh i ↔ alive i.toNat = true := by
    intro i
    simp [Alive, LiveAt, halive, Option.any_eq_true]
  have hperm : ((sh.free.map Prod.fst).map UInt32.toNat).Perm
      ((List.range sh.records.length).filter (fun k => ¬ alive k)) := by
    refine (List.perm_ext_iff_of_nodup (h.free_nodup.map fun _ _ => UInt32.toNat_inj.mp)
      (List.nodup_range.filter _)).mpr (fun k => ?_)
    rw [List.mem_map, List.mem_filter, List.mem_range, decide_eq_true_iff]
    constructor
    · rintro ⟨i, hi, rfl⟩
      obtain ⟨hlt, hna⟩ := (h.mem_free i).mp hi
      exact ⟨hlt, mt (hdead i).mpr hna⟩
    · rintro ⟨hlt, hna⟩
      have hroom := h.shape.room
      have hk : (UInt32.ofNat k).toNat = k := by
        rw [UInt32.toNat_ofNat']
        omega
      refine ⟨UInt32.ofNat k, (h.mem_free _).mpr ⟨by rwa [hk], fun ha => hna ?_⟩, hk⟩
      rw [← hk]
      exact (hdead _).mp ha
  have hlen := hperm.length_eq
  rw [List.length_map, List.length_map, ← List.countP_eq_length_filter] at hlen
  have hsplit := List.length_eq_countP_add_countP alive (l := List.range sh.records.length)
  rw [List.length_range] at hsplit
  rw [hcount, hlen]
  exact hsplit.symm

theorem get_makeId {no : Fin SLAB_SHARDS} {i : UInt32} (hi : i.toNat < 2 ^ 26) :
    s.get (makeId no i) = some r ↔ LiveAt (s.shards no) i r := by
  rw [get_eq_some, idShard_makeId, idIndex_makeId no hi]

theorem LiveAt.lt {sh : SlabShard} {i : UInt32} (h : LiveAt sh i r) :
    i.toNat < sh.records.length := (List.getElem?_eq_some_iff.mp h.1).1

/-- A hash has the id of the live record that carries it. -/
theorem idOf_spec (h : SlabInv s) (hash : FileHash) :
    ∃ o, s.idOf hash = some o ∧ ∀ id, o = some id ↔ ∃ r, s.get id = some r ∧ r.hash = hash := by
  obtain ⟨o, ho, hm⟩ := find_spec (h.shard (shardOfHash hash)) hash
  refine ⟨o.map (makeId (shardOfHash hash)), by simp [FileSlab.idOf, ho], fun id => ?_⟩
  rw [Option.map_eq_some_iff]
  constructor
  · rintro ⟨i, hi, rfl⟩
    obtain ⟨r, hr, hh⟩ := (hm i).mp hi
    exact ⟨r, (get_makeId (Nat.lt_of_lt_of_le (LiveAt.lt hr) (h.room _))).mpr hr, hh⟩
  · rintro ⟨r, hr, rfl⟩
    have hlive := get_eq_some.mp hr
    have hno := (h.shard _).home _ r hlive
    rw [← hno] at hlive
    exact ⟨idIndex id, (hm _).mpr ⟨r, hlive, rfl⟩, by rw [hno, makeId_idShard_idIndex]⟩

theorem sum_update (f : Fin SLAB_SHARDS → SlabShard) (no : Fin SLAB_SHARDS) (sh : SlabShard)
    (g : SlabShard → Nat) :
    (∑ k, g (Function.update f no sh k)) + g (f no) = (∑ k, g (f k)) + g sh := by
  rw [← Finset.add_sum_erase _ _ (Finset.mem_univ no),
    ← Finset.add_sum_erase _ (fun k => g (f k)) (Finset.mem_univ no)]
  have he : ∑ k ∈ Finset.univ.erase no, g (Function.update f no sh k) =
      ∑ k ∈ Finset.univ.erase no, g (f k) :=
    Finset.sum_congr rfl (fun k hk => by rw [Function.update_of_ne (Finset.ne_of_mem_erase hk)])
  rw [he, Function.update_self]
  omega

/-- Live records of a shard after an insertion or a tombstone, seen through the whole slab. -/
theorem get_update {no : Fin SLAB_SHARDS} {i : UInt32} {sh : SlabShard} {v : Option FileRecord}
    {live : UInt32} (hi : i.toNat < 2 ^ 26)
    (hlive : ∀ j, j ≠ i → ∀ r, LiveAt sh j r ↔ LiveAt (s.shards no) j r)
    (hself : ∀ r, LiveAt sh i r ↔ v = some r) :
    FileSlab.get ⟨Function.update s.shards no sh, live, s.quarantineSecs⟩ =
      Function.update s.get (makeId no i) v := by
  funext id
  refine Option.ext (fun r => ?_)
  rw [get_eq_some]
  change LiveAt (Function.update s.shards no sh (idShard id)) (idIndex id) r ↔ _
  by_cases hno : idShard id = no
  · subst hno
    rw [Function.update_self]
    by_cases hid : idIndex id = i
    · have he : id = makeId (idShard id) i := by rw [← hid, makeId_idShard_idIndex]
      rw [hid, hself, ← he, Function.update_self]
    · have hne : id ≠ makeId (idShard id) i := fun he => hid (by rw [he, idIndex_makeId _ hi])
      rw [hlive _ hid, Function.update_of_ne hne, get_eq_some]
  · have hne : id ≠ makeId no i := fun he => hno (by rw [he, idShard_makeId])
    rw [Function.update_of_ne hno, Function.update_of_ne hne, get_eq_some]

/-- An insertion needs no slot past the last one an id can name. -/
def Room (s : FileSlab) (now : UInt32) (hash : FileHash) : Prop :=
  (s.shards (shardOfHash hash)).records.length < 2 ^ 26 ∨
    Reusable (s.shards (shardOfHash hash)) now s.quarantineSecs ∨
      ∃ id r, s.get id = some r ∧ r.hash = hash

theorem searchOrInsert_spec (h : SlabInv s) {now : UInt32} {r : FileRecord}
    (ha : r.alive = true) (hroom : Room s now r.hash) :
    ∃ s' id new, s.searchOrInsert now r = some (s', id, new) ∧ SlabInv s' ∧
      ((new = false ∧ s' = s ∧ ∃ q, s.get id = some q ∧ q.hash = r.hash) ∨
        (new = true ∧ (∀ j q, s.get j = some q → q.hash ≠ r.hash) ∧ s.get id = none ∧
          s'.get = Function.update s.get id (some r) ∧ idShard id = shardOfHash r.hash ∧
          Slot (s.shards (shardOfHash r.hash)) now s.quarantineSecs
            (s'.shards (shardOfHash r.hash)) (idIndex id) ∧
          ∀ no, no ≠ shardOfHash r.hash → s'.shards no = s.shards no)) := by
  set no := shardOfHash r.hash with hno
  have hsh := h.shard no
  obtain ⟨o, ho, hfind⟩ := find_spec hsh r.hash
  rw [FileSlab.searchOrInsert]
  simp only [← hno, ho, Option.bind_eq_bind, Option.bind_some]
  cases o with
  | some i =>
    obtain ⟨q, hq, hqh⟩ := (hfind i).mp rfl
    have hi : i.toNat < 2 ^ 26 := Nat.lt_of_lt_of_le (LiveAt.lt hq) (h.room no)
    exact ⟨s, makeId no i, false, rfl, h, Or.inl ⟨rfl, rfl, q, (get_makeId hi).mpr hq, hqh⟩⟩
  | none =>
    have hnew : ∀ j q, LiveAt (s.shards no) j q → q.hash ≠ r.hash := fun j q hq he =>
      absurd ((hfind j).mpr ⟨q, hq, he⟩) (by simp)
    have hnone : ∀ j q, s.get j = some q → q.hash ≠ r.hash := by
      intro j q hq he
      have hlive := get_eq_some.mp hq
      have hj := (h.shard _).home _ q hlive
      rw [he, ← hno] at hj
      exact hnew _ q (hj ▸ hlive) he
    have hroom' : (s.shards no).records.length < 2 ^ 26 ∨
        Reusable (s.shards no) now s.quarantineSecs := by
      rcases hroom with hlt | hre | ⟨id, q, hq, he⟩
      · exact Or.inl hlt
      · exact Or.inr hre
      · exact absurd he (hnone id q hq)
    obtain ⟨sh, i, hrun, hinv, hins, hslot⟩ := insertRecord_spec hsh ha rfl hnew
      (hroom'.imp_left (fun hlt => Nat.lt_trans hlt (by decide)))
    have hlen : sh.records.length ≤ 2 ^ 26 := by
      have hr := h.room no
      cases hslot with
      | reused f rest hf age hfree hl => omega
      | fresh he hold hfree hl =>
        have hlt := hroom'.resolve_right hold
        omega
    have hi : i.toNat < 2 ^ 26 := Nat.lt_of_lt_of_le hins.lt hlen
    have hdead : s.get (makeId no i) = none := by
      rw [Option.eq_none_iff_forall_ne_some]
      exact fun q hq => hins.dead ⟨q, (get_makeId hi).mp hq⟩
    have hget : FileSlab.get ⟨Function.update s.shards no sh, s.live + 1, s.quarantineSecs⟩ =
        Function.update s.get (makeId no i) (some r) := by
      refine get_update hi (fun j hj q => ?_) (fun q => ?_)
      · rw [hins.live]
        simp [hj]
      · rw [hins.live]
        have hq : ¬ LiveAt (s.shards no) i q := fun hq => hins.dead ⟨q, hq⟩
        simp [hq, eq_comm]
    refine ⟨_, makeId no i, true, by rw [hrun]; rfl, ⟨fun k => ?_, fun k => ?_, ?_⟩,
      Or.inr ⟨rfl, hnone, hdead, hget, idShard_makeId no i, ?_, ?_⟩⟩
    · by_cases hk : k = no
      · subst hk
        simpa using hinv
      · simpa [hk] using h.shard k
    · by_cases hk : k = no
      · subst hk
        simpa using hlen
      · simpa [hk] using h.room k
    · have hsum := sum_update s.shards no sh (fun sh => sh.records.countP FileRecord.alive)
      have hd := dead_length hsh
      have hd' := dead_length hinv
      have hone : sh.records.countP FileRecord.alive =
          (s.shards no).records.countP FileRecord.alive + 1 := by
        cases hslot with
        | reused f rest hf hage hfree hl =>
          rw [hf, List.length_cons] at hd
          rw [hfree, hl] at hd'
          omega
        | fresh he hold hfree hl =>
          rw [hfree, hl] at hd'
          omega
      have hnum : liveNumber ⟨Function.update s.shards no sh, s.live + 1, s.quarantineSecs⟩ =
          liveNumber s + 1 := by
        simp only [liveNumber]
        omega
      rw [hnum, h.live, UInt32.ofNat_add]
      rfl
    · rw [idIndex_makeId no hi]
      simpa using hslot
    · intro k hk
      simp [hk]

theorem tombstoneWhere_spec (h : SlabInv s) (now : UInt32) (id : FileId)
    (cond : FileRecord → Bool) :
    ∃ s' o, s.tombstoneWhere now id cond = some (s', o) ∧ SlabInv s' ∧
      ((o = none ∧ s' = s ∧ ∀ r, s.get id = some r → cond r = false) ∨
        ∃ r, s.get id = some r ∧ cond r = true ∧ o = r.fname ∧
          s'.get = Function.update s.get id none ∧
          (s'.shards (idShard id)).free = (s.shards (idShard id)).free ++ [(idIndex id, now)] ∧
          (s'.shards (idShard id)).records.length = (s.shards (idShard id)).records.length ∧
          ∀ no, no ≠ idShard id → s'.shards no = s.shards no) := by
  set no := idShard id with hno
  have hsh := h.shard no
  obtain ⟨sh, o, hrun, hinv, hout⟩ := tombstone_spec hsh now (idIndex id) cond
  rw [FileSlab.tombstoneWhere]
  simp only [← hno, hrun, Option.bind_eq_bind, Option.bind_some]
  rcases hout with ⟨rfl, rfl, hc⟩ | ⟨r, ht, hc, rfl⟩
  · exact ⟨s, none, rfl, h, Or.inl ⟨rfl, rfl, fun r hr => hc r (get_eq_some.mp hr)⟩⟩
  · have hwas : s.get id = some r := get_eq_some.mpr ht.was
    obtain ⟨name, hname⟩ := Option.isSome_iff_exists.mp ht.was.2
    have hi : (idIndex id).toNat < 2 ^ 26 := by
      rw [idIndex_toNat]
      exact Nat.mod_lt _ (by decide)
    have hget : FileSlab.get ⟨Function.update s.shards no sh, s.live - 1, s.quarantineSecs⟩ =
        Function.update s.get id none := by
      have hg : FileSlab.get ⟨Function.update s.shards no sh, s.live - 1, s.quarantineSecs⟩ =
          Function.update s.get (makeId no (idIndex id)) none :=
        get_update hi (fun j hj q => by rw [ht.live]; simp [hj])
        (fun q => by rw [ht.live]; simp)
      rwa [hno, makeId_idShard_idIndex] at hg
    simp only [hname]
    refine ⟨_, some name, rfl, ⟨fun k => ?_, fun k => ?_, ?_⟩,
      Or.inr ⟨r, hwas, hc, hname.symm, hget, ?_, ?_, ?_⟩⟩
    · by_cases hk : k = no
      · subst hk
        simpa using hinv
      · simpa [hk] using h.shard k
    · by_cases hk : k = no
      · subst hk
        simpa [ht.length] using h.room _
      · simpa [hk] using h.room k
    · have hsum := sum_update s.shards no sh (fun sh => sh.records.countP FileRecord.alive)
      have hd := dead_length hsh
      have hd' := dead_length hinv
      rw [ht.free, ht.length, List.length_append, List.length_singleton] at hd'
      have hnum : liveNumber s = liveNumber
          ⟨Function.update s.shards no sh, s.live - 1, s.quarantineSecs⟩ + 1 := by
        simp only [liveNumber]
        omega
      have hlive : s.live - 1 = UInt32.ofNat (liveNumber
          ⟨Function.update s.shards no sh, s.live - 1, s.quarantineSecs⟩) := by
        obtain ⟨n, hn⟩ : ∃ n, liveNumber
            ⟨Function.update s.shards no sh, s.live - 1, s.quarantineSecs⟩ = n := ⟨_, rfl⟩
        rw [hn] at hnum ⊢
        rw [h.live, hnum, UInt32.ofNat_add, UInt32.ofNat_one, UInt32.add_sub_cancel]
      exact hlive
    · simpa using ht.free
    · simpa using ht.length
    · intro k hk
      simp [hk]

theorem slabInv_new (quarantineSecs : UInt32) : SlabInv (.new quarantineSecs) where
  shard no := by
    have hdead : ∀ i, ¬ Alive .new i := by
      rintro i ⟨r, hr, -⟩
      cases hr
    change ShardInv no .new
    refine ⟨⟨rfl, by decide, Nat.zero_le _⟩, ?_, ?_, ?_, List.nodup_nil, ?_⟩
    · intro b head hb
      obtain rfl : head = NIL := (List.mem_replicate.mp (List.mem_of_getElem? hb)).2
      exact ⟨[], rfl, fun i => by simp [hdead]⟩
    · exact fun i r hr => absurd ⟨r, hr⟩ (hdead i)
    · exact fun i j r q hr => absurd ⟨r, hr⟩ (hdead i)
    · intro i
      simp [SlabShard.new]
  room no := Nat.zero_le _
  live := by simp [liveNumber, FileSlab.new, SlabShard.new]

/-- The first record of a slab. -/
theorem new_searchOrInsert (quarantineSecs now : UInt32) {r : FileRecord} (ha : r.alive = true) :
    ∃ s id, (FileSlab.new quarantineSecs).searchOrInsert now r = some (s, id, true) ∧ SlabInv s ∧
      s.get = Function.update (fun _ => none) id (some r) := by
  have hnone : (FileSlab.new quarantineSecs).get = fun _ => none := rfl
  have hroom : Room (.new quarantineSecs) now r.hash := Or.inl (Nat.zero_lt_succ _)
  obtain ⟨s, id, new, hrun, hs, ⟨-, -, q, hq, -⟩ | ⟨rfl, -, -, hget, -⟩⟩ :=
    searchOrInsert_spec (slabInv_new quarantineSecs) ha hroom
  · cases hq
  · exact ⟨s, id, hrun, hs, hnone ▸ hget⟩

end Ed2kServer.Slab.StoreSpec
