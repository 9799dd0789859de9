import Ed2kServer.Slab.HashIndex

namespace Ed2kServer.Slab.IdSpace

open Ed2kServer.Lib.Transition
open Ed2kServer.Slab.Record Ed2kServer.Slab.Shard Ed2kServer.Slab.Invariant
open Ed2kServer.Slab.ShardSpec Ed2kServer.Slab.Store Ed2kServer.Slab.StoreSpec
open Ed2kServer.Slab.HashIndex

/-- The `i`-th of a family of hashes that all go to shard 0. -/
def hashAt (i : Nat) : FileHash :=
  #v[0, 0, 0, 0, 0, 0, 0, 0, UInt8.ofNat i, UInt8.ofNat (i / 2 ^ 8), UInt8.ofNat (i / 2 ^ 16),
    UInt8.ofNat (i / 2 ^ 24), 0, 0, 0, 0]

def recordAt (i : Nat) : FileRecord := .new (hashAt i) 0 [] []

def insertAll (n : Nat) : List Event :=
  (List.range n).map (fun i => .insertSourceless 0 (hashAt i) 0 [])

theorem shardOfHash_hashAt (i : Nat) : shardOfHash (hashAt i) = 0 := rfl

theorem hashAt_injective {i j : Nat} (hi : i < 2 ^ 32) (hj : j < 2 ^ 32)
    (h : hashAt i = hashAt j) : i = j := by
  have hl := congrArg Vector.toList h
  simp only [hashAt, Vector.toList_mk, List.cons.injEq, and_true, true_and] at hl
  obtain ⟨h0, h1, h2, h3⟩ := hl
  have hb : ∀ a b : Nat, UInt8.ofNat a = UInt8.ofNat b → a % 256 = b % 256 := by
    intro a b hab
    have ht := congrArg UInt8.toNat hab
    simpa using ht
  have h0 := hb _ _ h0
  have h1 := hb _ _ h1
  have h2 := hb _ _ h2
  have h3 := hb _ _ h3
  omega

/-- Shard 0 holds the first `n` records, one after the other. -/
structure Filled (n : Nat) (s : FileSlab) : Prop where
  inv : ShardInv 0 (s.shards 0)
  live : ∀ i r, LiveAt (s.shards 0) i r ↔ i.toNat < n ∧ r = recordAt i.toNat
  length : (s.shards 0).records.length = n
  free : (s.shards 0).free = []

theorem filled_step {n : Nat} {s : FileSlab} (hn : n < 2 ^ 30) (h : Filled n s) :
    ∃ t, step s (.insertSourceless 0 (hashAt n) 0 []) = some t ∧ Filled (n + 1) t := by
  have hnew : ∀ i q, LiveAt (s.shards 0) i q → q.hash ≠ hashAt n := by
    intro i q hq he
    obtain ⟨hi, rfl⟩ := (h.live i q).mp hq
    have hin := hashAt_injective (by omega) (by omega) he
    omega
  obtain ⟨o, ho, hm⟩ := find_spec h.inv (hashAt n)
  obtain rfl : o = none := by
    cases o with
    | none => rfl
    | some i =>
      obtain ⟨q, hq, he⟩ := (hm i).mp rfl
      exact absurd he (hnew i q hq)
  have hroom : (s.shards 0).records.length < 2 ^ 30 ∨
      Reusable (s.shards 0) 0 s.quarantineSecs := Or.inl (by rw [h.length]; exact hn)
  have hr : shardOfHash (recordAt n).hash = 0 := rfl
  obtain ⟨sh, i, hrun, hinv, hins, hslot⟩ := insertRecord_spec h.inv rfl hr hnew hroom
  refine ⟨⟨Function.update s.shards 0 sh, s.live + 1, s.quarantineSecs⟩, ?_, ?_⟩
  · have hr : FileSlab.searchOrInsert s 0 (recordAt n) =
        some (⟨Function.update s.shards 0 sh, s.live + 1, s.quarantineSecs⟩, makeId 0 i, true) := by
      rw [FileSlab.searchOrInsert]
      change (SlabShard.find (s.shards 0) (hashAt n)).bind _ = _
      rw [ho]
      change ((s.shards 0).insertRecord (recordAt n) 0 s.quarantineSecs).bind _ = _
      rw [hrun]
      rfl
    rw [step, FileSlab.insertSourceless]
    change ((FileSlab.searchOrInsert s 0 (recordAt n)).map _).map _ = _
    rw [hr]
    rfl
  · cases hslot with
    | reused f rest hf => rw [h.free] at hf; cases hf
    | fresh he hold hfree hl =>
      rw [h.length] at he hl
      have hin : i.toNat = n := by
        rw [he, UInt32.toNat_ofNat']
        omega
      refine ⟨by simpa using hinv, fun j q => ?_, by simpa using hl, ?_⟩
      · simp only [Function.update_self]
        rw [hins.live, h.live]
        have hji : j = i ↔ j.toNat = n := by rw [← UInt32.toNat_inj, hin]
        rw [hji]
        constructor
        · rintro (⟨hj, rfl⟩ | ⟨hj, rfl⟩)
          · exact ⟨by omega, by rw [hj]⟩
          · exact ⟨by omega, rfl⟩
        · rintro ⟨hj, rfl⟩
          rcases Nat.lt_or_eq_of_le (Nat.le_of_lt_succ hj) with hlt | heq
          · exact Or.inr ⟨hlt, rfl⟩
          · exact Or.inl ⟨heq, by rw [heq]⟩
      · simpa [h.free] using hfree

theorem exec_insertAll (q : UInt32) {n : Nat} (hn : n ≤ 2 ^ 30) :
    ∃ s, exec step (.new q) (insertAll n) = some s ∧ Filled n s := by
  induction n with
  | zero =>
    refine ⟨.new q, rfl, (slabInv_new q).shard 0, fun i r => ?_, rfl, rfl⟩
    simp [LiveAt, FileSlab.new, SlabShard.new]
  | succ n ih =>
    obtain ⟨s, hrun, hs⟩ := ih (by omega)
    obtain ⟨t, ht, hf⟩ := filled_step (by omega) hs
    refine ⟨t, ?_, hf⟩
    rw [insertAll, List.range_succ, List.map_append, ← insertAll]
    exact exec_concat_eq_some.mpr ⟨s, hrun, ht⟩

/-- The record past the last slot an id can name answers to the id of the first. -/
theorem last_slot_aliases_first :
    ∃ s, exec step (.new SLOT_QUARANTINE_SECS) (insertAll (2 ^ 26 + 1)) = some s ∧
      s.idOf (hashAt (2 ^ 26)) = some (some 0) ∧ s.hashOf 0 = some (hashAt 0) ∧
      hashAt 0 ≠ hashAt (2 ^ 26) := by
  obtain ⟨n, hn⟩ : ∃ n, n = 2 ^ 26 := ⟨_, rfl⟩
  have hn30 : n + 1 ≤ 2 ^ 30 := by rw [hn]; decide
  rw [← hn]
  obtain ⟨s, hrun, hs⟩ := exec_insertAll SLOT_QUARANTINE_SECS hn30
  have hlast : (UInt32.ofNat n).toNat = n := by
    rw [UInt32.toNat_ofNat']
    omega
  refine ⟨s, hrun, ?_, ?_, fun he => ?_⟩
  · obtain ⟨o, ho, hm⟩ := find_spec hs.inv (hashAt n)
    obtain rfl : o = some (UInt32.ofNat n) := (hm _).mpr
      ⟨recordAt n, (hs.live _ _).mpr ⟨by omega, by rw [hlast]⟩, rfl⟩
    have hid : makeId 0 (UInt32.ofNat n) = 0 := by
      apply UInt32.toNat_inj.mp
      rw [makeId_toNat, hlast, hn]
      rfl
    rw [FileSlab.idOf, shardOfHash_hashAt, ho]
    change some (some (makeId 0 (UInt32.ofNat n))) = _
    rw [hid]
  · have h0 : s.get 0 = some (recordAt 0) :=
      get_eq_some.mpr ((hs.live 0 _).mpr ⟨Nat.succ_pos n, rfl⟩)
    rw [FileSlab.hashOf, h0]
    rfl
  · have h := hashAt_injective (by omega) (by omega) he
    omega

end Ed2kServer.Slab.IdSpace
