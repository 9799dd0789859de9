import Ed2kServer.Keyword.ColdShard
import Ed2kServer.Keyword.PostingCodec

namespace Ed2kServer.Keyword.Cold

open Ed2kServer.Lib Ed2kServer.Keyword.ColdShard Ed2kServer.Keyword.PostingCodec

def SHARDS : Nat := 1024

/-- The shard a token hash lives in. -/
def shardOf (th : TokenHash) : Fin SHARDS := ⟨th.toNat % SHARDS, Nat.mod_lt _ (by decide)⟩

structure ColdStore where
  shards : Fin SHARDS → Shard

def ColdStore.empty : ColdStore := ⟨fun _ => .empty⟩

def ColdStore.get (c : ColdStore) (th : TokenHash) : Option (List UInt8) :=
  ((c.shards (shardOf th)).find th).map (c.shards (shardOf th)).blob

def ColdStore.containsKey (c : ColdStore) (th : TokenHash) : Bool :=
  ((c.shards (shardOf th)).find th).isSome

/-- The new shard swapped in under the write lock, and the keywords removed. -/
def ColdStore.rebuild (c : ColdStore) (shard : Fin SHARDS)
    (updates : List (TokenHash × Option (List UInt8))) : ColdStore × Nat :=
  (⟨Function.update c.shards shard ((c.shards shard).rebuild updates).1⟩,
    ((c.shards shard).rebuild updates).2)

theorem find_ofEntries {es : List (TokenHash × List UInt8)} (hs : SortedMap.Sorted es)
    (ha : (es.flatMap Prod.snd).length < 2 ^ 32) (th : TokenHash) :
    ((Shard.ofEntries es).find th).map (Shard.ofEntries es).blob = es.lookup th := by
  have hsorted : (Shard.ofEntries es).keys.SortedLT := by
    rw [ofEntries_keys]
    exact hs
  by_cases hm : th ∈ es.map Prod.fst
  · have hr := (Ascending.getElem?_rank_eq_some hsorted th).mpr (by rwa [ofEntries_keys])
    set i := Ascending.rank (Shard.ofEntries es).keys th
    rw [ofEntries_keys, List.getElem?_map, Option.map_eq_some_iff] at hr
    obtain ⟨⟨k, b⟩, hi, hk⟩ := hr
    obtain rfl : k = th := hk
    obtain ⟨hlt, hget⟩ := List.getElem?_eq_some_iff.mp hi
    have hsplit : es = es.take i ++ (k, b) :: es.drop (i + 1) := by
      rw [← hget, ← List.drop_eq_getElem_cons hlt, List.take_append_drop]
    have hb : (Shard.ofEntries es).blob i = b := by
      have h := ofEntries_blob (es.take i) (hsplit ▸ ha)
      rwa [← hsplit, List.length_take_of_le hlt.le] at h
    have hf : (Shard.ofEntries es).find k = some i := by
      have hk : (Shard.ofEntries es).keys[i]? = some k := by
        rw [ofEntries_keys, List.getElem?_map, hi, Option.map_some]
      simp only [Shard.find, Ascending.binarySearch]
      rw [if_pos hk]
    rw [hf, Option.map_some, hb, SortedMap.lookup_of_getElem? hs hi]
  · have hr : (Shard.ofEntries es).keys[Ascending.rank (Shard.ofEntries es).keys th]? ≠ some th :=
      fun h => hm (by rw [← ofEntries_keys]; exact (Ascending.getElem?_rank_eq_some hsorted th).mp h)
    simp only [Shard.find, Ascending.binarySearch, if_neg hr, Option.map_none,
      SortedMap.lookup_eq_none hm]

/-- The posting lists `p` of the keywords of `shard`, held in a shard whose arena is addressable
by its 32-bit ends. -/
structure ShardHolds (s : Shard) (shard : Fin SHARDS) (p : TokenHash → Option (List FileId)) :
    Prop where
  entries : ∃ es : List (TokenHash × List FileId), SortedMap.Sorted es ∧
    s = .ofEntries (SortedMap.mapValues encode es) ∧ ∀ th, shardOf th = shard → es.lookup th = p th
  addressable : s.arena.length < 2 ^ 32

theorem ShardHolds.find {s : Shard} {shard : Fin SHARDS} {p : TokenHash → Option (List FileId)}
    (h : ShardHolds s shard p) {th : TokenHash} (hth : shardOf th = shard) :
    (s.find th).map s.blob = (p th).map encode := by
  obtain ⟨⟨es, hs, rfl, hp⟩, ha⟩ := h
  rw [ofEntries_arena] at ha
  rw [find_ofEntries (SortedMap.sorted_mapValues.mpr hs) ha, SortedMap.lookup_mapValues,
    hp th hth]

theorem ShardHolds.length_lt {s : Shard} {shard : Fin SHARDS}
    {p : TokenHash → Option (List FileId)} (h : ShardHolds s shard p) {th : TokenHash}
    (hth : shardOf th = shard) {ids : List FileId} (hp : p th = some ids) :
    ids.length < 2 ^ 32 := by
  obtain ⟨⟨es, hs, rfl, hes⟩, ha⟩ := h
  rw [← hes th hth] at hp
  obtain ⟨l₁, l₂, rfl, -⟩ := List.lookup_eq_some_iff.mp hp
  have hid := length_lt_encode ids
  simp only [ofEntries_arena, SortedMap.mapValues, List.map_append, List.map_cons,
    List.flatMap_append, List.flatMap_cons, List.length_append] at ha
  omega

theorem ShardHolds.rebuild {s : Shard} {shard : Fin SHARDS}
    {p : TokenHash → Option (List FileId)} (h : ShardHolds s shard p)
    {us : List (TokenHash × Option (List FileId))} (hus : SortedMap.Sorted us)
    (ha : (s.rebuild (SortedMap.mapValues (Option.map encode) us)).1.arena.length < 2 ^ 32) :
    ShardHolds (s.rebuild (SortedMap.mapValues (Option.map encode) us)).1 shard
      (fun th => (us.lookup th).getD (p th)) := by
  obtain ⟨⟨es, hs, rfl, hes⟩, hsmall⟩ := h
  rw [ofEntries_arena] at hsmall
  refine ⟨⟨SortedMap.update es us, SortedMap.sorted_update hs hus, ?_, fun th hth => ?_⟩, ha⟩
  · rw [rebuild_ofEntries hsmall, SortedMap.mapValues_update]
  · rw [SortedMap.lookup_update hs hus, hes th hth]

theorem ShardHolds.congr {s : Shard} {shard : Fin SHARDS}
    {p q : TokenHash → Option (List FileId)} (h : ShardHolds s shard p)
    (hpq : ∀ th, shardOf th = shard → p th = q th) : ShardHolds s shard q := by
  obtain ⟨⟨es, hs, he, hes⟩, ha⟩ := h
  exact ⟨⟨es, hs, he, fun th hth => (hes th hth).trans (hpq th hth)⟩, ha⟩

/-- The cold tier holds the ascending posting lists `p`. -/
structure Holds (c : ColdStore) (p : TokenHash → Option (List FileId)) : Prop where
  shards : ∀ shard, ShardHolds (c.shards shard) shard p
  sorted : ∀ th ids, p th = some ids → ids.SortedLT

theorem holds_empty : Holds .empty (fun _ => none) where
  shards _ := ⟨⟨[], List.Pairwise.nil.sortedLT, rfl, fun _ _ => rfl⟩, Nat.two_pow_pos 32⟩
  sorted := by simp

variable {c : ColdStore} {p : TokenHash → Option (List FileId)}

theorem Holds.get (h : Holds c p) (th : TokenHash) : c.get th = (p th).map encode :=
  (h.shards (shardOf th)).find rfl

theorem Holds.containsKey (h : Holds c p) (th : TokenHash) :
    c.containsKey th = (p th).isSome := by
  have hg := congrArg Option.isSome (h.get th)
  simpa [ColdStore.get, ColdStore.containsKey] using hg

theorem Holds.length_lt (h : Holds c p) {th : TokenHash} {ids : List FileId}
    (hp : p th = some ids) : ids.length < 2 ^ 32 := (h.shards (shardOf th)).length_lt rfl hp

/-- The batch of a rebuild replaces exactly the postings it names. -/
theorem Holds.rebuild (h : Holds c p) {shard : Fin SHARDS}
    {us : List (TokenHash × Option (List FileId))} (hus : SortedMap.Sorted us)
    (hshard : ∀ th ∈ us.map Prod.fst, shardOf th = shard)
    (hval : ∀ th ids, (th, some ids) ∈ us → ids.SortedLT)
    (ha : ((c.shards shard).rebuild
      (SortedMap.mapValues (Option.map encode) us)).1.arena.length < 2 ^ 32) :
    Holds (c.rebuild shard (SortedMap.mapValues (Option.map encode) us)).1
      (fun th => (us.lookup th).getD (p th)) where
  shards sh := by
    by_cases hsh : sh = shard
    · subst hsh
      simpa [ColdStore.rebuild] using (h.shards sh).rebuild hus ha
    · simp only [ColdStore.rebuild, Function.update_of_ne hsh]
      refine (h.shards sh).congr (fun th hth => ?_)
      rw [SortedMap.lookup_eq_none (fun hm => hsh (hth.symm.trans (hshard th hm)))]
      rfl
  sorted th ids hp := by
    cases hl : us.lookup th with
    | none => exact h.sorted th ids (by simpa [hl] using hp)
    | some w =>
      obtain rfl : w = some ids := by simpa [hl] using hp
      exact hval th ids ((SortedMap.lookup_eq_some_iff hus).mp hl)

end Ed2kServer.Keyword.Cold
