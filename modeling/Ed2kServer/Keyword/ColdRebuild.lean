import Ed2kServer.Keyword.Cold
import Mathlib.Algebra.BigOperators.Fin

namespace Ed2kServer.Keyword.ColdRebuild

open Ed2kServer.Lib Ed2kServer.Keyword.ColdShard Ed2kServer.Keyword.Cold

/-- The bytes of the shard that a batch replaces; `none` where a subtraction underflows. -/
def removedBytes (s : Shard) : List (TokenHash × Option (List UInt8)) → Option Nat
  | [] => some 0
  | (k, _) :: us =>
    match s.find k with
    | none => removedBytes s us
    | some i =>
      if (s.span i).2 < (s.span i).1 then none
      else (removedBytes s us).map ((s.span i).2 - (s.span i).1 + ·)

def addedBytes (us : List (TokenHash × Option (List UInt8))) : Nat :=
  (us.filterMap (fun u => u.2.map List.length)).sum

/-- The arena a rebuild reserves. -/
def arenaLen (s : Shard) (us : List (TokenHash × Option (List UInt8))) : Option Nat :=
  match removedBytes s us with
  | none => none
  | some r => if s.arena.length < r then none else some (s.arena.length - r + addedBytes us)

/-- The keywords that the walk of `Shard.rebuildLoop` adds. -/
def addedLoop : List TokenHash → List (TokenHash × Option (List UInt8)) → Nat → Nat
  | _, [], added => added
  | [], (_, some _) :: us, added => addedLoop [] us (added + 1)
  | [], (_, none) :: us, added => addedLoop [] us added
  | k :: keys, (u, blob) :: us, added =>
    if k < u then addedLoop keys ((u, blob) :: us) added
    else if k = u then addedLoop keys us added
    else
      match blob with
      | some _ => addedLoop (k :: keys) us (added + 1)
      | none => addedLoop (k :: keys) us added
termination_by keys us => keys.length + us.length

/-- The store with its count of keywords, a word of the machine. -/
structure CountedStore extends ColdStore where
  keys : UInt64

def CountedStore.len (c : CountedStore) : UInt64 := c.keys

/-- `none` is a panic of the capacity computation. -/
def CountedStore.rebuild (c : CountedStore) (shard : Fin SHARDS)
    (updates : List (TokenHash × Option (List UInt8))) : Option (CountedStore × Nat) :=
  match arenaLen (c.shards shard) updates with
  | none => none
  | some _ =>
    some (⟨(c.toColdStore.rebuild shard updates).1,
      c.keys + UInt64.ofNat (addedLoop (c.shards shard).keys updates 0) -
        UInt64.ofNat (c.toColdStore.rebuild shard updates).2⟩,
      (c.toColdStore.rebuild shard updates).2)

/-- The keywords that the shards of a store hold. -/
def total (c : ColdStore) : Nat := ∑ sh, (c.shards sh).keys.length

structure WellFormed (s : Shard) : Prop where
  keys : s.keys.SortedLT
  ends_length : s.ends.length = s.keys.length
  ends : s.ends.SortedLE
  last : (s.ends.getLast?.map UInt32.toNat).getD 0 = s.arena.length
  addressable : s.arena.length < 2 ^ 32

theorem WellFormed.pop {ks : List TokenHash} {k : TokenHash} {ends : List UInt32} {e : UInt32}
    {arena : List UInt8} (h : WellFormed ⟨ks ++ [k], ends ++ [e], arena⟩) :
    WellFormed ⟨ks, ends, arena.take ((ends.getLast?.map UInt32.toNat).getD 0)⟩ := by
  have hk := (List.pairwise_append.mp h.keys.pairwise).1
  have he := List.pairwise_append.mp h.ends.pairwise
  have hlast : e.toNat = arena.length := by simpa using h.last
  have hle : (ends.getLast?.map UInt32.toNat).getD 0 ≤ arena.length := by
    cases hl : ends.getLast? with
    | none => simp
    | some e' =>
      have hle := he.2.2 e' (List.mem_of_getLast? hl) e (by simp)
      rw [Option.map_some, Option.getD_some, ← hlast]
      exact UInt32.le_iff_toNat_le.mp hle
  refine ⟨hk.sortedLT, by simpa using h.ends_length, he.1.sortedLE, ?_, ?_⟩
  · rw [List.length_take_of_le hle]
  · rw [List.length_take_of_le hle]
    exact hle.trans_lt h.addressable

/-- A well-formed shard is the shard of a sorted map. -/
theorem WellFormed.exists_entries {s : Shard} (h : WellFormed s) :
    ∃ es, SortedMap.Sorted es ∧ s = .ofEntries es := by
  obtain ⟨keys, ends, arena⟩ := s
  induction keys using List.reverseRecOn generalizing ends arena with
  | nil =>
    obtain rfl : ends = [] := List.eq_nil_of_length_eq_zero h.ends_length
    obtain rfl : arena = [] := List.eq_nil_of_length_eq_zero h.last.symm
    exact ⟨[], List.Pairwise.nil.sortedLT, rfl⟩
  | append_singleton ks k ih =>
    obtain ⟨ends, e, rfl⟩ : ∃ ends' e, ends = ends' ++ [e] := by
      cases ends using List.reverseRecOn with
      | nil => simpa using h.ends_length
      | append_singleton ends e => exact ⟨ends, e, rfl⟩
    obtain ⟨es, hs, hes⟩ := ih _ _ h.pop
    set m := (ends.getLast?.map UInt32.toNat).getD 0
    have hkeys : es.map Prod.fst = ks := by rw [← ofEntries_keys, ← hes]
    have hlast : e.toNat = arena.length := by simpa using h.last
    refine ⟨es ++ [(k, arena.drop m)], ?_, ?_⟩
    · rw [SortedMap.Sorted, List.map_append, hkeys]
      exact h.keys
    · rw [ofEntries_append_one, ← hes, Shard.push, List.take_append_drop, ← hlast,
        UInt32.ofNat_toNat]

theorem ofEntries_ends (es : List (TokenHash × List UInt8)) :
    (Shard.ofEntries es).ends.getLast?.getD 0 =
      UInt32.ofNat (es.flatMap Prod.snd).length := by
  cases es using List.reverseRecOn with
  | nil => rfl
  | append_singleton es e =>
    simp [ofEntries_append_one, Shard.push, ofEntries_arena]

theorem ofEntries_ends_le {es : List (TokenHash × List UInt8)}
    (ha : (es.flatMap Prod.snd).length < 2 ^ 32) :
    (Shard.ofEntries es).ends.SortedLE ∧
      ∀ e ∈ (Shard.ofEntries es).ends, e.toNat ≤ (es.flatMap Prod.snd).length := by
  induction es using List.reverseRecOn with
  | nil => exact ⟨List.Pairwise.nil.sortedLE, by simp [Shard.ofEntries, Shard.empty]⟩
  | append_singleton es e ih =>
    rw [List.flatMap_append, List.flatMap_singleton] at ha ⊢
    obtain ⟨hs, hle⟩ := ih (by rw [List.length_append] at ha; omega)
    have hnew : (UInt32.ofNat (es.flatMap Prod.snd ++ e.2).length).toNat =
        (es.flatMap Prod.snd ++ e.2).length := by
      rw [UInt32.toNat_ofNat', Nat.mod_eq_of_lt ha]
    have hlen : (es.flatMap Prod.snd).length ≤ (es.flatMap Prod.snd ++ e.2).length := by
      rw [List.length_append]
      omega
    simp only [ofEntries_append_one, Shard.push, ofEntries_arena]
    refine ⟨?_, fun x hx => ?_⟩
    · rw [List.sortedLE_iff_pairwise, List.pairwise_append]
      refine ⟨hs.pairwise, List.pairwise_singleton _ _, fun x hx y hy => ?_⟩
      rw [List.mem_singleton.mp hy, UInt32.le_iff_toNat_le, hnew]
      exact (hle x hx).trans hlen
    · rcases List.mem_append.mp hx with hx | hx
      · exact (hle x hx).trans hlen
      · rw [List.mem_singleton.mp hx, hnew]

theorem wellFormed_ofEntries {es : List (TokenHash × List UInt8)} (hs : SortedMap.Sorted es)
    (ha : (es.flatMap Prod.snd).length < 2 ^ 32) : WellFormed (.ofEntries es) where
  keys := by
    rw [ofEntries_keys]
    exact hs
  ends_length := by rw [ofEntries_ends_length, ofEntries_keys, List.length_map]
  ends := (ofEntries_ends_le ha).1
  last := by
    have h := congrArg UInt32.toNat (ofEntries_ends es)
    rw [UInt32.toNat_ofNat', Nat.mod_eq_of_lt ha] at h
    rw [ofEntries_arena, ← h]
    cases (Shard.ofEntries es).ends.getLast? <;> rfl
  addressable := by
    rw [ofEntries_arena]
    exact ha

/-- Whether an update of a keyword finds it, and whether it removes it. -/
def isRemoval (ks : List TokenHash) (u : TokenHash × Option (List UInt8)) : Bool :=
  decide (u.1 ∈ ks) && u.2.isNone

def isAddition (ks : List TokenHash) (u : TokenHash × Option (List UInt8)) : Bool :=
  decide (u.1 ∉ ks) && u.2.isSome

theorem mem_cons_of_lt {k u : TokenHash} {ks : List TokenHash} (h : k < u) :
    u ∈ k :: ks ↔ u ∈ ks := by
  rw [List.mem_cons]
  exact or_iff_right h.ne'

theorem countP_removal_of_lt {k : TokenHash} {ks : List TokenHash}
    {us : List (TokenHash × Option (List UInt8))} (h : ∀ j ∈ us.map Prod.fst, k < j) :
    us.countP (isRemoval (k :: ks)) = us.countP (isRemoval ks) ∧
      us.countP (isAddition (k :: ks)) = us.countP (isAddition ks) := by
  constructor <;> refine List.countP_congr (fun u hu => ?_)
  · simp only [isRemoval, mem_cons_of_lt (h u.1 (List.mem_map_of_mem hu))]
  · simp only [isAddition, mem_cons_of_lt (h u.1 (List.mem_map_of_mem hu))]

theorem lt_batch {k u : TokenHash} {w : Option (List UInt8)}
    {us : List (TokenHash × Option (List UInt8))} (hu : SortedMap.Sorted ((u, w) :: us))
    (h : k < u) : ∀ j ∈ ((u, w) :: us).map Prod.fst, k < j := by
  intro j hj
  rcases List.mem_cons.mp hj with rfl | hj
  · exact h
  · exact h.trans ((SortedMap.sorted_cons.mp hu).1 j hj)

theorem notMem_of_lt_head {k u : TokenHash} {ks : List TokenHash} (hs : (k :: ks).SortedLT)
    (h : u < k) : u ∉ k :: ks := by
  intro hm
  rcases List.mem_cons.mp hm with rfl | hm
  · exact lt_irrefl _ h
  · exact lt_irrefl _ (h.trans ((List.pairwise_cons.mp hs.pairwise).1 u hm))

/-- The walk counts the updates that remove a keyword of the shard. -/
theorem rebuildLoop_removed (old : Shard) (i : Nat) (keys : List TokenHash)
    (us : List (TokenHash × Option (List UInt8))) (new : Shard) (removed : Nat)
    (hs : keys.SortedLT) (hu : SortedMap.Sorted us) :
    (old.rebuildLoop i keys us new removed).2 = removed + us.countP (isRemoval keys) := by
  fun_induction Shard.rebuildLoop old i keys us new removed with
  | case1 i new removed => rfl
  | case2 i k keys new removed ih => exact ih (List.pairwise_cons.mp hs.pairwise).2.sortedLT hu
  | case3 i u b us new removed ih =>
    rw [ih hs (SortedMap.sorted_cons.mp hu).2, List.countP_cons]
    simp [isRemoval]
  | case4 i u us new removed ih =>
    rw [ih hs (SortedMap.sorted_cons.mp hu).2, List.countP_cons]
    simp [isRemoval]
  | case5 i k keys u w us new removed hlt ih =>
    rw [ih (List.pairwise_cons.mp hs.pairwise).2.sortedLT hu,
      (countP_removal_of_lt (lt_batch hu hlt)).1]
  | case6 i keys u us new removed b hlt ih =>
    obtain ⟨hgt, hus⟩ := SortedMap.sorted_cons.mp hu
    rw [ih (List.pairwise_cons.mp hs.pairwise).2.sortedLT hus, List.countP_cons,
      (countP_removal_of_lt hgt).1]
    simp [isRemoval]
  | case7 i keys u us new removed hlt ih =>
    obtain ⟨hgt, hus⟩ := SortedMap.sorted_cons.mp hu
    rw [ih (List.pairwise_cons.mp hs.pairwise).2.sortedLT hus, List.countP_cons,
      (countP_removal_of_lt hgt).1]
    simp [isRemoval]
    omega
  | case8 i k keys u us new removed hlt hne b ih =>
    rw [ih hs (SortedMap.sorted_cons.mp hu).2, List.countP_cons]
    simp [isRemoval]
  | case9 i k keys u us new removed hlt hne ih =>
    have hm := notMem_of_lt_head hs (lt_of_le_of_ne (not_lt.mp hlt) (Ne.symm hne))
    rw [ih hs (SortedMap.sorted_cons.mp hu).2, List.countP_cons]
    simp [isRemoval, hm]

theorem addedLoop_eq (keys : List TokenHash) (us : List (TokenHash × Option (List UInt8)))
    (added : Nat) (hs : keys.SortedLT) (hu : SortedMap.Sorted us) :
    addedLoop keys us added = added + us.countP (isAddition keys) := by
  fun_induction addedLoop keys us added with
  | case1 keys added => rfl
  | case2 u b us added ih =>
    rw [ih hs (SortedMap.sorted_cons.mp hu).2, List.countP_cons]
    simp [isAddition]
    omega
  | case3 u us added ih =>
    rw [ih hs (SortedMap.sorted_cons.mp hu).2, List.countP_cons]
    simp [isAddition]
  | case4 k keys u w us added hlt ih =>
    rw [ih (List.pairwise_cons.mp hs.pairwise).2.sortedLT hu,
      (countP_removal_of_lt (lt_batch hu hlt)).2]
  | case5 keys u w us added hlt ih =>
    obtain ⟨hgt, hus⟩ := SortedMap.sorted_cons.mp hu
    rw [ih (List.pairwise_cons.mp hs.pairwise).2.sortedLT hus, List.countP_cons,
      (countP_removal_of_lt hgt).2]
    simp [isAddition]
  | case6 k keys u us added hlt hne b ih =>
    have hm := notMem_of_lt_head hs (lt_of_le_of_ne (not_lt.mp hlt) (Ne.symm hne))
    rw [ih hs (SortedMap.sorted_cons.mp hu).2, List.countP_cons]
    simp [isAddition, hm]
    omega
  | case7 k keys u us added hlt hne ih =>
    rw [ih hs (SortedMap.sorted_cons.mp hu).2, List.countP_cons]
    simp [isAddition]

theorem mem_keys_iff_lookup {es : List (TokenHash × List UInt8)} {k : TokenHash} :
    k ∈ es.map Prod.fst ↔ (es.lookup k).isSome := by
  constructor
  · intro h
    rw [Option.isSome_iff_ne_none, ne_eq, List.lookup_eq_none_iff]
    obtain ⟨e, he, rfl⟩ := List.mem_map.mp h
    exact fun hne => absurd (hne e he) (by simp)
  · intro h
    by_contra hm
    rw [SortedMap.lookup_eq_none hm] at h
    cases h

/-- Every update is a removal, an addition, a replacement or a removal of nothing. -/
theorem count_found (es : List (TokenHash × List UInt8))
    (us : List (TokenHash × Option (List UInt8))) :
    (us.filterMap (fun u => (es.lookup u.1).map (fun _ => 1))).sum +
        us.countP (isAddition (es.map Prod.fst)) =
      (us.filterMap (fun u => u.2.map (fun _ => 1))).sum +
        us.countP (isRemoval (es.map Prod.fst)) := by
  induction us with
  | nil => rfl
  | cons u us ih =>
    obtain ⟨k, w⟩ := u
    have hm : k ∈ es.map Prod.fst ↔ _ := mem_keys_iff_lookup
    simp only [List.filterMap_cons, List.countP_cons, isAddition, isRemoval, hm]
    cases es.lookup k <;> cases w <;> simp <;> omega

/-- Keywords held, plus keywords removed, are the old ones plus the added ones. -/
theorem length_update {es : List (TokenHash × List UInt8)}
    {us : List (TokenHash × Option (List UInt8))} (hs : SortedMap.Sorted es)
    (hu : SortedMap.Sorted us) :
    (SortedMap.update es us).length + us.countP (isRemoval (es.map Prod.fst)) =
      es.length + us.countP (isAddition (es.map Prod.fst)) := by
  have h := SortedMap.sum_update (fun _ => 1) hs hu
  have hc := count_found es us
  simp only [List.map_const', List.sum_replicate, smul_eq_mul, mul_one] at h
  omega

/-- A keyword that is found has a span of the length of its blob. -/
theorem span_of_find {es : List (TokenHash × List UInt8)} (hs : SortedMap.Sorted es)
    (ha : (es.flatMap Prod.snd).length < 2 ^ 32) {k : TokenHash} {i : Nat}
    (hf : (Shard.ofEntries es).find k = some i) :
    ∃ b, es.lookup k = some b ∧
      ((Shard.ofEntries es).span i).2 = ((Shard.ofEntries es).span i).1 + b.length := by
  have hkey : (Shard.ofEntries es).keys[i]? = some k := by
    simp only [Shard.find, Ascending.binarySearch] at hf
    split_ifs at hf with h
    obtain rfl : _ = i := by simpa using hf
    exact h
  rw [ofEntries_keys, List.getElem?_map, Option.map_eq_some_iff] at hkey
  obtain ⟨⟨j, b⟩, hi, rfl⟩ := hkey
  obtain ⟨hlt, hget⟩ := List.getElem?_eq_some_iff.mp hi
  have hsplit : es = es.take i ++ (j, b) :: es.drop (i + 1) := by
    rw [← hget, ← List.drop_eq_getElem_cons hlt, List.take_append_drop]
  have h := ofEntries_span (es.take i) (hsplit ▸ ha)
  rw [← hsplit, List.length_take_of_le hlt.le] at h
  exact ⟨b, SortedMap.lookup_of_getElem? hs hi, by rw [h, List.length_append]⟩

theorem lookup_of_find_none {es : List (TokenHash × List UInt8)} (hs : SortedMap.Sorted es)
    (ha : (es.flatMap Prod.snd).length < 2 ^ 32) {k : TokenHash}
    (hf : (Shard.ofEntries es).find k = none) : es.lookup k = none := by
  rw [← find_ofEntries hs ha, hf, Option.map_none]

theorem removedBytes_ofEntries {es : List (TokenHash × List UInt8)} (hs : SortedMap.Sorted es)
    (ha : (es.flatMap Prod.snd).length < 2 ^ 32) (us : List (TokenHash × Option (List UInt8))) :
    removedBytes (.ofEntries es) us =
      some (us.filterMap (fun u => (es.lookup u.1).map List.length)).sum := by
  induction us with
  | nil => rfl
  | cons u us ih =>
    obtain ⟨k, w⟩ := u
    rw [removedBytes, List.filterMap_cons]
    cases hf : (Shard.ofEntries es).find k with
    | none => simp [lookup_of_find_none hs ha hf, ih]
    | some i =>
      obtain ⟨b, hb, hspan⟩ := span_of_find hs ha hf
      simp [hb, hspan, ih]

theorem sum_length_flatMap (es : List (TokenHash × List UInt8)) :
    (es.map (fun e => e.2.length)).sum = (es.flatMap Prod.snd).length := by
  rw [List.length_flatMap]

/-- The capacity computed is the length of the arena that is built. -/
theorem arenaLen_ofEntries {es : List (TokenHash × List UInt8)}
    {us : List (TokenHash × Option (List UInt8))} (hs : SortedMap.Sorted es)
    (hu : SortedMap.Sorted us) (ha : (es.flatMap Prod.snd).length < 2 ^ 32) :
    arenaLen (.ofEntries es) us = some ((SortedMap.update es us).flatMap Prod.snd).length := by
  have h := SortedMap.sum_update List.length hs hu
  have hle := SortedMap.sum_found_le List.length hs hu
  rw [sum_length_flatMap, sum_length_flatMap] at h
  rw [sum_length_flatMap] at hle
  simp only [arenaLen, removedBytes_ofEntries hs ha, ofEntries_arena, addedBytes]
  rw [if_neg (by omega)]
  exact congrArg some (by omega)

theorem rebuild_shards_self (c : ColdStore) (shard : Fin SHARDS)
    (us : List (TokenHash × Option (List UInt8))) :
    (c.rebuild shard us).1.shards shard = ((c.shards shard).rebuild us).1 :=
  Function.update_self ..

theorem rebuild_shards_of_ne (c : ColdStore) {shard sh : Fin SHARDS} (h : sh ≠ shard)
    (us : List (TokenHash × Option (List UInt8))) :
    (c.rebuild shard us).1.shards sh = c.shards sh :=
  Function.update_of_ne h ..

theorem total_rebuild (c : ColdStore) (shard : Fin SHARDS)
    (us : List (TokenHash × Option (List UInt8))) :
    total (c.rebuild shard us).1 + (c.shards shard).keys.length =
      total c + ((c.shards shard).rebuild us).1.keys.length := by
  have hold := Finset.add_sum_erase Finset.univ (fun sh => (c.shards sh).keys.length)
    (Finset.mem_univ shard)
  have hnew := Finset.add_sum_erase Finset.univ
    (fun sh => ((c.rebuild shard us).1.shards sh).keys.length) (Finset.mem_univ shard)
  have hrest : ∑ sh ∈ Finset.univ.erase shard, ((c.rebuild shard us).1.shards sh).keys.length =
      ∑ sh ∈ Finset.univ.erase shard, (c.shards sh).keys.length := by
    refine Finset.sum_congr rfl (fun sh hsh => ?_)
    rw [rebuild_shards_of_ne c (Finset.ne_of_mem_erase hsh)]
  rw [rebuild_shards_self, hrest] at hnew
  simp only [total]
  omega

theorem find_isSome_iff (s : Shard) (hs : s.keys.SortedLT) (th : TokenHash) :
    (s.find th).isSome = decide (th ∈ s.keys) := by
  have h := Ascending.getElem?_rank_eq_some hs th
  by_cases hm : th ∈ s.keys
  · simp [Shard.find, Ascending.binarySearch, h.mpr hm, hm]
  · simp [Shard.find, Ascending.binarySearch, mt h.mp hm, hm]

/-- After a rebuild the shard is well formed and reads the batch where the batch has the keyword
and the old shard elsewhere; the keywords removed and the counter are those of the batch. -/
theorem rebuild_wellFormed (c : CountedStore) (shard : Fin SHARDS)
    (updates : List (TokenHash × Option (List UInt8))) (hwf : WellFormed (c.shards shard))
    (hu : SortedMap.Sorted updates) (hshard : ∀ u ∈ updates, shardOf u.1 = shard)
    (hafter : ∀ r ∈ c.rebuild shard updates, (r.1.shards shard).arena.length < 2 ^ 32) :
    ∃ c' removed, c.rebuild shard updates = some (c', removed) ∧
      WellFormed (c'.shards shard) ∧
      (∀ th b, (th, some b) ∈ updates → c'.get th = some b) ∧
      (∀ th, (th, none) ∈ updates → c'.get th = none) ∧
      (∀ th, th ∉ updates.map Prod.fst → c'.get th = c.get th) ∧
      (∀ sh, sh ≠ shard → c'.shards sh = c.shards sh) ∧
      removed = updates.countP (fun u => c.containsKey u.1 && u.2.isNone) ∧
      (c.len = UInt64.ofNat (total c.toColdStore) →
        c'.len = UInt64.ofNat (total c'.toColdStore)) := by
  obtain ⟨es, hs, hes⟩ := hwf.exists_entries
  have ha := hwf.addressable
  rw [hes, ofEntries_arena] at ha
  have hcap : arenaLen (c.shards shard) updates =
      some ((SortedMap.update es updates).flatMap Prod.snd).length := by
    rw [hes, arenaLen_ofEntries hs hu ha]
  have hnew : ((c.shards shard).rebuild updates).1 =
      .ofEntries (SortedMap.update es updates) := by
    rw [hes, rebuild_ofEntries ha]
  simp only [CountedStore.rebuild, hcap, Option.mem_some_iff, forall_eq'] at hafter ⊢
  have hself : (c.toColdStore.rebuild shard updates).1.shards shard =
      .ofEntries (SortedMap.update es updates) := by
    rw [rebuild_shards_self, hnew]
  have ha' : ((SortedMap.update es updates).flatMap Prod.snd).length < 2 ^ 32 := by
    rwa [hself, ofEntries_arena] at hafter
  have hs' := SortedMap.sorted_update hs hu
  have hget : ∀ th, shardOf th = shard →
      (c.toColdStore.rebuild shard updates).1.get th = (updates.lookup th).getD (c.get th) := by
    rintro th rfl
    rw [ColdStore.get, hself, find_ofEntries hs' ha', SortedMap.lookup_update hs hu,
      ColdStore.get, hes, find_ofEntries hs ha]
  have hcount : updates.countP (fun u => c.containsKey u.1 && u.2.isNone) =
      updates.countP (isRemoval (es.map Prod.fst)) := by
    refine List.countP_congr (fun u hm => ?_)
    rw [ColdStore.containsKey, hshard u hm, find_isSome_iff _ hwf.keys, hes, ofEntries_keys,
      isRemoval]
  have hremoved : ((c.shards shard).rebuild updates).2 =
      updates.countP (isRemoval (es.map Prod.fst)) := by
    rw [Shard.rebuild, rebuildLoop_removed _ _ _ _ _ _ hwf.keys hu, hes, ofEntries_keys,
      Nat.zero_add]
  have hadded : addedLoop (c.shards shard).keys updates 0 =
      updates.countP (isAddition (es.map Prod.fst)) := by
    rw [addedLoop_eq _ _ _ hwf.keys hu, hes, ofEntries_keys, Nat.zero_add]
  refine ⟨_, _, rfl, ?_, fun th b hm => ?_, fun th hm => ?_, fun th hm => ?_,
    fun sh hsh => rebuild_shards_of_ne _ hsh _, ?_, ?_⟩
  · rw [hself]
    exact wellFormed_ofEntries hs' ha'
  · rw [hget th (hshard _ hm), (SortedMap.lookup_eq_some_iff hu).mpr hm, Option.getD_some]
  · rw [hget th (hshard _ hm), (SortedMap.lookup_eq_some_iff hu).mpr hm, Option.getD_some]
  · by_cases hth : shardOf th = shard
    · rw [hget th hth, SortedMap.lookup_eq_none hm, Option.getD_none]
    · rw [ColdStore.get, ColdStore.get, rebuild_shards_of_ne _ hth]
  · rw [hcount, ← hremoved, ColdStore.rebuild]
  · intro hlen
    have htotal := total_rebuild c.toColdStore shard updates
    have hl := length_update hs hu
    rw [hnew, ofEntries_keys, hes, ofEntries_keys, List.length_map, List.length_map] at htotal
    have hsum : total c.toColdStore + addedLoop (c.shards shard).keys updates 0 =
        total (c.toColdStore.rebuild shard updates).1 +
          (c.toColdStore.rebuild shard updates).2 := by
      have hr : (c.toColdStore.rebuild shard updates).2 =
          updates.countP (isRemoval (es.map Prod.fst)) := hremoved
      omega
    simp only [CountedStore.len] at hlen ⊢
    rw [hlen, ← UInt64.ofNat_add, hsum, UInt64.ofNat_add, UInt64.add_sub_cancel]

/-- The shard of the keywords 0 and 2048, with the blobs `[7]` and `[8, 9]`. -/
def twoKeywords : CountedStore :=
  ⟨⟨Function.update (fun _ => .empty) (shardOf 0) ⟨[0, 2048], [1, 3], [7, 8, 9]⟩⟩, 2⟩

theorem twoKeywords_shard :
    twoKeywords.shards (shardOf 0) = ⟨[0, 2048], [1, 3], [7, 8, 9]⟩ := by
  simp only [twoKeywords, Function.update_self]

theorem rebuild_wellFormed_twoKeywords : ∃ c' removed,
    twoKeywords.rebuild (shardOf 0) [(0, none), (1024, some [5])] = some (c', removed) ∧
      c'.get 0 = none ∧ c'.get 1024 = some [5] := by
  have hwf : WellFormed (twoKeywords.shards (shardOf 0)) := by
    rw [twoKeywords_shard]
    exact ⟨List.Pairwise.sortedLT (by decide), rfl, List.Pairwise.sortedLE (by decide), rfl,
      by decide⟩
  have hafter : ∀ r ∈ twoKeywords.rebuild (shardOf 0) [(0, none), (1024, some [5])],
      (r.1.shards (shardOf 0)).arena.length < 2 ^ 32 := by
    intro r hr
    have hloop : ((twoKeywords.shards (shardOf 0)).rebuild
        [(0, none), (1024, some [5])]).1.arena.length < 2 ^ 32 := by
      rw [twoKeywords_shard]
      simp [Shard.rebuild, Shard.rebuildLoop, Shard.push, Shard.empty, Shard.blob, Shard.span]
    rw [CountedStore.rebuild] at hr
    split at hr
    · cases hr
    · obtain rfl := Option.mem_some_iff.mp hr
      rwa [rebuild_shards_self]
  obtain ⟨c', removed, hr, -, hset, hdel, -⟩ := rebuild_wellFormed twoKeywords (shardOf 0)
    [(0, none), (1024, some [5])] hwf (List.Pairwise.sortedLT (by decide)) (by decide) hafter
  exact ⟨c', removed, hr, hdel 0 (by simp), hset 1024 [5] (by simp)⟩

end Ed2kServer.Keyword.ColdRebuild
