import Ed2kServer.Keyword.TokenStep

namespace Ed2kServer.Keyword.CommitStep

open Ed2kServer.Lib
open Ed2kServer.Keyword.Cold Ed2kServer.Keyword.PostingCodec Ed2kServer.Keyword.MergeTiers
open Ed2kServer.Keyword.Index Ed2kServer.Keyword.Lookup Ed2kServer.Keyword.Compact
open Ed2kServer.Keyword.Abstract Ed2kServer.Keyword.TokenStep

variable {ix : KeywordIndex} {p : Tier} {files : TokenHash → Set FileId}

/-- Membership in what a filter against an ascending list keeps. -/
theorem mem_getD_map_filter {o : Option (List FileId)} {v : List FileId} (hv : v.SortedLT)
    (x : FileId) :
    x ∈ (o.map (·.filter (fun id => !Ascending.contains v id))).getD [] ↔
      x ∈ o.getD [] ∧ x ∉ v := by
  cases o with
  | none => simp
  | some l => simp [← Ascending.contains_iff hv]

theorem getD_map_filter_sorted {o : Option (List FileId)} (q : FileId → Bool)
    (ho : (o.getD []).SortedLT) : ((o.map (·.filter q)).getD []).SortedLT := by
  cases o with
  | none => exact ho
  | some l => exact Ascending.filter_sorted ho q

theorem mem_trimHot {sn : Snap} (hv : sn.hv.SortedLT) (hot : Option (List FileId)) (x : FileId) :
    x ∈ (sn.trimHot hot).getD [] ↔ x ∈ hot.getD [] ∧ x ∉ sn.hv := by
  rw [Snap.trimHot]
  split
  · simp [*]
  · exact mem_getD_map_filter hv x

theorem trimHot_sorted (sn : Snap) {hot : Option (List FileId)} (hh : (hot.getD []).SortedLT) :
    ((sn.trimHot hot).getD []).SortedLT := by
  rw [Snap.trimHot]
  split
  · exact hh
  · exact getD_map_filter_sorted _ hh

theorem mem_gone (sn : Snap) {hot : Option (List FileId)} (hh : (hot.getD []).SortedLT)
    (x : FileId) : x ∈ sn.gone hot ↔ x ∈ sn.hv ∧ x ∉ hot.getD [] := by
  cases hot with
  | none => simp [Snap.gone]
  | some h =>
    have hc : Ascending.contains h x = true ↔ x ∈ h := Ascending.contains_iff hh x
    simp [Snap.gone, ← hc]

theorem trimPending {sn : Snap} (hp : sn.pend.SortedLT) {hot pending : Option (List FileId)}
    (hh : (hot.getD []).SortedLT) (hs : (pending.getD []).SortedLT) :
    ((sn.trimPending hot pending).getD []).SortedLT ∧
      ∀ x, x ∈ (sn.trimPending hot pending).getD [] ↔
        (x ∈ pending.getD [] ∧ x ∉ sn.pend) ∨ (x ∈ sn.hv ∧ x ∉ hot.getD []) := by
  simp only [Snap.trimPending, ← mem_gone sn hh]
  generalize hk : (if sn.pend = [] then pending
    else pending.map (·.filter (fun id => !Ascending.contains sn.pend id))) = kept
  have hks : (kept.getD []).SortedLT := by
    rw [← hk]
    split
    · exact hs
    · exact getD_map_filter_sorted _ hs
  have hkm : ∀ x, x ∈ kept.getD [] ↔ x ∈ pending.getD [] ∧ x ∉ sn.pend := by
    intro x
    rw [← hk]
    split
    · simp [*]
    · exact mem_getD_map_filter hp x
  by_cases hg : sn.gone hot = []
  · simp only [hg, if_true, ite_self, List.not_mem_nil, or_false]
    exact ⟨hks, hkm⟩
  · have hhv : sn.hv ≠ [] := by
      obtain ⟨x, hx⟩ := List.exists_mem_of_ne_nil _ hg
      exact List.ne_nil_of_mem ((mem_gone sn hh x).mp hx).1
    simp only [if_neg hhv, if_neg hg, Option.getD_some]
    obtain ⟨hfs, hfm⟩ := Ascending.foldl_insertSorted (sn.gone hot) hks
    exact ⟨hfs, fun x => by rw [hfm, hkm]⟩

/-- The hook over a batch: what was merged leaves the deferred tiers, and what left the hot tier
while merging is marked. -/
theorem foldl_subtract (ix : KeywordIndex) {snaps : List Snap} (hnd : (snaps.map Snap.th).Nodup)
    (hhv : ∀ sn ∈ snaps, sn.hv.SortedLT) (hpd : ∀ sn ∈ snaps, sn.pend.SortedLT)
    (hh : ∀ th, ((ix.hot th).getD []).SortedLT)
    (hp : ∀ th, ((ix.pendingRemovals th).getD []).SortedLT) :
    let ix' := snaps.foldl subtract ix
    ix'.cold = ix.cold ∧ ix'.subtokens = ix.subtokens ∧
      (∀ th, ((ix'.hot th).getD []).SortedLT) ∧
      (∀ th, ((ix'.pendingRemovals th).getD []).SortedLT) ∧
      (∀ k x, InTier ix'.hot k x ↔
        InTier ix.hot k x ∧ ∀ sn ∈ snaps, sn.th = k → x ∉ sn.hv) ∧
      ∀ k x, InTier ix'.pendingRemovals k x ↔
        (InTier ix.pendingRemovals k x ∧ ∀ sn ∈ snaps, sn.th = k → x ∉ sn.pend) ∨
          ∃ sn ∈ snaps, sn.th = k ∧ x ∈ sn.hv ∧ ¬ InTier ix.hot k x := by
  induction snaps generalizing ix with
  | nil => exact ⟨rfl, rfl, hh, hp, by simp, by simp⟩
  | cons sn snaps ih =>
    obtain ⟨hnot, hnd⟩ := List.nodup_cons.mp hnd
    obtain ⟨hsv, hhv⟩ := List.forall_mem_cons.mp hhv
    obtain ⟨hsp, hpd⟩ := List.forall_mem_cons.mp hpd
    obtain ⟨hts, htm⟩ := trimPending hsp (hh sn.th) (hp sn.th)
    obtain ⟨hc, hsub, hs1, hs2, hm1, hm2⟩ := ih (subtract ix sn) hnd hhv hpd
      (sorted_update hh (trimHot_sorted sn (hh sn.th))) (sorted_update hp hts)
    have hne : ∀ s ∈ snaps, s.th ≠ sn.th := fun s hs he => hnot (he ▸ List.mem_map_of_mem hs)
    have hhot : ∀ k x, InTier (subtract ix sn).hot k x ↔
        InTier ix.hot k x ∧ (sn.th = k → x ∉ sn.hv) := by
      intro k x
      rw [subtract, inTier_update]
      split
      · rename_i hk
        subst hk
        simp [mem_trimHot hsv, InTier]
      · rename_i hk
        simp [Ne.symm hk]
    have hpend : ∀ k x, InTier (subtract ix sn).pendingRemovals k x ↔
        (InTier ix.pendingRemovals k x ∧ (sn.th = k → x ∉ sn.pend)) ∨
          (sn.th = k ∧ x ∈ sn.hv ∧ ¬ InTier ix.hot k x) := by
      intro k x
      rw [subtract, inTier_update]
      split
      · rename_i hk
        subst hk
        simp [htm, InTier]
      · rename_i hk
        simp [Ne.symm hk]
    refine ⟨hc, hsub, hs1, hs2, fun k x => ?_, fun k x => ?_⟩
    · rw [List.foldl_cons, hm1, hhot, List.forall_mem_cons, and_assoc]
    · rw [List.foldl_cons, hm2, hhot, hpend, List.forall_mem_cons, List.exists_mem_cons_iff]
      grind

theorem decode_cold (h : Sound ix p) (th : TokenHash) :
    ((ix.cold.get th).bind decode).getD [] = (p th).getD [] := by
  rw [h.cold.get]
  cases hp : p th with
  | none => rfl
  | some ids => simp [decode_encode (h.cold.length_lt hp)]

theorem inFlight_of_snapshot (h : Sound ix p) {keys : List TokenHash} (hs : keys.SortedLT)
    (hk : ∀ th ∈ keys, shardOf th = shardOf (keys.headD 0)) {c : Compaction}
    (hc : snapshot ix keys = some c) : InFlight ix p c := by
  have hsnap : ∀ sn ∈ snaps ix keys, sn.th ∈ keys ∧ sn.hv = (ix.hot sn.th).getD [] ∧
      sn.pend = (ix.pendingRemovals sn.th).getD [] := by
    intro sn hsn
    obtain ⟨th, hth, rfl⟩ := List.mem_map.mp (List.mem_filter.mp hsn).1
    exact ⟨hth, rfl, rfl⟩
  have hc' : c = ⟨shardOf (keys.headD 0), (snaps ix keys).map (updateOf ix), snaps ix keys⟩ := by
    rw [snapshot] at hc
    split at hc
    · cases hc
    · exact (Option.some.inj hc).symm
  subst hc'
  refine ⟨?_, ?_, fun sn hsn => hk _ (hsnap sn hsn).1, ?_, ?_, ?_, ?_⟩
  · refine List.map_congr_left (fun sn _ => ?_)
    rw [updateOf, mergedOf, decode_cold h, mergedOption]
    split <;> rfl
  · have hsub : ((snaps ix keys).map Snap.th).Sublist keys := by
      rw [snaps]
      refine (List.filter_sublist.map Snap.th).trans ?_
      simp [Function.comp_def]
    exact (hs.pairwise.sublist hsub).sortedLT
  · intro sn hsn
    rw [(hsnap sn hsn).2.1]
    exact h.hot_sorted sn.th
  · intro sn hsn
    rw [(hsnap sn hsn).2.2]
    exact h.pending_sorted sn.th
  · intro sn hsn _ x hx hn
    rw [(hsnap sn hsn).2.1] at hx
    exact absurd hx hn
  · intro sn hsn _ x hx hn
    rw [(hsnap sn hsn).2.2] at hx
    exact absurd hx hn

/-- The posting lists of the cold tier after a commit. -/
def committed (p : Tier) (c : Compaction) : Tier := fun th =>
  ((c.snaps.map (fun sn => (sn.th, mergedOption p sn))).lookup th).getD (p th)

theorem committed_of_mem {c : Compaction} (hk : (c.snaps.map Snap.th).SortedLT) {sn : Snap}
    (hsn : sn ∈ c.snaps) : committed p c sn.th = mergedOption p sn := by
  have hs : SortedMap.Sorted (c.snaps.map (fun sn => (sn.th, mergedOption p sn))) := by
    simpa [SortedMap.Sorted, Function.comp_def] using hk
  rw [committed, (SortedMap.lookup_eq_some_iff hs).mpr (List.mem_map_of_mem hsn)]
  rfl

theorem committed_of_notMem {c : Compaction} {th : TokenHash}
    (hn : ∀ sn ∈ c.snaps, sn.th ≠ th) : committed p c th = p th := by
  rw [committed, SortedMap.lookup_eq_none]
  · rfl
  · simpa [Function.comp_def] using hn

theorem holds_committed (h : Sound ix p) {c : Compaction} (hf : InFlight ix p c)
    (ha : ((ix.cold.shards c.shard).rebuild c.updates).1.arena.length < 2 ^ 32) :
    Holds (ix.cold.rebuild c.shard c.updates).1 (committed p c) := by
  have hu : c.updates = SortedMap.mapValues (Option.map encode)
      (c.snaps.map (fun sn => (sn.th, mergedOption p sn))) := by
    simp [hf.updates, SortedMap.mapValues]
  rw [hu] at ha ⊢
  refine h.cold.rebuild ?_ ?_ ?_ ha
  · simpa [SortedMap.Sorted, Function.comp_def] using hf.keys_sorted
  · intro th hth
    obtain ⟨sn, hsn, rfl⟩ : ∃ sn ∈ c.snaps, sn.th = th := by simpa using hth
    exact hf.in_shard sn hsn
  · intro th ids hm
    obtain ⟨sn, hsn, he⟩ := List.mem_map.mp hm
    have hids : (mergedOption p sn).getD [] = ids := by rw [(Prod.mk.inj he).2]; rfl
    rw [← hids, getD_mergedOption]
    exact mergeTiers_sorted (h.cold_sorted sn.th) (hf.hv_sorted sn hsn) (hf.pend_sorted sn hsn)

/-- One id under one keyword: hot `H`, marked `P`, in the old blob `C`, in the snapshot's hot ids
`V` and marks `N`. -/
theorem commit_tiers {H P C V N : Prop} (hd : H → ¬ P) (hl : C → V → ¬ H → P)
    (hr : C → N → ¬ P → H) :
    H ∨ (C ∧ ¬ P) ↔
      (H ∧ ¬ V) ∨ ((V ∨ (C ∧ ¬ N)) ∧ ¬ ((P ∧ ¬ N) ∨ (V ∧ ¬ H))) := by
  by_cases hH : H
  · have hP := hd hH
    by_cases hV : V <;> simp [hH, hP, hV]
  · by_cases hC : C
    · by_cases hP : P
      · by_cases hN : N <;> by_cases hV : V <;> simp [hH, hP, hN, hV]
      · have hV : ¬ V := fun hV => hP (hl hC hV hH)
        have hN : ¬ N := fun hN => hH (hr hC hN hP)
        simp [hH, hC, hP, hV, hN]
    · by_cases hV : V <;> simp [hH, hC, hV]

/-- A commit moves ids between the tiers and changes no keyword's set. -/
theorem agrees_commit (h : Agrees ix p files) {c : Compaction} (hf : InFlight ix p c)
    (ha : ((ix.cold.shards c.shard).rebuild c.updates).1.arena.length < 2 ^ 32) :
    Agrees (commit ix c).1 (committed p c) files := by
  obtain ⟨hc, -, hs1, hs2, hm1, hm2⟩ := foldl_subtract
    { ix with cold := (ix.cold.rebuild c.shard c.updates).1 } hf.keys_sorted.nodup
    hf.hv_sorted hf.pend_sorted h.sound.hot_sorted h.sound.pending_sorted
  refine ⟨⟨?_, hs1, hs2⟩, fun th x => ?_, fun th x => ?_⟩
  · rw [Compact.commit, hc]
    exact holds_committed h.sound hf ha
  · have hd := h.disjoint th x
    simp only [Compact.commit, hm1, hm2]
    grind
  · simp only [Compact.commit, hm1, hm2, h.mem_files]
    by_cases hth : ∃ sn ∈ c.snaps, sn.th = th
    · obtain ⟨sn, hsn, rfl⟩ := hth
      have huniq : ∀ sn' ∈ c.snaps, sn'.th = sn.th → sn' = sn := fun sn' hsn' he =>
        List.inj_on_of_nodup_map hf.keys_sorted.nodup hsn' hsn he
      have hcold : InTier (committed p c) sn.th x ↔
          x ∈ sn.hv ∨ (InTier p sn.th x ∧ x ∉ sn.pend) := by
        rw [InTier, committed_of_mem hf.keys_sorted hsn, getD_mergedOption,
          mem_mergeTiers (h.sound.cold_sorted sn.th) (hf.pend_sorted sn hsn)]
        rfl
      have hsome : InTier p sn.th x → (p sn.th).isSome := by
        intro hx
        cases hp : p sn.th with
        | none => simp [InTier, hp] at hx
        | some ids => rfl
      have hall : ∀ q : Snap → Prop, (∀ s ∈ c.snaps, s.th = sn.th → q s) ↔ q sn := fun q =>
        ⟨fun hq => hq sn hsn rfl, fun hq s hs he => huniq s hs he ▸ hq⟩
      have hex : (∃ s ∈ c.snaps, s.th = sn.th ∧ x ∈ s.hv ∧ ¬ InTier ix.hot sn.th x) ↔
          x ∈ sn.hv ∧ ¬ InTier ix.hot sn.th x := by
        constructor
        · rintro ⟨s, hs, he, hx⟩
          obtain rfl := huniq s hs he
          exact hx
        · intro hx
          exact ⟨sn, hsn, rfl, hx⟩
      have hl := fun hx => hf.left_hot sn hsn (hsome hx) x
      have hr := fun hx => hf.left_pending sn hsn (hsome hx) x
      rw [hall, hall, hex, hcold]
      exact commit_tiers (h.disjoint sn.th x) hl hr
    · have hne : ∀ sn ∈ c.snaps, sn.th ≠ th := fun sn hsn he => hth ⟨sn, hsn, he⟩
      have hcold : InTier (committed p c) th x ↔ InTier p th x := by
        rw [InTier, committed_of_notMem hne, InTier]
      rw [hcold]
      grind

end Ed2kServer.Keyword.CommitStep
