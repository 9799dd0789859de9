import Ed2kServer.Keyword.Abstract

namespace Ed2kServer.Keyword.TokenStep

open Ed2kServer.Lib
open Ed2kServer.Keyword.Index Ed2kServer.Keyword.Lookup Ed2kServer.Keyword.Compact
open Ed2kServer.Keyword.Abstract

variable {ix : KeywordIndex} {p : Tier} {files : TokenHash → Set FileId} {id : FileId}
  {th : TokenHash}

theorem getD_map_removeSorted (o : Option (List FileId)) (id : FileId) :
    (o.map (Ascending.removeSorted · id)).getD [] = Ascending.removeSorted (o.getD []) id := by
  cases o <;> rfl

theorem inTier_update (tier : Tier) (th : TokenHash) (v : Option (List FileId)) (k : TokenHash)
    (x : FileId) : InTier (Function.update tier th v) k x ↔
      if k = th then x ∈ v.getD [] else InTier tier k x := by
  by_cases h : k = th
  · subst h
    simp [InTier]
  · simp [InTier, h]

theorem sorted_update {tier : Tier} (ht : ∀ k, ((tier k).getD []).SortedLT) {th : TokenHash}
    {v : Option (List FileId)} (hv : (v.getD []).SortedLT) (k : TokenHash) :
    ((Function.update tier th v k).getD []).SortedLT := by
  by_cases h : k = th
  · subst h
    simpa using hv
  · simpa [h] using ht k

theorem sound_addToken (h : Sound ix p) (id : FileId) (th : TokenHash) :
    Sound (ix.addToken id th) p where
  cold := h.cold
  hot_sorted := sorted_update h.hot_sorted (Ascending.insertSorted_sorted (h.hot_sorted th) id)
  pending_sorted := sorted_update h.pending_sorted (by
    rw [getD_map_removeSorted]
    exact Ascending.removeSorted_sorted (h.pending_sorted th) id)

theorem sound_removeToken (h : Sound ix p) (id : FileId) (th : TokenHash) :
    Sound (ix.removeToken id th) p where
  cold := h.cold
  hot_sorted := sorted_update h.hot_sorted (by
    rw [getD_map_removeSorted]
    exact Ascending.removeSorted_sorted (h.hot_sorted th) id)
  pending_sorted := by
    simp only [KeywordIndex.removeToken]
    split
    · exact sorted_update h.pending_sorted
        (Ascending.insertSorted_sorted (h.pending_sorted th) id)
    · exact h.pending_sorted

theorem mem_addToken_hot (h : Sound ix p) (k : TokenHash) (x : FileId) :
    InTier (ix.addToken id th).hot k x ↔ (k = th ∧ x = id) ∨ InTier ix.hot k x := by
  rw [KeywordIndex.addToken, inTier_update]
  split
  · rename_i hk
    subst hk
    simp [Ascending.mem_insertSorted (h.hot_sorted k), InTier]
  · simp [*]

theorem mem_addToken_pending (h : Sound ix p) (k : TokenHash) (x : FileId) :
    InTier (ix.addToken id th).pendingRemovals k x ↔
      ¬ (k = th ∧ x = id) ∧ InTier ix.pendingRemovals k x := by
  rw [KeywordIndex.addToken, inTier_update]
  split
  · rename_i hk
    subst hk
    simp [getD_map_removeSorted, Ascending.mem_removeSorted (h.pending_sorted k), InTier]
  · simp [*]

theorem mem_removeToken_hot (h : Sound ix p) (k : TokenHash) (x : FileId) :
    InTier (ix.removeToken id th).hot k x ↔ ¬ (k = th ∧ x = id) ∧ InTier ix.hot k x := by
  rw [KeywordIndex.removeToken, inTier_update]
  split
  · rename_i hk
    subst hk
    simp [getD_map_removeSorted, Ascending.mem_removeSorted (h.hot_sorted k), InTier]
  · simp [*]

theorem mem_removeToken_pending (h : Sound ix p) (k : TokenHash) (x : FileId) :
    InTier (ix.removeToken id th).pendingRemovals k x ↔
      (k = th ∧ x = id ∧ (p th).isSome) ∨ InTier ix.pendingRemovals k x := by
  simp only [KeywordIndex.removeToken, h.cold.containsKey]
  split
  · rename_i hp
    rw [inTier_update]
    split
    · rename_i hk
      subst hk
      simp [Ascending.mem_insertSorted (h.pending_sorted k), InTier, hp]
    · simp [*]
  · simp [*]

theorem mem_applyOp_add (k : TokenHash) (x : FileId) :
    x ∈ applyOp files ⟨.add, id, th⟩ k ↔ (k = th ∧ x = id) ∨ x ∈ files k := by
  by_cases hk : k = th
  · subst hk
    simp [applyOp]
  · simp [applyOp, hk]

theorem mem_applyOp_remove (k : TokenHash) (x : FileId) :
    x ∈ applyOp files ⟨.remove, id, th⟩ k ↔ ¬ (k = th ∧ x = id) ∧ x ∈ files k := by
  by_cases hk : k = th
  · subst hk
    simp [applyOp, and_comm]
  · simp [applyOp, hk]

theorem agrees_perform (h : Agrees ix p files) (o : TokenOp) :
    Agrees (perform ix o) p (applyOp files o) := by
  obtain ⟨op, id, th⟩ := o
  have hd := h.disjoint
  have hm := h.mem_files
  cases op with
  | add =>
    refine ⟨sound_addToken h.sound id th, fun k x => ?_, fun k x => ?_⟩
    · simp only [Compact.perform, mem_addToken_hot h.sound, mem_addToken_pending h.sound]
      grind
    · simp only [Compact.perform, mem_addToken_hot h.sound, mem_addToken_pending h.sound,
        mem_applyOp_add, hm]
      grind
  | remove =>
    have hnone : ∀ x, InTier p th x → (p th).isSome := by
      intro x hx
      cases hp : p th with
      | none => simp [InTier, hp] at hx
      | some ids => rfl
    refine ⟨sound_removeToken h.sound id th, fun k x => ?_, fun k x => ?_⟩
    · simp only [Compact.perform, mem_removeToken_hot h.sound, mem_removeToken_pending h.sound]
      grind
    · simp only [Compact.perform, mem_removeToken_hot h.sound, mem_removeToken_pending h.sound,
        mem_applyOp_remove, hm]
      grind

theorem inFlight_perform {c : Compaction} (hs : Sound ix p) (h : InFlight ix p c)
    (o : TokenOp) : InFlight (perform ix o) p c := by
  obtain ⟨op, id, th⟩ := o
  refine ⟨h.updates, h.keys_sorted, h.in_shard, h.hv_sorted, h.pend_sorted, ?_, ?_⟩
  · intro sn hsn hp x hx
    have hl := h.left_hot sn hsn hp x hx
    cases op <;> simp only [Compact.perform, mem_addToken_hot hs, mem_addToken_pending hs,
      mem_removeToken_hot hs, mem_removeToken_pending hs] <;> grind
  · intro sn hsn hp x hx
    have hr := h.left_pending sn hsn hp x hx
    cases op <;> simp only [Compact.perform, mem_addToken_hot hs, mem_addToken_pending hs,
      mem_removeToken_hot hs, mem_removeToken_pending hs] <;> grind

end Ed2kServer.Keyword.TokenStep
