import Ed2kServer.Keyword.Refinement

namespace Ed2kServer.Keyword.ArenaLimit

open Ed2kServer.Lib Ed2kServer.Lib.Transition Ed2kServer.Text.Chars
open Ed2kServer.Keyword.ColdShard Ed2kServer.Keyword.Cold Ed2kServer.Keyword.PostingCodec
open Ed2kServer.Keyword.MergeTiers Ed2kServer.Keyword.Tokenizer Ed2kServer.Keyword.Index
open Ed2kServer.Keyword.Compact Ed2kServer.Keyword.Abstract Ed2kServer.Keyword.CommitStep
open Ed2kServer.Keyword.Refinement

/-- The first `n` ids, in order. -/
def ids (n : Nat) : List FileId := (List.range n).map UInt32.ofNat

def name : Str := "aa".toList

def addAll (n : Nat) : List Event :=
  (ids n).flatMap (fun id => [.call 0 .add id name, .token 0])

/-- Every id there is published under one name, then one compaction. -/
def fillAndCompact (n : Nat) : List Event :=
  addAll n ++ [.snapshot [tokenHash name], .commit]

theorem tokens_name : indexTokensInto basicLatin name false = [name] := by decide

theorem ids_succ (n : Nat) : ids (n + 1) = ids n ++ [UInt32.ofNat n] := by
  simp [ids, List.range_succ]

theorem mem_ids_lt {n : Nat} (hn : n < 2 ^ 32) {x : FileId} (hx : x ∈ ids n) :
    x < UInt32.ofNat n := by
  obtain ⟨i, hi, rfl⟩ := List.mem_map.mp hx
  have hin := List.mem_range.mp hi
  rw [UInt32.lt_iff_toNat_lt, UInt32.toNat_ofNat', UInt32.toNat_ofNat']
  omega

theorem ids_sorted {n : Nat} (hn : n ≤ 2 ^ 32) : (ids n).SortedLT := by
  induction n with
  | zero => exact List.Pairwise.nil.sortedLT
  | succ n ih =>
    have hlt : n < 2 ^ 32 := hn
    rw [ids_succ, ← Ascending.insertSorted_of_forall_lt (ih hlt.le) (fun y => mem_ids_lt hlt)]
    exact Ascending.insertSorted_sorted (ih hlt.le) _

theorem exec_addOne (hot : Tier) (id : FileId) :
    exec (step basicLatin) ⟨⟨.empty, hot, fun _ => none, false⟩, fun _ => [], none⟩
        [.call 0 .add id name, .token 0] =
      some ⟨⟨.empty, Function.update hot (tokenHash name)
        (some (Ascending.insertSorted ((hot (tokenHash name)).getD []) id)), fun _ => none, false⟩,
        fun _ => [], none⟩ := by
  have hcalls : Function.update (Function.update (fun _ : Nat => ([] : List TokenOp)) 0
      [⟨.add, id, tokenHash name⟩]) 0 [] = fun _ => [] := by
    simp
  simp [exec_cons, step, KeywordIndex.tokenHashes, tokens_name, perform, KeywordIndex.addToken,
    hcalls]

theorem exec_addAll {n : Nat} (hn : n ≤ 2 ^ 32) :
    ∃ hot : Tier, (hot (tokenHash name)).getD [] = ids n ∧
      (∀ th, th ≠ tokenHash name → hot th = none) ∧
      exec (step basicLatin) (.init false) (addAll n) =
        some ⟨⟨.empty, hot, fun _ => none, false⟩, fun _ => [], none⟩ := by
  induction n with
  | zero => exact ⟨fun _ => none, rfl, fun _ _ => rfl, rfl⟩
  | succ n ih =>
    have hlt : n < 2 ^ 32 := hn
    obtain ⟨hot, hh, hother, hrun⟩ := ih hlt.le
    have hins := Ascending.insertSorted_of_forall_lt (ids_sorted hlt.le)
      (fun y => mem_ids_lt hlt)
    refine ⟨Function.update hot (tokenHash name) (some (ids (n + 1))), by simp, ?_, ?_⟩
    · intro th hth
      rw [Function.update_of_ne hth, hother th hth]
    · rw [addAll, ids_succ, List.flatMap_append, exec_append, ← addAll, hrun,
        List.flatMap_singleton, Option.bind_some, exec_addOne, hh, hins]

theorem writeVarint_small : writeVarint 0 = [0] ∧ writeVarint 1 = [1] := by
  constructor <;> (rw [writeVarint]; rfl)

theorem encodeFrom_ids (n : Nat) : (encodeFrom 0 (ids n)).length = n := by
  induction n with
  | zero => rfl
  | succ n ih =>
    rw [ids_succ, encodeFrom_append_one, List.length_append, ih]
    congr 1
    cases n with
    | zero => simp [ids, writeVarint_small]
    | succ n => simp [ids_succ, writeVarint_small]

theorem encode_ids {n : Nat} (hn : n = 2 ^ 32) :
    encode (ids n) = 0 :: encodeFrom 0 (ids n) := by
  have hcount : UInt32.ofNat (ids n).length = 0 := by
    apply UInt32.toNat_inj.mp
    rw [UInt32.toNat_ofNat', ids, List.length_map, List.length_range, hn]
    rfl
  rw [encode, hcount, writeVarint_small.1]
  rfl

/-- The end of the only blob wraps to 1, so all that is left of it is its count, 0. -/
theorem blob_of_full {n : Nat} (hn : n = 2 ^ 32) (th : TokenHash) :
    (Shard.empty.push th (encode (ids n))).blob 0 = [0] := by
  have hlen : (encode (ids n)).length = 2 ^ 32 + 1 := by
    rw [encode_ids hn, List.length_cons, encodeFrom_ids, hn]
  have hend : (UInt32.ofNat (encode (ids n)).length).toNat = 1 := by
    rw [hlen]
    rfl
  simp only [Shard.blob, Shard.span, Shard.push, Shard.empty, List.nil_append, if_true,
    List.getD_cons_zero, hend]
  rw [encode_ids hn]
  rfl

/-- The compaction of the one keyword, between its halves. -/
def fullBatch (n : Nat) : Compaction :=
  ⟨shardOf (tokenHash name), [(tokenHash name, some (encode (ids n)))],
    [⟨tokenHash name, ids n, []⟩]⟩

section Full

variable {n : Nat} {hot : Tier}

theorem ids_ne_nil (hn : n = 2 ^ 32) : ids n ≠ [] := by
  rw [ne_eq, ← List.length_eq_zero_iff, ids, List.length_map, List.length_range, hn]
  decide

theorem snapshot_full (hn : n = 2 ^ 32) (hh : (hot (tokenHash name)).getD [] = ids n) :
    snapshot ⟨.empty, hot, fun _ => none, false⟩ [tokenHash name] = some (fullBatch n) := by
  set ix : KeywordIndex := ⟨.empty, hot, fun _ => none, false⟩ with hix
  have hsnaps : snaps ix [tokenHash name] = [⟨tokenHash name, ids n, []⟩] := by
    simp [snaps, hix, hh, ids_ne_nil hn]
  have hm : mergedOf ix ⟨tokenHash name, ids n, []⟩ = ids n := by
    simp [mergedOf, hix, holds_empty.get, mergeTiers]
  simp [snapshot, hsnaps, updateOf, hm, ids_ne_nil hn, fullBatch]

theorem commit_full_cold (hn : n = 2 ^ 32) :
    (commit ⟨.empty, hot, fun _ => none, false⟩ (fullBatch n)).1.cold.get (tokenHash name) =
      some [0] := by
  have hpush : (Shard.empty.rebuild [(tokenHash name, some (encode (ids n)))]).1 =
      Shard.empty.push (tokenHash name) (encode (ids n)) := by
    simp [Shard.rebuild, Shard.rebuildLoop, Shard.empty]
  have hfind : (Shard.empty.push (tokenHash name) (encode (ids n))).find (tokenHash name) =
      some 0 := by
    simp [Shard.find, Shard.push, Shard.empty, Ascending.binarySearch, Ascending.rank]
  simp only [commit, fullBatch, List.foldl_cons, List.foldl_nil, subtract, ColdStore.get,
    ColdStore.rebuild, ColdStore.empty, Function.update_self, hpush, hfind, Option.map_some,
    blob_of_full hn]

theorem commit_full_hot (hn : n = 2 ^ 32) (hh : (hot (tokenHash name)).getD [] = ids n) :
    ((commit ⟨.empty, hot, fun _ => none, false⟩ (fullBatch n)).1.hot (tokenHash name)).getD [] =
      [] := by
  refine List.eq_nil_iff_forall_not_mem.mpr (fun x hx => ?_)
  simp only [commit, fullBatch, List.foldl_cons, List.foldl_nil, subtract,
    Function.update_self] at hx
  rw [mem_trimHot (ids_sorted hn.le), hh] at hx
  exact hx.2 hx.1

end Full

theorem exec_fillAndCompact {n : Nat} (hn : n = 2 ^ 32) :
    ∃ s, exec (step basicLatin) (.init false) (fillAndCompact n) = some s ∧
      (s.index.mergeTiersLocked (tokenHash name) USIZE_MAX).getD [] = [] := by
  obtain ⟨hot, hh, -, hrun⟩ := exec_addAll hn.le
  refine ⟨⟨(commit ⟨.empty, hot, fun _ => none, false⟩ (fullBatch n)).1, fun _ => [], none⟩,
    ?_, ?_⟩
  · have hsorted : [tokenHash name].SortedLT := (List.pairwise_singleton _ _).sortedLT
    rw [fillAndCompact, exec_append, hrun]
    simp [exec_cons, step, snapshot_full hn hh, hsorted]
  · have hcur : ((PostingCursor.new [0]).bind PostingCursor.cur) = none := by decide
    rw [KeywordIndex.mergeTiersLocked, commit_full_cold hn, commit_full_hot hn hh,
      if_neg (by simp)]
    exact mergeCursor_of_none _ _ hcur _

theorem files_addAll (n : Nat) (sp : Spec) {x : FileId} (hx : x ∈ ids n) :
    x ∈ ((addAll n).foldl (Spec.step basicLatin false) sp).files (tokenHash name) := by
  induction n with
  | zero => cases hx
  | succ n ih =>
    have hcall := spec_call basicLatin false ((addAll n).foldl (Spec.step basicLatin false) sp) 0
      .add (UInt32.ofNat n) name (tokenHash name)
    simp only [tokens_name, List.map_cons, List.map_nil, List.length_singleton,
      List.replicate_one, List.mem_singleton, if_true] at hcall
    rw [addAll, ids_succ, List.flatMap_append, List.foldl_append, ← addAll,
      List.flatMap_singleton, hcall, Set.mem_insert_iff]
    rw [ids_succ, List.mem_append, List.mem_singleton] at hx
    exact hx.symm.imp_right ih

/-- A keyword of all `2 ^ 32` ids reads as empty once it is compacted. -/
theorem fillAndCompact_loses :
    ∃ s, exec (step basicLatin) (.init false) (fillAndCompact (2 ^ 32)) = some s ∧
      (0 : FileId) ∈ ((fillAndCompact (2 ^ 32)).foldl (Spec.step basicLatin false) .init).files
        (tokenHash name) ∧
      (0 : FileId) ∉ (s.index.mergeTiersLocked (tokenHash name) USIZE_MAX).getD [] := by
  obtain ⟨n, hn⟩ : ∃ n, n = 2 ^ 32 := ⟨_, rfl⟩
  rw [← hn]
  obtain ⟨s, hrun, hnil⟩ := exec_fillAndCompact hn
  have h0 : (0 : FileId) ∈ ids n :=
    List.mem_map.mpr ⟨0, List.mem_range.mpr (by omega), rfl⟩
  refine ⟨s, hrun, ?_, by simp [hnil]⟩
  rw [fillAndCompact, List.foldl_append]
  exact files_addAll n .init h0

end Ed2kServer.Keyword.ArenaLimit
