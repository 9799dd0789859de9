import Ed2kServer.Keyword.Compact

namespace Ed2kServer.Keyword.Abstract

open Ed2kServer.Lib Ed2kServer.Lib.Transition Ed2kServer.Text.Chars
open Ed2kServer.Keyword.Cold Ed2kServer.Keyword.PostingCodec Ed2kServer.Keyword.MergeTiers
open Ed2kServer.Keyword.Tokenizer Ed2kServer.Keyword.Index Ed2kServer.Keyword.Lookup
open Ed2kServer.Keyword.Compact

/-- What the index is for: a set of files for each token hash. -/
structure Spec where
  calls : Nat → List TokenOp
  files : TokenHash → Set FileId

def Spec.init : Spec := ⟨fun _ => [], fun _ => ∅⟩

def applyOp (files : TokenHash → Set FileId) (o : TokenOp) : TokenHash → Set FileId :=
  Function.update files o.th
    (match o.op with
      | .add => insert o.id (files o.th)
      | .remove => files o.th \ {o.id})

def InTier (tier : Tier) (th : TokenHash) (x : FileId) : Prop := x ∈ (tier th).getD []

variable (U : Unicode) (subtokens : Bool)

def Spec.step (sp : Spec) : Event → Spec
  | .call t op id filename =>
    let tokens := (indexTokensInto U filename subtokens).map (fun tok => ⟨op, id, tokenHash tok⟩)
    { sp with calls := Function.update sp.calls t tokens }
  | .token t =>
    match sp.calls t with
    | [] => sp
    | o :: rest => ⟨Function.update sp.calls t rest, applyOp sp.files o⟩
  | .snapshot _ | .commit | .dropHot _ | .dropPending _ => sp

/-- What a commit installs for a snapshot's keyword. -/
def mergedOption (p : Tier) (sn : Snap) : Option (List FileId) :=
  if mergeTiers ((p sn.th).getD []) sn.hv sn.pend = [] then none
  else some (mergeTiers ((p sn.th).getD []) sn.hv sn.pend)

theorem getD_mergedOption (p : Tier) (sn : Snap) :
    (mergedOption p sn).getD [] = mergeTiers ((p sn.th).getD []) sn.hv sn.pend := by
  rw [mergedOption]
  split <;> simp [*]

/-- A compaction in flight whose batch, and what left the hot tier since, agree with the tiers. -/
structure InFlight (ix : KeywordIndex) (p : Tier) (c : Compaction) : Prop where
  updates : c.updates = c.snaps.map (fun sn => (sn.th, (mergedOption p sn).map encode))
  keys_sorted : (c.snaps.map Snap.th).SortedLT
  in_shard : ∀ sn ∈ c.snaps, shardOf sn.th = c.shard
  hv_sorted : ∀ sn ∈ c.snaps, sn.hv.SortedLT
  pend_sorted : ∀ sn ∈ c.snaps, sn.pend.SortedLT
  /-- Removed while merging: marked, if the keyword has a cold blob. -/
  left_hot : ∀ sn ∈ c.snaps, (p sn.th).isSome → ∀ x ∈ sn.hv, ¬ InTier ix.hot sn.th x →
    InTier ix.pendingRemovals sn.th x
  /-- No longer marked: added again. -/
  left_pending : ∀ sn ∈ c.snaps, (p sn.th).isSome → ∀ x ∈ sn.pend,
    ¬ InTier ix.pendingRemovals sn.th x → InTier ix.hot sn.th x

/-- The tiers against their abstract sets. -/
structure Agrees (ix : KeywordIndex) (p : Tier) (files : TokenHash → Set FileId) : Prop where
  sound : Sound ix p
  disjoint : ∀ th x, InTier ix.hot th x → ¬ InTier ix.pendingRemovals th x
  mem_files : ∀ th x, x ∈ files th ↔
    InTier ix.hot th x ∨ (InTier p th x ∧ ¬ InTier ix.pendingRemovals th x)

end Ed2kServer.Keyword.Abstract
