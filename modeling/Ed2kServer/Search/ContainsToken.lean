import Ed2kServer.Keyword.ArenaLimit
import Ed2kServer.Search.Unknown

namespace Ed2kServer.Search.ContainsToken

open Ed2kServer.Lib Ed2kServer.Lib.Transition Ed2kServer.Text.Chars
open Ed2kServer.Keyword.ColdShard Ed2kServer.Keyword.Cold Ed2kServer.Keyword.PostingCodec
open Ed2kServer.Keyword.MergeTiers Ed2kServer.Keyword.Tokenizer Ed2kServer.Keyword.Index
open Ed2kServer.Keyword.Lookup Ed2kServer.Keyword.Compact Ed2kServer.Keyword.Abstract
open Ed2kServer.Keyword.CommitStep Ed2kServer.Keyword.Refinement Ed2kServer.Keyword.ArenaLimit
open Ed2kServer.Search.Tree Ed2kServer.Search.Unknown

def hotProbe (ix : KeywordIndex) (th : TokenHash) : Bool :=
  match ix.hot th with
  | some v => v ≠ []
  | none => false

/-- `contains_token` with its probe of the hot tier and its probe of the cold tier at two moments. -/
def probes (first second : KeywordIndex) (token : Str) : Bool :=
  hotProbe first (tokenHash token) || second.cold.containsKey (tokenHash token)

theorem containsToken_eq_probes (ix : KeywordIndex) (token : Str) :
    ix.containsToken token = probes ix ix token := rfl

variable (U : Unicode)

/-- What a call of `contains_token` somewhere in the run from `s` may answer. -/
def Answers (s : State) (during : List Event) (token : Str) (answer : Bool) : Prop :=
  ∃ es mid rest t u, during = es ++ mid ++ rest ∧ exec (step U) s es = some t ∧
    exec (step U) t mid = some u ∧ answer = probes t.index u.index token

variable {U} {subtokens : Bool}

theorem containsKey_iff {ix : KeywordIndex} {p : Tier} (h : Holds ix.cold p) (th : TokenHash) :
    ix.cold.containsKey th = true ↔ (p th).isSome := by
  have hk : ix.cold.containsKey th = (ix.cold.get th).isSome := by
    simp [ColdStore.containsKey, ColdStore.get]
  rw [hk, h.get, Option.isSome_map]

/-- The keyword has a cold blob, and no compaction in flight is about to remove it. -/
structure Kept (th : TokenHash) (s : State) : Prop where
  present : s.index.cold.containsKey th = true
  not_removed : ∀ c, s.compaction = some c → (th, none) ∉ c.updates

theorem snapshot_keeps {ix : KeywordIndex} {p : Tier} {th : TokenHash} (h : Sound ix p)
    (hne : (ix.mergeTiersLocked th USIZE_MAX).getD [] ≠ []) {keys : List TokenHash}
    {c : Compaction} (hc : snapshot ix keys = some c) : (th, none) ∉ c.updates := by
  intro hrem
  have hu : c.updates = (snaps ix keys).map (updateOf ix) := by
    rw [snapshot] at hc
    split at hc
    · cases hc
    · rw [← Option.some.inj hc]
  rw [hu] at hrem
  obtain ⟨sn, hsn, he⟩ := List.mem_map.mp hrem
  obtain ⟨k, -, rfl⟩ := List.mem_map.mp (List.mem_filter.mp hsn).1
  rw [updateOf] at he
  obtain ⟨hk, hnone⟩ := Prod.mk.inj he
  obtain rfl : k = th := hk
  have hm : mergedOf ix ⟨k, (ix.hot k).getD [], (ix.pendingRemovals k).getD []⟩ = [] := by
    by_contra hn
    simp [hn] at hnone
  rw [mergedOf, decode_cold h] at hm
  rw [h.mergeTiersLocked_max, posting] at hne
  exact hne hm

theorem commit_keeps {s : State} {p : Tier} {files : TokenHash → Set FileId} {th : TokenHash}
    {c : Compaction} (hag : Agrees s.index p files) (hf : InFlight s.index p c)
    (ha : ((s.index.cold.shards c.shard).rebuild c.updates).1.arena.length < 2 ^ 32)
    (hkept : Kept th s) (hc : s.compaction = some c) :
    (commit s.index c).1.cold.containsKey th = true := by
  rw [containsKey_iff (agrees_commit hag hf ha).sound.cold]
  by_cases hth : ∃ sn ∈ c.snaps, sn.th = th
  · obtain ⟨sn, hsn, rfl⟩ := hth
    rw [committed_of_mem hf.keys_sorted hsn, Option.isSome_iff_ne_none]
    intro hnone
    refine hkept.not_removed c hc ?_
    rw [hf.updates]
    exact List.mem_map.mpr ⟨sn, hsn, by rw [hnone]; rfl⟩
  · rw [committed_of_notMem (fun sn hsn he => hth ⟨sn, hsn, he⟩)]
    exact (containsKey_iff hag.sound.cold th).mp hkept.present

theorem kept_step {s t : State} {sp : Spec} {e : Event} {th : TokenHash}
    (h : Simulates subtokens s sp) (hkept : Kept th s) (ha : Addressable s e)
    (hne : (s.index.mergeTiersLocked th USIZE_MAX).getD [] ≠ []) (hs : step U s e = some t) :
    Kept th t := by
  obtain ⟨-, -, p, hag, hfl⟩ := h
  cases e with
  | call n op id filename =>
    obtain ⟨-, ht⟩ := Option.ite_none_right_eq_some.mp hs
    obtain rfl := Option.some.inj ht
    exact ⟨hkept.present, hkept.not_removed⟩
  | token n =>
    cases hc : s.calls n with
    | nil => simp [step, hc] at hs
    | cons o rest =>
      obtain rfl : _ = t := by simpa [step, hc] using hs
      refine ⟨?_, hkept.not_removed⟩
      cases ho : o.op <;>
        simpa [perform, ho, KeywordIndex.addToken, KeywordIndex.removeToken] using hkept.present
  | snapshot keys =>
    obtain ⟨-, ht⟩ := Option.ite_none_right_eq_some.mp hs
    obtain rfl := Option.some.inj ht
    exact ⟨hkept.present, fun c hc => snapshot_keeps hag.sound hne hc⟩
  | commit =>
    cases hc : s.compaction with
    | none => simp [step, hc] at hs
    | some c =>
      obtain rfl : _ = t := by simpa [step, hc] using hs
      refine ⟨commit_keeps hag (hfl c hc) (ha c hc) hkept hc, fun c' hc' => ?_⟩
      cases hc'
  | dropHot k =>
    cases hs
    exact ⟨hkept.present, hkept.not_removed⟩
  | dropPending k =>
    cases hs
    exact ⟨hkept.present, hkept.not_removed⟩

def ab : TokenHash := tokenHash "ab".toList

def publish : List Event := [.call 0 .add 5 "ab".toList, .token 0, .snapshot [ab], .commit]

/-- The only id in the cold tier is removed while another one comes into the hot tier. -/
def replace : List Event :=
  [.call 1 .add 6 "ab".toList, .token 1, .call 0 .remove 5 "ab".toList, .token 0, .snapshot [ab],
    .commit]

section Wrapped

def other : Str := "mox".toList

/-- The hashes of two keywords of one shard. -/
def th₁ : TokenHash := tokenHash name
def th₂ : TokenHash := tokenHash other

variable {n : Nat} {hot : Tier}

/-- The arena of the two blobs, and its first end, wrap. -/
def wrapped (n : Nat) : Shard := (Shard.empty.push th₁ (encode (ids n))).push th₂ (encode [0, 1])

/-- All ids under the one keyword and two under the other, in the hot tier. -/
def filled (hot : Tier) : KeywordIndex :=
  ⟨.empty, Function.update hot th₂ (some [0, 1]), fun _ => none, false⟩

def bothBatch (n : Nat) : Compaction :=
  ⟨shardOf th₁, [(th₁, some (encode (ids n))), (th₂, some (encode [0, 1]))],
    [⟨th₁, ids n, []⟩, ⟨th₂, [0, 1], []⟩]⟩

/-- After the first commit and the removal of an id. -/
def merged (n : Nat) (hot : Tier) : KeywordIndex :=
  (commit (filled hot) (bothBatch n)).1.removeToken 0 th₂

end Wrapped

end Ed2kServer.Search.ContainsToken
