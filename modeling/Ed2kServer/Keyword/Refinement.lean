import Ed2kServer.Keyword.CommitStep

namespace Ed2kServer.Keyword.Refinement

open Ed2kServer.Lib Ed2kServer.Lib.Transition Ed2kServer.Text.Chars
open Ed2kServer.Keyword.Cold Ed2kServer.Keyword.PostingCodec Ed2kServer.Keyword.MergeTiers
open Ed2kServer.Keyword.Tokenizer Ed2kServer.Keyword.Index Ed2kServer.Keyword.Lookup
open Ed2kServer.Keyword.Compact Ed2kServer.Keyword.Abstract Ed2kServer.Keyword.TokenStep
open Ed2kServer.Keyword.CommitStep

variable {U : Unicode} {subtokens : Bool}

/-- No commit builds an arena its 32-bit ends cannot address. -/
def Addressable (s : State) : Event → Prop
  | .commit => ∀ c, s.compaction = some c →
      ((s.index.cold.shards c.shard).rebuild c.updates).1.arena.length < 2 ^ 32
  | _ => True

instance (s : State) (e : Event) : Decidable (Addressable s e) :=
  match e with
  | .commit =>
    match h : s.compaction with
    | none => .isTrue (by simp [Addressable, h])
    | some c =>
      decidable_of_iff
        (((s.index.cold.shards c.shard).rebuild c.updates).1.arena.length < 2 ^ 32)
        (by simp [Addressable, h])
  | .call .. | .token .. | .snapshot .. | .dropHot .. | .dropPending .. => .isTrue trivial

structure Simulates (subtokens : Bool) (s : State) (sp : Spec) : Prop where
  calls : s.calls = sp.calls
  subtokens : s.index.subtokens = subtokens
  tiers : ∃ p, Agrees s.index p sp.files ∧ ∀ c, s.compaction = some c → InFlight s.index p c

theorem inTier_dropEmpty (tier : Tier) (th k : TokenHash) :
    (dropEmpty tier th k).getD [] = (tier k).getD [] := by
  rw [dropEmpty]
  split
  · rename_i h
    by_cases hk : k = th
    · subst hk
      simp [h]
    · simp [hk]
  · rfl

theorem agrees_congr {ix ix' : KeywordIndex} {p : Tier} {files : TokenHash → Set FileId}
    (h : Agrees ix p files) (hc : ix'.cold = ix.cold)
    (hh : ∀ th, (ix'.hot th).getD [] = (ix.hot th).getD [])
    (hp : ∀ th, (ix'.pendingRemovals th).getD [] = (ix.pendingRemovals th).getD []) :
    Agrees ix' p files := by
  obtain ⟨⟨h1, h2, h3⟩, h4, h5⟩ := h
  simp only [InTier, ← hh, ← hp, ← hc] at h1 h2 h3 h4 h5
  exact ⟨⟨h1, h2, h3⟩, h4, h5⟩

theorem inFlight_congr {ix ix' : KeywordIndex} {p : Tier} {c : Compaction}
    (h : InFlight ix p c) (hh : ∀ th, (ix'.hot th).getD [] = (ix.hot th).getD [])
    (hp : ∀ th, (ix'.pendingRemovals th).getD [] = (ix.pendingRemovals th).getD []) :
    InFlight ix' p c := by
  obtain ⟨h1, h2, h3, h4, h5, h6, h7⟩ := h
  simp only [InTier, ← hh, ← hp] at h6 h7
  exact ⟨h1, h2, h3, h4, h5, h6, h7⟩

theorem commit_subtokens {ix : KeywordIndex} {p : Tier} {files : TokenHash → Set FileId}
    {c : Compaction} (h : Agrees ix p files) (hf : InFlight ix p c) :
    (commit ix c).1.subtokens = ix.subtokens :=
  (foldl_subtract { ix with cold := (ix.cold.rebuild c.shard c.updates).1 }
    hf.keys_sorted.nodup hf.hv_sorted hf.pend_sorted h.sound.hot_sorted
    h.sound.pending_sorted).2.1

theorem simulates_init : Simulates subtokens (.init subtokens) .init where
  calls := rfl
  subtokens := rfl
  tiers := by
    have hnil : ([] : List FileId).SortedLT := List.Pairwise.nil.sortedLT
    refine ⟨fun _ => none, ⟨⟨holds_empty, fun _ => hnil, fun _ => hnil⟩, ?_, ?_⟩, ?_⟩
    · intro th x hx
      cases hx
    · intro th x
      simp [InTier, Spec.init, State.init, KeywordIndex.withSubtokens]
    · intro c hc
      cases hc

theorem simulates_step {s t : State} {sp : Spec} {e : Event} (h : Simulates subtokens s sp)
    (ha : Addressable s e) (hs : step U s e = some t) :
    Simulates subtokens t (sp.step U subtokens e) := by
  obtain ⟨hcalls, hsub, p, hag, hfl⟩ := h
  cases e with
  | call th op id filename =>
    obtain ⟨-, ht⟩ := Option.ite_none_right_eq_some.mp hs
    obtain rfl := Option.some.inj ht
    refine ⟨?_, hsub, p, hag, hfl⟩
    simp [Spec.step, hcalls, KeywordIndex.tokenHashes, hsub, Function.comp_def]
  | token th =>
    cases hc : s.calls th with
    | nil => simp [step, hc] at hs
    | cons o rest =>
      obtain rfl : _ = t := by simpa [step, hc] using hs
      rw [Spec.step, ← hcalls, hc]
      refine ⟨rfl, ?_, p, agrees_perform hag o, fun c hc => inFlight_perform hag.sound (hfl c hc) o⟩
      rw [← hsub]
      cases ho : o.op <;> simp [perform, ho, KeywordIndex.addToken, KeywordIndex.removeToken]
  | snapshot keys =>
    obtain ⟨⟨-, hk, hsh⟩, ht⟩ := Option.ite_none_right_eq_some.mp hs
    obtain rfl := Option.some.inj ht
    have hone : ∀ th ∈ keys, shardOf th = shardOf (keys.headD 0) := fun th hth =>
      beq_iff_eq.mp (List.all_eq_true.mp hsh th hth)
    exact ⟨hcalls, hsub, p, hag, fun c hc => inFlight_of_snapshot hag.sound hk hone hc⟩
  | commit =>
    cases hc : s.compaction with
    | none => simp [step, hc] at hs
    | some c =>
      obtain rfl : _ = t := by simpa [step, hc] using hs
      have hf := hfl c hc
      refine ⟨hcalls, (commit_subtokens hag hf).trans hsub, committed p c,
        agrees_commit hag hf (ha c hc), fun c' hc' => ?_⟩
      cases hc'
  | dropHot th =>
    cases hs
    exact ⟨hcalls, hsub, p, agrees_congr hag rfl (inTier_dropEmpty _ th) (fun _ => rfl),
      fun c hc => inFlight_congr (hfl c hc) (inTier_dropEmpty _ th) (fun _ => rfl)⟩
  | dropPending th =>
    cases hs
    exact ⟨hcalls, hsub, p, agrees_congr hag rfl (fun _ => rfl) (inTier_dropEmpty _ th),
      fun c hc => inFlight_congr (hfl c hc) (fun _ => rfl) (inTier_dropEmpty _ th)⟩

/-- Every lookup of ids answers the same. -/
def SameLookups (ix ix' : KeywordIndex) : Prop :=
  (∀ th cap, (ix.mergeTiersLocked th cap).getD [] = (ix'.mergeTiersLocked th cap).getD []) ∧
    (∀ groups, ix.findGrouped groups = ix'.findGrouped groups) ∧
      ∀ groups cap, ix.findGroupedCapped groups cap = ix'.findGroupedCapped groups cap

theorem findGrouped_filter (ix : KeywordIndex) (groups : List (List Str)) :
    ix.findGrouped (groups.filter (· ≠ [])) = ix.findGrouped groups := by
  have hone : (groups.filter (· ≠ [])).filter (·.length = 1) =
      groups.filter (·.length = 1) := by
    rw [List.filter_filter]
    exact List.filter_congr (fun g _ => by cases g <;> simp)
  have hmany : (groups.filter (· ≠ [])).filter (1 < ·.length) =
      groups.filter (1 < ·.length) := by
    rw [List.filter_filter]
    exact List.filter_congr (fun g _ => by cases g <;> simp)
  rw [KeywordIndex.findGrouped, KeywordIndex.findGrouped, hone, hmany]
  by_cases hg : groups = []
  · simp [hg]
  · by_cases hf : groups.filter (· ≠ []) = []
    · rw [hf] at hone hmany
      simp [hg, ← hone, ← hmany, KeywordIndex.findIntersection]
    · rw [if_neg hg, if_neg hf]

variable {ix ix' : KeywordIndex} {p p' : Tier} {files : TokenHash → Set FileId}

theorem mem_posting_iff (h : Agrees ix p files) (th : TokenHash) (x : FileId) :
    x ∈ posting ix p th ↔ x ∈ files th := by
  rw [h.sound.mem_posting, h.mem_files]
  rfl

theorem sameLookups_of_agrees (h : Agrees ix p files) (h' : Agrees ix' p' files) :
    SameLookups ix ix' := by
  have hp : ∀ th, posting ix p th = posting ix' p' th := fun th =>
    (h.sound.posting_sorted th).eq_of_mem_iff (h'.sound.posting_sorted th)
      (fun x => by rw [mem_posting_iff h, mem_posting_iff h'])
  have hg : ∀ groups, ix.findGrouped groups = ix'.findGrouped groups := by
    intro groups
    rw [← findGrouped_filter ix, ← findGrouped_filter ix']
    by_cases hne : groups.filter (· ≠ []) = []
    · rw [hne]
      rfl
    · have hall : ∀ g ∈ groups.filter (· ≠ []), g ≠ [] := by
        intro g hgm
        simpa using (List.mem_filter.mp hgm).2
      obtain ⟨hs, hm⟩ := h.sound.findGrouped hne hall
      obtain ⟨hs', hm'⟩ := h'.sound.findGrouped hne hall
      exact hs.eq_of_mem_iff hs' (fun x => by rw [hm, hm']; simp only [hp])
  refine ⟨fun th cap => ?_, hg, fun groups cap => ?_⟩
  · rw [h.sound.mergeTiersLocked, h'.sound.mergeTiersLocked, hp]
  · unfold KeywordIndex.findGroupedCapped
    split
    · rw [KeywordIndex.materializePrefix, KeywordIndex.materializePrefix,
        h.sound.mergeTiersLocked, h'.sound.mergeTiersLocked, hp]
    · exact hg groups

theorem foldl_tokens (U : Unicode) (subtokens : Bool) (sp : Spec) (t : Nat)
    (ops : List TokenOp) (h : sp.calls t = ops) :
    ((List.replicate ops.length (Event.token t)).foldl (Spec.step U subtokens) sp).files =
      ops.foldl applyOp sp.files := by
  induction ops generalizing sp with
  | nil => rfl
  | cons o ops ih =>
    rw [List.length_cons, List.replicate_succ, List.foldl_cons, List.foldl_cons, Spec.step, h]
    exact ih _ (by simp)

theorem foldl_applyOp (op : Op) (id : FileId) (ths : List TokenHash)
    (files : TokenHash → Set FileId) (th : TokenHash) :
    (ths.map (fun th => (⟨op, id, th⟩ : TokenOp))).foldl applyOp files th =
      if th ∈ ths then
        (match op with | .add => insert id (files th) | .remove => files th \ {id})
      else files th := by
  induction ths generalizing files with
  | nil => rfl
  | cons k ths ih =>
    rw [List.map_cons, List.foldl_cons, ih]
    by_cases hk : th = k
    · subst hk
      cases op <;> simp [applyOp]
    · simp [applyOp, hk]

/-- A call that runs alone inserts its id under every token of the name, or deletes it there. -/
theorem spec_call (U : Unicode) (subtokens : Bool) (sp : Spec) (t : Nat) (op : Op)
    (id : FileId) (filename : Str) (th : TokenHash) :
    let ths := (indexTokensInto U filename subtokens).map tokenHash
    ((Event.call t op id filename :: List.replicate ths.length (.token t)).foldl
      (Spec.step U subtokens) sp).files th =
      if th ∈ ths then
        (match op with | .add => insert id (sp.files th) | .remove => sp.files th \ {id})
      else sp.files th := by
  intro ths
  rw [List.foldl_cons, ← foldl_applyOp]
  have h := foldl_tokens U subtokens
    (sp.step U subtokens (.call t op id filename)) t
    (ths.map (fun th => (⟨op, id, th⟩ : TokenOp))) (by simp [Spec.step, ths, Function.comp_def])
  rw [List.length_map] at h
  exact congrFun h th

/-- At every point of every run the merged tiers of a keyword are its abstract set, ascending;
neither half of a compaction changes a lookup. -/
theorem mergeTiersLocked_refines {es : List Event} {s : State}
    (hc : Along (step U) Addressable (.init subtokens) es)
    (hrun : exec (step U) (.init subtokens) es = some s) :
    (∀ th, ((s.index.mergeTiersLocked th USIZE_MAX).getD []).SortedLT ∧
      ∀ x, x ∈ (s.index.mergeTiersLocked th USIZE_MAX).getD [] ↔
        x ∈ (es.foldl (Spec.step U subtokens) .init).files th) ∧
      (∀ keys t, step U s (.snapshot keys) = some t → SameLookups s.index t.index) ∧
      ∀ t, Addressable s .commit → step U s .commit = some t → SameLookups s.index t.index := by
  have hsim : Simulates subtokens s (es.foldl (Spec.step U subtokens) .init) :=
    exec_simulation_along (fun _ _ _ _ => simulates_step) simulates_init hc hrun
  obtain ⟨p, hag, -⟩ := hsim.tiers
  refine ⟨fun th => ?_, fun keys t ht => ?_, fun t ha ht => ?_⟩
  · rw [hag.sound.mergeTiersLocked_max]
    exact ⟨hag.sound.posting_sorted th, mem_posting_iff hag th⟩
  · obtain ⟨p', hag', -⟩ := (simulates_step (e := .snapshot keys) hsim trivial ht).tiers
    exact sameLookups_of_agrees hag hag'
  · obtain ⟨p', hag', -⟩ := (simulates_step hsim ha ht).tiers
    exact sameLookups_of_agrees hag hag'

/-- An id removed by a second thread between the snapshot and the commit. -/
def removedWhileMerging : List Event :=
  [.call 0 .add 5 "ab".toList, .token 0, .snapshot [tokenHash "ab".toList],
    .call 1 .remove 5 "ab".toList, .token 1, .commit]

theorem removedWhileMerging_refines :
    ∃ s, exec (step basicLatin) (.init false) removedWhileMerging = some s ∧
      ∀ th x, x ∈ (s.index.mergeTiersLocked th USIZE_MAX).getD [] ↔
        x ∈ (removedWhileMerging.foldl (Spec.step basicLatin false) .init).files th := by
  obtain ⟨s, hs⟩ : ∃ s, exec (step basicLatin) (.init false) removedWhileMerging = some s :=
    Option.isSome_iff_exists.mp (by decide)
  have hc : Along (step basicLatin) Addressable (.init false) removedWhileMerging := by
    decide +kernel
  exact ⟨s, hs, fun th => ((mergeTiersLocked_refines hc hs).1 th).2⟩

end Ed2kServer.Keyword.Refinement
