import Ed2kServer.Keyword.ArenaLimit

namespace Ed2kServer.Keyword.Grouped

open Ed2kServer.Lib Ed2kServer.Lib.Transition Ed2kServer.Text.Chars
open Ed2kServer.Keyword.MergeTiers Ed2kServer.Keyword.Tokenizer Ed2kServer.Keyword.Index
open Ed2kServer.Keyword.Lookup Ed2kServer.Keyword.Compact Ed2kServer.Keyword.Abstract
open Ed2kServer.Keyword.Refinement Ed2kServer.Keyword.ArenaLimit

/-- The ids that carry a token of every group. -/
def matching (files : TokenHash → Set FileId) (groups : List (List Str)) : Set FileId :=
  {x | ∀ g ∈ groups, ∃ t ∈ g, x ∈ files (tokenHash t)}

/-- The list holds the ids of the set, ascending. -/
def Lists (v : List FileId) (ids : Set FileId) : Prop := v.SortedLT ∧ ∀ x, x ∈ v ↔ x ∈ ids

theorem Lists.unique {v w : List FileId} {ids : Set FileId} (hv : Lists v ids)
    (hw : Lists w ids) : v = w :=
  hv.1.eq_of_mem_iff hw.1 (fun x => (hv.2 x).trans (hw.2 x).symm)

theorem matching_singles (files : TokenHash → Set FileId) (tokens : List Str) :
    matching files (tokens.map (fun t => [t])) = {x | ∀ t ∈ tokens, x ∈ files (tokenHash t)} := by
  simp [matching]

variable {U : Unicode} {subtokens : Bool} {ix : KeywordIndex} {p : Tier}
  {files : TokenHash → Set FileId}

theorem findGrouped_lists (h : Agrees ix p files) {groups : List (List Str)}
    (hne : groups ≠ []) (hg : ∀ g ∈ groups, g ≠ []) :
    Lists (ix.findGrouped groups) (matching files groups) := by
  obtain ⟨hs, hm⟩ := h.sound.findGrouped hne hg
  refine ⟨hs, fun x => ?_⟩
  simp only [hm, mem_posting_iff h, matching, Set.mem_ofPred_eq]

theorem intersectFrom_lists (h : Agrees ix p files) {tokens : List Str} {seed : Nat}
    (hlt : seed < tokens.length) :
    Lists (ix.intersectFrom tokens seed) (matching files (tokens.map (fun t => [t]))) := by
  obtain ⟨hs, hm⟩ := h.sound.intersectFrom hlt
  refine ⟨hs, fun x => ?_⟩
  rw [hm, matching_singles]
  simp only [mem_posting_iff h, Set.mem_ofPred_eq]

theorem findIntersection_lists (h : Agrees ix p files) {tokens : List Str} (hne : tokens ≠ []) :
    Lists (ix.findIntersection tokens) (matching files (tokens.map (fun t => [t]))) := by
  obtain ⟨hs, hm⟩ := h.sound.findIntersection hne
  refine ⟨hs, fun x => ?_⟩
  rw [hm, matching_singles]
  simp only [mem_posting_iff h, Set.mem_ofPred_eq]

theorem findGroupedCapped_single (h : Agrees ix p files) (t : Str) (cap : Nat) :
    ix.findGroupedCapped [[t]] cap = (ix.findGrouped [[t]]).take cap := by
  have hposting : Lists (posting ix p (tokenHash t)) (matching files [[t]]) := by
    refine ⟨h.sound.posting_sorted _, fun x => ?_⟩
    simp [mem_posting_iff h, matching]
  rw [(findGrouped_lists h (by simp) (by simp)).unique hposting, KeywordIndex.findGroupedCapped,
    KeywordIndex.materializePrefix, h.sound.mergeTiersLocked]

theorem findGroupedCapped_other (ix : KeywordIndex) {groups : List (List Str)}
    (h : ∀ t, groups ≠ [[t]]) (cap : Nat) : ix.findGroupedCapped groups cap =
      ix.findGrouped groups := by
  unfold KeywordIndex.findGroupedCapped
  split
  · exact absurd rfl (h _)
  · rfl

theorem agrees_of_run {es : List Event} {s : State}
    (hc : Along (step U) Addressable (.init subtokens) es)
    (hrun : exec (step U) (.init subtokens) es = some s) :
    ∃ p, Agrees s.index p (es.foldl (Spec.step U subtokens) .init).files := by
  have hsim : Simulates subtokens s (es.foldl (Spec.step U subtokens) .init) :=
    exec_simulation_along (fun _ _ _ _ => simulates_step) simulates_init hc hrun
  obtain ⟨p, hag, -⟩ := hsim.tiers
  exact ⟨p, hag⟩

/-- In every state of every run a grouped lookup is the ascending list of the ids that carry a
token of every group, an intersection the case of single tokens whichever of them it starts
from, and the capped lookup of one token its first ids. -/
theorem findGrouped_setAlgebra {es : List Event} {s : State}
    (hc : Along (step U) Addressable (.init subtokens) es)
    (hrun : exec (step U) (.init subtokens) es = some s) :
    (∀ groups, groups ≠ [] → (∀ g ∈ groups, g ≠ []) →
      Lists (s.index.findGrouped groups)
        (matching (es.foldl (Spec.step U subtokens) .init).files groups)) ∧
      (∀ tokens, tokens ≠ [] →
        s.index.findIntersection tokens = s.index.findGrouped (tokens.map (fun t => [t])) ∧
        (∀ tokens', (∀ t, t ∈ tokens' ↔ t ∈ tokens) →
          s.index.findIntersection tokens' = s.index.findIntersection tokens) ∧
        ∀ seed < tokens.length,
          s.index.intersectFrom tokens seed = s.index.findIntersection tokens) ∧
      (∀ t cap, s.index.findGroupedCapped [[t]] cap = (s.index.findGrouped [[t]]).take cap) ∧
      ∀ groups cap, (∀ t, groups ≠ [[t]]) →
        s.index.findGroupedCapped groups cap = s.index.findGrouped groups := by
  obtain ⟨p, hag⟩ := agrees_of_run hc hrun
  refine ⟨fun groups hne hg => findGrouped_lists hag hne hg, fun tokens hne => ⟨?_, ?_, ?_⟩,
    findGroupedCapped_single hag, fun groups cap h => findGroupedCapped_other _ h cap⟩
  · exact (findIntersection_lists hag hne).unique
      (findGrouped_lists hag (by simpa using hne) (by simp))
  · intro tokens' hmem
    have hne' : tokens' ≠ [] := by
      rintro rfl
      obtain ⟨t, ht⟩ := List.exists_mem_of_ne_nil tokens hne
      exact absurd ((hmem t).mpr ht) List.not_mem_nil
    have hl := findIntersection_lists hag hne'
    rw [matching_singles] at hl
    simp only [hmem] at hl
    rw [← matching_singles] at hl
    exact hl.unique (findIntersection_lists hag hne)
  · exact fun seed hlt => (intersectFrom_lists hag hlt).unique (findIntersection_lists hag hne)

theorem findGrouped_setAlgebra_removedWhileMerging :
    ∃ s, exec (step basicLatin) (.init false) removedWhileMerging = some s ∧
      Lists (s.index.findGrouped [["ab".toList]])
        (matching (removedWhileMerging.foldl (Spec.step basicLatin false) .init).files
          [["ab".toList]]) := by
  obtain ⟨s, hs⟩ : ∃ s, exec (step basicLatin) (.init false) removedWhileMerging = some s :=
    Option.isSome_iff_exists.mp (by decide)
  have hc : Along (step basicLatin) Addressable (.init false) removedWhileMerging := by
    decide +kernel
  exact ⟨s, hs, (findGrouped_setAlgebra hc hs).1 [["ab".toList]] (by simp) (by simp)⟩

/-- One file, published as "costarring". -/
def costarring : List Event := [.call 0 .add 7 "costarring".toList, .token 0]

theorem tokens_costarring :
    indexTokensInto basicLatin "costarring".toList false = ["costarring".toList] := by
  decide

theorem tokenHash_collision : tokenHash "liquid".toList = tokenHash "costarring".toList := by
  decide

theorem files_costarring : (7 : FileId) ∈
    (costarring.foldl (Spec.step basicLatin false) .init).files (tokenHash "liquid".toList) := by
  have hcall := spec_call basicLatin false .init 0 .add 7 "costarring".toList
    (tokenHash "liquid".toList)
  simp only [tokens_costarring, List.map_cons, List.map_nil, List.length_singleton,
    List.replicate_one, tokenHash_collision, List.mem_singleton, if_true] at hcall
  rw [tokenHash_collision, costarring, hcall]
  exact Set.mem_insert _ _

theorem findGrouped_of_empty {w : Str}
    (h : (ix.mergeTiersLocked (tokenHash w) USIZE_MAX).getD [] = []) :
    ix.findGrouped [[w]] = [] := by
  have hg : ix.findGrouped [[w]] = ix.findIntersection [w] := by
    simp [KeywordIndex.findGrouped]
  have hseed : ix.seedIndex [tokenHash w] = 0 := by
    have hlt := seedIndex_lt ix [tokenHash w] (by simp)
    rwa [List.length_singleton, Nat.lt_one_iff] at hlt
  rw [hg, findIntersection_eq ix (by simp), KeywordIndex.intersectFrom, List.map_singleton, hseed]
  simp only [List.getD_cons_zero, KeywordIndex.materialize]
  cases hm : ix.mergeTiersLocked (tokenHash w) USIZE_MAX with
  | none => rfl
  | some v =>
    obtain rfl : v = [] := by simpa [hm] using h
    rfl

/-- The two words have one hash, and the file of one is found under the other; and a word of all
`2 ^ 32` files finds none of them once it is compacted. -/
theorem findGrouped_not_exact :
    (∃ s, exec (step basicLatin) (.init false) costarring = some s ∧
      (7 : FileId) ∈ s.index.findGrouped [["liquid".toList]] ∧
      "liquid".toList ∉ indexTokensInto basicLatin "costarring".toList false) ∧
      ∃ s, exec (step basicLatin) (.init false) (fillAndCompact (2 ^ 32)) = some s ∧
        (0 : FileId) ∈ ((fillAndCompact (2 ^ 32)).foldl (Spec.step basicLatin false) .init).files
          (tokenHash name) ∧
        (0 : FileId) ∉ s.index.findGrouped [[name]] := by
  constructor
  · obtain ⟨s, hs⟩ : ∃ s, exec (step basicLatin) (.init false) costarring = some s :=
      Option.isSome_iff_exists.mp (by decide)
    have hc : Along (step basicLatin) Addressable (.init false) costarring := by
      decide
    obtain ⟨p, hag⟩ := agrees_of_run hc hs
    refine ⟨s, hs, ?_, by rw [tokens_costarring]; decide⟩
    refine ((findGrouped_lists hag (by simp) (by simp)).2 7).mpr (fun g hg => ?_)
    obtain rfl := List.mem_singleton.mp hg
    exact ⟨_, List.mem_singleton.mpr rfl, files_costarring⟩
  · obtain ⟨n, hn⟩ : ∃ n, n = 2 ^ 32 := ⟨_, rfl⟩
    rw [← hn]
    obtain ⟨s, hrun, hnil⟩ := exec_fillAndCompact hn
    have h0 : (0 : FileId) ∈ ids n :=
      List.mem_map.mpr ⟨0, List.mem_range.mpr (by omega), rfl⟩
    refine ⟨s, hrun, ?_, by rw [findGrouped_of_empty hnil]; exact List.not_mem_nil⟩
    rw [fillAndCompact, List.foldl_append]
    exact files_addAll n .init h0

end Ed2kServer.Keyword.Grouped
