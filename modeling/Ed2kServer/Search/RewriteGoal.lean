import Ed2kServer.Search.Evaluate
import Ed2kServer.Search.PlainWords
import Ed2kServer.Search.Unknown

namespace Ed2kServer.Search.RewriteGoal

open Ed2kServer.Text.Chars Ed2kServer.Keyword.Tokenizer Ed2kServer.Keyword.Folding
open Ed2kServer.Search.Tree Ed2kServer.Search.Groups Ed2kServer.Search.Words
open Ed2kServer.Search.PlainWords Ed2kServer.Search.Unknown Ed2kServer.Search.Evaluate

variable (U : Unicode) (isKnown : Str → Bool)

/-- Terms without markers, meta and numeric leaves under AND and OR. -/
def Unmarked : SearchNode → Prop
  | .term s => ∀ w ∈ U.splitWhitespace s, Plain w
  | .bool .and l r | .bool .or l r => Unmarked l ∧ Unmarked r
  | .bool .not _ _ => False
  | .metaTag .. | .numeric .. => True

/-- The rewriting widens, leaves nothing unknown that empties the intersection, and is done. -/
structure ReachesGoal (node : SearchNode) : Prop where
  widens : ∀ name facts, evaluateFacts U node name facts = true →
    evaluateFacts U (dropUnknownWords U isKnown node).1 name facts = true
  known : (dropUnknownWords U isKnown node).2 ≠ [] →
    ∀ t, [t] ∈ candidateGroups U (dropUnknownWords U isKnown node).1 → isKnown t = true
  again : dropUnknownWords U isKnown (dropUnknownWords U isKnown node).1 =
    ((dropUnknownWords U isKnown node).1, [])

/-- No term of a conjunction has an unknown word. -/
def Untouched : SearchNode → Prop
  | .term s => ¬ Vanishes U isKnown (.term s) ∧ (tokenize U s ≠ [] → lostWords U isKnown s = [])
  | .bool .and l r => Untouched l ∧ Untouched r
  | .bool .not _ _ | .bool .or _ _ | .metaTag .. | .numeric .. => True

/-- The words of a term that are not unknown; a term without indexable words stays whole. -/
def stayingWords (s : Str) : List Str :=
  if tokenize U s = [] then U.splitWhitespace s else keptWords U isKnown s

/-- The keys of the text of these words are known: those of each word, and where no word has one
the text itself. -/
def KeysKnown (ws : List Str) : Prop :=
  (∀ w ∈ ws, ∀ t ∈ tokenize U w, isKnown t = true) ∧
    ((∀ w ∈ ws, tokenize U w = []) → ws ≠ [] → isKnown (U.lowercase (joinWords ws)) = true)

/-- In every term that stays the words that are not unknown have known keys, and so has the term of
an OR that has no other. -/
def SpineKnown : SearchNode → Prop
  | .term s => ¬ Vanishes U isKnown (.term s) → KeysKnown U isKnown (stayingWords U isKnown s)
  | .bool .and l r => SpineKnown l ∧ SpineKnown r
  | .bool .or l r =>
    ∀ s, (walkTerms false l ++ walkTerms false r).filter (U.splitWhitespace · ≠ []) = [s] →
      KeysKnown U isKnown (U.splitWhitespace s)
  | .bool .not _ _ | .metaTag .. | .numeric .. => True

variable {U isKnown}

theorem keysKnown_iff (h : Lawful U) {ws : List Str} (hword : ∀ w ∈ ws, IsWord U w)
    (hplain : ∀ w ∈ ws, Plain w) :
    KeysKnown U isKnown ws ↔ ∀ t ∈ lookupTokens U (joinWords ws), isKnown t = true := by
  by_cases hne : ws = []
  · subst hne
    have hnil : lookupTokens U (joinWords []) = [] := lookupTokens_eq_nil.mpr rfl
    simp [KeysKnown, hnil]
  · rw [lookupTokens_joinWords hword hplain hne, tokenize_joinWords h, KeysKnown]
    by_cases ht : ∀ w ∈ ws, tokenize U w = []
    · rw [if_pos (List.flatMap_eq_nil_iff.mpr ht)]
      simp +contextual [ht, hne]
    · rw [if_neg (mt List.flatMap_eq_nil_iff.mp ht)]
      simp only [List.mem_flatMap]
      grind

theorem evalNode_term_ne_false {name : Str} {facts : FileFacts} {s : Str} :
    evalNode U name facts true (.term s) ≠ some false ↔
      ∀ w ∈ U.splitWhitespace (foldForMatch U s), wordMatches U w name = true := by
  rw [evalNode, if_pos rfl]
  simp

/-- The words of a folded text. -/
theorem splitWhitespace_fold (h : Lawful U) (s : Str) :
    U.splitWhitespace (foldForMatch U s) =
      ((s.splitOnP U.isWhitespace).map (foldToken U)).filter (· ≠ []) := by
  rw [h.foldForMatch_eq, Unicode.splitWhitespace, h.splitOnP_foldToken_whitespace]

theorem splitWhitespace_kept (s : Str) :
    U.splitWhitespace (joinWords (keptWords U isKnown s)) = keptWords U isKnown s :=
  splitWhitespace_joinWords fun _ hw => isWord_of_mem (List.mem_filter.mp hw).1

/-- A term is left with words it had. -/
theorem splitWhitespace_remaining (s : Str) :
    U.splitWhitespace (remainingText U isKnown s) ⊆ U.splitWhitespace s := by
  rw [remainingText]
  split
  · exact fun w hw => hw
  · rw [splitWhitespace_kept]
    exact fun w hw => (List.mem_filter.mp hw).1

theorem remaining_widens (h : Lawful U) {name : Str} {facts : FileFacts} {s : Str}
    (hs : evalNode U name facts true (.term s) ≠ some false) :
    evalNode U name facts true (.term (remainingText U isKnown s)) ≠ some false := by
  rw [evalNode_term_ne_false] at hs ⊢
  rw [splitWhitespace_fold h] at hs ⊢
  intro w hw
  obtain ⟨hm, hne⟩ := List.mem_filter.mp hw
  obtain ⟨raw, hraw, rfl⟩ := List.mem_map.mp hm
  have hrawne : raw ≠ [] := by
    rintro rfl
    simp [foldToken_eq] at hne
  have hword : raw ∈ U.splitWhitespace s :=
    splitWhitespace_remaining s (List.mem_filter.mpr ⟨hraw, by simpa using hrawne⟩)
  exact hs _ (List.mem_filter.mpr
    ⟨List.mem_map_of_mem (List.mem_filter.mp hword).1, hne⟩)

theorem rewrite_term {s : Str} (hv : ¬ Vanishes U isKnown (.term s)) :
    (rewriteConjunction U isKnown (.term s)).1 = some (.term (remainingText U isKnown s)) := by
  rw [← rewrite_eq_none] at hv
  rw [rewriteConjunction] at hv ⊢
  rw [remainingText]
  grind

theorem stayingWords_subset (s : Str) : stayingWords U isKnown s ⊆ U.splitWhitespace s := by
  rw [stayingWords]
  split
  · exact fun w hw => hw
  · exact fun w hw => (List.mem_filter.mp hw).1

theorem withoutStarredWords_words (s : Str) :
    withoutStarredWords U (joinWords (U.splitWhitespace s)) = withoutStarredWords U s := by
  rw [withoutStarredWords, splitWhitespace_joinWords fun w hw => isWord_of_mem hw]
  rfl

theorem lookupTokens_words (s : Str) :
    lookupTokens U (joinWords (U.splitWhitespace s)) = lookupTokens U s := by
  rw [lookupTokens, withoutStarredWords_words]
  rfl

theorem lookupTokens_remaining (s : Str) :
    lookupTokens U (remainingText U isKnown s) =
      lookupTokens U (joinWords (stayingWords U isKnown s)) := by
  rw [remainingText, stayingWords]
  by_cases ht : tokenize U s = []
  · rw [if_pos (Or.inl ht), if_pos ht, lookupTokens_words]
  · rw [if_neg ht]
    by_cases hl : lostWords U isKnown s = []
    · have hk : keptWords U isKnown s = U.splitWhitespace s := by
        rw [lostWords, List.filter_eq_nil_iff] at hl
        exact List.filter_eq_self.mpr fun w hw => by simpa using hl w hw
      rw [if_pos (Or.inr hl), hk, lookupTokens_words]
    · rw [if_neg (by simp [ht, hl])]

theorem rewrite_untouched {node : SearchNode} (h : Untouched U isKnown node)
    (hf : Unmarked U node) : rewriteConjunction U isKnown node = (some node, []) := by
  induction node with
  | term s =>
    obtain ⟨hv, hl⟩ := h
    rw [← rewrite_eq_none] at hv
    rw [rewriteConjunction] at hv ⊢
    grind
  | bool op l r ihl ihr =>
    cases op with
    | and => rw [rewriteConjunction, ihl h.1 hf.1, ihr h.2 hf.2, List.nil_append]
    | or => rfl
    | not => exact hf.elim
  | metaTag tagName value => rfl
  | numeric tagName op value => rfl

theorem vanishes_drops {node : SearchNode} (hv : Vanishes U isKnown node) :
    (rewriteConjunction U isKnown node).2 ≠ [] := by
  induction node with
  | term s =>
    rw [Vanishes] at hv
    rw [rewriteConjunction]
    grind
  | bool op l r ihl ihr =>
    cases op with
    | and =>
      rw [rewriteConjunction]
      exact List.append_ne_nil_of_left_ne_nil (ihl hv.1) _
    | or => exact hv.elim
    | not => exact hv.elim
  | metaTag tagName value => exact hv.elim
  | numeric tagName op value => exact hv.elim

theorem untouched_of_rewrite {node : SearchNode} (hf : Unmarked U node)
    (h : (rewriteConjunction U isKnown node).2 = []) : Untouched U isKnown node := by
  induction node with
  | term s =>
    refine ⟨fun hv => vanishes_drops hv h, fun ht => ?_⟩
    rw [rewriteConjunction, if_neg ht] at h
    grind
  | bool op l r ihl ihr =>
    cases op with
    | and =>
      rw [rewriteConjunction, List.append_eq_nil_iff] at h
      exact ⟨ihl hf.1 h.1, ihr hf.2 h.2⟩
    | or => trivial
    | not => exact hf.elim
  | metaTag tagName value => trivial
  | numeric tagName op value => trivial

theorem dropUnknownWords_eq_self {node : SearchNode} (hf : Unmarked U node)
    (h : Vanishes U isKnown node ∨ Untouched U isKnown node) :
    dropUnknownWords U isKnown node = (node, []) := by
  rw [dropUnknownWords]
  obtain hv | hu := h
  · rw [← rewrite_eq_none] at hv
    rcases hr : rewriteConjunction U isKnown node with ⟨_ | a, d⟩
    · rfl
    · rw [hr] at hv
      cases hv
  · rw [rewrite_untouched hu hf]
    rfl

/-- Otherwise the tree is rewritten and words are dropped. -/
theorem dropUnknownWords_eq {node : SearchNode} (hf : Unmarked U node)
    (hv : ¬ Vanishes U isKnown node) (hu : ¬ Untouched U isKnown node) :
    ∃ tree, (rewriteConjunction U isKnown node).1 = some tree ∧
      (dropUnknownWords U isKnown node).1 = tree ∧ (dropUnknownWords U isKnown node).2 ≠ [] := by
  rw [← rewrite_eq_none] at hv
  have hd := mt (untouched_of_rewrite hf) hu
  rw [dropUnknownWords]
  rcases hr : rewriteConjunction U isKnown node with ⟨_ | a, d⟩
  · rw [hr] at hv
    exact absurd rfl hv
  · rw [hr] at hd
    have hd : d ≠ [] := hd
    exact ⟨a, rfl, by simp [hd], by simp [hd]⟩

theorem rewrite_widens (h : Lawful U) {name : Str} {facts : FileFacts} {node tree : SearchNode}
    (hf : Unmarked U node) (hr : (rewriteConjunction U isKnown node).1 = some tree)
    (hn : evalNode U name facts true node ≠ some false) :
    evalNode U name facts true tree ≠ some false := by
  induction node generalizing tree with
  | term s =>
    have hv : ¬ Vanishes U isKnown (.term s) := by
      rw [← rewrite_eq_none, hr]
      exact Option.some_ne_none tree
    rw [rewrite_term hv] at hr
    cases hr
    exact remaining_widens h hn
  | bool op l r ihl ihr =>
    cases op with
    | and =>
      obtain ⟨hl, hr'⟩ := combine_and_ne_false hn
      rw [rewriteConjunction] at hr
      cases hrl : (rewriteConjunction U isKnown l).1 <;>
        cases hrr : (rewriteConjunction U isKnown r).1 <;> simp only [hrl, hrr] at hr <;> cases hr
      · exact ihr hf.2 hrr hr'
      · exact ihl hf.1 hrl hl
      · exact combine_and_of_ne_false (ihl hf.1 hrl hl) (ihr hf.2 hrr hr')
    | or =>
      cases hr
      exact hn
    | not => exact hf.elim
  | metaTag tagName value =>
    cases hr
    exact hn
  | numeric tagName op value =>
    cases hr
    exact hn

theorem candidateGroups_and (l r : SearchNode) :
    candidateGroups U (.bool .and l r) = candidateGroups U l ++ candidateGroups U r := by
  rw [candidateGroups, collectCandidateTerms, walkGroups, List.flatMap_append]
  rfl

/-- The terms of a list that have words. -/
def worded (U : Unicode) (terms : List Str) : List Str :=
  terms.filter (U.splitWhitespace · ≠ [])

theorem withoutStarredWords_plain {s : Str} (hs : ∀ w ∈ U.splitWhitespace s, Plain w) :
    withoutStarredWords U s = joinWords (U.splitWhitespace s) := by
  rw [← withoutStarredWords_words]
  exact withoutStarredWords_joinWords (fun w hw => isWord_of_mem hw) hs

theorem joinWords_ne_nil {ws : List Str} (hword : ∀ w ∈ ws, IsWord U w) :
    joinWords ws ≠ [] ↔ ws ≠ [] := by
  refine ⟨?_, fun hne => ?_⟩
  · rintro h rfl
    exact h rfl
  · obtain ⟨⟨c, rest, hc, -⟩, -⟩ := joinWords_ends hword hne
    rw [hc]
    exact List.cons_ne_nil c rest

theorem filter_withoutStarredWords {terms : List Str}
    (hterms : ∀ s ∈ terms, ∀ w ∈ U.splitWhitespace s, Plain w) :
    (terms.map (withoutStarredWords U)).filter (· ≠ []) =
      (worded U terms).map (withoutStarredWords U) := by
  rw [List.filter_map, worded]
  refine congrArg _ (List.filter_congr fun s hs => ?_)
  have hwords : ∀ w ∈ U.splitWhitespace s, IsWord U w := fun w hw => isWord_of_mem hw
  have h := joinWords_ne_nil hwords
  rw [Function.comp_apply, withoutStarredWords_plain (hterms s hs)]
  exact decide_eq_decide.mpr h

theorem lookupTokens_ne_nil {s : Str} (hs : ∀ w ∈ U.splitWhitespace s, Plain w)
    (hne : U.splitWhitespace s ≠ []) : lookupTokens U s ≠ [] := by
  rw [ne_eq, lookupTokens_eq_nil, plainWords, List.filter_eq_nil_iff]
  obtain ⟨w, hw⟩ := List.exists_mem_of_ne_nil _ hne
  intro hall
  have hplain := hall w hw
  rw [(hs w hw).parseMarkers] at hplain
  simp [(isWord_of_mem hw).1] at hplain

/-- Groups of one key come from a list with one term that has words. -/
theorem singleton_mem_expandGroup {terms : List Str}
    (hterms : ∀ s ∈ terms, ∀ w ∈ U.splitWhitespace s, Plain w) (t : Str) :
    [t] ∈ expandGroup U terms ↔ ∃ s, worded U terms = [s] ∧ t ∈ lookupTokens U s := by
  have htoks : (((worded U terms).map (withoutStarredWords U)).map (searchTokens U)).flatten =
      (worded U terms).flatMap (lookupTokens U) := by
    rw [List.map_map, List.flatMap_def]
    rfl
  have hw : ∀ s ∈ worded U terms, lookupTokens U s ≠ [] := fun s hs => by
    obtain ⟨hm, hne⟩ := List.mem_filter.mp hs
    exact lookupTokens_ne_nil (hterms s hm) (of_decide_eq_true hne)
  rw [expandGroup]
  simp only [filter_withoutStarredWords hterms, htoks]
  cases hk : worded U terms with
  | nil => simp
  | cons a rest =>
    cases rest with
    | nil => simp
    | cons b rest =>
      rw [hk] at hw
      have ha := List.length_pos_iff.mpr (hw a (by simp))
      have hb := List.length_pos_iff.mpr (hw b (by simp))
      have hlen : 2 ≤ ((a :: b :: rest).flatMap (lookupTokens U)).length := by
        simp only [List.flatMap_cons, List.length_append]
        omega
      have hne : (a :: b :: rest).flatMap (lookupTokens U) ≠ [] := by
        apply List.ne_nil_of_length_pos
        omega
      rw [if_neg (by simp), if_pos (by simp), if_neg hne, List.mem_singleton]
      constructor
      · intro he
        rw [← he] at hlen
        exact absurd hlen (by simp)
      · rintro ⟨s, hs, -⟩
        simp at hs

theorem candidateGroups_term (s : Str) :
    candidateGroups U (.term s) = expandGroup U [s] := by
  simp [candidateGroups, collectCandidateTerms, walkGroups]

theorem candidateGroups_or (l r : SearchNode) :
    candidateGroups U (.bool .or l r) = expandGroup U (walkTerms false l ++ walkTerms false r) := by
  by_cases hn : walkTerms false l ++ walkTerms false r = []
  · have he : expandGroup U [] = [] := rfl
    simp [candidateGroups, collectCandidateTerms, walkGroups, hn, he]
  · simp [candidateGroups, collectCandidateTerms, walkGroups, hn]

theorem walkTerms_plain {node : SearchNode} (hf : Unmarked U node) :
    ∀ s ∈ walkTerms false node, ∀ w ∈ U.splitWhitespace s, Plain w := by
  induction node with
  | term s => simpa [walkTerms, Unmarked] using hf
  | bool op l r ihl ihr =>
    cases op with
    | and => exact List.forall_mem_append.mpr ⟨ihl hf.1, ihr hf.2⟩
    | or => exact List.forall_mem_append.mpr ⟨ihl hf.1, ihr hf.2⟩
    | not => exact hf.elim
  | metaTag tagName value => exact List.forall_mem_nil _
  | numeric tagName op value => exact List.forall_mem_nil _

theorem singles_known_iff {terms : List Str}
    (hterms : ∀ s ∈ terms, ∀ w ∈ U.splitWhitespace s, Plain w) :
    (∀ t, [t] ∈ expandGroup U terms → isKnown t = true) ↔
      ∀ s, worded U terms = [s] → ∀ t ∈ lookupTokens U s, isKnown t = true := by
  simp only [singleton_mem_expandGroup hterms]
  constructor
  · exact fun h s hs t ht => h t ⟨s, hs, ht⟩
  · rintro h t ⟨s, hs, ht⟩
    exact h s hs t ht

theorem term_known_iff {s : Str} (hs : ∀ w ∈ U.splitWhitespace s, Plain w) :
    (∀ t, [t] ∈ candidateGroups U (.term s) → isKnown t = true) ↔
      ∀ t ∈ lookupTokens U s, isKnown t = true := by
  rw [candidateGroups_term, singles_known_iff (by simpa using hs)]
  by_cases hne : U.splitWhitespace s = []
  · have hnil : lookupTokens U s = [] := by
      rw [lookupTokens_eq_nil, plainWords, hne]
      rfl
    simp [worded, hne, hnil]
  · simp [worded, hne]

theorem vanishes_spineKnown {node : SearchNode} (hv : Vanishes U isKnown node) :
    SpineKnown U isKnown node := by
  induction node with
  | term s => exact fun hn => absurd hv hn
  | bool op l r ihl ihr =>
    cases op with
    | and => exact ⟨ihl hv.1, ihr hv.2⟩
    | or => exact hv.elim
    | not => exact hv.elim
  | metaTag tagName value => exact hv.elim
  | numeric tagName op value => exact hv.elim

/-- The groups of one key of the rewritten tree are known where the terms that stay have known
keys. -/
theorem rewrite_known_iff (h : Lawful U) {node tree : SearchNode} (hf : Unmarked U node)
    (hr : (rewriteConjunction U isKnown node).1 = some tree) :
    (∀ t, [t] ∈ candidateGroups U tree → isKnown t = true) ↔ SpineKnown U isKnown node := by
  induction node generalizing tree with
  | term s =>
    have hv : ¬ Vanishes U isKnown (.term s) := by
      rw [← rewrite_eq_none, hr]
      exact Option.some_ne_none tree
    rw [rewrite_term hv] at hr
    cases hr
    have hstay : ∀ w ∈ stayingWords U isKnown s, w ∈ U.splitWhitespace s := stayingWords_subset s
    rw [term_known_iff fun w hw => hf w (splitWhitespace_remaining s hw), lookupTokens_remaining,
      ← keysKnown_iff h (fun w hw => isWord_of_mem (hstay w hw)) fun w hw => hf w (hstay w hw)]
    exact ⟨fun hk _ => hk, fun hk => hk hv⟩
  | bool op l r ihl ihr =>
    cases op with
    | and =>
      rw [rewriteConjunction] at hr
      rw [SpineKnown]
      have hgone : ∀ n, (rewriteConjunction U isKnown n).1 = none → SpineKnown U isKnown n :=
        fun n hn => vanishes_spineKnown ((rewrite_eq_none n).mp hn)
      cases hrl : (rewriteConjunction U isKnown l).1 <;>
        cases hrr : (rewriteConjunction U isKnown r).1 <;> simp only [hrl, hrr] at hr <;> cases hr
      · rw [ihr hf.2 hrr]
        exact (and_iff_right (hgone l hrl)).symm
      · rw [ihl hf.1 hrl]
        exact (and_iff_left (hgone r hrr)).symm
      · rw [← ihl hf.1 hrl, ← ihr hf.2 hrr, candidateGroups_and]
        simp only [List.mem_append, or_imp, forall_and]
    | or =>
      cases hr
      have hplain := List.forall_mem_append.mpr ⟨walkTerms_plain hf.1, walkTerms_plain hf.2⟩
      rw [candidateGroups_or, singles_known_iff hplain, SpineKnown]
      refine forall_congr' fun s => forall_congr' fun hs => ?_
      have hm : s ∈ worded U (walkTerms false l ++ walkTerms false r) := by
        rw [hs]
        exact List.mem_singleton.mpr rfl
      rw [keysKnown_iff h (fun w hw => isWord_of_mem hw) (hplain s (List.mem_filter.mp hm).1),
        lookupTokens_words]
    | not => exact hf.elim
  | metaTag tagName value =>
    cases hr
    simp [candidateGroups, collectCandidateTerms, walkGroups, SpineKnown]
  | numeric tagName op value =>
    cases hr
    simp [candidateGroups, collectCandidateTerms, walkGroups, SpineKnown]

/-- A term that is left with known keys is left alone the next time. -/
theorem remaining_untouched (h : Lawful U) {s : Str}
    (hv : ¬ Vanishes U isKnown (.term s))
    (hk : KeysKnown U isKnown (stayingWords U isKnown s)) :
    Untouched U isKnown (.term (remainingText U isKnown s)) := by
  rw [remainingText]
  split
  · rename_i hsame
    refine ⟨hv, fun ht => hsame.resolve_left ht⟩
  · rename_i hchanged
    obtain ⟨ht, hl⟩ := not_or.mp hchanged
    have hne : keptWords U isKnown s ≠ [] := by
      intro hnil
      rw [Vanishes, if_neg ht] at hv
      exact hv ⟨hl, hnil⟩
    have hword : ∀ w ∈ keptWords U isKnown s, IsWord U w :=
      fun w hw => isWord_of_mem (List.mem_filter.mp hw).1
    have hlost : lostWords U isKnown (joinWords (keptWords U isKnown s)) = [] := by
      rw [lostWords, splitWhitespace_kept, List.filter_eq_nil_iff]
      intro w hw
      simpa using (List.mem_filter.mp hw).2
    refine ⟨?_, fun _ => hlost⟩
    rw [Vanishes]
    split
    · rename_i htok
      rw [stayingWords, if_neg ht] at hk
      rw [tokenize_joinWords h, List.flatMap_eq_nil_iff] at htok
      have hkey := hk.2 htok hne
      rw [shortTermKept, trim_joinWords hword hne, hkey]
      simp
    · exact fun hgone => hgone.1 hlost

theorem rewrite_again (h : Lawful U) {node tree : SearchNode} (hf : Unmarked U node)
    (hr : (rewriteConjunction U isKnown node).1 = some tree)
    (hk : SpineKnown U isKnown node) : Untouched U isKnown tree ∧ Unmarked U tree := by
  induction node generalizing tree with
  | term s =>
    have hv : ¬ Vanishes U isKnown (.term s) := by
      rw [← rewrite_eq_none, hr]
      exact Option.some_ne_none tree
    rw [rewrite_term hv] at hr
    cases hr
    exact ⟨remaining_untouched h hv (hk hv), fun w hw => hf w (splitWhitespace_remaining s hw)⟩
  | bool op l r ihl ihr =>
    cases op with
    | and =>
      rw [rewriteConjunction] at hr
      cases hrl : (rewriteConjunction U isKnown l).1 <;>
        cases hrr : (rewriteConjunction U isKnown r).1 <;> simp only [hrl, hrr] at hr <;> cases hr
      · exact ihr hf.2 hrr hk.2
      · exact ihl hf.1 hrl hk.1
      · obtain ⟨hul, hfl⟩ := ihl hf.1 hrl hk.1
        obtain ⟨hur, hfr⟩ := ihr hf.2 hrr hk.2
        exact ⟨⟨hul, hur⟩, hfl, hfr⟩
    | or =>
      cases hr
      exact ⟨trivial, hf⟩
    | not => exact hf.elim
  | metaTag tagName value =>
    cases hr
    exact ⟨trivial, trivial⟩
  | numeric tagName op value =>
    cases hr
    exact ⟨trivial, trivial⟩

/-- The rewriting reaches its goal exactly where it leaves the tree alone, or every term that stays
in a conjunction has known keys. -/
theorem reachesGoal_iff (h : Lawful U) {node : SearchNode} (hf : Unmarked U node) :
    ReachesGoal U isKnown node ↔
      Vanishes U isKnown node ∨ Untouched U isKnown node ∨ SpineKnown U isKnown node := by
  by_cases hself : Vanishes U isKnown node ∨ Untouched U isKnown node
  · rw [← or_assoc, iff_true_right (Or.inl hself)]
    have he := dropUnknownWords_eq_self hf hself
    exact ⟨fun name facts hn => by rwa [he], fun hd => absurd (by rw [he]) hd, by rw [he, he]⟩
  · obtain ⟨hv, hu⟩ := not_or.mp hself
    obtain ⟨tree, hr, htree, hd⟩ := dropUnknownWords_eq hf hv hu
    rw [← or_assoc, or_iff_right hself, ← rewrite_known_iff h hf hr]
    constructor
    · exact fun hg => htree ▸ hg.known hd
    · intro hk
      obtain ⟨hut, hft⟩ := rewrite_again h hf hr ((rewrite_known_iff h hf hr).mp hk)
      refine ⟨fun name facts hn => ?_, fun _ => htree ▸ hk, ?_⟩
      · rw [evaluateFacts_eq_true] at hn ⊢
        rw [htree]
        exact rewrite_widens h hf hr hn
      · rw [htree]
        exact dropUnknownWords_eq_self hft (Or.inr hut)

def knowsUbuntu (t : Str) : Bool := t == "ubuntu".toList

theorem unknownAndKnown_reachesGoal : ReachesGoal basicLatin knowsUbuntu unknownAndKnown := by
  have hwords : basicLatin.splitWhitespace "xyzzy ubuntu".toList =
      ["xyzzy".toList, "ubuntu".toList] := by decide
  have hstay : stayingWords basicLatin knowsUbuntu "xyzzy ubuntu".toList = ["ubuntu".toList] := by
    decide
  have htok : tokenize basicLatin "ubuntu".toList = ["ubuntu".toList] := by decide
  have hplain : ∀ w ∈ basicLatin.splitWhitespace "xyzzy ubuntu".toList, Plain w := by
    rw [hwords]
    simp only [List.forall_mem_cons]
    exact ⟨plain_of_parseMarkers (by decide) (by decide),
      plain_of_parseMarkers (by decide) (by decide), List.forall_mem_nil _⟩
  have hf : Unmarked basicLatin unknownAndKnown := ⟨hplain, trivial⟩
  refine (reachesGoal_iff basicLatin_lawful hf).mpr (Or.inr (Or.inr ⟨fun _ => ?_, trivial⟩))
  rw [hstay]
  refine ⟨?_, fun hnone => ?_⟩
  · rw [List.forall_mem_singleton, htok, List.forall_mem_singleton]
    exact beq_self_eq_true _
  · have hnil := hnone _ List.mem_cons_self
    rw [htok] at hnil
    cases hnil

/-- Of `the xyzzy` AND `ubuntu` the stop-word stays, now a key of its own that nothing has. -/
theorem stopWord_left : (∀ w, tokenize basicLatin w = [] → knowsUbuntu w = false) ∧
    Unmarked basicLatin (.bool .and (.term "the xyzzy".toList) (.term "ubuntu".toList)) ∧
    ¬ ReachesGoal basicLatin knowsUbuntu
      (.bool .and (.term "the xyzzy".toList) (.term "ubuntu".toList)) := by
  have htok : tokenize basicLatin "ubuntu".toList ≠ [] := by decide
  have hfirst : basicLatin.splitWhitespace "the xyzzy".toList = ["the".toList, "xyzzy".toList] := by
    decide
  have hsecond : basicLatin.splitWhitespace "ubuntu".toList = ["ubuntu".toList] := by
    decide
  have hd : dropUnknownWords basicLatin knowsUbuntu
      (.bool .and (.term "the xyzzy".toList) (.term "ubuntu".toList)) =
        (.bool .and (.term "the".toList) (.term "ubuntu".toList), ["xyzzy".toList]) := by
    decide
  have hg : ["the".toList] ∈ candidateGroups basicLatin
      (.bool .and (.term "the".toList) (.term "ubuntu".toList)) := by decide
  refine ⟨fun w hw => ?_, ⟨?_, ?_⟩, fun h => ?_⟩
  · rw [knowsUbuntu, beq_eq_false_iff_ne]
    rintro rfl
    exact htok hw
  · rw [Unmarked, hfirst]
    simp only [List.forall_mem_cons]
    exact ⟨plain_of_parseMarkers (by decide) (by decide),
      plain_of_parseMarkers (by decide) (by decide), List.forall_mem_nil _⟩
  · rw [Unmarked, hsecond, List.forall_mem_singleton]
    exact plain_of_parseMarkers (by decide) (by decide)
  · have hk := h.known (by rw [hd]; exact List.cons_ne_nil _ _) "the".toList (by rw [hd]; exact hg)
    exact absurd hk (by decide)

end Ed2kServer.Search.RewriteGoal
