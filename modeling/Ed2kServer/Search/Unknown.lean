import Ed2kServer.Search.Groups

namespace Ed2kServer.Search.Unknown

open Ed2kServer.Text.Chars Ed2kServer.Keyword.Tokenizer Ed2kServer.Search.Tree
open Ed2kServer.Search.Groups

variable (U : Unicode) (isKnown : Str → Bool)

def wordIsUnknown (word : Str) : Bool :=
  let m := parseMarkers (foldForMatch U word)
  if m.starred || m.anchored || m.core = [] then false
  else (tokenize U m.core).any (fun t => !isKnown t)

/-- Is a term without any indexable word kept, as a marked one or as a known key? -/
def shortTermKept (s : Str) : Bool :=
  let m := parseMarkers (U.trim (foldForMatch U s))
  m.starred || m.anchored || m.core = [] || m.core = ['*'] || m.core = ['*', '*'] ||
    isKnown (U.lowercase (U.trim s))

def keptWords (s : Str) : List Str :=
  (U.splitWhitespace s).filter (fun w => !wordIsUnknown U isKnown w)

def lostWords (s : Str) : List Str := (U.splitWhitespace s).filter (wordIsUnknown U isKnown)

/-- `none` when the subtree was made of unknown words only; the words dropped come second. -/
def rewriteConjunction : SearchNode → Option SearchNode × List Str
  | .term s =>
    if tokenize U s = [] then
      if shortTermKept U isKnown s then (some (.term s), []) else (none, [U.trim s])
    else if lostWords U isKnown s = [] then (some (.term s), [])
    else if keptWords U isKnown s = [] then (none, lostWords U isKnown s)
    else (some (.term (joinWords (keptWords U isKnown s))), lostWords U isKnown s)
  | .bool .and l r =>
    let nl := rewriteConjunction l
    let nr := rewriteConjunction r
    let both := match nl.1, nr.1 with
      | some a, some b => some (.bool .and a b)
      | some a, none | none, some a => some a
      | none, none => none
    (both, nl.2 ++ nr.2)
  | .bool .not l r =>
    match rewriteConjunction l with
    | (some nl, dropped) => (some (.bool .not nl r), dropped)
    -- the words of a left side that vanished are not dropped after all
    | (none, _) => (some (.bool .not l r), [])
  | node => (some node, [])

/-- The rewritten tree and the words dropped from it. -/
def dropUnknownWords (node : SearchNode) : SearchNode × List Str :=
  match rewriteConjunction U isKnown node with
  | (some tree, dropped) => if dropped = [] then (node, []) else (tree, dropped)
  | (none, _) => (node, [])

/-- The subtree consists of unknown words only. -/
def Vanishes : SearchNode → Prop
  | .term s =>
    if tokenize U s = [] then shortTermKept U isKnown s = false
    else lostWords U isKnown s ≠ [] ∧ keptWords U isKnown s = []
  | .bool .and l r => Vanishes l ∧ Vanishes r
  | .bool .or _ _ | .bool .not _ _ | .metaTag .. | .numeric .. => False

/-- The text a term is left with. -/
def remainingText (s : Str) : Str :=
  if tokenize U s = [] ∨ lostWords U isKnown s = [] then s
  else joinWords (keptWords U isKnown s)

/-- Something of the tree as it stands is looked up. -/
def LookedUp (inNegation : Bool) : SearchNode → Prop
  | .term s => inNegation = false ∧ lookupTokens U s ≠ []
  | .bool .and l r => LookedUp inNegation l ∨ LookedUp inNegation r
  | .bool .or l r => inNegation = false ∧
      ∃ t ∈ walkTerms false l ++ walkTerms false r, lookupTokens U t ≠ []
  | .bool .not l r => LookedUp inNegation l ∨ LookedUp (!inNegation) r
  | .metaTag .. | .numeric .. => False

open Classical in
/-- Something that is looked up survives: a word left in a term that stays, an OR, a word negated
twice, or the left side of a NOT that would vanish. -/
def Survives : SearchNode → Prop
  | .term s => ¬ Vanishes U isKnown (.term s) ∧ lookupTokens U (remainingText U isKnown s) ≠ []
  | .bool .and l r => Survives l ∨ Survives r
  | .bool .or l r => LookedUp U false (.bool .or l r)
  | .bool .not l r =>
    (if Vanishes U isKnown l then LookedUp U false l else Survives l) ∨ LookedUp U true r
  | .metaTag .. | .numeric .. => False

variable {U isKnown}

theorem lookedUp_iff (inNegation : Bool) (node : SearchNode) :
    (∃ g ∈ walkGroups inNegation node, ∃ t ∈ g, lookupTokens U t ≠ []) ↔
      LookedUp U inNegation node := by
  induction node generalizing inNegation with
  | term s => cases inNegation <;> simp [walkGroups, LookedUp]
  | bool op l r ihl ihr =>
    cases op with
    | and => simp only [walkGroups, LookedUp, List.mem_append, or_and_right, exists_or, ihl, ihr]
    | not => simp only [walkGroups, LookedUp, List.mem_append, or_and_right, exists_or, ihl, ihr]
    | or =>
      cases inNegation with
      | true => simp [walkGroups, LookedUp]
      | false =>
        by_cases hf : walkTerms false l ++ walkTerms false r = []
        · simp [walkGroups, LookedUp, hf]
        · simp [walkGroups, LookedUp, hf]
  | metaTag tagName value => simp [walkGroups, LookedUp]
  | numeric tagName op value => simp [walkGroups, LookedUp]

theorem candidateGroups_ne_nil (node : SearchNode) :
    candidateGroups U node ≠ [] ↔ LookedUp U false node := by
  rw [← lookedUp_iff, candidateGroups, collectCandidateTerms, ne_eq, List.flatMap_eq_nil_iff]
  simp only [expandGroup_eq_nil, not_forall, exists_prop]

theorem rewrite_eq_none (node : SearchNode) :
    (rewriteConjunction U isKnown node).1 = none ↔ Vanishes U isKnown node := by
  induction node with
  | term s =>
    rw [rewriteConjunction, Vanishes]
    by_cases ht : tokenize U s = []
    · cases shortTermKept U isKnown s <;> simp [ht]
    · by_cases hl : lostWords U isKnown s = []
      · simp [ht, hl]
      · by_cases hk : keptWords U isKnown s = [] <;> simp [ht, hl, hk]
  | bool op l r ihl ihr =>
    cases op with
    | and =>
      rw [rewriteConjunction, Vanishes, ← ihl, ← ihr]
      cases (rewriteConjunction U isKnown l).1 <;> cases (rewriteConjunction U isKnown r).1 <;>
        simp
    | or => simp [rewriteConjunction, Vanishes]
    | not =>
      rw [rewriteConjunction, Vanishes]
      rcases rewriteConjunction U isKnown l with ⟨_ | a, d⟩ <;> simp
  | metaTag tagName value => simp [rewriteConjunction, Vanishes]
  | numeric tagName op value => simp [rewriteConjunction, Vanishes]

theorem not_survives_of_vanishes {node : SearchNode} (h : Vanishes U isKnown node) :
    ¬ Survives U isKnown node := by
  induction node with
  | term s => exact fun hs => hs.1 h
  | bool op l r ihl ihr =>
    cases op with
    | and => exact fun hs => hs.elim (ihl h.1) (ihr h.2)
    | or => exact h.elim
    | not => exact h.elim
  | metaTag tagName value => exact h.elim
  | numeric tagName op value => exact h.elim

/-- What is looked up in the rewritten tree. -/
theorem rewrite_lookedUp {node tree : SearchNode}
    (h : (rewriteConjunction U isKnown node).1 = some tree) :
    LookedUp U false tree ↔ Survives U isKnown node := by
  induction node generalizing tree with
  | term s =>
    have hv : ¬ Vanishes U isKnown (.term s) := by
      rw [← rewrite_eq_none, h]
      simp
    have ht : tree = .term (remainingText U isKnown s) := by
      rw [rewriteConjunction] at h
      rw [remainingText]
      grind
    simp [ht, LookedUp, Survives, hv]
  | bool op l r ihl ihr =>
    cases op with
    | and =>
      rw [rewriteConjunction] at h
      rw [Survives]
      cases hl : (rewriteConjunction U isKnown l).1 with
      | none =>
        have hnl := not_survives_of_vanishes ((rewrite_eq_none l).mp hl)
        cases hr : (rewriteConjunction U isKnown r).1 with
        | none => simp [hl, hr] at h
        | some b =>
          obtain rfl : b = tree := by simpa [hl, hr] using h
          rw [ihr hr]
          simp [hnl]
      | some a =>
        cases hr : (rewriteConjunction U isKnown r).1 with
        | none =>
          have hnr := not_survives_of_vanishes ((rewrite_eq_none r).mp hr)
          obtain rfl : a = tree := by simpa [hl, hr] using h
          rw [ihl hl]
          simp [hnr]
        | some b =>
          obtain rfl : .bool .and a b = tree := by simpa [hl, hr] using h
          rw [LookedUp, ihl hl, ihr hr]
    | or =>
      cases h
      rfl
    | not =>
      rw [rewriteConjunction] at h
      rw [Survives]
      rcases hl : rewriteConjunction U isKnown l with ⟨_ | a, dropped⟩
      · have hv : Vanishes U isKnown l := (rewrite_eq_none l).mp (by rw [hl])
        obtain rfl : .bool .not l r = tree := by simpa [hl] using h
        rw [if_pos hv, LookedUp]
        rfl
      · have hv : ¬ Vanishes U isKnown l := by
          rw [← rewrite_eq_none, hl]
          simp
        obtain rfl : .bool .not a r = tree := by simpa [hl] using h
        rw [if_neg hv, LookedUp, ihl (by rw [hl])]
        rfl
  | metaTag tagName value =>
    cases h
    rfl
  | numeric tagName op value =>
    cases h
    rfl

/-- After words have been dropped there is something to look up exactly when something that is
looked up survived. -/
theorem groups_after_drop_iff {node tree : SearchNode} {dropped : List Str}
    (h : dropUnknownWords U isKnown node = (tree, dropped)) (hd : dropped ≠ []) :
    candidateGroups U tree ≠ [] ↔ Survives U isKnown node := by
  rw [dropUnknownWords] at h
  rcases hr : rewriteConjunction U isKnown node with ⟨_ | a, d⟩
  · rw [hr] at h
    cases h
    exact absurd rfl hd
  · rw [hr] at h
    by_cases hnil : d = []
    · simp only [if_pos hnil] at h
      cases h
      exact absurd rfl hd
    · simp only [if_neg hnil] at h
      cases h
      rw [candidateGroups_ne_nil]
      exact rewrite_lookedUp (by rw [hr])

def videoOnly : SearchNode := .metaTag (.id 0x03) "Video".toList

def unknownAndKnown : SearchNode := .bool .and (.term "xyzzy ubuntu".toList) videoOnly

theorem unknownAndKnown_groups :
    candidateGroups basicLatin (.bool .and (.term "ubuntu".toList) videoOnly) ≠ [] ↔
      Survives basicLatin (· == "ubuntu".toList) unknownAndKnown := by
  have h : dropUnknownWords basicLatin (· == "ubuntu".toList) unknownAndKnown =
      (.bool .and (.term "ubuntu".toList) videoOnly, ["xyzzy".toList]) := by decide
  exact groups_after_drop_iff h (by decide)

/-- Of `xyzzy AND type=Video` only the type is left, and the whole index is scanned. -/
theorem drop_leaves_type_only :
    dropUnknownWords basicLatin (fun _ => false) (.bool .and (.term "xyzzy".toList) videoOnly) =
        (videoOnly, ["xyzzy".toList]) ∧
      candidateGroups basicLatin videoOnly = [] := by
  decide

end Ed2kServer.Search.Unknown
