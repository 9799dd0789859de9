import Ed2kServer.Keyword.Tokenizer
import Ed2kServer.Search.Tree

namespace Ed2kServer.Search.Groups

open Ed2kServer.Text.Chars Ed2kServer.Keyword.Tokenizer Ed2kServer.Search.Tree

/-- The string terms of a tree that are not negated. -/
def walkTerms (inNegation : Bool) : SearchNode → List Str
  | .term s => if inNegation then [] else [s]
  | .bool .and l r | .bool .or l r => walkTerms inNegation l ++ walkTerms inNegation r
  | .bool .not l r => walkTerms inNegation l ++ walkTerms (!inNegation) r
  | .metaTag .. | .numeric .. => []

def collectTerms (node : SearchNode) : List Str := walkTerms false node

/-- One list of terms for each requirement; an OR makes one list of all its branches. -/
def walkGroups (inNegation : Bool) : SearchNode → List (List Str)
  | .term s => if inNegation then [] else [[s]]
  | .bool .and l r => walkGroups inNegation l ++ walkGroups inNegation r
  | .bool .or l r =>
    if inNegation then []
    else
      let flat := walkTerms false l ++ walkTerms false r
      if flat = [] then [] else [flat]
  | .bool .not l r => walkGroups inNegation l ++ walkGroups (!inNegation) r
  | .metaTag .. | .numeric .. => []

def collectCandidateTerms (node : SearchNode) : List (List Str) := walkGroups false node

variable (U : Unicode)

/-- `[&str]::join(" ")`. -/
def joinWords (ws : List Str) : Str := [' '].intercalate ws

def withoutStarredWords (t : Str) : Str :=
  joinWords ((U.splitWhitespace t).filter
    (fun w => !(parseMarkers w).starred && (parseMarkers w).core ≠ []))

/-- The index keys of a term, bare wildcards left out. -/
def searchTokens (t : Str) : List Str :=
  (tokenizeSearchTerm U t).filter (fun t => t ≠ ['*'] ∧ t ≠ ['*', '*'])

/-- One list of terms as lookup groups: alternatives, or all the words of the only term. -/
def expandGroup (g : List Str) : List (List Str) :=
  let g := (g.map (withoutStarredWords U)).filter (· ≠ [])
  let toks := (g.map (searchTokens U)).flatten
  if g = [] then []
  else if 1 < g.length then if toks = [] then [] else [toks]
  else toks.map ([·])

def candidateGroups (node : SearchNode) : List (List Str) :=
  (collectCandidateTerms node).flatMap (expandGroup U)

/-- The keys a term is looked up under. -/
def lookupTokens (t : Str) : List Str := searchTokens U (withoutStarredWords U t)

section Expand

variable {U} {g : List Str}

theorem searchTokens_nil : searchTokens U [] = [] := by
  simp [searchTokens, tokenizeSearchTerm, Unicode.trim, tokenize, tokenizeInto, isAscii,
    toAsciiLowercase, Unicode.lowercase, Unicode.lowercaseFrom, MIN_KEYWORD_LEN, utf8]

/-- Terms of starred words alone have no keys. -/
theorem toks_eq (g : List Str) :
    (((g.map (withoutStarredWords U)).filter (· ≠ [])).map (searchTokens U)).flatten =
      g.flatMap (lookupTokens U) := by
  induction g with
  | nil => rfl
  | cons t g ih =>
    rw [List.map_cons, List.flatMap_cons, lookupTokens]
    by_cases ht : withoutStarredWords U t = []
    · rw [List.filter_cons_of_neg (by simpa using ht), ih, ht, searchTokens_nil, List.nil_append]
    · rw [List.filter_cons_of_pos (by simpa using ht), List.map_cons, List.flatten_cons, ih]

theorem expandGroup_ne_nil {x : List Str} (hx : x ∈ expandGroup U g) : x ≠ [] := by
  rw [expandGroup] at hx
  split at hx
  · cases hx
  · split at hx
    · split at hx
      · cases hx
      · rename_i hne
        rwa [List.mem_singleton.mp hx]
    · obtain ⟨t, -, rfl⟩ := List.mem_map.mp hx
      exact List.cons_ne_nil _ _

theorem expandGroup_eq_nil : expandGroup U g = [] ↔ ∀ t ∈ g, lookupTokens U t = [] := by
  have hflat : g.flatMap (lookupTokens U) = [] ↔ ∀ t ∈ g, lookupTokens U t = [] :=
    List.flatMap_eq_nil_iff
  rw [← hflat, ← toks_eq, expandGroup]
  generalize (g.map (withoutStarredWords U)).filter (· ≠ []) = kept
  split
  · rename_i hnil
    simp [hnil]
  · generalize (kept.map (searchTokens U)).flatten = toks
    split
    · by_cases ht : toks = [] <;> simp [ht]
    · exact List.map_eq_nil_iff

end Expand

end Ed2kServer.Search.Groups
