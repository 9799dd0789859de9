import Ed2kServer.Keyword.FileStep
import Ed2kServer.Search.Evaluate
import Ed2kServer.Search.Groups

namespace Ed2kServer.Search.Completeness

open Ed2kServer.Text.Chars Ed2kServer.Keyword.Tokenizer Ed2kServer.Keyword.Index
open Ed2kServer.Keyword.Lookup Ed2kServer.Keyword.Compact Ed2kServer.Keyword.Abstract
open Ed2kServer.Keyword.TokenStep Ed2kServer.Keyword.Refinement Ed2kServer.Keyword.FileStep
open Ed2kServer.Search.Tree Ed2kServer.Search.Evaluate Ed2kServer.Search.Groups

variable (U : Unicode)

/-- The index holds the file under the tokens of its name, and under nothing else. -/
def Indexed (ix : KeywordIndex) (id : FileId) (name : Str) : Prop :=
  ∃ p files, Agrees ix p files ∧ ∀ th, id ∈ files th ↔ th ∈ ix.tokenHashes U name

/-- Every term that is true of the file has its keys among the indexed tokens of the name. -/
def TokenWise (ix : KeywordIndex) (node : SearchNode) (name : Str) (facts : FileFacts) : Prop :=
  ∀ s ∈ node.terms,
    evalNode U (foldForMatch U name) facts false (prepare U (.term s)) = some true →
      ∀ tok ∈ lookupTokens U s, tok ∈ indexTokensInto U name ix.subtokens

section Condition

variable (carried : Str → Prop)

/-- What one list of terms asks of a file: all the keys of the only term, or any key. -/
def Carries (g : List Str) : Prop :=
  let kept := (g.map (withoutStarredWords U)).filter (· ≠ [])
  if kept.length ≤ 1 then ∀ t ∈ g, ∀ tok ∈ lookupTokens U t, carried tok
  else (∃ t ∈ g, lookupTokens U t ≠ []) → ∃ t ∈ g, ∃ tok ∈ lookupTokens U t, carried tok

/-- What the part of a tree on the right of a NOT asks: the words and ORs that a second NOT turns
positive again. -/
def NegatedCarries (inNegation : Bool) : SearchNode → Prop
  | .term s => inNegation = false → Carries U carried [s]
  | .bool .and l r => NegatedCarries inNegation l ∧ NegatedCarries inNegation r
  | .bool .or l r =>
    inNegation = false → Carries U carried (walkTerms false l ++ walkTerms false r)
  | .bool .not l r => NegatedCarries inNegation l ∧ NegatedCarries (!inNegation) r
  | .metaTag .. | .numeric .. => True

/-- The file carries what the ORs of the tree ask, and what is negated twice. -/
def OrsCarry : SearchNode → Prop
  | .bool .and l r => OrsCarry l ∧ OrsCarry r
  | .bool .or l r => Carries U carried (walkTerms false l ++ walkTerms false r)
  | .bool .not l r => OrsCarry l ∧ NegatedCarries U carried true r
  | .term _ | .metaTag .. | .numeric .. => True

end Condition

variable {U} {carried : Str → Prop}

theorem expandGroup_carries (g : List Str) :
    (∀ x ∈ expandGroup U g, ∃ t ∈ x, carried t) ↔ Carries U carried g := by
  have hall : (∀ t ∈ g, ∀ tok ∈ lookupTokens U t, carried tok) ↔
      ∀ tok ∈ g.flatMap (lookupTokens U), carried tok := by
    simp only [List.mem_flatMap, forall_exists_index, and_imp]
    exact ⟨fun h tok t ht htok => h t ht tok htok, fun h t ht tok htok => h tok t ht htok⟩
  have hany : (∃ t ∈ g, ∃ tok ∈ lookupTokens U t, carried tok) ↔
      ∃ tok ∈ g.flatMap (lookupTokens U), carried tok := by
    simp only [List.mem_flatMap]
    exact ⟨fun ⟨t, ht, tok, htok, h⟩ => ⟨tok, ⟨t, ht, htok⟩, h⟩,
      fun ⟨tok, ⟨t, ht, htok⟩, h⟩ => ⟨t, ht, tok, htok, h⟩⟩
  have hne : (∃ t ∈ g, lookupTokens U t ≠ []) ↔ g.flatMap (lookupTokens U) ≠ [] := by
    rw [ne_eq, List.flatMap_eq_nil_iff]
    simp
  have hnil : (g.map (withoutStarredWords U)).filter (· ≠ []) = [] →
      g.flatMap (lookupTokens U) = [] := by
    intro hk
    rw [← toks_eq, hk]
    rfl
  rw [Carries, hall, hany, hne, expandGroup, toks_eq]
  generalize g.flatMap (lookupTokens U) = toks at hnil ⊢
  generalize (g.map (withoutStarredWords U)).filter (· ≠ []) = kept at hnil ⊢
  by_cases hk : kept = []
  · simp [hk, hnil hk]
  · by_cases hlen : kept.length ≤ 1
    · simp only [if_neg hk, if_neg (Nat.not_lt.mpr hlen), if_pos hlen]
      simp
    · simp only [if_neg hk, if_pos (Nat.not_le.mp hlen), if_neg hlen]
      by_cases ht : toks = [] <;> simp [ht]

theorem negatedCarries_iff (inNegation : Bool) (node : SearchNode) :
    (∀ g ∈ walkGroups inNegation node, Carries U carried g) ↔
      NegatedCarries U carried inNegation node := by
  induction node generalizing inNegation with
  | term s => cases inNegation <;> simp [walkGroups, NegatedCarries]
  | bool op l r ihl ihr =>
    cases op with
    | and => simp only [walkGroups, NegatedCarries, List.forall_mem_append, ihl, ihr]
    | not => simp only [walkGroups, NegatedCarries, List.forall_mem_append, ihl, ihr]
    | or =>
      cases inNegation with
      | true => simp [walkGroups, NegatedCarries]
      | false =>
        by_cases hf : walkTerms false l ++ walkTerms false r = []
        · simp [walkGroups, NegatedCarries, hf, Carries]
        · simp [walkGroups, NegatedCarries, hf]
  | metaTag tagName value => simp [walkGroups, NegatedCarries]
  | numeric tagName op value => simp [walkGroups, NegatedCarries]

/-- Of a tree that does not reject the file, only ORs and double negations can ask for keys the
file does not carry. -/
theorem orsCarry_iff {name : Str} {facts : FileFacts} {node : SearchNode}
    (hterms : ∀ s ∈ node.terms,
      evalNode U (foldForMatch U name) facts false (prepare U (.term s)) = some true →
        ∀ tok ∈ lookupTokens U s, carried tok)
    (heval : evalNode U (foldForMatch U name) facts false (prepare U node) ≠ some false) :
    (∀ g ∈ walkGroups false node, Carries U carried g) ↔ OrsCarry U carried node := by
  induction node with
  | term s =>
    have htrue : evalNode U (foldForMatch U name) facts false (prepare U (.term s)) =
        some true := by
      simp only [prepare, evalNode] at heval ⊢
      simpa using heval
    have hcar := hterms s (List.mem_singleton_self s) htrue
    have hone : Carries U carried [s] := by
      have hlen : (([s].map (withoutStarredWords U)).filter (· ≠ [])).length ≤ 1 :=
        List.length_filter_le _ [withoutStarredWords U s]
      rw [Carries, if_pos hlen]
      simpa using hcar
    simp [walkGroups, OrsCarry, hone]
  | bool op l r ihl ihr =>
    have hl := ihl (fun s hs => hterms s (List.mem_append_left _ hs))
    have hr := ihr (fun s hs => hterms s (List.mem_append_right _ hs))
    rw [prepare, evalNode] at heval
    cases op with
    | and =>
      obtain ⟨hel, her⟩ := combine_and_ne_false heval
      simp only [walkGroups, OrsCarry, List.forall_mem_append, hl hel, hr her]
    | not =>
      have hel := combine_not_ne_false heval
      simp only [walkGroups, OrsCarry, List.forall_mem_append, hl hel, Bool.not_false,
        negatedCarries_iff]
    | or =>
      by_cases hf : walkTerms false l ++ walkTerms false r = []
      · simp [walkGroups, OrsCarry, hf, Carries]
      · simp [walkGroups, OrsCarry, hf]
  | metaTag tagName value => simp [walkGroups, OrsCarry]
  | numeric tagName op value => simp [walkGroups, OrsCarry]

theorem mem_findGrouped {ix : KeywordIndex} {id : FileId} {name : Str} {node : SearchNode}
    (hix : Indexed U ix id name) (hne : candidateGroups U node ≠ []) :
    id ∈ ix.findGrouped (candidateGroups U node) ↔ ∀ g ∈ walkGroups false node,
      Carries U (fun tok => tokenHash tok ∈ ix.tokenHashes U name) g := by
  obtain ⟨p, files, hag, hid⟩ := hix
  have hgroups : ∀ x ∈ candidateGroups U node, x ≠ [] := by
    intro x hx
    obtain ⟨g, -, hxg⟩ := List.mem_flatMap.mp hx
    exact expandGroup_ne_nil hxg
  obtain ⟨-, hfind⟩ := hag.sound.findGrouped hne hgroups
  rw [hfind]
  simp only [mem_posting_iff hag, hid, ← expandGroup_carries, candidateGroups,
    collectCandidateTerms, List.mem_flatMap, forall_exists_index, and_imp]
  exact ⟨fun h g hg x hx => h x g hg hx, fun h x g hg hx => h g hg x hx⟩

theorem tokenWise_carried {ix : KeywordIndex} {name : Str} {facts : FileFacts}
    {node : SearchNode} (h : TokenWise U ix node name facts) : ∀ s ∈ node.terms,
      evalNode U (foldForMatch U name) facts false (prepare U (.term s)) = some true →
        ∀ tok ∈ lookupTokens U s, tokenHash tok ∈ ix.tokenHashes U name :=
  fun s hs htrue tok hm => List.mem_map_of_mem (h s hs htrue tok hm)

section Shapes

variable (U)

/-- A branch that cannot be true without one of its looked-up words. -/
def Seeded : SearchNode → Prop
  | .term s => lookupTokens U s ≠ []
  | .bool .and l r => Seeded l ∨ Seeded r
  | .bool .or l r => Seeded l ∧ Seeded r
  | .bool .not l _ => Seeded l
  | .metaTag .. | .numeric .. => False

/-- Every OR has words in both branches, and nothing is negated twice. -/
def Plain : SearchNode → Prop
  | .bool .and l r => Plain l ∧ Plain r
  | .bool .or l r => Seeded U l ∧ Seeded U r
  | .bool .not l r => Plain l ∧ walkGroups true r = []
  | .term _ | .metaTag .. | .numeric .. => True

variable {U}

theorem seeded_eval_ne_none {node : SearchNode} (h : Seeded U node) (nameLower : Str)
    (facts : FileFacts) : evalNode U nameLower facts false (prepare U node) ≠ none := by
  induction node with
  | term s => simp [prepare, evalNode]
  | bool op l r ihl ihr =>
    rw [prepare, evalNode]
    intro hnone
    obtain ⟨hl, hr⟩ := combine_eq_none hnone
    cases op with
    | and => exact h.elim (fun h => ihl h hl) (fun h => ihr h hr)
    | or => exact ihl h.1 hl
    | not => exact ihl h hl
  | metaTag tagName value => exact h.elim
  | numeric tagName op value => exact h.elim

theorem seeded_lookup {node : SearchNode} (h : Seeded U node) :
    ∃ t ∈ walkTerms false node, lookupTokens U t ≠ [] := by
  induction node with
  | term s => exact ⟨s, by simp [walkTerms], h⟩
  | bool op l r ihl ihr =>
    cases op with
    | and =>
      rcases h with hl | hr
      · obtain ⟨t, ht, hne⟩ := ihl hl
        exact ⟨t, List.mem_append_left _ ht, hne⟩
      · obtain ⟨t, ht, hne⟩ := ihr hr
        exact ⟨t, List.mem_append_right _ ht, hne⟩
    | or =>
      obtain ⟨t, ht, hne⟩ := ihl h.1
      exact ⟨t, List.mem_append_left _ ht, hne⟩
    | not =>
      obtain ⟨t, ht, hne⟩ := ihl h
      exact ⟨t, List.mem_append_left _ ht, hne⟩
  | metaTag tagName value => exact h.elim
  | numeric tagName op value => exact h.elim

theorem kept_pos {ts : List Str} (h : ∃ t ∈ ts, lookupTokens U t ≠ []) :
    0 < ((ts.map (withoutStarredWords U)).filter (· ≠ [])).length := by
  obtain ⟨t, ht, hne⟩ := h
  have hw : withoutStarredWords U t ≠ [] := by
    intro hw
    rw [lookupTokens, hw, searchTokens_nil] at hne
    exact hne rfl
  exact List.length_pos_of_mem (List.mem_filter.mpr ⟨List.mem_map_of_mem ht, by simpa using hw⟩)

/-- An OR of seeded branches has two terms at least. -/
theorem seeded_terms {l r : SearchNode} (h : Seeded U l ∧ Seeded U r) :
    1 < (((walkTerms false l ++ walkTerms false r).map (withoutStarredWords U)).filter
      (· ≠ [])).length := by
  rw [List.map_append, List.filter_append, List.length_append]
  have hl := kept_pos (seeded_lookup h.1)
  have hr := kept_pos (seeded_lookup h.2)
  omega

/-- A seeded branch that is true has a word the file carries. -/
theorem seeded_carries {name : Str} {facts : FileFacts} {node : SearchNode} (h : Seeded U node)
    (hterms : ∀ s ∈ node.terms,
      evalNode U (foldForMatch U name) facts false (prepare U (.term s)) = some true →
        ∀ tok ∈ lookupTokens U s, carried tok)
    (heval : evalNode U (foldForMatch U name) facts false (prepare U node) = some true) :
    ∃ t ∈ walkTerms false node, ∃ tok ∈ lookupTokens U t, carried tok := by
  induction node with
  | term s =>
    obtain ⟨tok, htok⟩ := List.exists_mem_of_ne_nil _ h
    exact ⟨s, by simp [walkTerms], tok, htok, hterms s (List.mem_singleton_self s) heval tok htok⟩
  | bool op l r ihl ihr =>
    have hl : Seeded U l → _ → _ := fun h => ihl h (fun s hs => hterms s (List.mem_append_left _ hs))
    have hr : Seeded U r → _ → _ := fun h => ihr h (fun s hs => hterms s (List.mem_append_right _ hs))
    rw [prepare, evalNode] at heval
    cases op with
    | and =>
      obtain ⟨htl, htr⟩ := combine_and_eq_true heval
      rcases h with h | h
      · obtain ⟨t, ht, hex⟩ := hl h (htl (seeded_eval_ne_none h _ _))
        exact ⟨t, List.mem_append_left _ ht, hex⟩
      · obtain ⟨t, ht, hex⟩ := hr h (htr (seeded_eval_ne_none h _ _))
        exact ⟨t, List.mem_append_right _ ht, hex⟩
    | or =>
      rcases combine_or_eq_true heval with htl | htr
      · obtain ⟨t, ht, hex⟩ := hl h.1 htl
        exact ⟨t, List.mem_append_left _ ht, hex⟩
      · obtain ⟨t, ht, hex⟩ := hr h.2 htr
        exact ⟨t, List.mem_append_right _ ht, hex⟩
    | not =>
      have hsl : Seeded U l := h
      obtain ⟨t, ht, hex⟩ := hl hsl (combine_not_eq_true heval (seeded_eval_ne_none hsl _ _))
      exact ⟨t, List.mem_append_left _ ht, hex⟩
  | metaTag tagName value => exact h.elim
  | numeric tagName op value => exact h.elim

/-- In a tree of plain shape nothing can be missing. -/
theorem orsCarry_of_plain {name : Str} {facts : FileFacts} {node : SearchNode}
    (h : Plain U node)
    (hterms : ∀ s ∈ node.terms,
      evalNode U (foldForMatch U name) facts false (prepare U (.term s)) = some true →
        ∀ tok ∈ lookupTokens U s, carried tok)
    (heval : evalNode U (foldForMatch U name) facts false (prepare U node) ≠ some false) :
    OrsCarry U carried node := by
  induction node with
  | term s => trivial
  | bool op l r ihl ihr =>
    rw [prepare, evalNode] at heval
    cases op with
    | and =>
      obtain ⟨hel, her⟩ := combine_and_ne_false heval
      exact ⟨ihl h.1 (fun s hs => hterms s (List.mem_append_left _ hs)) hel,
        ihr h.2 (fun s hs => hterms s (List.mem_append_right _ hs)) her⟩
    | not =>
      refine ⟨ihl h.1 (fun s hs => hterms s (List.mem_append_left _ hs))
        (combine_not_ne_false heval), (negatedCarries_iff true r).mp ?_⟩
      rw [h.2]
      exact List.forall_mem_nil _
    | or =>
      have hor : Seeded U (.bool .or l r) := h
      have hnone := seeded_eval_ne_none hor (foldForMatch U name) facts
      rw [prepare, evalNode] at hnone
      have htrue : evalNode U (foldForMatch U name) facts false (prepare U (.bool .or l r)) =
          some true := by
        rw [prepare, evalNode]
        generalize combine .or _ _ = v at heval hnone ⊢
        rcases v with _ | _ | _ <;> simp_all
      obtain ⟨t, ht, tok, htok, hcar⟩ := seeded_carries hor hterms htrue
      rw [walkTerms] at ht
      rw [OrsCarry, Carries, if_neg (Nat.not_le.mpr (seeded_terms h))]
      exact fun _ => ⟨t, ht, tok, htok, hcar⟩
  | metaTag tagName value => trivial
  | numeric tagName op value => trivial

end Shapes

/-- A tree of plain shape finds every file it accepts. -/
theorem candidate_of_plain {ix : KeywordIndex} {id : FileId} {name : Str} {facts : FileFacts}
    {node : SearchNode} (hp : Plain U node) (hix : Indexed U ix id name)
    (hne : candidateGroups U node ≠ [])
    (heval : evaluatePrepared U (prepare U node) (foldForMatch U name) facts = true)
    (htok : TokenWise U ix node name facts) : id ∈ ix.findGrouped (candidateGroups U node) := by
  have hacc := evaluatePrepared_eq_true.mp heval
  have hterms := tokenWise_carried htok
  rw [mem_findGrouped hix hne, orsCarry_iff hterms hacc]
  exact orsCarry_of_plain hp hterms hacc

/-- Adding a file to an index that has nothing of it. -/
theorem indexed_addFile {ix : KeywordIndex} {p : Tier} {files : TokenHash → Set FileId}
    (h : Agrees ix p files) {id : FileId} (hid : ∀ th, id ∉ files th) (name : Str) :
    Indexed U (ix.addFile U id name) id name := by
  have hths : (ix.addFile U id name).tokenHashes U name = ix.tokenHashes U name := by
    rw [KeywordIndex.tokenHashes, addFile_subtokens, KeywordIndex.tokenHashes]
  refine ⟨p, _, agrees_addFile h id name, fun th => ?_⟩
  rw [foldl_applyOp, hths]
  split <;> simp [*]

/-- A file the tree accepts is among the candidates exactly when it carries what the ORs outside
negation and the double negations ask. -/
theorem candidate_iff {ix : KeywordIndex} {id : FileId} {name : Str} {facts : FileFacts}
    {node : SearchNode} (hix : Indexed U ix id name) (hne : candidateGroups U node ≠ [])
    (heval : evaluatePrepared U (prepare U node) (foldForMatch U name) facts = true)
    (htok : TokenWise U ix node name facts) :
    id ∈ ix.findGrouped (candidateGroups U node) ↔
      OrsCarry U (fun tok => tokenHash tok ∈ ix.tokenHashes U name) node := by
  rw [mem_findGrouped hix hne]
  exact orsCarry_iff (tokenWise_carried htok) (evaluatePrepared_eq_true.mp heval)

def oneFile (name : String) : KeywordIndex :=
  (KeywordIndex.withSubtokens false).addFile basicLatin 5 name.toList

theorem indexed_oneFile (name : String) : Indexed basicLatin (oneFile name) 5 name.toList := by
  have hsim : Simulates false (.init false) .init := simulates_init
  obtain ⟨p, hag, -⟩ := hsim.tiers
  exact indexed_addFile hag (fun th hm => hm) name.toList

def facts10 : FileFacts := ⟨10, some 1, none, none⟩

def word (s : String) : SearchNode := .term s.toList

instance {ix : KeywordIndex} {node : SearchNode} {name : Str} {facts : FileFacts} :
    Decidable (TokenWise basicLatin ix node name facts) :=
  inferInstanceAs (Decidable (∀ s ∈ node.terms, _ → ∀ tok ∈ lookupTokens basicLatin s, _))

theorem candidate_iff_word :
    5 ∈ (oneFile "ubuntu.iso").findGrouped (candidateGroups basicLatin (word "ubuntu")) ↔
      OrsCarry basicLatin
        (fun tok => tokenHash tok ∈ (oneFile "ubuntu.iso").tokenHashes basicLatin
          "ubuntu.iso".toList) (word "ubuntu") := by
  have heval : evaluatePrepared basicLatin (prepare basicLatin (word "ubuntu"))
      (foldForMatch basicLatin "ubuntu.iso".toList) facts10 = true := by decide
  exact candidate_iff (indexed_oneFile "ubuntu.iso") (by decide) heval
    (by decide)

/-- `size > 5 OR linux` looks up `linux`, and so does `ubuntu NOT (debian NOT linux)`. -/
theorem or_with_size_loses_file :
    let large : SearchNode := .numeric (.id 0x02) .gt 5
    ∀ tree ∈ [.bool .or large (word "linux"),
        .bool .not (word "ubuntu") (.bool .not (word "debian") (word "linux"))],
      Indexed basicLatin (oneFile "ubuntu.iso") 5 "ubuntu.iso".toList ∧
      candidateGroups basicLatin tree ≠ [] ∧
      evaluatePrepared basicLatin (prepare basicLatin tree)
        (foldForMatch basicLatin "ubuntu.iso".toList) facts10 = true ∧
      TokenWise basicLatin (oneFile "ubuntu.iso") tree "ubuntu.iso".toList facts10 ∧
      5 ∉ (oneFile "ubuntu.iso").findGrouped (candidateGroups basicLatin tree) := by
  intro large tree htree
  refine ⟨indexed_oneFile "ubuntu.iso", ?_⟩
  revert tree
  decide +kernel

end Ed2kServer.Search.Completeness
