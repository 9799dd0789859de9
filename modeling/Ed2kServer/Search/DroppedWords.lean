import Ed2kServer.Keyword.Index
import Ed2kServer.Search.Unknown
import Ed2kServer.Search.PlainWords

namespace Ed2kServer.Search.DroppedWords

open Ed2kServer.Lib Ed2kServer.Text.Chars Ed2kServer.Keyword.Tokenizer Ed2kServer.Keyword.Folding
open Ed2kServer.Keyword.ColdShard Ed2kServer.Keyword.Cold Ed2kServer.Keyword.PostingCodec
open Ed2kServer.Keyword.MergeTiers
open Ed2kServer.Keyword.Index Ed2kServer.Search.Tree Ed2kServer.Search.Groups
open Ed2kServer.Search.Words Ed2kServer.Search.PlainWords Ed2kServer.Search.Unknown

variable (U : Unicode)

/-- A search for the token finds a file. -/
def Posted (ix : KeywordIndex) (token : Str) : Prop :=
  (ix.mergeTiersLocked (tokenHash token) USIZE_MAX).getD [] ≠ []

/-- Every dropped word has a lookup key without a posting. -/
def DroppedMissing (ix : KeywordIndex) (node : SearchNode) : Prop :=
  ∀ word ∈ (dropUnknownWords U ix.containsToken node).2, ∃ t ∈ lookupTokens U word, ¬ Posted ix t

/-- Is a term without any indexable word spared for its markers? -/
def shortTermMarked (s : Str) : Bool :=
  let m := parseMarkers (U.trim (foldForMatch U s))
  m.starred || m.anchored || m.core = [] || m.core = ['*'] || m.core = ['*', '*']

/-- The keys the index is asked for to judge a word of a longer term. -/
def askedKeys (word : Str) : List Str :=
  let m := parseMarkers (foldForMatch U word)
  if m.starred || m.anchored || m.core = [] then [] else tokenize U m.core

/-- The rewriting may drop the word over the key. -/
def Asks (isKnown : Str → Bool) (word key : Str) : SearchNode → Prop
  | .term s =>
    if tokenize U s = [] then
      shortTermMarked U s = false ∧ word = U.trim s ∧ key = U.lowercase (U.trim s)
    else word ∈ U.splitWhitespace s ∧ key ∈ askedKeys U word
  | .bool .and l r => Asks isKnown word key l ∨ Asks isKnown word key r
  | .bool .not l _ => ¬ Vanishes U isKnown l ∧ Asks isKnown word key l
  | .bool .or _ _ | .metaTag .. | .numeric .. => False

/-- A word with a key that the index lacks has a lookup key without a posting. -/
def Agreeing (ix : KeywordIndex) (node : SearchNode) : Prop :=
  Vanishes U ix.containsToken node ∨
    ∀ word key, Asks U ix.containsToken word key node → ix.containsToken key = false →
      ∃ t ∈ lookupTokens U word, ¬ Posted ix t

/-- Everything is known but the one key, and what hashes like it. -/
def allBut (key t : Str) : Bool := tokenHash t ≠ tokenHash key

/-- Every key asked for is a key looked up, unless its absence takes the whole tree away. -/
def KeysAgree (node : SearchNode) : Prop :=
  ∀ key, Vanishes U (allBut key) node ∨
    ∀ word, Asks U (allBut key) word key node →
      ∃ t ∈ lookupTokens U word, tokenHash t = tokenHash key

variable {U} {isKnown : Str → Bool} {ix : KeywordIndex}

theorem Posted.contains {t : Str} (h : Posted ix t) : ix.containsToken t = true := by
  by_contra hc
  rw [KeywordIndex.containsToken, Bool.or_eq_true, not_or] at hc
  obtain ⟨hhot, hcold⟩ := hc
  have hcold : ix.cold.get (tokenHash t) = none := by
    simpa [ColdStore.containsKey, ColdStore.get] using hcold
  have hhot : (ix.hot (tokenHash t)).getD [] = [] := by
    cases hh : ix.hot (tokenHash t) with
    | none => rfl
    | some v => simpa [hh] using hhot
  apply h
  rw [KeywordIndex.mergeTiersLocked]
  split
  · rfl
  · rw [hcold, hhot]
    simp [mergeCursor]

theorem wordIsUnknown_iff (word : Str) :
    wordIsUnknown U isKnown word = true ↔ ∃ key ∈ askedKeys U word, isKnown key = false := by
  rw [wordIsUnknown, askedKeys]
  split <;> simp

theorem shortTermKept_eq (s : Str) :
    shortTermKept U isKnown s = (shortTermMarked U s || isKnown (U.lowercase (U.trim s))) := rfl

/-- What the rewriting of a subtree drops. -/
theorem mem_rewrite (node : SearchNode) (word : Str) :
    word ∈ (rewriteConjunction U isKnown node).2 ↔
      ∃ key, Asks U isKnown word key node ∧ isKnown key = false := by
  induction node with
  | term s =>
    rw [rewriteConjunction]
    by_cases ht : tokenize U s = []
    · simp only [if_pos ht, Asks, shortTermKept_eq]
      by_cases hm : shortTermMarked U s = true
      · simp [hm]
      · by_cases hk : isKnown (U.lowercase (U.trim s)) = true <;> simp [hm, hk]
    · simp only [if_neg ht, Asks]
      have hlost : word ∈ lostWords U isKnown s ↔
          ∃ key, (word ∈ U.splitWhitespace s ∧ key ∈ askedKeys U word) ∧ isKnown key = false := by
        rw [lostWords, List.mem_filter, wordIsUnknown_iff]
        simp only [and_assoc, exists_and_left]
      rw [← hlost]
      by_cases hl : lostWords U isKnown s = []
      · simp [hl]
      · by_cases hk : keptWords U isKnown s = [] <;> simp [hl, hk]
  | bool op l r ihl ihr =>
    cases op with
    | and =>
      rw [rewriteConjunction, List.mem_append, ihl, ihr]
      simp only [Asks, or_and_right, exists_or]
    | or => simp [rewriteConjunction, Asks]
    | not =>
      simp only [Asks, and_assoc, exists_and_left]
      rw [← ihl, ← rewrite_eq_none, rewriteConjunction]
      rcases rewriteConjunction U isKnown l with ⟨_ | a, d⟩ <;> simp
  | metaTag tagName value => simp [rewriteConjunction, Asks]
  | numeric tagName op value => simp [rewriteConjunction, Asks]

theorem mem_dropped (node : SearchNode) (word : Str) :
    word ∈ (dropUnknownWords U isKnown node).2 ↔
      ¬ Vanishes U isKnown node ∧ ∃ key, Asks U isKnown word key node ∧ isKnown key = false := by
  rw [← mem_rewrite, ← rewrite_eq_none, dropUnknownWords]
  rcases rewriteConjunction U isKnown node with ⟨_ | a, d⟩
  · simp
  · by_cases hd : d = [] <;> simp [hd]

theorem droppedMissing_iff (ix : KeywordIndex) (node : SearchNode) :
    DroppedMissing U ix node ↔ Agreeing U ix node := by
  simp only [DroppedMissing, Agreeing, mem_dropped]
  constructor
  · intro h
    by_cases hv : Vanishes U ix.containsToken node
    · exact Or.inl hv
    · exact Or.inr fun word key ha hk => h word ⟨hv, key, ha, hk⟩
  · rintro h word ⟨hv, key, ha, hk⟩
    obtain h | h := h
    · exact absurd h hv
    · exact h word key ha hk

theorem vanishes_mono {isKnown' : Str → Bool} (h : ∀ t, isKnown t = true → isKnown' t = true)
    {node : SearchNode} (hv : Vanishes U isKnown' node) : Vanishes U isKnown node := by
  have hword : ∀ w, wordIsUnknown U isKnown' w = true → wordIsUnknown U isKnown w = true := by
    intro w hw
    rw [wordIsUnknown_iff] at hw ⊢
    obtain ⟨key, hkey, hk⟩ := hw
    refine ⟨key, hkey, ?_⟩
    rw [← Bool.not_eq_true] at hk ⊢
    exact mt (h key) hk
  induction node with
  | term s =>
    rw [Vanishes] at hv ⊢
    split at hv
    · rename_i ht
      rw [if_pos ht]
      rw [shortTermKept_eq, Bool.or_eq_false_iff] at hv ⊢
      refine ⟨hv.1, ?_⟩
      have hk := hv.2
      rw [← Bool.not_eq_true] at hk ⊢
      exact mt (h _) hk
    · rename_i ht
      rw [if_neg ht]
      obtain ⟨hlost, hkept⟩ := hv
      rw [keptWords, List.filter_eq_nil_iff] at hkept ⊢
      obtain ⟨w, hw⟩ := List.exists_mem_of_ne_nil _ hlost
      obtain ⟨hm, hu⟩ := List.mem_filter.mp hw
      refine ⟨List.ne_nil_of_mem (List.mem_filter.mpr ⟨hm, hword w hu⟩), fun w hw => ?_⟩
      have hu := hkept w hw
      rw [Bool.not_eq_true, Bool.not_eq_false'] at hu
      simp [hword w hu]
  | bool op l r ihl ihr =>
    cases op with
    | and => exact ⟨ihl hv.1, ihr hv.2⟩
    | or => exact hv.elim
    | not => exact hv.elim
  | metaTag tagName value => exact hv.elim
  | numeric tagName op value => exact hv.elim

theorem Asks.mono {isKnown' : Str → Bool} (h : ∀ t, isKnown t = true → isKnown' t = true)
    {word key : Str} {node : SearchNode} (ha : Asks U isKnown word key node) :
    Asks U isKnown' word key node := by
  induction node with
  | term s => exact ha
  | bool op l r ihl ihr =>
    cases op with
    | and => exact ha.imp ihl ihr
    | or => exact ha.elim
    | not => exact ⟨mt (vanishes_mono h) ha.1, ihl ha.2⟩
  | metaTag tagName value => exact ha.elim
  | numeric tagName op value => exact ha.elim

/-- An index of one file under every key but one. -/
def fullBut (key : Str) : KeywordIndex :=
  ⟨.empty, fun th => if th = tokenHash key then none else some [0], fun _ => none, false⟩

theorem containsToken_fullBut (key : Str) : (fullBut key).containsToken = allBut key := by
  funext t
  have hc : ∀ th, ColdStore.empty.containsKey th = false := fun th => by
    simpa [ColdStore.containsKey, ColdStore.get] using holds_empty.get th
  by_cases ht : tokenHash t = tokenHash key <;>
    simp [KeywordIndex.containsToken, fullBut, allBut, hc, ht]

theorem posted_fullBut {key t : Str} (ht : tokenHash t ≠ tokenHash key) :
    Posted (fullBut key) t := by
  simp [Posted, KeywordIndex.mergeTiersLocked, fullBut, holds_empty.get, ht, mergeCursor,
    USIZE_MAX]

/-- Only a key that hashes like the missing one is missing. -/
theorem containsToken_allBut {key t : Str} (hk : ix.containsToken key = false)
    (ht : ix.containsToken t = true) : allBut key t = true := by
  rw [allBut, decide_eq_true_iff]
  intro he
  rw [KeywordIndex.containsToken, he] at ht
  rw [KeywordIndex.containsToken] at hk
  rw [hk] at ht
  cases ht

/-- The dropped words are missing ones, whatever the index is, exactly where every key asked for
is looked up. -/
theorem droppedMissing_all_iff (node : SearchNode) :
    (∀ ix, DroppedMissing U ix node) ↔ KeysAgree U node := by
  simp only [droppedMissing_iff]
  constructor
  · intro h key
    obtain hv | hk := h (fullBut key)
    · exact Or.inl (containsToken_fullBut key ▸ hv)
    · refine Or.inr fun word ha => ?_
      rw [containsToken_fullBut] at hk
      obtain ⟨t, ht, hp⟩ := hk word key ha (by simp [allBut])
      exact ⟨t, ht, not_not.mp (mt posted_fullBut hp)⟩
  · intro h ix
    by_cases hv : Vanishes U ix.containsToken node
    · exact Or.inl hv
    · refine Or.inr fun word key ha hk => ?_
      have hmono := fun t => containsToken_allBut (t := t) hk
      obtain hall | hall := h key
      · exact absurd (vanishes_mono hmono hall) hv
      · obtain ⟨t, ht, he⟩ := hall word (ha.mono hmono)
        refine ⟨t, ht, fun hp => ?_⟩
        have hb := containsToken_allBut hk hp.contains
        rw [allBut, decide_eq_true_iff] at hb
        exact hb he

/-- What the index is asked for over a word is looked up, where folding twice is folding once. -/
theorem asked_looked_up (h : Lawful U) {word key : Str} (hw : IsWord U word)
    (hfold : foldForMatch U (foldForMatch U word) = foldForMatch U word)
    (hk : key ∈ askedKeys U word) : key ∈ lookupTokens U word := by
  rw [askedKeys] at hk
  split at hk
  · cases hk
  · rename_i hm
    simp only [Bool.or_eq_true, not_or, Bool.not_eq_true] at hm
    have hplain := plain_of_parseMarkers hm.1.1 hm.1.2
    rw [hplain.parseMarkers] at hk
    have hkey := tokenize_fold_subset h hfold hk
    rw [h.foldForMatch_eq] at hplain
    rwa [lookupTokens_word hw (hplain.of_fold h) (List.ne_nil_of_mem hkey)]

theorem keysAgree_of_stable (h : Lawful U) {node : SearchNode}
    (hs : ∀ s ∈ node.terms, tokenize U s ≠ [] ∧ ∀ w ∈ U.splitWhitespace s,
      foldForMatch U (foldForMatch U w) = foldForMatch U w) : KeysAgree U node := by
  intro key
  refine Or.inr fun word ha => ⟨key, ?_, rfl⟩
  induction node with
  | term s =>
    obtain ⟨ht, hw⟩ := hs s List.mem_cons_self
    rw [Asks, if_neg ht] at ha
    exact asked_looked_up h (isWord_of_mem ha.1) (hw word ha.1) ha.2
  | bool op l r ihl ihr =>
    have hl := fun hl => ihl (fun s hm => hs s (List.mem_append_left _ hm)) hl
    have hr := fun hr => ihr (fun s hm => hs s (List.mem_append_right _ hm)) hr
    cases op with
    | and => exact ha.elim hl hr
    | or => exact ha.elim
    | not => exact hl ha.2
  | metaTag tagName value => exact ha.elim
  | numeric tagName op value => exact ha.elim

/-- A dropped word is a missing one where the keys asked for are keys looked up: for one index, and
for all of them. -/
theorem dropped_missing_iff (node : SearchNode) :
    (∀ ix, DroppedMissing U ix node ↔ Agreeing U ix node) ∧
      ((∀ ix, DroppedMissing U ix node) ↔ KeysAgree U node) :=
  ⟨fun ix => droppedMissing_iff ix node, droppedMissing_all_iff node⟩

/-- The tables with the Ångström sign, whose lower case is a letter with an accent. -/
def withAngstrom : Unicode :=
  { basicLatin with
    isAlphabetic := fun c => basicLatin.isAlphabetic c || c == '\u212b' || c == 'å'
    toLowercase := fun c => if c = '\u212b' then ['å'] else basicLatin.toLowercase c
    cased := fun c => basicLatin.cased c || c == '\u212b' || c == 'å'
    toLowercase_ne_nil := fun c => by
      split
      · exact List.cons_ne_nil _ _
      · exact basicLatin.toLowercase_ne_nil c
    star_of_mem_toLowercase := fun c hc => by
      split at hc
      · simp at hc
      · exact basicLatin.star_of_mem_toLowercase c hc }

theorem withAngstrom_lawful : Lawful withAngstrom where
  whitespace := basicLatin_lawful.whitespace
  ascii c hc := by
    have hne : c ≠ '\u212b' := by
      rintro rfl
      exact absurd hc (by decide)
    exact (if_neg hne).trans (basicLatin_lawful.ascii c hc)
  separator_alone c hc := by
    have hne : c ≠ '\u212b' := by
      rintro rfl
      exact absurd hc (by decide)
    exact (if_neg hne).trans (basicLatin_lawful.separator_alone c hc)
  separator_made c d hd hs := by
    have hd : d ∈ (if c = '\u212b' then ['å'] else basicLatin.toLowercase c) := hd
    split at hd
    · obtain rfl := List.mem_singleton.mp hd
      exact absurd hs (by decide)
    · exact basicLatin_lawful.separator_made c d hd hs

theorem foldChar_ring : foldChar 'å' = some 'a' := by
  have hletter : FOLD_LATIN[37]? = some 'a' := by
    unfold FOLD_LATIN
    simp only [String.toList_append, List.append_assoc]
    rfl
  have hn : 'å'.toNat - 0x00C0 = 37 := by decide
  rw [foldChar, if_neg (by decide), if_pos (by decide), hn, hletter]
  rfl

theorem tokenize_ring : tokenize withAngstrom "åx".toList = ["ax".toList] := by
  have hf : foldToken withAngstrom "åx".toList = "ax".toList := by
    have hx : foldChar 'x' = some 'x' := by decide
    have hs : "åx".toList = ['å', 'x'] := rfl
    rw [hs, foldToken, List.flatMap_cons, List.flatMap_cons, foldChar_ring, hx]
    rfl
  have hsplit : "åx".toList.splitOnP (isSeparator withAngstrom) = ["åx".toList] := by
    decide
  have hcommon : "ax".toList ∉ COMMON_WORDS_SKIP := by decide
  have hascii : isAscii "åx".toList = false := by decide
  have hlen : MIN_KEYWORD_LEN ≤ (utf8 "åx".toList).length := by decide
  have hne : "ax".toList ≠ [] := by decide
  rw [tokenize, tokenizeInto, if_neg (ne_of_eq_of_ne hascii Bool.false_ne_true), hsplit]
  simp only [List.filter_cons, List.filter_nil, hlen, decide_true, if_true, List.map_cons,
    List.map_nil, hf, hne, hcommon, ne_eq, not_false_iff, and_self]

def angstromName : Str := "\u212bx ubuntu".toList

def angstromIndex : KeywordIndex :=
  (KeywordIndex.withSubtokens false).addFile withAngstrom 7 angstromName

/-- The file `Åx ubuntu`, with the sign, is indexed under `åx`; the query `Åx ubuntu` loses the word
because nothing is indexed under `ax`. -/
theorem drops_present_word : ¬ DroppedMissing withAngstrom angstromIndex (.term angstromName) := by
  have hwords : withAngstrom.splitWhitespace angstromName =
      ["\u212bx".toList, "ubuntu".toList] := by decide
  have htok : tokenize withAngstrom angstromName ≠ [] := by decide
  have hfold : foldForMatch withAngstrom "\u212bx".toList = "åx".toList := by decide
  have hasked : askedKeys withAngstrom "\u212bx".toList = ["ax".toList] := by
    have hm : parseMarkers "åx".toList = ⟨"åx".toList, false, false⟩ := by rfl
    rw [askedKeys, hfold, hm]
    exact tokenize_ring
  have hmiss : angstromIndex.containsToken "ax".toList = false := by decide
  have hkept : wordIsUnknown withAngstrom angstromIndex.containsToken "ubuntu".toList = false := by
    decide
  have hlost : "\u212bx".toList ∈
      (dropUnknownWords withAngstrom angstromIndex.containsToken (.term angstromName)).2 := by
    refine (mem_dropped _ _).mpr ⟨?_, "ax".toList, ?_, hmiss⟩
    · rw [Vanishes, if_neg htok, keptWords, hwords]
      rintro ⟨-, hnil⟩
      rw [List.filter_eq_nil_iff] at hnil
      exact hnil _ (List.mem_cons_of_mem _ List.mem_cons_self) (by rw [hkept]; rfl)
    · rw [Asks, if_neg htok, hwords, hasked]
      exact ⟨List.mem_cons_self, List.mem_cons_self⟩
  have ht : lookupTokens withAngstrom "\u212bx".toList = ["åx".toList] := by decide
  have hp : (angstromIndex.mergeTiersLocked (tokenHash "åx".toList) USIZE_MAX).getD [] = [7] := by
    decide +kernel
  intro h
  obtain ⟨t, hm, hn⟩ := h _ hlost
  rw [ht, List.mem_singleton] at hm
  apply hn
  rw [hm, Posted, hp]
  exact List.cons_ne_nil 7 []

end Ed2kServer.Search.DroppedWords
