import Ed2kServer.Search.Groups

namespace Ed2kServer.Search.Words

open Ed2kServer.Text.Chars Ed2kServer.Keyword.Tokenizer Ed2kServer.Search.Tree
open Ed2kServer.Search.Groups

theorem not_of_mem_splitOnP {p : Char → Bool} {s piece : Str} (h : piece ∈ s.splitOnP p) :
    ∀ c ∈ piece, p c = false := by
  induction s generalizing piece with
  | nil =>
    obtain rfl := List.mem_singleton.mp (List.splitOnP_nil ▸ h)
    exact List.forall_mem_nil _
  | cons a s ih =>
    rw [List.splitOnP_cons_eq_if_modifyHead] at h
    split at h
    · rcases List.mem_cons.mp h with rfl | h
      · exact List.forall_mem_nil _
      · exact ih h
    · rename_i ha
      cases hs : s.splitOnP p with
      | nil =>
        rw [hs] at h
        cases h
      | cons first rest =>
        rw [hs, List.modifyHead_cons] at h
        rw [hs] at ih
        rcases List.mem_cons.mp h with rfl | h
        · intro c hc
          rcases List.mem_cons.mp hc with rfl | hc
          · simpa using ha
          · exact ih List.mem_cons_self c hc
        · exact ih (List.mem_cons_of_mem _ h)

variable {U : Unicode}

/-- Words as `split_whitespace` yields them. -/
def IsWord (U : Unicode) (w : Str) : Prop := w ≠ [] ∧ ∀ c ∈ w, U.isWhitespace c = false

theorem isWord_of_mem {s w : Str} (h : w ∈ U.splitWhitespace s) : IsWord U w := by
  obtain ⟨hm, hne⟩ := List.mem_filter.mp h
  exact ⟨by simpa using hne, not_of_mem_splitOnP hm⟩

theorem splitWhitespace_joinWords {ws : List Str} (h : ∀ w ∈ ws, IsWord U w) :
    U.splitWhitespace (joinWords ws) = ws := by
  induction ws with
  | nil => rfl
  | cons w ws ih =>
    obtain ⟨hne, hw⟩ := h w List.mem_cons_self
    have hws := ih (fun v hv => h v (List.mem_cons_of_mem w hv))
    cases ws with
    | nil =>
      rw [joinWords, List.intercalate_singleton, Unicode.splitWhitespace,
        List.splitOnP_eq_singleton hw]
      simp [hne]
    | cons v ws =>
      rw [joinWords] at hws ⊢
      rw [List.intercalate_cons_cons, Unicode.splitWhitespace, List.append_assoc,
        List.singleton_append,
        List.splitOnP_append_cons_of_forall_mem hw ' ' U.isWhitespace_space,
        List.filter_cons_of_pos (by simpa using hne)]
      exact congrArg (w :: ·) hws

/-- The first and the last character of a text of words belong to words. -/
theorem joinWords_ends {ws : List Str} (h : ∀ w ∈ ws, IsWord U w) (hne : ws ≠ []) :
    (∃ c rest, joinWords ws = c :: rest ∧ U.isWhitespace c = false) ∧
      ∃ c front, joinWords ws = front ++ [c] ∧ U.isWhitespace c = false := by
  induction ws with
  | nil => exact absurd rfl hne
  | cons w ws ih =>
    obtain ⟨hw, hc⟩ := h w List.mem_cons_self
    obtain ⟨c, rest, rfl⟩ := List.exists_cons_of_ne_nil hw
    have hlast : ∃ d front, c :: rest = front ++ [d] ∧ U.isWhitespace d = false := by
      refine ⟨(c :: rest).getLast hw, (c :: rest).dropLast, ?_, hc _ (List.getLast_mem hw)⟩
      exact (List.dropLast_concat_getLast hw).symm
    cases ws with
    | nil =>
      rw [joinWords, List.intercalate_singleton]
      exact ⟨⟨c, rest, rfl, hc c List.mem_cons_self⟩, hlast⟩
    | cons v ws =>
      obtain ⟨-, d, front, hd, hdw⟩ :=
        ih (fun u hu => h u (List.mem_cons_of_mem _ hu)) (List.cons_ne_nil v ws)
      rw [joinWords] at hd ⊢
      rw [List.intercalate_cons_cons, hd]
      exact ⟨⟨c, _, rfl, hc c List.mem_cons_self⟩, d, c :: rest ++ [' '] ++ front, by simp, hdw⟩

theorem trim_joinWords {ws : List Str} (h : ∀ w ∈ ws, IsWord U w) (hne : ws ≠ []) :
    U.trim (joinWords ws) = joinWords ws := by
  obtain ⟨⟨c, rest, hfirst, hc⟩, d, front, hlast, hd⟩ := joinWords_ends h hne
  have hdrop : (joinWords ws).dropWhile U.isWhitespace = joinWords ws := by
    rw [hfirst, List.dropWhile_cons_of_neg (by simpa using hc)]
  rw [Unicode.trim, hdrop, hlast, List.reverse_append, List.reverse_singleton,
    List.singleton_append, List.dropWhile_cons_of_neg (by simpa using hd), List.reverse_cons,
    List.reverse_reverse]

theorem star_isSeparator : isSeparator U '*' = true := by
  have h : SEPARATORS.contains '*' = true := rfl
  rw [isSeparator, h, Bool.or_true]

theorem star_notMem_foldLatin : '*' ∉ FOLD_LATIN := by
  unfold FOLD_LATIN
  simp only [String.toList_append, List.mem_append, not_or]
  simp

theorem eq_star_of_foldChar {c : Char} (h : foldChar c = some '*') : c = '*' := by
  rw [foldChar] at h
  split at h
  · cases h
  · split at h
    · split at h
      · rename_i b hb
        split at h
        · cases h
          exact absurd (List.mem_of_getElem? hb) star_notMem_foldLatin
        · exact Option.some.inj h
      · exact Option.some.inj h
    · exact Option.some.inj h

theorem star_notMem_foldToken {raw : Str} (h : '*' ∉ raw) : '*' ∉ foldToken U raw := by
  intro hm
  obtain ⟨c, hc, hcm⟩ := List.mem_flatMap.mp hm
  cases hf : foldChar c with
  | none =>
    rw [hf] at hcm
    cases hcm
  | some d =>
    rw [hf] at hcm
    have hd : d = '*' := U.star_of_mem_toLowercase d hcm
    rw [hd] at hf
    exact h (eq_star_of_foldChar hf ▸ hc)

/-- No token holds a star. -/
theorem star_notMem_of_mem_tokenize {s tok : Str} (h : tok ∈ tokenize U s) : '*' ∉ tok := by
  have hpiece : ∀ t piece : Str, piece ∈ t.splitOnP (isSeparator U) → '*' ∉ piece :=
    fun t piece hp hm => by
      have hs := not_of_mem_splitOnP hp '*' hm
      rw [star_isSeparator] at hs
      cases hs
  rw [tokenize, tokenizeInto] at h
  split at h
  · exact hpiece _ tok (List.mem_filter.mp h).1
  · obtain ⟨raw, hraw, rfl⟩ := List.mem_map.mp (List.mem_filter.mp h).1
    exact star_notMem_foldToken (hpiece _ raw (List.mem_filter.mp hraw).1)

theorem lowercaseFrom_length (before s : Str) : s.length ≤ (U.lowercaseFrom before s).length := by
  induction s generalizing before with
  | nil => exact Nat.zero_le _
  | cons c s ih =>
    rw [Unicode.lowercaseFrom, List.length_append, List.length_cons]
    have hs := ih (c :: before)
    have hc : 1 ≤ (if c = 'Σ' then
        if U.caseIgnorableThenCased before && !U.caseIgnorableThenCased s then ['ς'] else ['σ']
      else U.toLowercase c).length := by
      split
      · split <;> exact Nat.le_refl 1
      · exact List.length_pos_iff.mpr (U.toLowercase_ne_nil c)
    omega

/-- Only stars have stars for lower case. -/
theorem eq_star_of_lowercaseFrom {before s : Str} (h : ∀ c ∈ U.lowercaseFrom before s, c = '*') :
    ∀ c ∈ s, c = '*' := by
  induction s generalizing before with
  | nil => exact List.forall_mem_nil _
  | cons c s ih =>
    rw [Unicode.lowercaseFrom, List.forall_mem_append] at h
    refine List.forall_mem_cons.mpr ⟨?_, ih h.2⟩
    have hc := h.1
    split at hc
    · split at hc
      · exact absurd (hc 'ς' List.mem_cons_self) (by decide)
      · exact absurd (hc 'σ' List.mem_cons_self) (by decide)
    · obtain ⟨d, rest, hd⟩ := List.exists_cons_of_ne_nil (U.toLowercase_ne_nil c)
      have hstar : d = '*' := hc d (by rw [hd]; exact List.mem_cons_self)
      exact U.star_of_mem_toLowercase c (by rw [hd, hstar]; exact List.mem_cons_self)

theorem core_eq_nil {w : Str} (h : ∀ c ∈ w, c = '*') : (parseMarkers w).core = [] := by
  have hd : w.dropWhile (· == '*') = [] := by
    induction w with
    | nil => rfl
    | cons c w ih =>
      have hc : (c == '*') = true := beq_iff_eq.mpr (h c List.mem_cons_self)
      rw [List.dropWhile_cons, if_pos hc]
      exact ih (fun d hd => h d (List.mem_cons_of_mem c hd))
  simp [parseMarkers, hd]

/-- A text of words that are not all markers has keys. -/
theorem searchTokens_joinWords_ne_nil {ws : List Str} (h : ∀ w ∈ ws, IsWord U w)
    (hcore : ∀ w ∈ ws, (parseMarkers w).core ≠ []) (hne : ws ≠ []) :
    searchTokens U (joinWords ws) ≠ [] := by
  obtain ⟨c, hc, hstar⟩ : ∃ c ∈ joinWords ws, c ≠ '*' := by
    obtain ⟨w, rest, rfl⟩ := List.exists_cons_of_ne_nil hne
    have hw := mt core_eq_nil (hcore w List.mem_cons_self)
    push Not at hw
    obtain ⟨c, hc, hstar⟩ := hw
    refine ⟨c, ?_, hstar⟩
    cases rest with
    | nil => rwa [joinWords, List.intercalate_singleton]
    | cons v rest =>
      rw [joinWords, List.intercalate_cons_cons, List.append_assoc]
      exact List.mem_append_left _ hc
  have hone : ∀ t : Str, '*' ∉ t ∨ (∃ c ∈ t, c ≠ '*') → t ≠ [] → t ≠ ['*'] ∧ t ≠ ['*', '*'] := by
    rintro t (ht | ⟨d, hd, hds⟩) -
    · constructor <;> rintro rfl <;> simp at ht
    · constructor <;> rintro rfl <;> simp at hd <;> exact hds hd
  have ht := hone _ (Or.inr ⟨c, hc, hstar⟩) (List.ne_nil_of_mem hc)
  rw [searchTokens, tokenizeSearchTerm, trim_joinWords h hne]
  simp only [ht.1, ht.2, or_self, if_false]
  by_cases htok : tokenize U (joinWords ws) = []
  · have hlen := lowercaseFrom_length (U := U) [] (joinWords ws)
    have hlow : U.lowercase (joinWords ws) ≠ [] := by
      intro hnil
      rw [Unicode.lowercase] at hnil
      rw [hnil, List.length_nil, Nat.le_zero, List.length_eq_zero_iff] at hlen
      rw [hlen] at hc
      cases hc
    have hex : ∃ d ∈ U.lowercase (joinWords ws), d ≠ '*' := by
      by_contra hall
      push Not at hall
      exact hstar (eq_star_of_lowercaseFrom hall c hc)
    have hl := hone _ (Or.inr hex) hlow
    simp [htok, hlow, hl]
  · obtain ⟨tok, htm⟩ := List.exists_mem_of_ne_nil _ htok
    rw [if_neg htok]
    refine List.ne_nil_of_mem (List.mem_filter.mpr ⟨htm, ?_⟩)
    have hs := star_notMem_of_mem_tokenize htm
    simp only [decide_eq_true_eq]
    constructor <;> rintro rfl <;> simp at hs

/-- The words of a term that are looked up. -/
def plainWords (U : Unicode) (s : Str) : List Str :=
  (U.splitWhitespace s).filter
    (fun w => !(parseMarkers w).starred && (parseMarkers w).core ≠ [])

theorem lookupTokens_eq_nil {s : Str} : lookupTokens U s = [] ↔ plainWords U s = [] := by
  constructor
  · intro h
    by_contra hne
    refine searchTokens_joinWords_ne_nil (fun w hw => isWord_of_mem (List.mem_filter.mp hw).1)
      (fun w hw => ?_) hne h
    have hw := (List.mem_filter.mp hw).2
    rw [Bool.and_eq_true, decide_eq_true_iff] at hw
    exact hw.2
  · intro h
    have hw : withoutStarredWords U s = joinWords (plainWords U s) := rfl
    rw [lookupTokens, hw, h]
    exact searchTokens_nil

/-- Leaving words out of a term that has no keys gives it none. -/
theorem lookupTokens_filter {s : Str} (h : lookupTokens U s = []) (p : Str → Bool) :
    lookupTokens U (joinWords ((U.splitWhitespace s).filter p)) = [] := by
  rw [lookupTokens_eq_nil] at h ⊢
  rw [plainWords, splitWhitespace_joinWords
    (fun w hw => isWord_of_mem (List.mem_filter.mp hw).1), List.filter_filter]
  rw [plainWords, List.filter_eq_nil_iff] at h
  rw [List.filter_eq_nil_iff]
  exact fun w hw hc => h w hw (Bool.and_eq_true_iff.mp hc).1

end Ed2kServer.Search.Words
