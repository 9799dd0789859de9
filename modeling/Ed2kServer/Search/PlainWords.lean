import Ed2kServer.Keyword.Folding
import Ed2kServer.Search.Words

namespace Ed2kServer.Search.PlainWords

open Ed2kServer.Text.Chars Ed2kServer.Keyword.Tokenizer Ed2kServer.Keyword.Folding
open Ed2kServer.Search.Tree Ed2kServer.Search.Groups Ed2kServer.Search.Words

/-- A word without markers. -/
structure Plain (w : Str) : Prop where
  head : ∀ c rest, w = c :: rest → c ≠ '*' ∧ c ≠ '^'
  last : ∀ front, w ≠ front ++ ['*']

theorem Plain.parseMarkers {w : Str} (h : Plain w) : parseMarkers w = ⟨w, false, false⟩ := by
  have hlast : w.reverse.dropWhile (· == '*') = w.reverse := by
    cases hr : w.reverse with
    | nil => rfl
    | cons c rest =>
      have hw : w = rest.reverse ++ [c] := by
        rw [← List.reverse_reverse w, hr, List.reverse_cons]
      have hc : c ≠ '*' := by
        rintro rfl
        exact h.last _ hw
      rw [List.dropWhile_cons_of_neg (by simpa using hc)]
  cases w with
  | nil => rfl
  | cons c rest =>
    obtain ⟨hstar, hanchor⟩ := h.head c rest rfl
    have hfirst : (c :: rest).dropWhile (· == '*') = c :: rest :=
      List.dropWhile_cons_of_neg (by simpa using hstar)
    simp [Tree.parseMarkers, hfirst, hanchor, hlast, -List.reverse_cons]

theorem plain_of_parseMarkers {w : Str} (hs : (parseMarkers w).starred = false)
    (ha : (parseMarkers w).anchored = false) : Plain w := by
  have hhead : ∀ c rest, w = c :: rest → c ≠ '*' ∧ c ≠ '^' := by
    rintro c rest rfl
    have hc : c ≠ '*' := by
      rintro rfl
      have hle := (List.dropWhile_suffix (l := rest) (· == '*')).length_le
      simp only [parseMarkers, List.dropWhile_cons, beq_self_eq_true, if_true, List.length_cons,
        Bool.or_eq_false_iff, decide_eq_false_iff_not] at hs
      omega
    refine ⟨hc, ?_⟩
    rintro rfl
    simp [parseMarkers] at ha
  refine ⟨hhead, ?_⟩
  rintro front rfl
  cases front with
  | nil => exact (hhead '*' [] rfl).1 rfl
  | cons c front =>
    obtain ⟨hstar, hanchor⟩ := hhead c (front ++ ['*']) rfl
    have hfirst : (c :: (front ++ ['*'])).dropWhile (· == '*') = c :: (front ++ ['*']) :=
      List.dropWhile_cons_of_neg (by simpa using hstar)
    have hle := (List.dropWhile_suffix (l := (c :: front).reverse) (· == '*')).length_le
    simp [parseMarkers, hfirst, hanchor] at hs
    simp at hle
    omega

variable {U : Unicode}

theorem hat_isSeparator : isSeparator U '^' = true := by
  have h : SEPARATORS.contains '^' = true := rfl
  rw [isSeparator, h, Bool.or_true]

/-- Folding leaves markers in their places. -/
theorem Plain.of_fold (h : Lawful U) {w : Str} (hw : Plain (foldToken U w)) : Plain w := by
  refine ⟨?_, ?_⟩
  · rintro c rest rfl
    have hfirst : ∀ m, isSeparator U m = true → m = '*' ∨ m = '^' → c ≠ m := by
      rintro m hm hmark rfl
      have hfold : foldToken U (c :: rest) = c :: foldToken U rest := by
        rw [foldToken_eq, List.flatMap_cons, h.folded_separator hm]
        rfl
      obtain ⟨hstar, hanchor⟩ := hw.head c _ hfold
      exact hmark.elim hstar hanchor
    exact ⟨hfirst '*' star_isSeparator (Or.inl rfl), hfirst '^' hat_isSeparator (Or.inr rfl)⟩
  · rintro front rfl
    apply hw.last (foldToken U front)
    rw [foldToken_eq, List.flatMap_append, List.flatMap_singleton,
      h.folded_separator star_isSeparator]
    rfl

section Lookup

variable {ws : List Str}

theorem withoutStarredWords_joinWords (hword : ∀ w ∈ ws, IsWord U w) (hplain : ∀ w ∈ ws, Plain w) :
    withoutStarredWords U (joinWords ws) = joinWords ws := by
  rw [withoutStarredWords, splitWhitespace_joinWords hword]
  refine congrArg joinWords (List.filter_eq_self.mpr fun w hw => ?_)
  rw [(hplain w hw).parseMarkers]
  simpa using (hword w hw).1

/-- The keys of a text of words without markers. -/
theorem lookupTokens_joinWords (hword : ∀ w ∈ ws, IsWord U w) (hplain : ∀ w ∈ ws, Plain w)
    (hne : ws ≠ []) :
    lookupTokens U (joinWords ws) =
      if tokenize U (joinWords ws) = [] then [U.lowercase (joinWords ws)]
      else tokenize U (joinWords ws) := by
  obtain ⟨⟨c, rest, hfirst, -⟩, -⟩ := joinWords_ends hword hne
  have hc : c ≠ '*' := by
    obtain ⟨w, ws', rfl⟩ := List.exists_cons_of_ne_nil hne
    obtain ⟨d, w', rfl⟩ := List.exists_cons_of_ne_nil (hword w List.mem_cons_self).1
    have hd := ((hplain _ List.mem_cons_self).head d w' rfl).1
    cases ws' with
    | nil =>
      rw [joinWords, List.intercalate_singleton] at hfirst
      exact (List.cons.inj hfirst).1 ▸ hd
    | cons v ws' =>
      rw [joinWords, List.intercalate_cons_cons] at hfirst
      exact (List.cons.inj hfirst).1 ▸ hd
  have hnotAll : ∀ t : Str, (∀ d ∈ t, d = '*') → U.lowercase (joinWords ws) ≠ t := by
    rintro t ht rfl
    exact hc (eq_star_of_lowercaseFrom ht c (by rw [hfirst]; exact List.mem_cons_self))
  have hone : joinWords ws ≠ ['*'] ∧ joinWords ws ≠ ['*', '*'] := by
    rw [hfirst]
    constructor <;> intro he <;> exact hc (List.cons.inj he).1
  rw [lookupTokens, withoutStarredWords_joinWords hword hplain, searchTokens, tokenizeSearchTerm,
    trim_joinWords hword hne]
  simp only [hone.1, hone.2, or_self, if_false]
  by_cases htok : tokenize U (joinWords ws) = []
  · have hnil := hnotAll [] (by simp)
    have hs := hnotAll ['*'] (by simp)
    have hss := hnotAll ['*', '*'] (by simp)
    simp [htok, hnil, hs, hss]
  · rw [if_neg htok, if_neg htok]
    refine List.filter_eq_self.mpr fun t ht => ?_
    have hstar := star_notMem_of_mem_tokenize ht
    rw [decide_eq_true_iff]
    constructor <;> rintro rfl <;> simp at hstar

/-- The keys of one word without markers that is not too short to be a token. -/
theorem lookupTokens_word {w : Str} (hword : IsWord U w) (hplain : Plain w)
    (ht : tokenize U w ≠ []) : lookupTokens U w = tokenize U w := by
  have hwords : ∀ v ∈ [w], IsWord U v := by simpa using hword
  have h := lookupTokens_joinWords hwords (by simpa using hplain) (List.cons_ne_nil w [])
  rw [joinWords, List.intercalate_singleton] at h
  rw [h, if_neg ht]

theorem tokenize_joinWords (h : Lawful U) (ws : List Str) :
    tokenize U (joinWords ws) = ws.flatMap (tokenize U) := by
  have hsep : isSeparator U ' ' = true := by
    rw [isSeparator, U.isWhitespace_space, Bool.true_or]
  have happ : ∀ ps qs : List Str, pieceTokens U (ps ++ qs) = pieceTokens U ps ++ pieceTokens U qs :=
    fun ps qs => by simp [pieceTokens]
  induction ws with
  | nil =>
    rw [h.tokenize_eq, joinWords, List.intercalate_nil, List.splitOnP_nil]
    rfl
  | cons w ws ih =>
    cases ws with
    | nil => rw [joinWords, List.intercalate_singleton, List.flatMap_singleton]
    | cons v ws =>
      rw [joinWords] at ih ⊢
      rw [List.flatMap_cons, ← ih, List.intercalate_cons_cons, h.tokenize_eq, h.tokenize_eq w,
        h.tokenize_eq ([' '].intercalate _), ← happ, List.append_assoc, List.singleton_append,
        List.splitOnP_append_cons _ _ hsep]

end Lookup

end Ed2kServer.Search.PlainWords
