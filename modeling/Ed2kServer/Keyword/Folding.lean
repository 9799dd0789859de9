import Ed2kServer.Lib.SplitMap
import Ed2kServer.Keyword.Tokenizer
import Ed2kServer.Text.Utf8

namespace Ed2kServer.Keyword.Folding

open Ed2kServer.Lib Ed2kServer.Text Ed2kServer.Text.Chars Ed2kServer.Keyword.Tokenizer

/-- The code points of the property White_Space. -/
def WHITE_SPACE : List Nat :=
  [0x9, 0xA, 0xB, 0xC, 0xD, 0x20, 0x85, 0xA0, 0x1680, 0x2000, 0x2001, 0x2002, 0x2003, 0x2004,
    0x2005, 0x2006, 0x2007, 0x2008, 0x2009, 0x200A, 0x2028, 0x2029, 0x202F, 0x205F, 0x3000]

/-- What the folding relies on of the character tables. -/
structure Lawful (U : Unicode) : Prop where
  whitespace : ∀ c, U.isWhitespace c = true → c.toNat ∈ WHITE_SPACE
  ascii : ∀ c, c.toNat < 128 → U.toLowercase c = [c.toLower]
  separator_alone : ∀ c, isSeparator U c = true → U.toLowercase c = [c]
  separator_made : ∀ c, ∀ d ∈ U.toLowercase c, isSeparator U d = true → c = d

variable {U : Unicode}

/-- What a character of a token becomes. -/
def folded (U : Unicode) (c : Char) : Str := (foldChar c).elim [] U.toLowercase

theorem foldToken_eq (s : Str) : foldToken U s = s.flatMap (folded U) := rfl

theorem foldChar_eq_some {c d : Char} (h : foldChar c = some d) :
    d = c ∨ (d ∈ FOLD_LATIN ∧ d ≠ '\x00') := by
  rw [foldChar] at h
  split at h
  · cases h
  · split at h
    · split at h
      · rename_i b hb
        split at h
        · rename_i hne
          obtain rfl := Option.some.inj h
          exact Or.inr ⟨List.mem_of_getElem? hb, hne⟩
        · exact Or.inl (Option.some.inj h).symm
      · exact Or.inl (Option.some.inj h).symm
    · exact Or.inl (Option.some.inj h).symm

theorem foldChar_outside {c : Char}
    (h : c.toNat < 0xC0 ∨ 0x0370 ≤ c.toNat) : foldChar c = some c := by
  rw [foldChar, if_neg (by omega), if_neg (by omega)]

theorem separators_outside : ∀ c ∈ SEPARATORS, c.toNat < 0xC0 := by
  have hall : SEPARATORS.all (fun c => c.toNat < 0xC0) = true := by decide
  exact fun c hc => of_decide_eq_true (List.all_eq_true.mp hall c hc)

theorem whiteSpace_outside : ∀ n ∈ WHITE_SPACE, n < 0xC0 ∨ 0x0370 ≤ n := by decide

theorem foldLatin_letters {c : Char} (hc : c ∈ FOLD_LATIN) (hne : c ≠ '\x00') :
    97 ≤ c.toNat ∧ c.toNat ≤ 122 := by
  have hall : FOLD_LATIN.all (fun c => c == '\x00' || 97 ≤ c.toNat && c.toNat ≤ 122) = true := by
    unfold FOLD_LATIN
    simp only [String.toList_append, List.all_append]
    rfl
  simpa [hne] using List.all_eq_true.mp hall c hc

theorem letter_notMem {c : Char} (hc : 97 ≤ c.toNat ∧ c.toNat ≤ 122) :
    c.toNat ∉ WHITE_SPACE ∧ c ∉ SEPARATORS := by
  have hw : ∀ n ∈ WHITE_SPACE, n < 97 ∨ 122 < n := by decide
  have hs : SEPARATORS.all (fun c => c.toNat < 97 || 122 < c.toNat) = true := by decide
  constructor
  · intro hm
    have h := hw _ hm
    omega
  · intro hm
    have h := List.all_eq_true.mp hs c hm
    simp only [Bool.or_eq_true, decide_eq_true_eq] at h
    omega

namespace Lawful

variable (h : Lawful U)
include h

theorem foldChar_separator {c : Char} (hc : isSeparator U c = true) : foldChar c = some c := by
  apply foldChar_outside
  rw [isSeparator, Bool.or_eq_true, List.contains_iff_mem] at hc
  obtain hc | hc := hc
  · exact whiteSpace_outside _ (h.whitespace c hc)
  · exact Or.inl (separators_outside c hc)

theorem folded_separator {c : Char} (hc : isSeparator U c = true) : folded U c = [c] := by
  rw [folded, h.foldChar_separator hc]
  exact h.separator_alone c hc

theorem foldLatin_not_separator {c : Char} (hc : c ∈ FOLD_LATIN) (hne : c ≠ '\x00') :
    isSeparator U c = false := by
  obtain ⟨hw, hs⟩ := letter_notMem (foldLatin_letters hc hne)
  rw [← Bool.not_eq_true, isSeparator, Bool.or_eq_true, List.contains_iff_mem]
  rintro (hm | hm)
  · exact hw (h.whitespace c hm)
  · exact hs hm

/-- Only a separator folds to one. -/
theorem separator_of_folded {c d : Char} (hd : d ∈ folded U c) (hs : isSeparator U d = true) :
    c = d := by
  rw [folded] at hd
  cases hf : foldChar c with
  | none =>
    rw [hf] at hd
    cases hd
  | some e =>
    rw [hf] at hd
    obtain rfl := h.separator_made e d hd hs
    obtain rfl | ⟨hm, hne⟩ := foldChar_eq_some hf
    · rfl
    · rw [h.foldLatin_not_separator hm hne] at hs
      cases hs

theorem splitOnP_foldToken (s : Str) :
    (foldToken U s).splitOnP (isSeparator U) =
      (s.splitOnP (isSeparator U)).map (foldToken U) := by
  refine SplitMap.splitOnP_flatMap (fun c hc => ⟨c, h.folded_separator hc, hc⟩) ?_ s
  intro c hc d hd
  rw [← Bool.not_eq_true]
  intro hs
  rw [h.separator_of_folded hd hs, hs] at hc
  cases hc

theorem splitOnP_foldToken_whitespace (s : Str) :
    (foldToken U s).splitOnP U.isWhitespace = (s.splitOnP U.isWhitespace).map (foldToken U) := by
  have hsep : ∀ c, U.isWhitespace c = true → isSeparator U c = true := fun c hc => by
    rw [isSeparator, hc, Bool.true_or]
  refine SplitMap.splitOnP_flatMap (fun c hc => ⟨c, h.folded_separator (hsep c hc), hc⟩) ?_ s
  intro c hc d hd
  rw [← Bool.not_eq_true]
  intro hw
  rw [h.separator_of_folded hd (hsep d hw), hw] at hc
  cases hc

theorem folded_ascii {c : Char} (hc : c.toNat < 128) : folded U c = [c.toLower] := by
  rw [folded, foldChar_outside (by omega)]
  exact h.ascii c hc

theorem foldToken_ascii {s : Str} (hs : isAscii s = true) :
    foldToken U s = toAsciiLowercase s := by
  rw [isAscii, List.all_eq_true] at hs
  rw [foldToken_eq, toAsciiLowercase, ← List.flatMap_singleton' (s.map _), List.flatMap_map]
  exact List.flatMap_congr fun c hc => h.folded_ascii (of_decide_eq_true (hs c hc))

theorem foldForMatch_eq (s : Str) : foldForMatch U s = foldToken U s := by
  rw [foldForMatch]
  split
  · rename_i hs
    exact (h.foldToken_ascii hs).symm
  · rfl

end Lawful

theorem utf8_length_ascii {s : Str} (hs : isAscii s = true) : (utf8 s).length = s.length := by
  induction s with
  | nil => rfl
  | cons c s ih =>
    rw [isAscii, List.all_cons, Bool.and_eq_true, decide_eq_true_iff] at hs
    have hc : c.utf8Size = 1 := Char.utf8Size_eq_one_iff.mpr (by
      rw [UInt32.le_iff_toNat_le]
      exact Nat.le_of_lt_succ hs.1)
    have ih := ih hs.2
    rw [utf8] at ih ⊢
    rw [List.flatMap_cons, List.length_append, String.length_utf8EncodeChar, hc, ih,
      List.length_cons, Nat.add_comm]

theorem toLower_ascii {c : Char} (hc : c.toNat < 128) : c.toLower.toNat < 128 := by
  rw [Char.toLower]
  split
  · rename_i hup
    have hhi := UInt32.le_iff_toNat_le.mp hup.2
    have hlo := UInt32.le_iff_toNat_le.mp hup.1
    simp only [Char.toNat, UInt32.toNat_add] at *
    simp at *
    omega
  · exact hc

theorem isAscii_lowercase {s : Str} (hs : isAscii s = true) :
    isAscii (toAsciiLowercase s) = true := by
  rw [isAscii, List.all_eq_true] at hs ⊢
  intro d hd
  obtain ⟨c, hc, rfl⟩ := List.mem_map.mp hd
  exact decide_eq_true (toLower_ascii (of_decide_eq_true (hs c hc)))

/-- The pieces of a name as keys, each folded once. -/
def pieceTokens (U : Unicode) (pieces : List Str) : List Str :=
  ((pieces.filter (fun raw => MIN_KEYWORD_LEN ≤ (utf8 raw).length)).map (foldToken U)).filter
    (fun lc => lc ≠ [] ∧ lc ∉ COMMON_WORDS_SKIP)

/-- Both ways of the tokenizer cut the name first and fold the pieces. -/
theorem Lawful.tokenize_eq (h : Lawful U) (s : Str) :
    tokenize U s = pieceTokens U (s.splitOnP (isSeparator U)) := by
  rw [tokenize, tokenizeInto]
  split
  · rename_i hs
    rw [← h.foldToken_ascii hs, h.splitOnP_foldToken, pieceTokens, List.filter_map,
      List.filter_map, List.filter_filter]
    refine congrArg (List.map _) (List.filter_congr fun raw hraw => ?_)
    have hr : isAscii raw = true := by
      rw [isAscii, List.all_eq_true] at hs ⊢
      exact fun c hc => hs c (SplitMap.mem_of_mem_splitOnP hraw hc)
    have hlen : (utf8 (foldToken U raw)).length = (utf8 raw).length := by
      rw [h.foldToken_ascii hr, utf8_length_ascii (isAscii_lowercase hr), utf8_length_ascii hr,
        toAsciiLowercase, List.length_map]
    have hne : MIN_KEYWORD_LEN ≤ (utf8 raw).length → foldToken U raw ≠ [] := by
      rintro hl hnil
      rw [← hlen, hnil] at hl
      cases hl
    simp only [Function.comp_apply, hlen]
    rw [Bool.eq_iff_iff]
    simp only [decide_eq_true_eq, Bool.and_eq_true]
    tauto
  · rfl

theorem length_foldToken_le {raw : Str} (h : Lawful U) (hraw : (utf8 raw).length < 2) :
    (utf8 (foldToken U raw)).length < 2 := by
  have hlen := Utf8.length_le_utf8 raw
  cases raw with
  | nil => exact hraw
  | cons c rest =>
    obtain rfl : rest = [] := by
      rw [List.length_cons] at hlen
      exact List.length_eq_zero_iff.mp (by omega)
    have hone : c.utf8Size = 1 := by
      have hpos := c.utf8Size_pos
      rw [utf8, List.flatMap_singleton, String.length_utf8EncodeChar] at hraw
      omega
    have hascii : isAscii [c] = true := by
      have hle := UInt32.le_iff_toNat_le.mp (Char.utf8Size_eq_one_iff.mp hone)
      simpa [isAscii] using Nat.lt_succ_of_le hle
    rw [h.foldToken_ascii hascii, utf8_length_ascii (isAscii_lowercase hascii)]
    exact Nat.one_lt_two

/-- Where folding twice is folding once, the keys of a folded text are keys of the text. -/
theorem tokenize_fold_subset (h : Lawful U) {s : Str}
    (hs : foldForMatch U (foldForMatch U s) = foldForMatch U s) :
    tokenize U (foldForMatch U s) ⊆ tokenize U s := by
  simp only [h.foldForMatch_eq] at hs ⊢
  have hpieces : ∀ raw ∈ s.splitOnP (isSeparator U),
      foldToken U (foldToken U raw) = foldToken U raw := by
    have hsplit := congrArg (List.splitOnP (isSeparator U)) hs
    rw [h.splitOnP_foldToken, h.splitOnP_foldToken, List.map_map] at hsplit
    exact List.map_inj_left.mp hsplit
  rw [h.tokenize_eq, h.tokenize_eq, h.splitOnP_foldToken]
  intro key hkey
  obtain ⟨hm, hgood⟩ := List.mem_filter.mp hkey
  obtain ⟨piece, hp, rfl⟩ := List.mem_map.mp hm
  obtain ⟨hpiece, hlen⟩ := List.mem_filter.mp hp
  obtain ⟨raw, hraw, rfl⟩ := List.mem_map.mp hpiece
  rw [hpieces raw hraw] at hgood ⊢
  refine List.mem_filter.mpr ⟨List.mem_map_of_mem (List.mem_filter.mpr ⟨hraw, ?_⟩), hgood⟩
  by_contra hshort
  rw [decide_eq_true_iff] at hlen hshort
  have hfold := length_foldToken_le h (not_le.mp hshort)
  exact absurd hlen (not_le.mpr hfold)

theorem toLower_letter {c : Char} (hc : c.toLower ≠ c) :
    c.toLower ∈ (List.range 26).map (fun n => Char.ofNat (97 + n)) := by
  have hup : c.val ≥ 'A'.val ∧ c.val ≤ 'Z'.val := by
    by_contra hn
    exact hc (by rw [Char.toLower, dif_neg hn])
  have hlo := UInt32.le_iff_toNat_le.mp hup.1
  have hhi := UInt32.le_iff_toNat_le.mp hup.2
  refine List.mem_map.mpr ⟨c.toNat - 65, List.mem_range.mpr ?_, ?_⟩
  · simp at hhi
    have : c.toNat ≤ 90 := hhi
    omega
  · have hval : c.toLower.toNat = 97 + (c.toNat - 65) := by
      rw [Char.toLower, dif_pos hup]
      simp only [Char.toNat, UInt32.toNat_add] at *
      simp at *
      omega
    rw [← hval, Char.ofNat_toNat]

theorem basicLatin_lawful : Lawful basicLatin where
  whitespace c hc := by
    have hall : ([' ', '\t', '\n', '\x0b', '\x0c', '\r'] : List Char).all
        (fun c => WHITE_SPACE.contains c.toNat) = true := by decide
    have hm : c ∈ [' ', '\t', '\n', '\x0b', '\x0c', '\r'] := by simpa [basicLatin] using hc
    simpa using List.all_eq_true.mp hall c hm
  ascii c hc := by
    have hk : c ≠ '\u212a' := by
      rintro rfl
      exact absurd hc (by decide)
    rw [basicLatin]
    simp [hk]
  separator_alone c hc := by
    have hall : ([' ', '\t', '\n', '\x0b', '\x0c', '\r'] ++ SEPARATORS).all
        (fun c => basicLatin.toLowercase c == [c]) = true := by decide
    have hm : c ∈ [' ', '\t', '\n', '\x0b', '\x0c', '\r'] ++ SEPARATORS := by
      rw [isSeparator, Bool.or_eq_true, List.contains_iff_mem] at hc
      exact List.mem_append.mpr (hc.imp_left (fun hw => by simpa [basicLatin] using hw))
    exact beq_iff_eq.mp (List.all_eq_true.mp hall c hm)
  separator_made c d hd hs := by
    have hk : isSeparator basicLatin 'k' = false := by decide
    have hall : ((List.range 26).map (fun n => Char.ofNat (97 + n))).all
        (fun c => !isSeparator basicLatin c) = true := by decide
    have hd : d ∈ (if c = '\u212a' then ['k'] else [c.toLower]) := hd
    split at hd
    · obtain rfl := List.mem_singleton.mp hd
      rw [hk] at hs
      cases hs
    · obtain rfl := List.mem_singleton.mp hd
      by_contra hne
      have hl := List.all_eq_true.mp hall _ (toLower_letter (Ne.symm hne))
      rw [hs] at hl
      cases hl

end Ed2kServer.Keyword.Folding
