import Ed2kServer.Filter.AgePattern

namespace Ed2kServer.Filter.AgeTokens

open Ed2kServer.Text.Chars Ed2kServer.Text.ByteSlices Ed2kServer.Text.Cut
open Ed2kServer.Filter.Check Ed2kServer.Filter.AgePattern

/-- The letters of the short units. -/
def SHORT_LETTERS : Str := ['y', 'o', 'r', 's', '.']

/-- What the tables say of the letters of the units: those of the short ones are the lower case of
ASCII letters alone, and none of the others is the lower case of a narrower character. -/
structure YearLetters (U : Unicode) : Prop where
  ascii : ∀ c, c.toNat < 128 → U.toLowercase c = [c.toLower]
  short : ∀ c d s, U.toLowercase c = d :: s → d ∈ SHORT_LETTERS → c.toNat < 128
  narrow : ∀ c p, p <+: U.toLowercase c → (∀ d ∈ p, ∃ suffix ∈ SUFFIXES, d ∈ suffix.toList) →
    (utf8 p).length ≤ c.utf8Size

section Lowercase

variable {U : Unicode}

theorem short_ascii {d : Char} (hd : d ∈ SHORT_LETTERS) : d.toNat < 128 := by
  have hall : isAscii SHORT_LETTERS = true := by decide
  exact of_decide_eq_true (List.all_eq_true.mp hall d hd)

theorem lowercaseFrom_ascii (hU : YearLetters U) {c : Char} (hc : c.toNat < 128)
    (before rest : Str) :
    U.lowercaseFrom before (c :: rest) = c.toLower :: U.lowercaseFrom (c :: before) rest := by
  have hsigma : c ≠ 'Σ' := by
    rintro rfl
    revert hc
    decide
  rw [Unicode.lowercaseFrom, if_neg hsigma, hU.ascii c hc, List.singleton_append]

/-- The lower case begins with a short unit where the text does, in any case. -/
theorem prefix_lowercase_iff (hU : YearLetters U) {s : Str} (hs : ∀ d ∈ s, d ∈ SHORT_LETTERS)
    (before rest : Str) :
    s <+: U.lowercaseFrom before rest ↔ ∃ u t, rest = u ++ t ∧ toAsciiLowercase u = s := by
  induction s generalizing before rest with
  | nil => exact iff_of_true List.nil_prefix ⟨[], rest, rfl, rfl⟩
  | cons d s ih =>
    obtain ⟨hd, hs⟩ := List.forall_mem_cons.mp hs
    cases rest with
    | nil =>
      refine iff_of_false (fun h => List.cons_ne_nil d s (List.prefix_nil.mp h)) ?_
      rintro ⟨u, t, hut, hu⟩
      rw [(List.append_eq_nil_iff.mp hut.symm).1] at hu
      cases hu
    | cons c rest =>
      have hright : (∃ u t, c :: rest = u ++ t ∧ toAsciiLowercase u = d :: s) ↔
          c.toLower = d ∧ ∃ u t, rest = u ++ t ∧ toAsciiLowercase u = s := by
        constructor
        · rintro ⟨u, t, hut, hu⟩
          cases u with
          | nil => cases hu
          | cons e u =>
            obtain ⟨rfl, hrest⟩ := List.cons.inj hut
            obtain ⟨he, hlower⟩ := List.cons.inj hu
            exact ⟨he, u, t, hrest, hlower⟩
        · rintro ⟨rfl, u, t, rfl, rfl⟩
          exact ⟨c :: u, t, rfl, rfl⟩
      rw [hright]
      by_cases hc : c.toNat < 128
      · rw [lowercaseFrom_ascii hU hc, List.cons_prefix_cons, ih hs]
        exact and_congr_left' eq_comm
      · refine iff_of_false (fun hbegins => hc ?_) fun h => hc ?_
        · have hpiece : ∃ e more, (if c = 'Σ' then
              if U.caseIgnorableThenCased before && !U.caseIgnorableThenCased rest then ['ς']
                else ['σ']
              else U.toLowercase c) = e :: more ∧ (e ∈ SHORT_LETTERS → c.toNat < 128) := by
            split
            · split
              · exact ⟨_, _, rfl, fun h => absurd h (by decide)⟩
              · exact ⟨_, _, rfl, fun h => absurd h (by decide)⟩
            · obtain ⟨e, more, hpiece⟩ := List.exists_cons_of_ne_nil (U.toLowercase_ne_nil c)
              exact ⟨e, more, hpiece, hU.short c e more hpiece⟩
          obtain ⟨e, more, hpiece, hascii⟩ := hpiece
          rw [Unicode.lowercaseFrom, hpiece, List.cons_append, List.cons_prefix_cons] at hbegins
          exact hascii (hbegins.1 ▸ hd)
        · exact (toLower_lt_iff c).mp (h.1 ▸ short_ascii hd)

/-- A unit that the lower case begins with is no longer than the text. -/
theorem length_le_of_begins (hU : YearLetters U) {s : Str}
    (hs : ∀ d ∈ s, ∃ suffix ∈ SUFFIXES, d ∈ suffix.toList) (before rest : Str)
    (h : s <+: U.lowercaseFrom before rest) : (utf8 s).length ≤ (utf8 rest).length := by
  induction rest generalizing s before with
  | nil =>
    rw [List.prefix_nil.mp h]
  | cons c rest ih =>
    have hpiece : ∃ piece, U.lowercaseFrom before (c :: rest) =
        piece ++ U.lowercaseFrom (c :: before) rest ∧
          ∀ p, p <+: piece → (∀ d ∈ p, ∃ suffix ∈ SUFFIXES, d ∈ suffix.toList) →
            (utf8 p).length ≤ c.utf8Size := by
      refine ⟨_, rfl, fun p hp hletters => ?_⟩
      split at hp
      · rename_i hsigma
        have hlength : (utf8 p).length ≤ 2 := by
          split at hp
          · exact (hp.sublist.flatMap String.utf8EncodeChar).length_le
          · exact (hp.sublist.flatMap String.utf8EncodeChar).length_le
        rw [hsigma]
        exact hlength
      · exact hU.narrow c p hp hletters
    obtain ⟨piece, heq, hnarrow⟩ := hpiece
    obtain ⟨t, ht⟩ := h
    rw [heq] at ht
    rw [length_utf8_cons]
    obtain ⟨more, hmore, -⟩ | ⟨s', rfl, hs'⟩ := List.append_eq_append_iff.mp ht
    · exact Nat.le_add_right_of_le (hnarrow s ⟨more, hmore.symm⟩ hs)
    · obtain ⟨hfront, hback⟩ := List.forall_mem_append.mp hs
      have hpiece := hnarrow piece List.prefix_rfl hfront
      have hrest := ih hback (c :: before) ⟨t, hs'.symm⟩
      rw [utf8_append, List.length_append]
      omega

end Lowercase

section Ends

theorem lt_of_isAlphanum {c : Char} (h : c.isAlphanum = true) : c.toNat < 128 := by
  simp only [Char.isAlphanum, Char.isAlpha, Char.isUpper, Char.isLower, Char.isDigit, ge_iff_le,
    Bool.or_eq_true, Bool.and_eq_true, decide_eq_true_eq, UInt32.le_iff_toNat_le] at h
  simp at h
  omega

theorem isAlphanum_of_toLower {c : Char} (h : c.toLower.isAlphanum = true) :
    c.isAlphanum = true := by
  by_cases hupper : c.isUpper = true
  · rw [Char.isAlphanum, Char.isAlpha, hupper]
    rfl
  · rwa [Char.toLower_eq_of_not_isUpper hupper] at h

theorem exists_firstByte (c : Char) : ∃ b bs, String.utf8EncodeChar c = b :: bs ∧
    isAsciiAlphanumeric b = c.isAlphanum := by
  by_cases hc : c.toNat < 128
  · refine ⟨_, _, utf8EncodeChar_ascii hc, ?_⟩
    have hbyte : (UInt8.ofNat c.toNat).toNat = c.toNat := by
      rw [UInt8.toNat_ofNat']
      omega
    rw [isAsciiAlphanumeric, hbyte, Char.ofNat_toNat]
  · obtain ⟨b, bs, hb, hwide⟩ := utf8EncodeChar_wide (Nat.le_of_not_lt hc)
    refine ⟨b, bs, hb, ?_⟩
    have hbyte : (Char.ofNat b.toNat).isAlphanum = false := by
      refine Bool.eq_false_iff.mpr fun h => ?_
      have hlt := lt_of_isAlphanum h
      rw [Char.toNat_ofNat, if_pos (.inl (by have := b.toNat_lt; omega))] at hlt
      omega
    rw [isAsciiAlphanumeric, hbyte]
    exact (Bool.eq_false_iff.mpr fun h => hc (lt_of_isAlphanum h)).symm

/-- Behind ASCII text the next byte tells what the next character tells. -/
theorem endsUnit_append {u : Str} (hu : isAscii u = true) (t : Str) :
    endsUnit (u ++ t) u.length = some !t.head?.any Char.isAlphanum := by
  rw [endsUnit, utf8_append, List.length_append, length_utf8_ascii hu]
  cases t with
  | nil => exact if_pos rfl
  | cons c t =>
    obtain ⟨b, bs, hb, halnum⟩ := exists_firstByte c
    have hpos := c.utf8Size_pos
    rw [length_utf8_cons, if_neg (by omega), ← length_utf8_ascii hu,
      List.getElem?_append_right (Nat.le_refl _), Nat.sub_self, utf8_cons, hb]
    exact congrArg (fun a => some !a) halnum

theorem endsUnit_ne_none {rest : Str} {n : Nat} (h : n ≤ (utf8 rest).length) :
    endsUnit rest n ≠ none := by
  rw [endsUnit]
  split
  · exact Option.some_ne_none _
  · rw [List.getElem?_eq_getElem (by omega)]
    exact Option.some_ne_none _

end Ends

section Units

variable {U : Unicode} {before rest : Str}

/-- Does the text begin with a unit, and the unit end there? -/
def Holds (U : Unicode) (rest : Str) (suffix : String) : Prop :=
  suffix.toList <+: U.lowercase rest ∧ endsUnit rest (utf8 suffix.toList).length = some true

theorem matchSuffix_some {s : String} {suffixes : List String}
    (h : matchSuffix U before rest suffixes = some (some s)) : s ∈ suffixes ∧ Holds U rest s := by
  induction suffixes with
  | nil => cases h
  | cons suffix suffixes ih =>
    rw [matchSuffix] at h
    by_cases hbegins : suffix.toList.isPrefixOf (U.lowercase rest) = true
    · rw [if_pos hbegins] at h
      obtain ⟨ends, hends, h⟩ := Option.bind_eq_some_iff.mp h
      split at h
      · rename_i hboth
        rw [Bool.and_eq_true] at hboth
        obtain rfl := Option.some.inj (Option.some.inj h)
        exact ⟨List.mem_cons_self, List.isPrefixOf_iff_prefix.mp hbegins, hboth.1 ▸ hends⟩
      · exact (ih h).imp_left (List.mem_cons_of_mem _)
    · rw [if_neg hbegins] at h
      exact (ih h).imp_left (List.mem_cons_of_mem _)

theorem endsUnit_of_begins (hU : YearLetters U) {s : String} (hs : s ∈ SUFFIXES)
    (h : s.toList <+: U.lowercase rest) :
    ∃ ends, endsUnit rest (utf8 s.toList).length = some ends :=
  Option.ne_none_iff_exists'.mp (endsUnit_ne_none
    (length_le_of_begins hU (fun _ hd => ⟨s, hs, hd⟩) [] rest h))

theorem matchSuffix_ne_none (hU : YearLetters U) (before rest : Str) {suffixes : List String}
    (hs : ∀ s ∈ suffixes, s ∈ SUFFIXES) : matchSuffix U before rest suffixes ≠ none := by
  induction suffixes with
  | nil => exact Option.some_ne_none _
  | cons suffix suffixes ih =>
    obtain ⟨hsuffix, hs⟩ := List.forall_mem_cons.mp hs
    rw [matchSuffix]
    split
    · rename_i hbegins
      obtain ⟨ends, hends⟩ := endsUnit_of_begins hU hsuffix (List.isPrefixOf_iff_prefix.mp hbegins)
      rw [hends, Option.bind_some]
      split
      · exact Option.some_ne_none _
      · exact ih hs
    · exact ih hs

/-- The first unit that holds is matched, if no span of time has it. -/
theorem matchSuffix_first (hU : YearLetters U) {s : String} (front : List String)
    {back : List String} (hfront : ∀ s' ∈ front, s' ∈ SUFFIXES ∧ ¬Holds U rest s')
    (hs : Holds U rest s) (hspelled : SPELLED.contains s = false) :
    matchSuffix U before rest (front ++ s :: back) = some (some s) := by
  induction front with
  | nil =>
    rw [List.nil_append, matchSuffix, if_pos (List.isPrefixOf_iff_prefix.mpr hs.1), hs.2,
      Option.bind_some, hspelled]
    rfl
  | cons suffix front ih =>
    obtain ⟨⟨hsuffix, hnot⟩, hfront⟩ := List.forall_mem_cons.mp hfront
    rw [List.cons_append, matchSuffix]
    split
    · rename_i hbegins
      have hbegins := List.isPrefixOf_iff_prefix.mp hbegins
      obtain ⟨ends, hends⟩ := endsUnit_of_begins hU hsuffix hbegins
      cases ends with
      | true => exact absurd ⟨hbegins, hends⟩ hnot
      | false =>
        rw [hends, Option.bind_some]
        exact ih hfront
    · exact ih hfront

def SHORT : List String := ["yo", "y.o", "yr", "yrs"]

theorem short_letters {s : String} (hs : s ∈ SHORT) :
    (∀ d ∈ s.toList, d ∈ SHORT_LETTERS) ∧ toAsciiLowercase s.toList = s.toList := by
  have hall : (SHORT.all fun s => s.toList.all (fun d => SHORT_LETTERS.contains d) &&
      toAsciiLowercase s.toList == s.toList) = true := by decide
  have h := List.all_eq_true.mp hall s hs
  rw [Bool.and_eq_true, List.all_eq_true] at h
  exact ⟨fun d hd => List.contains_iff_mem.mp (h.1 d hd), eq_of_beq h.2⟩

theorem holds_short_iff (hU : YearLetters U) {s : String} (hs : s ∈ SHORT) :
    Holds U rest s ↔ ∃ u t, rest = u ++ t ∧ toAsciiLowercase u = s.toList ∧
      t.head?.any Char.isAlphanum = false := by
  obtain ⟨hletters, hlower⟩ := short_letters hs
  have hascii : isAscii s.toList = true :=
    List.all_eq_true.mpr fun d hd => decide_eq_true (short_ascii (hletters d hd))
  have hends : ∀ u t, toAsciiLowercase u = s.toList →
      endsUnit (u ++ t) (utf8 s.toList).length = some !t.head?.any Char.isAlphanum := by
    intro u t hu
    have hlength : (utf8 s.toList).length = u.length := by
      rw [length_utf8_ascii hascii, ← hu, toAsciiLowercase, List.length_map]
    rw [hlength]
    exact endsUnit_append (isAscii_of_lowercase_eq hascii (hu.trans hlower.symm)) t
  rw [Holds, Unicode.lowercase, prefix_lowercase_iff hU hletters]
  constructor
  · rintro ⟨⟨u, t, rfl, hu⟩, h⟩
    rw [hends u t hu] at h
    exact ⟨u, t, rfl, hu, (Bool.not_eq_true' _).mp (Option.some.inj h)⟩
  · rintro ⟨u, t, rfl, hu, ht⟩
    rw [hends u t hu, ht]
    exact ⟨⟨u, t, rfl, hu⟩, rfl⟩

theorem not_holds_of_begins {s s' : String} (hs : Holds U rest s)
    (hne : ¬s.toList <+: s'.toList) (hne' : ¬s'.toList <+: s.toList) : ¬Holds U rest s' := by
  intro hs'
  rcases Nat.le_total s.toList.length s'.toList.length with hle | hle
  · exact hne (List.prefix_of_prefix_length_le hs.1 hs'.1 hle)
  · exact hne' (List.prefix_of_prefix_length_le hs'.1 hs.1 hle)

theorem not_holds_yr (hU : YearLetters U) (h : Holds U rest "yrs") : ¬Holds U rest "yr" := by
  intro h'
  obtain ⟨u, t, hut, hu, -⟩ := (holds_short_iff hU (by decide)).mp h
  obtain ⟨u', t', hut', hu', ht'⟩ := (holds_short_iff hU (by decide)).mp h'
  have hlength : u.length = 3 := by
    rw [← List.length_map, ← toAsciiLowercase, hu]
    rfl
  have hlength' : u'.length = 2 := by
    rw [← List.length_map, ← toAsciiLowercase, hu']
    rfl
  obtain ⟨a, b, c, rfl⟩ := List.length_eq_three.mp hlength
  obtain ⟨a', b', rfl⟩ := List.length_eq_two.mp hlength'
  rw [hut] at hut'
  obtain ⟨-, -, htail⟩ : a = a' ∧ b = b' ∧ c :: t = t' := by
    simpa using hut'
  have hc : c.toLower = 's' := List.head_eq_of_cons_eq (List.tail_eq_of_cons_eq
    (List.tail_eq_of_cons_eq hu))
  have halnum : c.isAlphanum = true := isAlphanum_of_toLower (hc ▸ rfl)
  rw [← htail, List.head?_cons, Option.any_some, halnum] at ht'
  cases ht'

theorem matchSuffix_short (hU : YearLetters U) (before : Str) {s : String} (hs : s ∈ SHORT)
    (h : Holds U rest s) :
    matchSuffix U before rest SUFFIXES = some (some s) := by
  have hother : ∀ s' ∈ SUFFIXES, ¬s.toList <+: s'.toList → ¬s'.toList <+: s.toList →
      s' ∈ SUFFIXES ∧ ¬Holds U rest s' :=
    fun s' hs' hne hne' => ⟨hs', not_holds_of_begins h hne hne'⟩
  have hcases : s = "yo" ∨ s = "y.o" ∨ s = "yr" ∨ s = "yrs" := by
    simpa [SHORT] using hs
  rcases hcases with rfl | rfl | rfl | rfl
  · exact matchSuffix_first hU [] (fun _ hmem => absurd hmem List.not_mem_nil) h (by decide)
  · refine matchSuffix_first hU ["yo"] (fun s' hmem => ?_) h (by decide)
    rw [List.mem_singleton.mp hmem]
    exact hother "yo" (by decide) (by decide) (by decide)
  · refine matchSuffix_first hU ["yo", "y.o", "y.o."] (List.forall_mem_cons.mpr ⟨?_,
      List.forall_mem_cons.mpr ⟨?_, List.forall_mem_singleton.mpr ?_⟩⟩) h (by decide)
    · exact hother "yo" (by decide) (by decide) (by decide)
    · exact hother "y.o" (by decide) (by decide) (by decide)
    · exact hother "y.o." (by decide) (by decide) (by decide)
  · refine matchSuffix_first hU ["yo", "y.o", "y.o.", "yr"] (List.forall_mem_cons.mpr ⟨?_,
      List.forall_mem_cons.mpr ⟨?_, List.forall_mem_cons.mpr ⟨?_,
        List.forall_mem_singleton.mpr ?_⟩⟩⟩) h (by decide)
    · exact hother "yo" (by decide) (by decide) (by decide)
    · exact hother "y.o" (by decide) (by decide) (by decide)
    · exact hother "y.o." (by decide) (by decide) (by decide)
    · exact ⟨by decide, not_holds_yr hU h⟩

end Units

section Tokens

variable {U : Unicode} {t : Layer2Terms} {lowered before rest : Str} {age : Nat}

/-- A short unit, and no letter or digit behind it. -/
def ShortUnit (U : Unicode) (before rest : Str) : Prop :=
  ∃ s ∈ SHORT, ∃ u tail, rest = u ++ tail ∧ toAsciiLowercase u = s.toList ∧
    tail.head?.any Char.isAlphanum = false ∧
      (s = "yo" → spanishPronounYo U before tail = false)

/-- What may follow the number of an age: "y" at once, or a short unit after spaces. -/
inductive YearUnit (U : Unicode) (before : Str) : Str → Prop
  | bareY {c : Char} {tail : Str} (hc : c = 'y' ∨ c = 'Y')
      (htail : tail.head?.any Char.isAlphanum = false) : YearUnit U before (c :: tail)
  | short (n : Nat) {rest : Str} (h : ShortUnit U before rest) :
      YearUnit U before (List.replicate n ' ' ++ rest)

theorem head_of_short (h : ShortUnit U before rest) : ∃ c tail, rest = c :: tail ∧
    c.toLower = 'y' := by
  obtain ⟨s, hs, u, tail, rfl, hu, -⟩ := h
  have hhead : s.toList.head? = some 'y' := by
    have hall : (SHORT.all fun s => s.toList.head? == some 'y') = true := by decide
    exact eq_of_beq (List.all_eq_true.mp hall s hs)
  rw [← hu] at hhead
  cases u with
  | nil => cases hhead
  | cons c u => exact ⟨c, u ++ tail, rfl, Option.some.inj hhead⟩

theorem isBareY_iff : isBareY rest = true ↔ ∃ c tail, rest = c :: tail ∧ (c = 'y' ∨ c = 'Y') ∧
    tail.head?.any Char.isAlphanum = false := by
  cases rest with
  | nil =>
    refine iff_of_false Bool.false_ne_true ?_
    rintro ⟨c, tail, h, -⟩
    cases h
  | cons c tail =>
    rw [isBareY, Bool.and_eq_true, List.head?_cons, Option.any_some, Bool.or_eq_true, beq_iff_eq,
      beq_iff_eq, List.tail_cons, Bool.not_eq_true']
    constructor
    · exact fun h => ⟨c, tail, rfl, h⟩
    · rintro ⟨c, tail, heq, h⟩
      obtain ⟨rfl, rfl⟩ := List.cons.inj heq
      exact h

theorem yearUnit_iff : YearUnit U before rest ↔
    isBareY rest = true ∨ ShortUnit U before (rest.dropWhile (· == ' ')) := by
  constructor
  · intro h
    cases h with
    | bareY hc htail => exact Or.inl (isBareY_iff.mpr ⟨_, _, rfl, hc, htail⟩)
    | short n h =>
      right
      obtain ⟨c, tail, rfl, hc⟩ := head_of_short h
      have hspace : ¬(c == ' ') = true := by
        rw [beq_iff_eq]
        rintro rfl
        revert hc
        decide
      rw [List.dropWhile_append_of_pos fun x hx =>
        beq_iff_eq.mpr (List.eq_of_mem_replicate hx), List.dropWhile_cons, if_neg hspace]
      exact h
  · rintro (h | h)
    · obtain ⟨c, tail, rfl, hc, htail⟩ := isBareY_iff.mp h
      exact .bareY hc htail
    · have hspaces : rest.takeWhile (· == ' ') =
          List.replicate (rest.takeWhile (· == ' ')).length ' ' := by
        refine List.eq_replicate_iff.mpr ⟨rfl, fun c hc => ?_⟩
        have hc := List.mem_takeWhile_imp (p := (· == ' ')) hc
        exact beq_iff_eq.mp hc
      rw [← List.takeWhile_append_dropWhile (p := (· == ' ')) (l := rest), hspaces]
      exact .short _ h

theorem pronoun_eq {s : String} {u tail : Str} (hu : toAsciiLowercase u = s.toList) :
    (if s == "yo" then (sliceFrom 2 (u ++ tail)).map (spanishPronounYo U before)
      else some false) = some (s == "yo" && spanishPronounYo U before tail) := by
  by_cases hs : (s == "yo") = true
  · obtain rfl := eq_of_beq hs
    have hascii : isAscii u = true :=
      isAscii_of_lowercase_eq (t := "yo".toList) (by decide) (hu.trans (by decide))
    have hlength : (utf8 u).length = 2 := by
      rw [length_utf8_ascii hascii, ← List.length_map, ← toAsciiLowercase, hu]
      rfl
    have hslice := sliceFrom_append u tail
    rw [hlength] at hslice
    rw [if_pos hs, hslice, hs]
    rfl
  · rw [if_neg hs, Bool.eq_false_iff.mpr hs]
    rfl

theorem trySuffix_matched {s : String} {u tail : Str}
    (hmatched : matchSuffix U before (u ++ tail) SUFFIXES = some (some s))
    (hu : toAsciiLowercase u = s.toList) (accept : Nat → String → Nat → Option Bool) :
    trySuffix U accept before age (u ++ tail) =
      if s == "yo" && spanishPronounYo U before tail then some none
      else (accept age s (utf8 before).length).map fun found =>
        if found then some (reason age s) else none := by
  rw [trySuffix, hmatched, Option.bind_some, Option.elim_some, pronoun_eq hu, Option.bind_some]

theorem trySuffix_of_not (hU : YearLetters U)
    (h : ¬(age ≤ t.unpairedAgeMax.toNat ∧ ShortUnit U before rest)) :
    trySuffix U (unpaired lowered t) before age rest = some none := by
  obtain ⟨matched, hmatched⟩ := Option.ne_none_iff_exists'.mp
    (matchSuffix_ne_none hU before rest fun _ hs => hs)
  cases matched with
  | none =>
    rw [trySuffix, hmatched]
    rfl
  | some s =>
    obtain ⟨hs, hholds⟩ := matchSuffix_some hmatched
    by_cases hshort : s ∈ SHORT
    · obtain ⟨u, tail, rfl, hu, htail⟩ := (holds_short_iff hU hshort).mp hholds
      rw [trySuffix_matched hmatched hu]
      split
      · rfl
      · rename_i hpronoun
        have hunit : ShortUnit U before (u ++ tail) := by
          refine ⟨s, hshort, u, tail, rfl, hu, htail, fun hyo => Bool.eq_false_iff.mpr fun hp => ?_⟩
          exact hpronoun (Bool.and_eq_true_iff.mpr ⟨beq_iff_eq.mpr hyo, hp⟩)
        rw [unpaired, if_neg fun hage => h ⟨hage.1, hunit⟩]
        rfl
    · have hyo : (s == "yo") = false := beq_false_of_ne fun hyo => hshort (hyo ▸ by decide)
      have hother : s ∉ UNPAIRED_UNITS := by
        intro hmem
        have hsplit : UNPAIRED_UNITS = SHORT ++ ["bare y"] := rfl
        rw [hsplit, List.mem_append, List.mem_singleton] at hmem
        obtain hmem | rfl := hmem
        · exact hshort hmem
        · revert hs
          decide
      have hrefused : unpaired lowered t age s (utf8 before).length = some false :=
        if_neg fun hage => hother hage.2
      rw [trySuffix, hmatched, Option.bind_some, Option.elim_some, hyo, hrefused]
      rfl

theorem trySuffix_of_short (hU : YearLetters U) (hage : age ≤ t.unpairedAgeMax.toNat)
    (h : ShortUnit U before rest) :
    (trySuffix U (unpaired lowered t) before age rest).map Option.isSome =
      (ageIsGuarded lowered (utf8 before).length t).map fun guarded => !guarded := by
  obtain ⟨s, hs, u, tail, rfl, hu, htail, hyo⟩ := h
  have hmatched := matchSuffix_short hU before hs
    ((holds_short_iff hU hs).mpr ⟨u, tail, rfl, hu, htail⟩)
  have hpronoun : ¬(s == "yo" && spanishPronounYo U before tail) = true := by
    intro hp
    rw [Bool.and_eq_true, beq_iff_eq] at hp
    exact Bool.false_ne_true ((hyo hp.1).symm.trans hp.2)
  have hunit : s ∈ UNPAIRED_UNITS := by
    have hsplit : UNPAIRED_UNITS = SHORT ++ ["bare y"] := rfl
    exact hsplit ▸ List.mem_append_left _ hs
  rw [trySuffix_matched hmatched hu, if_neg hpronoun, unpaired, if_pos ⟨hage, hunit⟩]
  cases ageIsGuarded lowered (utf8 before).length t with
  | none => rfl
  | some guarded =>
    cases guarded with
    | true => rfl
    | false => rfl

theorem tryToken_of_not (hU : YearLetters U)
    (h : ¬(age ≤ t.unpairedAgeMax.toNat ∧ YearUnit U before rest)) :
    tryToken U (unpaired lowered t) before age rest = some none := by
  rw [yearUnit_iff] at h
  have hbare : (if isBareY rest then unpaired lowered t age "bare y" (utf8 before).length
      else some false) = some false := by
    split
    · rename_i hbare
      exact if_neg fun hage => h ⟨hage.1, Or.inl hbare⟩
    · rfl
  rw [tryToken, hbare, Option.bind_some, if_neg Bool.false_ne_true]
  exact trySuffix_of_not hU fun hboth => h ⟨hboth.1, Or.inr hboth.2⟩

theorem tryToken_of_unit (hU : YearLetters U) (lowered : Str)
    (hage : age ≤ t.unpairedAgeMax.toNat) (h : YearUnit U before rest) :
    (tryToken U (unpaired lowered t) before age rest).map Option.isSome =
      (ageIsGuarded lowered (utf8 before).length t).map fun guarded => !guarded := by
  have hsuffix : isBareY rest = false ∨ ageIsGuarded lowered (utf8 before).length t = some true →
      (trySuffix U (unpaired lowered t) before age (rest.dropWhile (· == ' '))).map Option.isSome =
        (ageIsGuarded lowered (utf8 before).length t).map fun guarded => !guarded := by
    intro hcase
    by_cases hshort : ShortUnit U before (rest.dropWhile (· == ' '))
    · exact trySuffix_of_short hU hage hshort
    · rw [trySuffix_of_not hU fun hboth => hshort hboth.2]
      obtain hbare | hguarded := hcase
      · obtain hbare' | hshort' := yearUnit_iff.mp h
        · rw [hbare] at hbare'
          cases hbare'
        · exact absurd hshort' hshort
      · rw [hguarded]
        rfl
  rw [tryToken]
  cases hbare : isBareY rest with
  | false =>
    rw [if_neg Bool.false_ne_true, Option.bind_some, if_neg Bool.false_ne_true]
    exact hsuffix (Or.inl hbare)
  | true =>
    rw [if_pos rfl, unpaired, if_pos ⟨hage, by decide⟩]
    cases hlook : ageIsGuarded lowered (utf8 before).length t with
    | none => rfl
    | some guarded =>
      cases guarded with
      | false => rfl
      | true =>
        have htry := hsuffix (Or.inr hlook)
        rw [hlook] at htry
        exact htry

end Tokens

end Ed2kServer.Filter.AgeTokens
