import Ed2kServer.Filter.AgeScan

namespace Ed2kServer.Filter.AgeGuard

open Ed2kServer.Text.Chars Ed2kServer.Text.ByteSlices Ed2kServer.Text.Cut
open Ed2kServer.Filter.Check Ed2kServer.Filter.AgePattern Ed2kServer.Filter.AgeTokens
open Ed2kServer.Filter.AgeScan

variable {U : Unicode} {t : Layer2Terms} {before rest : Str} {max : Nat}

/-- Where the number behind `before` stands in the lower case of the name, in bytes. -/
def placeOf (U : Unicode) (before : Str) : Nat := (utf8 (U.lowercase before)).length

/-- Does a guard word lie within the window around the number behind `before`? -/
def GuardNear (U : Unicode) (t : Layer2Terms) (name before : Str) : Prop :=
  ∃ w ∈ t.ageGuard, ∃ x y, U.lowercase name = x ++ w ++ y ∧
    placeOf U before ≤ (utf8 x).length + t.ageGuardWindow ∧
      (utf8 (x ++ w)).length ≤ placeOf U before + t.ageGuardWindow

section Place

/-- The lower case of what comes before is as long, whatever follows it. -/
theorem length_lowercaseFrom (back s : Str) (rest : Str) :
    ∃ p q, U.lowercaseFrom back (s ++ rest) = p ++ q ∧
      (utf8 p).length = (utf8 (U.lowercaseFrom back s)).length := by
  induction s generalizing back with
  | nil => exact ⟨[], _, rfl, rfl⟩
  | cons c s ih =>
    obtain ⟨p, q, heq, hlength⟩ := ih (c :: back)
    rw [List.cons_append, Unicode.lowercaseFrom, Unicode.lowercaseFrom, heq]
    refine ⟨_, q, (List.append_assoc _ _ _).symm, ?_⟩
    rw [utf8_append, utf8_append, List.length_append, List.length_append, hlength]
    congr 1
    by_cases hsigma : c = 'Σ'
    · rw [if_pos hsigma, if_pos hsigma]
      have hboth : ∀ b : Bool, (utf8 (if b = true then ['ς'] else ['σ'])).length = 2 := by
        decide
      rw [hboth, hboth]
    · rw [if_neg hsigma, if_neg hsigma]

theorem lowercase_append (U : Unicode) (before rest : Str) :
    ∃ p q, U.lowercase (before ++ rest) = p ++ q ∧ (utf8 p).length = placeOf U before :=
  length_lowercaseFrom [] before rest

end Place

section Look

variable {lowered : Str} {pos : Nat}

theorem isCharBoundary_iff {s : Str} {n : Nat} :
    isCharBoundary s n = true ↔ ∃ p q, s = p ++ q ∧ (utf8 p).length = n := by
  rw [isCharBoundary, Option.isSome_iff_exists]
  constructor
  · rintro ⟨p, hp⟩
    obtain ⟨q, h⟩ := sliceTo_eq_some.mp hp
    exact ⟨p, q, h⟩
  · rintro ⟨p, q, h⟩
    exact ⟨p, sliceTo_eq_some.mpr ⟨q, h⟩⟩

/-- Between two boundaries there is a slice. -/
theorem slice_between {lo hi : Nat} (hlo : isCharBoundary lowered lo = true)
    (hhi : isCharBoundary lowered hi = true) (hle : lo ≤ hi) :
    ∃ x window y, (sliceTo hi lowered).bind (sliceFrom lo) = some window ∧
      lowered = x ++ window ++ y ∧ (utf8 x).length = lo ∧ (utf8 (x ++ window)).length = hi := by
  obtain ⟨x, more, hx, rfl⟩ := isCharBoundary_iff.mp hlo
  obtain ⟨front, y, hy, rfl⟩ := isCharBoundary_iff.mp hhi
  obtain ⟨window, rfl⟩ : x <+: front := by
    refine List.prefix_of_prefix_length_le ⟨more, hx.symm⟩ ⟨y, hy.symm⟩ ?_
    by_contra hlt
    obtain ⟨z, rfl⟩ := List.prefix_of_prefix_length_le ⟨y, hy.symm⟩ ⟨more, hx.symm⟩
      (Nat.le_of_not_le hlt)
    rw [utf8_append, List.length_append] at hle
    have hz : z ≠ [] := by
      rintro rfl
      rw [List.append_nil] at hlt
      exact hlt (Nat.le_refl _)
    obtain ⟨c, z, rfl⟩ := List.exists_cons_of_ne_nil hz
    have hpos := c.utf8Size_pos
    rw [length_utf8_cons] at hle
    omega
  refine ⟨x, window, y, ?_, hy, rfl, rfl⟩
  rw [hy, sliceTo_append, Option.bind_some, sliceFrom_append]

/-- The boundary that is found, or the place itself. -/
theorem getD_find? (hpos : isCharBoundary lowered pos = true) (ns : List Nat) :
    isCharBoundary lowered ((ns.find? (isCharBoundary lowered)).getD pos) = true ∧
      ((ns.find? (isCharBoundary lowered)).getD pos ∈ ns ∨
        (ns.find? (isCharBoundary lowered)).getD pos = pos) := by
  cases hfind : ns.find? (isCharBoundary lowered) with
  | none => exact ⟨hpos, Or.inr rfl⟩
  | some n => exact ⟨List.find?_some hfind, Or.inl (List.mem_of_find?_eq_some hfind)⟩

/-- At a boundary the look is no panic, and what it finds lies in the window. -/
theorem ageIsGuarded_boundary (hpos : isCharBoundary lowered pos = true) (t : Layer2Terms) :
    ∃ g, ageIsGuarded lowered pos t = some g ∧ (g = true → ∃ w ∈ t.ageGuard, ∃ x y,
      lowered = x ++ w ++ y ∧ pos ≤ (utf8 x).length + t.ageGuardWindow ∧
        (utf8 (x ++ w)).length ≤ pos + t.ageGuardWindow) := by
  rw [ageIsGuarded]
  obtain ⟨hlo, hloPlace⟩ := getD_find? hpos
    (List.range' (pos - t.ageGuardWindow) (pos + 1 - (pos - t.ageGuardWindow)))
  obtain ⟨hhi, hhiPlace⟩ := getD_find? hpos (List.range' pos
    (min ((pos + t.ageGuardWindow) % 2 ^ 64) (utf8 lowered).length + 1 - pos)).reverse
  rw [List.mem_range'_1] at hloPlace
  rw [List.mem_reverse, List.mem_range'_1] at hhiPlace
  have hmod := Nat.mod_le (pos + t.ageGuardWindow) (2 ^ 64)
  have hmin := min_le_left ((pos + t.ageGuardWindow) % 2 ^ 64) (utf8 lowered).length
  obtain ⟨x, window, y, hslice, heq, hx, hwindow⟩ := slice_between hlo hhi (by omega)
  rw [hslice, Option.map_some]
  refine ⟨_, rfl, fun hany => ?_⟩
  obtain ⟨w, hw, hinside⟩ := List.any_eq_true.mp hany
  obtain ⟨a, b, hab⟩ := of_decide_eq_true hinside
  refine ⟨w, hw, x ++ a, b ++ y, ?_, ?_, ?_⟩
  · rw [heq, ← hab]
    simp only [List.append_assoc]
  · rw [utf8_append, List.length_append]
    omega
  · rw [← hab] at hwindow
    simp only [utf8_append, List.length_append] at hwindow ⊢
    omega

end Look

section Found

variable {look : Str → Option Bool} {c : Char}

theorem not_tokenAt_nil : ¬TokenAt U max before [] := by
  rintro ⟨digits, after, hnil, htoken⟩
  obtain ⟨rfl, -⟩ := List.append_eq_nil_iff.mp hnil.symm
  rcases htoken.length with hlength | hlength
  · cases hlength
  · cases hlength

/-- The first free token, and those before it. -/
theorem firstFree_iff : FirstFree U max look before rest ↔ ∃ pre post, rest = pre ++ post ∧
    TokenAt U max (before ++ pre) post ∧ look (before ++ pre) = some false ∧
      ∀ pre' post', rest = pre' ++ post' → pre'.length < pre.length →
        TokenAt U max (before ++ pre') post' → look (before ++ pre') = some true := by
  induction rest generalizing before with
  | nil =>
    refine iff_of_false id ?_
    rintro ⟨pre, post, hnil, htoken, -⟩
    obtain ⟨rfl, rfl⟩ := List.append_eq_nil_iff.mp hnil.symm
    exact not_tokenAt_nil htoken
  | cons c rest ih =>
    rw [FirstFree, ih]
    constructor
    · rintro (⟨htoken, hlook⟩ | ⟨hguarded, pre, post, rfl, htoken, hlook, hbefore⟩)
      · refine ⟨[], c :: rest, rfl, ?_, ?_, fun pre' post' _ hlt => absurd hlt (Nat.not_lt_zero _)⟩
        · rwa [List.append_nil]
        · rwa [List.append_nil]
      · refine ⟨c :: pre, post, rfl, ?_, ?_, fun pre' post' hsplit hlt htoken' => ?_⟩
        · rwa [List.append_cons]
        · rwa [List.append_cons]
        · cases pre' with
          | nil =>
            obtain rfl : c :: (pre ++ post) = post' := hsplit
            rw [List.append_nil] at htoken' ⊢
            exact hguarded htoken'
          | cons d pre' =>
            obtain ⟨rfl, hrest⟩ := List.cons.inj hsplit
            rw [List.append_cons] at htoken' ⊢
            exact hbefore pre' post' hrest (Nat.lt_of_succ_lt_succ hlt) htoken'
    · rintro ⟨pre, post, hsplit, htoken, hlook, hbefore⟩
      cases pre with
      | nil =>
        obtain rfl : c :: rest = post := hsplit
        rw [List.append_nil] at htoken hlook
        exact Or.inl ⟨htoken, hlook⟩
      | cons d pre =>
        obtain ⟨rfl, rfl⟩ := List.cons.inj hsplit
        rw [List.append_cons] at htoken hlook
        refine Or.inr ⟨fun hhere => ?_, pre, post, rfl, htoken, hlook,
          fun pre' post' hrest hlt htoken' => ?_⟩
        · have hfirst := hbefore [] (c :: (pre ++ post)) rfl (Nat.succ_pos _)
          rw [List.append_nil] at hfirst
          exact hfirst hhere
        · have hlater := hbefore (c :: pre') post' (congrArg (c :: ·) hrest)
            (Nat.succ_lt_succ hlt)
          rw [List.append_cons] at hlater
          exact hlater htoken'

/-- No look is a panic, and one finds no guard. -/
theorem firstFree_of_exists
    (hlook : ∀ pre post, rest = pre ++ post → TokenAt U max (before ++ pre) post →
      look (before ++ pre) ≠ none)
    (h : ∃ pre post, rest = pre ++ post ∧ TokenAt U max (before ++ pre) post ∧
      look (before ++ pre) = some false) : FirstFree U max look before rest := by
  obtain ⟨pre, post, hsplit, htoken, hfree⟩ := h
  induction rest generalizing before pre with
  | nil =>
    obtain ⟨rfl, rfl⟩ := List.append_eq_nil_iff.mp hsplit.symm
    exact absurd htoken not_tokenAt_nil
  | cons c rest ih =>
    have hlook' : ∀ pre post, rest = pre ++ post → TokenAt U max (before ++ [c] ++ pre) post →
        look (before ++ [c] ++ pre) ≠ none := by
      intro pre post hrest htoken
      rw [← List.append_cons] at htoken ⊢
      exact hlook (c :: pre) post (congrArg (c :: ·) hrest) htoken
    cases pre with
    | nil =>
      obtain rfl : c :: rest = post := hsplit
      rw [List.append_nil] at htoken hfree
      exact Or.inl ⟨htoken, hfree⟩
    | cons d pre =>
      obtain ⟨rfl, hrest⟩ := List.cons.inj hsplit
      rw [List.append_cons] at htoken hfree
      have hlater := ih hlook' pre hrest htoken hfree
      cases hhere : look before with
      | none =>
        refine (firstFree_of_not fun htoken' => ?_).mpr hlater
        have hnone := hlook [] (c :: rest) rfl
        rw [List.append_nil] at hnone
        exact hnone htoken' hhere
      | some g =>
        cases g with
        | true => exact Or.inr ⟨fun _ => hhere, hlater⟩
        | false =>
          by_cases htoken' : TokenAt U max before (c :: rest)
          · exact Or.inl ⟨htoken', hhere⟩
          · exact (firstFree_of_not htoken').mpr hlater

/-- The name has a token that is not guarded where it stands in the lower case. -/
def HasFree (U : Unicode) (t : Layer2Terms) (name : Str) : Prop :=
  ∃ before rest, name = before ++ rest ∧ TokenAt U t.unpairedAgeMax.toNat before rest ∧
    ¬GuardNear U t name before

/-- The name has a token, of an age of at most 17, whose look at its own byte offset finds no guard,
and no look of a token before it is a panic. -/
def FindsFree (U : Unicode) (t : Layer2Terms) (name : Str) : Prop :=
  ∃ before rest, name = before ++ rest ∧ TokenAt U (min 17 t.unpairedAgeMax.toNat) before rest ∧
    lookAt (U.lowercase name) t before = some false ∧
      ∀ before' rest', name = before' ++ rest' → before'.length < before.length →
        TokenAt U (min 17 t.unpairedAgeMax.toNat) before' rest' →
          lookAt (U.lowercase name) t before' = some true

theorem contains_iff (hU : YearLetters U) (t : Layer2Terms) {name : Str}
    (hext : isExempt U name = false) :
    (∃ r, containsUnpairedMinorAge U name (U.lowercase name) t = some (some r)) ↔
      FindsFree U t name := by
  rw [containsUnpairedMinorAge, hext, if_neg Bool.false_ne_true, scanMinorAgeToken]
  have hscan := scanFrom_iff hU (U.lowercase name) t name [] 0 (Or.inl rfl)
  rw [firstFree_iff] at hscan
  simp only [List.nil_append] at hscan
  rw [FindsFree, ← hscan]
  simp only [Option.map_eq_some_iff]
  constructor
  · rintro ⟨r, found, hfound, r', rfl, -⟩
    exact ⟨r', hfound⟩
  · rintro ⟨r, hr⟩
    exact ⟨_, some r, hr, r, rfl, rfl⟩

/-- A name with a free token is found where one is free at its own byte offset too. -/
theorem unpaired_found_iff (hU : YearLetters U) (t : Layer2Terms) {name : Str}
    (hext : isExempt U name = false) :
    (HasFree U t name → ∃ r, containsUnpairedMinorAge U name (U.lowercase name) t = some (some r)) ↔
      (HasFree U t name → FindsFree U t name) := by
  rw [contains_iff hU t hext]

/-- Where no text before a token changes its length, the claim of the guard's place is true. -/
theorem findsFree_of_same_place (hmax : t.unpairedAgeMax.toNat ≤ 17) {name : Str}
    (hplace : ∀ before rest, name = before ++ rest →
      TokenAt U t.unpairedAgeMax.toNat before rest → placeOf U before = (utf8 before).length)
    (h : HasFree U t name) : FindsFree U t name := by
  have hlook : ∀ before rest, name = before ++ rest →
      TokenAt U t.unpairedAgeMax.toNat before rest →
        ∃ g, lookAt (U.lowercase name) t before = some g ∧
          (g = true → GuardNear U t name before) := by
    intro before rest hname htoken
    obtain ⟨p, q, hlower, hlength⟩ := lowercase_append U before rest
    have hboundary : isCharBoundary (U.lowercase name) (placeOf U before) = true :=
      isCharBoundary_iff.mpr ⟨p, q, hname ▸ hlower, hlength⟩
    rw [lookAt, ← hplace before rest hname htoken]
    exact ageIsGuarded_boundary hboundary t
  have hfirst : FirstFree U t.unpairedAgeMax.toNat (lookAt (U.lowercase name) t) [] name := by
    refine firstFree_of_exists (fun pre post hname htoken => ?_) ?_
    · obtain ⟨g, hg, -⟩ := hlook pre post hname htoken
      exact hg ▸ Option.some_ne_none g
    · obtain ⟨before, rest, hname, htoken, hfree⟩ := h
      obtain ⟨g, hg, hguard⟩ := hlook before rest hname htoken
      refine ⟨before, rest, hname, htoken, ?_⟩
      cases g with
      | true => exact absurd (hguard rfl) hfree
      | false => exact hg
  rw [firstFree_iff] at hfirst
  rw [FindsFree, min_eq_right hmax]
  exact hfirst

end Found

section Inputs

theorem utf8Size_toLower (c : Char) : c.toLower.utf8Size = c.utf8Size := by
  by_cases hupper : c.isUpper = true
  · have hc : c.toNat < 128 := by
      refine lt_of_isAlphanum ?_
      rw [Char.isAlphanum, Char.isAlpha, hupper]
      rfl
    have hlower := (toLower_lt_iff c).mpr hc
    rw [← String.length_utf8EncodeChar, ← String.length_utf8EncodeChar, utf8EncodeChar_ascii hc,
      utf8EncodeChar_ascii hlower]
    rfl
  · rw [Char.toLower_eq_of_not_isUpper hupper]

theorem yearLetters_basicLatin : YearLetters basicLatin where
  ascii c hc := by
    refine if_neg ?_
    rintro rfl
    revert hc
    decide
  short c d s hlower hd := by
    change (if c = '\u212a' then ['k'] else [c.toLower]) = d :: s at hlower
    split at hlower
    · obtain ⟨rfl, -⟩ := List.cons.inj hlower
      exact absurd hd (by decide)
    · obtain ⟨rfl, -⟩ := List.cons.inj hlower
      exact (toLower_lt_iff c).mp (short_ascii hd)
  narrow c p hp _ := by
    change p <+: (if c = '\u212a' then ['k'] else [c.toLower]) at hp
    have hlength := (hp.sublist.flatMap String.utf8EncodeChar).length_le
    refine Nat.le_trans hlength ?_
    split
    · rename_i hc
      subst hc
      decide
    · rw [List.flatMap_singleton, String.length_utf8EncodeChar, utf8Size_toLower]

/-- Terms with one guard word. -/
def tastings : Layer2Terms :=
  ⟨[], [], [], [], [], [], [], [], [], ["tasting".toList], [], [], [], 12, 24⟩

theorem not_guardNear {name before : Str}
    (h : ¬"tasting".toList <:+: basicLatin.lowercase name) :
    ¬GuardNear basicLatin tastings name before := by
  rintro ⟨w, hw, x, y, heq, -⟩
  rw [List.mem_singleton.mp hw] at heq
  exact h ⟨x, y, heq.symm⟩

theorem tokenAt_nine {before : Str} (after : Str) {max : Nat} (hmax : 9 ≤ max)
    (hstart : before.getLast?.any Char.isAlphanum = false)
    (hafter : after.head?.any Char.isAlphanum = false) :
    TokenAt basicLatin max before ("9y".toList ++ after) := by
  refine ⟨['9'], 'y' :: after, rfl, Or.inl rfl, ?_, by decide, hmax, hstart,
    .bareY (Or.inl rfl) hafter⟩
  intro c hc
  rw [List.mem_singleton.mp hc]
  decide

/-- One Kelvin sign: the look goes two bytes too far. -/
theorem one_kelvin_found : ∃ r, containsUnpairedMinorAge basicLatin "\u212a 9y.avi".toList
    (basicLatin.lowercase "\u212a 9y.avi".toList) tastings = some (some r) := by
  have hfree : HasFree basicLatin tastings "\u212a 9y.avi".toList :=
    ⟨"\u212a ".toList, "9y.avi".toList, by decide, tokenAt_nine ".avi".toList (by decide)
      (by decide) (by decide), not_guardNear (by decide)⟩
  refine (unpaired_found_iff yearLetters_basicLatin tastings (by decide)).mpr (fun _ => ?_) hfree
  refine ⟨"\u212a ".toList, "9y.avi".toList, by decide, tokenAt_nine ".avi".toList (by decide)
    (by decide) (by decide), by decide, fun before rest hname hlt htoken => ?_⟩
  have hname : '\u212a' :: ' ' :: "9y.avi".toList = before ++ rest := hname
  rcases before with _ | ⟨c, _ | ⟨d, before⟩⟩
  · obtain rfl : _ = rest := hname
    exact absurd htoken (not_tokenAt_of_digit (by decide))
  · obtain ⟨-, rfl⟩ := List.cons.inj hname
    exact absurd htoken (not_tokenAt_of_digit (by decide))
  · change before.length + 1 + 1 < 2 at hlt
    omega

/-- Four of them: the look goes past the end of the lower case. -/
theorem four_kelvins_panic :
    isExempt basicLatin "\u212a\u212a\u212a\u212a 9y.avi".toList = false ∧
      containsUnpairedMinorAge basicLatin "\u212a\u212a\u212a\u212a 9y.avi".toList
        (basicLatin.lowercase "\u212a\u212a\u212a\u212a 9y.avi".toList) tastings = none ∧
      ¬(HasFree basicLatin tastings "\u212a\u212a\u212a\u212a 9y.avi".toList →
        ∃ r, containsUnpairedMinorAge basicLatin "\u212a\u212a\u212a\u212a 9y.avi".toList
          (basicLatin.lowercase "\u212a\u212a\u212a\u212a 9y.avi".toList) tastings =
            some (some r)) := by
  have hpanic : containsUnpairedMinorAge basicLatin "\u212a\u212a\u212a\u212a 9y.avi".toList
      (basicLatin.lowercase "\u212a\u212a\u212a\u212a 9y.avi".toList) tastings = none := by
    decide
  refine ⟨by decide, hpanic, fun hfound => ?_⟩
  obtain ⟨r, hr⟩ := hfound ⟨"\u212a\u212a\u212a\u212a ".toList, "9y.avi".toList, by decide,
    tokenAt_nine ".avi".toList (by decide) (by decide) (by decide), not_guardNear (by decide)⟩
  exact absurd (hr.symm.trans hpanic) (Option.some_ne_none _)

end Inputs

end Ed2kServer.Filter.AgeGuard
