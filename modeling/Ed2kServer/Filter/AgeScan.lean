import Ed2kServer.Filter.AgeTokens

namespace Ed2kServer.Filter.AgeScan

open Ed2kServer.Text.Chars Ed2kServer.Text.ByteSlices Ed2kServer.Text.Cut
open Ed2kServer.Filter.Check Ed2kServer.Filter.AgePattern Ed2kServer.Filter.AgeTokens

variable {U : Unicode} {t : Layer2Terms} {lowered before rest : Str} {max : Nat}

/-- An age of at most `max` in a short notation, between two parts of a name. -/
structure AgeToken (U : Unicode) (max : Nat) (before digits after : Str) : Prop where
  length : digits.length = 1 ∨ digits.length = 2
  isDigit : ∀ c ∈ digits, c.isDigit = true
  pos : 1 ≤ ageOf digits
  le : ageOf digits ≤ max
  start : before.getLast?.any Char.isAlphanum = false
  unit : YearUnit U before after

def TokenAt (U : Unicode) (max : Nat) (before rest : Str) : Prop :=
  ∃ digits after, rest = digits ++ after ∧ AgeToken U max before digits after

section Numbers

theorem isAlphanum_of_isDigit {c : Char} (h : c.isDigit = true) : c.isAlphanum = true := by
  rw [Char.isAlphanum, h, Bool.or_true]

theorem head_of_unit (h : YearUnit U before rest) :
    ∃ c tail, rest = c :: tail ∧ c.isDigit = false := by
  cases h with
  | bareY hc htail =>
    refine ⟨_, _, rfl, ?_⟩
    obtain rfl | rfl := hc
    · decide
    · decide
  | short n h =>
    cases n with
    | zero =>
      obtain ⟨c, tail, rfl, hc⟩ := head_of_short h
      refine ⟨c, tail, rfl, Bool.eq_false_iff.mpr fun hdigit => ?_⟩
      have hupper : ¬c.isUpper = true := by
        simp only [Char.isDigit, Char.isUpper, Bool.and_eq_true, decide_eq_true_eq, ge_iff_le,
          UInt32.le_iff_toNat_le] at hdigit ⊢
        simp at hdigit ⊢
        omega
      rw [Char.toLower_eq_of_not_isUpper hupper] at hc
      rw [hc] at hdigit
      revert hdigit
      decide
    | succ n => exact ⟨' ', _, rfl, by decide⟩

/-- The digits of a number are all that are read. -/
theorem eq_numberOf {c : Char} {digits after : Str} (hcons : c :: rest = digits ++ after)
    (h : AgeToken U max before digits after) :
    digits = numberOf c rest ∧ after = (c :: rest).drop (numberOf c rest).length := by
  have hdigits : digits = numberOf c rest := by
    obtain ⟨x, tail, rfl, hx⟩ := head_of_unit h.unit
    rcases h.length with hone | htwo
    · obtain ⟨d, rfl⟩ := List.length_eq_one_iff.mp hone
      obtain ⟨rfl, rfl⟩ := List.cons.inj hcons
      change [c] = c :: [x].takeWhile Char.isDigit
      rw [List.takeWhile_cons, if_neg (Bool.eq_false_iff.mp hx)]
    · obtain ⟨d, e, rfl⟩ := List.length_eq_two.mp htwo
      obtain ⟨rfl, rfl⟩ := List.cons.inj hcons
      have he : e.isDigit = true := h.isDigit e (List.mem_cons_of_mem _ List.mem_cons_self)
      change [c, e] = c :: [e].takeWhile Char.isDigit
      rw [List.takeWhile_cons, if_pos he]
      rfl
  refine ⟨hdigits, ?_⟩
  rw [hcons, ← hdigits, List.drop_left]

theorem numberOf_cases (c : Char) (rest : Str) :
    numberOf c rest = [c] ∨ ∃ d tail, rest = d :: tail ∧ d.isDigit = true ∧
      numberOf c rest = [c, d] := by
  cases rest with
  | nil => exact Or.inl rfl
  | cons d tail =>
    rw [numberOf, List.take_succ_cons, List.takeWhile_cons]
    by_cases hd : d.isDigit = true
    · rw [if_pos hd]
      exact Or.inr ⟨d, tail, rfl, hd, rfl⟩
    · rw [if_neg hd]
      exact Or.inl rfl

theorem numberOf_append (c : Char) (rest : Str) :
    c :: rest = numberOf c rest ++ (c :: rest).drop (numberOf c rest).length := by
  obtain h | ⟨d, tail, rfl, -, h⟩ := numberOf_cases c rest
  · rw [h]
    rfl
  · rw [h]
    rfl

/-- Where a number of an age in the range stands, all turns on its size and its unit. -/
theorem tokenAt_iff {c : Char} (hc : c.isDigit = true)
    (hstart : before.getLast?.any Char.isAlphanum = false) :
    TokenAt U max before (c :: rest) ↔ (1 ≤ ageOf (numberOf c rest) ∧
      ageOf (numberOf c rest) ≤ max) ∧
        YearUnit U before ((c :: rest).drop (numberOf c rest).length) := by
  constructor
  · rintro ⟨digits, after, hcons, h⟩
    obtain ⟨rfl, rfl⟩ := eq_numberOf hcons h
    exact ⟨⟨h.pos, h.le⟩, h.unit⟩
  · rintro ⟨⟨hpos, hle⟩, hunit⟩
    refine ⟨_, _, numberOf_append c rest, ?_, ?_, hpos, hle, hstart, hunit⟩
    · obtain h | ⟨d, tail, -, -, h⟩ := numberOf_cases c rest
      · exact Or.inl (h ▸ rfl)
      · exact Or.inr (h ▸ rfl)
    · intro x hx
      obtain h | ⟨d, tail, -, hd, h⟩ := numberOf_cases c rest
      · rw [h] at hx
        rwa [List.mem_singleton.mp hx]
      · rw [h] at hx
        obtain rfl | hx := List.mem_cons.mp hx
        · exact hc
        · rwa [List.mem_singleton.mp hx]

theorem not_tokenAt_of_digit {c : Char} (hc : c.isDigit = false) :
    ¬TokenAt U max before (c :: rest) := by
  rintro ⟨digits, after, hcons, h⟩
  obtain ⟨rfl, -⟩ := eq_numberOf hcons h
  exact Bool.false_ne_true (hc.symm.trans (h.isDigit c List.mem_cons_self))

theorem not_tokenAt_of_start (hstart : before.getLast?.any Char.isAlphanum = true) :
    ¬TokenAt U max before rest := by
  rintro ⟨digits, after, -, h⟩
  exact Bool.false_ne_true (h.start.symm.trans hstart)

end Numbers

section Scan

/-- The first token that is found not to be guarded, with no panic before it. -/
def FirstFree (U : Unicode) (max : Nat) (look : Str → Option Bool) : Str → Str → Prop
  | _, [] => False
  | before, c :: rest =>
    (TokenAt U max before (c :: rest) ∧ look before = some false) ∨
      ((TokenAt U max before (c :: rest) → look before = some true) ∧
        FirstFree U max look (before ++ [c]) rest)

variable {look : Str → Option Bool} {c : Char}

theorem firstFree_of_not (h : ¬TokenAt U max before (c :: rest)) :
    FirstFree U max look before (c :: rest) ↔ FirstFree U max look (before ++ [c]) rest := by
  rw [FirstFree]
  constructor
  · rintro (⟨htoken, -⟩ | ⟨-, hrest⟩)
    · exact absurd htoken h
    · exact hrest
  · exact fun hrest => Or.inr ⟨fun htoken => absurd htoken h, hrest⟩

theorem firstFree_of_token (h : TokenAt U max before (c :: rest)) :
    FirstFree U max look before (c :: rest) ↔ look before = some false ∨
      look before = some true ∧ FirstFree U max look (before ++ [c]) rest := by
  rw [FirstFree, and_iff_right h]
  exact or_congr_right (and_congr_left' ⟨fun hlook => hlook h, fun hlook _ => hlook⟩)

/-- The look of the guard at a token, at the byte offset that it has in the name itself. -/
def lookAt (lowered : Str) (t : Layer2Terms) (before : Str) : Option Bool :=
  ageIsGuarded lowered (utf8 before).length t

/-- A token is taken where the look finds no guard, and passed where it finds one. -/
theorem found_iff {found next : Option (Option String)} {guarded : Option Bool}
    (h : found.map Option.isSome = guarded.map fun g => !g) :
    (∃ r, (found.bind fun f => f.elim next fun r => some (some r)) = some (some r)) ↔
      guarded = some false ∨ guarded = some true ∧ ∃ r, next = some (some r) := by
  cases guarded with
  | none =>
    rw [Option.map_none, Option.map_eq_none_iff] at h
    rw [h]
    simp
  | some g =>
    obtain ⟨f, rfl, hf⟩ := Option.map_eq_some_iff.mp h
    cases f with
    | none =>
      obtain rfl : g = true := (Bool.not_eq_false' g).mp hf.symm
      simp
    | some r =>
      obtain rfl : g = false := (Bool.not_eq_true' g).mp hf.symm
      simp

theorem scanFrom_iff (hU : YearLetters U) (lowered : Str) (t : Layer2Terms) (rest before : Str)
    (skip : Nat)
    (hskip : skip = 0 ∨ skip = 1 ∧ before.getLast?.any Char.isAlphanum = true) :
    (∃ r, scanFrom U (unpaired lowered t) before skip rest = some (some r)) ↔
      FirstFree U (min 17 t.unpairedAgeMax.toNat) (lookAt lowered t) before rest := by
  induction rest generalizing before skip with
  | nil =>
    refine iff_of_false ?_ id
    rintro ⟨r, h⟩
    cases skip with
    | zero => cases h
    | succ n => cases h
  | cons c rest ih =>
    obtain rfl | ⟨rfl, hdigit⟩ := hskip
    · by_cases hpass : (!c.isDigit || before.getLast?.any Char.isAlphanum) = true
      · rw [scanFrom, if_pos hpass, ih _ 0 (Or.inl rfl)]
        refine (firstFree_of_not ?_).symm
        rw [Bool.or_eq_true, Bool.not_eq_true'] at hpass
        rcases hpass with hc | hstart
        · exact not_tokenAt_of_digit hc
        · exact not_tokenAt_of_start hstart
      · rw [scanFrom, if_neg hpass]
        rw [Bool.not_eq_true, Bool.or_eq_false_iff, Bool.not_eq_false'] at hpass
        obtain ⟨hc, hstart⟩ := hpass
        have hnext := ih (before ++ [c]) ((numberOf c rest).length - 1) (by
          obtain h | ⟨d, tail, -, -, h⟩ := numberOf_cases c rest
          · exact Or.inl (h ▸ rfl)
          · refine Or.inr ⟨h ▸ rfl, ?_⟩
            rw [List.getLast?_concat]
            exact isAlphanum_of_isDigit hc)
        have htoken : TokenAt U (min 17 t.unpairedAgeMax.toNat) before (c :: rest) ↔ _ :=
          tokenAt_iff hc hstart
        by_cases hrange : MIN_AGE ≤ ageOf (numberOf c rest) ∧ ageOf (numberOf c rest) ≤ 17
        · rw [if_pos hrange]
          by_cases hunit : ageOf (numberOf c rest) ≤ t.unpairedAgeMax.toNat ∧
              YearUnit U before ((c :: rest).drop (numberOf c rest).length)
          · have htry := tryToken_of_unit hU lowered hunit.1 hunit.2
            rw [firstFree_of_token (htoken.mpr
              ⟨⟨hrange.1, le_min hrange.2 hunit.1⟩, hunit.2⟩), ← hnext]
            exact found_iff htry
          · rw [tryToken_of_not hU hunit, Option.bind_some, Option.elim_none, hnext]
            refine (firstFree_of_not fun h => hunit ?_).symm
            exact ⟨(htoken.mp h).1.2.trans (min_le_right _ _), (htoken.mp h).2⟩
        · rw [if_neg hrange, hnext]
          refine (firstFree_of_not fun h => hrange ?_).symm
          exact ⟨(htoken.mp h).1.1, (htoken.mp h).1.2.trans (min_le_left _ _)⟩
    · rw [scanFrom, ih _ 0 (Or.inl rfl)]
      exact (firstFree_of_not (not_tokenAt_of_start hdigit)).symm

end Scan

end Ed2kServer.Filter.AgeScan
