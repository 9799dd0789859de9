import Ed2kServer.Filter.JargonExact
import Ed2kServer.Filter.Prefilter
import Mathlib.Data.List.Find

namespace Ed2kServer.Filter.PrefilterExact

open Ed2kServer.Text.Chars Ed2kServer.Text.ByteSlices Ed2kServer.Lib
open Ed2kServer.Filter.Jargon Ed2kServer.Filter.JargonScan Ed2kServer.Filter.JargonExact
open Ed2kServer.Filter.Prefilter

variable {A : AhoCorasick} {U : Unicode} {loose : Bool} {text mid name term lit : Str}
  {terms : List Str} {c : Bitset.Words}

theorem splitOn_cons (d c : Char) (text : Str) :
    (c :: text).splitOn d =
      if c = d then [] :: text.splitOn d else (text.splitOn d).modifyHead (c :: ·) := by
  rw [List.splitOn, List.splitOnP_cons_eq_if_modifyHead]
  simp only [beq_iff_eq]
  rfl

/-- The pieces between the spaces stand in whatever the text is written as, the first in front. -/
theorem pieces_infix (h : WrittenAs loose text mid) :
    ∃ first others, text.splitOn ' ' = first :: others ∧ first <+: mid ∧
      ∀ piece ∈ others, piece <:+: mid := by
  induction h with
  | nil => exact ⟨[], [], rfl, List.prefix_rfl, nofun⟩
  | @char c text s _ _ ih =>
    obtain ⟨first, others, hsplit, hfirst, hothers⟩ := ih
    rw [splitOn_cons, hsplit]
    split_ifs
    · refine ⟨[], first :: others, rfl, List.nil_prefix, List.forall_mem_cons.mpr ⟨?_, ?_⟩⟩
      · exact List.infix_cons hfirst.isInfix
      · exact fun piece hpiece => List.infix_cons (hothers piece hpiece)
    · exact ⟨c :: first, others, rfl, List.cons_prefix_cons.mpr ⟨rfl, hfirst⟩,
        fun piece hpiece => List.infix_cons (hothers piece hpiece)⟩
  | @run run text s _ _ _ _ ih =>
    obtain ⟨first, others, hsplit, hfirst, hothers⟩ := ih
    have hbehind : s <:+: run ++ s := (List.suffix_append run s).isInfix
    rw [splitOn_cons, hsplit, if_pos rfl]
    refine ⟨[], first :: others, rfl, List.nil_prefix, List.forall_mem_cons.mpr ⟨?_, ?_⟩⟩
    · exact hfirst.isInfix.trans hbehind
    · exact fun piece hpiece => (hothers piece hpiece).trans hbehind

theorem mem_of_longest {ps : List Str} (h : longest ps = some lit) : lit ∈ ps := by
  induction ps generalizing lit with
  | nil => cases h
  | cons p ps ih =>
    rw [longest] at h
    cases hrest : longest ps with
    | none =>
      rw [hrest] at h
      rw [← Option.some.inj h]
      exact List.mem_cons_self
    | some q =>
      rw [hrest] at h
      dsimp only at h
      split_ifs at h
      · rw [← Option.some.inj h]
        exact List.mem_cons_self
      · exact List.mem_cons_of_mem p (ih (hrest.trans h))

/-- A term is not found without its literal. -/
theorem literal_infix (h : searched U name term = some true)
    (hlit : requiredLiteral term = some lit) : lit <:+: name := by
  obtain ⟨before, place, rest, rfl, hplace, -⟩ := (contains_iff_found _ _ _ _).mp h
  obtain ⟨mid, rfl, hw⟩ := writtenAs_of_here hplace
  have hmid : mid <:+: before ++ (mid ++ rest) := ⟨before, rest, List.append_assoc _ _ _⟩
  refine List.IsInfix.trans ?_ hmid
  rw [requiredLiteral] at hlit
  split_ifs at hlit with hnil hplain
  · have hverbatim : isAscii (splitAnchor term).1 = false ∨ ' ' ∉ (splitAnchor term).1 := by
      rw [← flexible_eq_false, flexible, ← Bool.not_eq_true', Bool.not_and]
      exact hplain
    rw [← Option.some.inj hlit, hw.eq hverbatim]
  · obtain ⟨first, others, hsplit, hfirst, hothers⟩ := pieces_infix hw
    have hmem := (List.mem_filter.mp (mem_of_longest hlit)).1
    rw [hsplit] at hmem
    rcases List.mem_cons.mp hmem with rfl | hmem
    · exact hfirst.isInfix
    · exact hothers lit hmem

/-- The scan finds the first term that is a candidate and found. -/
theorem scan_eq {xs : List (Str × Nat)} (h : ∀ x ∈ xs, ∃ b, Bitset.contains c x.2 = some b) :
    scan U name c xs = some ((xs.find? fun x => !x.1.isEmpty &&
      (Bitset.contains c x.2 == some true && searched U name x.1 == some true)).map Prod.fst) := by
  induction xs with
  | nil => rfl
  | cons x xs ih =>
    obtain ⟨⟨b, hb⟩, hrest⟩ := List.forall_mem_cons.mp h
    obtain ⟨s, hs, -⟩ := containsBounded_eq (U := U) name (splitAnchor x.1).1 (rightRule x.1)
    change searched U name x.1 = some s at hs
    obtain ⟨term, i⟩ := x
    dsimp only at hb hs
    rw [scan, List.find?_cons, hb, hs, ih hrest]
    cases term with
    | nil => rfl
    | cons d term => cases b <;> cases s <;> rfl

/-- Every bit that is asked for is there. -/
theorem candidates_total (hA : A.Exact) (terms : List Str) (name : Str) :
    ∃ c, (TermList.new A terms).candidates A name = some c ∧
      (∀ x ∈ terms.zipIdx, ∃ b, Bitset.contains c x.2 = some b) ∧
      ∀ x ∈ terms.zipIdx, Bitset.contains c x.2 = some true ↔
        ∃ i, i.toNat = x.2 ∧ Hit A (TermList.new A terms) name i := by
  obtain ⟨c, hc, hbits⟩ := candidates_eq hA (sound_new A terms) name
  have hterms : (TermList.new A terms).terms = terms := by
    rw [TermList.new]
    split_ifs <;> rfl
  have hlt : ∀ x ∈ terms.zipIdx, x.2 < (TermList.new A terms).terms.length := by
    intro x hx
    rw [hterms]
    exact (List.mem_zipIdx' hx).1
  refine ⟨c, hc, fun x hx => ?_, fun x hx => ?_⟩
  · obtain ⟨b, hb, -⟩ := hbits x.2 (hlt x hx)
    exact ⟨b, hb⟩
  · obtain ⟨b, hb, hiff⟩ := hbits x.2 (hlt x hx)
    rw [hb, Option.some.injEq, hiff]

/-- The first term that is a candidate and found. -/
theorem matchesTerms_eq (hA : A.Exact) (accepts : Str × Nat → Bool)
    (haccepts : ∀ x ∈ terms.zipIdx, accepts x = true ↔ x.1 ≠ [] ∧
      (∃ i, i.toNat = x.2 ∧ Hit A (TermList.new A terms) name i) ∧
      searched U name x.1 = some true) :
    matchesTerms A U name (TermList.new A terms) =
      some ((terms.zipIdx.find? accepts).map Prod.fst) := by
  have hterms : (TermList.new A terms).terms = terms := by
    rw [TermList.new]
    split_ifs <;> rfl
  obtain ⟨c, hc, htotal, hhit⟩ := candidates_total hA terms name
  rw [matchesTerms, hterms]
  split_ifs with hnil
  · rw [hnil]
    rfl
  · rw [hc, Option.bind_eq_bind, Option.bind_some, scan_eq htotal]
    rw [List.find?_congr fun x hx => ?_]
    rw [Bool.eq_iff_iff, haccepts x hx, ← hhit x hx]
    simp

/-- No term of a list of at most 2 ^ 32 terms is left out that the search would find. -/
theorem matchesTerms_exact (A : AhoCorasick) (U : Unicode) (hA : A.Exact) (terms : List Str)
    (hlen : terms.length ≤ 2 ^ 32)
    (hbuilds : terms.length = 2 ^ 32 → A.builds (distinctLiterals terms) = true) (name : Str) :
    matchesTerms A U name (TermList.new A terms) =
      some (terms.find? fun term => !term.isEmpty && searched U name term == some true) := by
  rw [matchesTerms_eq hA fun x => !x.1.isEmpty && searched U name x.1 == some true]
  · refine congrArg some ?_
    conv => rhs; rw [← List.zipIdx_map_fst 0 terms, List.find?_map]
    rfl
  · intro x hx
    have hterm := List.mem_zipIdx_iff_getElem?.mp hx
    have hlt : x.2 < 2 ^ 32 :=
      Nat.lt_of_lt_of_le (List.getElem?_eq_some_iff.mp hterm).1 hlen
    rw [Bool.and_eq_true, Bool.not_eq_true', List.isEmpty_eq_false_iff, beq_iff_eq]
    refine and_congr_right fun hne => (and_iff_right_of_imp fun hfound => ?_).symm
    refine ⟨UInt32.ofNat x.2, ?_, hit_of_literal hA hterm hne ?_ fun lit => literal_infix hfound⟩
    · rw [UInt32.toNat_ofNat', Nat.mod_eq_of_lt hlt]
    · exact (Nat.lt_or_eq_of_le hlen).imp_right hbuilds

/-- An automaton that tries one pattern after the other. -/
def oneByOne (built : Bool) : AhoCorasick where
  builds _ := built
  findOverlapping literals hay :=
    (List.range literals.length).filter fun p =>
      (literals[p]?).any fun lit => hay.tails.any lit.isPrefixOf

theorem oneByOne_exact (built : Bool) : (oneByOne built).Exact := by
  intro literals hay p
  rw [oneByOne, List.mem_filter, List.mem_range, Option.any_eq_true]
  simp only [List.any_eq_true, List.mem_tails, List.isPrefixOf_iff_prefix,
    List.infix_iff_prefix_suffix]
  constructor
  · rintro ⟨-, lit, hlit, tail, htail, hpre⟩
    exact ⟨lit, hlit, tail, hpre, htail⟩
  · rintro ⟨lit, hlit, tail, hpre, htail⟩
    exact ⟨(List.getElem?_eq_some_iff.mp hlit).1, lit, hlit, tail, htail, hpre⟩

/-- A list without candidates gives nothing. -/
theorem nothing_of_no_hit (hA : A.Exact)
    (h : ∀ j term, terms[j]? = some term → searched U name term = some true →
      ∀ i, i.toNat = j → ¬Hit A (TermList.new A terms) name i) :
    matchesTerms A U name (TermList.new A terms) = some none := by
  rw [matchesTerms_eq hA fun _ => false]
  · rw [List.find?_eq_none.mpr fun _ _ => Bool.false_ne_true]
    rfl
  · rintro x hx
    refine iff_of_false Bool.false_ne_true ?_
    rintro ⟨-, ⟨i, hi, hhit⟩, hfound⟩
    exact h x.2 x.1 (List.mem_zipIdx_iff_getElem?.mp hx) hfound i hi hhit

theorem late_term_left_out {n : Nat} (hn : n = 2 ^ 32) :
    matchesTerms (oneByOne true) basicLatin "b".toList
      (TermList.new (oneByOne true) (List.replicate n "a".toList ++ ["b".toList])) =
        some none := by
  refine nothing_of_no_hit (oneByOne_exact true) fun j term hj hfound i hi _ => ?_
  have hlt : j < n := by
    rw [← hi, hn]
    exact i.toNat_lt
  rw [List.getElem?_append_left (by rwa [List.length_replicate]), List.getElem?_replicate,
    if_pos hlt] at hj
  rw [← Option.some.inj hj, show searched basicLatin "b".toList "a".toList = some false by decide]
    at hfound
  cases hfound

theorem unbuilt_left_out {n : Nat} (hn : n = 2 ^ 32) :
    matchesTerms (oneByOne false) basicLatin "a".toList
      (TermList.new (oneByOne false) (List.replicate n "a".toList)) = some none := by
  refine nothing_of_no_hit (oneByOne_exact false) fun j term hj _ i _ hhit => ?_
  have hfiled := (built_all (List.replicate n "a".toList)).filed j term hj
  rw [List.getElem?_replicate] at hj
  split_ifs at hj
  rw [← Option.some.inj hj] at hfiled
  obtain ⟨p, -, hp, -⟩ := (hfiled (by decide)).pattern "a".toList (by decide)
  rw [TermList.new] at hhit
  split_ifs at hhit with hnil hbuilds
  · rw [hnil] at hp
    cases hp
  · cases hbuilds
  · have hcount : (UInt32.ofNat (List.replicate n "a".toList).length).toNat = 0 := by
      rw [List.length_replicate, UInt32.toNat_ofNat', hn, Nat.mod_self]
    rw [hcount] at hhit
    rcases hhit with hhit | ⟨_, _, _, hac, -⟩
    · cases hhit
    · cases hac

theorem twoScripts_exact :
    matchesTerms (oneByOne true) basicLatin "x-幼女 red_car".toList
        (TermList.new (oneByOne true) ["car$".toList, "red car".toList, "幼女".toList]) =
      some (["car$".toList, "red car".toList, "幼女".toList].find? fun term =>
        !term.isEmpty && searched basicLatin "x-幼女 red_car".toList term == some true) :=
  matchesTerms_exact _ _ (oneByOne_exact true) _ (by decide) (fun _ => rfl) _

/-- The empty term is passed over, and a number of more than 32 bits is cut. -/
theorem empty_and_late_terms_left_out :
    (searched basicLatin "a".toList [] = some true ∧
      matchesTerms (oneByOne true) basicLatin "a".toList (TermList.new (oneByOne true) [[]]) =
        some none) ∧
    (∃ terms : List Str, terms.length = 2 ^ 32 + 1 ∧ "b".toList ∈ terms ∧
      searched basicLatin "b".toList "b".toList = some true ∧
      matchesTerms (oneByOne true) basicLatin "b".toList
        (TermList.new (oneByOne true) terms) = some none) ∧
    ∃ terms : List Str, terms.length = 2 ^ 32 ∧ "a".toList ∈ terms ∧
      searched basicLatin "a".toList "a".toList = some true ∧
      matchesTerms (oneByOne false) basicLatin "a".toList
        (TermList.new (oneByOne false) terms) = some none := by
  refine ⟨by decide, ⟨_, ?_, ?_, by decide, late_term_left_out rfl⟩,
    ⟨_, ?_, ?_, by decide, unbuilt_left_out rfl⟩⟩
  · rw [List.length_append, List.length_replicate]
    rfl
  · exact List.mem_append_right _ (List.mem_singleton_self _)
  · exact List.length_replicate
  · exact List.mem_replicate.mpr ⟨by decide, rfl⟩

end Ed2kServer.Filter.PrefilterExact
