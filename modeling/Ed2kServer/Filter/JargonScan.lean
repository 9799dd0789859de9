import Ed2kServer.Filter.Jargon

namespace Ed2kServer.Filter.JargonScan

open Ed2kServer.Text.Chars Ed2kServer.Text.ByteSlices Ed2kServer.Filter.Jargon
open Ed2kServer.Filter.Check (isCombiningMark)

def isSep (c : Char) : Bool := SEPARATORS.contains c

/-- The walk from character to character. -/
def walkChars : Str → Str → Option Str
  | s, [] => some s
  | s, t :: text =>
    if t = ' ' then
      if s.takeWhile isSep = [] then none else walkChars (s.dropWhile isSep) text
    else
      match s with
      | c :: s => if c = t then walkChars s text else none
      | [] => none

def flexible (text : Str) : Bool := text.contains ' ' && isAscii text

/-- What follows the term where it stands at the front. -/
def here (text s : Str) : Option Str :=
  if flexible text then
    if s.head? = text.head? then walkChars s text else none
  else if text.isPrefixOf s then some (s.drop text.length) else none

/-- What is before the first place where the term stands, and what follows it. -/
def firstHere (text : Str) : Str → Option (Str × Str)
  | [] => (here text []).map ([], ·)
  | c :: s =>
    match here text (c :: s) with
    | some rest => some ([], rest)
    | none => (firstHere text s).map fun x => (c :: x.1, x.2)

def width (s : Str) : Nat := (utf8 s).length

variable {text s t pre suf rest mid : Str} {c : Char}

theorem width_append (s t : Str) : width (s ++ t) = width s + width t := by
  rw [width, utf8, List.flatMap_append, List.length_append]
  rfl

theorem width_cons (c : Char) (s : Str) : width (c :: s) = c.utf8Size + width s :=
  length_utf8_cons c s

theorem sliceFrom_width (s t : Str) : sliceFrom (width s) (s ++ t) = some t := sliceFrom_append s t

theorem sliceFrom_width_add (s t : Str) (n : Nat) :
    sliceFrom (width s + n) (s ++ t) = sliceFrom n t := by
  induction s with
  | nil => rw [List.nil_append, show width [] = 0 from rfl, Nat.zero_add]
  | cons c s ih =>
    have hc := c.utf8Size_pos
    obtain ⟨k, hk⟩ : ∃ k, width (c :: s) + n = k + 1 :=
      Nat.exists_eq_add_one_of_ne_zero (by rw [width_cons]; omega)
    have hrest : k + 1 - c.utf8Size = width s + n := by
      rw [← hk, width_cons]
      omega
    rw [hk, List.cons_append, sliceFrom, hrest, if_pos (by rw [← hk, width_cons]; omega), ih]

theorem drop_width (s t : Str) : (utf8 (s ++ t)).drop (width s) = utf8 t := by
  rw [utf8, List.flatMap_append]
  exact List.drop_left

/-- No offset inside a character is a boundary. -/
theorem boundaryFrom_eq {fuel k : Nat} (hk : 0 < k) (hle : k ≤ c.utf8Size)
    (hfuel : c.utf8Size ≤ fuel + k) :
    boundaryFrom (pre ++ c :: suf) fuel (width pre + k) = width (pre ++ [c]) := by
  have hwidth : width (pre ++ [c]) = width pre + c.utf8Size := by
    rw [width_append, width_cons]
    rfl
  induction fuel generalizing k with
  | zero => rw [boundaryFrom, hwidth, Nat.le_antisymm hle (by omega)]
  | succ fuel ih =>
    rw [boundaryFrom, sliceFrom_width_add]
    rcases Nat.lt_or_eq_of_le hle with hlt | heq
    · obtain ⟨n, rfl⟩ := Nat.exists_eq_add_one_of_ne_zero (Nat.ne_of_gt hk)
      have hin : width pre + (n + 1) < (utf8 (pre ++ c :: suf)).length := by
        have hall := width_append pre (c :: suf)
        rw [width_cons] at hall
        change _ < width (pre ++ c :: suf)
        omega
      rw [if_pos ⟨hin, by rw [sliceFrom, if_neg (by omega)]⟩, Nat.add_assoc]
      exact ih (by omega) (by omega) (by omega)
    · have hslice : sliceFrom k (c :: suf) = some suf := by
        have h := sliceFrom_width [c] suf
        rwa [width_cons, show width [] = 0 from rfl, Nat.add_zero, ← heq] at h
      rw [if_neg (by rw [hslice]; exact fun h => absurd h.2 (Option.some_ne_none _)), hwidth, heq]

theorem nextCharBoundary_eq (pre : Str) (c : Char) (suf : Str) :
    nextCharBoundary (pre ++ c :: suf) (width pre) = width (pre ++ [c]) := by
  refine boundaryFrom_eq Nat.one_pos c.utf8Size_pos ?_
  have hall := width_append pre (c :: suf)
  rw [width_cons] at hall
  change _ ≤ width (pre ++ c :: suf) + 1
  omega

theorem isSeparator_ascii (h : c.toNat < 128) : isSeparator (UInt8.ofNat c.toNat) = isSep c := by
  have hall : ∀ n < 128, isSeparator (UInt8.ofNat n) = isSep (Char.ofNat n) := by decide
  have hc := hall c.toNat h
  rwa [Char.ofNat_toNat] at hc

theorem isSep_ascii (h : isSep c = true) : c.toNat < 128 := by
  rw [isSep, List.contains_iff_mem] at h
  fin_cases h <;> decide

theorem separators_utf8 (s : Str) :
    (utf8 s).takeWhile isSeparator = utf8 (s.takeWhile isSep) ∧
      (utf8 s).dropWhile isSeparator = utf8 (s.dropWhile isSep) := by
  induction s with
  | nil => exact ⟨rfl, rfl⟩
  | cons c s ih =>
    rw [utf8_cons]
    by_cases hc : c.toNat < 128
    · rw [utf8EncodeChar_ascii hc, List.singleton_append, List.takeWhile_cons, List.dropWhile_cons,
        isSeparator_ascii hc, List.takeWhile_cons, List.dropWhile_cons]
      cases isSep c with
      | true =>
        rw [if_pos rfl, if_pos rfl, if_pos rfl, if_pos rfl, utf8_cons, utf8EncodeChar_ascii hc,
          ih.1, ih.2]
        exact ⟨rfl, rfl⟩
      | false =>
        simp only [Bool.false_eq_true, if_false]
        rw [utf8_cons, utf8EncodeChar_ascii hc]
        exact ⟨rfl, rfl⟩
    · obtain ⟨b, rest, hb, hwide⟩ := utf8EncodeChar_wide (by omega : 128 ≤ c.toNat)
      have hbyte : isSeparator b = false := by
        rw [← Bool.not_eq_true, isSeparator]
        intro h
        simp only [Bool.or_eq_true, beq_iff_eq] at h
        rcases h with ((rfl | rfl) | rfl) | rfl <;> exact absurd hwide (by decide)
      have hchar : isSep c = false := by
        rw [← Bool.not_eq_true]
        exact fun h => hc (isSep_ascii h)
      rw [hb, List.cons_append, List.takeWhile_cons, List.dropWhile_cons, hbyte,
        List.takeWhile_cons, List.dropWhile_cons, hchar]
      simp only [Bool.false_eq_true, if_false]
      rw [utf8_cons, hb]
      exact ⟨rfl, rfl⟩

theorem walk_cons (hb : List UInt8) (t : UInt8) (tb : List UInt8) :
    walk hb (t :: tb) =
      if t = 32 then
        if (hb.takeWhile isSeparator).length = 0 then none
        else walk (hb.dropWhile isSeparator) tb
      else
        match hb with
        | b :: hb => if b = t then walk hb tb else none
        | [] => none := by
  cases hb <;> rfl

theorem walkChars_cons (s : Str) (t : Char) (text : Str) :
    walkChars s (t :: text) =
      if t = ' ' then
        if s.takeWhile isSep = [] then none else walkChars (s.dropWhile isSep) text
      else
        match s with
        | c :: s => if c = t then walkChars s text else none
        | [] => none := by
  cases s <;> rfl

/-- Against an ASCII term the bytes are walked as the characters are. -/
theorem walk_utf8 (htext : isAscii text = true) (s : Str) :
    walk (utf8 s) (utf8 text) = (walkChars s text).map utf8 := by
  induction text generalizing s with
  | nil => rfl
  | cons t text ih =>
    rw [isAscii, List.all_cons, Bool.and_eq_true, decide_eq_true_iff] at htext
    obtain ⟨ht, htext⟩ := htext
    have hspace : UInt8.ofNat t.toNat = 32 ↔ t = ' ' := by
      rw [← UInt8.toNat_inj, UInt8.toNat_ofNat', Nat.mod_eq_of_lt (by omega), ← Char.toNat_inj]
      rfl
    rw [utf8_cons t, utf8EncodeChar_ascii ht, List.singleton_append, walk_cons, walkChars_cons,
      (separators_utf8 s).1, (separators_utf8 s).2]
    by_cases hts : t = ' '
    · rw [if_pos (hspace.mpr hts), if_pos hts]
      by_cases hrun : s.takeWhile isSep = []
      · rw [if_pos (by rw [hrun]; rfl), if_pos hrun]
        rfl
      · rw [if_neg, if_neg hrun, ih htext]
        intro hlen
        cases hrun' : s.takeWhile isSep with
        | nil => exact hrun hrun'
        | cons c run =>
          have hc := c.utf8Size_pos
          rw [hrun', length_utf8_cons] at hlen
          omega
    · rw [if_neg (mt hspace.mp hts), if_neg hts]
      cases s with
      | nil => rfl
      | cons c s =>
        rw [utf8_cons c]
        by_cases hc : c.toNat < 128
        · have hbyte : UInt8.ofNat c.toNat = UInt8.ofNat t.toNat ↔ c = t := by
            rw [← UInt8.toNat_inj, UInt8.toNat_ofNat', UInt8.toNat_ofNat',
              Nat.mod_eq_of_lt (by omega), Nat.mod_eq_of_lt (by omega), Char.toNat_inj]
          rw [utf8EncodeChar_ascii hc, List.singleton_append]
          dsimp only
          by_cases hct : c = t
          · rw [if_pos (hbyte.mpr hct), if_pos hct, ih htext]
          · rw [if_neg (mt hbyte.mp hct), if_neg hct]
            rfl
        · obtain ⟨b, rest, hb, hwide⟩ := utf8EncodeChar_wide (by omega : 128 ≤ c.toNat)
          have hne : b ≠ UInt8.ofNat t.toNat := by
            rintro rfl
            rw [UInt8.toNat_ofNat'] at hwide
            omega
          have hct : c ≠ t := by
            rintro rfl
            exact hc ht
          rw [hb, List.cons_append]
          dsimp only
          rw [if_neg hne, if_neg hct]
          rfl

theorem suffix_of_walkChars (h : walkChars s text = some rest) : rest <:+ s := by
  induction text generalizing s with
  | nil =>
    obtain rfl := Option.some.inj h
    exact List.suffix_refl s
  | cons t text ih =>
    rw [walkChars_cons] at h
    split_ifs at h
    · exact (ih h).trans (List.dropWhile_suffix isSep)
    · cases s with
      | nil => cases h
      | cons c s =>
        dsimp only at h
        split_ifs at h
        exact (ih h).trans (List.suffix_cons c s)

theorem suffix_of_here (h : here text s = some rest) : rest <:+ s := by
  rw [here] at h
  split_ifs at h
  · exact suffix_of_walkChars h
  · obtain rfl := Option.some.inj h
    exact List.drop_suffix _ _

theorem firstHere_eq_some {x : Str × Str} (h : firstHere text s = some x) :
    ∃ place, s = x.1 ++ place ∧ here text place = some x.2 ∧
      ∀ a b, x.1 = a ++ b → b ≠ [] → here text (b ++ place) = none := by
  induction s generalizing x with
  | nil =>
    obtain ⟨rest, hrest, rfl⟩ := Option.map_eq_some_iff.mp h
    refine ⟨[], rfl, hrest, fun a b hab hb => ?_⟩
    exact absurd (List.append_eq_nil_iff.mp hab.symm).2 hb
  | cons c s ih =>
    rw [firstHere] at h
    cases hhere : here text (c :: s) with
    | some rest =>
      rw [hhere] at h
      obtain rfl := Option.some.inj h
      refine ⟨c :: s, rfl, hhere, fun a b hab hb => ?_⟩
      exact absurd (List.append_eq_nil_iff.mp hab.symm).2 hb
    | none =>
      rw [hhere] at h
      obtain ⟨y, hy, rfl⟩ := Option.map_eq_some_iff.mp h
      obtain ⟨place, rfl, hplace, hbefore⟩ := ih hy
      refine ⟨place, rfl, hplace, fun a b hab hb => ?_⟩
      cases a with
      | nil =>
        rw [List.nil_append] at hab
        rw [← hab]
        exact hhere
      | cons d a => exact hbefore a b (List.cons.inj hab).2 hb

theorem firstHere_skip (hskip : ∀ a b, mid = a ++ b → b ≠ [] → here text (b ++ s) = none) :
    firstHere text (mid ++ s) = (firstHere text s).map fun x => (mid ++ x.1, x.2) := by
  induction mid with
  | nil => exact Option.map_id'.symm
  | cons c mid ih =>
    have hhere := hskip [] (c :: mid) rfl (List.cons_ne_nil c mid)
    rw [List.cons_append] at hhere ⊢
    rw [firstHere, hhere, ih fun a b hab hb => hskip (c :: a) b (by rw [hab]; rfl) hb]
    cases firstHere text s <;> rfl

theorem here_verbatim (htext : flexible text = false) (s : Str) :
    here text s = if text.isPrefixOf s then some (s.drop text.length) else none := by
  rw [here, htext]
  rfl

theorem here_flexible (htext : flexible text = true) (s : Str) :
    here text s = if s.head? = text.head? then walkChars s text else none := by
  rw [here, htext]
  rfl

/-- A verbatim search finds the first place. -/
theorem findStr_eq (htext : flexible text = false) (s : Str) :
    findStr text s = (firstHere text s).map fun x => width x.1 := by
  induction s with
  | nil =>
    rw [firstHere, here_verbatim htext]
    cases text <;> rfl
  | cons c s ih =>
    rw [findStr, firstHere, here_verbatim htext]
    split_ifs with hp
    · rfl
    · rw [ih]
      cases firstHere text s with
      | none => rfl
      | some x => exact congrArg some (width_cons c x.1).symm

/-- A search for one character finds the first one. -/
theorem findChar_eq (first : Char) (s : Str) :
    (findStr [first] s = none ∧ first ∉ s) ∨
      ∃ mid rest, s = mid ++ first :: rest ∧ first ∉ mid ∧
        findStr [first] s = some (width mid) := by
  induction s with
  | nil => exact .inl ⟨rfl, List.not_mem_nil⟩
  | cons c s ih =>
    rw [findStr]
    by_cases hc : first = c
    · refine .inr ⟨[], s, by rw [hc]; rfl, List.not_mem_nil, ?_⟩
      rw [hc, if_pos (by simp)]
      rfl
    · rw [if_neg (by simpa using hc)]
      rcases ih with ⟨hnone, hmem⟩ | ⟨mid, rest, rfl, hmem, hsome⟩
      · refine .inl ⟨by rw [hnone]; rfl, ?_⟩
        rw [List.mem_cons]
        exact not_or.mpr ⟨hc, hmem⟩
      · refine .inr ⟨c :: mid, rest, rfl, ?_, ?_⟩
        · rw [List.mem_cons]
          exact not_or.mpr ⟨hc, hmem⟩
        · rw [hsome, width_cons]
          rfl

/-- Where a match ends, as an offset. -/
theorem stop_eq {place : Str} (hrest : rest <:+ place) (pre : Str) :
    ∃ body, place = body ++ rest ∧
      width (pre ++ place) - width rest = width (pre ++ body) := by
  obtain ⟨body, rfl⟩ := hrest
  refine ⟨body, rfl, ?_⟩
  rw [← List.append_assoc, width_append, Nat.add_sub_cancel]

/-- A search with spaces standing for separators finds the first place, too. -/
theorem flexibleFrom_eq (htext : flexible text = true) {fuel : Nat} (hfuel : s.length < fuel)
    (pre : Str) :
    flexibleFrom (pre ++ s) text (text.headD ' ') fuel (width pre) =
      some ((firstHere text s).map fun x =>
        (width (pre ++ x.1), width (pre ++ s) - width x.2)) := by
  have hhead : text.head? = some (text.headD ' ') := by
    cases text with
    | nil => cases htext
    | cons c text => rfl
  have hascii : isAscii text = true := (Bool.and_eq_true _ _ ▸ htext : _ ∧ _).2
  generalize text.headD ' ' = first at hhead ⊢
  have hnone : ∀ u : Str, u.head? ≠ some first → here text u = none := by
    intro u hu
    rw [here_flexible htext, hhead, if_neg hu]
  induction fuel generalizing pre s with
  | zero => cases hfuel
  | succ fuel ih =>
    rw [flexibleFrom]
    cases hs : s with
    | nil =>
      have hend : ¬width pre < (utf8 pre).length := Nat.lt_irrefl _
      rw [List.append_nil, if_neg hend, firstHere, hnone [] nofun]
      rfl
    | cons c s' =>
      have hlt : width pre < (utf8 (pre ++ c :: s')).length := by
        have hc := c.utf8Size_pos
        change _ < width (pre ++ c :: s')
        rw [width_append, width_cons]
        omega
      rw [if_pos hlt, sliceFrom_width, ← hs]
      rcases findChar_eq first s with ⟨hfind, hmem⟩ | ⟨mid, rest, rfl, hmem, hfind⟩
      · have hfirst : firstHere text s = none := by
          rw [Option.eq_none_iff_forall_ne_some]
          intro x hx
          obtain ⟨place, rfl, hplace, -⟩ := firstHere_eq_some hx
          rw [hnone place fun hhead => hmem (List.mem_append_right _ (List.mem_of_mem_head? hhead))]
            at hplace
          cases hplace
        simp only [hfind, hfirst, Option.bind_eq_bind, Option.bind_some, Option.pure_def,
          Option.map_none]
      · have hskip : ∀ a b, mid = a ++ b → b ≠ [] → here text (b ++ first :: rest) = none := by
          rintro a b rfl hb
          refine hnone _ fun hhead => hmem (List.mem_append_right a ?_)
          rw [List.head?_append_of_ne_nil b hb] at hhead
          exact List.mem_of_mem_head? hhead
        have hplace : here text (first :: rest) = walkChars (first :: rest) text := by
          rw [here_flexible htext, hhead]
          exact if_pos rfl
        have hwalk : walk ((utf8 (pre ++ (mid ++ first :: rest))).drop (width pre + width mid))
            (utf8 text) = (walkChars (first :: rest) text).map utf8 := by
          rw [← width_append, ← List.append_assoc, drop_width, walk_utf8 hascii]
        have hnext : nextCharBoundary (pre ++ (mid ++ first :: rest)) (width pre + width mid) =
            width (pre ++ mid ++ [first]) := by
          rw [← width_append, ← List.append_assoc, nextCharBoundary_eq]
        have hrec := ih (s := rest) (by simp at hfuel; omega) (pre ++ mid ++ [first])
        have happ : pre ++ mid ++ [first] ++ rest = pre ++ (mid ++ first :: rest) := by simp
        rw [happ] at hrec
        rw [firstHere_skip hskip, firstHere, hplace]
        simp only [hfind, Option.bind_eq_bind, Option.bind_some, hwalk, hnext, hrec]
        cases walkChars (first :: rest) text with
        | some left =>
          simp only [Option.map_some, List.append_nil, width_append pre mid]
          rfl
        | none =>
          simp only [Option.map_none, Option.map_map]
          congr 2
          funext x
          simp


theorem findFlexible_eq (text pre s : Str) :
    findFlexible (pre ++ s) text (width pre) =
      some ((firstHere text s).map fun x =>
        (width (pre ++ x.1), width (pre ++ s) - width x.2)) := by
  rw [findFlexible]
  cases htext : flexible text with
  | true =>
    have hnot : (!text.contains ' ' || !isAscii text) = false := by
      rw [← Bool.not_and, ← flexible, htext]
      rfl
    have hfuel : s.length < (utf8 (pre ++ s)).length + 1 := by
      have hlen := Text.Utf8.length_le_utf8 (pre ++ s)
      rw [List.length_append] at hlen
      omega
    rw [hnot, flexibleFrom_eq htext hfuel]
    rfl
  | false =>
    have hnot : (!text.contains ' ' || !isAscii text) = true := by
      rw [← Bool.not_and, ← flexible, htext]
      rfl
    rw [hnot, if_pos rfl, sliceFrom_width, Option.bind_eq_bind, Option.bind_some,
      findStr_eq htext]
    cases hfirst : firstHere text s with
    | none => rfl
    | some x =>
      obtain ⟨place, rfl, hplace, -⟩ := firstHere_eq_some hfirst
      rw [here_verbatim htext] at hplace
      split_ifs at hplace with hp
      obtain ⟨rest, rfl⟩ := List.isPrefixOf_iff_prefix.mp hp
      have hrest := Option.some.inj hplace
      rw [List.drop_left] at hrest
      have hwhole := width_append (pre ++ x.1) (text ++ rest)
      rw [List.append_assoc, width_append text] at hwhole
      refine congrArg some (congrArg some (Prod.ext (width_append pre x.1).symm ?_))
      change width pre + width x.1 + width text = width (pre ++ (x.1 ++ (text ++ rest))) - width x.2
      rw [hwhole, width_append, ← hrest]
      omega

variable (U : Unicode)

/-- The left boundary of a term that is preceded by `pre`. -/
def leftFree (text pre : Str) : Bool :=
  !edgeIsAsciiWord (utf8 text).head? ||
    !(pre.reverse.find? (!isCombiningMark ·)).any (isLetterChar U)

/-- The right boundary of a term that is followed by `rest`. -/
def rightFree (text : Str) (right : RightRule) (rest : Str) : Bool :=
  !(right != .free && edgeIsAsciiWord (utf8 text).getLast?) || mayFollow U right rest.head?

/-- The term stands somewhere in `s`, which is preceded by `pre`, with its boundaries. -/
def Found (text : Str) (right : RightRule) (pre s : Str) : Prop :=
  ∃ mid place rest, s = mid ++ place ∧ here text place = some rest ∧
    leftFree U text (pre ++ mid) = true ∧ rightFree U text right rest = true

variable {U} {right : RightRule}

theorem beforeOk_eq (text pre s : Str) :
    beforeOk U (pre ++ s) (edgeIsAsciiWord (utf8 text).head?) (width pre) =
      some (leftFree U text pre) := by
  rw [beforeOk, leftFree, charBefore, width, sliceTo_append]
  cases edgeIsAsciiWord (utf8 text).head? <;> rfl

theorem afterOk_eq (text pre rest : Str) (right : RightRule) :
    afterOk U (pre ++ rest) right (right != .free && edgeIsAsciiWord (utf8 text).getLast?)
      (width pre) = some (rightFree U text right rest) := by
  rw [afterOk, rightFree, charAt, sliceFrom_width]
  cases right != .free && edgeIsAsciiWord (utf8 text).getLast? <;> rfl

theorem firstHere_eq_none (h : firstHere text s = none) (hs : s = mid ++ rest) :
    here text rest = none := by
  induction s generalizing mid with
  | nil =>
    obtain ⟨rfl, rfl⟩ := List.append_eq_nil_iff.mp hs.symm
    exact Option.map_eq_none_iff.mp h
  | cons c s ih =>
    rw [firstHere] at h
    cases hhere : here text (c :: s) with
    | some left =>
      rw [hhere] at h
      cases h
    | none =>
      rw [hhere] at h
      cases mid with
      | nil => rwa [hs, List.nil_append] at hhere
      | cons d mid => exact ih (Option.map_eq_none_iff.mp h) (List.cons.inj hs).2

/-- After a place without its boundaries only the later ones count. -/
theorem found_later {place : Str} (hplace : here text (c :: place) = some rest)
    (hbefore : ∀ a b, mid = a ++ b → b ≠ [] → here text (b ++ c :: place) = none)
    (hfree : ¬(leftFree U text (pre ++ mid) = true ∧ rightFree U text right rest = true)) :
    Found U text right pre (mid ++ c :: place) ↔
      Found U text right (pre ++ mid ++ [c]) place := by
  constructor
  · rintro ⟨mid', place', rest', heq, hplace', hleft, hright⟩
    rcases List.append_eq_append_iff.mp heq with ⟨a, rfl, h⟩ | ⟨b, rfl, rfl⟩
    · cases a with
      | nil =>
        rw [List.append_nil] at hleft
        rw [List.nil_append] at h
        rw [← h, hplace] at hplace'
        obtain rfl := Option.some.inj hplace'
        exact absurd ⟨hleft, hright⟩ hfree
      | cons d a =>
        obtain ⟨rfl, rfl⟩ := List.cons.inj h
        refine ⟨a, place', rest', rfl, hplace', ?_, hright⟩
        have happ : pre ++ (mid ++ c :: a) = pre ++ mid ++ [c] ++ a := by simp
        rwa [← happ]
    · by_cases hb : b = []
      · subst hb
        rw [List.nil_append, hplace] at hplace'
        rw [List.append_nil] at hfree
        obtain rfl := Option.some.inj hplace'
        exact absurd ⟨hleft, hright⟩ hfree
      · rw [hbefore mid' b rfl hb] at hplace'
        cases hplace'
  · rintro ⟨mid', place', rest', rfl, hplace', hleft, hright⟩
    refine ⟨mid ++ c :: mid', place', rest', by simp, hplace', ?_, hright⟩
    have happ : pre ++ (mid ++ c :: mid') = pre ++ mid ++ [c] ++ mid' := by simp
    rwa [happ]

theorem free_of_nil (pre rest : Str) (right : RightRule) :
    leftFree U [] pre = true ∧ rightFree U [] right rest = true := by
  refine ⟨rfl, ?_⟩
  rw [rightFree, show (utf8 ([] : Str)).getLast? = none from rfl, edgeIsAsciiWord, Option.any_none,
    Bool.and_false]
  rfl

/-- The loop over the places ends, without a panic, and finds a place with its boundaries. -/
theorem containsFrom_eq {fuel : Nat} (hfuel : s.length < fuel) (pre : Str) :
    ∃ b, containsFrom U (pre ++ s) text right fuel (width pre) = some b ∧
      (b = true ↔ Found U text right pre s) := by
  induction fuel generalizing pre s with
  | zero => cases hfuel
  | succ fuel ih =>
    rw [containsFrom, findFlexible_eq, Option.bind_eq_bind, Option.bind_some]
    cases hfirst : firstHere text s with
    | none =>
      refine ⟨false, rfl, iff_of_false Bool.false_ne_true ?_⟩
      rintro ⟨mid, place, rest, heq, hplace, -⟩
      rw [firstHere_eq_none hfirst heq] at hplace
      cases hplace
    | some x =>
      obtain ⟨mid, rest⟩ := x
      obtain ⟨place, rfl, hplace, hbefore⟩ := firstHere_eq_some hfirst
      dsimp only at hfuel hplace hbefore ⊢
      obtain ⟨body, rfl, hstop⟩ := stop_eq (suffix_of_here hplace) (pre ++ mid)
      have hb := beforeOk_eq (U := U) text (pre ++ mid) (body ++ rest)
      have ha := afterOk_eq (U := U) text (pre ++ mid ++ body) rest right
      simp only [List.append_assoc] at hb ha hstop ⊢
      simp only [Option.map_some, hstop, hb, ha, Option.bind_eq_bind, Option.bind_some]
      by_cases hfree : leftFree U text (pre ++ mid) = true ∧ rightFree U text right rest = true
      · rw [hfree.1, hfree.2]
        exact ⟨true, rfl, iff_of_true rfl ⟨mid, body ++ rest, rest, rfl, hplace, hfree.1, hfree.2⟩⟩
      · rw [if_neg (by rwa [Bool.and_eq_true])]
        have hne : body ++ rest ≠ [] := by
          intro hnil
          rw [hnil] at hplace
          cases text with
          | nil =>
            obtain ⟨hleft, hright⟩ := free_of_nil (U := U) (pre ++ mid) rest right
            exact hfree ⟨hleft, hright⟩
          | cons t text =>
            rw [here] at hplace
            cases hplace' : flexible (t :: text) <;> rw [hplace'] at hplace <;> cases hplace
        obtain ⟨c, place, hc⟩ := List.exists_cons_of_ne_nil hne
        rw [hc] at hplace hbefore hfuel ⊢
        have hnext := nextCharBoundary_eq (pre ++ mid) c place
        rw [List.append_assoc] at hnext
        rw [hnext, found_later hplace hbefore hfree]
        have hrec := ih (s := place) (by simp at hfuel; omega) (pre ++ mid ++ [c])
        have happ : pre ++ mid ++ [c] ++ place = pre ++ (mid ++ c :: place) := by simp
        rwa [happ] at hrec

/-- The search is total, and goes by the places where the term stands. -/
theorem containsBounded_eq (lowered text : Str) (right : RightRule) :
    ∃ b, containsBounded U lowered text right = some b ∧
      (b = true ↔ Found U text right [] lowered) := by
  have hlen := Text.Utf8.length_le_utf8 lowered
  exact containsFrom_eq (Nat.lt_succ_of_lt (Nat.lt_succ_of_le hlen)) []

end Ed2kServer.Filter.JargonScan
